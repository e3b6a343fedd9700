import Practicum.Fault
import Practicum.Net.Network
import Practicum.Table

/-!
# Captured packets

A frame from a capture is taken apart as far as the analyses need it. Every field is what its
header says, also where the bytes that are present disagree.
-/

namespace Practicum.Net.Capture

inductive CaptureError where
  | truncated
  | noType
  | noPacket
  | noEarlierPacket
  | noSource
  deriving DecidableEq, Repr

def CaptureError.fault : CaptureError → Fault
  | truncated => .fieldOverflow
  | noType => .noSuchPart
  | noPacket => .outOfRange
  | noEarlierPacket => .unassigned
  | noSource => .noSuchPart

inductive Frame where
  | blank
  | sized
  | typed (type : Nat) (payload : Bytes)
  deriving DecidableEq, Repr

def Frame.read (bytes : Bytes) : Except CaptureError Frame :=
  if bytes.isEmpty then .ok .blank
  else if bytes.length < 14 then .error .truncated
  else
    let type := bytes.number 12 2
    .ok (if type ≤ 1500 then .sized else .typed type (bytes.drop 14))

structure Segment where
  sourcePort : Nat
  targetPort : Nat
  headerWords : Nat
  deriving DecidableEq, Repr

def Segment.read? (bytes : Bytes) : Option Segment :=
  if bytes.length < 20 then none
  else
    some
      { sourcePort := bytes.number 0 2
        targetPort := bytes.number 2 2
        headerWords := bytes.number 12 1 / 16 }

structure Packet where
  source : Address
  target : Address
  protocol : Nat
  /-- The length of packet and header together, as far as the header says it. -/
  total : Nat
  /-- The length of what the packet carries, by its header. -/
  size : Int
  segment : Option Segment
  deriving DecidableEq, Repr

namespace Packet

def tcp : Nat := 6

def readV4 (bytes : Bytes) : Except CaptureError Packet :=
  if bytes.length < 20 then .error .noPacket
  else
    let headerLength := bytes.number 0 1 % 16 * 4
    let total := bytes.number 2 2
    let offset := bytes.number 6 2 % 0x2000
    let protocol := bytes.number 9 1
    let size : Int := total - headerLength
    let rest := bytes.drop 20
    let payload :=
      if 20 ≤ headerLength then rest.drop (headerLength - 20)
      else rest.drop (rest.length - (20 - headerLength))
    let payload := if 0 ≤ size then payload.take size.toNat else payload
    .ok
      { source := .ofNat .v4 (bytes.number 12 4)
        target := .ofNat .v4 (bytes.number 16 4)
        protocol, total, size
        segment := if protocol = tcp && offset = 0 then Segment.read? payload else none }

def readV6 (bytes : Bytes) : Except CaptureError Packet :=
  if bytes.length < 40 then .error .noPacket
  else
    let size := bytes.number 4 2
    let protocol := bytes.number 6 1
    let payload := (bytes.drop 40).take size
    .ok
      { source := .ofNat .v6 (bytes.number 8 16)
        target := .ofNat .v6 (bytes.number 24 16)
        protocol
        total := 40 + size
        size
        segment := if protocol = tcp then Segment.read? payload else none }

def read (type : Nat) (payload : Bytes) : Except CaptureError (Option Packet) :=
  if type = 0x0800 then (readV4 payload).map some
  else if type = 0x86dd then (readV6 payload).map some
  else .ok none

end Packet

/-- The packet of a frame, if it carries one. A frame without bytes carries none, and a frame with
a length in the place of the type cannot be asked. -/
def Frame.packet : Frame → Except CaptureError (Option Packet)
  | blank => .ok none
  | sized => .error .noType
  | typed type payload => Packet.read type payload

/-!
## Flows

A flow table holds the bytes of each flow under the connection as its first packet gave it.
-/

structure Connection where
  source : Nat
  target : Nat
  sourcePort : Nat
  targetPort : Nat
  deriving DecidableEq, Repr

def Connection.reverse (c : Connection) : Connection :=
  ⟨c.target, c.source, c.targetPort, c.sourcePort⟩

def Packet.connection (p : Packet) (s : Segment) : Connection :=
  ⟨p.source.value, p.target.value, s.sourcePort, s.targetPort⟩

structure Flows where
  frames : Nat := 0
  flows : Nat := 0
  table : Table Connection Int := []
  deriving DecidableEq, Repr

end Practicum.Net.Capture
