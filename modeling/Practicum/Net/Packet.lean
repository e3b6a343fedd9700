import Practicum.Fault
import Practicum.Net.Network

/-!
# Packets

The headers that a controller looks at, how they are read off a frame and how they are written.
-/

namespace Practicum.Net

/-! ## Hardware addresses -/

structure Mac where
  value : Nat
  deriving DecidableEq, Repr

/-- A form of a hardware address: its groups of digits, how many digits a group has, and what
divides the groups. -/
structure MacForm where
  groups : Nat
  fewest : Nat
  most : Nat
  divider : String
  deriving DecidableEq, Repr

namespace Mac

instance : Inhabited Mac := ⟨⟨0⟩⟩

def ofBytes (bytes : Bytes) : Mac :=
  ⟨bytes.toNat⟩

def toBytes (m : Mac) : Bytes :=
  Bytes.ofNat 6 m.value

def text (m : Mac) : String :=
  ":".intercalate (m.toBytes.map fun b => Text.hex 2 b.toNat)

def forms : List MacForm :=
  [⟨6, 1, 2, ":"⟩, ⟨6, 1, 2, "-"⟩, ⟨3, 1, 4, ":"⟩, ⟨3, 1, 4, "-"⟩, ⟨3, 1, 4, "."⟩, ⟨2, 5, 6, "-"⟩,
   ⟨2, 5, 6, ":"⟩]

def readDigits? (s : String) : Option Nat :=
  (s.toList.mapM Address.hexDigit?).map (ofGroups 4)

def readForm? (s : String) (form : MacForm) : Option Mac := do
  let parts := s.splitOn form.divider
  guard (parts.length = form.groups)
  guard (parts.all fun part => form.fewest ≤ part.length && part.length ≤ form.most)
  return ⟨ofGroups (48 / form.groups) (← parts.mapM readDigits?)⟩

def read? (s : String) : Option Mac :=
  match forms.findSome? (readForm? s) with
  | some m => some m
  | none => if s.length = 11 || s.length = 12 then (readDigits? s).map Mac.mk else none

end Mac

structure WrittenMac where
  text : String
  mac? : Option Mac
  deriving DecidableEq, Repr

namespace WrittenMac

def ofText (s : String) : WrittenMac :=
  ⟨s, Mac.read? s⟩

def ofMac (m : Mac) : WrittenMac :=
  ⟨m.text, some m⟩

end WrittenMac

end Practicum.Net

namespace Practicum.Net.Packet

/-!
## Packet headers

A header is read only if there are enough bytes for it and if not all of what is left is zero;
otherwise it is absent, and so are the headers behind it.
-/

structure Ethernet where
  target : Mac
  source : Mac
  type : Nat
  deriving DecidableEq, Repr

def typeIpv4 : Nat := 0x0800
def typeArp : Nat := 0x0806
def typeIpv6 : Nat := 0x86dd

structure Arp where
  opcode : Nat
  sourceMac : Mac
  sourceIp : Address
  targetMac : Mac
  targetIp : Address
  deriving DecidableEq, Repr

/-- The header of an Internet packet. The lengths are the header's own: its length in words of
four bytes, and the length of the packet in bytes, where zero stands for the length at hand. -/
structure Ipv4 where
  version : Nat := 4
  headerWords : Nat := 5
  service : Nat := 0
  total : Nat := 0
  identification : Nat := 0
  fragment : Nat := 0
  hops : Nat := 255
  protocol : Nat
  source : Address
  target : Address
  options : Bytes := []
  deriving DecidableEq, Repr

def protocolTcp : Nat := 6

/-- The header of a TCP segment; a length of zero words stands for the length at hand. -/
structure Tcp where
  sourcePort : Int
  targetPort : Int
  sequence : Nat := 0
  acknowledgement : Nat := 0
  headerWords : Nat := 0
  flags : Nat := 0
  window : Nat := 0
  urgent : Nat := 0
  options : Bytes := []
  deriving DecidableEq, Repr

structure Frame where
  ethernet : Ethernet
  arp : Option Arp := none
  ip : Option Ipv4 := none
  tcp : Option Tcp := none
  payload : Bytes := []
  deriving DecidableEq, Repr

def readable (length : Nat) (bytes : Bytes) : Bool :=
  length ≤ bytes.length && bytes.any (· ≠ 0)

def Arp.read? (bytes : Bytes) : Option Arp :=
  if readable 28 bytes then
    some
      { opcode := bytes.number 6 2
        sourceMac := .ofBytes (bytes.slice 8 14)
        sourceIp := .ofBytes (bytes.slice 14 18)
        targetMac := .ofBytes (bytes.slice 18 24)
        targetIp := .ofBytes (bytes.slice 24 28) }
  else none

def Ipv4.read? (bytes : Bytes) : Option (Ipv4 × Bytes) :=
  if readable 20 bytes then
    let headerWords := bytes.number 0 1 % 16
    let total := bytes.number 2 2
    some
      ({ version := bytes.number 0 1 / 16
         headerWords, total
         service := bytes.number 1 1
         identification := bytes.number 4 2
         fragment := bytes.number 6 2
         hops := bytes.number 8 1
         protocol := bytes.number 9 1
         source := .ofBytes (bytes.slice 12 16)
         target := .ofBytes (bytes.slice 16 20)
         options := bytes.slice 20 (headerWords * 4) },
       bytes.slice (headerWords * 4) total)
  else none

def Tcp.read? (bytes : Bytes) : Option (Tcp × Bytes) :=
  if readable 20 bytes then
    let headerWords := bytes.number 12 1 / 16
    some
      ({ sourcePort := bytes.number 0 2
         targetPort := bytes.number 2 2
         sequence := bytes.number 4 4
         acknowledgement := bytes.number 8 4
         headerWords
         flags := bytes.number 13 1 % 64
         window := bytes.number 14 2
         urgent := bytes.number 18 2
         options := bytes.slice 20 (headerWords * 4) },
       bytes.drop (headerWords * 4))
  else none

namespace Frame

def withTcp (protocol : Nat) (f : Frame) : Frame :=
  if protocol = protocolTcp then
    match Tcp.read? f.payload with
    | some (tcp, payload) => { f with tcp := some tcp, payload }
    | none => f
  else f

def withPacket (f : Frame) : Frame :=
  if f.ethernet.type = typeArp then { f with arp := Arp.read? f.payload }
  else if f.ethernet.type = typeIpv4 then
    match Ipv4.read? f.payload with
    | some (ip, payload) => withTcp ip.protocol { f with ip := some ip, payload }
    | none => f
  else if f.ethernet.type = typeIpv6 && readable 40 f.payload then
    let size := f.payload.number 4 2
    withTcp (f.payload.number 6 1) { f with payload := f.payload.slice 40 (40 + size) }
  else f

def read? (bytes : Bytes) : Option Frame :=
  if readable 14 bytes then
    some <| withPacket
      { ethernet :=
          { target := .ofBytes (bytes.slice 0 6)
            source := .ofBytes (bytes.slice 6 12)
            type := bytes.number 12 2 }
        payload := bytes.drop 14 }
  else none

end Frame

/-!
## Writing packets

Headers are written from the innermost outwards. Checksums are computed; lengths stay as they are
unless they are zero. A frame is filled up with zeros to the least length of the link layer.

The options of a header are taken apart one by one and written again. Kinds of a fixed length take
that many bytes, whatever their own length says. If an option is cut short, all of them stay as
they are.
-/

def fixedOptionLengths : List (UInt8 × Nat) :=
  [(2, 4), (3, 3), (8, 10), (28, 4)]

def optionHeader (kind : UInt8) : Nat :=
  if kind = 29 then 4 else 2

def selectiveAck : UInt8 := 5

/-- An option whose length is given by its second byte: as it is written again, and the rest. -/
def takeSizedOption? (kind : UInt8) (bytes : Bytes) : Option (Bytes × Bytes) :=
  let header := optionHeader kind
  if bytes.length < header then none
  else
    let length := bytes.number 1 1
    let content := bytes.slice header length
    if kind = selectiveAck && content.length % 8 ≠ 0 then none
    else
      let written := [kind, UInt8.ofNat (header + content.length)] ++ bytes.slice 2 header ++ content
      some (written, bytes.drop length)

def takeOption? : Bytes → Option (Bytes × Bytes)
  | [] => none
  | 0 :: rest => some ([0], rest)
  | 1 :: rest => some ([1], rest)
  | 4 :: rest => some ([4, 2], rest.drop 1)
  | kind :: rest =>
    match fixedOptionLengths.lookup kind with
    | some length =>
      if rest.length + 1 < length then none
      else
        some ([kind, UInt8.ofNat length] ++ Bytes.slice 1 (length - 1) rest,
          rest.drop (length - 1))
    | none => takeSizedOption? kind (kind :: rest)

/-- Options as they are written again; none if one of them is cut short, or has no length at all. -/
def normalOptions? (bytes : Bytes) : Option Bytes :=
  if bytes = [] then some []
  else
    match takeOption? bytes with
    | none => none
    | some (written, rest) =>
      if rest.length < bytes.length then (normalOptions? rest).map (written ++ ·) else none
termination_by bytes.length

def writtenOptions (bytes : Bytes) : Bytes :=
  (normalOptions? bytes).getD bytes

/-- The sum of the 16-bit words of bytes, where a last odd byte is followed by a zero. -/
def wordSum : Bytes → Nat
  | [] => 0
  | [a] => a.toNat * 256
  | a :: b :: rest => a.toNat * 256 + b.toNat + wordSum rest

def checksum (bytes : Bytes) : Nat :=
  let sum := wordSum bytes
  let sum := sum % 65536 + sum / 65536
  let sum := sum % 65536 + sum / 65536
  65535 - sum % 65536

inductive WriteError where
  | tooLarge
  | unknownVersion
  | badAddress (text : String)
  | noAddress
  | badMac (text : String)
  deriving DecidableEq, Repr

def WriteError.fault : WriteError → Fault
  | tooLarge => .fieldOverflow
  | unknownVersion => .badValue
  | badAddress text => .badAddress ("invalid IPNetwork address " ++ text ++ "!")
  | noAddress => .wrongKind
  | badMac text => .badAddress ("address " ++ Text.quote text ++ " is not an EUIv48")

def word (n : Int) : Except WriteError Bytes :=
  if 0 ≤ n ∧ n < 65536 then .ok (Bytes.ofNat 2 n.toNat) else .error .tooLarge

namespace Tcp

/-- Options, filled up to whole words and to the length that the header claims. -/
def optionBytes (t : Tcp) : Bytes :=
  if t.options.isEmpty then []
  else
    let options := writtenOptions t.options
    let filled := options.fill ((options.length + 3) / 4 * 4)
    filled.fill (t.headerWords * 4 - 20)

def bytesWith (t : Tcp) (sum : Nat) : Except WriteError Bytes := do
  let options := t.optionBytes
  let words := if t.headerWords = 0 then (20 + options.length) / 4 else t.headerWords
  return (← word t.sourcePort) ++ (← word t.targetPort) ++ Bytes.ofNat 4 t.sequence
    ++ Bytes.ofNat 4 t.acknowledgement ++ Bytes.ofNat 1 (words * 16) ++ Bytes.ofNat 1 t.flags
    ++ Bytes.ofNat 2 t.window ++ Bytes.ofNat 2 sum ++ Bytes.ofNat 2 t.urgent ++ options

def pseudoHeader (ip : Ipv4) (length : Nat) : Bytes :=
  ip.source.toBytes ++ ip.target.toBytes ++ [0] ++ Bytes.ofNat 1 ip.protocol ++ Bytes.ofNat 2 length

/-- The bytes of a header in a packet. The version in the packet's header says what the checksum
covers; the addresses of the packet are none of version 6. -/
def write (ip : Ipv4) (t : Tcp) : Except WriteError Bytes := do
  let blank ← t.bytesWith 0
  if ip.version = 6 then throw (.badAddress ip.source.text)
  else if ip.version ≠ 4 then throw .unknownVersion
  else t.bytesWith (checksum (pseudoHeader ip blank.length ++ blank))

end Tcp

namespace Ipv4

def bytesWith (ip : Ipv4) (total sum : Nat) : Bytes :=
  Bytes.fill (ip.headerWords * 4) <|
    Bytes.ofNat 1 (ip.version * 16 + ip.headerWords) ++ Bytes.ofNat 1 ip.service
      ++ Bytes.ofNat 2 total ++ Bytes.ofNat 2 ip.identification ++ Bytes.ofNat 2 ip.fragment
      ++ Bytes.ofNat 1 ip.hops ++ Bytes.ofNat 1 ip.protocol ++ Bytes.ofNat 2 sum
      ++ ip.source.toBytes ++ ip.target.toBytes ++ ip.options

/-- The bytes of a packet. A header that claims to be shorter than its fields cannot be
written. -/
def write (ip : Ipv4) (payload : Bytes) : Except WriteError Bytes :=
  if ip.headerWords < 5 then .error .tooLarge
  else
    let total := if ip.total = 0 then ip.headerWords * 4 + payload.length else ip.total
    let sum := checksum (ip.bytesWith total 0)
    .ok (ip.bytesWith total sum ++ payload)

end Ipv4

def Arp.write (a : Arp) : Bytes :=
  Bytes.ofNat 2 1 ++ Bytes.ofNat 2 typeIpv4 ++ [6, 4] ++ Bytes.ofNat 2 a.opcode
    ++ a.sourceMac.toBytes ++ a.sourceIp.toBytes ++ a.targetMac.toBytes ++ a.targetIp.toBytes

def Ethernet.write (e : Ethernet) (payload : Bytes) : Bytes :=
  e.target.toBytes ++ e.source.toBytes ++ Bytes.ofNat 2 e.type ++ payload.fill 46

structure Envelope where
  target : WrittenMac
  source : WrittenMac
  type : Nat
  deriving DecidableEq, Repr

def Envelope.ethernet (e : Envelope) : Except WriteError Ethernet := do
  let read (w : WrittenMac) : Except WriteError Mac :=
    match w.mac? with
    | some m => .ok m
    | none => .error (.badMac w.text)
  return { target := ← read e.target, source := ← read e.source, type := e.type }

def Envelope.write (e : Envelope) (payload : Bytes) : Except WriteError Bytes := do
  return (← e.ethernet).write payload

def writeSegment (e : Envelope) (ip : Ipv4) (t : Tcp) : Except WriteError Bytes := do
  let segment ← t.write ip
  e.write (← ip.write segment)

end Practicum.Net.Packet
