import Practicum.Net.Capture.Packet

/-!
# Flows of sent bytes

This analysis counts only the TCP segments that carry bytes, and looks first for a flow that was
opened by the same end. A frame without an Internet packet counts as the last packet once more,
of which the header's length is subtracted again.
-/

namespace Practicum.Net.Capture.SentBytes

inductive Last where
  | nothing
  | other
  /-- A packet of the TCP protocol, and the number of bytes that it still stands for. -/
  | tcp (packet : Packet) (left : Int)
  deriving DecidableEq, Repr

structure State where
  flows : Flows := {}
  last : Last := .nothing
  deriving DecidableEq, Repr

def count (f : Flows) (c : Connection) (bytes : Int) : Flows :=
  match f.table.get? c with
  | some n => { f with table := f.table.put c (n + bytes) }
  | none =>
    match f.table.get? c.reverse with
    | some n => { f with table := f.table.put c.reverse (n + bytes) }
    | none => { f with table := f.table.put c bytes }

def countLast (s : State) : Except CaptureError State :=
  match s.last with
  | .nothing => .error .noEarlierPacket
  | .other => .ok s
  | .tcp p left =>
    match p.segment with
    | none => .ok s
    | some segment =>
      let left := left - 4 * segment.headerWords
      let s := { s with last := .tcp p left }
      .ok (if left = 0 then s else { s with flows := count s.flows (p.connection segment) left })

def step (s : State) (bytes : Bytes) : Except CaptureError State := do
  let s := { s with flows := { s.flows with frames := s.flows.frames + 1 } }
  match ← (← Frame.read bytes).packet with
  | some p =>
    if p.protocol = Packet.tcp then countLast { s with last := .tcp p p.size }
    else return { s with last := .other }
  | none => countLast s

def analyse (frames : List Bytes) : Except CaptureError Flows :=
  (frames.foldlM step {}).map State.flows

end Practicum.Net.Capture.SentBytes
