import Practicum.Net.Capture.Packet

/-!
# Flows of every segment

This analysis counts each TCP segment, with or without bytes of its own, for its connection, and
looks first for a flow that was opened by the other end.
-/

namespace Practicum.Net.Capture.EverySegment

def count (f : Flows) (c : Connection) (bytes : Int) : Flows :=
  match f.table.get? c.reverse with
  | some n => { f with table := f.table.put c.reverse (n + bytes) }
  | none =>
    match f.table.get? c with
    | some n => { f with table := f.table.put c (n + bytes) }
    | none => { f with table := f.table.put c bytes, flows := f.flows + 1 }

def countPacket (f : Flows) (p : Packet) : Flows :=
  if p.protocol = Packet.tcp then
    match p.segment with
    | some s => count f (p.connection s) (p.size - 4 * s.headerWords)
    | none => f
  else f

def step (f : Flows) (bytes : Bytes) : Except CaptureError Flows := do
  let f := { f with frames := f.frames + 1 }
  match ← (← Frame.read bytes).packet with
  | some p => return countPacket f p
  | none => return f

def analyse (frames : List Bytes) : Except CaptureError Flows :=
  frames.foldlM step {}

end Practicum.Net.Capture.EverySegment
