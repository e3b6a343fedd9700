import Practicum.Decimal
import Practicum.Net.Capture.Packet
import Practicum.Net.Traffic.Tree

/-! # Sources of a capture -/

namespace Practicum.Net.Capture

abbrev Aggregation := Rat → Traffic.Tree → Traffic.Tree × Option Traffic.TrafficError

structure Sources where
  total : Nat
  report : Table Network Int
  deriving DecidableEq, Repr

namespace Sources

def ratio : Float := 0.05

def threshold (total : Nat) : Rat :=
  (Decimal.Binary.ofFloat (Float.ofNat total * ratio)).toRat?.getD 0

def packet? (bytes : Bytes) : Except Fault (Option Packet) := do
  match ← (Frame.read bytes).mapError CaptureError.fault with
  | .typed 0x0800 payload => (Packet.readV4 payload).map some |>.mapError CaptureError.fault
  | _ => return none

def step (found : Nat × Traffic.Tree) (bytes : Bytes) : Except Fault (Nat × Traffic.Tree) := do
  match ← packet? bytes with
  | some p =>
    let tree ← (found.2.add p.source p.total).mapError Traffic.TrafficError.fault
    return (found.1 + p.total, tree)
  | none => return found

def analyse (aggregate : Aggregation) (frames : List Bytes) : Except Fault Sources := do
  let (total, tree) ← frames.foldlM step (0, Traffic.Tree.empty)
  match tree with
  | .empty => throw CaptureError.noSource.fault
  | tree =>
    match aggregate (threshold total) tree with
    | (tree, none) => return { total, report := tree.report }
    | (_, some e) => throw e.fault

end Sources

end Practicum.Net.Capture
