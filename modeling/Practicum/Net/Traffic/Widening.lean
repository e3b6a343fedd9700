import Practicum.Net.Traffic.Tree

/-!
# Aggregation by widening

The common network of two sources is found by widening the network of the first one, bit by bit,
until it holds the second. Both sides of a node are aggregated first; then the node takes over the
bytes of a small left neighbour and of a small right one.
-/

namespace Practicum.Net.Traffic.Widening

def widenTo (a : Address) (n : Network) : Network :=
  if n.contains a || n.length = 0 then n else widenTo a n.widen
termination_by n.length
decreasing_by
  simp_all [Network.length_widen]
  omega

/-- The smallest network that holds the lowest addresses of two sources. The result is written
with its mask as an address, and there is no such notation in the second family. -/
def supernet (x y : Source) : Except TrafficError Network :=
  let a := x.asNetwork.first
  let b := y.asNetwork.first
  if a.family ≠ b.family then .error .mixedFamilies
  else if a.family = .v6 then .error .noCommonNetwork
  else .ok (widenTo b (Network.only a))

structure Absorbed where
  neighbour : Tree
  source : Source
  bytes : Int
  error : Option TrafficError := none
  deriving DecidableEq, Repr

def absorb (threshold : Rat) (neighbour : Tree) (source : Source) (bytes : Int) : Absorbed :=
  match neighbour with
  | .empty => { neighbour, source, bytes }
  | .node _ near count _ =>
    if (count : Rat) < threshold then
      match supernet near source with
      | .ok n => { neighbour := neighbour.hollow, source := .network n, bytes := count + bytes }
      | .error e => { neighbour, source, bytes, error := some e }
    else { neighbour, source, bytes }

/-- Merges what is smaller than a threshold into the nodes above. An error leaves the tree as far
as it was changed. -/
def aggregate (threshold : Rat) : Tree → Tree × Option TrafficError
  | .empty => (.empty, none)
  | .node left source bytes right =>
    match aggregate threshold left with
    | (left, some e) => (.node left source bytes right, some e)
    | (left, none) =>
      match aggregate threshold right with
      | (right, some e) => (.node left source bytes right, some e)
      | (right, none) =>
        let l := absorb threshold left source bytes
        match l.error with
        | some e => (.node l.neighbour l.source l.bytes right, some e)
        | none =>
          let r := absorb threshold right l.source l.bytes
          (.node l.neighbour r.source r.bytes r.neighbour, r.error)

end Practicum.Net.Traffic.Widening
