import Practicum.Net.Traffic.Tree

/-!
# Aggregation by the first differing bit

The common network of two sources is read off the highest bit in which their addresses differ. The
left side of a node is aggregated and taken over, if it is small, before the right side is looked
at.
-/

namespace Practicum.Net.Traffic.Differing

def bitLength (n : Nat) : Nat :=
  if n = 0 then 0 else Nat.log2 n + 1

/-- The network of the first address whose leading bits, of 32, both lowest addresses share. -/
def supernet (x y : Source) : Except TrafficError Network :=
  let a := x.asNetwork.first
  let b := y.asNetwork.first
  let differing := bitLength (a.value ^^^ b.value)
  if differing ≤ 32 then
    if h : 32 - differing ≤ a.family.bits then .ok (Network.around a (32 - differing) h)
    else .error .noCommonNetwork
  else .error .noCommonNetwork

def isSmall (threshold : Rat) : Tree → Bool
  | .empty => false
  | .node _ _ bytes _ => (bytes : Rat) < threshold

def merge (source : Source) : Tree → Except TrafficError Network
  | .empty => .ok source.asNetwork
  | .node _ near _ _ => supernet source near

def rootBytes : Tree → Int
  | .empty => 0
  | .node _ _ bytes _ => bytes

/-- Takes over the right side. Its bytes are counted before the common network is looked for. -/
def takeRight (left : Tree) (source : Source) (bytes : Int) (right : Tree) :
    Tree × Option TrafficError :=
  let bytes := bytes + rootBytes right
  match merge source right with
  | .ok n => (.node left (.network n) bytes right.hollow, none)
  | .error e => (.node left source bytes right, some e)

def aggregate (threshold : Rat) : Tree → Tree × Option TrafficError
  | .empty => (.empty, none)
  | .node left source bytes right =>
    match aggregate threshold left with
    | (left, some e) => (.node left source bytes right, some e)
    | (left, none) =>
      let small := isSmall threshold left
      match if small then (merge source left).map Source.network else .ok source with
      | .error e => (.node left source bytes right, some e)
      | .ok source =>
        let bytes := if small then bytes + rootBytes left else bytes
        let left := if small then left.hollow else left
        match aggregate threshold right with
        | (right, some e) => (.node left source bytes right, some e)
        | (right, none) =>
          if isSmall threshold right then takeRight left source bytes right
          else (.node left source bytes right, none)

end Practicum.Net.Traffic.Differing
