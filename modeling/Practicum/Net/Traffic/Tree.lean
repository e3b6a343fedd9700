import Practicum.Net.Network
import Practicum.Table
import Practicum.Fault

/-!
# Traffic trees

A traffic tree counts the bytes that sources send. It is a binary search tree over addresses. A
node whose small neighbours were merged into it stands for a network instead of an address.
-/

namespace Practicum.Net.Traffic

inductive Source where
  | address (a : Address)
  | network (n : Network)
  deriving DecidableEq, Repr

namespace Source

def asNetwork : Source → Network
  | address a => Network.only a
  | network n => n

def text : Source → String
  | address a => a.text
  | network n => n.text

end Source

inductive TrafficError where
  | mixedFamilies
  | networkInTheWay
  | noCommonNetwork
  | noTree
  deriving DecidableEq, Repr

def TrafficError.fault : TrafficError → Fault
  | mixedFamilies => .wrongKind
  | networkInTheWay => .wrongKind
  | noCommonNetwork => .badValue
  | noTree => .noSuchPart

inductive Tree where
  | empty
  | node (left : Tree) (source : Source) (bytes : Int) (right : Tree)
  deriving DecidableEq, Repr

namespace Tree

instance : Inhabited Tree := ⟨empty⟩

def leaf (source : Source) (bytes : Int) : Tree :=
  node empty source bytes empty

/-- The order of an address and the source of a node. Of two addresses that differ in their zones
only, the one that is looked for counts as the greater. -/
def compare (a : Address) : Source → Except TrafficError Ordering
  | .address b =>
    if a.family ≠ b.family then .error .mixedFamilies
    else if a.value = b.value && a.zone ≠ b.zone then .ok .gt
    else .ok (Ord.compare a.value b.value)
  | .network _ => .error .networkInTheWay

def add (a : Address) (bytes : Int) : Tree → Except TrafficError Tree
  | empty => .ok (leaf (.address a) bytes)
  | node left source count right => do
    match ← compare a source with
    | .lt => return node (← add a bytes left) source count right
    | .gt => return node left source count (← add a bytes right)
    | .eq => return node left source (count + bytes) right

def toList : Tree → List (Source × Int)
  | empty => []
  | node left source bytes right => left.toList ++ (source, bytes) :: right.toList

def total : Tree → Int
  | empty => 0
  | node left _ bytes right => left.total + bytes + right.total

/-- What remains of a tree whose root gave its bytes away: a single node disappears. -/
def hollow : Tree → Tree
  | empty => empty
  | node empty _ _ empty => empty
  | node left source _ right => node left source 0 right

/-- The networks that sent anything, in order, with their bytes. Of several nodes for one network
the last one counts. -/
def report (t : Tree) : Table Network Int :=
  let sending := t.toList.filter fun (_, bytes) => 0 < bytes
  sending.foldl (fun table (source, bytes) => table.put source.asNetwork bytes) []

def listing (t : Tree) : String :=
  String.join (t.toList.map fun (source, bytes) => source.text ++ " " ++ toString bytes ++ "\n")

end Tree

end Practicum.Net.Traffic
