import Practicum.Choco.Value
import Practicum.IR.Editing

/-!
# Constant folding

Operators on literals are computed in advance, branches on literals are decided, operations with a
neutral element are simplified, and sums and products are regrouped so that literals meet.
-/

namespace Practicum.Flat.Folding

open Choco (Literal Value)
open IR Editing

/-! ## Literals -/

def valueOf : Literal → Value
  | .none => .none
  | .bool b => .bool b
  | .int n _ => .int n
  | .str s => .str s

def literalOf : Value → Literal
  | .none => .none
  | .bool b => .bool b
  | .int n => .word n
  | .str s => .str s

def literal? (o : Op) : Option Literal :=
  match o.flat? with
  | some (.literal v) => some v
  | _ => none

def int? (o : Op) : Option Int :=
  match literal? o with
  | some (.int n _) => some n
  | _ => none

def bool? (o : Op) : Option Bool :=
  match literal? o with
  | some (.bool b) => some b
  | _ => none

def operator? (o : Op) : Option String :=
  match o.flat? with
  | some (.binary op) => some op
  | _ => none

def comparable? (l r : Op) : Option (Value × Value) :=
  match literal? l, literal? r with
  | some (.int m _), some (.int n _) => some (.int m, .int n)
  | some (.bool a), some (.bool b) => some (.bool a, .bool b)
  | _, _ => none

/-- The value of an operator on literals. A literal is identical with itself, whatever its value. -/
def evaluate (op : String) (same : Bool) (a b : Value) : Except Fault Value :=
  if op = "is" && same then .ok (.bool true) else Value.binary op a b

def newLiteral (v : Value) : Editing Unit Op :=
  Op.make (.flat (.literal (literalOf v))) [] [(literalOf v).type]

inductive Side where
  | left
  | right
  deriving DecidableEq, Repr

/-! ## Neutral elements -/

inductive Simplified where
  | other
  | zero
  /-- The other operand with its sign changed, for which there is no way to build it. -/
  | negated
  deriving DecidableEq, Repr

def simplify (op : String) (n : Int) (side : Side) : Option Simplified :=
  if n = 0 then
    match op, side with
    | "+", _ => some .other
    | "-", .left => some .negated
    | "-", .right => some .other
    | "*", _ => some .zero
    | "//", .left => some .zero
    | "%", .left => some .zero
    | _, _ => none
  else if n = 1 then
    match op, side with
    | "*", _ => some .other
    | "//", .right => some .other
    | "%", .right => some .zero
    | _, _ => none
  else none

/-- The literal operand of a binary expression, on which side it stands, and the other operand;
none if both or neither are integer literals. -/
def oneInt? (l r : Op) : Option (Int × Side × Op) :=
  match int? l, int? r with
  | some n, none => some (n, .left, r)
  | none, some n => some (n, .right, l)
  | _, _ => none

/-! ## Regrouping -/

inductive Leaf where
  | a
  | b
  | c
  deriving DecidableEq, Repr

/-- The leaves of a nested expression put together anew: the inner operator is applied to two of
them, the outer operator to the result and the third. -/
structure Regrouping where
  inner : String
  first : Leaf
  second : Leaf
  outer : String
  third : Leaf
  deriving DecidableEq, Repr

def flipped : String → String
  | "//" => "*"
  | "-" => "+"
  | op => op

/-- Whether a leaf can meet a literal: it is one of two literals, or the variable beside one
literal. -/
def movable (lit : Leaf → Bool) (k : Leaf) : Bool :=
  let count := ([Leaf.a, .b, .c].filter lit).length
  if lit k then count == 2 else count == 1

def regroupSame (op : String) (side : Side) (lit : Leaf → Bool) : Option Regrouping :=
  match side with
  | .left =>
    if movable lit .b then some ⟨flipped op, .b, .c, op, .a⟩
    else if movable lit .a then some ⟨op, .a, .c, op, .b⟩
    else none
  | .right =>
    if movable lit .b then some ⟨op, .a, .b, flipped op, .c⟩
    else if movable lit .c then some ⟨flipped op, .a, .c, op, .b⟩
    else none

def regroupMixed (outer inner : String) (side : Side) (lit : Leaf → Bool) :
    Option Regrouping :=
  match side with
  | .left =>
    if movable lit .b then
      some (if inner = "+" then ⟨"-", .b, .c, "+", .a⟩ else ⟨"-", .c, .b, "+", .a⟩)
    else if movable lit .a then some ⟨outer, .a, .c, inner, .b⟩
    else none
  | .right =>
    if movable lit .b then some ⟨outer, .a, .b, "-", .c⟩
    else if movable lit .c then some ⟨"-", .a, .c, outer, .b⟩
    else none

def regroup (outer inner : String) (side : Side) (lit : Leaf → Bool) : Option Regrouping :=
  if outer = inner then
    if ["+", "*", "//", "-", "%"].contains outer then regroupSame outer side lit else none
  else if (outer = "-" && inner = "+") || (outer = "+" && inner = "-") then
    regroupMixed outer inner side lit
  else none

structure Nested where
  inner : String
  side : Side
  leaf : Leaf → Op

def leaves (a b c : Op) : Leaf → Op
  | .a => a
  | .b => b
  | .c => c

def operandsOf (o : Op) : Editing Unit (Op × Op) := do
  match o.operands with
  | a :: b :: _ => return (← definition a, ← definition b)
  | _ => throw .noSuchPart

def nested? (l r : Op) : Editing Unit (Option Nested) := do
  let below (o : Op) : Editing Unit (Option (String × Op × Op)) := do
    match operator? o with
    | some op => return some (op, ← operandsOf o)
    | none => return none
  match ← below l, ← below r with
  | some (inner, a, b), none => return some { inner, side := .left, leaf := leaves a b r }
  | none, some (inner, b, c) => return some { inner, side := .right, leaf := leaves l b c }
  | _, _ => return none

def resultOf (o : Op) : Editing Unit Val :=
  match o.results with
  | v :: _ => return v
  | [] => throw .outOfRange

def newBinary (op : String) (a b : Val) : Editing Unit (Op × Val) :=
  Op.makeValue (.flat (.binary op)) [a, b] a.type

def intOf (o : Op) : Editing Unit Int :=
  match literal? o with
  | some (.int n _) => return n
  | some .none => throw .outOfRange
  | _ => throw .noSuchPart

def remainderPattern (o : Op) (e : Nested) : Editing Unit Unit := do
  let smaller := if (← intOf (e.leaf .b)) > (← intOf (e.leaf .c)) then e.leaf .c else e.leaf .b
  let (new, v) ← newBinary "%" (← resultOf (e.leaf .a)) (← resultOf smaller)
  replace o [new] [some v]

def regroupPattern (op : String) (o l r : Op) : Editing Unit Unit := do
  match ← nested? l r with
  | none => return
  | some e =>
    let lit (k : Leaf) : Bool := (literal? (e.leaf k)).isSome
    if op = "%" && e.inner = "%" && e.side = .left && lit .b && lit .c then remainderPattern o e
    else
      match regroup op e.inner e.side lit with
      | none => return
      | some g =>
        let a ← resultOf (e.leaf g.first)
        let b ← resultOf (e.leaf g.second)
        let c ← resultOf (e.leaf g.third)
        let (first, v) ← newBinary g.inner a b
        let (second, w) ← newBinary g.outer v c
        replace o [first, second] [some w]

/-! ## Patterns -/

def unaryPattern (op : String) (o : Op) : Editing Unit Unit := do
  match o.operands with
  | [] => return
  | a :: _ =>
    let folded : Option Value :=
      match (← get).program.definition? a >>= literal? with
      | some (.int n _) =>
        if op = "-" then some (.int (-n)) else if op = "not" then some (.bool (n == 0)) else none
      | some (.bool b) =>
        if op = "-" then some (.int (if b then -1 else 0))
        else if op = "not" then some (.bool (!b)) else none
      | _ => none
    match folded with
    | some v => replaceByLast o [← newLiteral v]
    | none => return

def binaryPattern (op : String) (o : Op) : Editing Unit Unit := do
  let (l, r) ← operandsOf o
  match comparable? l r with
  | some (a, b) =>
    let v ← (evaluate op (l.id == r.id) a b : Except Fault Value)
    replaceByLast o [← newLiteral v]
  | none =>
    match oneInt? l r >>= fun (n, side, other) => (simplify op n side).map fun s => (s, other) with
    | some (.other, other) => replaceByLast o [← other.copy]
    | some (.zero, _) => replaceByLast o [← newLiteral (.int 0)]
    | some (.negated, _) => throw .noSuchPart
    | none => regroupPattern op o l r

def yielded (ops : List Op) : Editing Unit (Option Val) :=
  match ops.getLast? with
  | some o => if o.flat? == some .yield then return o.operands.head? else throw .noSuchPart
  | none => throw .noSuchPart

def knownBool? (v : Option Val) : Editing Unit (Option Bool) := do
  let program := (← get).program
  return v >>= program.definition? >>= bool?

def keepBlock (o : Op) (k : Nat) (value : Option Val) : Editing Unit Unit :=
  replaceLeaving (o.withRegions (o.regions.set k (.plain []))) o (o.regionOps k) [value]

def choicePattern (o : Op) : Editing Unit Unit := do
  match ← knownBool? o.operands.head? with
  | some b =>
    let k := if b then 0 else 1
    keepBlock o k (← yielded (o.regionOps k))
  | none => return

def lazyPattern (op : String) (o : Op) : Editing Unit Unit := do
  let settling? : Option Bool :=
    if op = "and" then some false else if op = "or" then some true else none
  match settling? with
  | some settling =>
    let value ← yielded (o.regionOps 0)
    if (← knownBool? value) == some settling then keepBlock o 0 value
  | none => return

def branchPattern (o : Op) : Editing Unit Unit := do
  match ← knownBool? o.operands.head? with
  | some b => keepBlock o (if b then 0 else 1) none
  | none => return

def loopPattern (o : Op) : Editing Unit Unit := do
  let _ ← yielded (o.regionOps 0)
  return

def pattern (o : Op) : Editing Unit Unit :=
  match o.flat? with
  | some (.unary op) => unaryPattern op o
  | some .choice => choicePattern o
  | some (.binary op) => binaryPattern op o
  | some (.lazyBinary op) => lazyPattern op o
  | some .branch => branchPattern o
  | some .loop => loopPattern o
  | _ => return ()

def run (m : Module) : Except Fault Module :=
  apply (exhaust pattern .forward) () m

end Practicum.Flat.Folding
