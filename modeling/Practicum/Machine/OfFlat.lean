import Practicum.IR.Editing

/-!
# From the flat level to the machine level

Every operation of the flat level becomes instructions on values. Lists and strings are blocks of
words on the heap, the length first. Nested control flow becomes branches between labels, which are
numbered for each kind of control flow; where blocks end in a value, the value goes through a slot
on the stack.
-/

namespace Practicum.Machine

open Choco (Literal)
open IR Riscv Editing

abbrev Emit := StateM Nat

instance : Fresh Emit where
  fresh := modifyGet fun n => (n, n + 1)

def emitted {σ α : Type} (e : Emit α) : Editing σ α :=
  modifyGet fun d =>
    let (a, next) := e.run d.program.next
    (a, { d with program := { d.program with next } })

structure Code where
  ops : List Op
  value : Option Val := none

def step (code : MachineCode) (operands : List Val) : Emit Op :=
  Op.make (.machine code none) operands []

def compute (code : MachineCode) (operands : List Val) (note : Option String := none) :
    Emit (Op × Val) :=
  Op.makeValue (.machine code note) operands .register

def word (n : Int) : Immediate :=
  { value := n, width := 32 }

def constant (n : Int) : Emit (Op × Val) :=
  compute (.constant .li (word n)) []

def storeAt (value address : Val) (offset : Int) : Emit Op :=
  step (.store .sw (word offset)) [value, address]

def loadAt (address : Val) (offset : Int) : Emit (Op × Val) :=
  compute (.load .lw (word offset)) [address]

def branchIfEqual (a b : Val) (label : String) : Emit Op :=
  step (.branch .beq (.label label)) [a, b]

def register (op : RegOp) (a b : Val) (note : Option String := none) : Emit (Op × Val) :=
  compute (.register op) [a, b] note

def immediate (op : ImmOp) (a : Val) (n : Int) (note : Option String := none) : Emit (Op × Val) :=
  compute (.immediate op (word n)) [a] note

def callValue (func : String) (args : List Val) : Emit (Op × Val) :=
  compute (.call func) args

def Code.single (c : Op × Val) : Code :=
  { ops := [c.1], value := some c.2 }

/-! ## Values on the heap -/

def allocateWords (n : Nat) : Emit (List Op × Val) := do
  let (size, sizeValue) ← constant (n * 4 + 4)
  let (length, lengthValue) ← constant n
  let (malloc, address) ← callValue "_malloc" [sizeValue]
  let store ← storeAt lengthValue address 0
  return ([size, length, malloc, store], address)

def storeElems (address : Val) : Nat → List Val → Emit (List Op)
  | _, [] => return []
  | k, v :: vs => do
    let store ← storeAt v address (4 * (k + 1))
    return store :: (← storeElems address (k + 1) vs)

def list (elems : List Val) : Emit Code := do
  let (ops, address) ← allocateWords elems.length
  return { ops := ops ++ (← storeElems address 0 elems), value := some address }

def storeChars (address : Val) : Nat → List Char → Emit (List Op)
  | _, [] => return []
  | k, c :: cs => do
    let (char, v) ← constant c.toNat
    let store ← storeAt v address (4 * (k + 1))
    return char :: store :: (← storeChars address (k + 1) cs)

def literal : Literal → Emit Code
  | .int n _ => Code.single <$> constant n
  | .bool b => Code.single <$> constant (if b then 1 else 0)
  | .none => Code.single <$> constant 0
  | .str s => do
    let (ops, address) ← allocateWords s.length
    return { ops := ops ++ (← storeChars address 0 s.toList), value := some address }

def length (v : Val) : Emit Code := do
  let (zero, z) ← constant 0
  let check ← branchIfEqual v z "_error_len_none"
  let (read, n) ← loadAt v 0
  return { ops := [zero, check, read], value := some n }

/-! ## Operators -/

/-- How a value is shown in a message; the arguments of functions are a sort of their own. -/
def sortOf (argument : Bool) : String :=
  if argument then "<xdsl.ir.BlockArgument>" else "<xdsl.ir.OpResult>"

def unary (op : String) (v : Val) : Option (Emit Code) :=
  match op with
  | "not" => some (Code.single <$> immediate .sltiu v 1)
  | "-" => some do
    let (zero, z) ← constant 0
    let (sub, r) ← register .sub z v
    return { ops := [zero, sub], value := some r }
  | _ => none

def division (op : RegOp) (a b : Val) : Emit Code := do
  let (zero, z) ← constant 0
  let check ← branchIfEqual b z "_error_div_zero"
  let (div, r) ← register op a b
  return { ops := [zero, check, div], value := some r }

def notLess (a b : Val) : Emit Code := do
  let (less, l) ← register .slt a b
  let (negate, r) ← immediate .xori l 1
  return { ops := [less, negate], value := some r }

def sameWord (a b : Val) : Emit Code := do
  let (xor, x) ← register .xor a b
  let (test, r) ← immediate .sltiu x 1
  return { ops := [xor, test], value := some r }

def differentWord (a b : Val) : Emit Code := do
  let (xor, x) ← register .xor a b
  let (zero, z) ← constant 0
  let (test, r) ← register .sltu z x
  return { ops := [xor, zero, test], value := some r }

def binary (op : String) (a b : Val) : Option (Emit Code) :=
  match op with
  | "+" => some (Code.single <$> register .add a b)
  | "-" => some (Code.single <$> register .sub a b)
  | "*" => some (Code.single <$> register .mul a b)
  | "//" => some (division .div a b)
  | "%" => some (division .rem a b)
  | "<" => some (Code.single <$> register .slt a b)
  | ">" => some (Code.single <$> register .slt b a)
  | "<=" => some (notLess b a)
  | ">=" => some (notLess a b)
  | "==" => some (sameWord a b)
  | "!=" => some (differentWord a b)
  | "is" => some (sameWord a b)
  | _ => none

/-! ## Elements -/

structure BoundNotes where
  negative : Option String := none
  large : Option String := none
  outside : Option String := none

/-- The address of an element, after tests that the list is present and the position lies in it.
Also given is the value one. -/
def elementAddress (v i : Val) (notes : BoundNotes) : Emit (List Op × Val × Val) := do
  let (zero, z) ← constant 0
  let (one, o) ← constant 1
  let (four, f) ← constant 4
  let present ← branchIfEqual v z "_list_index_none"
  let (negative, n) ← immediate .slti i 0 notes.negative
  let (next, k) ← immediate .addi i 1
  let (length, m) ← loadAt v 0
  let (large, g) ← register .slt m k notes.large
  let (outside, x) ← register .or n g notes.outside
  let inside ← branchIfEqual x o "_list_index_oob"
  let (bytes, d) ← register .mul k f
  let (sum, a) ← register .add v d
  return ([zero, one, four, present, next, negative, length, large, outside, inside, bytes, sum],
    a, o)

def getAddress (v i : Val) : Emit Code := do
  let (ops, address, _) ← elementAddress v i {}
  return { ops, value := some address }

def indexString (v i : Val) : Emit Code := do
  let (ops, address, one) ← elementAddress v i
    { negative := some "index < 0"
      large := some "index < length"
      outside := some "index < 0 or index >= length" }
  let (read, char) ← loadAt address 0
  let (size, bytes) ← constant 8
  let (malloc, s) ← callValue "_malloc" [bytes]
  let storeLength ← storeAt one s 0
  let storeChar ← storeAt char s 4
  let (alloc, slot) ← compute .alloc []
  let storeString ← storeAt s slot 0
  return {
    ops := ops ++ [read, size, malloc, storeLength, storeChar, alloc, storeString]
    value := some slot }

/-! ## Control flow -/

structure Labels where
  branch : Nat := 0
  both : Nat := 0
  either : Nat := 0
  choice : Nat := 0
  loop : Nat := 0

def numbered (name : String) (n : Nat) : String :=
  name ++ toString n

def landing (name : String) : Emit Op :=
  step (.label name) []

def branch (n : Nat) (cond : Val) (yes no : List Op) : Emit (List Op) := do
  let (zero, z) ← constant 0
  let test ← branchIfEqual cond z (numbered "_if_else_" n)
  let skip ← step (.jump (.label (numbered "_if_expr_after_" n))) []
  let otherwise ← landing (numbered "_if_else_" n)
  let after ← landing (numbered "_if_after_" n)
  return [zero, test] ++ yes ++ [skip, otherwise] ++ no ++ [after]

/-- A lazy operator: the second operand is skipped if the first one equals the settling number. -/
def lazyOperator (after : String) (settling : Int) (lhs : List Op) (lhsValue : Val) (rhs : List Op)
    (rhsValue : Val) : Emit Code := do
  let (alloc, slot) ← compute .alloc []
  let (number, s) ← constant settling
  let storeLeft ← storeAt lhsValue slot 0
  let test ← branchIfEqual lhsValue s after
  let storeRight ← storeAt rhsValue slot 0
  let afterLabel ← landing after
  let (read, r) ← loadAt slot 0
  return {
    ops := [alloc, number] ++ lhs ++ [storeLeft, test] ++ rhs ++ [storeRight, afterLabel, read]
    value := some r }

def choice (n : Nat) (cond : Val) (yes : List Op) (yesValue : Val) (no : List Op)
    (noValue : Val) : Emit Code := do
  let (zero, z) ← constant 0
  let (alloc, slot) ← compute .alloc []
  let test ← branchIfEqual cond z (numbered "_if_expr_else_" n)
  let storeYes ← storeAt yesValue slot 0
  let skip ← step (.jump (.label (numbered "_if_expr_after_" n))) []
  let otherwise ← landing (numbered "_if_expr_else_" n)
  let storeNo ← storeAt noValue slot 0
  let after ← landing (numbered "_if_expr_after_" n)
  let (read, r) ← loadAt slot 0
  return {
    ops := [zero, alloc, test] ++ yes ++ [storeYes, skip, otherwise] ++ no
      ++ [storeNo, after, read]
    value := some r }

def loop (n : Nat) (cond : List Op) (condValue : Val) (body : List Op) : Emit (List Op) := do
  let (zero, z) ← constant 0
  let start ← landing (numbered "_while_start_" n)
  let test ← branchIfEqual condValue z (numbered "_while_after_" n)
  let again ← step (.jump (.label (numbered "_while_start_" n))) []
  let after ← landing (numbered "_while_after_" n)
  return [zero, start] ++ cond ++ [test] ++ body ++ [again, after]

/-! ## Patterns -/

def put (o : Op) (e : Emit Code) : Editing Labels Unit := do
  let c ← emitted e
  replace o c.ops [c.value]

def putFlattened (o : Op) (e : Emit Code) : Editing Labels Unit := do
  let c ← emitted e
  replaceLeaving (o.withRegions []) o c.ops [c.value]

def yielded (ops : List Op) : Editing Labels Val :=
  match ops.getLast? with
  | some o =>
    match o.flat?, o.operands with
    | some .yield, v :: _ => return v
    | _, _ => throw .noSuchPart
  | none => throw .noSuchPart

def firstOperand (o : Op) : Editing Labels Val :=
  match o.operands with
  | v :: _ => return v
  | [] => throw .outOfRange

def twoOperands (o : Op) : Editing Labels (Val × Val) :=
  match o.operands with
  | a :: b :: _ => return (a, b)
  | _ => throw .noSuchPart

def shown (v : Val) : Editing Labels String := do
  return sortOf ((← get).program.definition? v).isNone

def callPattern (func : String) (o : Op) : Editing Labels Unit := do
  if func = "len" then put o (length (← firstOperand o))
  else if o.results.isEmpty then put o (do return { ops := [← step (.call func) o.operands] })
  else put o (Code.single <$> callValue func o.operands)

def unaryPattern (op : String) (o : Op) : Editing Labels Unit := do
  let v ← firstOperand o
  match unary op v with
  | some e => put o e
  | none => throw (.unsupported ("UnaryExprPattern: " ++ op ++ " " ++ (← shown v)))

def binaryPattern (op : String) (o : Op) : Editing Labels Unit := do
  let (a, b) ← twoOperands o
  match binary op a b with
  | some e => put o e
  | none =>
    throw (.unsupported
      ("BinaryExprPattern: " ++ op ++ " " ++ (← shown a) ++ " " ++ (← shown b)))

def branchPattern (o : Op) : Editing Labels Unit := do
  let n := (← remembered).branch
  let cond ← firstOperand o
  putFlattened o do return { ops := ← branch n cond (o.regionOps 0) (o.regionOps 1) }
  remember fun l => { l with branch := n + 1 }

def lazyPattern (op : String) (o : Op) : Editing Labels Unit := do
  let lhs := o.regionOps 0
  let rhs := o.regionOps 1
  if op = "and" then
    let n := (← remembered).both
    putFlattened o
      (lazyOperator (numbered "_and_after_" n) 0 lhs (← yielded lhs) rhs (← yielded rhs))
    remember fun l => { l with both := n + 1 }
  else if op = "or" then
    let n := (← remembered).either
    putFlattened o
      (lazyOperator (numbered "_or_after_" n) 1 lhs (← yielded lhs) rhs (← yielded rhs))
    remember fun l => { l with either := n + 1 }

def choicePattern (o : Op) : Editing Labels Unit := do
  let n := (← remembered).choice
  let cond ← firstOperand o
  let yes := o.regionOps 0
  let no := o.regionOps 1
  putFlattened o (choice n cond yes (← yielded yes) no (← yielded no))
  remember fun l => { l with choice := n + 1 }

def loopPattern (o : Op) : Editing Labels Unit := do
  let n := (← remembered).loop
  let cond := o.regionOps 0
  let v ← yielded cond
  putFlattened o do return { ops := ← loop n cond v (o.regionOps 1) }
  remember fun l => { l with loop := n + 1 }

def inRegister (v : Val) : Val :=
  { v with type := .register }

def funcPattern (func : String) (o : Op) : Editing Labels Unit := do
  let args := (o.regions.head?.map Block.args).getD []
  let body := Block.mk (args.map inRegister) (o.regionOps 0)
  let new ← emitted (Op.make (.machine (.func func) none) [] [] [body])
  replaceLeaving (o.withRegions []) o [new] []
  substitute (args.map fun v => (v, inRegister v))

def pattern (o : Op) : Editing Labels Unit := do
  match o.flat? with
  | some (.literal v) => put o (literal v)
  | some (.call func) => callPattern func o
  | some (.unary op) => unaryPattern op o
  | some (.binary op) => binaryPattern op o
  | some .store => do
    let (address, v) ← twoOperands o
    put o do return { ops := [← storeAt v address 0] }
  | some .load => put o (Code.single <$> loadAt (← firstOperand o) 0)
  | some (.alloc _) => put o (Code.single <$> compute .alloc [])
  | some .branch => branchPattern o
  | some (.lazyBinary op) => lazyPattern op o
  | some .choice => choicePattern o
  | some .loop => loopPattern o
  | some .list => put o (list o.operands)
  | some .getAddress => do
    let (v, i) ← twoOperands o
    put o (getAddress v i)
  | some .indexString => do
    let (v, i) ← twoOperands o
    put o (indexString v i)
  | some (.funcDef func _) => funcPattern func o
  | some .ret => put o do return { ops := [← step .ret o.operands] }
  | _ => return ()

def yieldPattern (o : Op) : Editing Labels Unit := do
  if o.flat? == some .yield then erase o

def ofFlat (m : Module) : Except Fault Module :=
  apply (do exhaust pattern .forward; exhaust yieldPattern .forward) {} m

end Practicum.Machine
