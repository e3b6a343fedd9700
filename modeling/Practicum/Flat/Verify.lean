import Practicum.Choco.Typing.Rules
import Practicum.IR.Op

/-!
# Rules of the flat level

What must hold of the operations of the flat level: the condition of a loop ends in a truth value,
values fit the locations they are stored to, and addresses have the type of what they lead to.
-/

namespace Practicum.Flat

open Choco IR

inductive Violation where
  | conditionEnd
  | conditionType
  | typing (e : TypeError)
  | mismatch (code : FlatCode)
  | missing

def Violation.fault : Violation → Fault
  | .conditionEnd => .refused (FlatCode.loop.name
      ++ " operation expects last operation in condition to be a " ++ FlatCode.yield.name)
  | .conditionType => .refused (FlatCode.loop.name
      ++ " operation expects last operation in condition to have type choco.ir.named_type")
  | .typing e => e.fault
  | .mismatch code => .illFormed (code.name ++ " operation does not verify")
  | .missing => .noSuchPart

def contentOf (t : Ty) : Except Violation Ty :=
  match t with
  | .memory content => .ok content
  | _ => .error .missing

def typeOfFirst (vs : List Val) : Except Violation Ty :=
  match vs with
  | v :: _ => .ok v.type
  | [] => .error .missing

def verifyLoop (cond : List Op) : Except Violation Unit :=
  match cond.getLast? with
  | some o =>
    if o.flat? = some .yield then do
      if (← typeOfFirst o.operands) ≠ .bool then throw .conditionType
    else throw .conditionEnd
  | none => throw .conditionEnd

/-- A value is assigned to what can hold it; values in registers are not looked at. -/
def verifyAssign (operands : List Val) : Except Violation Unit := do
  let target ← typeOfFirst operands
  if target = .register then return
  let value ← typeOfFirst operands.tail
  if value = .register then return
  let check : Check Unit := do
    let expected ← SourceType.ofTy target
    let found ← SourceType.ofTy value
    Typing.requireAssignable found expected
  match check with
  | .ok () => return
  | .error e => throw (.typing e)

def verifyAddress (code : FlatCode) (o : Op) : Except Violation Unit := do
  match ← typeOfFirst o.operands with
  | .list elem =>
    if elem ≠ (← contentOf (← typeOfFirst o.results)) then throw (.mismatch code)
  | t =>
    if t = .str then
      if (← contentOf (← typeOfFirst o.results)) ≠ .str then throw (.mismatch code)
    else throw (.mismatch code)

def storable (declared found : Ty) : Bool :=
  found == declared || declared == .object
    || match declared with
      | .list _ => found == .empty || found == .none
      | _ => false

def verifyHere (o : Op) : Except Violation Unit :=
  match o.flat? with
  | some .loop => verifyLoop (o.regionOps 0)
  | some .assign => verifyAssign o.operands
  | some (.alloc type) => do
    if type ≠ (← contentOf (← typeOfFirst o.results)) then throw (.mismatch (.alloc type))
  | some .indexString => verifyAddress .indexString o
  | some .getAddress => verifyAddress .getAddress o
  | some .load => do
    if (← typeOfFirst o.results) ≠ (← contentOf (← typeOfFirst o.operands)) then
      throw (.mismatch .load)
  | some .store => do
    let found ← typeOfFirst o.operands.tail
    if !storable (← contentOf (← typeOfFirst o.operands)) found then throw (.mismatch .store)
  | _ => .ok ()

def verify (m : Module) : Except Violation Unit :=
  m.walk.forM verifyHere

end Practicum.Flat
