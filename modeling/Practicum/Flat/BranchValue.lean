import Practicum.IR.Op

/-! # Values of branches -/

namespace Practicum.Flat

open IR

inductive Branch where
  | condition
  | thenValue
  | elseValue
  deriving DecidableEq, Repr

inductive BranchError where
  | noBranch
  | noYield
  | branchEnd (name : String)

def BranchError.fault : BranchError → Fault
  | .noBranch => .noSuchPart
  | .noYield => .broken ""
  | .branchEnd name => .refused (FlatCode.choice.name ++ " operation expects last operation in "
      ++ name ++ " branch to be a " ++ FlatCode.yield.name)

def Branch.ops? (o : Op) (b : Branch) : Option (List Op) :=
  match b, o.flat? with
  | .condition, some .loop => some (o.regionOps 0)
  | .thenValue, some .choice => some (o.regionOps 0)
  | .elseValue, some .choice => some (o.regionOps 1)
  | _, _ => none

def endsInYield (ops : List Op) : Bool :=
  (ops.getLast?.bind Op.flat?) = some .yield

def Branch.value (o : Op) (b : Branch) : Except BranchError (Option Val) :=
  match b.ops? o with
  | none => .error .noBranch
  | some ops =>
    if endsInYield ops then .ok ((ops.getLast?.map Op.operands).bind List.head?)
    else .error .noYield

def verifyChoice (o : Op) : Except BranchError Unit := do
  if o.flat? ≠ some .choice then throw .noBranch
  if !endsInYield (o.regionOps 0) then throw (.branchEnd "then")
  if !endsInYield (o.regionOps 1) then throw (.branchEnd "or else")

end Practicum.Flat
