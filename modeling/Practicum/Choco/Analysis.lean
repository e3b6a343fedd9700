import Practicum.Choco.DeadCode
import Practicum.Choco.Scope
import Practicum.Choco.Token
import Practicum.Choco.Typing.Early

/-!
# Analyses

The analyses of syntax trees as the editions offer them.
-/

namespace Practicum.Choco

/-!
## Targets of assignments

Only a variable or an element of a list can be assigned to.
-/

inductive TargetError where
  | notSingle
  | notAssignable (target : Node)
  deriving Repr, BEq

def TargetError.fault : TargetError → Fault
  | .notSingle => .broken ""
  | .notAssignable target => .meaningless
      ("Found " ++ target.className ++ " as the left-hand side of an assignment. "
        ++ "Expected to find variable name or index expression only.")

namespace Node

def postorder (n : Node) : List Node :=
  (n.children.attach.flatMap fun ⟨c, _⟩ => c.postorder) ++ [n]
termination_by sizeOf n
decreasing_by exact sizeOf_lt_of_mem_children ‹_›

def checkTarget : Node → Except TargetError Unit
  | .assign [.name ..] _ => .ok ()
  | .assign [.index ..] _ => .ok ()
  | .assign [target] _ => .error (.notAssignable target)
  | .assign _ _ => .error .notSingle
  | _ => .ok ()

def checkTargets (ns : List Node) : Except TargetError Unit :=
  (ns.flatMap postorder).forM checkTarget

end Node

inductive PassError where
  | fault (f : Fault)
  | warning (w : Warning)

inductive Analysis where
  | assignTarget
  | names
  | types
  | deadCode
  deriving DecidableEq, Repr

def requireProgram : List Node → Except PassError Unit
  | .program .. :: _ => .ok ()
  | _ => .error (.fault (.broken ""))

def checkTypes (edition : Edition) (ns : List Node) : Check (List Node) :=
  if edition = .second then EarlyTyping.checkProgram ns else Typing.checkProgram ns

/-- Run an analysis. Only type checking changes the trees; the third edition looks for no dead
code. -/
def Analysis.run (edition : Edition) (ns : List Node) : Analysis → Except PassError (List Node)
  | .assignTarget =>
    match Node.checkTargets ns with
    | .ok () => .ok ns
    | .error e => .error (.fault e.fault)
  | .names =>
    match checkNames ns with
    | .ok () => .ok ns
    | .error e => .error (.fault e.fault)
  | .types =>
    match checkTypes edition ns with
    | .ok ns => .ok ns
    | .error e => .error (.fault e.fault)
  | .deadCode =>
    if edition = .second then
      match DeadCode.search ns with
      | .ok () => .ok ns
      | .error (.fault f) => .error (.fault f)
      | .error (.warning w) => .error (.warning w)
    else do
      requireProgram ns
      return ns

end Practicum.Choco
