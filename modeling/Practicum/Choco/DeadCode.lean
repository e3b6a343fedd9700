import Practicum.Choco.Node
import Practicum.Choco.Value

/-!
# Dead code

A walk over a program that looks for code without effect. The values of variables are known as far
as they are literals, and a number written in the program only up to equality.
-/

namespace Practicum.Choco

inductive Warning where
  | unreachableStatements
  | unreachableExpression
  | unusedStore (store : Node)
  | unusedVariable (x : String)
  | unusedArgument (x : String)
  | unusedFunction (f : String)
  | unusedExpression (e : Node)
  deriving Repr, BEq

namespace Warning

def message : Warning → String
  | .unreachableStatements => "Program contains unreachable statements."
  | .unreachableExpression => "Program contains unreachable expressions."
  | .unusedStore store => "The following store operation is unused: \n" ++ store.kind ++ "\n"
  | .unusedVariable x => "The following variable is unused: " ++ x ++ "."
  | .unusedArgument x => "The following function argument is unused: " ++ x ++ "."
  | .unusedFunction f => "The following function is unused: " ++ f ++ "."
  | .unusedExpression e => "The following expression is unused: \n" ++ e.kind ++ "\n"

def node? : Warning → Option Node
  | .unusedStore store => some store
  | .unusedExpression e => some e
  | _ => none

end Warning

namespace DeadCode

inductive Stop where
  | warning (w : Warning)
  | fault (f : Fault)

inductive Known where
  | value (v : Value)
  | written (n : Int) (width : Nat)
  /-- A literal that has not been looked at yet. -/
  | literal (l : Literal)
  /-- An expression of which only the presence is known. -/
  | other (n : Node)
  deriving Repr, BEq

namespace Known

def nothing : Known := .value .none

def ofLiteral : Literal → Except Stop Known
  | .none => .error (.fault .noSuchPart)
  | .bool b => .ok (.value (.bool b))
  | .int n width => .ok (.written n width)
  | .str s => .ok (.value (.str s))

def truthy : Known → Bool
  | .value v => v.truthy
  | _ => true

def number? : Known → Option Int
  | .value v => v.number?
  | _ => none

def ofResult : Except Fault Value → Except Stop Known
  | .ok v => .ok (.value v)
  | .error f => .error (.fault f)

def isBool (k : Known) (b : Bool) : Bool :=
  match k with
  | .value v => v.equal (.bool b)
  | _ => false

def equal : Known → Known → Bool
  | .value a, .value b => a.equal b
  | a, b => a == b

def filling : Known → Text.Filling
  | .value v => v.filling
  | .written n _ => { shown := toString n, quoted := toString n }
  | .literal l => { shown := l.text, quoted := l.text }
  | .other n => { shown := n.display, quoted := n.display }

def quotient (a b : Known) : Except Stop Known :=
  match a.number?, b.number? with
  | some m, some n =>
    if n = 0 then .error (.fault .divisionByZero)
    else if m % n = 0 then .ok (.value (.int (m / n)))
    else .ok nothing
  | _, _ => .error (.fault .wrongKind)

def binary (op : String) (a b : Known) : Except Stop Known :=
  if op = "and" then
    if a.isBool false then .error (.warning .unreachableExpression)
    else .ok (if a.truthy then b else a)
  else if op = "or" then
    if a.isBool true then .error (.warning .unreachableExpression)
    else .ok (if a.truthy then a else b)
  else if op = "==" then .ok (.value (.bool (a.equal b)))
  else if op = "!=" then .ok (.value (.bool (!a.equal b)))
  else if op = "/" then a.quotient b
  else if ["<", "<=", ">", ">=", "+", "-", "*", "//", "%"].contains op then
    match a, b with
    | .value v, .value w => ofResult (v.binary op w)
    | .value (.str s), _ =>
      if op = "%" then ofResult ((Text.fillTemplate s b.filling).map .str)
      else .error (.fault .wrongKind)
    | _, _ => .error (.fault .wrongKind)
  else .ok nothing

end Known

abbrev Knowledge := List (String × Known)

mutual

def evaluateWith (known : Knowledge) (initial : Node → Except Stop Known) :
    Node → Except Stop Known
  | .literal l _ => Known.ofLiteral l
  | .name x _ =>
    match known.lookup x with
    | some (.literal l) => Known.ofLiteral l
    | some k => .ok k
    | none => .ok .nothing
  | .unary op operand _ =>
    if op = "not" then do
      return .value (.bool (!(← evaluatePlaceWith known initial operand).truthy))
    else if op = "-" then do
      match (← evaluatePlaceWith known initial operand).number? with
      | some n => return .value (.int (-n))
      | none => throw (.fault .wrongKind)
    else .ok .nothing
  | .binary op lhs rhs _ => do
    let l ← evaluateOperandWith known initial lhs
    let r ← evaluateOperandWith known initial rhs
    if l == .nothing || r == .nothing then return .nothing
    Known.binary op l r
  | .ifExpr cond thenValue elseValue _ => do
    let c ← evaluatePlaceWith known initial cond
    if c.isBool true || c.isBool false then throw (.warning .unreachableExpression)
    let _ ← evaluatePlaceWith known initial thenValue
    let _ ← evaluatePlaceWith known initial elseValue
    return .nothing
  | _ => .ok .nothing

def evaluatePlaceWith (known : Knowledge) (initial : Node → Except Stop Known) :
    List Node → Except Stop Known
  | [] => .ok .nothing
  | n :: _ => evaluateWith known initial n

/-- What is known of an operand: of a variable, what is known of the expression it was defined
by. -/
def evaluateOperandWith (known : Knowledge) (initial : Node → Except Stop Known) :
    List Node → Except Stop Known
  | [] => .ok .nothing
  | n :: _ => do
    match (n.name?.bind fun x => known.lookup x) with
    | some (.other e) => initial e
    | _ => evaluateWith known initial n

end

/-- What is known of the expression that a variable was defined by. Definitions are followed up to
a depth, which only those that lead back to themselves exceed. -/
def evaluateInitial (known : Knowledge) : Nat → Node → Except Stop Known
  | 0, _ => .error (.fault .tooDeep)
  | depth + 1, n => evaluateWith known (evaluateInitial known depth) n

def evaluatePlace (known : Knowledge) (place : List Node) : Except Stop Known :=
  evaluatePlaceWith known (evaluateInitial known known.length) place

inductive Usage where
  | used
  /-- A store to it has not been read yet. -/
  | stored
  | unusedArgument
  | unusedVariable
  | unusedFunction
  deriving DecidableEq, Repr

abbrev Usages := List (String × Usage)

def Usages.put (u : Usages) (x : String) (usage : Usage) : Usages :=
  if u.any fun entry => entry.1 == x then
    u.map fun entry => if entry.1 == x then (x, usage) else entry
  else u ++ [(x, usage)]

structure State where
  known : Knowledge := []
  global : Usages := []
  inner : Option Usages := none
  stores : List (String × Node) := []

abbrev Walk := StateT State (Except Stop)

def warn {α : Type} (w : Warning) : Walk α :=
  throw (.warning w)

def fail {α : Type} (f : Fault) : Walk α :=
  throw (.fault f)

def usages : Walk Usages := do
  let s ← get
  return s.inner.getD s.global

def mark (x : String) (usage : Usage) : Walk Unit :=
  modify fun s =>
    match s.inner with
    | some u => { s with inner := some (u.put x usage) }
    | none => { s with global := s.global.put x usage }

def know (place : List Node) : Walk Known := do
  liftM (evaluatePlace (← get).known place)

mutual

def checkExpr : Node → Walk Unit
  | .name x _ => mark x .used
  | .unary _ operand _ => checkPlace operand
  | .binary op lhs rhs _ => do
    if op = "and" then
      if (← know lhs).isBool false then warn .unreachableExpression
    else if op = "or" then
      if (← know lhs).isBool true then warn .unreachableExpression
    checkPlace lhs
    checkPlace rhs
  | .ifExpr cond thenValue elseValue _ => do
    let c ← know cond
    if c.isBool false || c.isBool true then warn .unreachableExpression
    checkPlace thenValue
    checkPlace elseValue
  | .index value position _ => do
    checkPlace position
    checkPlace value
  | .listExpr elems _ => checkAll elems
  | .call f args _ => do
    mark f .used
    checkAll args
  | _ => return

def checkPlace : List Node → Walk Unit
  | [] => return
  | n :: _ => checkExpr n

def checkAll : List Node → Walk Unit
  | [] => return
  | n :: ns => do
    checkExpr n
    checkAll ns

end

def store (x : String) (op : Node) : Walk Unit := do
  if (← usages).lookup x = some .stored then
    match (← get).stores.lookup x with
    | some earlier => warn (.unusedStore earlier)
    | none => fail .unknownKey
  mark x .stored
  modify fun s => { s with stores := (x, op) :: s.stores }

/-- An assignment. In a chain only the last assignment stores. -/
def checkAssign : Node → Walk Unit
  | .assign target value => do
    checkPlace value
    match value with
    | .assign t v :: _ => checkAssign (.assign t v)
    | _ =>
      match target with
      | .name x _ :: _ => do
        let k ← know value
        modify fun s => { s with known := (x, k) :: s.known }
        if ((← usages).lookup x).isNone then fail .unknownKey
        store x (.assign target value)
      | .index (.name x _ :: _) (.literal l _ :: _) _ :: _ =>
        store (x ++ "[" ++ l.text ++ "]") (.assign target value)
      | .index (.name x _ :: _) _ _ :: _ => mark x .used
      | _ => return
  | _ => return

def paramName : Node → Walk String
  | .typedVar x _ => return x
  | _ => fail (.broken "")

def declaredName : List Node → Walk String
  | .typedVar x _ :: _ => return x
  | _ => fail .noSuchPart

def initialKnown : List Node → Known
  | .literal l _ :: _ => .literal l
  | n :: _ => .other n
  | [] => .nothing

mutual

/-- Check a statement or a definition; the answer says whether it returns. -/
def checkStmt : Node → Walk Bool
  | .varDef declared initial => do
    let x ← declaredName declared
    mark x .unusedVariable
    modify fun s => { s with known := (x, initialKnown initial) :: s.known }
    return false
  | .assign target value => do
    checkAssign (.assign target value)
    return false
  | .passStmt => return false
  | .returnStmt value => do
    checkPlace value
    return true
  | .ifStmt cond thenBody elseBody => do
    if (← know cond).isBool false then warn .unreachableStatements
    checkBody thenBody
    if !elseBody.isEmpty then checkBody elseBody
    return false
  | .whileStmt cond body => do
    if (← know cond).isBool false then warn .unreachableStatements
    checkBody body
    return false
  | .forStmt x iterable body => do
    mark x .used
    checkPlace iterable
    checkBody body
    return false
  | .funcDef f params _ body => do
    mark f .unusedFunction
    let outside ← get
    let xs ← params.mapM paramName
    let u := xs.foldl (fun u x => u.put x .unusedArgument) (← usages)
    modify fun s => { s with inner := some u }
    checkBody body
    for (x, usage) in ← usages do
      if usage = .unusedArgument then warn (.unusedArgument x)
    modify fun s => { s with inner := outside.inner, known := outside.known }
    return false
  | .globalDecl x => do
    modify fun s => { s with global := s.global.put x .used }
    return false
  | .nonlocalDecl _ => return false
  | .call f args hint => do
    checkExpr (.call f args hint)
    return false
  | n => warn (.unusedExpression n)

/-- Check a sequence of statements, which must not be empty; nothing may follow a return. -/
def checkBody : List Node → Walk Unit
  | [] => fail (.broken "")
  | [n] => do
    let _ ← checkStmt n
  | n :: m :: rest => do
    if ← checkStmt n then warn .unreachableStatements
    checkBody (m :: rest)

end

def checkProgram (defs stmts : List Node) : Walk Unit := do
  if !defs.isEmpty then checkBody defs
  if !stmts.isEmpty then checkBody stmts
  for (x, usage) in (← get).global do
    match usage with
    | .unusedVariable => warn (.unusedVariable x)
    | .unusedFunction => warn (.unusedFunction x)
    | .unusedArgument => warn (.unusedArgument x)
    | _ => pure ()

def search : List Node → Except Stop Unit
  | .program defs stmts :: _ => (checkProgram defs stmts).run' {}
  | _ => .error (.fault (.broken ""))

end DeadCode

end Practicum.Choco
