import Practicum.Choco.Typing.Rules

/-!
# Typing rules of the second edition

The second edition types most expressions as the third does. It differs where it is looser, as in
calls with too few arguments, where it is stricter, as in returns and loops, which ask for equal
types, and in its reports. Statements that assign have a type of their own.
-/

namespace Practicum.Choco.EarlyTyping

open Typing

def invalidOperation : TypeError :=
  .noRule "invalid operation on types given"

def sameRule (operators : List String) (operand result : SourceType) (op : String)
    (e₁ e₂ : Judgement) : Judgement₂ :=
  if operators.contains op then Typing.sameRule operand result e₁ e₂ else .error invalidOperation

def listConcatRule (op : String) (e₁ e₂ : Judgement) : Judgement₂ := do
  if op ≠ "+" then throw invalidOperation
  let (t₁, l) ← e₁
  let _ ← elemType t₁
  let (t₂, r) ← e₂
  let _ ← elemType t₂
  return (t₁.join t₂, l, r)

/-- The identity of two values: of equal types, of two lists, or with the absent value on the
right. -/
def isRule (op : String) (e₁ e₂ : Judgement) : Judgement₂ := do
  if op ≠ "is" then throw invalidOperation
  let (t₁, l) ← e₁
  let (t₂, r) ← e₂
  if t₁ ≠ t₂ && !(t₁.isList && t₂.isList) && t₂ ≠ .none then throw (.unrelated t₁)
  return (.bool, l, r)

def binaryRule (e₁ : Judgement) (op : String) (e₂ : Judgement) : Judgement₂ := do
  let (t, _) ← e₁
  let none := throw (.noRule "Attempted binary operation with invalid operation")
  if arithmetic.contains op then
    if t = .int then arithRule e₁ op e₂
    else if t = .str then sameRule ["+"] .str .str op e₁ e₂
    else if t.isList then listConcatRule op e₁ e₂
    else none
  else if orderings.contains op then
    if t = .int then sameRule orderings .int .bool op e₁ e₂
    else if t = .str then sameRule equalities .str .bool op e₁ e₂
    else if t = .bool then sameRule equalities .bool .bool op e₁ e₂
    else none
  else if op = "is" then isRule op e₁ e₂
  else if op = "and" || op = "or" then logicRule e₁ e₂
  else none

def indexRule (e₁ e₂ : Judgement) : Judgement₂ := do
  let (t, _) ← e₁
  if t = .str then strSelectRule e₁ e₂ else listSelectRule e₁ e₂

def unaryRule (op : String) (e : Judgement) : Judgement :=
  if op = "-" then negateRule e
  else if op = "not" then notRule e
  else .error (.noRule "Attempted unary operation with invalid operation")

def callee (o : Env) (f : String) : Check FunctionInfo := do
  match ← o.entry f with
  | .function info => return info
  | .value t => throw (.notCallable (.value t))

def argsRule : List Judgement → List SourceType → Check (List Node)
  | [], _ => .ok []
  | e :: es, inputs => do
    let (t, place) ← e
    match inputs with
    | [] => throw .tooManyArguments
    | input :: rest =>
      requireAssignable t input
      return place ++ (← argsRule es rest)

mutual

def checkExpr (o : Env) : Node → Check (SourceType × Node)
  | .literal v hint => conclude (literalType v) (.literal v hint)
  | .unary op operand hint => do
    let (t, e) ← unaryRule op (checkPlace o operand)
    conclude t (.unary op e hint)
  | .binary op lhs rhs hint => do
    let (t, l, r) ← binaryRule (checkPlace o lhs) op (checkPlace o rhs)
    conclude t (.binary op l r hint)
  | .name x hint => do
    let t ← readRule o x
    conclude t (.name x hint)
  | .ifExpr cond thenValue elseValue hint => do
    let (t, c, l, r) ←
      condRule (checkPlace o thenValue) (checkPlace o cond) (checkPlace o elseValue)
    conclude t (.ifExpr c l r hint)
  | .index value position hint => do
    let (t, l, r) ← indexRule (checkPlace o value) (checkPlace o position)
    conclude t (.index l r hint)
  | .listExpr elems hint => do
    let js := checkAll o elems
    if js.isEmpty then conclude .empty (.listExpr elems hint)
    else
      let typed ← js.mapM id
      let t ← listDisplayRule (typed.map Prod.fst)
      conclude t (.listExpr (typed.flatMap Prod.snd) hint)
  | .call f args hint => do
    let info ← callee o f
    let es ← argsRule (checkAll o args) info.inputs
    conclude info.output (.call f es hint)
  | _ => .error .malformed

def checkPlace (o : Env) : List Node → Judgement
  | [] => .error .malformed
  | e :: rest => do
    let (t, e) ← checkExpr o e
    return (t, e :: rest)

def checkAll (o : Env) : List Node → List Judgement
  | [] => []
  | e :: rest => (checkExpr o e).map (fun (t, e) => (t, [e])) :: checkAll o rest

end

def isTarget : List Node → Bool
  | .name .. :: _ => true
  | .index .. :: _ => true
  | _ => false

def assignRule (o : Env) : Node → Check (SourceType × Node)
  | .assign target value => do
    if !isTarget target then
      throw (.noRule "expected an index expression or expression name on lhs of assignment")
    let (t₁, l) ← checkPlace o target
    let (t₂, r) ← match value with
      | .assign tgt v :: rest => do
        let (t, n) ← assignRule o (.assign tgt v)
        pure (t, n :: rest)
      | place => checkPlace o place
    requireAssignable t₂ t₁
    return (t₂, .assign l r)
  | _ => .error (.noRule "expected an assignment statement")

def initRule (o : Env) (x : String) (e : Judgement) : Check (SourceType × List Node) := do
  let t ← o.variable x
  let (t₁, place) ← e
  requireAssignable t₁ t
  return (t₁, place)

def returnRule (r : SourceType) (value : Option Judgement) : Check (List Node) := do
  let (t, place) ← match value with
    | some j => j
    | none => pure (.none, [])
  requireType t r
  return place

def requireEntry (o : Env) (x : String) (t : SourceType) : Check Unit := do
  let entry ← o.entry x
  if entry ≠ .value t then throw (.mismatch entry t)

def forStrRule (o : Env) (x : String) (e : Judgement) (body : Check (List Node)) :
    Check (List Node × List Node) := do
  let place ← e.ofType .str
  requireEntry o x .str
  return (place, ← body)

def forListRule (o : Env) (x : String) (e : Judgement) (body : Check (List Node)) :
    Check (List Node × List Node) := do
  let (t, place) ← e.ofList
  requireEntry o x t
  return (place, ← body)

def forRule (o : Env) (x : String) (e : Judgement) (body : Check (List Node)) :
    Check (List Node × List Node) := do
  let (t, _) ← e
  if t.isList then forListRule o x e body else forStrRule o x e body

def outerRule (o : Env) (x : String) : Check Unit :=
  if (o.lookup x).isNone then .error .noSuchPart else .ok ()

def functionInfo (o : Env) (f : String) : Check FunctionInfo := do
  match ← o.entry f with
  | .function info => return info
  | .value _ => throw .noSuchPart

mutual

def checkStmt (o : Env) (r : SourceType) : Node → Check (Option SourceType × Node)
  | .funcDef f params returnType body => do
    let info ← functionInfo o f
    let output ← typeOfPlace returnType
    let b ← checkBody (o.enter info) output body
    return (none, .funcDef f params returnType b)
  | .varDef declared initial =>
    match declared with
    | .typedVar x type :: _ => do
      let _ ← typeOfPlace type
      let (t, v) ← initRule o x (checkPlace o initial)
      return (some t, .varDef declared v)
    | _ => .error .malformed
  | .assign target value => do
    let (t, n) ← assignRule o (.assign target value)
    return (some t, n)
  | .passStmt => .ok (none, .passStmt)
  | .returnStmt value => do
    let v ← returnRule r (if value.isEmpty then none else some (checkPlace o value))
    return (none, .returnStmt v)
  | .ifStmt cond thenBody elseBody => do
    let elseCheck := if elseBody.isEmpty then none else some (checkBody o r elseBody)
    let (c, b₁, b₂) ← ifRule (checkPlace o cond) (checkBody o r thenBody) elseCheck
    return (none, .ifStmt c b₁ b₂)
  | .whileStmt cond body => do
    let (c, b) ← whileRule (checkPlace o cond) (checkBody o r body)
    return (none, .whileStmt c b)
  | .forStmt x iterable body => do
    let (e, b) ← forRule o x (checkPlace o iterable) (checkBody o r body)
    return (none, .forStmt x e b)
  | .globalDecl x => do
    outerRule o x
    return (none, .globalDecl x)
  | .nonlocalDecl x => do
    outerRule o x
    return (none, .nonlocalDecl x)
  | n => do return (none, (← checkExpr o n).2)

def checkBody (o : Env) (r : SourceType) : List Node → Check (List Node)
  | [] => .error .malformed
  | [n] => do return [(← checkStmt o r n).2]
  | n :: m :: rest => do
    let (_, n) ← checkStmt o r n
    let ns ← checkBody o r (m :: rest)
    return n :: ns

end

def checkProgram (ns : List Node) : Check (List Node) := do
  let o ← buildEnv ns
  match ns with
  | .program defs stmts :: rest => do
    let defs ← if defs.isEmpty then pure [] else checkBody o .bottom defs
    let stmts ← if stmts.isEmpty then pure [] else checkBody o .bottom stmts
    return .program defs stmts :: rest
  | _ => throw .malformed

end Practicum.Choco.EarlyTyping
