import Practicum.Choco.Typing.Env

/-!
# Typing rules

The typing rules of the language. A judgement about a place of a tree is the type found for the
expression in it together with the place in which the expression and all its parts carry their
types. Every rule is a function from the judgements of its premises, taken in their order, so that
the first premise that fails decides the error; `checkExpr` and `checkStmt` apply the rules along
the tree.
-/

namespace Practicum.Choco.Typing

/-- The type of the expression in a place, and the place with the types found. -/
abbrev Judgement := Check (SourceType × List Node)

def Judgement.ofType (j : Judgement) (expected : SourceType) : Check (List Node) := do
  let (t, place) ← j
  if t ≠ expected then throw (.mismatch (.value t) expected)
  return place

def elemType : SourceType → Check SourceType
  | .list elem => .ok elem
  | t => .error (.notAList t)

def Judgement.ofList (j : Judgement) : Judgement := do
  let (t, place) ← j
  return (← elemType t, place)

def requireAssignable (found expected : SourceType) : Check Unit :=
  if found.assignable expected then .ok () else .error (.notAssignable found expected)

def requireType (found expected : SourceType) : Check Unit :=
  if found = expected then .ok () else .error (.mismatch (.value found) expected)

def requireSubtype (found expected : SourceType) : Check Unit :=
  if found.subtype expected then .ok () else .error (.notASubtype found expected)

def literalType : Literal → SourceType
  | .none => .none
  | .bool _ => .bool
  | .int _ _ => .int
  | .str _ => .str

def literalRule : Node → Check SourceType
  | .literal v _ => .ok (literalType v)
  | n@(.returnStmt _) => .error (.notALiteral n)
  | n@(.assign _ _) => .error (.notALiteral n)
  | n@(.unary _ _ _) => .error (.notALiteral n)
  | n@(.index _ _ _) => .error (.notALiteral n)
  | _ => .error .noSuchPart

def readRule (o : Env) (x : String) : Check SourceType :=
  match o.lookup x with
  | none => .error (.unknownIdentifier x)
  | some (.function _) => .error (.functionAsValue x)
  | some (.value t) => .ok t

def arithmetic : List String :=
  ["+", "-", "*", "//", "%"]

def orderings : List String :=
  ["<", "<=", ">", ">=", "==", "!="]

def equalities : List String :=
  ["==", "!="]

abbrev Judgement₂ := Check (SourceType × List Node × List Node)

def sameRule (operand result : SourceType) (e₁ e₂ : Judgement) : Judgement₂ := do
  let l ← e₁.ofType operand
  let r ← e₂.ofType operand
  return (result, l, r)

def arithRule (e₁ : Judgement) (op : String) (e₂ : Judgement) : Judgement₂ :=
  if arithmetic.contains op then sameRule .int .int e₁ e₂ else .error .malformed

def intCompareRule (e₁ : Judgement) (op : String) (e₂ : Judgement) : Judgement₂ :=
  if orderings.contains op then sameRule .int .bool e₁ e₂ else .error .malformed

def boolCompareRule (e₁ : Judgement) (op : String) (e₂ : Judgement) : Judgement₂ :=
  if equalities.contains op then sameRule .bool .bool e₁ e₂ else .error .malformed

def strCompareRule (e₁ : Judgement) (op : String) (e₂ : Judgement) : Judgement₂ :=
  if equalities.contains op then sameRule .str .bool e₁ e₂ else .error .malformed

def logicRule (e₁ e₂ : Judgement) : Judgement₂ :=
  sameRule .bool .bool e₁ e₂

def strConcatRule (e₁ e₂ : Judgement) : Judgement₂ :=
  sameRule .str .str e₁ e₂

def listConcatRule (e₁ e₂ : Judgement) : Judgement₂ := do
  let (t₁, l) ← e₁.ofList
  let (t₂, r) ← e₂.ofList
  return (.list (t₁.join t₂), l, r)

def lacksIdentity (t : SourceType) : Bool :=
  t == .int || t == .str || t == .bool

/-- The identity of two values. The error names the first type, whichever is at fault. -/
def isRule (e₁ e₂ : Judgement) : Judgement₂ := do
  let (t₁, l) ← e₁
  let (t₂, r) ← e₂
  if lacksIdentity t₁ || lacksIdentity t₂ then throw (.noIdentity t₁)
  return (.bool, l, r)

def strSelectRule (e₁ e₂ : Judgement) : Judgement₂ := do
  let l ← e₁.ofType .str
  let r ← e₂.ofType .int
  return (.str, l, r)

def listSelectRule (e₁ e₂ : Judgement) : Judgement₂ := do
  let (t, l) ← e₁.ofList
  let r ← e₂.ofType .int
  return (t, l, r)

def negateRule (e : Judgement) : Judgement := do
  return (.int, ← e.ofType .int)

def notRule (e : Judgement) : Judgement := do
  return (.bool, ← e.ofType .bool)

/-- A conditional expression `e₁ if e₀ else e₂`; the places are those of `e₀`, `e₁` and `e₂`. -/
def condRule (e₁ e₀ e₂ : Judgement) :
    Check (SourceType × List Node × List Node × List Node) := do
  let c ← e₀.ofType .bool
  let (t₁, l) ← e₁
  let (t₂, r) ← e₂
  return (t₁.join t₂, c, l, r)

def listDisplayRule : List SourceType → Check SourceType
  | [] => .error .malformed
  | t :: ts => .ok (.list (ts.foldl SourceType.join t))

def invokeRule (o : Env) (f : String) (args : List SourceType) : Check SourceType :=
  match o.lookup f with
  | none => .error (.unknownFunction f)
  | some (.value _) => .error .valueAsFunction
  | some (.function info) => do
    if args.length ≠ info.inputs.length then
      throw (.argumentCount info.inputs.length args.length)
    (args.zip info.inputs).forM fun (found, expected) => requireAssignable found expected
    return info.output

def binaryRule (e₁ : Judgement) (op : String) (e₂ : Judgement) : Judgement₂ := do
  if arithmetic.contains op then
    let (t, _) ← e₁
    if t = .int then arithRule e₁ op e₂
    else if t = .str && op == "+" then strConcatRule e₁ e₂
    else if t.isList then
      if op ≠ "+" then throw (.operator op "list type")
      listConcatRule e₁ e₂
    else throw (.notArithmetic t)
  else if orderings.contains op then
    let (t, _) ← e₁
    if t = .int then intCompareRule e₁ op e₂
    else if t = .bool then
      if !equalities.contains op then throw (.operator op "bool")
      boolCompareRule e₁ op e₂
    else if t = .str then
      if !equalities.contains op then throw (.operator op "str")
      strCompareRule e₁ op e₂
    else throw (.notComparable t)
  else if op = "and" || op = "or" then logicRule e₁ e₂
  else if op = "is" then isRule e₁ e₂
  else throw (.unknownOperator op)

def indexRule (e₁ e₂ : Judgement) : Judgement₂ := do
  let (t, _) ← e₁
  if t = .str then strSelectRule e₁ e₂
  else if t.isList then listSelectRule e₁ e₂
  else throw (.notIndexable t)

def unaryRule (op : String) (e : Judgement) : Judgement :=
  if op = "-" then negateRule e
  else if op = "not" then notRule e
  else .error .malformed

def conclude (t : SourceType) (n : Node) : Check (SourceType × Node) := do
  return (t, n.withHint (← t.toTy))

mutual

def checkExpr (o : Env) : Node → Check (SourceType × Node)
  | .literal v hint => conclude (literalType v) (.literal v hint)
  | .unary op operand hint => do
    let (t, e) ← unaryRule op (checkPlace o operand)
    conclude t (.unary op e hint)
  | .binary op lhs rhs hint => do
    let (t, l, r) ← binaryRule (checkPlace o lhs) op (checkPlace o rhs)
    conclude t (.binary op l r hint)
  | .name x hint => do
    let t ← readRule o x
    conclude t (.name x hint)
  | .ifExpr cond thenValue elseValue hint => do
    let (t, c, l, r) ←
      condRule (checkPlace o thenValue) (checkPlace o cond) (checkPlace o elseValue)
    conclude t (.ifExpr c l r hint)
  | .index value position hint => do
    let (t, l, r) ← indexRule (checkPlace o value) (checkPlace o position)
    conclude t (.index l r hint)
  | .listExpr elems hint => do
    if elems.isEmpty then conclude .empty (.listExpr elems hint)
    else
      let (ts, es) ← checkAll o elems
      conclude (← listDisplayRule ts) (.listExpr es hint)
  | .call f args hint => do
    let (ts, es) ← checkAll o args
    let t ← invokeRule o f ts
    conclude t (.call f es hint)
  | _ => .error .malformed

def checkPlace (o : Env) : List Node → Judgement
  | [] => .error .malformed
  | e :: rest => do
    let (t, e) ← checkExpr o e
    return (t, e :: rest)

def checkAll (o : Env) : List Node → Check (List SourceType × List Node)
  | [] => .ok ([], [])
  | e :: rest => do
    let (t, e) ← checkExpr o e
    let (ts, es) ← checkAll o rest
    return (t :: ts, e :: es)

end

def initRule (o : Env) (x : String) (e : Judgement) : Check (List Node) := do
  let t ← o.variable x
  let (t₁, place) ← e
  requireAssignable t₁ t
  return place

def assignRule (target value : Judgement) : Check (List Node × List Node) := do
  let (t₁, l) ← target
  let (t₂, r) ← value
  requireAssignable t₂ t₁
  return (l, r)

def multiAssignRule (targets : List Judgement) (value : Judgement) :
    Check (List (List Node) × List Node) := do
  if targets.length ≤ 1 then throw .malformed
  let (t₀, v) ← value
  let ls ← targets.mapM fun target => do return (← assignRule target value).1
  if t₀ = .list .none then throw (.absentElements t₀)
  return (ls, v)

def returnValueRule (r : SourceType) (e : Judgement) : Check (List Node) := do
  let (t, place) ← e
  requireAssignable t r
  return place

def returnRule (r : SourceType) : Check Unit :=
  requireAssignable .none r

def ifRule (e : Judgement) (thenBody : Check (List Node)) (elseBody : Option (Check (List Node))) :
    Check (List Node × List Node × List Node) := do
  let c ← e.ofType .bool
  let b₁ ← thenBody
  let b₂ ← match elseBody with
    | some b => b
    | none => pure []
  return (c, b₁, b₂)

def whileRule (e : Judgement) (body : Check (List Node)) : Check (List Node × List Node) := do
  let c ← e.ofType .bool
  return (c, ← body)

def forStrRule (o : Env) (x : String) (e : Judgement) (body : Check (List Node)) :
    Check (List Node × List Node) := do
  let place ← e.ofType .str
  requireAssignable .str (← o.variable x)
  return (place, ← body)

def forListRule (o : Env) (x : String) (e : Judgement) (body : Check (List Node)) :
    Check (List Node × List Node) := do
  let (t₁, place) ← e.ofList
  requireAssignable t₁ (← o.variable x)
  return (place, ← body)

def forRule (o : Env) (x : String) (e : Judgement) (body : Check (List Node)) :
    Check (List Node × List Node) := do
  let (t, _) ← e
  if t = .str then forStrRule o x e body
  else if t.isList then forListRule o x e body
  else throw (.notIterable t)

def functionInfo (o : Env) (f : String) : Check FunctionInfo := do
  match ← o.entry f with
  | .function info => return info
  | .value _ => throw (.noFunctionInfo f)

/-- The premises of a chain of assignments: the judgements about its targets, from the left, and
about the value at its end. -/
def chainPremises (o : Env) : List Node → List Judgement × Judgement
  | .assign target value :: _ =>
    let (targets, v) := chainPremises o value
    (checkPlace o target :: targets, v)
  | place => ([], checkPlace o place)

def refillChain : List Node → List (List Node) → List Node → List Node
  | .assign _ value :: rest, target :: targets, v =>
    .assign target (refillChain value targets v) :: rest
  | _, _, v => v

def chainRule (o : Env) (n : Node) : Check Node := do
  let (targets, v) := chainPremises o [n]
  let (ls, r) ← match targets with
    | [target] => do
      let (l, r) ← assignRule target v
      pure ([l], r)
    | _ => multiAssignRule targets v
  return (refillChain [n] ls r).headD n

mutual

def checkStmt (o : Env) (r : SourceType) : Node → Check Node
  | .funcDef f params returnType body => do
    let info ← functionInfo o f
    let b ← checkBody (o.enter info) info.output body
    return .funcDef f params returnType b
  | .varDef declared initial =>
    match declared with
    | .typedVar x _ :: _ => do return .varDef declared (← initRule o x (checkPlace o initial))
    | _ => .error .malformed
  | .assign target value => chainRule o (.assign target value)
  | .passStmt => .ok .passStmt
  | .returnStmt value =>
    match value with
    | [] => do
      returnRule r
      return .returnStmt []
    | [e] => do return .returnStmt (← returnValueRule r (checkPlace o [e]))
    | _ => .error .malformed
  | .ifStmt cond thenBody elseBody => do
    let elseCheck := if elseBody.isEmpty then none else some (checkBody o r elseBody)
    let (c, b₁, b₂) ← ifRule (checkPlace o cond) (checkBody o r thenBody) elseCheck
    return .ifStmt c b₁ b₂
  | .whileStmt cond body => do
    let (c, b) ← whileRule (checkPlace o cond) (checkBody o r body)
    return .whileStmt c b
  | .forStmt x iterable body => do
    let (e, b) ← forRule o x (checkPlace o iterable) (checkBody o r body)
    return .forStmt x e b
  | .globalDecl x => .ok (.globalDecl x)
  | .nonlocalDecl x => .ok (.nonlocalDecl x)
  | n => do return (← checkExpr o n).2

def checkBody (o : Env) (r : SourceType) : List Node → Check (List Node)
  | [] => .error .malformed
  | [n] => do return [← checkStmt o r n]
  | n :: m :: rest => do
    let n ← checkStmt o r n
    let ns ← checkBody o r (m :: rest)
    return n :: ns

end

def checkProgram (ns : List Node) : Check (List Node) := do
  let o ← buildEnv ns
  match ns with
  | .program defs stmts :: rest => do
    let defs ← if defs.isEmpty then pure [] else checkBody o .bottom defs
    let stmts ← if stmts.isEmpty then pure [] else checkBody o .bottom stmts
    return .program defs stmts :: rest
  | _ => throw .malformed

end Practicum.Choco.Typing
