import Practicum.Choco.Typing.Env
import Practicum.IR.Editing

/-!
# From syntax trees to the flat level

A program becomes one function in which every expression is a sequence of operations. Variables
are memory locations: reading one is a load, assigning to one a store, and the parameters of a
function are stored into locations of their own when it is entered. The operands of `and` and `or`
and the branches of a conditional expression become blocks, since they may not run.
-/

namespace Practicum.Flat

open Choco IR

inductive FlattenError where
  | notAProgram
  | notAnExpression
  | unresolved (x : String)
  | operandTypes (lhs rhs : Ty)
  | notIndexable (t : Ty)
  | notALocation (t : Ty)
  | notAType
  | notATypedVar
  | nameTaken (x : String)
  | untypedCall (func : String)
  | typing (e : TypeError)

def FlattenError.fault : FlattenError → Fault
  | .notAnExpression => .broken "Unknown Expression"
  | .nameTaken _ => .refused ""
  | .untypedCall _ => .unknownKey
  | .typing e => e.fault
  | _ => .broken ""

abbrev Flatten := StateT Nat (Except FlattenError)

instance : Fresh Flatten where
  fresh := modifyGet fun n => (n, n + 1)

structure Computed where
  ops : List Op
  value : Val

structure Scope where
  inner : List (String × Val) := []
  outer : List (List (String × Val)) := []

namespace Scope

def find? (scope : Scope) (x : String) : Option Val :=
  (scope.inner :: scope.outer).findSome? fun frame => frame.lookup x

def declare (scope : Scope) (x : String) (v : Val) : Except FlattenError Scope :=
  if (scope.inner.lookup x).isSome then .error (.nameTaken x)
  else .ok { scope with inner := (x, v) :: scope.inner }

def enter (scope : Scope) (names : List (String × Val)) : Scope :=
  { inner := names, outer := scope.inner :: scope.outer }

end Scope

/-! ## Operations of the flat level -/

def step (code : FlatCode) (operands : List Val) (regions : List Block := []) : Flatten Op :=
  Op.make (.flat code) operands [] regions

def compute (code : FlatCode) (operands : List Val) (type : Ty) (regions : List Block := []) :
    Flatten (Op × Val) :=
  Op.makeValue (.flat code) operands type regions

def Computed.followedBy (ops : List Op) (last : Op × Val) : Computed :=
  { ops := ops ++ [last.1], value := last.2 }

/-! ## Expressions -/

def loaded (e : Flatten Computed) : Flatten Computed := do
  let c ← e
  match c.value.type with
  | .memory content => return .followedBy c.ops (← compute .load [c.value] content)
  | _ => return c

def operandBlock (c : Computed) : Flatten Block := do
  return .plain (c.ops ++ [← step .yield [c.value]])

def literalRule (value : Literal) : Flatten Computed := do
  return .followedBy [] (← compute (.literal value) [] value.type)

def nameRule (scope : Scope) (x : String) : Flatten Computed :=
  match scope.find? x with
  | some value => return { ops := [], value }
  | none => throw (.unresolved x)

def unaryRule (op : String) (operand : Flatten Computed) : Flatten Computed := do
  let a ← operand
  return .followedBy a.ops (← compute (.unary op) [a.value] a.value.type)

def isComparison (op : String) : Bool :=
  ["!=", "==", "<", "<=", ">", ">=", "is"].contains op

/-- The type of the value of a binary operator. The operands have one type, unless they are
compared for identity or are lists that are concatenated. -/
def binaryType (op : String) (lhs rhs : Ty) : Except FlattenError Ty :=
  let result : Except FlattenError Ty := match op, lhs, rhs with
    | "+", .list a, .list b => .ok (if a = b then rhs else .list .object)
    | "is", _, _ => .ok rhs
    | _, _, _ => if lhs = rhs then .ok rhs else .error (.operandTypes lhs rhs)
  result.map fun t => if isComparison op then .bool else t

def binaryRule (op : String) (lhs rhs : Flatten Computed) : Flatten Computed := do
  let a ← lhs
  let b ← rhs
  let type ← binaryType op a.value.type b.value.type
  if op = "or" || op = "and" then
    let first ← operandBlock a
    let second ← operandBlock b
    return .followedBy [] (← compute (.lazyBinary op) [] type [first, second])
  else
    return .followedBy (a.ops ++ b.ops) (← compute (.binary op) [a.value, b.value] type)

def choiceRule (cond yes no : Flatten Computed) : Flatten Computed := do
  let c ← cond
  let a ← yes
  let b ← no
  let first ← operandBlock a
  let second ← operandBlock b
  return .followedBy c.ops (← compute .choice [c.value] a.value.type [first, second])

def checked {α : Type} (c : Check α) : Flatten α :=
  match c with
  | .ok a => return a
  | .error e => throw (.typing e)

def displayType : List Ty → Flatten Ty
  | [] => return .empty
  | t :: ts => do
    let first ← checked (SourceType.ofTy t)
    let joined ← (t :: ts).foldlM (fun (u : SourceType) t => do
      return u.join (← checked (SourceType.ofTy t))) first
    return .list (← checked joined.toTy)

def listRule (elems : Flatten (List Computed)) : Flatten Computed := do
  let cs ← elems
  let type ← displayType (cs.map fun c => c.value.type)
  return .followedBy (cs.flatMap Computed.ops) (← compute .list (cs.map Computed.value) type)

def indexRule (value position : Flatten Computed) : Flatten Computed := do
  let a ← value
  let i ← position
  let code ← match a.value.type with
    | .list elem => pure (FlatCode.getAddress, elem)
    | t => if t = .str then pure (FlatCode.indexString, Ty.str) else throw (.notIndexable t)
  return .followedBy (a.ops ++ i.ops) (← compute code.1 [a.value, i.value] (.memory code.2))

def callRule (func : String) (args : Flatten (List Computed)) (hint : Option Ty) :
    Flatten Computed := do
  let cs ← args
  match hint with
  | some type =>
    return .followedBy (cs.flatMap Computed.ops)
      (← compute (.call func) (cs.map Computed.value) type)
  | none => throw (.untypedCall func)

mutual

/-- The operations of an expression; variables and elements are left as memory locations. -/
def expr (scope : Scope) : Node → Flatten Computed
  | .literal value _ => literalRule value
  | .name x _ => nameRule scope x
  | .unary op a _ => unaryRule op (value scope a)
  | .binary op a b _ => binaryRule op (value scope a) (value scope b)
  | .call func args hint => callRule func (values scope args) hint
  | .ifExpr c a b _ => choiceRule (value scope c) (value scope a) (value scope b)
  | .listExpr elems _ => listRule (values scope elems)
  | .index a i _ => indexRule (value scope a) (value scope i)
  | _ => throw .notAnExpression

def value (scope : Scope) : List Node → Flatten Computed
  | [] => throw .notAnExpression
  | n :: _ => loaded (expr scope n)

def values (scope : Scope) : List Node → Flatten (List Computed)
  | [] => return []
  | n :: ns => do
    let c ← loaded (expr scope n)
    return c :: (← values scope ns)

end

/-! ## Statements -/

def target (scope : Scope) : List Node → Flatten Computed
  | [] => throw .notAnExpression
  | n :: _ => expr scope n

structure Chain where
  value : Flatten Computed
  targets : List (Flatten Computed)

mutual

/-- The chain of assignments that a node is; a node that assigns nothing is the value. -/
def chain (scope : Scope) : Node → Chain
  | .assign t v =>
    let rest := chainAt scope v
    { rest with targets := target scope t :: rest.targets }
  | n => { value := loaded (expr scope n), targets := [] }

def chainAt (scope : Scope) : List Node → Chain
  | [] => { value := throw .notAnExpression, targets := [] }
  | n :: _ => chain scope n

end

def storeRule (v : Val) (t : Computed) : Flatten (List Op) := do
  match t.value.type with
  | .memory _ => return t.ops ++ [← step .store [t.value, v]]
  | type => throw (.notALocation type)

def assignRule (c : Chain) : Flatten (List Op) := do
  let v ← c.value
  let targets ← c.targets.mapM id
  let stores ← targets.mapM (storeRule v.value)
  return v.ops ++ stores.flatten

def returnRule (place : List Node) (value : Flatten Computed) : Flatten (List Op) := do
  let v ← if place.isEmpty then literalRule .none else value
  return v.ops ++ [← step .ret [v.value]]

def callStmtRule (func : String) (args : Flatten (List Computed)) : Flatten (List Op) := do
  let cs ← args
  return cs.flatMap Computed.ops ++ [← step (.call func) (cs.map Computed.value)]

def branchRule (cond : Flatten Computed) (yes no : Flatten (List Op)) : Flatten (List Op) := do
  let c ← cond
  let a ← yes
  let b ← no
  return c.ops ++ [← step .branch [c.value] [.plain a, .plain b]]

def loopRule (cond : Flatten Computed) (body : Flatten (List Op)) : Flatten (List Op) := do
  let c ← operandBlock (← cond)
  return [← step .loop [] [c, .plain (← body)]]

/-- A loop over the elements of a value; its variable is the first operand. -/
def forRule (scope : Scope) (x : String) (iterable : Flatten Computed)
    (body : Flatten (List Op)) : Flatten (List Op) := do
  let c ← iterable
  let b ← body
  return c.ops ++ [← step .forEach ((scope.find? x).toList ++ [c.value]) [.plain b]]

mutual

def stmt (scope : Scope) (n : Node) : Flatten (List Op) :=
  match n with
  | .assign _ _ => assignRule (chain scope n)
  | .returnStmt v => returnRule v (value scope v)
  | .call func args _ => callStmtRule func (values scope args)
  | .passStmt => return []
  | .ifStmt c a b => branchRule (value scope c) (stmts scope a) (stmts scope b)
  | .whileStmt c b => loopRule (value scope c) (stmts scope b)
  | .forStmt x it b => forRule scope x (value scope it) (stmts scope b)
  | .globalDecl _ => return []
  | n => do return (← expr scope n).ops

def stmts (scope : Scope) : List Node → Flatten (List Op)
  | [] => return []
  | n :: ns => do
    let ops ← stmt scope n
    return ops ++ (← stmts scope ns)

end

/-! ## Definitions -/

mutual

def typeOf : Node → Except FlattenError (Option Ty)
  | .typeName "int" => .ok (some .int)
  | .typeName "bool" => .ok (some .bool)
  | .typeName "object" => .ok (some .object)
  | .typeName "str" => .ok (some .str)
  | .listType elem => do
    match ← typeAt elem with
    | some t => return some (.list t)
    | none => throw .notAType
  | _ => .ok none

def typeAt : List Node → Except FlattenError (Option Ty)
  | [] => .ok none
  | n :: _ => typeOf n

end

def typedVar : Node → Except FlattenError (String × Ty)
  | .typedVar x type => do
    match ← typeAt type with
    | some t => return (x, t)
    | none => throw .notAType
  | _ => .error .notATypedVar

def varDefRule (scope : Scope) (declared : List Node) (initial : Flatten Computed) :
    Flatten (Scope × List Op) := do
  let (x, type) ← match declared with
    | n :: _ => (typedVar n : Except FlattenError (String × Ty))
    | [] => throw .notATypedVar
  let c ← initial
  let (alloc, location) ← compute (.alloc type) [] (.memory type)
  let store ← step .store [location, c.value]
  return (← scope.declare x location, c.ops ++ [alloc, store])

def paramRule (arg : Val) : Flatten (List Op × Val) := do
  let (alloc, location) ← compute (.alloc arg.type) [] (.memory arg.type)
  return ([alloc, ← step .store [location, arg]], location)

def funcDefRule (scope : Scope) (func : String) (params returnType : List Node)
    (body : Scope → Flatten (List Op)) : Flatten Op := do
  let declared ← params.mapM fun n => (typedVar n : Except FlattenError (String × Ty))
  let result ← (typeAt returnType : Except FlattenError (Option Ty))
  let args ← declared.mapM fun p => do return ({ id := ← Fresh.fresh, type := p.2 } : Val)
  let stored ← args.reverse.mapM paramRule
  let names := (declared.map Prod.fst).reverse.zip (stored.map Prod.snd)
  let ops ← body (scope.enter names)
  step (.funcDef func (result.getD .none)) [] [.mk args (stored.flatMap Prod.fst ++ ops)]

mutual

def item (scope : Scope) (n : Node) : Flatten (Scope × List Op) :=
  match n with
  | .funcDef func params returnType body => do
    return (scope, [← funcDefRule scope func params returnType fun inner => items inner body])
  | .varDef declared initial => varDefRule scope declared (value scope initial)
  | n => do return (scope, ← stmt scope n)

def items (scope : Scope) : List Node → Flatten (List Op)
  | [] => return []
  | n :: ns => do
    let (scope, ops) ← item scope n
    return ops ++ (← items scope ns)

end

def definitions (scope : Scope) : List Node → Flatten (Scope × List Op)
  | [] => return (scope, [])
  | n :: ns => do
    let (scope, first) ← item scope n
    let (scope, rest) ← definitions scope ns
    return (scope, first ++ rest)

def isVarDef : Node → Bool
  | .varDef .. => true
  | _ => false

def isFuncDef : Node → Bool
  | .funcDef .. => true
  | _ => false

/-- The operations of a program: first the variables, then the functions, then the statements. -/
def program (defs body : List Node) : Flatten (List Op) := do
  let (scope, vars) ← definitions {} (defs.filter isVarDef)
  let (_, funcs) ← definitions scope (defs.filter isFuncDef)
  return vars ++ funcs ++ (← stmts scope body)

def ofTree (ns : List Node) : Except FlattenError Module :=
  match ns with
  | .program defs body :: _ => do
    let flat : Flatten Op := do
      let ops ← program defs body
      step (.funcDef "_main" .none) [] [.plain ops]
    let (main, next) ← flat.run 0
    return { ops := [main], next }
  | _ => .error .notAProgram

end Practicum.Flat
