import Practicum.Choco.Node

/-!
# Well-formed syntax trees

Every place of a tree is filled as the grammar of trees asks. A node is checked before the nodes
below it, and the first violation is reported.
-/

namespace Practicum.Choco

inductive Violation where
  | strayDefinition (got : Node)
  | strayStatement (got : Node)
  | notAParameter (got : Node)
  | returnTypeCount
  | notAReturnType (got : Node)
  | strayInBody (got : Node)
  | variableType
  | unknownTypeName (name : String)
  | unknownOperator (op : String)
  | assignTarget
  | assignValue
  /-- The operation of this sort has something else than `wanted` in the place of this ordinal. -/
  | misfit (kind wanted ordinal : String)
  deriving Repr, BEq

def Violation.message : Violation → String
  | .strayDefinition got =>
    "choco.ast.program first region expects choco.ast.var_def and choco.ast.func_def operations, "
      ++ "but got " ++ got.kind
  | .strayStatement got =>
    "choco.ast.program second region only expects statements operations, but got " ++ got.kind
  | .notAParameter got =>
    "choco.ast.func_def first region expects choco.ast.typed_var operations, but got "
      ++ got.kind ++ "."
  | .returnTypeCount => "choco.ast.func_def expects a single return type"
  | .notAReturnType got =>
    "choco.ast.func_def second region expects a single operation representing a type, but got "
      ++ got.kind ++ "."
  | .strayInBody got =>
    "choco.ast.func_def third region expects variable declarations followed by statements, "
      ++ "but got " ++ got.kind
  | .variableType =>
    "choco.ast.typed_var second region expects a single operation representing a type, "
      ++ "but got <xdsl.ir._OpsView>."
  | .unknownTypeName name => "choco.ast.type_name expects type name, but got '" ++ name ++ "'"
  | .unknownOperator op => "Unsupported unary expression: '" ++ op ++ "'."
  | .assignTarget =>
    "choco.ast.assign operation expects a single expression in the first region, "
      ++ "but get <xdsl.ir._OpsView>."
  | .assignValue =>
    "choco.ast.assign operation expects a single expression, or a single choco.ast.assign "
      ++ "operation in the second region."
  | .misfit kind wanted ordinal =>
    kind ++ " operation expects " ++ wanted ++ " in the " ++ ordinal ++ " region."

def Violation.fault (v : Violation) : Fault :=
  .refused v.message

def typeNames : List String :=
  ["object", "int", "bool", "str", "<None>"]

def unaryOperators : List String :=
  ["-", "not"]

def binaryOperators : List String :=
  ["+", "-", "*", "//", "%", "and", "is", "or", ">", "<", "==", "!=", ">=", "<="]

namespace Node

def isSingle (p : Node → Bool) : List Node → Bool
  | [n] => p n
  | _ => false

def isDeclaration : Node → Bool
  | .globalDecl .. | .nonlocalDecl .. | .varDef .. => true
  | _ => false

def isDefinition : Node → Bool
  | .varDef .. | .funcDef .. => true
  | _ => false

def isTypedVar : Node → Bool
  | .typedVar .. => true
  | _ => false

def isLiteral : Node → Bool
  | .literal .. => true
  | _ => false

def isAssigned : Node → Bool
  | .assign .. => true
  | n => n.isExpr

def require (condition : Bool) (v : Violation) : Except Violation Unit :=
  if condition then .ok () else .error v

def requireAll (p : Node → Bool) (v : Node → Violation) (ns : List Node) :
    Except Violation Unit :=
  match ns.find? fun n => !p n with
  | none => .ok ()
  | some n => .error (v n)

def verifyHere (n : Node) : Except Violation Unit := do
  let single := fun (p : Node → Bool) (place : List Node) (wanted ordinal : String) =>
    require (isSingle p place) (.misfit n.kind wanted ordinal)
  let each := fun (p : Node → Bool) (place : List Node) (wanted ordinal : String) =>
    require (place.all p) (.misfit n.kind wanted ordinal)
  match n with
  | .program defs stmts =>
    requireAll isDefinition .strayDefinition defs
    requireAll isStmt .strayStatement stmts
  | .funcDef _ params returnType body =>
    requireAll isTypedVar .notAParameter params
    match returnType with
    | [t] => require t.isType (.notAReturnType t)
    | _ => .error .returnTypeCount
    requireAll isStmt .strayInBody (body.dropWhile isDeclaration)
  | .typedVar _ type => require (isSingle isType type) .variableType
  | .typeName x => require (typeNames.contains x) (.unknownTypeName x)
  | .listType elem => single isType elem "a single type operation" "first"
  | .varDef declared initial =>
    single isTypedVar declared "a single choco.ast.typed_var operation" "first"
    single isLiteral initial "a single choco.ast.literal operation" "second"
  | .ifStmt cond thenBody elseBody =>
    single isExpr cond "a single expression" "first"
    each isStmt thenBody "statements operations" "second"
    each isStmt elseBody "statements operations" "third"
  | .whileStmt cond body =>
    single isExpr cond "a single expression" "first"
    each isStmt body "statements operations" "second"
  | .forStmt _ iterable body =>
    single isExpr iterable "a single expression" "first"
    each isStmt body "statements operations" "second"
  | .returnStmt value =>
    require (value.isEmpty || isSingle isExpr value)
      (.misfit n.kind "a single expression" "first")
  | .assign target value =>
    require (isSingle isExpr target) .assignTarget
    require (value.all isAssigned) .assignValue
  | .unary op operand _ =>
    require (unaryOperators.contains op) (.unknownOperator op)
    single isExpr operand "a single expression" "first"
  | .binary op lhs rhs _ =>
    require (binaryOperators.contains op) (.unknownOperator op)
    single isExpr lhs "a single expression" "first"
    single isExpr rhs "a single expression" "second"
  | .ifExpr cond thenValue elseValue _ =>
    single isExpr cond "a single expression" "first"
    single isExpr thenValue "a single expression" "second"
    single isExpr elseValue "a single expression" "third"
  | .listExpr elems _ => each isExpr elems "expression operations" "first"
  | .call _ args _ => each isExpr args "expression operations" "second"
  | .index value position _ =>
    single isExpr value "a single expression operation" "first"
    single isExpr position "a single expression operation" "first"
  | .globalDecl _ | .nonlocalDecl _ | .passStmt | .literal .. | .name .. => .ok ()

def verifyAll (ns : List Node) : Except Violation Unit :=
  (walkAll ns).forM verifyHere

end Node

end Practicum.Choco
