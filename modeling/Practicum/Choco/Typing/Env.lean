import Practicum.Choco.Node

/-!
# Types and environments

The types that type checking works with. Values are integers, truth values, strings, the absent
value, lists and objects; the empty list has a type of its own, and `bottom` is the type of what
no statement may return. The type of a function lists its inputs in front of its output.

`assignable` says when a value of one type can be stored where another type is declared, and `join`
is the smallest type above two types.
-/

namespace Practicum.Choco

open IR (Ty)

inductive SourceType where
  | int
  | bool
  | str
  | none
  | empty
  | object
  | bottom
  | list (elem : SourceType)
  | returning (output : SourceType)
  | taking (input function : SourceType)
  deriving DecidableEq, Repr

namespace SourceType

def function (inputs : List SourceType) (output : SourceType) : SourceType :=
  inputs.foldr .taking (.returning output)

def isList : SourceType → Bool
  | .list _ => true
  | _ => false

mutual

def text : SourceType → String
  | .int => "BasicType(name='int')"
  | .bool => "BasicType(name='bool')"
  | .str => "BasicType(name='str')"
  | .none => "BasicType(name='<None>')"
  | .empty => "BasicType(name='<Empty>')"
  | .object => "<choco.type_checking.ObjectType>"
  | .bottom => "<choco.type_checking.BottomType>"
  | .list elem => "ListType(elem_type=" ++ text elem ++ ")"
  | .returning output => "FunctionType(inputs=[], output=" ++ text output ++ ")"
  | .taking input function => "FunctionType(inputs=[" ++ text input ++ restText function

def restText : SourceType → String
  | .returning output => "], output=" ++ text output ++ ")"
  | .taking input function => ", " ++ text input ++ restText function
  | _ => "])"

end

def ofName? : String → Option SourceType
  | "int" => some .int
  | "bool" => some .bool
  | "str" => some .str
  | "<None>" => some .none
  | "<Empty>" => some .empty
  | "object" => some .object
  | _ => Option.none

def toTy? : SourceType → Option Ty
  | .int => some .int
  | .bool => some .bool
  | .str => some .str
  | .none => some .none
  | .empty => some .empty
  | .object => some .object
  | .list elem => elem.toTy?.map .list
  | .bottom => Option.none
  | .returning _ => Option.none
  | .taking _ _ => Option.none

def subtype (t u : SourceType) : Bool :=
  t == u
    || (u == .object && (t == .int || t == .bool || t == .str || t == .none || t == .empty
      || t.isList))
    || t == .bottom

def nullable (t : SourceType) : Bool :=
  t != .int && t != .bool && t != .str && t != .bottom

/-- Whether a list type has the absent value's type as the type of its elements, and another list
type has elements that may be absent. -/
def nullableElems : SourceType → SourceType → Bool
  | .list .none, .list elem => elem.nullable
  | _, _ => false

def assignable (t u : SourceType) : Bool :=
  (subtype t u && t != .bottom)
    || (t == .none && u.nullable)
    || (t == .empty && u.isList)
    || nullableElems t u

def join (t u : SourceType) : SourceType :=
  if assignable t u then u
  else if assignable u t then t
  else .object

end SourceType

/-!
## Environments

An environment gives the names of a program their types. It is built in one walk over the program:
every declaration of a variable and every function puts an entry in it, and a function keeps the
declarations of its body to itself.
-/

structure FunctionInfo where
  inputs : List SourceType
  output : SourceType
  params : List String
  locals : List (String × SourceType) := []
  deriving DecidableEq, Repr

inductive Entry where
  | value (t : SourceType)
  | function (f : FunctionInfo)
  deriving DecidableEq, Repr

def FunctionInfo.text (f : FunctionInfo) : String :=
  "FunctionInfo(func_type=" ++ (SourceType.function f.inputs f.output).text ++ ", params=["
    ++ ", ".intercalate (f.params.map Text.quote) ++ "], nested_defs=["
    ++ ", ".intercalate (f.locals.map fun (x, t) => "(" ++ Text.quote x ++ ", " ++ t.text ++ ")")
    ++ "])"

def Entry.text : Entry → String
  | .value t => t.text
  | .function f => f.text

inductive TypeError where
  /-- Another type is expected of what a name stands for, or of an expression. -/
  | mismatch (found : Entry) (expected : SourceType)
  | notAssignable (found expected : SourceType)
  | notASubtype (found expected : SourceType)
  | notAList (found : SourceType)
  | unknownIdentifier (x : String)
  | functionAsValue (x : String)
  | valueAsFunction
  | unknownFunction (f : String)
  | argumentCount (expected got : Nat)
  | noFunctionInfo (f : String)
  | notArithmetic (found : SourceType)
  | notComparable (found : SourceType)
  | operator (op sort : String)
  | notIndexable (found : SourceType)
  | notIterable (found : SourceType)
  | noIdentity (found : SourceType)
  | absentElements (found : SourceType)
  /-- The second edition finds no rule for the operands of an identity test. -/
  | unrelated (found : SourceType)
  | notCallable (found : Entry)
  /-- The second edition has no rule for a node; the text says for which. -/
  | noRule (text : String)
  | unknownOperator (op : String)
  | unknownTypeName (x : String)
  | notAType (shown : String)
  | noValueType (t : SourceType)
  | notALiteral (n : Node)
  | malformed
  | undeclared (x : String)
  | noSuchPart
  | tooManyArguments
  | parameterCount
  deriving Repr, BEq

def TypeError.message : TypeError → String
  | .mismatch found expected => "Found `" ++ found.text ++ "' but expected " ++ expected.text
  | .notAssignable found expected =>
    " Expected " ++ found.text ++ " and " ++ expected.text ++ " to be assignment compatible"
  | .notASubtype found expected =>
    "Found `" ++ found.text ++ "' but expected a subtype of " ++ expected.text
  | .notAList found => "Found `" ++ found.text ++ "' but expected a list type"
  | .unknownIdentifier x => "Unknown identifier " ++ x ++ " used"
  | .functionAsValue x =>
    "Function identifier `" ++ x ++ "' used where value identifier expected"
  | .valueAsFunction =>
    "Value identifier `<built-in function id>' used where function identifier expected"
  | .unknownFunction f => "Unknown function " ++ f
  | .argumentCount expected got =>
    "Expected " ++ toString expected ++ " arguments, but got " ++ toString got
  | .noFunctionInfo f =>
    "Could not find function information for function " ++ f ++ " in context"
  | .notArithmetic found => "Found " ++ found.text ++ " but expected int, str, or list type"
  | .notComparable found => "Found " ++ found.text ++ " but expected int, bool, or str type"
  | .operator op sort => "Operator " ++ op ++ " cannot be applied on a " ++ sort
  | .notIndexable found => "Found `" ++ found.text ++ "' but expected str or list type"
  | .notIterable found => "Found " ++ found.text ++ " but expected str or list type"
  | .noIdentity found =>
    "Found `" ++ found.text ++ "', expected type that is not int, str, or bool."
  | .absentElements found => "Type " ++ found.text ++ " not allowed to be [<None>]"
  | .unrelated found => "did not expect type " ++ found.text
  | .notCallable found => "Found " ++ found.text ++ " where function expected"
  | .noRule text => text
  | .unknownOperator op => "Unknown binary operation " ++ op ++ " found"
  | .unknownTypeName x => "Found type with unknown name `" ++ x ++ "'"
  | .notAType shown => "Found " ++ shown ++ ", expected TypeName or ListType"
  | .noValueType t => "Can't translate " ++ t.text ++ " into an attribute"
  | .notALiteral n => "Could not type check literal `" ++ n.display ++ "'"
  | .parameterCount => "Expected same number of input types and parameter names"
  | .malformed => ""
  | .undeclared _ => ""
  | .noSuchPart => ""
  | .tooManyArguments => ""

def TypeError.fault (e : TypeError) : Fault :=
  match e with
  | .malformed => .broken ""
  | .undeclared _ => .unknownKey
  | .noSuchPart => .noSuchPart
  | .tooManyArguments => .outOfRange
  | .unknownOperator _ => .refused e.message
  | .unknownTypeName _ => .refused e.message
  | .notAType _ => .refused e.message
  | .noValueType _ => .refused e.message
  | .notALiteral _ => .refused e.message
  | .parameterCount => .refused e.message
  | _ => .meaningless e.message

abbrev Check := Except TypeError

namespace SourceType

def innermost : SourceType → SourceType
  | .list elem => elem.innermost
  | t => t

def toTy (t : SourceType) : Check IR.Ty :=
  match t.toTy? with
  | some ty => .ok ty
  | Option.none => .error (.noValueType t.innermost)

end SourceType

/-- What the names of a program stand for; the first entry of a name counts. -/
abbrev Env := List (String × Entry)

def Env.initial : Env :=
  [("len", .function { inputs := [.object], output := .int, params := ["arg"] }),
   ("print", .function { inputs := [.object], output := .none, params := ["arg"] }),
   ("input", .function { inputs := [], output := .str, params := [] })]

mutual

def typeOfNode : Node → Check SourceType
  | .typeName x =>
    match SourceType.ofName? x with
    | some t => .ok t
    | none => .error (.unknownTypeName x)
  | .listType elem => do return .list (← typeOfPlace elem)
  | n => .error (.notAType n.display)

def typeOfPlace : List Node → Check SourceType
  | [] => .error (.notAType "None")
  | n :: _ => typeOfNode n

end

def SourceType.ofTy : IR.Ty → Check SourceType
  | .named x =>
    match SourceType.ofName? x with
    | some t => .ok t
    | Option.none => .error (.unknownTypeName x)
  | .list elem => do return .list (← SourceType.ofTy elem)
  | t => .error (.notAType t.display)

def paramOfNode : Node → Check (String × SourceType)
  | .typedVar x type => do return (x, ← typeOfPlace type)
  | _ => .error .malformed

def putLocal (locals : List (String × SourceType)) (x : String) (t : SourceType) :
    List (String × SourceType) :=
  if locals.any fun entry => entry.1 == x then
    locals.map fun entry => if entry.1 == x then (x, t) else entry
  else locals ++ [(x, t)]

/-- What has been collected at a point of the walk: the environment, and the local declarations
inside of a function. -/
structure Declared where
  env : Env
  locals : Option (List (String × SourceType)) := none

def Declared.put (d : Declared) (x : String) (t : SourceType) : Declared :=
  match d.locals with
  | some locals => { d with locals := some (putLocal locals x t) }
  | none => { d with env := (x, .value t) :: d.env }

def Declared.collect (d : Declared) (n : Node) : Check Declared :=
  match n with
  | .funcDef f params returnType body => do
    let declaredParams ← params.mapM paramOfNode
    let output ← if returnType.length = 1 then typeOfPlace returnType else .ok .none
    let inner ← body.attach.foldlM (fun e ⟨c, _⟩ => collect e c)
      { env := d.env, locals := some [] }
    let info : FunctionInfo := {
      inputs := declaredParams.map Prod.snd
      output
      params := declaredParams.map Prod.fst
      locals := inner.locals.getD [] }
    return { d with env := (f, .function info) :: inner.env }
  | n => do
    let d ← n.children.attach.foldlM (fun e ⟨c, _⟩ => collect e c) d
    match n with
    | .typedVar x type => return d.put x (← typeOfPlace type)
    | _ => return d
termination_by sizeOf n
decreasing_by
  · have := List.sizeOf_lt_of_mem ‹c ∈ body›
    simp
    omega
  · exact Node.sizeOf_lt_of_mem_children ‹_›

def buildEnv (ns : List Node) : Check Env := do
  let d ← ns.foldlM Declared.collect { env := Env.initial }
  return d.env

def Env.enter (o : Env) (f : FunctionInfo) : Env :=
  let inner := f.params.zip f.inputs ++ f.locals
  (inner.map fun (x, t) => (x, Entry.value t)).reverse ++ o

def Env.entry (o : Env) (x : String) : Check Entry :=
  match o.lookup x with
  | some entry => .ok entry
  | none => .error (.undeclared x)

def Env.variable (o : Env) (x : String) : Check SourceType := do
  match ← o.entry x with
  | .value t => return t
  | .function _ => throw (.functionAsValue x)

end Practicum.Choco
