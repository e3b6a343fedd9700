import Practicum.Choco.Literal

/-!
# Syntax trees

A `Node` is a node of a syntax tree. The places for its parts are lists, since a tree that was
not made by a parser may leave a place empty, fill it twice or put a node of the wrong sort in it;
`Node.verify` says which trees are in order. Expressions carry the type that type checking found
for them.
-/

namespace Practicum.Choco

open IR (Attr Outline OutlineBlock Ty)

inductive Node where
  | program (defs stmts : List Node)
  | funcDef (name : String) (params returnType body : List Node)
  | typedVar (name : String) (type : List Node)
  | typeName (name : String)
  | listType (elem : List Node)
  | globalDecl (name : String)
  | nonlocalDecl (name : String)
  | varDef (declared initial : List Node)
  | ifStmt (cond thenBody elseBody : List Node)
  | whileStmt (cond body : List Node)
  | forStmt (loopVar : String) (iterable body : List Node)
  | passStmt
  | returnStmt (value : List Node)
  | assign (target value : List Node)
  | literal (value : Literal) (hint : Option Ty)
  | name (id : String) (hint : Option Ty)
  | unary (op : String) (operand : List Node) (hint : Option Ty)
  | binary (op : String) (lhs rhs : List Node) (hint : Option Ty)
  | ifExpr (cond thenValue elseValue : List Node) (hint : Option Ty)
  | listExpr (elems : List Node) (hint : Option Ty)
  | call (func : String) (args : List Node) (hint : Option Ty)
  | index (value position : List Node) (hint : Option Ty)
  deriving Repr, BEq

namespace Node

def kind : Node → String
  | .program .. => "choco.ast.program"
  | .funcDef .. => "choco.ast.func_def"
  | .typedVar .. => "choco.ast.typed_var"
  | .typeName .. => "choco.ast.type_name"
  | .listType .. => "choco.ast.list_type"
  | .globalDecl .. => "choco.ast.global_decl"
  | .nonlocalDecl .. => "choco.ast.nonlocal_decl"
  | .varDef .. => "choco.ast.var_def"
  | .ifStmt .. => "choco.ast.if"
  | .whileStmt .. => "choco.ast.while"
  | .forStmt .. => "choco.ast.for"
  | .passStmt => "choco.ast.pass"
  | .returnStmt .. => "choco.ast.return"
  | .assign .. => "choco.ast.assign"
  | .literal .. => "choco.ast.literal"
  | .name .. => "choco.ast.id_expr"
  | .unary .. => "choco.ast.unary_expr"
  | .binary .. => "choco.ast.binary_expr"
  | .ifExpr .. => "choco.ast.if_expr"
  | .listExpr .. => "choco.ast.list_expr"
  | .call .. => "choco.ast.call_expr"
  | .index .. => "choco.ast.index_expr"

def className : Node → String
  | .program .. => "Program"
  | .funcDef .. => "FuncDef"
  | .typedVar .. => "TypedVar"
  | .typeName .. => "TypeName"
  | .listType .. => "ListType"
  | .globalDecl .. => "GlobalDecl"
  | .nonlocalDecl .. => "NonLocalDecl"
  | .varDef .. => "VarDef"
  | .ifStmt .. => "If"
  | .whileStmt .. => "While"
  | .forStmt .. => "For"
  | .passStmt => "Pass"
  | .returnStmt .. => "Return"
  | .assign .. => "Assign"
  | .literal .. => "Literal"
  | .name .. => "ExprName"
  | .unary .. => "UnaryExpr"
  | .binary .. => "BinaryExpr"
  | .ifExpr .. => "IfExpr"
  | .listExpr .. => "ListExpr"
  | .call .. => "CallExpr"
  | .index .. => "IndexExpr"

def display (n : Node) : String :=
  "<" ++ n.className ++ " " ++ n.kind ++ ">"

def places : Node → List (List Node)
  | .program defs stmts => [defs, stmts]
  | .funcDef _ params returnType body => [params, returnType, body]
  | .typedVar _ type => [type]
  | .typeName _ => []
  | .listType elem => [elem]
  | .globalDecl _ => []
  | .nonlocalDecl _ => []
  | .varDef declared initial => [declared, initial]
  | .ifStmt cond thenBody elseBody => [cond, thenBody, elseBody]
  | .whileStmt cond body => [cond, body]
  | .forStmt _ iterable body => [iterable, body]
  | .passStmt => []
  | .returnStmt value => [value]
  | .assign target value => [target, value]
  | .literal .. => []
  | .name .. => []
  | .unary _ operand _ => [operand]
  | .binary _ lhs rhs _ => [lhs, rhs]
  | .ifExpr cond thenValue elseValue _ => [cond, thenValue, elseValue]
  | .listExpr elems _ => [elems]
  | .call _ args _ => [args]
  | .index value position _ => [value, position]

def children (n : Node) : List Node :=
  n.places.flatten

theorem sizeOf_lt_of_mem_children {n c : Node} (h : c ∈ n.children) : sizeOf c < sizeOf n := by
  obtain ⟨place, hplace, hc⟩ := List.mem_flatten.1 h
  have := List.sizeOf_lt_of_mem hc
  cases n <;> simp [places] at hplace <;> rcases hplace with rfl | rfl | rfl <;> simp <;> omega

def hint? : Node → Option Ty
  | .literal _ h => h
  | .name _ h => h
  | .unary _ _ h => h
  | .binary _ _ _ h => h
  | .ifExpr _ _ _ h => h
  | .listExpr _ h => h
  | .call _ _ h => h
  | .index _ _ h => h
  | _ => none

def withHint (t : Ty) : Node → Node
  | .literal v _ => .literal v (some t)
  | .name x _ => .name x (some t)
  | .unary op a _ => .unary op a (some t)
  | .binary op a b _ => .binary op a b (some t)
  | .ifExpr c a b _ => .ifExpr c a b (some t)
  | .listExpr es _ => .listExpr es (some t)
  | .call f es _ => .call f es (some t)
  | .index a b _ => .index a b (some t)
  | n => n

def name? : Node → Option String
  | .name x _ => some x
  | _ => none

def isExpr : Node → Bool
  | .literal .. | .name .. | .unary .. | .binary .. | .ifExpr .. | .listExpr .. | .call ..
  | .index .. => true
  | _ => false

def isStmt : Node → Bool
  | .ifStmt .. | .whileStmt .. | .forStmt .. | .passStmt | .returnStmt .. | .assign .. => true
  | n => n.isExpr

def isType : Node → Bool
  | .typeName .. | .listType .. => true
  | _ => false

mutual

def walk (n : Node) : List Node :=
  match n with
  | .program defs stmts => n :: (walkAll defs ++ walkAll stmts)
  | .funcDef _ params returnType body => n :: (walkAll params ++ walkAll returnType ++ walkAll body)
  | .typedVar _ type => n :: walkAll type
  | .typeName _ => [n]
  | .listType elem => n :: walkAll elem
  | .globalDecl _ => [n]
  | .nonlocalDecl _ => [n]
  | .varDef declared initial => n :: (walkAll declared ++ walkAll initial)
  | .ifStmt cond thenBody elseBody => n :: (walkAll cond ++ walkAll thenBody ++ walkAll elseBody)
  | .whileStmt cond body => n :: (walkAll cond ++ walkAll body)
  | .forStmt _ iterable body => n :: (walkAll iterable ++ walkAll body)
  | .passStmt => [n]
  | .returnStmt value => n :: walkAll value
  | .assign target value => n :: (walkAll target ++ walkAll value)
  | .literal .. => [n]
  | .name .. => [n]
  | .unary _ operand _ => n :: walkAll operand
  | .binary _ lhs rhs _ => n :: (walkAll lhs ++ walkAll rhs)
  | .ifExpr cond thenValue elseValue _ =>
    n :: (walkAll cond ++ walkAll thenValue ++ walkAll elseValue)
  | .listExpr elems _ => n :: walkAll elems
  | .call _ args _ => n :: walkAll args
  | .index value position _ => n :: (walkAll value ++ walkAll position)

def walkAll : List Node → List Node
  | [] => []
  | n :: ns => walk n ++ walkAll ns

end

/-! ## Outlines of syntax trees -/

def attrs (n : Node) : List (String × Attr) :=
  let own : List (String × Attr) := match n with
    | .funcDef x .. => [("func_name", .text x)]
    | .typedVar x _ => [("var_name", .text x)]
    | .typeName x => [("type_name", .text x)]
    | .globalDecl x => [("decl_name", .text x)]
    | .nonlocalDecl x => [("decl_name", .text x)]
    | .forStmt x .. => [("iter_name", .text x)]
    | .literal v _ => [("value", v.toAttr)]
    | .name x _ => [("id", .text x)]
    | .unary op .. => [("op", .text op)]
    | .binary op .. => [("op", .text op)]
    | .call f .. => [("func", .text f)]
    | _ => []
  own ++ n.hint?.toList.map fun t => ("type_hint", .type t)

mutual

def outline (n : Node) : Outline :=
  match n with
  | .program defs stmts => .mk n.kind n.attrs [] [] [blockOf defs, blockOf stmts]
  | .funcDef _ params returnType body =>
    .mk n.kind n.attrs [] [] [blockOf params, blockOf returnType, blockOf body]
  | .typedVar _ type => .mk n.kind n.attrs [] [] [blockOf type]
  | .typeName _ => .mk n.kind n.attrs [] [] []
  | .listType elem => .mk n.kind n.attrs [] [] [blockOf elem]
  | .globalDecl _ => .mk n.kind n.attrs [] [] []
  | .nonlocalDecl _ => .mk n.kind n.attrs [] [] []
  | .varDef declared initial => .mk n.kind n.attrs [] [] [blockOf declared, blockOf initial]
  | .ifStmt cond thenBody elseBody =>
    .mk n.kind n.attrs [] [] [blockOf cond, blockOf thenBody, blockOf elseBody]
  | .whileStmt cond body => .mk n.kind n.attrs [] [] [blockOf cond, blockOf body]
  | .forStmt _ iterable body => .mk n.kind n.attrs [] [] [blockOf iterable, blockOf body]
  | .passStmt => .mk n.kind n.attrs [] [] []
  | .returnStmt value => .mk n.kind n.attrs [] [] [blockOf value]
  | .assign target value => .mk n.kind n.attrs [] [] [blockOf target, blockOf value]
  | .literal .. => .mk n.kind n.attrs [] [] []
  | .name .. => .mk n.kind n.attrs [] [] []
  | .unary _ operand _ => .mk n.kind n.attrs [] [] [blockOf operand]
  | .binary _ lhs rhs _ => .mk n.kind n.attrs [] [] [blockOf lhs, blockOf rhs]
  | .ifExpr cond thenValue elseValue _ =>
    .mk n.kind n.attrs [] [] [blockOf cond, blockOf thenValue, blockOf elseValue]
  | .listExpr elems _ => .mk n.kind n.attrs [] [] [blockOf elems]
  | .call _ args _ => .mk n.kind n.attrs [] [] [blockOf args]
  | .index value position _ => .mk n.kind n.attrs [] [] [blockOf value, blockOf position]

def blockOf (ns : List Node) : OutlineBlock :=
  .mk [] (outlines ns)

def outlines : List Node → List Outline
  | [] => []
  | n :: ns => outline n :: outlines ns

end

def assemble? (o : Outline) (places : List (List Node)) : Option Node :=
  let text := o.attrText
  let place := fun (i : Nat) => places.getD i []
  let hint : Option Ty := match o.attr? "type_hint" with
    | some (.type t) => some t
    | _ => none
  match o.name with
  | "choco.ast.program" => some (.program (place 0) (place 1))
  | "choco.ast.func_def" => some (.funcDef (text "func_name") (place 0) (place 1) (place 2))
  | "choco.ast.typed_var" => some (.typedVar (text "var_name") (place 0))
  | "choco.ast.type_name" => some (.typeName (text "type_name"))
  | "choco.ast.list_type" => some (.listType (place 0))
  | "choco.ast.global_decl" => some (.globalDecl (text "decl_name"))
  | "choco.ast.nonlocal_decl" => some (.nonlocalDecl (text "decl_name"))
  | "choco.ast.var_def" => some (.varDef (place 0) (place 1))
  | "choco.ast.if" => some (.ifStmt (place 0) (place 1) (place 2))
  | "choco.ast.while" => some (.whileStmt (place 0) (place 1))
  | "choco.ast.for" => some (.forStmt (text "iter_name") (place 0) (place 1))
  | "choco.ast.pass" => some .passStmt
  | "choco.ast.return" => some (.returnStmt (place 0))
  | "choco.ast.assign" => some (.assign (place 0) (place 1))
  | "choco.ast.literal" =>
    ((o.attr? "value").bind Literal.ofAttr?).map fun v => .literal v hint
  | "choco.ast.id_expr" => some (.name (text "id") hint)
  | "choco.ast.unary_expr" => some (.unary (text "op") (place 0) hint)
  | "choco.ast.binary_expr" => some (.binary (text "op") (place 0) (place 1) hint)
  | "choco.ast.if_expr" => some (.ifExpr (place 0) (place 1) (place 2) hint)
  | "choco.ast.list_expr" => some (.listExpr (place 0) hint)
  | "choco.ast.call_expr" => some (.call (text "func") (place 0) hint)
  | "choco.ast.index_expr" => some (.index (place 0) (place 1) hint)
  | _ => none

mutual

def ofOutline? (o : Outline) : Option Node :=
  match o with
  | .mk _ _ _ _ regions => do assemble? o (← ofBlocks? regions)

def ofBlocks? : List OutlineBlock → Option (List (List Node))
  | [] => some []
  | .mk _ ops :: rest => do
    let ns ← ofOutlines? ops
    let nss ← ofBlocks? rest
    return ns :: nss

def ofOutlines? : List Outline → Option (List Node)
  | [] => some []
  | o :: os => do
    let n ← ofOutline? o
    let ns ← ofOutlines? os
    return n :: ns

end

end Node

end Practicum.Choco
