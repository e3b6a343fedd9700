import Practicum.Choco.Parser.Basic

/-!
# The grammar of the first edition

The first edition has a grammar of its own. An operator is applied as soon as its operands are
read, so that chains of operators are built step by step: `binary`, `boolean` and their levels
continue an expression that is given to them. An assignment is an expression, and a program may
stop before the end of its text.
-/

namespace Practicum.Choco.Early

open Parser

def reject {α : Type} (t : Token) (cause : SyntaxCause) : Parser α :=
  throw (.rejected t.position [cause])

def rejectNext {α : Type} (cause : SyntaxCause) : Parser α := do
  reject (← look) cause

def mismatch (t : Token) (expected : TokenKind) : SyntaxCause :=
  match t.kind with
  | .indent => .unexpectedIndent
  | .rparen => .unmatchedClose
  | .assign => .missingTarget
  | .kwDef | .kwGlobal | .kwNonlocal | .colon =>
    if expected = .newline then .lateDeclaration else .expectedToken expected
  | _ => .expectedToken expected

def expect (kind : TokenKind) : Parser Token := do
  if ← check kind then advance
  else
    let t ← look
    reject t (mismatch t kind)

def literals : List TokenKind :=
  [.integer, .string, .none, .true, .false]

def literal : Parser Node := do
  if ← checkAny literals then return (← advance).literal
  rejectNext .unknownLiteral

def type : Nat → Parser Node
  | 0 => tooDeep
  | fuel + 1 => do
    if ← checkAny [.object, .int, .bool, .str] then
      return .typeName (← advance).spelling
    else if ← check .lbracket then
      let _ ← expect .lbracket
      let t ← type fuel
      let _ ← expect .rbracket
      return .listType [t]
    else rejectNext .unknownType

def globalDecl : Parser Node := do
  let _ ← expect .kwGlobal
  let x ← expect .identifier
  let _ ← expect .newline
  return .globalDecl x.spelling

def nonlocalDecl : Parser Node := do
  let _ ← expect .kwNonlocal
  let x ← expect .identifier
  let _ ← expect .newline
  return .nonlocalDecl x.spelling

def typedVar (fuel : Nat) : Parser Node := do
  let x ← expect .identifier
  let _ ← expect .colon
  let t ← type fuel
  return .typedVar x.spelling [t]

def varDef (fuel : Nat) : Parser Node := do
  let x ← typedVar fuel
  if ← check .newline then
    let _ ← expect .newline
    return x
  let _ ← expect .assign
  let v ← literal
  let _ ← expect .newline
  return .varDef [x] [v]

def typedVars : Nat → Parser (List Node)
  | 0 => tooDeep
  | fuel + 1 => do
    if ← check .identifier then
      let x ← typedVar fuel
      if ← check .comma then
        let _ ← expect .comma
        return x :: (← typedVars fuel)
      return [x]
    return []

def comparisons : List TokenKind :=
  [.eq, .ne, .lt, .gt, .le, .ge, .is]

def operators : List TokenKind :=
  [.plus, .minus, .times, .floorDiv, .modulo] ++ comparisons

def isComparison (op : String) : Bool :=
  ["==", "!=", "<", ">", "<=", ">="].contains op

def isAssociative (op : String) : Bool :=
  ["+", "-", "*", "/"].contains op

def precedence (op : String) : Nat :=
  if op = "or" then 1
  else if op = "and" then 2
  else if isComparison op then 3
  else if op = "+" || op = "-" then 4
  else if op = "*" || op = "/" || op = "%" then 5
  else 0

def argRest (expr : Parser Node) : Nat → Parser (List Node)
  | 0 => tooDeep
  | fuel + 1 => do
    if ← check .comma then
      let _ ← expect .comma
      let e ← expr
      return e :: (← argRest expr fuel)
    return []

def args (expr : Parser Node) (close : TokenKind) (fuel : Nat) : Parser (List Node) := do
  let es ← do
    if ← check close then pure []
    else
      let e ← expr
      pure (e :: (← argRest expr fuel))
  if !(← checkAny [close, .newline, .eof]) then rejectNext .missingComma
  let _ ← expect close
  return es

def call (expr : Parser Node) (func : String) (fuel : Nat) : Parser Node := do
  let _ ← expect .lparen
  return .call func (← args expr .rparen fuel) none

def indexed (expr : Parser Node) : Nat → Node → Parser Node
  | 0, _ => tooDeep
  | fuel + 1, value => do
    let _ ← expect .lbracket
    let i ← expr
    let _ ← expect .rbracket
    let e := .index [value] [i] none
    if ← check .lbracket then indexed expr fuel e else return e

/-- An expression without operators between its parts and without indices. Negation takes a whole
indexed expression, given by `operand`. -/
def simple (expr operand : Parser Node) (fuel : Nat) : Parser Node := do
  let t ← look
  match t.kind with
  | .integer | .string | .none | .true | .false => literal
  | .identifier =>
    let x ← advance
    if ← check .lparen then call expr x.spelling fuel else return .name x.spelling none
  | .minus =>
    let op ← advance
    return .unary op.spelling [← operand] none
  | .lparen =>
    let _ ← advance
    let e ← expr
    let close ← look
    if close.kind = .rparen then
      let _ ← advance
      return e
    else throw (.rejected close.position [.unmatchedOpen, mismatch close .rparen])
  | .lbracket =>
    let _ ← advance
    return .listExpr (← args expr .rbracket fuel) none
  | .indent => reject t .unexpectedIndent
  | .assign => reject t .missingTarget
  | _ => reject t .expectedExpression

def cexpr (expr : Parser Node) : Nat → Parser Node
  | 0 => tooDeep
  | fuel + 1 => do
    let e ← simple expr (cexpr expr fuel) fuel
    if ← check .lbracket then indexed expr fuel e else return e

/-- Apply one multiplication to an expression, which is read if it is not given. -/
def product (expr : Parser Node) (fuel : Nat) (lhs? : Option Node) : Parser Node := do
  let lhs ← match lhs? with
    | some e => pure e
    | none => cexpr expr fuel
  if ← checkAny [.times, .floorDiv, .modulo] then
    let op ← advance
    let rhs ← cexpr expr fuel
    return .binary op.spelling [lhs] [rhs] none
  return lhs

/-- Apply one addition to an expression, or else one multiplication. -/
def sum (expr : Parser Node) (fuel : Nat) (lhs? : Option Node) : Parser Node := do
  let lhs ← match lhs? with
    | some e => pure e
    | none => product expr fuel none
  if ← checkAny [.plus, .minus] then
    let op ← advance
    let rhs ← product expr fuel none
    return .binary op.spelling [lhs] [rhs] none
  else product expr fuel (some lhs)

def comparison (expr : Parser Node) (fuel : Nat) (lhs? : Option Node) : Parser Node := do
  let lhs ← match lhs? with
    | some e => pure e
    | none => sum expr fuel none
  if ← checkAny comparisons then
    let op ← advance
    let rhs ← sum expr fuel none
    if isComparison op.spelling then
      let next ← look
      if isComparison next.spelling then reject next .chainedComparison
    return .binary op.spelling [lhs] [rhs] none
  else sum expr fuel (some lhs)

def binary (expr : Parser Node) : Nat → Node → Parser Node
  | 0, _ => tooDeep
  | fuel + 1, lhs => do
    if ← checkAny operators then
      let e ← comparison expr fuel (some lhs)
      binary expr fuel e
    else return lhs

/-- An operand of a boolean operator. A negation takes all that follows. -/
def operand (expr : Parser Node) (fuel : Nat) : Parser Node := do
  if ← check .not then
    let op ← advance
    return .unary op.spelling [← expr] none
  let e ← cexpr expr fuel
  if ← checkAny operators then binary expr fuel e else return e

/-- Apply one conjunction to an expression, which is read if it is not given. -/
def conjunction (expr : Parser Node) (fuel : Nat) (lhs? : Option Node) : Parser Node := do
  let lhs ← match lhs? with
    | some e => pure e
    | none => operand expr fuel
  if ← check .and then
    let op ← advance
    let rhs ← operand expr fuel
    return .binary op.spelling [lhs] [rhs] none
  return lhs

def disjunction (expr : Parser Node) (fuel : Nat) (lhs? : Option Node) : Parser Node := do
  let lhs ← match lhs? with
    | some e => pure e
    | none => conjunction expr fuel none
  if ← check .or then
    let op ← advance
    let rhs ← conjunction expr fuel none
    return .binary op.spelling [lhs] [rhs] none
  else conjunction expr fuel (some lhs)

def boolean (expr : Parser Node) : Nat → Node → Parser Node
  | 0, _ => tooDeep
  | fuel + 1, lhs => do
    if ← checkAny [.or, .and] then
      let e ← disjunction expr fuel (some lhs)
      boolean expr fuel e
    else return lhs

def expr : Nat → Parser Node
  | 0 => tooDeep
  | fuel + 1 => do
    let first ← operand (expr fuel) fuel
    let e ← boolean (expr fuel) fuel first
    if ← check .kwIf then
      let _ ← expect .kwIf
      let cond ← expr fuel
      let _ ← expect .kwElse
      let orElse ← expr fuel
      return .ifExpr [cond] [e] [orElse] none
    else if ← check .assign then
      let _ ← expect .assign
      return .assign [e] [← expr fuel]
    else return e

def simpleStmt (fuel : Nat) : Parser Node := do
  if ← check .kwPass then
    let _ ← expect .kwPass
    return .passStmt
  else if ← check .kwReturn then
    let _ ← expect .kwReturn
    if ← check .newline then return .returnStmt []
    else return .returnStmt [← expr fuel]
  else expr fuel

def stmtSeq (stmt : Parser Node) : Nat → Parser (List Node)
  | 0 => tooDeep
  | fuel + 1 => do
    if ← checkAny [.newline, .eof, .dedent] then return []
    let s ← stmt
    return s :: (← stmtSeq stmt fuel)

def block (stmt : Parser Node) (fuel : Nat) : Parser (List Node) := do
  let _ ← expect .newline
  if !(← check .indent) then rejectNext .emptyBlock
  let _ ← expect .indent
  let ss ← stmtSeq stmt fuel
  let _ ← expect .dedent
  return ss

/-- A branch of a conditional statement, introduced by a token of the kind `start`, with the
branches that follow it. A branch without a condition has no tree. -/
def branch (stmt : Parser Node) : Nat → TokenKind → Parser Node
  | 0, _ => tooDeep
  | fuel + 1, start => do
    let _ ← expect start
    let cond? ← do
      if start = .kwElse then pure none else pure (some (← expr fuel))
    let _ ← expect .colon
    let body ← block stmt fuel
    match cond? with
    | none =>
      let _ ← look
      throw .conditionless
    | some cond =>
      let next := (← look).kind
      if next = .kwElif || next = .kwElse then
        let rest ← branch stmt fuel next
        return .ifStmt [cond] body [rest]
      else return .ifStmt [cond] body []

def stmt : Nat → Parser Node
  | 0 => tooDeep
  | fuel + 1 => do
    if ← check .kwIf then branch (stmt fuel) fuel .kwIf
    else if ← check .kwWhile then
      let _ ← expect .kwWhile
      let cond ← expr fuel
      let _ ← expect .colon
      let body ← block (stmt fuel) fuel
      return .whileStmt [cond] body
    else if ← check .kwFor then
      let _ ← expect .kwFor
      let x ← expect .identifier
      let _ ← expect .kwIn
      let iterable ← expr fuel
      let _ ← expect .colon
      let body ← block (stmt fuel) fuel
      return .forStmt x.spelling [iterable] body
    else
      let s ← simpleStmt fuel
      let _ ← expect .newline
      return s

mutual

def definition : Nat → Parser (Option Node)
  | 0 => tooDeep
  | fuel + 1 => do
    match (← lookAhead 2).map Token.kind with
    | .kwDef :: _ => return some (← function fuel)
    | .kwGlobal :: _ => return some (← globalDecl)
    | .kwNonlocal :: _ => return some (← nonlocalDecl)
    | .identifier :: .colon :: _ => return some (← varDef fuel)
    | _ => return none

def defSeq : Nat → Parser (List Node)
  | 0 => tooDeep
  | fuel + 1 => do
    if ← checkAny [.kwDef, .kwGlobal, .kwNonlocal, .identifier] then
      match ← definition fuel with
      | some d => return d :: (← defSeq fuel)
      | none => return []
    return []

/-- The definition of a function. Its return type is written as one token; without an arrow it
returns the absent value. -/
def function : Nat → Parser Node
  | 0 => tooDeep
  | fuel + 1 => do
    let _ ← expect .kwDef
    let x ← expect .identifier
    if !(← check .lparen) then rejectNext (.expectedToken .lparen)
    let _ ← expect .lparen
    let params ← typedVars fuel
    if ← check .identifier then rejectNext .missingComma
    let _ ← expect .rparen
    let returnType ← do
      if ← check .arrow then
        let _ ← expect .arrow
        let _ ← look
        pure (← advance).spelling
      else pure "<None>"
    let _ ← expect .colon
    let _ ← expect .newline
    if !(← check .indent) then rejectNext .emptyFunction
    let _ ← expect .indent
    let decls ← defSeq fuel
    let body ← stmtSeq (stmt fuel) fuel
    let _ ← expect .dedent
    if body.isEmpty then rejectNext .emptyFunction
    return .funcDef x.spelling params [.typeName returnType] (decls ++ body)

end

/-- A program: definitions, then statements. What follows them is not read. -/
def program (fuel : Nat) : Parser Node := do
  let defs ← defSeq fuel
  let body ← stmtSeq (stmt fuel) fuel
  return .program defs body

end Practicum.Choco.Early
