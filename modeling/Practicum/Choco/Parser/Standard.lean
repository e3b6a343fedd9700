import Practicum.Choco.Parser.Basic

/-!
# The grammar of the later editions

A recursive-descent parser with one definition for each rule of the grammar. Binary operators
associate to the left, conditional expressions to the right, and comparisons do not associate.

The rules for the parts of an expression take the parser of whole expressions as an argument; the
recursion is closed by `expr`, and likewise by `stmt` for statements.
-/

namespace Practicum.Choco.Standard

open Parser

def skipLine : Nat → Parser Unit
  | 0 => tooDeep
  | fuel + 1 => do
    if ← checkAny [.newline, .eof] then return
    let _ ← advance
    skipLine fuel

/-- Refuse the next token. The error shows the line as far as the lexer has read it when the line
is skipped, and it names the line in which the lexer stands; the line before it if the refused
token ends a line. -/
def error {α : Type} (cause : SyntaxCause) : Parser α := do
  let token ← look
  let before ← get
  let row := before.scanner.tip.lineNumber - (if token.kind = .newline then 1 else 0 : Int)
  skipLine (4 * (before.scanner.rest.length + before.scanner.layout.levels.length
    + before.ahead.length) + 8)
  let after ← get
  let line := String.ofList (after.scanner.tip.lineText.toList.filter (· != '\n'))
  throw (.misplaced { cause, row, column := token.column, line })

def expect (kind : TokenKind) : Parser Token := do
  if ← check kind then advance else error (.expectedToken kind)

def forbid (kind : TokenKind) (cause : SyntaxCause) : Parser Unit := do
  if ← check kind then error cause

def atExpr : Parser Bool :=
  checkAny [.identifier, .true, .false, .lparen, .none, .string, .integer, .minus, .not, .lbracket]

def atStmt : Parser Bool := do
  if ← atExpr then return true
  checkAny [.kwIf, .kwWhile, .kwFor, .kwPass, .kwReturn]

def literal : Parser Node := do
  if ← checkAny [.none, .true, .false, .integer, .string] then
    return (← advance).literal
  error .expectedExpression

def argRest (expr : Parser Node) : Nat → Parser (List Node)
  | 0 => tooDeep
  | fuel + 1 => do
    if ← check .comma then
      let _ ← expect .comma
      let e ← expr
      let es ← argRest expr fuel
      return e :: es
    return []

def args (expr : Parser Node) (fuel : Nat) : Parser (List Node) := do
  if ← atExpr then
    let e ← expr
    let es ← argRest expr fuel
    return e :: es
  return []

def brackets (expr : Parser Node) : Nat → Parser (List Node)
  | 0 => tooDeep
  | fuel + 1 => do
    if ← check .lbracket then
      let _ ← expect .lbracket
      let e ← expr
      let _ ← expect .rbracket
      let es ← brackets expr fuel
      return e :: es
    return []

def indexed (value : Node) (indices : List Node) : Node :=
  indices.foldl (fun v i => .index [v] [i] none) value

/-- A primary expression: a name, a call, a list, an expression in parentheses, a negation or a
literal. Negation takes a whole indexed expression, given by `operand`. -/
def primary (expr operand : Parser Node) (fuel : Nat) : Parser Node := do
  if ← check .identifier then
    let x := (← expect .identifier).spelling
    if ← check .lparen then
      let _ ← expect .lparen
      let es ← args expr fuel
      if ← atExpr then error .missingComma
      let _ ← expect .rparen
      return .call x es none
    else return .name x none
  else if ← check .lbracket then
    let _ ← expect .lbracket
    let es ← args expr fuel
    if ← atExpr then error .missingComma
    let _ ← expect .rbracket
    return .listExpr es none
  else if ← check .lparen then
    let _ ← expect .lparen
    let e ← expr
    let _ ← expect .rparen
    return e
  else if ← check .minus then
    let _ ← expect .minus
    let e ← operand
    return .unary "-" [e] none
  else literal

def cexpr (expr : Parser Node) : Nat → Parser Node
  | 0 => tooDeep
  | fuel + 1 => do
    let e ← primary expr (cexpr expr fuel) fuel
    let indices ← brackets expr fuel
    return indexed e indices

def chain (kinds : List TokenKind) (operand : Parser Node) : Nat → Node → Parser Node
  | 0, _ => tooDeep
  | fuel + 1, lhs => do
    if ← checkAny kinds then
      let op ← advance
      let rhs ← operand
      chain kinds operand fuel (.binary op.spelling [lhs] [rhs] none)
    else return lhs

def term (expr : Parser Node) (fuel : Nat) : Parser Node := do
  chain [.times, .floorDiv, .modulo] (cexpr expr fuel) fuel (← cexpr expr fuel)

def arith (expr : Parser Node) (fuel : Nat) : Parser Node := do
  chain [.plus, .minus] (term expr fuel) fuel (← term expr fuel)

def comparisons : List TokenKind :=
  [.eq, .ne, .lt, .le, .gt, .ge, .is]

def comparison (expr : Parser Node) (fuel : Nat) : Parser Node := do
  let lhs ← arith expr fuel
  if ← checkAny comparisons then
    let op ← advance
    let rhs ← arith expr fuel
    if ← checkAny comparisons then error .chainedComparison
    return .binary op.spelling [lhs] [rhs] none
  return lhs

def notExpr (expr : Parser Node) : Nat → Parser Node
  | 0 => tooDeep
  | fuel + 1 => do
    if ← check .not then
      let _ ← expect .not
      let e ← notExpr expr fuel
      return .unary "not" [e] none
    else comparison expr fuel

def andExpr (expr : Parser Node) (fuel : Nat) : Parser Node := do
  chain [.and] (notExpr expr fuel) fuel (← notExpr expr fuel)

def orExpr (expr : Parser Node) (fuel : Nat) : Parser Node := do
  chain [.or] (andExpr expr fuel) fuel (← andExpr expr fuel)

def expr : Nat → Parser Node
  | 0 => tooDeep
  | fuel + 1 => do
    let lhs ← orExpr (expr fuel) fuel
    if ← check .kwIf then
      let _ ← expect .kwIf
      let cond ← expr fuel
      let _ ← expect .kwElse
      let rhs ← expr fuel
      return .ifExpr [cond] [lhs] [rhs] none
    return lhs

def assignExpr : Nat → Parser Node
  | 0 => tooDeep
  | fuel + 1 => do
    let lhs ← expr fuel
    forbid .colon .lateDeclaration
    forbid .rparen .unmatchedClose
    if ← check .assign then
      let _ ← expect .assign
      let rhs ← assignExpr fuel
      return .assign [lhs] [rhs]
    return lhs

def simpleStmt (fuel : Nat) : Parser Node := do
  if ← check .kwPass then
    let _ ← expect .kwPass
    return .passStmt
  else if ← check .kwReturn then
    let _ ← expect .kwReturn
    if ← atExpr then return .returnStmt [← expr fuel]
    else return .returnStmt []
  else assignExpr fuel

def stmts (stmt : Parser Node) : Nat → Parser (List Node)
  | 0 => tooDeep
  | fuel + 1 => do
    if ← atStmt then
      let s ← stmt
      forbid .indent .unexpectedIndent
      forbid .assign .missingTarget
      let ss ← stmts stmt fuel
      return s :: ss
    return []

def stmtSeq (stmt : Parser Node) (fuel : Nat) : Parser (List Node) := do
  forbid .assign .missingTarget
  stmts stmt fuel

def block (stmt : Parser Node) (fuel : Nat) : Parser (List Node) := do
  let _ ← expect .newline
  if !(← check .indent) then error .emptyBlock
  let _ ← expect .indent
  let ss ← stmtSeq stmt fuel
  let _ ← expect .dedent
  return ss

def condition (fuel : Nat) : Parser Node := do
  let cond ← expr fuel
  let _ ← expect .colon
  return cond

def alternatives (stmt : Parser Node) : Nat → Parser (List Node)
  | 0 => tooDeep
  | fuel + 1 => do
    if ← check .kwElif then
      let _ ← expect .kwElif
      let cond ← condition fuel
      let body ← block stmt fuel
      let rest ← alternatives stmt fuel
      return [.ifStmt [cond] body rest]
    else if ← check .kwElse then
      let _ ← expect .kwElse
      let _ ← expect .colon
      block stmt fuel
    else return []

def ifStmt (stmt : Parser Node) (fuel : Nat) : Parser Node := do
  let _ ← expect .kwIf
  let cond ← condition fuel
  let body ← block stmt fuel
  let rest ← alternatives stmt fuel
  return .ifStmt [cond] body rest

def whileStmt (stmt : Parser Node) (fuel : Nat) : Parser Node := do
  let _ ← expect .kwWhile
  let cond ← condition fuel
  let body ← block stmt fuel
  return .whileStmt [cond] body

def forStmt (stmt : Parser Node) (fuel : Nat) : Parser Node := do
  let _ ← expect .kwFor
  let x ← expect .identifier
  let _ ← expect .kwIn
  let iterable ← expr fuel
  let _ ← expect .colon
  let body ← block stmt fuel
  return .forStmt x.spelling [iterable] body

def stmt : Nat → Parser Node
  | 0 => tooDeep
  | fuel + 1 => do
    if ← check .kwIf then ifStmt (stmt fuel) fuel
    else if ← check .kwWhile then whileStmt (stmt fuel) fuel
    else if ← check .kwFor then forStmt (stmt fuel) fuel
    else
      let s ← simpleStmt fuel
      let _ ← expect .newline
      return s

def type : Nat → Parser Node
  | 0 => tooDeep
  | fuel + 1 => do
    if ← checkAny [.object, .int, .bool, .str] then
      return .typeName (← advance).spelling
    else if ← check .lbracket then
      let _ ← expect .lbracket
      let t ← type fuel
      let _ ← expect .rbracket
      return .listType [t]
    else error .unknownType

def typedVar (fuel : Nat) : Parser Node := do
  let x ← expect .identifier
  let _ ← expect .colon
  let t ← type fuel
  return .typedVar x.spelling [t]

def varDef (fuel : Nat) : Parser Node := do
  let x ← typedVar fuel
  let _ ← expect .assign
  let v ← literal
  let _ ← expect .newline
  return .varDef [x] [v]

def globalDecl : Parser Node := do
  let _ ← expect .kwGlobal
  let x ← expect .identifier
  let _ ← expect .newline
  return .globalDecl x.spelling

def nonlocalDecl : Parser Node := do
  let _ ← expect .kwNonlocal
  let x ← expect .identifier
  let _ ← expect .newline
  return .nonlocalDecl x.spelling

def paramRest : Nat → Parser (List Node)
  | 0 => tooDeep
  | fuel + 1 => do
    if ← check .comma then
      let _ ← expect .comma
      let p ← typedVar fuel
      let ps ← paramRest fuel
      return p :: ps
    return []

def declarations : Nat → Parser (List Node)
  | 0 => tooDeep
  | fuel + 1 => do
    if ← checkRun [.identifier, .colon] then
      let d ← varDef fuel
      return d :: (← declarations fuel)
    else if ← check .kwGlobal then
      let d ← globalDecl
      return d :: (← declarations fuel)
    else if ← check .kwNonlocal then
      let d ← nonlocalDecl
      return d :: (← declarations fuel)
    else return []

def function (fuel : Nat) : Parser Node := do
  let _ ← expect .kwDef
  let x ← expect .identifier
  let _ ← expect .lparen
  let params ← do
    if ← check .identifier then
      let p ← typedVar fuel
      let ps ← paramRest fuel
      pure (p :: ps)
    else pure []
  if ← atExpr then error .missingComma
  let _ ← expect .rparen
  let returnType ← do
    if ← check .arrow then
      let _ ← expect .arrow
      type fuel
    else pure (.typeName "<None>")
  let _ ← expect .colon
  let _ ← expect .newline
  if !(← check .indent) then error .emptyFunction
  let _ ← expect .indent
  let decls ← declarations fuel
  forbid .indent .unexpectedIndent
  forbid .dedent .emptyFunction
  let body ← stmtSeq (stmt fuel) fuel
  let _ ← expect .dedent
  return .funcDef x.spelling params [returnType] (decls ++ body)

def defSeq : Nat → Parser (List Node)
  | 0 => tooDeep
  | fuel + 1 => do
    if ← check .kwClass then throw .classDefinition
    else if ← check .kwDef then
      let d ← function fuel
      return d :: (← defSeq fuel)
    else if ← checkRun [.identifier, .colon] then
      let d ← varDef fuel
      return d :: (← defSeq fuel)
    else return []

def program (fuel : Nat) : Parser Node := do
  forbid .indent .unexpectedIndent
  let defs ← defSeq fuel
  forbid .indent .unexpectedIndent
  let body ← stmtSeq (stmt fuel) fuel
  let _ ← expect .eof
  return .program defs body

end Practicum.Choco.Standard
