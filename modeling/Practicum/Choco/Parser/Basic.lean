import Practicum.Choco.Node
import Practicum.Choco.Token.Lexer

/-!
# Parsers

A `Parser` reads tokens from a lexer and stops at the first error. Each recursive rule of a grammar
takes a bound on the depth of the recursion, which the parsers of whole texts choose larger than the
number of tokens.
-/

namespace Practicum.Choco

inductive SyntaxCause where
  | expectedToken (kind : TokenKind)
  | unexpectedIndent
  | missingComma
  | emptyFunction
  | emptyBlock
  | unknownType
  | unknownLiteral
  | missingTarget
  | expectedExpression
  | lateDeclaration
  | unmatchedClose
  | unmatchedOpen
  | chainedComparison
  | custom (text : String)
  deriving DecidableEq, Repr

def SyntaxCause.text : SyntaxCause → String
  | .expectedToken kind => "token of kind TokenKind." ++ kind.name ++ " not found"
  | .unexpectedIndent => "Unexpected indentation"
  | .missingComma => "expression found, but comma expected"
  | .emptyFunction => "expected at least one indented statement in function"
  | .emptyBlock => "expected at least one indented statement in block"
  | .unknownType => "Unknown type"
  | .unknownLiteral => "Unknown literal"
  | .missingTarget => "No left-hand side in assign statement"
  | .expectedExpression => "Expected expression"
  | .lateDeclaration => "Variable declaration after non-declaration statement"
  | .unmatchedClose => "unmatched ')'"
  | .unmatchedOpen => "unmatched '('"
  | .chainedComparison => "Comparison operators are not associative"
  | .custom text => text

structure SyntaxError where
  cause : SyntaxCause
  row : Int
  column : Int
  line : String
  deriving DecidableEq, Repr

/-- The report of a syntax error: its place counted from one, its text, and the line with a mark
below the place. The text is closed by `stop`. -/
def SyntaxError.reportWith (stop : String) (e : SyntaxError) : String :=
  "SyntaxError (line " ++ toString (e.row + 1) ++ ", column " ++ toString (e.column + 1) ++ "): "
    ++ e.cause.text ++ stop ++ "\n>>>" ++ e.line ++ "\n>>>"
    ++ String.ofList (List.replicate e.column.toNat '-') ++ "^"

def SyntaxError.report (e : SyntaxError) : String :=
  e.reportWith "."

inductive ParseError where
  | lexical (e : LexError)
  | classDefinition
  /-- A run of tokens to look for has the length one, which only a single token has. -/
  | singletonRun
  /-- The first edition refuses the token at a place for these causes, in the order reported. -/
  | rejected (place : Position) (causes : List SyntaxCause)
  /-- The first edition meets an alternative without a condition. -/
  | conditionless
  | misplaced (e : SyntaxError)
  | tooDeep
  deriving DecidableEq, Repr

abbrev Parser := StateT Lexer (Except ParseError)

namespace Parser

def look : Parser Token := fun l =>
  match l.ahead with
  | t :: _ => .ok (t, l)
  | [] =>
    match l.scanner.next with
    | .ok (t, s) => .ok (t, { scanner := s, ahead := [t] })
    | .error e => .error (.lexical e)

def lookAhead (k : Nat) : Parser (List Token) := fun l =>
  match l.peek k with
  | .ok r => .ok r
  | .error e => .error (.lexical e)

def advance : Parser Token := fun l =>
  match l.consume with
  | .ok r => .ok r
  | .error e => .error (.lexical e)

def check (kind : TokenKind) : Parser Bool := do
  return (← look).kind == kind

def checkAny (kinds : List TokenKind) : Parser Bool := do
  return kinds.contains (← look).kind

/-- Whether the next tokens are of these kinds, in this order. A run of length one is refused. -/
def checkRun (kinds : List TokenKind) : Parser Bool := do
  let tokens ← lookAhead kinds.length
  if kinds.length = 1 then throw .singletonRun
  return (tokens.zip kinds).all fun (t, k) => t.kind == k

def tooDeep {α : Type} : Parser α :=
  throw .tooDeep

/-- Run a parser over a source text. The depth of its recursion is bounded by the number of
tokens. -/
def parse {α : Type} (p : Nat → Parser α) (source : String) : Except ParseError α :=
  (p (4 * source.length + 8)).run' (Lexer.ofString source)

end Parser

def Node.integer (n : Int) : Node :=
  .literal (.int n 32) none

def Token.literal (t : Token) : Node :=
  match t.kind, t.value with
  | .none, _ => .literal .none none
  | .true, _ => .literal (.bool true) none
  | .false, _ => .literal (.bool false) none
  | _, .number n => .integer n
  | _, _ => .literal (.str t.spelling) none

end Practicum.Choco
