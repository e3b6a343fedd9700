import Practicum.Choco.Parser.Report

/-! # Phrases -/

namespace Practicum.Choco

inductive Parsed where
  | node (n : Node)
  | nodes (ns : List Node)
  | verdict (b : Bool)
  | text (s : String)
  | absent

abbrev Phrase := Nat → Parser Parsed

namespace Phrase

def one (p : Nat → Parser Node) : Phrase :=
  fun n => Parsed.node <$> p n

def many (p : Nat → Parser (List Node)) : Phrase :=
  fun n => Parsed.nodes <$> p n

def optional (p : Nat → Parser (Option Node)) : Phrase :=
  fun n => (fun m => m.elim .absent .node) <$> p n

def test (p : Parser Bool) : Phrase :=
  fun _ => Parsed.verdict <$> p

def refuse (e : Edition) (expected : String) : Phrase := fun _ => do
  let cause := SyntaxCause.custom ("token of kind " ++ expected ++ " not found")
  if e = .first then
    let t ← Parser.look
    Early.reject t (match Early.mismatch t .eof with
      | .expectedToken _ => cause
      | c => c)
  else Standard.error cause

def runText (kinds : List TokenKind) : String :=
  let entry (k : TokenKind) : String :=
    "<TokenKind." ++ k.name ++ ": " ++ toString (TokenKind.all.idxOf k + 1) ++ ">"
  "[" ++ ", ".intercalate (kinds.map entry) ++ "]"

def matchRun (e : Edition) (kinds : List TokenKind) : Phrase := fun n => do
  if ← Parser.checkRun kinds then
    let _ ← Parser.advance
    return .absent
  else refuse e (runText kinds) n

/-- Apply operators to an expression that is not there. Where an operator follows, an expression
is read in its place. -/
def binaryAlone : Phrase := fun n => do
  if ← Parser.checkAny Early.operators then
    let e ← Early.comparison (Early.expr n) n none
    return .node (← Early.binary (Early.expr n) n e)
  else return .absent

/-- Apply boolean operators to an expression that is not there. No expression begins with such an
operator, so that one is refused. -/
def booleanAlone : Phrase := fun _ => do
  if ← Parser.checkAny [.or, .and] then Early.rejectNext .expectedExpression
  else return .absent

def report (e : Edition) (text source : String) : Phrase := fun _ => do
  if e = .first then
    let place := (← Parser.look).position
    match sourceLine? source place.line with
    | some line =>
      return .text (SyntaxError.reportWith ""
        { cause := .custom text, line, row := place.line - 1, column := place.column - 1 })
    | none => throw (.rejected place [.custom text])
  else Standard.error (.custom text)

open Early in
def early : List (String × Phrase) :=
  [("program", one program), ("literal", one fun _ => literal), ("type", one type),
   ("global-decl", one fun _ => globalDecl), ("nonlocal-decl", one fun _ => nonlocalDecl),
   ("typed-var", one typedVar), ("var-def", one varDef), ("def", optional definition),
   ("def-seq", many defSeq), ("typed-var-list", many typedVars), ("function", one function),
   ("stmt-seq", many fun n => stmtSeq (stmt n) n), ("block", many fun n => block (stmt n) n),
   ("stmt", one stmt), ("if-stmt", one fun n => branch (stmt n) n .kwIf),
   ("simple-stmt", one simpleStmt), ("operand", one fun n => operand (expr n) n),
   ("or", one fun n => disjunction (expr n) n none), ("bool-op", booleanAlone),
   ("bin-op", binaryAlone),
   ("and", one fun n => conjunction (expr n) n none), ("expr", one expr),
   ("simple-cexpr", one fun n => simple (expr n) (cexpr (expr n) n) n),
   ("cexpr", one fun n => cexpr (expr n) n),
   ("comparison", one fun n => comparison (expr n) n none),
   ("sum", one fun n => sum (expr n) n none),
   ("product", one fun n => product (expr n) n none)]

open Standard in
def standard : List (String × Phrase) :=
  [("program", one program), ("def-seq", many defSeq), ("function", one function),
   ("typed-var", one typedVar), ("type", one type), ("var-def", one varDef),
   ("global-decl", one fun _ => globalDecl), ("nonlocal-decl", one fun _ => nonlocalDecl),
   ("block", many fun n => block (stmt n) n), ("expr-first-set", test atExpr),
   ("stmt-first-set", test atStmt), ("stmt-seq", many fun n => stmtSeq (stmt n) n),
   ("stmt", one stmt), ("if-stmt", one fun n => ifStmt (stmt n) n),
   ("while-stmt", one fun n => whileStmt (stmt n) n),
   ("for-stmt", one fun n => forStmt (stmt n) n), ("condition", one condition),
   ("simple-stmt", one simpleStmt), ("literal", one fun _ => literal),
   ("assign-expr", one assignExpr), ("expr", one expr),
   ("or-expr", one fun n => orExpr (expr n) n), ("and-expr", one fun n => andExpr (expr n) n),
   ("not-expr", one fun n => notExpr (expr n) n),
   ("comp-expr", one fun n => comparison (expr n) n),
   ("arith-expr", one fun n => arith (expr n) n), ("term", one fun n => term (expr n) n),
   ("cexpr", one fun n => cexpr (expr n) n),
   ("primary", one fun n => primary (expr n) (cexpr (expr n) n) n),
   ("arglist", many fun n => args (expr n) n), ("argrep", many fun n => argRest (expr n) n),
   ("bracket-expr", many fun n => brackets (expr n) n)]

def ofName? (e : Edition) (name : String) : Option Phrase :=
  (if e = .first then early else standard).lookup name

def parse (p : Phrase) (source : String) : Except Fault Parsed :=
  (Parser.parse p source).mapError (ParseError.fault source)

end Phrase

end Practicum.Choco
