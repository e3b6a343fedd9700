import Mathlib.Algebra.Ring.Int.Defs
import Mathlib.Algebra.Ring.Nat
import Practicum.Choco.Node
import Practicum.Choco.Token

/-!
# Written programs

How a syntax tree is written down. An expression is a row of tokens, with parentheses only where
the grammar expects something that binds tighter. A block may be indented by any amount that is
more than its parent's, and an alternative that is a conditional statement may be written with
`elif` or below an `else`.
-/

namespace Practicum.Choco

/-! ## Tokens without places -/

/-- A token without its place. -/
structure Lexeme where
  kind : TokenKind
  value : TokenValue
  deriving DecidableEq, Repr

def Token.lexeme (t : Token) : Lexeme :=
  ⟨t.kind, t.value⟩

def signs : List (String × TokenKind) :=
  [("+", .plus), ("-", .minus), ("*", .times), ("//", .floorDiv), ("%", .modulo), ("=", .assign),
   ("(", .lparen), (")", .rparen), (":", .colon), ("[", .lbracket), ("]", .rbracket),
   (",", .comma), ("->", .arrow), ("==", .eq), ("!=", .ne), ("<", .lt), (">", .gt), ("<=", .le),
   (">=", .ge)]

namespace Lexeme

def word (x : String) : Lexeme :=
  ⟨wordKind x, .word x⟩

def lparen : Lexeme := ⟨.lparen, .word "("⟩

def rparen : Lexeme := ⟨.rparen, .word ")"⟩

def lbracket : Lexeme := ⟨.lbracket, .word "["⟩

def rbracket : Lexeme := ⟨.rbracket, .word "]"⟩

def comma : Lexeme := ⟨.comma, .word ","⟩

def colon : Lexeme := ⟨.colon, .word ":"⟩

def assign : Lexeme := ⟨.assign, .word "="⟩

def arrow : Lexeme := ⟨.arrow, .word "->"⟩

def minus : Lexeme := ⟨.minus, .word "-"⟩

def newline : Lexeme := ⟨.newline, .absent⟩

def indent : Lexeme := ⟨.indent, .absent⟩

def dedent : Lexeme := ⟨.dedent, .absent⟩

def eof : Lexeme := ⟨.eof, .absent⟩

def literal : Literal → Lexeme
  | .none => word "None"
  | .bool true => word "True"
  | .bool false => word "False"
  | .int n _ => ⟨.integer, .number n.toNat⟩
  | .str s => ⟨.string, .text s⟩

def spelling (x : Lexeme) : List Char :=
  match x.value with
  | .absent => []
  | .word s => s.toList
  | .number n => Nat.toDigits 10 n
  | .text s => '"' :: (escape s).toList ++ ['"']

end Lexeme

/-! ## Operators -/

def operatorKind : String → TokenKind
  | "or" => .or
  | "and" => .and
  | "==" => .eq
  | "!=" => .ne
  | "<" => .lt
  | "<=" => .le
  | ">" => .gt
  | ">=" => .ge
  | "is" => .is
  | "+" => .plus
  | "-" => .minus
  | "*" => .times
  | "//" => .floorDiv
  | _ => .modulo

def operators : List String :=
  ["or", "and", "==", "!=", "<", "<=", ">", ">=", "is", "+", "-", "*", "//", "%"]

/-- How tight a binary operator binds: disjunctions least, then conjunctions, comparisons, sums and
products. Negations by `not` stand between conjunctions and comparisons. -/
def operatorLevel : String → Nat
  | "or" => 1
  | "and" => 2
  | "+" => 5
  | "-" => 5
  | "*" => 6
  | "//" => 6
  | "%" => 6
  | _ => 4

/-- The level expected on the left of an operator: its own, since operators associate to the left,
and the next for comparisons, which do not associate. -/
def leftLevel (op : String) : Nat :=
  if operatorLevel op = 4 then 5 else operatorLevel op

def rightLevel (op : String) : Nat :=
  operatorLevel op + 1

def Node.level : Node → Nat
  | .ifExpr .. => 0
  | .binary op .. => operatorLevel op
  | .unary "not" .. => 3
  | .unary .. => 7
  | _ => 8

/-! ## Expressions -/

/-- The tokens of an expression where a level is expected: in parentheses if it binds less tight. -/
def enclosed (level : Nat) (e : Node) (tokens : List Lexeme) : List Lexeme :=
  if e.level < level then .lparen :: (tokens ++ [.rparen]) else tokens

namespace Node

mutual

def tokens : Node → List Lexeme
  | .literal v _ => [.literal v]
  | .name x _ => [.word x]
  | .unary "not" [e] _ => .word "not" :: enclosed 3 e (tokens e)
  | .unary _ [e] _ => .minus :: enclosed 7 e (tokens e)
  | .binary op [l] [r] _ =>
    enclosed (leftLevel op) l (tokens l) ++
      ⟨operatorKind op, .word op⟩ :: enclosed (rightLevel op) r (tokens r)
  | .ifExpr [c] [a] [b] _ =>
    enclosed 1 a (tokens a) ++ .word "if" :: (tokens c ++ .word "else" :: tokens b)
  | .listExpr es _ => .lbracket :: (tokensOfAll es ++ [.rbracket])
  | .call f es _ => .word f :: .lparen :: (tokensOfAll es ++ [.rparen])
  | .index [v] [i] _ => enclosed 8 v (tokens v) ++ .lbracket :: (tokens i ++ [.rbracket])
  | _ => []

def tokensOfAll : List Node → List Lexeme
  | [] => []
  | e :: es => tokens e ++ tokensOfRest es

def tokensOfRest : List Node → List Lexeme
  | [] => []
  | e :: es => .comma :: (tokens e ++ tokensOfRest es)

end

def tokensAt (level : Nat) (e : Node) : List Lexeme :=
  enclosed level e e.tokens

end Node

/-! ## Lines -/

def Node.typeTokens : Node → List Lexeme
  | .typeName x => [.word x]
  | .listType [t] => .lbracket :: (typeTokens t ++ [.rbracket])
  | _ => []

def Node.typedTokens : Node → List Lexeme
  | .typedVar x [t] => .word x :: .colon :: t.typeTokens
  | _ => []

def paramTokens : List Node → List Lexeme
  | [] => []
  | [p] => p.typedTokens
  | p :: ps => p.typedTokens ++ .comma :: paramTokens ps

def resultTokens : Node → List Lexeme
  | .typeName "<None>" => []
  | t => .arrow :: t.typeTokens

def functionTokens (f : String) (ps : List Node) (t : Node) : List Lexeme :=
  .word "def" :: .word f :: .lparen :: (paramTokens ps ++ .rparen :: (resultTokens t ++ [.colon]))

def Node.lineTokens : Node → List Lexeme
  | .passStmt => [.word "pass"]
  | .returnStmt [] => [.word "return"]
  | .returnStmt [e] => .word "return" :: e.tokens
  | .assign [t] [v] => t.tokens ++ .assign :: lineTokens v
  | .varDef [x] [.literal v _] => x.typedTokens ++ [.assign, .literal v]
  | .globalDecl x => [.word "global", .word x]
  | .nonlocalDecl x => [.word "nonlocal", .word x]
  | e => e.tokens

def Node.hasBlocks : Node → Bool
  | .ifStmt .. | .whileStmt .. | .forStmt .. | .funcDef .. => true
  | _ => false

/-- A line: the number of blanks that it begins with, and its tokens. -/
structure Line where
  margin : Nat
  tokens : List Lexeme

/-- The characters of tokens up to the end of their line: one blank stands between two of them. -/
def spaced : List Lexeme → List Char
  | [] => ['\n']
  | [x] => x.spelling ++ ['\n']
  | x :: xs => x.spelling ++ ' ' :: spaced xs

def Line.text (l : Line) : List Char :=
  List.replicate l.margin ' ' ++ spaced l.tokens

/-! ## Blocks -/

inductive Part where
  | stmt (s : Node)
  | block (ss : List Node)
  /-- What follows the first branch of a conditional statement. -/
  | otherwise (ss : List Node)

/-- The lines that a part can be written as, from a margin. -/
inductive Writes : Nat → Part → List Line → Prop where
  | line {m : Nat} {s : Node} (h : s.hasBlocks = false) :
    Writes m (.stmt s) [⟨m, s.lineTokens⟩]
  | ifStmt {m k : Nat} {c : Node} {body rest : List Node} {ls ls' : List Line} (h : m < k)
    (hne : body ≠ []) (hbody : Writes k (.block body) ls)
    (hrest : Writes m (.otherwise rest) ls') :
    Writes m (.stmt (.ifStmt [c] body rest))
      (⟨m, .word "if" :: (c.tokens ++ [.colon])⟩ :: (ls ++ ls'))
  | whileStmt {m k : Nat} {c : Node} {body : List Node} {ls : List Line} (h : m < k)
    (hne : body ≠ []) (hbody : Writes k (.block body) ls) :
    Writes m (.stmt (.whileStmt [c] body)) (⟨m, .word "while" :: (c.tokens ++ [.colon])⟩ :: ls)
  | forStmt {m k : Nat} {x : String} {e : Node} {body : List Node} {ls : List Line} (h : m < k)
    (hne : body ≠ []) (hbody : Writes k (.block body) ls) :
    Writes m (.stmt (.forStmt x [e] body))
      (⟨m, .word "for" :: .word x :: .word "in" :: (e.tokens ++ [.colon])⟩ :: ls)
  | funcDef {m k : Nat} {f : String} {ps body : List Node} {t : Node} {ls : List Line} (h : m < k)
    (hne : body ≠ []) (hbody : Writes k (.block body) ls) :
    Writes m (.stmt (.funcDef f ps [t] body)) (⟨m, functionTokens f ps t⟩ :: ls)
  | nothing {m : Nat} : Writes m (.otherwise []) []
  | elseBlock {m k : Nat} {rest : List Node} {ls : List Line} (h : m < k) (hne : rest ≠ [])
    (hrest : Writes k (.block rest) ls) :
    Writes m (.otherwise rest) (⟨m, [.word "else", .colon]⟩ :: ls)
  | elifBlock {m k : Nat} {c : Node} {body rest : List Node} {ls ls' : List Line} (h : m < k)
    (hne : body ≠ []) (hbody : Writes k (.block body) ls)
    (hrest : Writes m (.otherwise rest) ls') :
    Writes m (.otherwise [.ifStmt [c] body rest])
      (⟨m, .word "elif" :: (c.tokens ++ [.colon])⟩ :: (ls ++ ls'))
  | nil {m : Nat} : Writes m (.block []) []
  | cons {m : Nat} {s : Node} {ss : List Node} {ls ls' : List Line}
    (hs : Writes m (.stmt s) ls) (hss : Writes m (.block ss) ls') :
    Writes m (.block (s :: ss)) (ls ++ ls')

/-- A text in which a program can be written. -/
def Rendering (p : Node) (text : String) : Prop :=
  ∃ defs stmts lines, p = .program defs stmts ∧ Writes 0 (.block (defs ++ stmts)) lines ∧
    text = String.ofList (lines.flatMap Line.text)

/-! ## The trees that are written -/

/-- A word: a letter or an underscore, then letters, digits and underscores. -/
def IsWord (x : String) : Prop :=
  ∃ c cs, x.toList = c :: cs ∧ (c.isAlpha ∨ c = '_') ∧ ∀ d ∈ cs, d.isAlphanum ∨ d = '_'

def IsName (x : String) : Prop :=
  IsWord x ∧ keywords.lookup x = none

/-- A literal whose value can be written: integers are words of 32 bits, not negative and not too
long to be read, and strings consist of printable characters, ends of lines and tabs. -/
def IsLiteral : Literal → Prop
  | .none => True
  | .bool _ => True
  | .int n width => width = 32 ∧ 0 ≤ n ∧ n < 10 ^ Text.maxDecimalDigits
  | .str s => ∀ c ∈ s.toList, 32 ≤ c.toNat ∧ c.toNat ≤ 126 ∨ c = '\n' ∨ c = '\t'

inductive IsExpr : Node → Prop where
  | literal {v : Literal} (h : IsLiteral v) : IsExpr (.literal v none)
  | name {x : String} (h : IsName x) : IsExpr (.name x none)
  | not {e : Node} (h : IsExpr e) : IsExpr (.unary "not" [e] none)
  | minus {e : Node} (h : IsExpr e) : IsExpr (.unary "-" [e] none)
  | binary {op : String} {l r : Node} (hop : op ∈ operators) (hl : IsExpr l) (hr : IsExpr r) :
    IsExpr (.binary op [l] [r] none)
  | ifExpr {c a b : Node} (hc : IsExpr c) (ha : IsExpr a) (hb : IsExpr b) :
    IsExpr (.ifExpr [c] [a] [b] none)
  | listExpr {es : List Node} (h : ∀ e ∈ es, IsExpr e) : IsExpr (.listExpr es none)
  | call {f : String} {es : List Node} (hf : IsName f) (h : ∀ e ∈ es, IsExpr e) :
    IsExpr (.call f es none)
  | index {v i : Node} (hv : IsExpr v) (hi : IsExpr i) : IsExpr (.index [v] [i] none)

/-- The trees of assignments: a value is an expression or another assignment. -/
inductive IsAssignment : Node → Prop where
  | value {e : Node} (h : IsExpr e) : IsAssignment e
  | assign {t v : Node} (ht : IsExpr t) (hv : IsAssignment v) : IsAssignment (.assign [t] [v])

inductive IsStmt : Node → Prop where
  | pass : IsStmt .passStmt
  | returnNone : IsStmt (.returnStmt [])
  | returnValue {e : Node} (h : IsExpr e) : IsStmt (.returnStmt [e])
  | assignment {s : Node} (h : IsAssignment s) : IsStmt s
  | ifStmt {c : Node} {body rest : List Node} (hc : IsExpr c) (hne : body ≠ [])
    (hbody : ∀ s ∈ body, IsStmt s) (hrest : ∀ s ∈ rest, IsStmt s) :
    IsStmt (.ifStmt [c] body rest)
  | whileStmt {c : Node} {body : List Node} (hc : IsExpr c) (hne : body ≠ [])
    (hbody : ∀ s ∈ body, IsStmt s) : IsStmt (.whileStmt [c] body)
  | forStmt {x : String} {e : Node} {body : List Node} (hx : IsName x) (he : IsExpr e)
    (hne : body ≠ []) (hbody : ∀ s ∈ body, IsStmt s) : IsStmt (.forStmt x [e] body)

inductive IsType : Node → Prop where
  | name {x : String} (h : x ∈ ["object", "int", "bool", "str"]) : IsType (.typeName x)
  | list {t : Node} (h : IsType t) : IsType (.listType [t])

inductive IsTypedVar : Node → Prop where
  | mk {x : String} {t : Node} (hx : IsName x) (ht : IsType t) : IsTypedVar (.typedVar x [t])

inductive IsVarDef : Node → Prop where
  | mk {x : Node} {v : Literal} (hx : IsTypedVar x) (hv : IsLiteral v) :
    IsVarDef (.varDef [x] [.literal v none])

inductive IsDeclaration : Node → Prop where
  | varDef {d : Node} (h : IsVarDef d) : IsDeclaration d
  | globalDecl {x : String} (h : IsName x) : IsDeclaration (.globalDecl x)
  | nonlocalDecl {x : String} (h : IsName x) : IsDeclaration (.nonlocalDecl x)

/-- The trees of definitions of functions: a body has declarations and at least one statement. -/
inductive IsFunction : Node → Prop where
  | mk {f : String} {ps decls body : List Node} {t : Node} (hf : IsName f)
    (hps : ∀ p ∈ ps, IsTypedVar p) (ht : t = .typeName "<None>" ∨ IsType t)
    (hdecls : ∀ d ∈ decls, IsDeclaration d) (hne : body ≠ []) (hbody : ∀ s ∈ body, IsStmt s) :
    IsFunction (.funcDef f ps [t] (decls ++ body))

inductive IsProgram : Node → Prop where
  | mk {defs stmts : List Node} (hdefs : ∀ d ∈ defs, IsVarDef d ∨ IsFunction d)
    (hstmts : ∀ s ∈ stmts, IsStmt s) : IsProgram (.program defs stmts)

end Practicum.Choco
