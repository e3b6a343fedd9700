import Practicum.Choco.Token
import Practicum.Text.Characters

/-!
# The lexer

Blanks and comments separate tokens; a line that holds nothing else is no logical line. A logical
line begins with an indent, or with dedents, when its indentation differs from the open level, and
it ends with a newline token. At the end of the input the last line is ended, the open levels are
closed, and from then on every token is the end of the file.
-/

namespace Practicum.Choco

/-!
## The scanner

The scanner walks through the characters of a source. It looks at one character ahead: a
character is first *looked at* and later *taken*. Two reckonings of the place are kept.

* The `Tip` follows the characters looked at. Its column is zero-based, and looking at the end
  of the input still moves it.
* The `Caret` follows the characters taken, in lines and columns from one.

The `Layout` holds what the indentation of lines is compared with.
-/

structure Tip where
  column : Int := -1
  lineNumber : Nat := 0
  lineText : String := ""
  deriving DecidableEq, Repr

structure Caret where
  line : Int := 1
  column : Int := 1
  /-- The column at which the previous line ended. -/
  lastColumn : Int := 0
  /-- The number of characters taken since the current token was begun. -/
  taken : Int := 0
  lineText : String := ""
  deriving DecidableEq, Repr

structure Layout where
  /-- No token of the current line has been given out. -/
  newLine : Bool := true
  /-- The current line has a token and still owes its end. -/
  logical : Bool := false
  indent : Nat := 0
  /-- The open indentation levels, innermost first. -/
  levels : List Nat := [0]
  deriving DecidableEq, Repr

def Layout.level (l : Layout) : Nat :=
  l.levels.headD 0

structure Scanner where
  rest : List Char
  seen : Bool := false
  tip : Tip := {}
  caret : Caret := {}
  layout : Layout := {}
  deriving DecidableEq, Repr

def Scanner.ofString (source : String) : Scanner :=
  { rest := source.toList }

def Caret.advance (p : Caret) (c : Char) : Caret :=
  if c = '\n' then
    { line := p.line + 1, column := 1, lastColumn := p.column, taken := p.taken + 1, lineText := "" }
  else
    { p with column := p.column + 1, taken := p.taken + 1, lineText := p.lineText.push c }

/-- Look at the next character: it stands first in `rest`, if there is one. -/
def Scanner.look (s : Scanner) : Scanner :=
  if s.seen then s
  else
    match s.rest with
    | [] => { s with tip := { s.tip with column := s.tip.column + 1 } }
    | c :: _ =>
      { s with
        seen := true
        tip := { s.tip with
          column := s.tip.column + 1
          lineText := s.tip.lineText.push c } }

def Scanner.take (s : Scanner) : Scanner :=
  match s.rest with
  | [] => s
  | c :: cs => { s with rest := cs, seen := false, caret := s.caret.advance c }

@[simp]
theorem Scanner.rest_look (s : Scanner) : s.look.rest = s.rest := by
  unfold Scanner.look
  split
  · rfl
  · split <;> simp_all

@[simp]
theorem Scanner.rest_take (s : Scanner) : s.take.rest = s.rest.tail := by
  unfold Scanner.take
  split <;> simp_all

def Scanner.takeWhile (p : Char → Bool) (s : Scanner) : List Char × Scanner :=
  match h : s.rest with
  | [] => ([], s.look)
  | c :: _ =>
    if p c then
      let (cs, t) := s.look.take.takeWhile p
      (c :: cs, t)
    else ([], s.look)
termination_by s.rest.length
decreasing_by simp [h]

theorem Scanner.length_rest_takeWhile (p : Char → Bool) (s : Scanner) :
    (s.takeWhile p).2.rest.length ≤ s.rest.length := by
  fun_induction Scanner.takeWhile p s with
  | case1 => simp
  | case2 s c cs h hp ds t heq ih =>
    have : (s.look.take.takeWhile p).2.rest.length ≤ s.look.take.rest.length := ih
    rw [heq] at this
    simp [h] at this ⊢
    omega
  | case3 => simp

open Text

inductive LexError where
  | mismatchedIndent
  | unknownEscape (c : Option Char)
  | notPrintable (c : Char)
  | unterminatedString
  | notANumber (text : String)
  | unknownLexeme (text : String)
  | invalidCharacter (c : Char)
  deriving DecidableEq, Repr

def LexError.message : LexError → String
  | .mismatchedIndent => "Indentation error: mismatched blocks."
  | .unknownEscape c => "Error: \"\\" ++ String.ofList c.toList ++ "\" not recognized"
  | .notPrintable c => "Error: Unknown ASCII number " ++ toString c.toNat
  | .unterminatedString => ""
  | .notANumber _ => ""
  | .unknownLexeme text => "Unknown lexeme: " ++ text
  | .invalidCharacter c => "Invalid character detected: '" ++ c.toString ++ "'"

namespace Scanner

/-- The scanner as it is when a token is begun: the text of a line that has no token yet is
dropped. -/
def start (s : Scanner) : Scanner :=
  { s with
    caret := { s.caret with taken := 0 }
    tip := if s.layout.newLine && !s.layout.logical then { s.tip with lineText := "" } else s.tip }

@[simp]
theorem rest_start (s : Scanner) : s.start.rest = s.rest := rfl

def token (s t : Scanner) (kind : TokenKind) (value : TokenValue) : Token where
  kind
  value
  position := { line := t.caret.line, column := t.caret.column - t.caret.taken }
  column := s.tip.column

def word (s t : Scanner) (kind : TokenKind) (spelling : String) : Token × Scanner :=
  (s.token t kind (.word spelling), t)

def newlineToken (s : Scanner) (column : Int) : Token where
  kind := .newline
  value := .absent
  position := { line := s.caret.line - 1, column := s.caret.lastColumn }
  column

def nextLine (s : Scanner) : Scanner :=
  { s with
    layout := { s.layout with indent := 0, newLine := true, logical := false }
    tip := { s.tip with column := -1, lineNumber := s.tip.lineNumber + 1 } }

/-- What a blank does to the state: an end of line begins a new line; a tab at the beginning of
a line fills up to the next multiple of eight; any other blank there indents by one. -/
def passBlank (s : Scanner) (c : Char) : Scanner :=
  if c = '\n' || c = '\r' then s.nextLine
  else if !s.layout.newLine then s
  else if c = '\t' then
    { s with
      layout := { s.layout with indent := s.layout.indent + (8 - s.layout.indent % 8) }
      tip := { s.tip with column := s.tip.column + (8 - s.tip.column.fmod 8) } }
  else { s with layout := { s.layout with indent := s.layout.indent + 1 } }

@[simp]
theorem rest_passBlank (s : Scanner) (c : Char) : (s.passBlank c).rest = s.rest := by
  unfold passBlank
  split
  · rfl
  split
  · rfl
  · split <;> rfl

def passComment (s : Scanner) : Scanner :=
  let t := (s.take.takeWhile fun c => c != '\n' && c != '\r').2
  { t with tip := { t.tip with lineText := "" } }

theorem length_rest_passComment (s : Scanner) : s.passComment.rest.length ≤ s.rest.tail.length := by
  simpa [passComment] using length_rest_takeWhile (fun c => c != '\n' && c != '\r') s.take

def atEnd (s : Scanner) : Token × Scanner :=
  if s.layout.logical then
    (s.newlineToken s.tip.column, { s with layout := { s.layout with logical := false } })
  else if 0 < s.layout.level then
    let t := { s with layout := { s.layout with levels := s.layout.levels.tail } }
    ({ s.token t .dedent .absent with column := t.layout.level }, t)
  else (s.token s .eof .absent, s)

def stringBody (s : Scanner) : Except LexError (List Char × Scanner) :=
  match h : s.rest with
  | [] => .error .unterminatedString
  | c :: cs =>
    if c = '"' then .ok ([], s.look.take)
    else if c.toNat < 32 || 126 < c.toNat then .error (.notPrintable c)
    else if c ≠ '\\' then do
      let (text, t) ← s.look.take.stringBody
      return (c :: text, t)
    else do
      let escaped ← match cs with
        | 'n' :: _ => .ok '\n'
        | 't' :: _ => .ok '\t'
        | '"' :: _ => .ok '"'
        | '\\' :: _ => .ok '\\'
        | _ => .error (.unknownEscape cs.head?)
      let (text, t) ← s.look.take.look.take.stringBody
      return (escaped :: text, t)
termination_by s.rest.length
decreasing_by
  · simp [h]
  · simp only [rest_look, rest_take, h, List.tail_cons, List.length_tail, List.length_cons]
    omega

def symbol (s : Scanner) (first : TokenKind × String) (second : Char) (both : TokenKind × String) :
    Token × Scanner :=
  let t := s.take.look
  if t.rest.head? = some second then s.word t.take both.1 both.2 else s.word t first.1 first.2

def doubled (s : Scanner) (first second : Char) (kind : TokenKind) :
    Except LexError (Token × Scanner) :=
  let t := s.take.look
  if t.rest.head? = some second then
    .ok (s.word t.take kind (String.ofList [first, second]))
  else .error (.unknownLexeme (String.ofList (first :: t.rest.head?.toList)))

def lexeme (s : Scanner) (c : Char) : Except LexError (Token × Scanner) :=
  let one (kind : TokenKind) := .ok (s.word s.take kind c.toString)
  match c with
  | '+' => one .plus
  | '-' => .ok (s.symbol (.minus, "-") '>' (.arrow, "->"))
  | '*' => one .times
  | '%' => one .modulo
  | '/' => s.doubled '/' '/' .floorDiv
  | '=' => .ok (s.symbol (.assign, "=") '=' (.eq, "=="))
  | '!' => s.doubled '!' '=' .ne
  | '<' => .ok (s.symbol (.lt, "<") '=' (.le, "<="))
  | '>' => .ok (s.symbol (.gt, ">") '=' (.ge, ">="))
  | '(' => one .lparen
  | ')' => one .rparen
  | ':' => one .colon
  | '[' => one .lbracket
  | ']' => one .rbracket
  | ',' => one .comma
  | '"' => do
    let (text, t) ← s.take.stringBody
    return (s.token t .string (.text (String.ofList text)), t)
  | _ =>
    if isLetter c || c = '_' then
      let (cs, t) := s.take.takeWhile fun d => isAlphanumeric d || d == '_'
      let name := String.ofList (c :: cs)
      .ok (s.word t (wordKind name) name)
    else if isDigit c then
      let (cs, t) := s.take.takeWhile isNumeral
      match readDecimal? (c :: cs) with
      | some n => .ok (s.token t .integer (.number n), t)
      | none => .error (.notANumber (String.ofList (c :: cs)))
    else .error (.invalidCharacter c)

/-- The first token of a line: an indent or a dedent as long as the line's indentation differs
from the open level, then the token that begins with the character looked at. -/
def lineStart (s : Scanner) (c : Char) : Except LexError (Token × Scanner) :=
  let s := { s with layout := { s.layout with logical := true } }
  let l := s.layout
  if l.level < l.indent then
    let t := { s with layout := { l with levels := l.indent :: l.levels } }
    .ok ({ kind := .indent, value := .absent, column := l.level,
           position := ⟨s.caret.line, s.caret.column - (l.indent - l.level)⟩ }, t)
  else if l.indent < l.level then
    if l.indent ∈ l.levels then
      let t := { s with layout := { l with levels := l.levels.tail } }
      .ok ({ s.token t .dedent .absent with column := t.layout.level }, t)
    else .error .mismatchedIndent
  else
    { s with
      layout := { l with newLine := false }
      tip := { s.tip with
        lineText := String.ofList (List.replicate l.indent ' ') ++ s.tip.lineText } }.lexeme c

def scan (s : Scanner) : Except LexError (Token × Scanner) :=
  match h : s.rest with
  | [] => .ok s.atEnd
  | c :: _ =>
    if isBlank c then
      if (c = '\n' || c = '\r') && s.layout.logical then
        let t := s.nextLine.take
        .ok (t.newlineToken s.tip.column, t)
      else (s.passBlank c).take.start.look.scan
    else if c = '#' then s.passComment.scan
    else if s.layout.newLine then s.lineStart c
    else s.lexeme c
termination_by s.rest.length
decreasing_by
  · simp [h]
  · have := s.length_rest_passComment
    simp [h] at this ⊢
    omega

def next (s : Scanner) : Except LexError (Token × Scanner) :=
  s.start.look.scan

end Scanner

structure Lexer where
  scanner : Scanner
  ahead : List Token := []
  deriving DecidableEq, Repr

namespace Lexer

def ofString (source : String) : Lexer :=
  { scanner := Scanner.ofString source }

def consume (l : Lexer) : Except LexError (Token × Lexer) :=
  match l.ahead with
  | t :: ts => .ok (t, { l with ahead := ts })
  | [] => do
    let (t, s) ← l.scanner.next
    return (t, { scanner := s })

def extend (l : Lexer) : Nat → Except LexError Lexer
  | 0 => .ok l
  | k + 1 => do
    let (t, s) ← l.scanner.next
    ({ scanner := s, ahead := l.ahead ++ [t] } : Lexer).extend k

/-- Look at the next `k` tokens without consuming them; at least one is looked at. -/
def peek (l : Lexer) (k : Nat) : Except LexError (List Token × Lexer) := do
  let l ← l.extend (max k 1 - l.ahead.length)
  return (l.ahead.take k, l)

/-- Look at the next tokens. A negative number leaves out as many of the tokens looked at, from
the last. -/
def peekBy (l : Lexer) (k : Int) : Except LexError (List Token × Lexer) := do
  let (ts, l) ← l.peek k.toNat
  return (if k < 0 then l.ahead.take (l.ahead.length + k).toNat else ts, l)

/-- The tokens of a source up to the end of the file, and the error that stopped the lexer
before it. Every token takes a character, closes a line or changes a level, so the number of
tokens is bounded by the length of the source. -/
def tokens (l : Lexer) : Nat → List Token × Option LexError
  | 0 => ([], none)
  | fuel + 1 =>
    match l.consume with
    | .error e => ([], some e)
    | .ok (t, l) =>
      if t.kind = .eof then ([t], none)
      else
        let (ts, e) := l.tokens fuel
        (t :: ts, e)

end Lexer

def tokenize (source : String) : List Token × Option LexError :=
  (Lexer.ofString source).tokens (4 * source.length + 4)

end Practicum.Choco
