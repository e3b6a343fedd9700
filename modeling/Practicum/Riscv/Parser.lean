import Practicum.Riscv.Instr

/-!
# Reading assembly text

`parse` reads the lines of an assembly text up to its end or the first error.
-/

namespace Practicum.Riscv

open Text (isLetter isNumeral)

/-! ## Tokens -/

inductive Token where
  | plus
  | minus
  | leftParen
  | rightParen
  | dot
  | comma
  | colon
  | newline
  | literal (text : String)
  | symbol (text : String)
  | integer (text : String)
  deriving DecidableEq, Repr

def Token.display : Token → String
  | .plus => "PLUS"
  | .minus => "MINUS"
  | .leftParen => "LPAREN"
  | .rightParen => "RPAREN"
  | .dot => "DOT"
  | .comma => "COMMA"
  | .colon => "COLON"
  | .newline => "NEWLINE"
  | .literal text => "LITERAL:" ++ text
  | .symbol text => "SYMBOL:" ++ text
  | .integer text => "INTEGER:" ++ text

inductive LexError where
  | missingQuote
  | invalidCharacter (c : Char)
  deriving DecidableEq, Repr

def LexError.message : LexError → String
  | .missingQuote => "Missing closing '\"'."
  | .invalidCharacter c => "Invalid character detected: '" ++ c.toString ++ "'"

def LexError.fault (e : LexError) : Fault :=
  .refused e.message

def inLine (c : Char) : Bool :=
  c ≠ '\n' && c ≠ '\r'

def inSymbol (c : Char) : Bool :=
  isLetter c || isNumeral c || c == '_'

def inLiteral (c : Char) : Bool :=
  c ≠ '"'

def skipBlanks : List Char → List Char
  | [] => []
  | c :: cs =>
    if c = ' ' || c = '\t' then skipBlanks cs
    else if c = '#' then skipBlanks (cs.dropWhile inLine).tail
    else c :: cs
termination_by cs => cs.length
decreasing_by
  · simp
  · have := (List.dropWhile_sublist inLine (l := cs)).length_le
    simp only [List.length_tail, List.length_cons]
    omega

def scan (c : Char) (cs : List Char) : Except LexError (Token × List Char) :=
  match c with
  | '+' => .ok (.plus, cs)
  | '-' => .ok (.minus, cs)
  | '(' => .ok (.leftParen, cs)
  | ')' => .ok (.rightParen, cs)
  | '.' => .ok (.dot, cs)
  | ',' => .ok (.comma, cs)
  | ':' => .ok (.colon, cs)
  | '\n' => .ok (.newline, cs)
  | '"' =>
    match cs.dropWhile inLiteral with
    | [] => .error .missingQuote
    | q :: rest => .ok (.literal (String.ofList (c :: cs.takeWhile inLiteral ++ [q])), rest)
  | c =>
    if isNumeral c then
      .ok (.integer (String.ofList (c :: cs.takeWhile isNumeral)), cs.dropWhile isNumeral)
    else if isLetter c then
      .ok (.symbol (String.ofList (c :: cs.takeWhile inSymbol)), cs.dropWhile inSymbol)
    else .error (.invalidCharacter c)

theorem length_skipBlanks_le (cs : List Char) : (skipBlanks cs).length ≤ cs.length := by
  fun_induction skipBlanks cs with
  | case1 => simp
  | case2 c cs _ ih => simp only [List.length_cons]; omega
  | case3 cs _ ih =>
    have := (List.dropWhile_sublist inLine (l := cs)).length_le
    simp only [List.length_tail, List.length_cons] at ih ⊢
    omega
  | case4 => simp

theorem length_scan_le {c : Char} {cs rest : List Char} {t : Token}
    (h : scan c cs = .ok (t, rest)) : rest.length ≤ cs.length := by
  have span (p : Char → Bool) : (cs.dropWhile p).length ≤ cs.length :=
    (List.dropWhile_sublist p).length_le
  have hl := span inLiteral
  have hn := span isNumeral
  have hs := span inSymbol
  unfold scan at h
  split at h <;> try (simp_all; done)
  · split at h
    · simp at h
    next q tail heq =>
      simp only [Except.ok.injEq, Prod.mk.injEq] at h
      rw [heq] at hl
      simp only [List.length_cons] at hl
      rw [← h.2]
      omega
  · split at h
    · simp only [Except.ok.injEq, Prod.mk.injEq] at h
      rw [← h.2]
      exact hn
    split at h
    · simp only [Except.ok.injEq, Prod.mk.injEq] at h
      rw [← h.2]
      exact hs
    · simp at h

def nextToken (cs : List Char) : Except LexError (Option Token × List Char) :=
  match skipBlanks cs with
  | [] => .ok (none, [])
  | c :: rest =>
    match scan c rest with
    | .ok (t, rest) => .ok (some t, rest)
    | .error e => .error e

def tokens (cs : List Char) : List Token × Option LexError :=
  match _h : skipBlanks cs with
  | [] => ([], none)
  | c :: rest =>
    match _hs : scan c rest with
    | .error e => ([], some e)
    | .ok (t, rest) =>
      let (ts, e) := tokens rest
      (t :: ts, e)
termination_by cs.length
decreasing_by
  have h₁ := length_scan_le _hs
  have h₂ := length_skipBlanks_le cs
  rw [_h] at h₂
  simp only [List.length_cons] at h₂
  omega

def listTokens (file : String) : Outcome :=
  let (ts, e?) := tokens (Text.normalizeNewlines file).toList
  let printed := String.join (ts.map fun t => t.display ++ "\n")
  match e? with
  | none => { printed }
  | some e => .failing printed e.fault

/-!
## Lines from what is given for them

A line is made from a name and a list of things. Their number must be right and the registers must
exist; anything else that does not fit is kept, and makes a line without a written form.
-/

inductive Given where
  | text (s : String)
  | number (n : Int)
  | absent
  | other (shown : String)
  deriving DecidableEq, Repr

inductive BuildError where
  | unknownName (name : String)
  | operandCount
  | badRegister (e : RegisterError)
  deriving DecidableEq, Repr

def BuildError.fault : BuildError → Fault
  | .unknownName _ => .unknownKey
  | .operandCount => .wrongKind
  | .badRegister e => e.fault

namespace Given

def shown : Given → String
  | .text s => s
  | .number n => toString n
  | .absent => "None"
  | .other s => s

def fill (place : Place) (g : Given) : Except BuildError Slot :=
  match place, g with
  | .register, .text s =>
    match Register.ofName s with
    | .ok r => .ok (.register r)
    | .error e => .error (.badRegister e)
  | .number, .number n => .ok (.target (.distance { value := n }))
  | .target, .number n => .ok (.target (.distance { value := n }))
  | .target, .text s => .ok (.target (.label s))
  | _, g => .ok (.stray g.shown)

def note? : Given → Option String
  | .text s => if s.isEmpty then none else some s
  | .number n => if n = 0 then none else some (toString n)
  | .absent => none
  | .other s => some s

def noteOf : List Given → Option String
  | [] => none
  | g :: _ => g.note?

end Given

def Form.build (f : Form) (given : List Given) : Except BuildError Line := do
  let count := f.places.length
  if given.length < count || count + 1 < given.length then throw .operandCount
  let slots ← (f.places.zip given).mapM fun (place, g) => g.fill place.2
  return .instr (f.withSlots slots) (Given.noteOf (given.drop count))

def Line.build (name : String) (given : List Given) : Except BuildError Line :=
  match name, given with
  | "label", [.text s] => .ok (.label s)
  | "label", [g] => .ok (.instr (.misfit "label" [("label", .stray g.shown)]) none)
  | "label", _ => .error .operandCount
  | "directive", [.text s] => .ok (.directive s "")
  | "directive", [.text s, .text v] => .ok (.directive s v)
  | "directive", [g] => .ok (.instr (.misfit "directive" [("directive", .stray g.shown)]) none)
  | "directive", [g, v] =>
    .ok (.instr (.misfit "directive"
      [("directive", .stray g.shown), ("value", .stray v.shown)]) none)
  | "directive", _ => .error .operandCount
  | "comment", given =>
    if 1 < given.length then .error .operandCount else .ok (.comment (Given.noteOf given))
  | name, given =>
    match Form.ofName? name with
    | some f => f.build given
    | none => .error (.unknownName name)

structure Operand where
  name : Option String := none
  number : Option Int := none
  deriving DecidableEq, Repr

namespace Operand

/-- The form of an operand in messages; an empty name and the number zero do not show. -/
def display (o : Operand) : String :=
  let name := match o.name with
    | none => "None"
    | some s => if s.isEmpty then "None" else "\"" ++ s ++ "\""
  let number := match o.number with
    | none => ""
    | some n => if n = 0 then "" else ", " ++ toString n
  "Operand(" ++ name ++ number ++ ")"

def givenName (o : Operand) : Given :=
  (o.name.map Given.text).getD .absent

def givenNumber (o : Operand) : Given :=
  (o.number.map Given.number).getD .absent

end Operand

inductive ParseError where
  | lexical (e : LexError)
  | unexpectedToken
  | unknownName (name : String)
  | unknownOperation (name : String)
  | malformed
  | tooFew
  | noOffset
  | notANumber (text : String)
  | building (e : BuildError)
  deriving DecidableEq, Repr

def ParseError.fault : ParseError → Fault
  | .lexical e => e.fault
  | .unexpectedToken => .refused "Error: unexpected token type!"
  | .unknownName _ => .unknownKey
  | .unknownOperation name => .refused ("Unknown operation " ++ name)
  | .malformed => .broken ""
  | .tooFew => .outOfRange
  | .noOffset => .wrongKind
  | .notANumber _ => .badValue
  | .building e => e.fault

structure TokenStream where
  tokens : List Token
  ending : Option LexError := none
  deriving DecidableEq, Repr

abbrev Parser := StateT TokenStream (Except ParseError)

namespace Parser

def look : Parser (Option Token) := fun s =>
  match s.tokens, s.ending with
  | t :: _, _ => .ok (some t, s)
  | [], some e => .error (.lexical e)
  | [], none => .ok (none, s)

def take {α : Type} (f : Token → Option α) : Parser α := fun s =>
  match s.tokens, s.ending with
  | t :: ts, _ =>
    match f t with
    | some a => .ok (a, { s with tokens := ts })
    | none => .error .unexpectedToken
  | [], some e => .error (.lexical e)
  | [], none => .error .unexpectedToken

def tryTake {α : Type} (f : Token → Option α) : Parser (Option α) := do
  match (← look).bind f with
  | some _ => some <$> take f
  | none => return none

def token (t : Token) (u : Token) : Option Unit :=
  if t = u then some () else none

def symbol : Token → Option String
  | .symbol text => some text
  | _ => none

def literal : Token → Option String
  | .literal text => some text
  | _ => none

def integer : Token → Option String
  | .integer text => some text
  | _ => none

def readNumber (negative : Bool) (digits : String) : Parser Int :=
  match Text.readDecimal? digits.toList with
  | some n => pure (if negative then -(n : Int) else n)
  | none => throw (.notANumber digits)

def operand : Parser Operand := do
  if let some () ← tryTake (token .dot) then
    return { name := some ("." ++ (← take symbol)) }
  if let some name ← tryTake symbol then
    return { name := some name }
  if let some text ← tryTake literal then
    return { name := some text }
  let sign ← tryTake (token .minus)
  let digits ← take integer
  let name ← do
    if let some () ← tryTake (token .leftParen) then
      let name ← take symbol
      take (token .rightParen)
      pure (some name)
    else pure none
  let number ← readNumber sign.isSome digits
  return { name, number := some number }

def moreOperands : Nat → Parser (List Operand)
  | 0 => return []
  | n + 1 => do
    if let some () ← tryTake (token .comma) then
      let o ← operand
      return o :: (← moreOperands n)
    else return []

def operands : Parser (List Operand) := do
  let first ← operand
  let rest ← moreOperands (← get).tokens.length
  return first :: rest

end Parser

def demand (b : Bool) : Except ParseError Unit :=
  if b then .ok () else .error .malformed

/-- What is given to an instruction by its operands; the first is a name. -/
def Form.arrange (f : Form) (os : List Operand) : Except ParseError (List Given) :=
  match f with
  | .constant _ =>
    match os with
    | [a, b] => do
      demand b.name.isNone
      return [a.givenName, b.givenNumber]
    | _ => .error .malformed
  | .zeroBranch _ => offset os
  | .jumpLink => offset os
  | .register _ =>
    match os with
    | [_] => .error .tooFew
    | [_, b] => do
      demand b.number.isNone
      throw .tooFew
    | a :: b :: c :: _ => do
      demand b.number.isNone
      demand c.number.isNone
      return [a.givenName, b.givenName, c.givenName]
    | [] => .error .malformed
  | .load _ => address os
  | .immediate _ => address os
  | .store _ => address os
  | .branch _ => farOffset os
  | .jumpLinkReg => farOffset os
  | .swappedBranch _ => farOffset os
  | .unary _ =>
    match os with
    | [a, b] => .ok [a.givenName, b.givenName]
    | _ => .error .malformed
  | .jump => .error (.unknownOperation f.name)
  | .plain _ => .error (.unknownOperation f.name)
where
  offset (os : List Operand) : Except ParseError (List Given) :=
    match os with
    | [a, b] => do
      demand (b.name.isNone || b.number.isNone)
      return [a.givenName, if b.name.isSome then b.givenName else b.givenNumber]
    | _ => .error .malformed
  address (os : List Operand) : Except ParseError (List Given) :=
    match os with
    | [a, b] => .ok [a.givenName, b.givenName, .number (b.number.getD 0)]
    | [a, b, c] => do
      demand c.name.isNone
      demand b.number.isNone
      return [a.givenName, b.givenName, .number (c.number.getD 0)]
    | _ => .error .malformed
  farOffset (os : List Operand) : Except ParseError (List Given) :=
    match os with
    | [a, b] =>
      match b.number with
      | some n => .ok [a.givenName, b.givenName, .number n]
      | none => .error .noOffset
    | [a, b, c] => do
      demand b.number.isNone
      demand (c.name.isNone || c.number.isNone)
      return [a.givenName, b.givenName, if c.name.isSome then c.givenName else c.givenNumber]
    | _ => .error .malformed

namespace Parser

def formOf (name : String) : Except ParseError (Option Form) :=
  match Form.ofName? name with
  | some f => .ok (some f)
  | none =>
    if name = "label" || name = "comment" then .ok none else .error (.unknownName name)

def make (r : Except BuildError Line) : Parser Line :=
  match r with
  | .ok l => pure l
  | .error e => throw (.building e)

def directive : Parser Line := do
  let name ← take symbol
  if let some () ← tryTake (token .newline) then return .directive name ""
  match (← operand).name with
  | some value => return .directive name value
  | none => throw .malformed

def labelOrInstr (name : String) : Parser Line := do
  if let some () ← tryTake (token .colon) then return .label name
  let form ← formOf name
  if let some () ← tryTake (token .newline) then
    match form with
    | some (.plain op) => return .instr (.plain op) none
    | _ => throw (.unknownOperation name)
  let os ← operands
  demand ((os.head?.bind Operand.number).isNone)
  match form with
  | some f => make (f.build (← f.arrange os))
  | none => throw (.unknownOperation name)

def line : Parser (Option Line) := do
  match ← look with
  | some .dot =>
    take (token .dot)
    some <$> directive
  | some (.symbol name) =>
    let _ ← take symbol
    some <$> labelOrInstr name
  | _ =>
    take (token .newline)
    return none

def lines (s : TokenStream) : List Line × Option ParseError :=
  match s.tokens with
  | [] => ([], s.ending.map ParseError.lexical)
  | _ :: _ =>
    match line s with
    | .error e => ([], some e)
    | .ok (l, rest) =>
      if rest.tokens.length < s.tokens.length then
        let (ls, e) := lines rest
        (l.toList ++ ls, e)
      else (l.toList, none)
termination_by s.tokens.length

end Parser

def parse (text : String) : List Line × Option ParseError :=
  let (tokens, ending) := tokens text.toList
  Parser.lines { tokens, ending }

end Practicum.Riscv
