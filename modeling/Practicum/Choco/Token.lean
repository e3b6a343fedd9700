/-!
# Tokens

A token has a kind, sometimes a value, and a place in the source. The place is kept in two
reckonings: the first edition counts lines and columns from one, the later editions keep the
zero-based column only. `Token.display` is the written form of a token in an edition.
-/

namespace Practicum.Choco

/-! ## Editions of the front end -/

inductive Edition where
  | first
  | second
  | third
  deriving DecidableEq, Repr

inductive TokenKind where
  | eof | newline | indent | dedent
  | kwClass | kwDef | kwGlobal | kwNonlocal | kwPass | kwReturn
  | identifier | integer | string
  | kwIf | kwElif | kwElse | kwWhile | kwFor | kwIn
  | plus | minus | times | floorDiv | modulo | assign
  | lparen | rparen | colon | lbracket | rbracket | comma | arrow
  | eq | ne | lt | gt | le | ge | is
  | none | true | false
  | or | and | not
  | object | int | bool | str
  deriving DecidableEq, Repr

def TokenKind.name : TokenKind → String
  | .eof => "EOF"
  | .newline => "NEWLINE"
  | .indent => "INDENT"
  | .dedent => "DEDENT"
  | .kwClass => "CLASS"
  | .kwDef => "DEF"
  | .kwGlobal => "GLOBAL"
  | .kwNonlocal => "NONLOCAL"
  | .kwPass => "PASS"
  | .kwReturn => "RETURN"
  | .identifier => "IDENTIFIER"
  | .integer => "INTEGER"
  | .string => "STRING"
  | .kwIf => "IF"
  | .kwElif => "ELIF"
  | .kwElse => "ELSE"
  | .kwWhile => "WHILE"
  | .kwFor => "FOR"
  | .kwIn => "IN"
  | .plus => "PLUS"
  | .minus => "MINUS"
  | .times => "MUL"
  | .floorDiv => "DIV"
  | .modulo => "MOD"
  | .assign => "ASSIGN"
  | .lparen => "LROUNDBRACKET"
  | .rparen => "RROUNDBRACKET"
  | .colon => "COLON"
  | .lbracket => "LSQUAREBRACKET"
  | .rbracket => "RSQUAREBRACKET"
  | .comma => "COMMA"
  | .arrow => "RARROW"
  | .eq => "EQ"
  | .ne => "NE"
  | .lt => "LT"
  | .gt => "GT"
  | .le => "LE"
  | .ge => "GE"
  | .is => "IS"
  | .none => "NONE"
  | .true => "TRUE"
  | .false => "FALSE"
  | .or => "OR"
  | .and => "AND"
  | .not => "NOT"
  | .object => "OBJECT"
  | .int => "INT"
  | .bool => "BOOL"
  | .str => "STR"

def TokenKind.all : List TokenKind :=
  [.eof, .newline, .indent, .dedent, .kwClass, .kwDef, .kwGlobal, .kwNonlocal, .kwPass, .kwReturn,
   .identifier, .integer, .string, .kwIf, .kwElif, .kwElse, .kwWhile, .kwFor, .kwIn, .plus, .minus,
   .times, .floorDiv, .modulo, .assign, .lparen, .rparen, .colon, .lbracket, .rbracket, .comma,
   .arrow, .eq, .ne, .lt, .gt, .le, .ge, .is, .none, .true, .false, .or, .and, .not, .object, .int,
   .bool, .str]

def TokenKind.ofName? (name : String) : Option TokenKind :=
  TokenKind.all.find? fun k => k.name == name

def keywords : List (String × TokenKind) :=
  [("class", .kwClass), ("def", .kwDef), ("global", .kwGlobal), ("nonlocal", .kwNonlocal),
   ("if", .kwIf), ("elif", .kwElif), ("else", .kwElse), ("while", .kwWhile), ("for", .kwFor),
   ("in", .kwIn), ("None", .none), ("True", .true), ("False", .false), ("pass", .kwPass),
   ("or", .or), ("and", .and), ("not", .not), ("is", .is), ("object", .object), ("int", .int),
   ("bool", .bool), ("str", .str), ("return", .kwReturn)]

def wordKind (word : String) : TokenKind :=
  (keywords.lookup word).getD .identifier

inductive TokenValue where
  | absent
  | word (spelling : String)
  | number (n : Nat)
  | text (contents : String)
  deriving DecidableEq, Repr

structure Position where
  line : Int
  column : Int
  deriving DecidableEq, Repr

structure Token where
  kind : TokenKind
  value : TokenValue
  position : Position
  column : Int
  deriving DecidableEq, Repr

def escapeChar : Char → List Char
  | '\\' => ['\\', '\\']
  | '\t' => ['\\', 't']
  | '\r' => ['\\', 'r']
  | '\n' => ['\\', 'n']
  | '"' => ['\\', '"']
  | c => [c]

def escape (s : String) : String :=
  String.ofList (s.toList.flatMap escapeChar)

def TokenValue.display? : TokenValue → Option String
  | .absent => none
  | .word s => some s
  | .number n => some (toString n)
  | .text s => some (escape s)

def Token.spelling (t : Token) : String :=
  match t.value with
  | .absent => ""
  | .word s => s
  | .number n => toString n
  | .text s => s

def Token.display (e : Edition) (t : Token) : String :=
  match e, t.value.display? with
  | .first, none => t.kind.name
  | .first, some v => t.kind.name ++ ":" ++ v
  | _, none =>
    if t.column < 0 then t.kind.name else t.kind.name ++ ":" ++ toString t.column
  | _, some v => t.kind.name ++ ":" ++ v ++ "," ++ toString t.column

end Practicum.Choco
