import Practicum.Choco.Parser.Early
import Practicum.Choco.Parser.Standard

/-!
# Parsing a text

`parseProgram` gives the syntax tree of a text in an edition, and `ParseError.fault` says how an
edition reports that there is none: the first prints the error with the line it stands in and
exits; the later ones raise it.
-/

namespace Practicum.Choco

def LexError.fault (e : LexError) : Fault :=
  match e with
  | .mismatchedIndent => .exit 1 (e.message ++ "\n")
  | .unknownEscape _ => .exit 1 (e.message ++ "\n")
  | .notPrintable _ => .exit 1 (e.message ++ "\n")
  | .unterminatedString => .wrongKind
  | .notANumber _ => .badValue
  | .unknownLexeme _ => .refused e.message
  | .invalidCharacter _ => .refused e.message

def sourceLines (source : String) : List String :=
  let pieces := source.splitOn "\n"
  if pieces.getLast? = some "" then pieces.dropLast else pieces

def sourceLine? (source : String) (number : Int) : Option String :=
  let lines := sourceLines source
  let i := if 0 < number then number - 1 else number - 1 + lines.length
  if i < 0 then none else lines[i.toNat]?

def ParseError.fault (source : String) : ParseError → Fault
  | .lexical e => e.fault
  | .classDefinition => .broken "Classes not yet supported"
  | .singletonRun => .broken "List of tokens expected"
  | .rejected place causes =>
    match sourceLine? source place.line with
    | none => .outOfRange
    | some line =>
      let report := fun cause =>
        SyntaxError.report { cause, line, row := place.line - 1, column := place.column - 1 } ++ "\n"
      .exit 0 (String.join (causes.map report))
  | .conditionless => .unassigned
  | .misplaced e => .ungrammatical e.row e.column e.report
  | .tooDeep => .broken ""

def parseProgram (edition : Edition) (source : String) : Except ParseError Node :=
  match edition with
  | .first => Parser.parse Early.program source
  | _ => Parser.parse Standard.program source

end Practicum.Choco
