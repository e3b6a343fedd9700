import Practicum.Riscv.Parser

/-! # Reading and writing assembly as a command -/

namespace Practicum.Riscv

namespace Line

def beginning : Line → String
  | .instr i _ => "\t" ++ i.mnemonic
  | _ => ""

def printAll (printed : String) : List Line → Outcome
  | [] => { printed }
  | l :: ls =>
    match l.text? with
    | some s => printAll (printed ++ s) ls
    | none => .failing (printed ++ l.beginning) .noSuchPart

end Line

inductive Format where
  | assembly
  | names
  deriving DecidableEq, Repr

def printProgram (format : Format) (ls : List Line) : Outcome :=
  match format with
  | .names => { printed := String.join (ls.map fun l => l.name ++ "\n\n") }
  | .assembly =>
    let o := Line.printAll prologue ls
    if o.fault.isNone then { printed := o.printed ++ epilogue } else o

def reprint (format : Format) (text : String) : Outcome :=
  match parse text with
  | (ls, none) => printProgram format ls
  | (_, some e) => .failing "" e.fault

inductive Request where
  | run
  | help
  | refuse
  deriving DecidableEq, Repr

def abbreviates (short long : String) : Bool :=
  3 ≤ short.length && short.toList.isPrefixOf long.toList

/-- What the options of the command ask for, one after the other. A wrong value is refused at once,
an unknown option, and what stands behind the end of the options, only when all others have been
looked at. Other letters may follow the short form of the help option, but neither a value nor
another option. -/
def requestOf (unknown : Bool) : List String → Request
  | [] => if unknown then .refuse else .run
  | "--" :: _ => .refuse
  | arg :: rest =>
    let name := String.ofList (arg.toList.takeWhile (· ≠ '='))
    let value := arg.toList.dropWhile (· ≠ '=')
    if "-h".toList.isPrefixOf arg.toList then
      match arg.toList.tail.dropWhile (· = 'h') with
      | '=' :: _ => .refuse
      | '-' :: _ => .refuse
      | _ => .help
    else if abbreviates name "--help" then if value.isEmpty then .help else .refuse
    else if abbreviates name "--format" then
      match value, rest with
      | [], "asm" :: rest => requestOf unknown rest
      | [], _ => .refuse
      | _ :: v, rest => if String.ofList v = "asm" then requestOf unknown rest else .refuse
    else requestOf true rest

def isAmbiguous (arg : String) : Bool :=
  "--=".toList.isPrefixOf arg.toList

def request (words : List String) : Request :=
  if (words.takeWhile (· ≠ "--")).any isAmbiguous then .refuse
  else if words = ["--"] then .run
  else requestOf false words

def helpText : String :=
  "usage: parser.py [-h] [--format \x7basm\x7d] file\n\nA RISC-V interpreter\n\n"
    ++ "positional arguments:\n  file\n\noptions:\n"
    ++ "  -h, --help      show this help message and exit\n  --format \x7basm\x7d\n"

def command (options : List String) (file : String) : Outcome :=
  match request options with
  | .help => { printed := helpText, fault := some (.exit 0 "") }
  | .refuse => { printed := "", fault := some (.exit 2 "") }
  | .run => reprint .assembly (Text.normalizeNewlines file)

end Practicum.Riscv
