import Practicum.Choco.Parser.Report
import Practicum.Compiler.Pass

/-!
# The compiler as a command

The command compiles chunks of source text one after the other and prints each result. The first
edition reports every error on its output, the later ones those that concern the source.
-/

namespace Practicum.Compiler

/-!
## Selections of passes

A command asks for passes by one text: `all`, the short name of a stage, which asks for all passes
up to it, or names divided by commas. The search for dead code takes part only if it is asked for.
-/

open Choco

inductive SelectionError where
  | unknownPass (name : String)
  deriving DecidableEq, Repr

def SelectionError.fault : SelectionError → Fault
  | .unknownPass name => .refused ("Unrecognized pass: " ++ name)

namespace Pass

def offered (edition : Edition) : List Pass :=
  (all edition).eraseDups

def deadCodeSearch : Pass := .analysis .deadCode

def lastOfStage? (edition : Edition) (stage : String) : Option Pass :=
  match stage with
  | "type" => some (.analysis .types)
  | "warn" => some deadCodeSearch
  | _ =>
    if edition ≠ .third then none
    else
      match stage with
      | "ir" => some .flatten
      | "fold" => some .foldConstants
      | "dead" => some .deadCode
      | "iropt" => some .forLoops
      | "riscv" => some .toMachine
      | _ => none

def upTo (last : Pass) : List Pass → List Pass
  | [] => []
  | p :: ps => if p = last then [p] else p :: upTo last ps

def named (edition : Edition) (name : String) : Except SelectionError Pass :=
  match (offered edition).find? fun p => p.name == name with
  | some p => .ok p
  | none => .error (.unknownPass name)

def select (edition : Edition) (text : String) : Except SelectionError (List Pass) :=
  if edition = .first then .ok []
  else if text = "all" then .ok ((offered edition).filter (· ≠ deadCodeSearch))
  else
    match lastOfStage? edition text with
    | some last =>
      let passes := offered edition
      .ok (upTo last (if last = deadCodeSearch then passes
        else passes.filter (· ≠ deadCodeSearch)))
    | none => ((text.splitOn ",").filter (· ≠ "")).mapM (named edition)

end Pass

open Choco

def lexReport (e : LexError) : String :=
  match e with
  | .unterminatedString => "ord() expected a character, but string of length 0 found"
  | .notANumber text =>
    if (text.toList.mapM Text.digitValue?).isSome then
      "Exceeds the limit (" ++ toString Text.maxDecimalDigits
        ++ " digits) for integer string conversion: value has " ++ toString text.length
        ++ " digits; use sys.set_int_max_str_digits() to increase the limit"
    else "invalid literal for int() with base 10: " ++ Text.quote text
  | e => e.message

def parseReport : ParseError → String
  | .lexical e => lexReport e
  | .classDefinition => "Classes not yet supported"
  | .singletonRun => "List of tokens expected"
  | .rejected .. => "list index out of range"
  | .conditionless => "cannot access local variable 'cond' where it is not associated with a value"
  | .misplaced e => e.report
  | .tooDeep => ""

inductive Failure where
  | parsing (e : ParseError) (source : String)
  | pass (e : PassError)
  | violation (f : Fault) (text : String)
  | unknownTarget (name : String)
  | printing (f : Fault)

def Failure.outcome (edition : Edition) (printed : String) (failure : Failure) : Outcome :=
  let report (line : String) : Outcome :=
    { printed := printed ++ line ++ "\n", fault := some (.exit 0 "") }
  let inLater (f : Fault) (early : String) : Outcome :=
    match edition, f with
    | .first, .exit code last => .failing printed (.exit code last)
    | .first, _ => report early
    | _, .ungrammatical _ _ message => report message
    | _, .meaningless message => report ("Semantic error: " ++ message)
    | _, f => .failing printed f
  match failure with
  | .parsing e source => inLater (e.fault source) (parseReport e)
  | .pass (.fault f) => inLater f ""
  | .pass (.warning w) => report ("[Warning] Dead code found: " ++ w.message)
  | .violation f text => inLater f text
  | .unknownTarget name => inLater .unknownKey (Text.quote name)
  | .printing f => inLater f ""

def targetText (edition : Edition) (name : String) (p : Program) : Except Failure String :=
  if name = "tree" then .ok p.treeText
  else if name = "riscv" && edition = .third then p.assemblyText.mapError Failure.printing
  else .error (.unknownTarget name)

def violationText : Fault → String
  | .refused message => message
  | .illFormed message => message
  | .broken message => message
  | _ => ""

def verifyProgram (p : Program) : Except Failure Unit :=
  p.verify.mapError fun f => .violation f (violationText f)

def runPasses (edition : Edition) (w : Workspace) (passes : List Pass) :
    Except Failure Workspace := do
  verifyProgram w.program
  passes.foldlM (fun w p => do
    let w ← (p.run edition w).mapError Failure.pass
    verifyProgram w.program
    return w) w

def compileChunk (edition : Edition) (passes : List Pass) (target : String)
    (literals : Flat.SharedLiterals.Table) (source : String) :
    Except Failure (String × Flat.SharedLiterals.Table) := do
  let n ← (parseProgram edition source).mapError fun e => .parsing e source
  let w ← runPasses edition { program := .tree [n], literals } passes
  return (← targetText edition target w.program, w.literals)

def divider : String := "// -----\n"

def compileFrom (edition : Edition) (passes : List Pass) (target : String) (printed : String)
    (literals : Flat.SharedLiterals.Table) : List String → Outcome
  | [] => { printed }
  | source :: rest =>
    match compileChunk edition passes target literals source with
    | .error failure => failure.outcome edition printed
    | .ok (text, literals) =>
      let printed := printed ++ text
      let printed := if rest.isEmpty then printed else printed ++ divider
      compileFrom edition passes target printed literals rest

def compileCommand (edition : Edition) (passes target : String) (chunks : List String) : Outcome :=
  match Pass.select edition passes with
  | .error e => .failing "" e.fault
  | .ok selected => compileFrom edition selected target "" [] chunks

end Practicum.Compiler
