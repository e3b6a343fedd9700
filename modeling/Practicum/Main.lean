import Practicum.Choco.Token.Listing
import Practicum.Compiler.Command
import Practicum.Riscv.Command

/-! # The command line -/

namespace Practicum.CommandLine

open Choco Compiler

def edition? : String → Option Edition
  | "1" => some .first
  | "2" => some .second
  | "3" => some .third
  | _ => none

def outcome? (arguments : List String) (source : String) : Option Outcome :=
  match arguments with
  | ["compile", edition, passes, target] =>
    (edition? edition).map fun e => compileCommand e passes target [source]
  | "assembly" :: rest => some (Riscv.command rest source)
  | ["tokens"] => some (Riscv.listTokens source)
  | _ => none

def usage : String :=
  "usage: practicum compile EDITION PASSES TARGET | assembly ARGUMENTS | tokens\n"

def exitCode (o : Outcome) : UInt32 :=
  match o.fault with
  | none => 0
  | some (.exit code _) => UInt32.ofNat code.toNat
  | some _ => 1

partial def readLines (input : IO.FS.Stream) (before : String) : IO String := do
  let line ← input.getLine
  if line.isEmpty then return before
  readLines input (before ++ line)

end Practicum.CommandLine

open Practicum.CommandLine in
def main (arguments : List String) : IO UInt32 := do
  let source ← readLines (← IO.getStdin) ""
  match outcome? arguments source with
  | some o =>
    IO.print o.printed
    return exitCode o
  | none =>
    IO.eprint usage
    return 2
