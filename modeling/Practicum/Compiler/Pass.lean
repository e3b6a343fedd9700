import Practicum.Choco.Analysis
import Practicum.Choco.Node.Verify
import Practicum.Flat.Folding
import Practicum.Flat.OfTree
import Practicum.Flat.Tidying
import Practicum.Flat.Verify
import Practicum.IR.Op.Outline
import Practicum.Machine.Frame
import Practicum.Machine.OfFlat

/-! # Passes -/

namespace Practicum.Compiler

/-! ## Programs being compiled -/

open Choco IR

inductive Program where
  | tree (ns : List Node)
  | code (m : Module)

namespace Program

def outlines : Program → List Outline
  | .tree ns => Node.outlines ns
  | .code m => Op.outlines m.ops

def ofOutlines? (os : List Outline) : Option Program :=
  (Program.tree <$> Node.ofOutlines? os) <|> (Program.code <$> Module.ofOutlines? os)

def rootName : String := "builtin.module"

def names : Program → List String
  | .tree ns => rootName :: (Node.walkAll ns).map Node.kind
  | .code m => rootName :: m.walk.map fun o => o.code.name

def hints : Program → List (String × Ty)
  | .tree ns => (Node.walkAll ns).filterMap fun n => n.hint?.map fun t => (n.kind, t)
  | .code _ => []

def verify : Program → Except Fault Unit
  | .tree ns => (Node.verifyAll ns).mapError fun v => v.fault
  | .code m => (Flat.verify m).mapError fun v => v.fault

def assemblyText : Program → Except Fault String
  | .tree ns => Riscv.programText (ns.map fun n => .error (Riscv.unprintable n.kind))
  | .code m => Riscv.programText (m.ops.map fun o =>
      match o.code with
      | .line l => l.text
      | other => .error (Riscv.unprintable other.name))

mutual

def listing (indent : Nat) : Outline → List String
  | .mk name _ _ _ regions =>
    (String.join (List.replicate indent "  ") ++ name ++ "\n") :: listingRegions (indent + 1) regions

def listingAll (indent : Nat) : List Outline → List String
  | [] => []
  | o :: os => listing indent o ++ listingAll indent os

def listingRegions (indent : Nat) : List OutlineBlock → List String
  | [] => []
  | .mk _ ops :: bs => listingAll indent ops ++ listingRegions indent bs

end

def treeText (p : Program) : String :=
  String.join ((rootName ++ "\n") :: listingAll 1 p.outlines)

end Program

open Choco IR

inductive Pass where
  | analysis (a : Analysis)
  | flatten
  | libraryCalls
  | shareLiterals
  | foldConstants
  | unusedStores
  | deadCode
  | forLoops
  | toMachine
  | assemble
  | layOut
  deriving DecidableEq, Repr

namespace Pass

def name : Pass → String
  | .analysis .assignTarget => "check-assign-target"
  | .analysis .names => "name-analysis"
  | .analysis .types => "type-checking"
  | .analysis .deadCode => "warn-dead-code"
  | .flatten => "choco-ast-to-choco-flat"
  | .libraryCalls => "choco-flat-introduce-library-calls"
  | .shareLiterals => "choco-flat-dupe-elimination"
  | .foldConstants => "choco-flat-constant-folding"
  | .unusedStores => "choco-unused-store-elimination"
  | .deadCode => "choco-flat-dead-code-elimination"
  | .forLoops => "for-to-while"
  | .toMachine => "choco-flat-to-riscv-ssa"
  | .assemble => "riscv-ssa-to-riscv"
  | .layOut => "riscv-function-lowering"

def title : Pass → String
  | .analysis .assignTarget => "CheckAssignTargetPass"
  | .analysis .names => "NameAnalysis"
  | .analysis .types => "TypeChecking"
  | .analysis .deadCode => "WarnDeadCode"
  | .flatten => "ChocoASTToChocoFlat"
  | .libraryCalls => "ChocoFlatIntroduceLibraryCalls"
  | .shareLiterals => "ChocoFlatDupeElimination"
  | .foldConstants => "ChocoFlatConstantFolding"
  | .unusedStores => "ChocoUnusedStoreElimination"
  | .deadCode => "ChocoFlatDeadCodeElimination"
  | .forLoops => "ForToWhile"
  | .toMachine => "ChocoFlatToRISCVSSA"
  | .assemble => "RISCVSSAToRISCV"
  | .layOut => "RISCVFunctionLowering"

def analyses : List Pass :=
  [.analysis .assignTarget, .analysis .names, .analysis .types, .analysis .deadCode]

def all : Edition → List Pass
  | .first => []
  | .second => analyses
  | .third => analyses ++ [.flatten, .libraryCalls, .shareLiterals, .foldConstants, .shareLiterals,
      .deadCode, .forLoops, .toMachine, .assemble, .layOut]

/-- The pass of an edition with a name. The elimination of unused stores can be asked for although
it is not among the passes in their order. -/
def ofName? (edition : Edition) (s : String) : Option Pass :=
  let offered := if edition = .third then all edition ++ [.unusedStores] else all edition
  offered.find? fun p => p.name == s

end Pass

structure Workspace where
  program : Program
  literals : Flat.SharedLiterals.Table := []

namespace Analysis

def stumbles (a : Analysis) (code : FlatCode) : Bool :=
  match a, code with
  | .assignTarget, .assign => true
  | .names, .funcDef .. => true
  | .names, .call _ => true
  | .names, .forEach => true
  | _, _ => false

def runOnCode (a : Analysis) (m : Module) : Except Fault Unit :=
  match a with
  | .types => .error (.broken "")
  | .deadCode => .error (.broken "")
  | a =>
    if m.walk.any fun o => (o.flat?.map (stumbles a)).getD false then .error .noSuchPart
    else .ok ()

end Analysis

namespace Pass

def onCode (f : Module → Except Fault Module) (p : Program) : Except PassError Program :=
  match p with
  | .tree ns => .ok (.tree ns)
  | .code m => (f m).map Program.code |>.mapError PassError.fault

def stop {α : Type} (f : Fault) : Except PassError α :=
  .error (.fault f)

/-- Assemble a program; a syntax tree has no main function to start from. -/
def assembleProgram : Program → Except PassError Program
  | .tree [_] => stop .noSuchPart
  | .tree _ => stop (.broken "expected at least one main function")
  | .code m => onCode Machine.assemble (.code m)

def shareLiteralsOf (w : Workspace) : Except PassError Workspace :=
  match w.program with
  | .tree _ => stop (.refused "No main function found")
  | .code m =>
    match Flat.SharedLiterals.run w.literals m with
    | .ok (m, literals) => .ok { program := .code m, literals }
    | .error f => stop f

def flattenProgram : Program → Except PassError Program
  | .tree ns => (Flat.ofTree ns).map Program.code |>.mapError fun e => .fault e.fault
  | .code _ => stop (.broken "")

def analyse (edition : Edition) (a : Analysis) : Program → Except PassError Program
  | .tree ns => Program.tree <$> a.run edition ns
  | .code m => (fun _ => .code m) <$> (Analysis.runOnCode a m).mapError PassError.fault

def layOutProgram : Program → Except PassError Program
  | .tree [] => stop .badValue
  | p => onCode Machine.Layout.run p

def run (edition : Edition) (w : Workspace) (p : Pass) : Except PassError Workspace :=
  let on (f : Program → Except PassError Program) : Except PassError Workspace := do
    return { w with program := ← f w.program }
  match p with
  | .analysis a => on (analyse edition a)
  | .flatten => on flattenProgram
  | .libraryCalls => on (onCode Flat.LibraryCalls.run)
  | .shareLiterals => shareLiteralsOf w
  | .foldConstants => on (onCode Flat.Folding.run)
  | .unusedStores => on (onCode Flat.UnusedStore.run)
  | .deadCode => on (onCode Flat.DeadCode.run)
  | .forLoops => on (onCode Flat.ForLoop.run)
  | .toMachine => on (onCode Machine.ofFlat)
  | .assemble => on assembleProgram
  | .layOut => on layOutProgram

end Pass

end Practicum.Compiler
