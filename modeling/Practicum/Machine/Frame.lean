import Practicum.IR.Editing
import Practicum.Riscv.Runtime

/-!
# Stack frames

Every value of a function gets a slot in the frame of the function. An instruction loads the values
it reads into registers, computes, and stores its result into the slot. The frame holds from below
the slots of the values, the memory that the function allocates on the stack, and the return
address. The main function leaves its frame pointer in a register, so that other functions can read
its values.
-/

namespace Practicum.Machine

open IR Riscv Register Assembly

structure Frame where
  slots : List Nat
  allocs : List Nat
  deriving Repr

def body? (f : Op) : Option Block :=
  match f.flat?, f.machine?, f.regions with
  | some (.funcDef ..), _, b :: _ => some b
  | _, some (.func _), b :: _ => some b
  | _, _, _ => none

def funcName (f : Op) : String :=
  match f.flat?, f.machine? with
  | some (.funcDef name _), _ => name
  | _, some (.func name) => name
  | _, _ => ""

def isFunc (o : Op) : Bool :=
  match o.machine? with
  | some (.func _) => true
  | _ => false

namespace Frame

def ofBody (b : Block) : Frame :=
  { slots := (b.args ++ b.ops.flatMap Op.results).map Val.id
    allocs := (b.ops.filter fun o => o.machine? == some .alloc).map Op.id }

def slotBytes (f : Frame) : Int :=
  4 * f.slots.length

def allocBytes (f : Frame) : Int :=
  4 * f.allocs.length

def allocOffset (f : Frame) (id : Nat) : Int :=
  4 * (f.allocs.idxOf id + f.slots.length)

end Frame

def maxOffset : Int := 4096

def slotOffset (pos : Nat) : Except Fault Int :=
  if 4 * (pos : Int) > maxOffset then
    .error (.unsupported "Register allocator is not working for more than 128 variables.")
  else .ok (4 * pos)

/-- What a function can read: its own frame and, outside the main function, that of main. -/
structure Access where
  own : Frame
  main : Option Frame

namespace Access

def fetch (a : Access) (v : Option Val) (rd : Register) : Except Fault Line :=
  let note := "Unspill register '%'"
  match v.bind fun v => a.own.slots.idxOf? v.id with
  | some pos => do return lw rd sp (← slotOffset pos) note
  | none =>
    match v.bind fun v => a.main.bind fun f => f.slots.idxOf? v.id with
    | some pos => do return lw rd tp (← slotOffset pos) note
    | none => .error (.refused "Critical error in riscv variable allocator.")

def spill (a : Access) (rs : Register) (v : Val) : Except Fault Line :=
  match a.own.slots.idxOf? v.id with
  | some pos => do return sw rs sp (← slotOffset pos) "Spill register"
  | none => .error .unknownKey

def fetchArgs (a : Access) : Nat → List Val → Except Fault (List Line)
  | _, [] => .ok []
  | k, v :: vs =>
    match argument? k with
    | some r => do
      let line ← a.fetch (some v) r
      return line :: (← a.fetchArgs (k + 1) vs)
    | none => .error (.broken "")

def spillArgs (a : Access) : Nat → List Val → Except Fault (List Line)
  | _, [] => .ok []
  | k, v :: vs =>
    match argument? k with
    | some r => do
      let line ← a.spill r v
      return line :: (← a.spillArgs (k + 1) vs)
    | none => .error (.broken "")

def systemCall (a : Access) (o : Op) : Except Fault (List Line) := do
  let number ← a.fetch o.operands.head? a7
  return number :: (← a.fetchArgs 0 o.operands.tail) ++ [ecall]

def funcCall (a : Access) (func : String) (o : Op) : Except Fault (List Line) := do
  let args ← a.fetchArgs 0 o.operands
  let result ← o.results.mapM (a.spill a0)
  return [blank, remark o.code.name] ++ args ++ [call func] ++ result

def stackMemory (a : Access) (o : Op) : Except Fault (List Line) := do
  let spills ← o.results.mapM (a.spill t0)
  return addi t0 sp (a.own.allocOffset o.id) "Save ptr of stack-slot into register" :: spills

def leave (a : Access) (func : String) (o : Op) : Except Fault (List Line) := do
  return [← a.fetch o.operands.head? a0, jump ("_" ++ func ++ "_return")]

end Access

/-- The instruction of an operation with its operands in `t1` and `t2` and its result in `t0`. -/
def instruction? (code : MachineCode) (note : Option String) : Option Line :=
  match code with
  | .load op offset => some (.instr (.load op t0 t1 offset) note)
  | .store op offset => some (.instr (.store op t1 t2 offset) note)
  | .immediate op value => some (.instr (.immediate op t0 t1 value) note)
  | .register op => some (.instr (.register op t0 t1 t2) note)
  | .constant op value => some (.instr (.constant op t0 value) note)
  | .branch op target => some (.instr (.branch op t1 t2 target) note)
  | .jump target => some (.instr (.jump target) note)
  | .labelConstant op name =>
    some (.instr (.misfit (Mnemonic.text op)
      [("rd", .register t0), ("immediate", .target (.label name))]) note)
  | .jumpLink value =>
    some (.instr (.misfit "jal" [("rd", .register t0), ("immediate", .target value)]) note)
  | .jumpLinkReg value =>
    some (.instr (.misfit "jalr"
      [("rd", .register t0), ("rs1", .register t1), ("immediate", .target value)]) note)
  | .ebreak => some (.instr (.plain .ebreak) note)
  | .label name => some (.label name)
  | _ => none

def lower (a : Access) (func : String) (o : Op) : Except Fault (Option (List Line)) :=
  match o.code with
  | .machine .ecall _ => some <$> a.systemCall o
  | .machine (.call callee) _ => some <$> a.funcCall callee o
  | .machine .alloc _ => some <$> a.stackMemory o
  | .machine .ret _ => some <$> a.leave func o
  | .machine code note =>
    match instruction? code note with
    | some line => do
      let loads ← (o.operands.zip [t1, t2]).mapM fun (v, r) => a.fetch (some v) r
      let spills ← o.results.mapM (a.spill t0)
      return some ([blank, remark o.code.name] ++ loads ++ [line] ++ spills)
    | none => return none
  | _ => return none

/-- The lines on entering a function: make room for the frame and store the arguments. -/
def header (a : Access) (args : List Val) : Except Fault (List Line) := do
  let reserve :=
    [addi sp sp (-4) "Reserve space for ra",
      sw ra sp 0 "Store return address",
      addi sp sp (-a.own.slotBytes) "Reserve stack space for spilled registers"]
  let reserveMemory :=
    if a.own.allocs.isEmpty then []
    else [addi sp sp (-a.own.allocBytes) "Reserve stack space for stack-allocated memory"]
  let publish :=
    if a.main.isNone then [mv tp sp "Move main stack pointer to special register"] else []
  return reserve ++ reserveMemory ++ publish ++ (← a.spillArgs 0 args)

def footer (a : Access) (func : String) : List Line :=
  [blank, remark "Footer Ops", label ("_" ++ func ++ "_return"),
    addi sp sp a.own.slotBytes "Free stack space reserved for spilled registers"]
  ++ (if a.own.allocs.isEmpty then []
    else [addi sp sp a.own.allocBytes "Free stack space reserved for stack-allocated memory"])
  ++ [lw ra sp 0 "Store return address", addi sp sp 4 "Free space for ra"]

abbrev Assemble := StateT Nat (Except Fault)

instance : Fresh Assemble where
  fresh := modifyGet fun n => (n, n + 1)

def placeLines (lines : List Line) : Assemble (List Op) :=
  lines.mapM fun l => Op.make (.line l) [] []

/-- The body of a function with its lines in the place of its operations. The last operation is
looked at first. -/
def assembleBody (a : Access) (func : String) (b : Block) (last : List Line) :
    Assemble Block := do
  let first ← header a b.args
  let lowered ← b.ops.reverse.mapM fun o => return (o, ← lower a func o)
  let ops ← lowered.reverse.mapM fun (o, lines?) =>
    match lines? with
    | some lines => placeLines lines
    | none => return [o]
  return .mk b.args
    ((← placeLines first) ++ ops.flatten ++ (← placeLines (footer a func ++ last)))

def assembleFunc (main : Frame) (f : Op) : Assemble Op := do
  match body? f with
  | some b =>
    let a : Access := { own := .ofBody b, main := some main }
    let body ← assembleBody a (funcName f) b [ret]
    return f.withRegions (body :: f.regions.tail)
  | none => return f

def functionsLast (ops : List Op) : List Op :=
  ops.filter (fun o => !isFunc o) ++ ops.filter isFunc

def assemble (m : Module) : Except Fault Module :=
  match m.ops with
  | [main] =>
    match body? main with
    | some b => do
      let frame := Frame.ofBody b
      let build : Assemble (List Op) := do
        let ops ← b.ops.mapM fun o => if isFunc o then assembleFunc frame o else return o
        let a : Access := { own := frame, main := none }
        let body ← assembleBody a (funcName main) (.mk b.args ops) (Runtime.exit 0)
        let body := Block.mk body.args (functionsLast body.ops)
        return main.withRegions (body :: main.regions.tail)
          :: (← placeLines Runtime.library)
      let (ops, next) ← build.run m.next
      return { m with ops, next }
    | none => .error .noSuchPart
  | _ => .error (.broken "expected at least one main function")

end Practicum.Machine

/-!
## One sequence of lines

The functions of a program are laid out one after the other, each behind its label, and the program
starts by a jump to the main function.
-/

namespace Practicum.Machine.Layout

open IR Riscv

def unfold (o : Op) (regions : List Block) : List Op :=
  match o.machine?, regions with
  | some (.func name), .mk _ body :: _ => .mk o.id (.line (.label name)) [] [] [] :: body
  | _, _ => [o.withRegions regions]

mutual

def flatten (o : Op) : List Op :=
  match o with
  | .mk _ _ _ _ regions => unfold o (flattenRegions regions)

def flattenAll : List Op → List Op
  | [] => []
  | o :: os => flatten o ++ flattenAll os

def flattenRegions : List Block → List Block
  | [] => []
  | .mk args ops :: bs => .mk args (flattenAll ops) :: flattenRegions bs

end

def run (m : Module) : Except Fault Module :=
  match flattenAll m.ops with
  | [] => .error .badValue
  | o :: os =>
    let start : Op := .mk m.next (.line (Assembly.call "_main")) [] [] []
    .ok { m with ops := start :: o :: os, next := m.next + 1 }

end Practicum.Machine.Layout
