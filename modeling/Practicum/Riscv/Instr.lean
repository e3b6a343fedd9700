import Practicum.IR.Outline

/-! # Instructions -/

namespace Practicum.Riscv

/-! ## Mnemonics -/

class Mnemonic (α : Type) where
  text : α → String
  all : List α

def Mnemonic.ofText? {α : Type} [Mnemonic α] (s : String) : Option α :=
  (all : List α).find? fun m => text m == s

inductive LoadOp where
  | lb | lbu | lh | lhu | lw
  deriving DecidableEq, Repr

instance : Mnemonic LoadOp where
  text
    | .lb => "lb"
    | .lbu => "lbu"
    | .lh => "lh"
    | .lhu => "lhu"
    | .lw => "lw"
  all := [.lb, .lbu, .lh, .lhu, .lw]

inductive StoreOp where
  | sb | sh | sw
  deriving DecidableEq, Repr

instance : Mnemonic StoreOp where
  text
    | .sb => "sb"
    | .sh => "sh"
    | .sw => "sw"
  all := [.sb, .sh, .sw]

inductive BranchOp where
  | beq | bne | blt | bge | bltu | bgeu
  deriving DecidableEq, Repr

instance : Mnemonic BranchOp where
  text
    | .beq => "beq"
    | .bne => "bne"
    | .blt => "blt"
    | .bge => "bge"
    | .bltu => "bltu"
    | .bgeu => "bgeu"
  all := [.beq, .bne, .blt, .bge, .bltu, .bgeu]

inductive SwappedBranchOp where
  | bgt | ble | bgtu | bleu
  deriving DecidableEq, Repr

instance : Mnemonic SwappedBranchOp where
  text
    | .bgt => "bgt"
    | .ble => "ble"
    | .bgtu => "bgtu"
    | .bleu => "bleu"
  all := [.bgt, .ble, .bgtu, .bleu]

inductive ZeroBranchOp where
  | beqz | bnez | blez | bgez | bltz | bgtz
  deriving DecidableEq, Repr

instance : Mnemonic ZeroBranchOp where
  text
    | .beqz => "beqz"
    | .bnez => "bnez"
    | .blez => "blez"
    | .bgez => "bgez"
    | .bltz => "bltz"
    | .bgtz => "bgtz"
  all := [.beqz, .bnez, .blez, .bgez, .bltz, .bgtz]

inductive RegOp where
  | sll | srl | sra | add | sub | xor | or | and | slt | sltu
  | mul | mulh | mulhsu | mulhu | div | divu | rem | remu
  deriving DecidableEq, Repr

instance : Mnemonic RegOp where
  text
    | .sll => "sll"
    | .srl => "srl"
    | .sra => "sra"
    | .add => "add"
    | .sub => "sub"
    | .xor => "xor"
    | .or => "or"
    | .and => "and"
    | .slt => "slt"
    | .sltu => "sltu"
    | .mul => "mul"
    | .mulh => "mulh"
    | .mulhsu => "mulhsu"
    | .mulhu => "mulhu"
    | .div => "div"
    | .divu => "divu"
    | .rem => "rem"
    | .remu => "remu"
  all := [.sll, .srl, .sra, .add, .sub, .xor, .or, .and, .slt, .sltu, .mul, .mulh, .mulhsu, .mulhu,
    .div, .divu, .rem, .remu]

inductive ImmOp where
  | slli | srli | srai | addi | xori | ori | andi | slti | sltiu
  deriving DecidableEq, Repr

instance : Mnemonic ImmOp where
  text
    | .slli => "slli"
    | .srli => "srli"
    | .srai => "srai"
    | .addi => "addi"
    | .xori => "xori"
    | .ori => "ori"
    | .andi => "andi"
    | .slti => "slti"
    | .sltiu => "sltiu"
  all := [.slli, .srli, .srai, .addi, .xori, .ori, .andi, .slti, .sltiu]

inductive ConstOp where
  | lui | auipc | li
  deriving DecidableEq, Repr

instance : Mnemonic ConstOp where
  text
    | .lui => "lui"
    | .auipc => "auipc"
    | .li => "li"
  all := [.lui, .auipc, .li]

inductive UnaryOp where
  | mv | not | neg | negw | seqz | snez | sltz | sgtz
  deriving DecidableEq, Repr

instance : Mnemonic UnaryOp where
  text
    | .mv => "mv"
    | .not => "not"
    | .neg => "neg"
    | .negw => "negw"
    | .seqz => "seqz"
    | .snez => "snez"
    | .sltz => "sltz"
    | .sgtz => "sgtz"
  all := [.mv, .not, .neg, .negw, .seqz, .snez, .sltz, .sgtz]

inductive PlainOp where
  | ecall | ebreak | nop | ret
  deriving DecidableEq, Repr

instance : Mnemonic PlainOp where
  text
    | .ecall => "ecall"
    | .ebreak => "ebreak"
    | .nop => "nop"
    | .ret => "ret"
  all := [.ecall, .ebreak, .nop, .ret]

open IR (Attr Outline)

/-- A number in an instruction, with the width of the word it is meant for. -/
structure Immediate where
  value : Int
  width : Nat := 64
  deriving DecidableEq, Repr

inductive Target where
  | distance (d : Immediate)
  | label (name : String)
  deriving DecidableEq, Repr

inductive Slot where
  | register (r : Register)
  | target (t : Target)
  | stray (shown : String)
  deriving DecidableEq, Repr

inductive Instr where
  | load (op : LoadOp) (rd base : Register) (offset : Immediate)
  | store (op : StoreOp) (source base : Register) (offset : Immediate)
  | immediate (op : ImmOp) (rd rs : Register) (value : Immediate)
  | register (op : RegOp) (rd rs1 rs2 : Register)
  | constant (op : ConstOp) (rd : Register) (value : Immediate)
  | unary (op : UnaryOp) (rd rs : Register)
  | branch (op : BranchOp) (rs1 rs2 : Register) (target : Target)
  | swappedBranch (op : SwappedBranchOp) (rs rt : Register) (target : Target)
  | zeroBranch (op : ZeroBranchOp) (rs : Register) (target : Target)
  | jump (target : Target)
  | jumpLink (rd : Register) (target : Target)
  | jumpLinkReg (rd rs : Register) (target : Target)
  | plain (op : PlainOp)
  /-- An instruction with something in a place where it takes no such operand; it has no written
  form. -/
  | misfit (name : String) (slots : List (String × Slot))
  deriving DecidableEq, Repr

inductive Line where
  | instr (i : Instr) (note : Option String)
  | label (name : String)
  | directive (name value : String)
  | comment (note : Option String)
  deriving DecidableEq, Repr

def Immediate.toAttr (i : Immediate) : Attr :=
  .int i.value i.width

def Target.toAttr : Target → Attr
  | .distance d => d.toAttr
  | .label name => .label name

def Slot.toAttr : Slot → Attr
  | .register r => .reg r
  | .target t => t.toAttr
  | .stray shown => .type (.named shown)

namespace Instr

def mnemonic : Instr → String
  | .load op .. => Mnemonic.text op
  | .store op .. => Mnemonic.text op
  | .immediate op .. => Mnemonic.text op
  | .register op .. => Mnemonic.text op
  | .constant op .. => Mnemonic.text op
  | .unary op .. => Mnemonic.text op
  | .branch op .. => Mnemonic.text op
  | .swappedBranch op .. => Mnemonic.text op
  | .zeroBranch op .. => Mnemonic.text op
  | .jump _ => "j"
  | .jumpLink .. => "jal"
  | .jumpLinkReg .. => "jalr"
  | .plain op => Mnemonic.text op
  | .misfit name .. => name

def attrs : Instr → List (String × Attr)
  | .load _ rd base offset => [("rd", .reg rd), ("rs1", .reg base), ("immediate", offset.toAttr)]
  | .store _ source base offset =>
    [("rs1", .reg source), ("rs2", .reg base), ("immediate", offset.toAttr)]
  | .immediate _ rd rs value => [("rd", .reg rd), ("rs1", .reg rs), ("immediate", value.toAttr)]
  | .register _ rd rs1 rs2 => [("rd", .reg rd), ("rs1", .reg rs1), ("rs2", .reg rs2)]
  | .constant _ rd value => [("rd", .reg rd), ("immediate", value.toAttr)]
  | .unary _ rd rs => [("rd", .reg rd), ("rs", .reg rs)]
  | .branch _ rs1 rs2 target => [("rs1", .reg rs1), ("rs2", .reg rs2), ("offset", target.toAttr)]
  | .swappedBranch _ rs rt target =>
    [("rs", .reg rs), ("rt", .reg rt), ("offset", target.toAttr)]
  | .zeroBranch _ rs target => [("rs", .reg rs), ("offset", target.toAttr)]
  | .jump target => [("offset", target.toAttr)]
  | .jumpLink rd target => [("rd", .reg rd), ("offset", target.toAttr)]
  | .jumpLinkReg rd rs target => [("rd", .reg rd), ("rs1", .reg rs), ("offset", target.toAttr)]
  | .plain _ => []
  | .misfit _ slots => slots.map fun (key, slot) => (key, slot.toAttr)

end Instr

namespace Line

def name : Line → String
  | .instr i _ => "riscv." ++ i.mnemonic
  | .label _ => "riscv.label"
  | .directive .. => "riscv.directive"
  | .comment _ => "riscv.comment"

def noteAttrs (note : Option String) : List (String × Attr) :=
  note.toList.map fun s => ("comment", .text s)

def attrs : Line → List (String × Attr)
  | .instr i note => i.attrs ++ noteAttrs note
  | .label name => [("label", .label name)]
  | .directive name value => [("directive", .text name), ("value", .text value)]
  | .comment note => noteAttrs note

def outline (l : Line) : Outline :=
  .mk l.name l.attrs [] [] []

end Line

/-! ## Assembly text -/

def Immediate.text (i : Immediate) : String :=
  toString i.value

def Target.text : Target → String
  | .distance d => d.text
  | .label name => name

namespace Instr

def operandList (operands : List String) : String :=
  " " ++ ", ".intercalate operands

def addressed (offset : Immediate) (base : Register) : String :=
  offset.text ++ "(" ++ base.name ++ ")"

def operandText? : Instr → Option String
  | .load _ rd base offset => some (operandList [rd.name, addressed offset base])
  | .store _ source base offset => some (operandList [source.name, addressed offset base])
  | .immediate _ rd rs value => some (operandList [rd.name, rs.name, value.text])
  | .register _ rd rs1 rs2 => some (operandList [rd.name, rs1.name, rs2.name])
  | .constant _ rd value => some (operandList [rd.name, value.text])
  | .unary _ rd rs => some (operandList [rd.name, rs.name])
  | .branch _ rs1 rs2 target => some (operandList [rs1.name, rs2.name, target.text])
  | .swappedBranch _ rs rt target => some (operandList [rs.name, rt.name, target.text])
  | .zeroBranch _ rs target => some (operandList [rs.name, target.text])
  | .jump target => some (operandList [target.text])
  | .jumpLink rd target => some (operandList [rd.name, target.text])
  | .jumpLinkReg rd rs target => some (operandList [rd.name, rs.name, target.text])
  | .plain _ => some ""
  | .misfit .. => none

end Instr

namespace Line

def noteText (s : String) : String :=
  "    \t# " ++ s

def text? : Line → Option String
  | .instr i note => do
    return "\t" ++ i.mnemonic ++ (← i.operandText?) ++ (note.map noteText).getD "" ++ "\n"
  | .label name => some (name ++ ":\n")
  | .directive name value => some ("." ++ name ++ " " ++ value ++ "\n")
  | .comment note => some ((note.map noteText).getD "" ++ "\n")

def text (l : Line) : Except Fault String :=
  match l.text? with
  | some s => .ok s
  | none => .error .noSuchPart

end Line

def prologue : String :=
  "\t.data\n_heap:\t.space 102400\n_heap_tree_ptr:\t.word 100\n\t.text\n"
    ++ "# Initialize the heap memory\n\tla t0, _heap\n\tla t1, _heap_tree_ptr\n\tsw t0, 0(t1)\n"

def epilogue : String :=
  "_malloc:\n\tla t0, _heap_tree_ptr\n\tlw t1, 0(t0)\n\tadd t2, t1, a0\n\tsw t2, 0(t0)\n"
    ++ "\taddi a0, t1, 0\n\tret\n"

def programText (lines : List (Except Fault String)) : Except Fault String := do
  return prologue ++ String.join (← lines.mapM id) ++ epilogue

def unprintable (name : String) : Fault :=
  .refused ("Trying to print unknown operation '" ++ name ++ "'")

/-! ## Forms of instructions -/

inductive Place where
  | register
  | number
  | target
  deriving DecidableEq, Repr

inductive Form where
  | load (op : LoadOp)
  | store (op : StoreOp)
  | immediate (op : ImmOp)
  | register (op : RegOp)
  | constant (op : ConstOp)
  | unary (op : UnaryOp)
  | branch (op : BranchOp)
  | swappedBranch (op : SwappedBranchOp)
  | zeroBranch (op : ZeroBranchOp)
  | jump
  | jumpLink
  | jumpLinkReg
  | plain (op : PlainOp)
  deriving DecidableEq, Repr

namespace Form

def name : Form → String
  | .load op => Mnemonic.text op
  | .store op => Mnemonic.text op
  | .immediate op => Mnemonic.text op
  | .register op => Mnemonic.text op
  | .constant op => Mnemonic.text op
  | .unary op => Mnemonic.text op
  | .branch op => Mnemonic.text op
  | .swappedBranch op => Mnemonic.text op
  | .zeroBranch op => Mnemonic.text op
  | .jump => "j"
  | .jumpLink => "jal"
  | .jumpLinkReg => "jalr"
  | .plain op => Mnemonic.text op

def all : List Form :=
  (Mnemonic.all.map load) ++ (Mnemonic.all.map store) ++ (Mnemonic.all.map immediate)
    ++ (Mnemonic.all.map register) ++ (Mnemonic.all.map constant) ++ (Mnemonic.all.map unary)
    ++ (Mnemonic.all.map branch) ++ (Mnemonic.all.map swappedBranch)
    ++ (Mnemonic.all.map zeroBranch) ++ [jump, jumpLink, jumpLinkReg] ++ (Mnemonic.all.map plain)

def ofName? (s : String) : Option Form :=
  all.find? fun f => f.name == s

def places : Form → List (String × Place)
  | .load _ => [("rd", .register), ("rs1", .register), ("immediate", .number)]
  | .store _ => [("rs1", .register), ("rs2", .register), ("immediate", .number)]
  | .immediate _ => [("rd", .register), ("rs1", .register), ("immediate", .number)]
  | .register _ => [("rd", .register), ("rs1", .register), ("rs2", .register)]
  | .constant _ => [("rd", .register), ("immediate", .number)]
  | .unary _ => [("rd", .register), ("rs", .register)]
  | .branch _ => [("rs1", .register), ("rs2", .register), ("offset", .target)]
  | .swappedBranch _ => [("rs", .register), ("rt", .register), ("offset", .target)]
  | .zeroBranch _ => [("rs", .register), ("offset", .target)]
  | .jump => [("offset", .target)]
  | .jumpLink => [("rd", .register), ("offset", .target)]
  | .jumpLinkReg => [("rd", .register), ("rs1", .register), ("offset", .target)]
  | .plain _ => []

def instr? : Form → List Slot → Option Instr
  | .load op, [.register rd, .register base, .target (.distance d)] => some (.load op rd base d)
  | .store op, [.register source, .register base, .target (.distance d)] =>
    some (.store op source base d)
  | .immediate op, [.register rd, .register rs, .target (.distance d)] =>
    some (.immediate op rd rs d)
  | .register op, [.register rd, .register rs1, .register rs2] => some (.register op rd rs1 rs2)
  | .constant op, [.register rd, .target (.distance d)] => some (.constant op rd d)
  | .unary op, [.register rd, .register rs] => some (.unary op rd rs)
  | .branch op, [.register rs1, .register rs2, .target t] => some (.branch op rs1 rs2 t)
  | .swappedBranch op, [.register rs, .register rt, .target t] => some (.swappedBranch op rs rt t)
  | .zeroBranch op, [.register rs, .target t] => some (.zeroBranch op rs t)
  | .jump, [.target t] => some (.jump t)
  | .jumpLink, [.register rd, .target t] => some (.jumpLink rd t)
  | .jumpLinkReg, [.register rd, .register rs, .target t] => some (.jumpLinkReg rd rs t)
  | .plain op, [] => some (.plain op)
  | _, _ => none

def withSlots (f : Form) (slots : List Slot) : Instr :=
  (f.instr? slots).getD (.misfit f.name ((f.places.map Prod.fst).zip slots))

end Form

end Practicum.Riscv
