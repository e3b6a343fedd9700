import Practicum.Choco.Literal
import Practicum.Riscv.Instr

/-!
# Operations

What an operation does is its opcode. There are three levels: the flat level, in which control flow is nested and
variables live in memory locations, the machine level, in which instructions work on values, and the
lines of the assembly program.
-/

namespace Practicum.IR

open Choco (Literal)
open Riscv

inductive FlatCode where
  | classDef (name parent : String)
  | funcDef (name : String) (result : Ty)
  | branch
  | loop
  /-- A loop over the elements of its second operand. -/
  | forEach
  | pass
  | ret
  | yield
  | assign
  | literal (value : Literal)
  | unary (op : String)
  | binary (op : String)
  /-- A binary operator with blocks for its operands, of which the second may not run. -/
  | lazyBinary (op : String)
  | choice
  | list
  | call (func : String)
  | member (part : String)
  | alloc (type : Ty)
  | indexString
  | getAddress
  | load
  | store
  deriving DecidableEq, Repr

inductive MachineCode where
  | load (op : LoadOp) (offset : Immediate)
  | store (op : StoreOp) (offset : Immediate)
  | immediate (op : ImmOp) (value : Immediate)
  | register (op : RegOp)
  | constant (op : ConstOp) (value : Immediate)
  | labelConstant (op : ConstOp) (name : String)
  | branch (op : BranchOp) (target : Target)
  | jump (target : Target)
  | jumpLink (value : Target)
  | jumpLinkReg (value : Target)
  | ecall
  | ebreak
  | call (func : String)
  | label (name : String)
  | alloc
  | func (name : String)
  | ret
  deriving DecidableEq, Repr

inductive Opcode where
  | flat (code : FlatCode)
  | machine (code : MachineCode) (note : Option String)
  | line (l : Line)
  deriving DecidableEq, Repr

namespace FlatCode

def name : FlatCode → String
  | .classDef .. => "choco.ir.class_def"
  | .funcDef .. => "choco.ir.func_def"
  | .branch => "choco.ir.if"
  | .loop => "choco.ir.while"
  | .forEach => "choco.ir.for"
  | .pass => "choco.ir.pass"
  | .ret => "choco.ir.return"
  | .yield => "choco.ir.yield"
  | .assign => "choco.ir.assign"
  | .literal _ => "choco.ir.literal"
  | .unary _ => "choco.ir.unary_expr"
  | .binary _ => "choco.ir.binary_expr"
  | .lazyBinary _ => "choco.ir.effectful_binary_expr"
  | .choice => "choco.ir.if_expr"
  | .list => "choco.ir.list_expr"
  | .call _ => "choco.ir.call_expr"
  | .member _ => "choco.ir.member_expr"
  | .alloc _ => "choco.ir.alloc"
  | .indexString => "choco.ir.index_string"
  | .getAddress => "choco.ir.get_address"
  | .load => "choco.ir.load"
  | .store => "choco.ir.store"

def attrs : FlatCode → List (String × Attr)
  | .classDef name parent => [("class_name", .text name), ("super_class_name", .text parent)]
  | .funcDef name result => [("func_name", .text name), ("return_type", .type result)]
  | .literal value => [("value", value.toAttr)]
  | .unary op => [("op", .text op)]
  | .binary op => [("op", .text op)]
  | .lazyBinary op => [("op", .text op)]
  | .call callee => [("func_name", .text callee)]
  | .member part => [("attribute", .text part)]
  | .alloc type => [("type", .type type)]
  | _ => []

end FlatCode

namespace MachineCode

def mnemonic : MachineCode → String
  | .load op _ => Mnemonic.text op
  | .store op _ => Mnemonic.text op
  | .immediate op _ => Mnemonic.text op
  | .register op => Mnemonic.text op
  | .constant op _ => Mnemonic.text op
  | .labelConstant op _ => Mnemonic.text op
  | .branch op _ => Mnemonic.text op
  | .jump _ => "j"
  | .jumpLink _ => "jal"
  | .jumpLinkReg _ => "jalr"
  | .ecall => "ecall"
  | .ebreak => "ebreak"
  | .call _ => "call"
  | .label _ => "label"
  | .alloc => "alloc"
  | .func _ => "func"
  | .ret => "return"

def attrs : MachineCode → List (String × Attr)
  | .load _ offset => [("immediate", offset.toAttr)]
  | .store _ offset => [("immediate", offset.toAttr)]
  | .immediate _ value => [("immediate", value.toAttr)]
  | .constant _ value => [("immediate", value.toAttr)]
  | .labelConstant _ name => [("immediate", .label name)]
  | .branch _ target => [("offset", target.toAttr)]
  | .jump target => [("offset", target.toAttr)]
  | .jumpLink value => [("immediate", value.toAttr)]
  | .jumpLinkReg value => [("immediate", value.toAttr)]
  | .call callee => [("func_name", .text callee)]
  | .label name => [("label", .label name)]
  | .func name => [("func_name", .text name)]
  | _ => []

end MachineCode

namespace Opcode

def name : Opcode → String
  | .flat code => code.name
  | .machine code _ => "riscv_ssa." ++ code.mnemonic
  | .line l => l.name

def attrs : Opcode → List (String × Attr)
  | .flat code => code.attrs
  | .machine code note => code.attrs ++ Line.noteAttrs note
  | .line l => l.attrs

end Opcode

/-!
## Operands and results

An operation reads values, its operands, and defines values, its results; some have blocks of
operations nested in them. Every value is known by a number and carries its type, and every
operation has a number of its own, by which it is found again while a program is being changed.
-/

structure Val where
  id : Nat
  type : Ty
  deriving DecidableEq, Repr

mutual

inductive Op where
  | mk (id : Nat) (code : Opcode) (operands results : List Val) (regions : List Block)
  deriving Repr, BEq

inductive Block where
  | mk (args : List Val) (ops : List Op)
  deriving Repr, BEq

end

namespace Block

def args : Block → List Val
  | .mk a _ => a

def ops : Block → List Op
  | .mk _ o => o

def plain (ops : List Op) : Block :=
  .mk [] ops

end Block

namespace Op

def id : Op → Nat
  | .mk i .. => i

def code : Op → Opcode
  | .mk _ c .. => c

def operands : Op → List Val
  | .mk _ _ o .. => o

def results : Op → List Val
  | .mk _ _ _ r _ => r

def regions : Op → List Block
  | .mk _ _ _ _ g => g

def flat? (o : Op) : Option FlatCode :=
  match o.code with
  | .flat code => some code
  | _ => none

def machine? (o : Op) : Option MachineCode :=
  match o.code with
  | .machine code _ => some code
  | _ => none

def withRegions (o : Op) (regions : List Block) : Op :=
  .mk o.id o.code o.operands o.results regions

def regionOps (o : Op) (k : Nat) : List Op :=
  ((o.regions.drop k).head?.map Block.ops).getD []

mutual

def walk (o : Op) : List Op :=
  match o with
  | .mk _ _ _ _ regions => o :: walkRegions regions

def walkAll : List Op → List Op
  | [] => []
  | o :: os => walk o ++ walkAll os

def walkRegions : List Block → List Op
  | [] => []
  | .mk _ ops :: bs => walkAll ops ++ walkRegions bs

end

mutual

/-- The values that an operation and what is nested in it define, results before arguments and
from the left. -/
def defined : Op → List Val
  | .mk _ _ _ results regions => results ++ definedRegions regions

def definedAll : List Op → List Val
  | [] => []
  | o :: os => defined o ++ definedAll os

def definedRegions : List Block → List Val
  | [] => []
  | .mk args ops :: bs => args ++ definedAll ops ++ definedRegions bs

end

mutual

def mapOperands (f : Val → Val) : Op → Op
  | .mk id code operands results regions =>
    .mk id code (operands.map f) results (mapOperandsRegions f regions)

def mapOperandsAll (f : Val → Val) : List Op → List Op
  | [] => []
  | o :: os => mapOperands f o :: mapOperandsAll f os

def mapOperandsRegions (f : Val → Val) : List Block → List Block
  | [] => []
  | .mk args ops :: bs => .mk args (mapOperandsAll f ops) :: mapOperandsRegions f bs

end

mutual

/-- Put other operations in the place of the operations of a list, at every depth. What an
operation is replaced by is not searched again. -/
def spliceAll (f : Op → Option (List Op)) : List Op → List Op
  | [] => []
  | o :: os =>
    match f o with
    | some new => new ++ spliceAll f os
    | none => spliceInside f o :: spliceAll f os

def spliceInside (f : Op → Option (List Op)) : Op → Op
  | .mk id code operands results regions =>
    .mk id code operands results (spliceRegions f regions)

def spliceRegions (f : Op → Option (List Op)) : List Block → List Block
  | [] => []
  | .mk args ops :: bs => .mk args (spliceAll f ops) :: spliceRegions f bs

end

end Op

structure Module where
  ops : List Op
  /-- Operations that were taken out of the program. They no longer read their operands, but what
  is nested in them still counts as a reader. -/
  remnants : List Op := []
  next : Nat
  deriving Repr

namespace Module

def walk (m : Module) : List Op :=
  Op.walkAll m.ops

/-- The operations that stand in some block: those of the program, and those nested in what was
taken out of it. -/
def placed (m : Module) : List Op :=
  m.walk ++ m.remnants.flatMap fun r => Op.walkRegions r.regions

def find? (m : Module) (id : Nat) : Option Op :=
  m.placed.find? fun o => o.id == id

/-- The operation that defines a value; there is none for the arguments of blocks. -/
def definition? (m : Module) (v : Val) : Option Op :=
  (m.placed ++ m.remnants).find? fun o => o.results.any fun r => r.id == v.id

def readers (m : Module) (v : Val) : List Op :=
  m.placed.flatMap fun o => (o.operands.filter fun u => u.id == v.id).map fun _ => o

def mapOperands (m : Module) (f : Val → Val) : Module :=
  { m with
    ops := Op.mapOperandsAll f m.ops
    remnants := m.remnants.map fun r => r.withRegions (Op.mapOperandsRegions f r.regions) }

def splice (m : Module) (f : Op → Option (List Op)) : Module :=
  { m with
    ops := Op.spliceAll f m.ops
    remnants := m.remnants.map (Op.spliceInside f) }

end Module

end Practicum.IR
