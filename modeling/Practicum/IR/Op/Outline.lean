import Practicum.IR.Op

/-!
# Outlines of operations

In the outline of a program the values are named `%0`, `%1`, … in the order in which they are
defined, and values that nothing in the program defines `?0`, `?1`, … in the order in which they
are met. An outline with any names can be read back.
-/

namespace Practicum.IR

open Choco (Literal)
open Riscv

/-- The numbers of the values of a program in the order of their names. -/
structure Naming where
  defined : List Nat
  missing : List Nat

namespace Naming

def ofOps (ops : List Op) : Naming :=
  let defined := (Op.definedAll ops).map Val.id
  let read := (Op.walkAll ops).flatMap fun o => o.operands.map Val.id
  { defined, missing := (read.filter fun i => !defined.contains i).eraseDups }

def nameOf (names : Naming) (v : Val) : String :=
  match names.defined.idxOf? v.id with
  | some k => "%" ++ toString k
  | none => "?" ++ toString (names.missing.idxOf v.id)

def typed (names : Naming) (v : Val) : String × Ty :=
  (names.nameOf v, v.type)

end Naming

namespace Op

mutual

def outline (names : Naming) : Op → Outline
  | .mk _ code operands results regions =>
    .mk code.name code.attrs (operands.map names.nameOf) (results.map names.typed)
      (outlineRegions names regions)

def outlineAll (names : Naming) : List Op → List Outline
  | [] => []
  | o :: os => outline names o :: outlineAll names os

def outlineRegions (names : Naming) : List Block → List OutlineBlock
  | [] => []
  | .mk args ops :: bs =>
    .mk (args.map names.typed) (outlineAll names ops) :: outlineRegions names bs

end

def outlines (ops : List Op) : List Outline :=
  outlineAll (Naming.ofOps ops) ops

end Op

/-! ## Reading -/

namespace Outline

def immediate? (o : Outline) (key : String) : Option Immediate :=
  match o.attr? key with
  | some (.int value width) => some { value, width }
  | _ => none

def target? (o : Outline) (key : String) : Option Target :=
  match o.attr? key with
  | some (.int value width) => some (.distance { value, width })
  | some (.label name) => some (.label name)
  | _ => none

def label? (o : Outline) (key : String) : Option String :=
  match o.attr? key with
  | some (.label name) => some name
  | _ => none

def register? (o : Outline) (key : String) : Option Register :=
  match o.attr? key with
  | some (.reg r) => some r
  | _ => none

def type? (o : Outline) (key : String) : Option Ty :=
  match o.attr? key with
  | some (.type t) => some t
  | _ => none

def text? (o : Outline) (key : String) : Option String :=
  match o.attr? key with
  | some (.text s) => some s
  | _ => none

end Outline

def FlatCode.ofOutline? (o : Outline) : Option FlatCode :=
  match o.name with
  | "choco.ir.class_def" =>
    .classDef <$> o.text? "class_name" <*> o.text? "super_class_name"
  | "choco.ir.func_def" =>
    .funcDef <$> o.text? "func_name" <*> o.type? "return_type"
  | "choco.ir.if" => some .branch
  | "choco.ir.while" => some .loop
  | "choco.ir.for" => some .forEach
  | "choco.ir.pass" => some .pass
  | "choco.ir.return" => some .ret
  | "choco.ir.yield" => some .yield
  | "choco.ir.assign" => some .assign
  | "choco.ir.literal" => .literal <$> (o.attr? "value" >>= Literal.ofAttr?)
  | "choco.ir.unary_expr" => .unary <$> o.text? "op"
  | "choco.ir.binary_expr" => .binary <$> o.text? "op"
  | "choco.ir.effectful_binary_expr" => .lazyBinary <$> o.text? "op"
  | "choco.ir.if_expr" => some .choice
  | "choco.ir.list_expr" => some .list
  | "choco.ir.call_expr" => .call <$> o.text? "func_name"
  | "choco.ir.member_expr" => .member <$> o.text? "attribute"
  | "choco.ir.alloc" => .alloc <$> o.type? "type"
  | "choco.ir.index_string" => some .indexString
  | "choco.ir.get_address" => some .getAddress
  | "choco.ir.load" => some .load
  | "choco.ir.store" => some .store
  | _ => none

def MachineCode.ofOutline? (name : String) (o : Outline) : Option MachineCode :=
  let value := o.immediate? "immediate"
  let target := o.target? "offset"
  match name with
  | "j" => .jump <$> target
  | "jal" => .jumpLink <$> o.target? "immediate"
  | "jalr" => .jumpLinkReg <$> o.target? "immediate"
  | "ecall" => some .ecall
  | "ebreak" => some .ebreak
  | "call" => .call <$> o.text? "func_name"
  | "label" => .label <$> o.label? "label"
  | "alloc" => some .alloc
  | "func" => .func <$> o.text? "func_name"
  | "return" => some .ret
  | _ =>
    (.load <$> Mnemonic.ofText? name <*> value)
      <|> (.store <$> Mnemonic.ofText? name <*> value)
      <|> (.immediate <$> Mnemonic.ofText? name <*> value)
      <|> (.constant <$> Mnemonic.ofText? name <*> value)
      <|> (.labelConstant <$> Mnemonic.ofText? name <*> o.label? "immediate")
      <|> (.branch <$> Mnemonic.ofText? name <*> target)
      <|> (.register <$> Mnemonic.ofText? name)

def instrOfOutline? (name : String) (o : Outline) : Option Instr :=
  let rd := o.register? "rd"
  let rs := o.register? "rs"
  let rs1 := o.register? "rs1"
  let rs2 := o.register? "rs2"
  let value := o.immediate? "immediate"
  let target := o.target? "offset"
  let misfit := (fun rd value => .misfit name
    ([("rd", .register rd), ("immediate", .target value)]
      ++ rs1.toList.map fun r => ("rs1", .register r))) <$> rd <*> o.target? "immediate"
  match name with
  | "j" => .jump <$> target
  | "jal" => (.jumpLink <$> rd <*> target) <|> misfit
  | "jalr" => (.jumpLinkReg <$> rd <*> rs1 <*> target) <|> misfit
  | _ =>
    (.plain <$> Mnemonic.ofText? name)
      <|> (.load <$> Mnemonic.ofText? name <*> rd <*> rs1 <*> value)
      <|> (.store <$> Mnemonic.ofText? name <*> rs1 <*> rs2 <*> value)
      <|> (.immediate <$> Mnemonic.ofText? name <*> rd <*> rs1 <*> value)
      <|> (.register <$> Mnemonic.ofText? name <*> rd <*> rs1 <*> rs2)
      <|> (.constant <$> Mnemonic.ofText? name <*> rd <*> value)
      <|> ((Mnemonic.ofText? name : Option ConstOp) *> misfit)
      <|> (.unary <$> Mnemonic.ofText? name <*> rd <*> rs)
      <|> (.branch <$> Mnemonic.ofText? name <*> rs1 <*> rs2 <*> target)
      <|> (.swappedBranch <$> Mnemonic.ofText? name <*> rs <*> o.register? "rt" <*> target)
      <|> (.zeroBranch <$> Mnemonic.ofText? name <*> rs <*> target)

def lineOfOutline? (name : String) (o : Outline) : Option Line :=
  match name with
  | "label" => .label <$> o.label? "label"
  | "directive" => .directive <$> o.text? "directive" <*> o.text? "value"
  | "comment" => some (.comment (o.text? "comment"))
  | _ => (.instr · (o.text? "comment")) <$> instrOfOutline? name o

def Opcode.ofOutline? (o : Outline) : Option Opcode :=
  match o.name.toList with
  | 'r' :: 'i' :: 's' :: 'c' :: 'v' :: '_' :: 's' :: 's' :: 'a' :: '.' :: name =>
    (.machine · (o.text? "comment")) <$> MachineCode.ofOutline? (String.ofList name) o
  | 'r' :: 'i' :: 's' :: 'c' :: 'v' :: '.' :: name =>
    .line <$> lineOfOutline? (String.ofList name) o
  | _ => .flat <$> FlatCode.ofOutline? o

structure Reading where
  next : Nat := 0
  known : List (String × Val) := []

namespace Reading

def fresh : StateT Reading Option Nat :=
  modifyGet fun s => (s.next, { s with next := s.next + 1 })

def define (p : String × Ty) : StateT Reading Option Val := do
  let v : Val := { id := ← fresh, type := p.2 }
  modify fun s => { s with known := (p.1, v) :: s.known }
  return v

def lookup (name : String) : StateT Reading Option Val := do
  match (← get).known.lookup name with
  | some v => return v
  | none => failure

mutual

def readOp (o : Outline) : StateT Reading Option Op :=
  match o with
  | .mk _ _ operands results regions => do
    let code ← Opcode.ofOutline? o
    let operands ← operands.mapM lookup
    let results ← results.mapM define
    let regions ← readRegions regions
    return .mk (← fresh) code operands results regions

def readOps : List Outline → StateT Reading Option (List Op)
  | [] => return []
  | o :: os => do
    let op ← readOp o
    return op :: (← readOps os)

def readRegions : List OutlineBlock → StateT Reading Option (List Block)
  | [] => return []
  | .mk args ops :: bs => do
    let args ← args.mapM define
    let ops ← readOps ops
    return .mk args ops :: (← readRegions bs)

end

end Reading

def Module.ofOutlines? (os : List Outline) : Option Module := do
  let (ops, reading) ← (Reading.readOps os).run {}
  return { ops, next := reading.next }

end Practicum.IR
