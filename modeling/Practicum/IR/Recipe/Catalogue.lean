import Practicum.Choco.Literal
import Practicum.Riscv.Instr

/-!
# Recipes

A recipe makes an operation of one kind from a list of arguments. It has a role for each argument:
an operand, an attribute, or operations that are nested in the new one.
-/

namespace Practicum.IR

open Choco (Literal)

inductive Argument where
  | absent
  | flag (b : Bool)
  | whole (n : Int)
  | real (shown : String)
  | text (s : String)
  | list (items : List Argument)
  | made (o : Outline)

instance : Inhabited Argument := ⟨.absent⟩

namespace Argument

def shown : Argument → String
  | absent => "None"
  | flag b => if b then "True" else "False"
  | whole n => toString n
  | real s => s
  | text s => s
  | list _ => "[]"
  | made o => o.name

def isSomething : Argument → Bool
  | absent => false
  | flag b => b
  | whole n => n ≠ 0
  | real _ => true
  | text s => !s.isEmpty
  | list items => !items.isEmpty
  | made _ => true

def whole? : Argument → Option Int
  | flag b => some (if b then 1 else 0)
  | whole n => some n
  | _ => Option.none

def textAttr : Argument → Attr
  | text s => .text s
  | a => .type (.named a.shown)

def numberAttr (width : Nat) (a : Argument) : Attr :=
  match a.whole? with
  | some n => .int n width
  | Option.none => .type (.named a.shown)

def targetAttr (width : Nat) : Argument → Attr
  | text s => .label s
  | a => a.numberAttr width

def registerAttr : Argument → Except Fault Attr
  | text s =>
    match Riscv.Register.ofName s with
    | .ok r => .ok (.reg r)
    | .error e => .error e.fault
  | a => .ok (.type (.named a.shown))

/-- The name of the value that an argument stands for: the first result of an operation, or the
operation itself if it has none. -/
def operand : Argument → Except Fault (List String)
  | absent => .ok []
  | made o =>
    match o with
    | .mk _ _ _ ((id, _) :: _) _ => .ok [id]
    | .mk name _ _ [] _ => .ok ["op:" ++ name]
  | _ => .error .noSuchPart

def operands : Argument → Except Fault (List String)
  | list items => items.flatMapM operand
  | a => a.operand

def outline : Argument → Except Fault Outline
  | made o => .ok o
  | _ => .error .noSuchPart

def outlines : Argument → Except Fault (List Outline)
  | list items => items.mapM outline
  | text s => if s.isEmpty then .ok [] else .error .noSuchPart
  | _ => .error .wrongKind

def capitalized (name : String) : String :=
  String.join ((name.splitOn "_").map String.capitalize)

def sort (level : String) : Argument → String
  | real _ => "<class 'float'>"
  | list _ => "<class 'list'>"
  | made o =>
    let kind := capitalized ((o.name.splitOn ".").getLastD "")
    "<class 'choco.dialects.choco_" ++ level ++ "." ++ kind ++ "'>"
  | _ => ""

def literal (level : String) : Argument → Except Fault Literal
  | absent => .ok .none
  | flag b => .ok (.bool b)
  | whole n => .ok (.word n)
  | text s => .ok (.str s)
  | a => .error (.refused ("Unknown literal of type " ++ a.sort level))

end Argument

inductive Role where
  | operand
  | operands
  | text (key : String)
  | number (key : String) (width : Nat)
  | target (key : String) (width : Nat)
  | label (key : String)
  | register (key : String)
  | literal
  | typedLiteral
  | note
  | remark
  | child
  | optionalChild
  | children
  | result
  | unused
  deriving DecidableEq, Repr

structure Sketch where
  attrs : List (String × Attr) := []
  operands : List String := []
  results : List Ty := []
  regions : List OutlineBlock := []

namespace Sketch

def withAttr (d : Sketch) (key : String) (a : Attr) : Sketch :=
  { d with attrs := d.attrs ++ [(key, a)] }

def withBlock (d : Sketch) (ops : List Outline) : Sketch :=
  { d with regions := d.regions ++ [.mk [] ops] }

def use (d : Sketch) (a : Argument) : Role → Except Fault Sketch
  | .operand => do return { d with operands := d.operands ++ (← a.operand) }
  | .operands => do return { d with operands := d.operands ++ (← a.operands) }
  | .text key => return d.withAttr key a.textAttr
  | .number key width => return d.withAttr key (a.numberAttr width)
  | .target key width => return d.withAttr key (a.targetAttr width)
  | .label key => return d.withAttr key (.label a.shown)
  | .register key => do return d.withAttr key (← a.registerAttr)
  | .literal => do return d.withAttr "value" (← a.literal "ast").toAttr
  | .typedLiteral => do
    let v ← a.literal "flat"
    return { d.withAttr "value" v.toAttr with results := d.results ++ [v.type] }
  | .note => return if a.isSomething then d.withAttr "comment" a.textAttr else d
  | .remark =>
    match a with
    | .absent => return d
    | a => return d.withAttr "comment" a.textAttr
  | .child => do return d.withBlock [← a.outline]
  | .optionalChild =>
    match a with
    | .absent => return d.withBlock []
    | a => do return d.withBlock [← a.outline]
  | .children => do return d.withBlock (← a.outlines)
  | .result => return if a.isSomething then { d with results := d.results ++ [.register] } else d
  | .unused => return d

end Sketch

structure Recipe where
  title : String
  name : String
  needed : List Role := []
  /-- The roles of the arguments that may follow, and what stands for one that does not. -/
  extra : List (Role × Argument) := []
  results : List Ty := []

namespace Recipe

def make (r : Recipe) (next : Nat) (given : List Argument) : Except Fault Outline := do
  let count := r.needed.length
  if given.length < count || count + r.extra.length < given.length then throw .wrongKind
  let roles := r.needed ++ r.extra.map Prod.fst
  let defaults := (r.extra.map Prod.snd).drop (given.length - count)
  let start : Sketch := { results := r.results }
  let d ← (roles.zip (given ++ defaults)).foldlM (fun d (role, a) => d.use a role) start
  let results := d.results.zipIdx.map fun (t, i) => ("%" ++ toString (next + i), t)
  return .mk r.name d.attrs d.operands results d.regions

end Recipe

def Outline.resultCount : Outline → Nat
  | .mk _ _ _ results _ => results.length

/-- Operations made one after the other; each step has its operation or the fault that prevented
it. -/
abbrev Batch := List (Except Fault Outline)

namespace Batch

def resultCount (b : Batch) : Nat :=
  b.foldl (fun count step => count + match step with
    | .ok o => o.resultCount
    | .error _ => 0) 0

def argument (b : Batch) (step : Nat) : Argument :=
  match b[step]? with
  | some (.ok o) => .made o
  | _ => .absent

def add (b : Batch) (recipe : Option Recipe) (given : List Argument) : Batch :=
  match recipe with
  | some r => b ++ [r.make b.resultCount given]
  | none => b ++ [.error .noSuchPart]

end Batch

/-!
## The catalogue

The recipes of syntax trees, of the flat and the machine level, and of the lines of assembly
programs. What the recipe of a shape makes has no name of its own.
-/

namespace Recipe

open Riscv (Form Place)

def noteLast : List (Role × Argument) := [(.note, .absent)]

def nameless : String := "op"

def tree (title : String) (needed : List Role) : Recipe :=
  { title, name := "choco.ast." ++ title, needed }

def ofTrees : List Recipe :=
  [tree "program" [.children, .children],
   tree "func_def" [.text "func_name", .children, .child, .children],
   tree "typed_var" [.text "var_name", .child],
   tree "type_name" [.text "type_name"],
   tree "list_type" [.child],
   tree "global_decl" [.text "decl_name"],
   tree "nonlocal_decl" [.text "decl_name"],
   tree "var_def" [.child, .child],
   tree "if" [.child, .children, .children],
   tree "while" [.child, .children],
   tree "for" [.text "iter_name", .child, .children],
   tree "pass" [],
   tree "return" [.optionalChild],
   tree "assign" [.child, .child],
   tree "literal" [.literal],
   tree "id_expr" [.text "id"],
   tree "unary_expr" [.text "op", .child],
   tree "binary_expr" [.text "op", .child, .child],
   tree "if_expr" [.child, .child, .child],
   tree "list_expr" [.children],
   tree "call_expr" [.text "func", .children],
   tree "index_expr" [.child, .child]]

def bareFlat : List String :=
  ["class_def", "func_def", "if", "while", "for", "pass", "return", "yield", "assign", "literal",
   "unary_expr", "binary_expr", "effectful_binary_expr", "if_expr", "list_expr", "call_expr",
   "member_expr", "alloc", "index_string", "get_address", "load", "store"]

def ofFlat : List Recipe :=
  [⟨"literal_of", "choco.ir.literal", [.typedLiteral], [(.unused, .flag true)], []⟩,
   ⟨"yield_of", "choco.ir.yield", [.operand], [], []⟩]
    ++ bareFlat.map fun title => { title, name := "choco.ir." ++ title }

def machineShapes : List (String × List Role × List Ty) :=
  let immediate := Role.number "immediate" 32
  let offset := Role.number "offset" 32
  let target := Role.target "offset" 32
  [("1Rd1Rs1Imm", [.operand, immediate], [.register]),
   ("2Rs1Imm", [.operand, .operand, immediate], []),
   ("2Rs1Off", [.operand, .operand, target], []),
   ("1Rd2Rs", [.operand, .operand], [.register]),
   ("1Rs1Rt1Off", [.operand, offset], []),
   ("1Off", [target], []),
   ("1Rd1Imm", [immediate], [.register]),
   ("1Rd1Off", [offset], [.register]),
   ("1Rs1Off", [.operand, offset], []),
   ("1Rd1Rs", [.operand], [.register]),
   ("NoParams", [], [])]

def machineShape? : Form → Option String
  | .load _ => some "1Rd1Rs1Imm"
  | .store _ => some "2Rs1Imm"
  | .immediate _ => some "1Rd1Rs1Imm"
  | .register _ => some "1Rd2Rs"
  | .constant _ => some "1Rd1Imm"
  | .branch _ => some "2Rs1Off"
  | .jump => some "1Off"
  | .jumpLink => some "1Rd1Imm"
  | .jumpLinkReg => some "1Rd1Rs1Imm"
  | _ => none

def machineLevel : String := "riscv_ssa."

def ofMachineForm? (f : Form) : Option Recipe := do
  let (roles, results) ← machineShapes.lookup (← machineShape? f)
  return ⟨f.name, machineLevel ++ f.name, roles, noteLast, results⟩

def machine (title : String) (needed : List Role) (extra : List (Role × Argument))
    (results : List Ty) : Recipe :=
  { title, name := machineLevel ++ title, needed, extra, results }

def ofMachine : List Recipe :=
  (machineShapes.map fun (shape, roles, results) => ⟨shape, nameless, roles, noteLast, results⟩)
    ++ Form.all.filterMap ofMachineForm?
    ++ [machine "ecall" [] [] [],
        machine "ebreak" [] [] [],
        machine "call" [.text "func_name", .operands] [(.result, .flag true), (.remark, .absent)] [],
        machine "label" [.label "label"] noteLast [],
        machine "directive" [] [] [],
        machine "alloc" [] [] [.register],
        machine "func" [] [] [],
        machine "return" [] [(.operand, .absent)] []]

def placeRole : String × Place → Role
  | (key, .register) => .register key
  | (key, .number) => .number key 64
  | (key, .target) => .target key 64

def assemblyShapes : List (String × Form) :=
  [("1Rd1Rs1Imm", .load .lw), ("1Rd1Rs1Off", .jumpLinkReg), ("2Rs1Imm", .store .sw),
   ("2Rs1Off", .branch .beq), ("1Rd2Rs", .register .add), ("1Rs1Rt1Off", .swappedBranch .bgt),
   ("1Rd1Imm", .constant .li), ("1Off", .jump), ("1Rd1Off", .jumpLink),
   ("1Rs1Off", .zeroBranch .beqz), ("1Rd1Rs", .unary .mv), ("NoParams", .plain .nop)]

def ofAssemblyForm (title name : String) (f : Form) : Recipe :=
  ⟨title, name, f.places.map placeRole, noteLast, []⟩

def ofAssembly : List Recipe :=
  (assemblyShapes.map fun (shape, f) => ofAssemblyForm shape nameless f)
    ++ (Form.all.map fun f => ofAssemblyForm f.name ("riscv." ++ f.name) f)
    ++ [⟨"label", "riscv.label", [.label "label"], [], []⟩,
        ⟨"directive", "riscv.directive", [.text "directive"], [(.text "value", .text "")], []⟩,
        ⟨"comment", "riscv.comment", [], noteLast, []⟩]

end Recipe

end Practicum.IR
