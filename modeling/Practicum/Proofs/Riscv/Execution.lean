import Mathlib.Data.BitVec
import Practicum.Riscv.Runtime

/-!
# Words, memory and lines

The machine computes with words of thirty-two bits and keeps a byte at every address. A word stands
in memory with its lowest byte first; addresses go around at the end of memory.
-/

namespace Practicum.Riscv

abbrev Word := BitVec 32

abbrev Memory := Word → BitVec 8

def wordOf (n : Int) : Word :=
  BitVec.ofInt 32 n

theorem wordOf_add (x y : Int) : wordOf (x + y) = wordOf x + wordOf y :=
  BitVec.ofInt_add x y

def truthWord (b : Bool) : Word :=
  if b then 1 else 0

/-- An address lies in a range of some bytes. -/
def Covers (a : Word) (n : Nat) (b : Word) : Prop :=
  (b - a).toNat < n

instance (a : Word) (n : Nat) (b : Word) : Decidable (Covers a n b) :=
  inferInstanceAs (Decidable ((b - a).toNat < n))

theorem covers_add_iff {a b : Word} {k n : Nat} (h : k + n ≤ 2 ^ 32) :
    Covers (a + BitVec.ofNat 32 k) n b ↔ k ≤ (b - a).toNat ∧ (b - a).toNat < k + n := by
  unfold Covers
  have ha := a.isLt
  have hb := b.isLt
  simp only [BitVec.toNat_sub, BitVec.toNat_add, BitVec.toNat_ofNat]
  omega

theorem covers_self {a : Word} {n : Nat} (h : 0 < n) : Covers a n a := by
  simpa [Covers] using h

namespace Memory

def half (m : Memory) (a : Word) : BitVec 16 :=
  m (a + 1) ++ m a

def word (m : Memory) (a : Word) : Word :=
  m (a + 3) ++ m (a + 2) ++ m (a + 1) ++ m a

/-- The lowest bytes of a word are written from an address on. -/
def write (m : Memory) (a : Word) (n : Nat) (v : Word) : Memory :=
  fun b => if Covers a n b then v.extractLsb' (8 * (b - a).toNat) 8 else m b

variable {m m' : Memory} {a b : Word} {n : Nat} {v : Word}

theorem write_of_not_covers (h : ¬Covers a n b) : m.write a n v b = m b :=
  if_neg h

theorem toNat_add_sub {k : Nat} (h : k < 2 ^ 32) : (a + BitVec.ofNat 32 k - a).toNat = k := by
  have ha := a.isLt
  simp only [BitVec.toNat_sub, BitVec.toNat_add, BitVec.toNat_ofNat]
  omega

theorem byte_congr {k : Nat} (h : ∀ b, Covers a n b → m b = m' b) (hk : k < n) (hn : n ≤ 4) :
    m (a + BitVec.ofNat 32 k) = m' (a + BitVec.ofNat 32 k) := by
  apply h
  rw [Covers, toNat_add_sub (by omega)]
  exact hk

theorem half_congr (h : ∀ b, Covers a 2 b → m b = m' b) : m.half a = m'.half a := by
  have h0 := byte_congr (k := 0) h (by omega) (by omega)
  have h1 := byte_congr (k := 1) h (by omega) (by omega)
  rw [BitVec.add_zero] at h0
  exact congrArg₂ (· ++ ·) h1 h0

theorem word_congr (h : ∀ b, Covers a 4 b → m b = m' b) : m.word a = m'.word a := by
  have h0 := byte_congr (k := 0) h (by omega) (by omega)
  have h1 := byte_congr (k := 1) h (by omega) (by omega)
  have h2 := byte_congr (k := 2) h (by omega) (by omega)
  have h3 := byte_congr (k := 3) h (by omega) (by omega)
  rw [BitVec.add_zero] at h0
  exact congrArg₂ (· ++ ·) (congrArg₂ (· ++ ·) (congrArg₂ (· ++ ·) h3 h2) h1) h0

theorem write_add {k : Nat} (hk : k < n) (hn : n ≤ 4) :
    m.write a n v (a + BitVec.ofNat 32 k) = v.extractLsb' (8 * k) 8 := by
  have hsub : (a + BitVec.ofNat 32 k - a).toNat = k := toNat_add_sub (by omega)
  rw [write, if_pos (by rw [Covers, hsub]; exact hk), hsub]

theorem word_write : (m.write a 4 v).word a = v := by
  have h0 := write_add (m := m) (a := a) (v := v) (k := 0) (n := 4) (by omega) (by omega)
  have h1 := write_add (m := m) (a := a) (v := v) (k := 1) (n := 4) (by omega) (by omega)
  have h2 := write_add (m := m) (a := a) (v := v) (k := 2) (n := 4) (by omega) (by omega)
  have h3 := write_add (m := m) (a := a) (v := v) (k := 3) (n := 4) (by omega) (by omega)
  rw [BitVec.add_zero] at h0
  change m.write a 4 v (a + BitVec.ofNat 32 3) ++ m.write a 4 v (a + BitVec.ofNat 32 2)
    ++ m.write a 4 v (a + BitVec.ofNat 32 1) ++ m.write a 4 v a = v
  rw [h0, h1, h2, h3, BitVec.extractLsb'_append_extractLsb'_eq_extractLsb' (by omega),
    BitVec.extractLsb'_append_extractLsb'_eq_extractLsb' (by omega),
    BitVec.extractLsb'_append_extractLsb'_eq_extractLsb' (by omega)]
  exact BitVec.extractLsb'_eq_self

end Memory

/-!
## Running lines

What the instructions compute, and how the lines of a function run on a processor with registers and
memory. A line has no address, so a branch leads to a label and never over a distance. What the
platform does on a call or a system call is left open.
-/

def encodable (n : Int) : Bool :=
  decide (-2048 ≤ n ∧ n < 2048)

namespace LoadOp

def width : LoadOp → Nat
  | .lb | .lbu => 1
  | .lh | .lhu => 2
  | .lw => 4

def read (op : LoadOp) (m : Memory) (a : Word) : Word :=
  match op with
  | .lb => (m a).signExtend 32
  | .lbu => (m a).setWidth 32
  | .lh => (m.half a).signExtend 32
  | .lhu => (m.half a).setWidth 32
  | .lw => m.word a

theorem read_congr {op : LoadOp} {m m' : Memory} {a : Word}
    (h : ∀ b, Covers a op.width b → m b = m' b) : op.read m a = op.read m' a := by
  cases op with
  | lb => exact congrArg (BitVec.signExtend 32) (h a (covers_self Nat.one_pos))
  | lbu => exact congrArg (BitVec.setWidth 32) (h a (covers_self Nat.one_pos))
  | lh => exact congrArg (BitVec.signExtend 32) (Memory.half_congr h)
  | lhu => exact congrArg (BitVec.setWidth 32) (Memory.half_congr h)
  | lw => exact Memory.word_congr h

end LoadOp

def StoreOp.width : StoreOp → Nat
  | .sb => 1
  | .sh => 2
  | .sw => 4

def RegOp.eval (op : RegOp) (a b : Word) : Word :=
  match op with
  | .sll => a <<< (b.toNat % 32)
  | .srl => a >>> (b.toNat % 32)
  | .sra => a.sshiftRight (b.toNat % 32)
  | .add => a + b
  | .sub => a - b
  | .xor => a ^^^ b
  | .or => a ||| b
  | .and => a &&& b
  | .slt => truthWord (a.slt b)
  | .sltu => truthWord (a.ult b)
  | .mul => a * b
  | .mulh => wordOf (a.toInt * b.toInt / 2 ^ 32)
  | .mulhsu => wordOf (a.toInt * b.toNat / 2 ^ 32)
  | .mulhu => wordOf (a.toNat * b.toNat / 2 ^ 32)
  | .div => if b = 0 then -1 else a.sdiv b
  | .divu => if b = 0 then -1 else a.udiv b
  | .rem => if b = 0 then a else a.srem b
  | .remu => if b = 0 then a else a.umod b

def ImmOp.eval (op : ImmOp) (a : Word) (n : Int) : Word :=
  match op with
  | .slli => a <<< (n.toNat % 32)
  | .srli => a >>> (n.toNat % 32)
  | .srai => a.sshiftRight (n.toNat % 32)
  | .addi => a + wordOf n
  | .xori => a ^^^ wordOf n
  | .ori => a ||| wordOf n
  | .andi => a &&& wordOf n
  | .slti => truthWord (a.slt (wordOf n))
  | .sltiu => truthWord (a.ult (wordOf n))

/-- What is computed from a number alone; a distance from the instruction itself is not. -/
def ConstOp.eval? (op : ConstOp) (n : Int) : Option Word :=
  match op with
  | .lui => some (wordOf n <<< 12)
  | .li => some (wordOf n)
  | .auipc => none

def UnaryOp.eval (op : UnaryOp) (a : Word) : Word :=
  match op with
  | .mv => a
  | .not => ~~~a
  | .neg | .negw => -a
  | .seqz => truthWord (a == 0)
  | .snez => truthWord (a != 0)
  | .sltz => truthWord (a.slt 0)
  | .sgtz => truthWord ((0 : Word).slt a)

def BranchOp.holds (op : BranchOp) (a b : Word) : Bool :=
  match op with
  | .beq => a == b
  | .bne => a != b
  | .blt => a.slt b
  | .bge => !a.slt b
  | .bltu => a.ult b
  | .bgeu => !a.ult b

/-- Whether a branch with its operands the other way round is taken. -/
def SwappedBranchOp.holds (op : SwappedBranchOp) (a b : Word) : Bool :=
  match op with
  | .bgt => BranchOp.blt.holds b a
  | .ble => BranchOp.bge.holds b a
  | .bgtu => BranchOp.bltu.holds b a
  | .bleu => BranchOp.bgeu.holds b a

def ZeroBranchOp.holds (op : ZeroBranchOp) (a : Word) : Bool :=
  match op with
  | .beqz => a == 0
  | .bnez => a != 0
  | .blez => !(0 : Word).slt a
  | .bgez => !a.slt 0
  | .bltz => a.slt 0
  | .bgtz => (0 : Word).slt a

/-! ## The processor -/

structure Core where
  regs : Register → Word
  memory : Memory

namespace Core

def get (c : Core) (r : Register) : Word :=
  if r = .zero then 0 else c.regs r

def set (c : Core) (r : Register) (w : Word) : Core :=
  { c with regs := fun q => if q = r then w else c.regs q }

variable {c : Core} {r q : Register} {w : Word}

theorem get_set_self (h : r ≠ .zero := by decide) : (c.set r w).get r = w := by
  simp [get, set, h]

theorem get_set_of_ne (h : q ≠ r := by decide) : (c.set r w).get q = c.get q := by
  simp [get, set, h]

end Core

inductive Asking where
  | call (func : String)
  | system
  | pause
  deriving DecidableEq, Repr

structure Platform (ω : Type) where
  serve : Asking → Core → ω → Option (Core × ω)

/-- Where a function is: in its code, at a label elsewhere, or at its end with a result. -/
inductive Spot where
  | at (k : Nat)
  | outside (label : String)
  | returned (w : Word)
  deriving DecidableEq, Repr

inductive Next where
  | on
  | jump (label : String)
  | back
  deriving DecidableEq, Repr

structure Processor (ω : Type) where
  place : Spot
  core : Core
  world : ω
  /-- The requests so far, with the registers and the memory at the time. -/
  served : List (Asking × Core)

namespace Instr

def request? : Instr → Option Asking
  | .jumpLink rd (.label func) => if rd = .ra then some (.call func) else none
  | .plain .ecall => some .system
  | .plain .ebreak => some .pause
  | _ => none

/-- What an instruction does to the registers and the memory, and where it leads. -/
def exec? (i : Instr) (c : Core) : Option (Core × Next) :=
  match i with
  | .load op rd base offset =>
    if encodable offset.value then
      some (c.set rd (op.read c.memory (c.get base + wordOf offset.value)), .on)
    else none
  | .store op source base offset =>
    if encodable offset.value then
      some ({ c with memory :=
        c.memory.write (c.get base + wordOf offset.value) op.width (c.get source) }, .on)
    else none
  | .immediate op rd rs value =>
    if encodable value.value then some (c.set rd (op.eval (c.get rs) value.value), .on) else none
  | .register op rd rs1 rs2 => some (c.set rd (op.eval (c.get rs1) (c.get rs2)), .on)
  | .constant op rd value => (op.eval? value.value).map fun w => (c.set rd w, .on)
  | .unary op rd rs => some (c.set rd (op.eval (c.get rs)), .on)
  | .branch op rs1 rs2 (.label name) =>
    some (c, if op.holds (c.get rs1) (c.get rs2) then .jump name else .on)
  | .swappedBranch op rs rt (.label name) =>
    some (c, if op.holds (c.get rs) (c.get rt) then .jump name else .on)
  | .zeroBranch op rs (.label name) => some (c, if op.holds (c.get rs) then .jump name else .on)
  | .jump (.label name) => some (c, .jump name)
  | .plain .nop => some (c, .on)
  | .plain .ret => some (c, .back)
  | _ => none

end Instr

def behind (lines : List Line) (name : String) : Spot :=
  match lines.idxOf? (.label name) with
  | some k => .at (k + 1)
  | none => .outside name

namespace Processor

variable {ω : Type}

def follow (lines : List Line) (k : Nat) (s : Processor ω) (c : Core) : Next → Processor ω
  | .on => { s with place := .at (k + 1), core := c }
  | .jump name => { s with place := behind lines name, core := c }
  | .back => { s with place := .returned (c.get .a0), core := c }

def step? (P : Platform ω) (lines : List Line) (s : Processor ω) : Option (Processor ω) :=
  match s.place with
  | .at k =>
    match lines[k]? with
    | some (.instr i _) =>
      match i.request? with
      | some r =>
        (P.serve r s.core s.world).map fun (core, world) =>
          { place := .at (k + 1), core, world, served := s.served ++ [(r, s.core)] }
      | none => (i.exec? s.core).map fun (core, next) => s.follow lines k core next
    | some (.label _) | some (.comment _) => some { s with place := .at (k + 1) }
    | some (.directive ..) | none => none
  | _ => none

def Reaches (P : Platform ω) (lines : List Line) : Processor ω → Processor ω → Prop :=
  Relation.ReflTransGen fun s s' => s.step? P lines = some s'

end Processor

/-! ## Lines in a row -/

/-- Lines, or whatever else a program is made of, stand from a place on. -/
def StandsAt {α : Type} (lines : List α) (k : Nat) (part : List α) : Prop :=
  ∃ before after, lines = before ++ part ++ after ∧ before.length = k

namespace StandsAt

variable {α : Type} {lines xs ys : List α} {l : α} {k : Nat}

theorem left (h : StandsAt lines k (xs ++ ys)) : StandsAt lines k xs := by
  obtain ⟨before, after, rfl, rfl⟩ := h
  exact ⟨before, ys ++ after, by simp, rfl⟩

theorem right (h : StandsAt lines k (xs ++ ys)) : StandsAt lines (k + xs.length) ys := by
  obtain ⟨before, after, rfl, rfl⟩ := h
  exact ⟨before ++ xs, after, by simp, by simp⟩

theorem head (h : StandsAt lines k (l :: xs)) : lines[k]? = some l := by
  obtain ⟨_, _, rfl, rfl⟩ := h
  simp

theorem tail (h : StandsAt lines k (l :: xs)) : StandsAt lines (k + 1) xs :=
  right (show StandsAt lines k ([l] ++ xs) from h)

theorem trans {j : Nat} (h : StandsAt lines k xs) (h' : StandsAt xs j ys) :
    StandsAt lines (k + j) ys := by
  obtain ⟨before, after, rfl, rfl⟩ := h
  obtain ⟨before', after', rfl, rfl⟩ := h'
  exact ⟨before ++ before', after' ++ after, by simp, by simp⟩

end StandsAt

/-- What a line does that neither leads elsewhere nor makes a request. -/
def Line.move? (l : Line) (c : Core) : Option Core :=
  match l with
  | .instr i _ =>
    match i.request?, i.exec? c with
    | none, some (c', .on) => some c'
    | _, _ => none
  | .label _ | .comment _ => some c
  | .directive .. => none

section
variable {c : Core} {rd rs : Register} {n : Int} {note : String}

theorem move?_addi (h : encodable n) :
    (Assembly.addi rd rs n note).move? c = some (c.set rd (c.get rs + wordOf n)) := by
  simp [Assembly.addi, Assembly.instr, Line.move?, Instr.request?, Instr.exec?, h, ImmOp.eval]

theorem move?_lw (h : encodable n) :
    (Assembly.lw rd rs n note).move? c = some (c.set rd (c.memory.word (c.get rs + wordOf n))) := by
  simp [Assembly.lw, Assembly.instr, Line.move?, Instr.request?, Instr.exec?, h, LoadOp.read]

theorem move?_sw (h : encodable n) : (Assembly.sw rd rs n note).move? c =
      some { c with memory := c.memory.write (c.get rs + wordOf n) 4 (c.get rd) } := by
  simp [Assembly.sw, Assembly.instr, Line.move?, Instr.request?, Instr.exec?, h, StoreOp.width]

end

/-- Lines that neither lead elsewhere nor make requests take the registers and the memory from one
state to another. -/
inductive Carries : List Line → Core → Core → Prop where
  | nil (c : Core) : Carries [] c c
  | cons {l : Line} {ls : List Line} {c c' c'' : Core} (head : l.move? c = some c')
      (tail : Carries ls c' c'') : Carries (l :: ls) c c''

namespace Carries

variable {xs ys : List Line} {l : Line} {c c' c'' : Core}

theorem single (h : l.move? c = some c') : Carries [l] c c' :=
  .cons h (.nil c')

theorem append (hx : Carries xs c c') (hy : Carries ys c' c'') : Carries (xs ++ ys) c c'' := by
  induction hx with
  | nil => exact hy
  | cons head _ ih => exact .cons head (ih hy)

end Carries

variable {name : String}

namespace Processor

variable {ω : Type} {P : Platform ω} {lines ls : List Line} {l : Line} {i : Instr} {k : Nat}
  {c c' : Core} {s : Processor ω} {note : Option String}

theorem step?_of_move? (hplace : s.place = .at k) (hl : lines[k]? = some l)
    (h : l.move? s.core = some c') :
    s.step? P lines = some { s with place := .at (k + 1), core := c' } := by
  unfold Line.move? at h
  split at h
  next i note =>
    split at h
    next hrequest hexec =>
      cases h
      simp [step?, hplace, hl, hrequest, hexec, follow]
    · cases h
  iterate 2
    · cases h
      simp [step?, hplace, hl]
  · cases h

theorem step?_of_jump (hplace : s.place = .at k) (hl : lines[k]? = some (.instr i note))
    (hrequest : i.request? = none) (h : i.exec? s.core = some (c', .jump name)) :
    s.step? P lines = some { s with place := behind lines name, core := c' } := by
  simp [step?, hplace, hl, hrequest, h, follow]

theorem step?_of_request {r : Asking} {world : ω} (hplace : s.place = .at k)
    (hl : lines[k]? = some (.instr i note)) (hrequest : i.request? = some r)
    (h : P.serve r s.core s.world = some (c', world)) :
    s.step? P lines = some { place := .at (k + 1), core := c', world,
                             served := s.served ++ [(r, s.core)] } := by
  simp [step?, hplace, hl, hrequest, h]

theorem reaches_of_carries (h : Carries ls c c') (hplace : s.place = .at k) (hcore : s.core = c)
    (hls : StandsAt lines k ls) :
    s.Reaches P lines { s with place := .at (k + ls.length), core := c' } := by
  induction h generalizing s k with
  | nil =>
    subst hcore
    rw [List.length_nil, Nat.add_zero, ← hplace]
    exact .refl
  | cons head _ ih =>
    subst hcore
    have hstep := step?_of_move? (P := P) hplace hls.head head
    have hrest := ih (s := { s with place := .at (k + 1), core := _ }) rfl rfl hls.tail
    rw [List.length_cons, Nat.add_comm _ 1, ← Nat.add_assoc]
    exact .head hstep hrest

end Processor

theorem behind_append {xs : List Line} (h : .label name ∉ xs) (ys : List Line) :
    behind (xs ++ .label name :: ys) name = .at (xs.length + 1) := by
  have hx : xs.idxOf? (.label name) = none := List.idxOf?_eq_none_iff.mpr h
  rw [List.idxOf?] at hx
  rw [behind, List.idxOf?, List.findIdx?_append, hx]
  simp [List.findIdx?_cons]

theorem behind_of_not_mem {lines : List Line} (h : .label name ∉ lines) :
    behind lines name = .outside name := by
  rw [behind, List.idxOf?_eq_none_iff.mpr h]

end Practicum.Riscv
