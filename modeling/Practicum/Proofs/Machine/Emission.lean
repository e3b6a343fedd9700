import Practicum.Machine.OfFlat
import Practicum.Riscv.Runtime

/-!
# Where the instructions of one operation lead

The instructions made for one operation of the flat level branch to labels of the run-time library
or to labels that are placed among them. There is one exception: a conditional statement jumps past
its second block to the label of a conditional expression, and places a label of its own instead.
-/

namespace Practicum.Riscv

open Machine

def Line.target? : Line → Option String
  | .instr (.branch _ _ _ (.label name)) _ => some name
  | .instr (.swappedBranch _ _ _ (.label name)) _ => some name
  | .instr (.zeroBranch _ _ (.label name)) _ => some name
  | .instr (.jump (.label name)) _ => some name
  | .instr (.jumpLink _ (.label name)) _ => some name
  | .instr (.jumpLinkReg _ _ (.label name)) _ => some name
  | _ => none

def labelsOf (lines : List Line) : List String :=
  lines.filterMap fun
    | .label name => some name
    | _ => none

theorem mem_labelsOf {lines : List Line} {name : String} :
    name ∈ labelsOf lines ↔ .label name ∈ lines := by
  rw [labelsOf, List.mem_filterMap]
  constructor
  · rintro ⟨l, hl, hname⟩
    cases l with
    | label x =>
      cases hname
      exact hl
    | _ => cases hname
  · intro h
    exact ⟨_, h, rfl⟩

end Practicum.Riscv

namespace Practicum.IR

def MachineCode.target? : MachineCode → Option String
  | .branch _ (.label name) => some name
  | .jump (.label name) => some name
  | _ => none

namespace Op

def target? (o : Op) : Option String :=
  o.machine?.bind MachineCode.target?

def Lands (o : Op) (name : String) : Prop :=
  o.machine? = some (.label name)

theorem code_of_machine? {o : Op} {code : MachineCode} (h : o.machine? = some code) :
    ∃ note, o.code = .machine code note := by
  unfold machine? at h
  split at h
  next hcode =>
    cases h
    exact ⟨_, hcode⟩
  · cases h

theorem code_of_flat? {o : Op} {code : FlatCode} (h : o.flat? = some code) :
    o.code = .flat code := by
  unfold flat? at h
  split at h
  next hcode =>
    cases h
    exact hcode
  · cases h

end Op

end Practicum.IR

namespace Practicum.Machine

open IR Riscv List

def Placed (ops : List Op) (name : String) : Prop :=
  ∃ o ∈ ops, o.Lands name

/-- A label can be led to: the library has it, one of some operations places it, or it is the label
to which a conditional statement among them jumps by mistake. -/
def Reached (ops : List Op) (name : String) : Prop :=
  name ∈ labelsOf Runtime.library ∨ Placed ops name ∨
    ∃ n, name = numbered "_if_expr_after_" n ∧ Placed ops (numbered "_if_after_" n)

def Leads (ops among : List Op) : Prop :=
  ∀ o ∈ ops, ∀ name, o.target? = some name → Reached among name

variable {ops xs ys among : List Op} {o : Op} {name : String}

theorem Placed.mono (h : Placed xs name) (hsub : xs ⊆ ys) : Placed ys name := by
  obtain ⟨o, ho, hland⟩ := h
  exact ⟨o, hsub ho, hland⟩

theorem Reached.imp (h : Reached xs name) (hys : ∀ {name}, Placed xs name → Placed ys name) :
    Reached ys name := by
  obtain hlib | hplaced | ⟨n, hn, hplaced⟩ := h
  · exact .inl hlib
  · exact .inr (.inl (hys hplaced))
  · exact .inr (.inr ⟨n, hn, hys hplaced⟩)

theorem Reached.mono (h : Reached xs name) (hsub : xs ⊆ ys) : Reached ys name :=
  h.imp fun hplaced => hplaced.mono hsub

theorem leads_nil : Leads [] among :=
  nofun

/-! ## New operations -/

/-- What making operations gives has a property, and the numbers that were not in use above a number
are still not in use below it. -/
def Emits {α : Type} (least : Nat) (Q : α → Prop) (e : Emit α) : Prop :=
  ∀ n, least ≤ n → least ≤ (e.run n).2 ∧ Q (e.run n).1

variable {α β : Type} {least : Nat}

namespace Emits

variable {Q Q' : α → Prop} {R : β → Prop}

theorem pure {a : α} (h : Q a) : Emits least Q (Pure.pure a : Emit α) :=
  fun _ hn => ⟨hn, h⟩

theorem bind {e : Emit α} {f : α → Emit β} (he : Emits least Q e)
    (hf : ∀ a, Q a → Emits least R (f a)) : Emits least R (e >>= f) := by
  intro n hn
  obtain ⟨hnext, ha⟩ := he n hn
  exact hf _ ha _ hnext

theorem mono {e : Emit α} (he : Emits least Q e) (h : ∀ a, Q a → Q' a) : Emits least Q' e :=
  fun n hn => ⟨(he n hn).1, h _ (he n hn).2⟩

end Emits

/-- A new operation of the machine level: its number is new and nothing is nested in it. -/
structure Made (least : Nat) (code : MachineCode) (o : Op) : Prop where
  fresh : least ≤ o.id
  regions : o.regions = []
  machine : ∃ note, o.code = .machine code note

variable {code : MachineCode}

theorem Made.machine? (h : Made least code o) : o.machine? = some code := by
  obtain ⟨_, hcode⟩ := h.machine
  rw [Op.machine?, hcode]

theorem Made.target? (h : Made least code o) : o.target? = code.target? := by
  rw [Op.target?, h.machine?]
  rfl

/-! ## Code without control flow -/

/-- A function can be called: it allocates memory on the heap, is one of the library, or is among
others. -/
def Callable (known : String → Prop) (func : String) : Prop :=
  func = "_malloc" ∨ func ∈ labelsOf Runtime.library ∨ known func

/-- An operation of the machine level leads to the library only, calls what can be called, and
places no label. -/
structure Sober (known : String → Prop) (code : MachineCode) : Prop where
  target : ∀ name, code.target? = some name → name ∈ labelsOf Runtime.library
  call : ∀ func, code = .call func → Callable known func
  label : ∀ name, code ≠ .label name

/-- New operations that lead to the library only. -/
def Straight (least : Nat) (known : String → Prop) (ops : List Op) : Prop :=
  ∀ o ∈ ops, ∃ code, Made least code o ∧ Sober known code

variable {known : String → Prop} {func : String}

theorem Sober.plain (htarget : code.target? = none := by rfl)
    (hcall : ∀ func, code ≠ .call func := by nofun)
    (hlabel : ∀ name, code ≠ .label name := by nofun) : Sober known code where
  target name hname := by
    rw [htarget] at hname
    cases hname
  call func hfunc := absurd hfunc (hcall func)
  label := hlabel

theorem Sober.branch (hname : name ∈ labelsOf Runtime.library) (op : BranchOp) :
    Sober known (.branch op (.label name)) where
  target t ht := by
    cases ht
    exact hname
  call func hfunc := by cases hfunc
  label := nofun

theorem Sober.callable (hfunc : Callable known func) : Sober known (.call func) where
  target t ht := by cases ht
  call f hf := by
    cases hf
    exact hfunc
  label := nofun

theorem Straight.leads (h : Straight least known ops) : Leads ops among := by
  intro o ho name hname
  obtain ⟨_, hmade, hsober⟩ := h o ho
  rw [hmade.target?] at hname
  exact .inl (hsober.target name hname)

abbrev One (least : Nat) (known : String → Prop) (o : Op) : Prop :=
  ∃ code, Made least code o ∧ Sober known code

theorem mem_library_of_fault
    (h : name ∈ ["_error_len_none", "_error_div_zero", "_list_index_none", "_list_index_oob"]) :
    name ∈ labelsOf Runtime.library := by
  revert name
  decide +kernel

/-- Two ways of making something take the same numbers, and what they give is related. -/
def Mirrored {α : Type} (least : Nat) (R : α → α → Prop) (e e' : Emit α) : Prop :=
  ∀ n, least ≤ n → least ≤ (e.run n).2 ∧ (e'.run n).2 = (e.run n).2 ∧ R (e.run n).1 (e'.run n).1

namespace Mirrored

variable {R : α → α → Prop} {S : β → β → Prop}

theorem pure {a a' : α} (h : R a a') :
    Mirrored least R (Pure.pure a : Emit α) (Pure.pure a' : Emit α) :=
  fun _ hn => ⟨hn, rfl, h⟩

theorem bind {e e' : Emit α} {f f' : α → Emit β} (he : Mirrored least R e e')
    (hf : ∀ a a', R a a' → Mirrored least S (f a) (f' a')) :
    Mirrored least S (e >>= f) (e' >>= f') := by
  intro n hn
  obtain ⟨hle, hnext, hR⟩ := he n hn
  obtain ⟨hle', hnext', hS⟩ := hf _ _ hR _ hle
  refine ⟨hle', ?_, ?_⟩
  · exact (congrArg (fun k => ((f' (e'.run n).1).run k).2) hnext).trans hnext'
  · show S _ ((f' (e'.run n).1).run (e'.run n).2).1
    rw [hnext]
    exact hS

theorem map {e e' : Emit α} {f : α → β} (he : Mirrored least R e e')
    (hf : ∀ a a', R a a' → S (f a) (f a')) : Mirrored least S (f <$> e) (f <$> e') :=
  fun n hn => ⟨(he n hn).1, (he n hn).2.1, hf _ _ (he n hn).2.2⟩

theorem of_exists {e : Emit α} {made : Option (Emit α)} (he : made = some e)
    (h : ∃ e', made = some e' ∧ Mirrored least R e e') : Mirrored least R e e := by
  obtain ⟨e', he', hmir⟩ := h
  cases he.symm.trans he'
  exact hmir

end Mirrored

section
variable {F : List Op → List Op} {σ : Val → Val}

abbrev Becomes (F : List Op → List Op) (o o' : Op) : Prop :=
  F [o] = [o']

/-- An operation with a new result becomes another one with the same result. -/
structure Computes (F : List Op → List Op) (σ : Val → Val) (c c' : Op × Val) : Prop where
  op : Becomes F c.1 c'.1
  value : c'.2 = σ c.2
  fixed : σ c.2 = c.2

/-- Code becomes other code with the same value. -/
structure Codes (F : List Op → List Op) (c c' : Code) : Prop where
  ops : F c.ops = c'.ops
  value : c'.value = c.value

theorem Computes.same {c c' : Op × Val} (h : Computes F σ c c') : c'.2 = c.2 :=
  h.value.trans h.fixed

/-- A change of lists of operations that renames the operands of new operations without control
flow; new values keep their names. -/
structure Transports (least : Nat) (known : String → Prop) (F : List Op → List Op) (σ : Val → Val) :
    Prop where
  nil : F [] = []
  append : ∀ xs ys, F (xs ++ ys) = F xs ++ F ys
  made : ∀ {id code note operands results}, least ≤ id → Sober known code →
    F [.mk id (.machine code note) operands results []] =
      [.mk id (.machine code note) (operands.map σ) results []]
  fresh : ∀ {v : Val}, least ≤ v.id → σ v = v

namespace Transports

variable (hF : Transports least known F σ)
include hF

variable {a a' b b' : Val} {vs vs' : List Val} {op : String}

theorem cons {o' : Op} {os os' : List Op} (ho : Becomes F o o') (hos : F os = os') :
    F (o :: os) = o' :: os' := by
  rw [← singleton_append, hF.append, ho, hos, singleton_append]

theorem step (hcode : Sober known code) (hvs : vs' = vs.map σ) :
    Mirrored least (Becomes F) (step code vs) (step code vs') := by
  subst hvs
  exact fun n hn => ⟨Nat.le_succ_of_le hn, rfl, hF.made hn hcode⟩

theorem compute (hcode : Sober known code) (note : Option String) (hvs : vs' = vs.map σ) :
    Mirrored least (Computes F σ) (compute code vs note) (compute code vs' note) := by
  subst hvs
  have hfresh {n : Nat} (hn : least ≤ n) : σ ⟨n, .register⟩ = ⟨n, .register⟩ := hF.fresh hn
  exact fun n hn => ⟨Nat.le_succ_of_le (Nat.le_succ_of_le hn), rfl,
    hF.made (Nat.le_succ_of_le hn) hcode, (hfresh hn).symm, hfresh hn⟩

theorem constant (k : Int) : Mirrored least (Computes F σ) (constant k) (constant k) :=
  hF.compute .plain _ rfl

theorem alloc :
    Mirrored least (Computes F σ) (Machine.compute .alloc []) (Machine.compute .alloc []) :=
  hF.compute .plain _ rfl

theorem callValue (hfunc : Callable known func) (hvs : vs' = vs.map σ) :
    Mirrored least (Computes F σ) (callValue func vs) (callValue func vs') :=
  hF.compute (.callable hfunc) _ hvs

theorem register (op : RegOp) (note : Option String) (ha : a' = σ a) (hb : b' = σ b) :
    Mirrored least (Computes F σ) (register op a b note) (register op a' b' note) :=
  hF.compute .plain _ (by rw [ha, hb]; rfl)

theorem immediate (op : ImmOp) (k : Int) (note : Option String) (ha : a' = σ a) :
    Mirrored least (Computes F σ) (immediate op a k note) (immediate op a' k note) :=
  hF.compute .plain _ (by rw [ha]; rfl)

theorem loadAt (k : Int) (ha : a' = σ a) :
    Mirrored least (Computes F σ) (loadAt a k) (loadAt a' k) :=
  hF.compute .plain _ (by rw [ha]; rfl)

theorem storeAt (k : Int) (ha : a' = σ a) (hb : b' = σ b) :
    Mirrored least (Becomes F) (storeAt a b k) (storeAt a' b' k) :=
  hF.step .plain (by rw [ha, hb]; rfl)

theorem fault
    (h : name ∈ ["_error_len_none", "_error_div_zero", "_list_index_none", "_list_index_oob"])
    (ha : a' = σ a) (hb : b' = σ b) :
    Mirrored least (Becomes F) (branchIfEqual a b name) (branchIfEqual a' b' name) :=
  hF.step (.branch (mem_library_of_fault h) _) (by rw [ha, hb]; rfl)

theorem only {e e' : Emit Op} (h : Mirrored least (Becomes F) e e') :
    Mirrored least (Codes F) (do return { ops := [← e] }) (do return { ops := [← e'] }) :=
  h.bind fun _ _ h => .pure ⟨hF.cons h hF.nil, rfl⟩

theorem single {e e' : Emit (Op × Val)} (h : Mirrored least (Computes F σ) e e') :
    Mirrored least (Codes F) (Code.single <$> e) (Code.single <$> e') :=
  h.map fun _ _ h => ⟨hF.cons h.op hF.nil, congrArg some h.same⟩

theorem allocateWords (n : Nat) :
    Mirrored least (fun c c' => F c.1 = c'.1 ∧ c'.2 = σ c.2 ∧ σ c.2 = c.2) (allocateWords n)
      (allocateWords n) := by
  refine (hF.constant _).bind fun _ _ hsize => ?_
  refine (hF.constant _).bind fun _ _ hlength => ?_
  refine (hF.callValue (.inl rfl) (by rw [hsize.value]; rfl)).bind fun _ _ hmalloc => ?_
  refine (hF.storeAt _ hlength.value hmalloc.value).bind fun _ _ hstore => .pure ?_
  refine ⟨?_, hmalloc.value, hmalloc.fixed⟩
  exact hF.cons hsize.op (hF.cons hlength.op (hF.cons hmalloc.op (hF.cons hstore hF.nil)))

theorem storeElems (ha : a' = σ a) (vs : List Val) (k : Nat) :
    Mirrored least (fun os os' => F os = os') (storeElems a k vs) (storeElems a' k (vs.map σ)) := by
  induction vs generalizing k with
  | nil => exact .pure hF.nil
  | cons v vs ih =>
    refine (hF.storeAt _ rfl ha).bind fun _ _ hstore => ?_
    exact (ih (k + 1)).bind fun os os' hos => .pure (hF.cons hstore hos)

theorem storeChars (ha : a' = σ a) (cs : List Char) (k : Nat) :
    Mirrored least (fun os os' => F os = os') (storeChars a k cs) (storeChars a' k cs) := by
  induction cs generalizing k with
  | nil => exact .pure hF.nil
  | cons c cs ih =>
    refine (hF.constant _).bind fun _ _ hchar => ?_
    refine (hF.storeAt _ hchar.value ha).bind fun _ _ hstore => ?_
    refine (ih (k + 1)).bind fun os os' hos => .pure ?_
    exact hF.cons hchar.op (hF.cons hstore hos)

theorem list (hvs : vs' = vs.map σ) : Mirrored least (Codes F) (list vs) (list vs') := by
  subst hvs
  unfold list
  rw [length_map]
  refine (hF.allocateWords _).bind fun _ _ hblock => ?_
  refine (hF.storeElems hblock.2.1 vs 0).bind fun _ _ hos => .pure ⟨?_, ?_⟩
  · rw [hF.append, hblock.1, hos]
  · rw [hblock.2.1, hblock.2.2]

theorem literal (v : Choco.Literal) : Mirrored least (Codes F) (literal v) (literal v) := by
  cases v with
  | none | bool | int => exact hF.single (hF.constant _)
  | str s =>
    refine (hF.allocateWords _).bind fun _ _ hblock => ?_
    refine (hF.storeChars hblock.2.1 _ 0).bind fun _ _ hos => .pure ⟨?_, ?_⟩
    · rw [hF.append, hblock.1, hos]
    · rw [hblock.2.1, hblock.2.2]

theorem length (v : Val) : Mirrored least (Codes F) (length v) (length (σ v)) := by
  refine (hF.constant _).bind fun _ _ hzero => ?_
  refine (hF.fault (by decide) rfl hzero.value).bind fun _ _ hcheck => ?_
  refine (hF.loadAt _ rfl).bind fun _ _ hread => .pure ⟨?_, congrArg some hread.same⟩
  exact hF.cons hzero.op (hF.cons hcheck (hF.cons hread.op hF.nil))

theorem unary {v : Val} {e : Emit Code} (he : unary op v = some e) :
    ∃ e', unary op (σ v) = some e' ∧ Mirrored least (Codes F) e e' := by
  unfold Machine.unary at he
  split at he
  · cases he
    exact ⟨_, rfl, hF.single (hF.immediate _ _ _ rfl)⟩
  · cases he
    refine ⟨_, rfl, (hF.constant _).bind fun _ _ hzero => ?_⟩
    refine (hF.register _ _ hzero.value rfl).bind fun _ _ hsub => .pure ⟨?_, ?_⟩
    · exact hF.cons hzero.op (hF.cons hsub.op hF.nil)
    · exact congrArg some hsub.same
  · cases he

theorem division (op : RegOp) (a b : Val) :
    Mirrored least (Codes F) (division op a b) (division op (σ a) (σ b)) := by
  refine (hF.constant _).bind fun _ _ hzero => ?_
  refine (hF.fault (by decide) rfl hzero.value).bind fun _ _ hcheck => ?_
  refine (hF.register _ _ rfl rfl).bind fun _ _ hdiv => .pure ⟨?_, congrArg some hdiv.same⟩
  exact hF.cons hzero.op (hF.cons hcheck (hF.cons hdiv.op hF.nil))

theorem notLess (a b : Val) : Mirrored least (Codes F) (notLess a b) (notLess (σ a) (σ b)) := by
  refine (hF.register _ _ rfl rfl).bind fun _ _ hless => ?_
  refine (hF.immediate _ _ _ hless.value).bind fun _ _ hnegate => .pure ⟨?_, ?_⟩
  · exact hF.cons hless.op (hF.cons hnegate.op hF.nil)
  · exact congrArg some hnegate.same

theorem sameWord (a b : Val) : Mirrored least (Codes F) (sameWord a b) (sameWord (σ a) (σ b)) := by
  refine (hF.register _ _ rfl rfl).bind fun _ _ hxor => ?_
  refine (hF.immediate _ _ _ hxor.value).bind fun _ _ htest => .pure ⟨?_, ?_⟩
  · exact hF.cons hxor.op (hF.cons htest.op hF.nil)
  · exact congrArg some htest.same

theorem differentWord (a b : Val) :
    Mirrored least (Codes F) (differentWord a b) (differentWord (σ a) (σ b)) := by
  refine (hF.register _ _ rfl rfl).bind fun _ _ hxor => ?_
  refine (hF.constant _).bind fun _ _ hzero => ?_
  refine (hF.register _ _ hzero.value hxor.value).bind fun _ _ htest => .pure ⟨?_, ?_⟩
  · exact hF.cons hxor.op (hF.cons hzero.op (hF.cons htest.op hF.nil))
  · exact congrArg some htest.same

theorem binary {e : Emit Code} (he : binary op a b = some e) :
    ∃ e', binary op (σ a) (σ b) = some e' ∧ Mirrored least (Codes F) e e' := by
  unfold Machine.binary at he
  split at he
  all_goals cases he
  iterate 3
    · exact ⟨_, rfl, hF.single (hF.register _ _ rfl rfl)⟩
  iterate 2
    · exact ⟨_, rfl, hF.division _ _ _⟩
  iterate 2
    · exact ⟨_, rfl, hF.single (hF.register _ _ rfl rfl)⟩
  iterate 2
    · exact ⟨_, rfl, hF.notLess _ _⟩
  · exact ⟨_, rfl, hF.sameWord _ _⟩
  · exact ⟨_, rfl, hF.differentWord _ _⟩
  · exact ⟨_, rfl, hF.sameWord _ _⟩

theorem elementAddress (v i : Val) (notes : BoundNotes) :
    Mirrored least (fun c c' => F c.1 = c'.1 ∧ c'.2.1 = σ c.2.1 ∧ σ c.2.1 = c.2.1 ∧
      c'.2.2 = σ c.2.2) (elementAddress v i notes) (elementAddress (σ v) (σ i) notes) := by
  refine (hF.constant _).bind fun _ _ hzero => ?_
  refine (hF.constant _).bind fun _ _ hone => ?_
  refine (hF.constant _).bind fun _ _ hfour => ?_
  refine (hF.fault (by decide) rfl hzero.value).bind fun _ _ hpresent => ?_
  refine (hF.immediate _ _ _ rfl).bind fun _ _ hnegative => ?_
  refine (hF.immediate _ _ _ rfl).bind fun _ _ hnext => ?_
  refine (hF.loadAt _ rfl).bind fun _ _ hlength => ?_
  refine (hF.register _ _ hlength.value hnext.value).bind fun _ _ hlarge => ?_
  refine (hF.register _ _ hnegative.value hlarge.value).bind fun _ _ houtside => ?_
  refine (hF.fault (by decide) houtside.value hone.value).bind fun _ _ hinside => ?_
  refine (hF.register _ _ hnext.value hfour.value).bind fun _ _ hbytes => ?_
  refine (hF.register _ _ rfl hbytes.value).bind fun _ _ hsum => .pure ⟨?_, hsum.value,
    hsum.fixed, hone.value⟩
  exact hF.cons hzero.op (hF.cons hone.op (hF.cons hfour.op (hF.cons hpresent (hF.cons hnext.op
    (hF.cons hnegative.op (hF.cons hlength.op (hF.cons hlarge.op (hF.cons houtside.op
    (hF.cons hinside (hF.cons hbytes.op (hF.cons hsum.op hF.nil)))))))))))

theorem getAddress (v i : Val) :
    Mirrored least (Codes F) (getAddress v i) (getAddress (σ v) (σ i)) := by
  refine (hF.elementAddress v i {}).bind fun c _ hc => .pure ⟨hc.1, ?_⟩
  rw [hc.2.1, hc.2.2.1]

theorem indexString (v i : Val) :
    Mirrored least (Codes F) (indexString v i) (indexString (σ v) (σ i)) := by
  refine (hF.elementAddress v i _).bind fun c _ hc => ?_
  refine (hF.loadAt _ hc.2.1).bind fun _ _ hread => ?_
  refine (hF.constant _).bind fun _ _ hsize => ?_
  refine (hF.callValue (.inl rfl) (by rw [hsize.value]; rfl)).bind fun _ _ hmalloc => ?_
  refine (hF.storeAt _ hc.2.2.2 hmalloc.value).bind fun _ _ hlength => ?_
  refine (hF.storeAt _ hread.value hmalloc.value).bind fun _ _ hchar => ?_
  refine hF.alloc.bind fun alloc _ halloc => ?_
  refine (hF.storeAt _ hmalloc.value halloc.value).bind fun _ _ hstring => .pure ⟨?_, ?_⟩
  · rw [hF.append, hc.1]
    exact congrArg (_ ++ ·) (hF.cons hread.op (hF.cons hsize.op (hF.cons hmalloc.op
      (hF.cons hlength (hF.cons hchar (hF.cons halloc.op (hF.cons hstring hF.nil)))))))
  · exact congrArg some halloc.same

end Transports

end

abbrev EmitsStraight (least : Nat) (known : String → Prop) (e : Emit Code) : Prop :=
  Emits least (fun c => Straight least known c.ops) e

open Classical in
theorem transports_filter :
    Transports least known (filter fun o => decide (One least known o)) id where
  nil := rfl
  append _ _ := filter_append ..
  made hid hcode := by
    rw [map_id]
    exact filter_cons_of_pos (decide_eq_true ⟨_, ⟨hid, rfl, _, rfl⟩, hcode⟩)
  fresh _ := rfl

open Classical in
theorem emitsStraight_of_transported {e : Emit Code}
    (h : ∀ F, Transports least known F id → Mirrored least (Codes F) e e) :
    EmitsStraight least known e := by
  intro n hn
  obtain ⟨hle, -, hcodes⟩ := h _ transports_filter n hn
  exact ⟨hle, fun o ho => of_decide_eq_true (filter_eq_self.mp hcodes.ops o ho)⟩

/-! ## Control flow -/

/-- Operations that are new, or taken over from blocks. -/
def Woven (least : Nat) (known : String → Prop) (blocks ops : List Op) : Prop :=
  ∀ o ∈ ops, o ∈ blocks ∨
    ∃ code, Made least code o ∧ ∀ func, code = .call func → Callable known func

/-- New operations around blocks, all of whose labels can be led to. -/
def Closed (least : Nat) (known : String → Prop) (blocks ops : List Op) : Prop :=
  Woven least known blocks ops ∧ Leads ops ops

theorem Straight.closed {blocks : List Op} (h : Straight least known ops) :
    Closed least known blocks ops := by
  refine ⟨fun o ho => .inr ?_, h.leads⟩
  obtain ⟨code, hmade, hsober⟩ := h o ho
  exact ⟨code, hmade, hsober.call⟩

def placedLabels (ops : List Op) : List String :=
  ops.filterMap fun o =>
    match o.machine? with
    | some (.label name) => some name
    | _ => none

abbrev reg (n : Nat) : Val :=
  ⟨n, .register⟩

abbrev acting (n : Nat) (code : MachineCode) (operands : List Val) : Op :=
  .mk n (.machine code none) operands [] []

abbrev giving (n : Nat) (code : MachineCode) (operands : List Val) : Op :=
  .mk (n + 1) (.machine code none) operands [reg n] []

theorem run_loop (k : Nat) (cond body : List Op) (v : Val) (n : Nat) : (loop k cond v body).run n =
      ([giving n (.constant .li (word 0)) [],
        acting (n + 2) (.label (numbered "_while_start_" k)) []] ++ cond ++
        [acting (n + 3) (.branch .beq (.label (numbered "_while_after_" k))) [v, reg n]] ++ body ++
        [acting (n + 4) (.jump (.label (numbered "_while_start_" k))) [],
          acting (n + 5) (.label (numbered "_while_after_" k)) []], n + 6) :=
  rfl

theorem run_lazyOperator (after : String) (settling : Int) (lhs rhs : List Op) (l r : Val)
    (n : Nat) : (lazyOperator after settling lhs l rhs r).run n =
      ({ ops := [giving n .alloc [], giving (n + 2) (.constant .li (word settling)) []] ++ lhs ++
          [acting (n + 4) (.store .sw (word 0)) [l, reg n],
            acting (n + 5) (.branch .beq (.label after)) [l, reg (n + 2)]] ++ rhs ++
          [acting (n + 6) (.store .sw (word 0)) [r, reg n], acting (n + 7) (.label after) [],
            giving (n + 8) (.load .lw (word 0)) [reg n]], value := some (reg (n + 8)) }, n + 10) :=
  rfl

theorem run_choice (k : Nat) (cond : Val) (yes no : List Op) (a b : Val) (n : Nat) :
    (choice k cond yes a no b).run n =
      ({ ops := [giving n (.constant .li (word 0)) [], giving (n + 2) .alloc [],
            acting (n + 4) (.branch .beq (.label (numbered "_if_expr_else_" k))) [cond, reg n]] ++
          yes ++ [acting (n + 5) (.store .sw (word 0)) [a, reg (n + 2)],
            acting (n + 6) (.jump (.label (numbered "_if_expr_after_" k))) [],
            acting (n + 7) (.label (numbered "_if_expr_else_" k)) []] ++ no ++
          [acting (n + 8) (.store .sw (word 0)) [b, reg (n + 2)],
            acting (n + 9) (.label (numbered "_if_expr_after_" k)) [],
            giving (n + 10) (.load .lw (word 0)) [reg (n + 2)]],
         value := some (reg (n + 10)) }, n + 12) :=
  rfl

theorem run_branch (k : Nat) (cond : Val) (yes no : List Op) (n : Nat) :
    (branch k cond yes no).run n = ([giving n (.constant .li (word 0)) [],
        acting (n + 2) (.branch .beq (.label (numbered "_if_else_" k))) [cond, reg n]] ++ yes ++
        [acting (n + 3) (.jump (.label (numbered "_if_expr_after_" k))) [],
          acting (n + 4) (.label (numbered "_if_else_" k)) []] ++ no ++
        [acting (n + 5) (.label (numbered "_if_after_" k)) []], n + 6) :=
  rfl

/-- A new operation of control flow. -/
structure Pivot (least : Nat) (among : List Op) (o : Op) : Prop where
  made : ∃ code, Made least code o ∧ ∀ func, code ≠ .call func
  target : ∀ name, o.target? = some name → Reached among name

section
variable {n : Nat} {operands : List Val}

theorem Pivot.acting (htarget : ∀ name, code.target? = some name → Reached among name := by nofun)
    (hcall : ∀ func, code ≠ .call func := by nofun) (hn : least ≤ n := by omega) :
    Pivot least among (acting n code operands) :=
  ⟨⟨code, ⟨hn, rfl, none, rfl⟩, hcall⟩, htarget⟩

theorem Pivot.giving (htarget : ∀ name, code.target? = some name → Reached among name := by nofun)
    (hcall : ∀ func, code ≠ .call func := by nofun) (hn : least ≤ n := by omega) :
    Pivot least among (giving n code operands) :=
  ⟨⟨code, ⟨Nat.le_succ_of_le hn, rfl, none, rfl⟩, hcall⟩, htarget⟩

end

theorem reached_label (i : Nat) (h : acting i (.label name) [] ∈ among := by simp) :
    ∀ t, some name = some t → Reached among t := by
  rintro _ ⟨⟩
  exact .inr (.inl ⟨_, h, rfl⟩)

/-- Two blocks with new operations before, between and after them, which place some labels. -/
def Surrounds (least : Nat) (own : List String) (first second ops : List Op) : Prop :=
  ∃ before between behind, ops = before ++ first ++ between ++ second ++ behind ∧
    (∀ o ∈ before ++ between ++ behind, Pivot least ops o) ∧
    placedLabels before ++ placedLabels between ++ placedLabels behind = own

theorem Surrounds.closed {own : List String} {first second : List Op}
    (h : Surrounds least own first second ops) (hfirst : Leads first first)
    (hsecond : Leads second second) : Closed least known (first ++ second) ops := by
  obtain ⟨before, between, behind, rfl, hnew, -⟩ := h
  have hcases : ∀ o ∈ before ++ first ++ between ++ second ++ behind,
      o ∈ first ∨ o ∈ second ∨ o ∈ before ++ between ++ behind := by
    intro o ho
    simp only [mem_append] at ho ⊢
    obtain (((ho | ho) | ho) | ho) | ho := ho <;> simp [ho]
  constructor
  · intro o ho
    obtain ho | ho | ho := hcases o ho
    · exact .inl (mem_append_left _ ho)
    · exact .inl (mem_append_right _ ho)
    · obtain ⟨code, hmade, hcall⟩ := (hnew o ho).made
      exact .inr ⟨code, hmade, fun func hfunc => absurd hfunc (hcall func)⟩
  · intro o ho name hname
    obtain hof | hos | hon := hcases o ho
    · exact (hfirst o hof name hname).mono fun x hx => by simp [hx]
    · exact (hsecond o hos name hname).mono fun x hx => by simp [hx]
    · exact (hnew o hon).target name hname

section
variable (k : Nat) (cond : Val) (yes no : List Op)

/-- The jump over the second block goes to a label that this code does not place. -/
theorem emits_branch :
    Emits least (Surrounds least [numbered "_if_else_" k, numbered "_if_after_" k] yes no)
      (branch k cond yes no) := by
  intro n hn
  rw [run_branch]
  refine ⟨by omega, _, _, _, rfl, ?_, rfl⟩
  simp only [forall_mem_append, forall_mem_cons]
  refine ⟨⟨⟨.giving, .acting (reached_label (n + 4)), nofun⟩, .acting ?_, .acting, nofun⟩, .acting,
    nofun⟩
  rintro _ ⟨⟩
  exact .inr (.inr ⟨k, rfl, acting (n + 5) _ [], by simp, rfl⟩)

theorem emits_lazyOperator (after : String) (settling : Int) (l r : Val) :
    Emits least (fun c => Surrounds least [after] yes no c.ops)
      (lazyOperator after settling yes l no r) := by
  intro n hn
  rw [run_lazyOperator]
  refine ⟨by omega, _, _, _, rfl, ?_, rfl⟩
  simp only [forall_mem_append, forall_mem_cons]
  exact ⟨⟨⟨.giving, .giving, nofun⟩, .acting, .acting (reached_label (n + 7)), nofun⟩, .acting,
    .acting, .giving, nofun⟩

theorem emits_choice (a b : Val) : Emits least (fun c => Surrounds least
      [numbered "_if_expr_else_" k, numbered "_if_expr_after_" k] yes no c.ops)
      (choice k cond yes a no b) := by
  intro n hn
  rw [run_choice]
  refine ⟨by omega, _, _, _, rfl, ?_, rfl⟩
  simp only [forall_mem_append, forall_mem_cons]
  exact ⟨⟨⟨.giving, .giving, .acting (reached_label (n + 7)), nofun⟩, .acting,
    .acting (reached_label (n + 9)), .acting, nofun⟩, .acting, .acting, .giving, nofun⟩

theorem emits_loop :
    Emits least (Surrounds least [numbered "_while_start_" k, numbered "_while_after_" k] yes no)
      (loop k yes cond no) := by
  intro n hn
  rw [run_loop]
  refine ⟨by omega, _, _, _, rfl, ?_, rfl⟩
  simp only [forall_mem_append, forall_mem_cons]
  exact ⟨⟨⟨.giving, .acting, nofun⟩, .acting (reached_label (n + 5)), nofun⟩,
    .acting (reached_label (n + 2)), .acting, nofun⟩

end

end Practicum.Machine
