import Practicum.Proofs.Choco.TypeOrder
import Practicum.Proofs.IR.Splicing

/-!
# What is recorded of the numbers of a program

Every number that a program uses is given away once, for one value or for one operation. A ledger
records what for: of a value its nature, which is as much of its type as matters, and of an
operation what it does. Programs change, but what is recorded of a number stays.
-/

namespace Practicum.Flat

open Choco IR Editing List Op Nat

variable {code : FlatCode} {results : List Nature} {operands vs : List Val} {o : Op} {g : Val → Val}

/-! ## Natures -/

/-- What is known of a value: that it is an integer, that it is none and no truth value either, or
nothing. -/
inductive Nature where
  | integer
  | foreign
  | unknown
  deriving DecidableEq, Repr

namespace Nature

def ofLiteral : Literal → Nature
  | .int .. => .integer
  | .bool _ => .unknown
  | _ => .foreign

def ofType : SourceType → Nature
  | .int => .integer
  | .bool => .unknown
  | .object => .unknown
  | _ => .foreign

/-- Whether a value of a nature can stand for a value of another one. -/
def Admits (expected found : Nature) : Prop :=
  expected = .unknown ∨ found = expected

theorem Admits.refl (c : Nature) : c.Admits c :=
  .inr rfl

theorem admits_unknown (c : Nature) : unknown.Admits c :=
  .inl rfl

theorem ofType_literalType (v : Literal) : ofType (Typing.literalType v) = ofLiteral v := by
  cases v <;> rfl

/-- A value that can be stored where a type is declared has the nature of that type, unless the type
says nothing. -/
theorem admits_of_assignable {t u : SourceType} (h : t.assignable u = true) :
    (ofType u).Admits (ofType t) := by
  obtain rfl | rfl | ⟨rfl, hu⟩ | ⟨rfl, hu⟩ | ⟨_, rfl, rfl, -⟩ := SourceType.cases_of_assignable h
  · exact .refl _
  · exact admits_unknown _
  · cases u <;> first | exact admits_unknown _ | exact .refl _ | simp [SourceType.nullable] at hu
  · cases u <;> first | exact .refl _ | simp [SourceType.isList] at hu
  · exact .refl _

theorem admits_join (t u : SourceType) :
    (ofType (t.join u)).Admits (ofType t) ∧ (ofType (t.join u)).Admits (ofType u) := by
  rw [SourceType.join]
  split
  next h => exact ⟨admits_of_assignable h, .refl _⟩
  split
  next h => exact ⟨.refl _, admits_of_assignable h⟩
  · exact ⟨admits_unknown _, admits_unknown _⟩

end Nature

abbrev Arithmetic (op : String) : Prop :=
  Typing.arithmetic.contains op = true

/-- What an operation asks of the natures of its operands and its results. The operands of
arithmetic and its results have one nature, and nobody computes with what `print` returns. -/
def Suits : FlatCode → List Nature → List Nature → Prop
  | .literal v, _, results => ∀ c ∈ results, c = .ofLiteral v
  | .unary op, _, results => ∀ c ∈ results, c = if op = "-" then .integer else .unknown
  | .binary op, operands, results =>
    if Typing.arithmetic.contains op then
      ∃ c, c ≠ .unknown ∧ (∀ a ∈ operands, a = c) ∧ ∀ a ∈ results, a = c
    else ∀ c ∈ results, c = .unknown
  | .lazyBinary _, _, results => ∀ c ∈ results, c = .unknown
  | .call func, _, results => func = "print" ∨ func = "input" → ∀ c ∈ results, c ≠ .integer
  | .funcDef .., _, results => results = []
  | .yield, _, results => results = []
  | _, _, _ => True

/-- Operations that ask nothing. -/
def Plain : FlatCode → Prop
  | .literal _ | .unary _ | .binary _ | .lazyBinary _ | .call _ | .funcDef .. | .yield | .choice =>
    False
  | _ => True

theorem Plain.suits (h : Plain code) (operands results : List Nature) :
    Suits code operands results := by
  cases code <;> trivial

theorem Suits.of_admits {f f' : Val → Nature} (h : Suits code (vs.map f) results)
    (hf : ∀ v ∈ vs, (f v).Admits (f' v)) : Suits code (vs.map f') results := by
  cases code with
  | binary _ =>
    simp only [Suits] at h ⊢
    split at h
    next hop =>
      obtain ⟨c, hc, hoperands, hresults⟩ := h
      rw [if_pos hop]
      refine ⟨c, hc, fun a ha => ?_, hresults⟩
      obtain ⟨v, hv, rfl⟩ := mem_map.mp ha
      have hv' := hoperands _ (mem_map_of_mem hv)
      rw [(hf v hv).resolve_left (hv' ▸ hc), hv']
    next hop =>
      rw [if_neg hop]
      exact h
  | _ => exact h

/-! ## Ledgers -/

/-- What is recorded of the numbers of a program. -/
structure Ledger where
  nature : Nat → Nature
  code : Nat → FlatCode

namespace Ledger

def of (L : Ledger) (v : Val) : Nature :=
  L.nature v.id

/-- A ledger for more numbers that records of the old ones what another ledger does. -/
structure Extends (L : Ledger) (n : Nat) (L' : Ledger) (n' : Nat) : Prop where
  le : n ≤ n'
  nature : ∀ i, i < n → L'.nature i = L.nature i
  code : ∀ i, i < n → L'.code i = L.code i

variable {L L1 L2 : Ledger} {n n1 n2 : Nat}

theorem Extends.refl (L : Ledger) (n : Nat) : L.Extends n L n :=
  ⟨le_refl n, fun _ _ => rfl, fun _ _ => rfl⟩

theorem Extends.trans (h1 : L.Extends n L1 n1) (h2 : L1.Extends n1 L2 n2) : L.Extends n L2 n2 where
  le := le_trans h1.le h2.le
  nature i hi := (h2.nature i (lt_of_lt_of_le hi h1.le)).trans (h1.nature i hi)
  code i hi := (h2.code i (lt_of_lt_of_le hi h1.le)).trans (h1.code i hi)

def withNature (L : Ledger) (n : Nat) (c : Nature) : Ledger :=
  { L with nature := fun i => if i = n then c else L.nature i }

def withCode (L : Ledger) (n : Nat) (code : FlatCode) : Ledger :=
  { L with code := fun i => if i = n then code else L.code i }

theorem extends_withNature (L : Ledger) (n : Nat) (c : Nature) :
    L.Extends n (L.withNature n c) (n + 1) :=
  ⟨Nat.le_succ n, fun _ hi => if_neg (Nat.ne_of_lt hi), fun _ _ => rfl⟩

theorem extends_withCode (L : Ledger) (n : Nat) (code : FlatCode) :
    L.Extends n (L.withCode n code) (n + 1) :=
  ⟨Nat.le_succ n, fun _ _ => rfl, fun _ hi => if_neg (Nat.ne_of_lt hi)⟩

theorem nature_withNature (L : Ledger) (n : Nat) (c : Nature) : (L.withNature n c).nature n = c :=
  if_pos rfl

theorem Extends.map_of (h : L.Extends n L1 n1) (hvs : ∀ v ∈ vs, v.id < n) :
    vs.map L1.of = vs.map L.of :=
  map_congr_left fun v hv => h.nature v.id (hvs v hv)

end Ledger

/-! ## Regular operations -/

variable {calls calls' : Nat → String → Prop} {L L' : Ledger} {n n' : Nat}
  {f : Op → Option (List Op)} {natures : List Nature} {ops : List Op}
variable {regions : List Block} {y : Op}

/-- An operation ends a block whose value stands for values of some natures. -/
structure Closes (L : Ledger) (n : Nat) (natures : List Nature) (y : Op) : Prop where
  code : y.code = .flat .yield
  recorded : L.code y.id = .yield
  below : y.id < n
  value : ∀ w ∈ y.operands, w.id < n ∧ ∀ c ∈ natures, c.Admits (L.of w)

/-- What an operation consists of fits together. -/
structure Ready (L : Ledger) (n : Nat) (code : FlatCode) (operands : List Val)
    (results : List Nature) (regions : List Block) : Prop where
  reads : ∀ v ∈ operands, v.id < n
  suits : Suits code (operands.map L.of) results
  bare : (∃ v, code = .literal v) ∨ (∃ f, code = .call f) → regions = []
  closes : code = .choice → ∀ b ∈ regions, ∀ y, b.ops.getLast? = some y → Closes L n results y

theorem Ready.plain (hcode : Plain code) (hreads : ∀ v ∈ operands, v.id < n) :
    Ready L n code operands results regions where
  reads := hreads
  suits := hcode.suits _ _
  bare := by
    rintro (⟨v, rfl⟩ | ⟨f, rfl⟩) <;> exact hcode.elim
  closes := by
    rintro rfl
    exact hcode.elim

/-- An operation of the flat level is as the ledger has it. -/
structure Regular (calls : Nat → String → Prop) (L : Ledger) (n : Nat) (o : Op) : Prop where
  code : o.code = .flat (L.code o.id)
  below : o.id < n
  results : ∀ v ∈ o.results, v.id < n
  single : o.results.length ≤ 1
  call : ∀ f, L.code o.id = .call f → calls o.id f
  ready : Ready L n (L.code o.id) o.operands (o.results.map L.of) o.regions

theorem Closes.mono (h : Closes L n natures y) (hext : L.Extends n L' n') :
    Closes L' n' natures y where
  code := h.code
  recorded := (hext.code _ h.below).trans h.recorded
  below := lt_of_lt_of_le h.below hext.le
  value w hw := by
    obtain ⟨hlt, hadmits⟩ := h.value w hw
    refine ⟨lt_of_lt_of_le hlt hext.le, fun c hc => ?_⟩
    rw [Ledger.of, hext.nature _ hlt]
    exact hadmits c hc

theorem Ready.mono (h : Ready L n code operands results regions)
    (hext : L.Extends n L' n') : Ready L' n' code operands results regions where
  reads v hv := lt_of_lt_of_le (h.reads v hv) hext.le
  suits := by
    rw [hext.map_of h.reads]
    exact h.suits
  bare := h.bare
  closes hcode b hb y hy := (h.closes hcode b hb y hy).mono hext

theorem Regular.mono (h : Regular calls L n o) (hext : L.Extends n L' n') :
    Regular calls L' n' o where
  code := by
    rw [hext.code _ h.below]
    exact h.code
  below := lt_of_lt_of_le h.below hext.le
  results v hv := lt_of_lt_of_le (h.results v hv) hext.le
  single := h.single
  call := by
    rw [hext.code _ h.below]
    exact h.call
  ready := by
    rw [hext.code _ h.below, hext.map_of h.results]
    exact h.ready.mono hext

theorem Regular.imp (h : Regular calls L n o)
    (hcalls : ∀ f, L.code o.id = .call f → calls' o.id f) : Regular calls' L n o :=
  ⟨h.code, h.below, h.results, h.single, hcalls, h.ready⟩

theorem each_mono (h : Each (Regular calls L n) ops) (hext : L.Extends n L' n') :
    Each (Regular calls L' n') ops :=
  Each.mono h fun _ ho => ho.mono hext

theorem Regular.flat? (h : Regular calls L n o) : o.flat? = some (L.code o.id) := by
  rw [Op.flat?, h.code]

theorem Regular.nature_result {r v : Val} (h : Regular calls L n o) (hr : r ∈ o.results)
    (hv : v ∈ o.results) : r = v := by
  obtain ⟨w, hw⟩ : ∃ w, o.results = [w] := by
    rw [← length_eq_one_iff]
    have := length_pos_of_mem hr
    have := h.single
    omega
  rw [hw, mem_singleton] at hr hv
  rw [hr, hv]

/-! ## Regular operations when others change -/

section
variable (hg : ∀ v, v.id < n → (g v).id < n ∧ (L.of v).Admits (L.of (g v)))
include hg

theorem Closes.rename (h : Closes L n natures y) : Closes L n natures (mapOperands g y) where
  code := (code_mapOperands g y).trans h.code
  recorded := by
    rw [id_mapOperands]
    exact h.recorded
  below := by
    rw [id_mapOperands]
    exact h.below
  value w hw := by
    rw [mapOperands_eq] at hw
    obtain ⟨v, hv, rfl⟩ := mem_map.mp hw
    obtain ⟨hlt, hadmits⟩ := h.value v hv
    obtain ⟨hglt, hgadmits⟩ := hg v hlt
    refine ⟨hglt, fun c hc => ?_⟩
    obtain hc' | hc' := hadmits c hc
    · exact .inl hc'
    · exact hc' ▸ hgadmits

theorem Ready.renameRegions (h : Ready L n code operands results regions) :
    Ready L n code operands results (mapOperandsRegions g regions) where
  reads := h.reads
  suits := h.suits
  bare hcode := by
    rw [h.bare hcode]
    rfl
  closes hcode b hb y hy := by
    rw [mapOperandsRegions_eq] at hb
    obtain ⟨b0, hb0, rfl⟩ := mem_map.mp hb
    rw [Block.ops, mapOperandsAll_eq, List.getLast?_map, Option.map_eq_some_iff] at hy
    obtain ⟨y0, hy0, rfl⟩ := hy
    exact (h.closes hcode b0 hb0 y0 hy0).rename hg

theorem Regular.rename (h : Regular calls L n o) : Regular calls L n (mapOperands g o) := by
  rw [mapOperands_eq]
  have hready := h.ready.renameRegions hg
  refine ⟨h.code, h.below, h.results, h.single, h.call, ?_, ?_, hready.bare, hready.closes⟩
  · exact forall_mem_map.mpr fun v hv => (hg v (h.ready.reads v hv)).1
  · show Suits _ ((o.operands.map g).map L.of) _
    rw [map_map]
    exact h.ready.suits.of_admits fun v hv => (hg v (h.ready.reads v hv)).2

theorem Regular.renameInside (h : Regular calls L n o) :
    Regular calls L n (o.withRegions (mapOperandsRegions g o.regions)) :=
  ⟨h.code, h.below, h.results, h.single, h.call, h.ready.renameRegions hg⟩

end

theorem getLast?_splice (hf : ∀ x, ops.getLast? = some x → f x = none)
    (hy : (spliceAll f ops).getLast? = some y) :
    ∃ x, ops.getLast? = some x ∧ y = spliceInside f x := by
  cases hops : ops.getLast? with
  | none =>
    rw [List.getLast?_eq_none_iff] at hops
    rw [hops] at hy
    cases hy
  | some x =>
    obtain ⟨_, rfl⟩ := List.getLast?_eq_some_iff.mp hops
    rw [spliceAll_eq, flatMap_append, flatMap_cons, flatMap_nil, hf x hops,
      List.getLast?_append] at hy
    exact ⟨x, rfl, (Option.some.inj hy).symm⟩

theorem Regular.splice (h : Regular calls L n o) (hf : ∀ x, L.code x.id = .yield → f x = none)
    (hcalls : ∀ func, calls o.id func → calls' o.id func) :
    Regular calls' L n (spliceInside f o) := by
  rw [spliceInside_eq]
  refine ⟨h.code, h.below, h.results, h.single, fun func hfunc => hcalls func (h.call func hfunc),
    h.ready.reads, h.ready.suits, fun hcode => ?_, fun hcode b hb y hy => ?_⟩
  · rw [regions_withRegions, h.ready.bare hcode]
    rfl
  · rw [regions_withRegions, spliceRegions_eq] at hb
    obtain ⟨b0, hb0, rfl⟩ := mem_map.mp hb
    have hclose := h.ready.closes hcode b0 hb0
    obtain ⟨x, hx, rfl⟩ := getLast?_splice (fun x hx => hf x (hclose x hx).recorded) hy
    rw [spliceInside_eq]
    exact ⟨(hclose x hx).code, (hclose x hx).recorded, (hclose x hx).below, (hclose x hx).value⟩

end Practicum.Flat
