import Practicum.Proofs.Flat.Words
import Practicum.Machine.OfFlat

/-!
# Rows of operations

The operations made for one operation of the flat level without control flow run in a row. Each row
is compared with the computation on words that it stands for, one operation after the other.
-/

namespace Practicum.Machine

open IR Riscv Flat Env List Act StateT BitVec

/-- How a row of operations ends: behind its last one, or on the way to a label. -/
inductive Finish (ω : Type) where
  | on (values : Values) (s : Store ω)
  | out (label : String) (values : Values) (s : Store ω)

variable {ω : Type} {operands results : List Val} {values' : Values}

def runRow? (E : Surroundings ω) : List Op → Values → Store ω → Option (Finish ω)
  | [], values, s => some (.on values s)
  | o :: os, values, s => do
    let code ← o.machine?
    let args ← o.operands.mapM fun v => values v.id
    let e ← Effect.of? E code o.id args s.memory s.world
    let values ← values.define? o.results e.value
    let s := { memory := e.memory, world := e.world, trace := s.trace ++ e.events }
    match e.course with
    | .on => runRow? E os values s
    | .jump label => some (.out label values s)
    | .leave _ => none

/-- A row of operations performs a computation: what the computation gives stands in some relation
to the values behind the row, and if it fails then the row ends at the same label. -/
def Performs {α : Type} (E : Surroundings ω) (ops : List Op) (values : Values) (s : Store ω)
    (x : Act ω α) (post : α → Values → Prop) (fault : Values → Prop) : Prop :=
  match x.run s with
  | .ok (a, s') => ∃ values', runRow? E ops values s = some (.on values' s') ∧ post a values'
  | .error (.failed label s') =>
    ∃ values', runRow? E ops values s = some (.out label values' s') ∧ fault values'
  | .error .stuck => True

/-! ## One operation -/

variable {E : Surroundings ω} {values : Values} {s : Store ω} {a b : Val} {x y : Word}
  {fault : Values → Prop}

section
variable {i j : Nat} {w : Word} {t : Ty} {os : List Op} {g : List Block} {note : Option String}
  {k : Immediate} {op : RegOp} {args : List Word} {name func : String}

section
variable {s' : Store ω}

attribute [local simp] runRow? Op.machine? Op.code Op.operands Op.results Op.id Effect.of? Effect.pure
  Effect.go Effect.ask? define?

theorem runRow?_constant :
    runRow? E (.mk i (.machine (.constant .li k) note) [] [⟨j, t⟩] g :: os) values s =
      runRow? E os (values.set j (wordOf k.value)) s := by
  simp [ConstOp.eval?]

theorem runRow?_alloc : runRow? E (.mk i (.machine .alloc note) [] [⟨j, t⟩] g :: os) values s =
      runRow? E os (values.set j (E.slot i)) s := by
  simp

theorem runRow?_register (ha : values a.id = some x) (hb : values b.id = some y) :
    runRow? E (.mk i (.machine (.register op) note) [a, b] [⟨j, t⟩] g :: os) values s =
      runRow? E os (values.set j (op.eval x y)) s := by
  simp [ha, hb]

theorem runRow?_immediate {op : ImmOp} (hk : E.fits k.value) (ha : values a.id = some x) :
    runRow? E (.mk i (.machine (.immediate op k) note) [a] [⟨j, t⟩] g :: os) values s =
      runRow? E os (values.set j (op.eval x k.value)) s := by
  simp [ha, hk]

theorem runRow?_branch (ha : values a.id = some x) (hb : values b.id = some y) :
    runRow? E (.mk i (.machine (.branch .beq (.label name)) note) [a, b] [] g :: os) values s =
      if x = y then some (.out name values s) else runRow? E os values s := by
  by_cases h : x = y <;> simp [ha, hb, BranchOp.holds, h]

theorem runRow?_load (hk : E.fits k.value) (ha : values a.id = some x)
    (hread : (Act.read E (x + wordOf k.value)).run s = .ok (w, s')) :
    runRow? E (.mk i (.machine (.load .lw k) note) [a] [⟨j, t⟩] g :: os) values s =
      runRow? E os (values.set j w) s' := by
  by_cases hfree : E.free (x + wordOf k.value) 4
  · simp only [Act.read, run, hfree] at hread
    cases hread
    simp [ha, hk, hfree, LoadOp.width, LoadOp.read]
  · simp [Act.read, run, hfree] at hread

theorem runRow?_store (hk : E.fits k.value) (ha : values a.id = some x) (hb : values b.id = some y)
    (hwrite : (write E (y + wordOf k.value) x).run s = .ok ((), s')) :
    runRow? E (.mk i (.machine (.store .sw k) note) [a, b] [] g :: os) values s =
      runRow? E os values s' := by
  by_cases hfree : E.free (y + wordOf k.value) 4
  · simp only [write, run, hfree] at hwrite
    cases hwrite
    simp [ha, hb, hk, hfree, StoreOp.width]
  · simp [write, run, hfree] at hwrite

theorem runRow?_call (hargs : operands.mapM (fun v => values v.id) = some args)
    (hcall : (call E func args).run s = .ok (w, s'))
    (hdefine : values.define? results (some w) = some values') :
    runRow? E (.mk i (.machine (.call func) note) operands results g :: os) values s =
      runRow? E os values' s' := by
  cases hserve : E.serve (.call func) args s.memory s.world with
  | none => simp [call, run, hserve] at hcall
  | some answer =>
    obtain ⟨_, m, world⟩ := answer
    simp only [call, run, hserve] at hcall
    cases hcall
    simp [-define?, hargs, hserve, hdefine]

end

theorem word_add_zero (x : Word) : x + wordOf (word 0).value = x := by
  simp [wordOf, word]

/-! ## Computations that fail or are stuck -/

theorem read_cases (a : Word) (s : Store ω) :
    (∃ w s', (Act.read E a).run s = .ok (w, s')) ∨ (Act.read E a).run s = .error .stuck := by
  by_cases hfree : E.free a 4 <;> simp [Act.read, run, hfree]

theorem write_cases (a w : Word) (s : Store ω) : (∃ s', (write E a w).run s = .ok ((), s')) ∨
      (write E a w).run s = .error .stuck := by
  by_cases hfree : E.free a 4 <;> simp [write, run, hfree]

theorem call_cases (func : String) (args : List Word) (s : Store ω) :
    (∃ w s', (call E func args).run s = .ok (w, s')) ∨
      (call E func args).run s = .error .stuck := by
  cases hserve : E.serve (.call func) args s.memory s.world <;> simp [call, run, hserve]

namespace Performs

variable {α β : Type} {post : α → Values → Prop} {z : Act ω α}
variable {ops : List Op} {f : Word → Act ω α}

theorem done {v : α} (h : post v values) : Performs E [] values s (pure v) post fault :=
  ⟨values, rfl, h⟩

theorem congr {ops' : List Op} (hrun : runRow? E ops values s = runRow? E ops' values' s)
    (h : Performs E ops' values' s z post fault) : Performs E ops values s z post fault := by
  unfold Performs at h ⊢
  rw [hrun]
  exact h

theorem mono {post' : α → Values → Prop} {fault' : Values → Prop}
    (h : Performs E ops values s z post fault) (hpost : ∀ v values, post v values → post' v values)
    (hfault : ∀ values, fault values → fault' values) : Performs E ops values s z post' fault' := by
  unfold Performs at h ⊢
  cases hz : z.run s with
  | ok p =>
    rw [hz] at h
    exact h.imp fun _ h => h.imp_right (hpost _ _)
  | error stop =>
    rw [hz] at h
    cases stop with
    | stuck => trivial
    | failed _ _ => exact h.imp fun _ h => h.imp_right (hfault _)

theorem map {f : α → β} {post : β → Values → Prop}
    (h : Performs E ops values s z (fun v => post (f v)) fault) :
    Performs E ops values s (f <$> z) post fault := by
  unfold Performs at h ⊢
  rw [run_map]
  cases hz : z.run s with
  | ok p =>
    rw [hz] at h
    exact h
  | error stop =>
    rw [hz] at h
    cases stop <;> exact h

theorem bind_of_cases {y : Act ω β} {f : β → Act ω α}
    (hy : (∃ w s', y.run s = .ok (w, s')) ∨ y.run s = .error .stuck)
    (h : ∀ w s', y.run s = .ok (w, s') → ∃ ops' values',
      runRow? E ops values s = runRow? E ops' values' s' ∧
        Performs E ops' values' s' (f w) post fault) :
    Performs E ops values s (y >>= f) post fault := by
  unfold Performs
  rw [run_bind]
  obtain ⟨w, s', hok⟩ | hstuck := hy
  · obtain ⟨ops', values', hrun, hrest⟩ := h w s' hok
    rw [hok, hrun]
    exact hrest
  · rw [hstuck]
    trivial

theorem constant (h : Performs E os (values.set j (wordOf k.value)) s z post fault) :
    Performs E (.mk i (.machine (.constant .li k) note) [] [⟨j, t⟩] g :: os) values s z post fault :=
  h.congr runRow?_constant

theorem alloc (h : Performs E os (values.set j (E.slot i)) s z post fault) :
    Performs E (.mk i (.machine .alloc note) [] [⟨j, t⟩] g :: os) values s z post fault :=
  h.congr runRow?_alloc

theorem register (ha : values a.id = some x) (hb : values b.id = some y)
    (h : Performs E os (values.set j (op.eval x y)) s z post fault) :
    Performs E (.mk i (.machine (.register op) note) [a, b] [⟨j, t⟩] g :: os) values s z post fault :=
  h.congr (runRow?_register ha hb)

theorem immediate {op : ImmOp} (hk : E.fits k.value) (ha : values a.id = some x)
    (h : Performs E os (values.set j (op.eval x k.value)) s z post fault) :
    Performs E (.mk i (.machine (.immediate op k) note) [a] [⟨j, t⟩] g :: os) values s z post fault :=
  h.congr (runRow?_immediate hk ha)

theorem test (ha : values a.id = some x) (hb : values b.id = some y)
    (hfail : x = y → z.run s = .error (.failed name s) ∧ fault values)
    (h : x ≠ y → Performs E os values s z post fault) :
    Performs E (.mk i (.machine (.branch .beq (.label name)) note) [a, b] [] g :: os) values s z
      post fault := by
  by_cases hxy : x = y
  · unfold Performs
    rw [(hfail hxy).1]
    exact ⟨values, (runRow?_branch ha hb).trans (if_pos hxy), (hfail hxy).2⟩
  · exact (h hxy).congr ((runRow?_branch ha hb).trans (if_neg hxy))

theorem load (hk : E.fits k.value) (ha : values a.id = some x)
    (h : ∀ w s', Performs E os (values.set j w) s' (f w) post fault) :
    Performs E (.mk i (.machine (.load .lw k) note) [a] [⟨j, t⟩] g :: os) values s
      (read E (x + wordOf k.value) >>= f) post fault :=
  bind_of_cases (read_cases _ s) fun _ _ hread => ⟨_, _, runRow?_load hk ha hread, h _ _⟩

theorem store {f : Unit → Act ω α} (hk : E.fits k.value) (ha : values a.id = some x)
    (hb : values b.id = some y) (h : ∀ s', Performs E os values s' (f ()) post fault) :
    Performs E (.mk i (.machine (.store .sw k) note) [a, b] [] g :: os) values s
      (write E (y + wordOf k.value) x >>= f) post fault := by
  refine bind_of_cases ?_ fun _ _ hwrite => ⟨_, _, runRow?_store hk ha hb hwrite, h _⟩
  exact (write_cases _ _ s).imp_left fun ⟨s', hs'⟩ => ⟨(), s', hs'⟩

theorem loadHere (hk : E.fits 0) (ha : values a.id = some x)
    (h : ∀ w s', Performs E os (values.set j w) s' (f w) post fault) :
    Performs E (.mk i (.machine (.load .lw (word 0)) note) [a] [⟨j, t⟩] g :: os) values s
      (read E x >>= f) post fault := by
  rw [← word_add_zero x]
  exact load hk ha h

theorem storeHere {f : Unit → Act ω α} (hk : E.fits 0) (ha : values a.id = some x)
    (hb : values b.id = some y) (h : ∀ s', Performs E os values s' (f ()) post fault) :
    Performs E (.mk i (.machine (.store .sw (word 0)) note) [a, b] [] g :: os) values s
      (write E y x >>= f) post fault := by
  rw [← word_add_zero y]
  exact store hk ha hb h

theorem call (hargs : operands.mapM (fun v => values v.id) = some args)
    (h : ∀ w s', ∃ values', values.define? results (some w) = some values' ∧
      Performs E os values' s' (f w) post fault) :
    Performs E (.mk i (.machine (.call func) note) operands results g :: os) values s
      (call E func args >>= f) post fault := by
  refine bind_of_cases (call_cases _ _ s) fun w s' hcall => ?_
  obtain ⟨values', hdefine, hrest⟩ := h w s'
  exact ⟨_, _, runRow?_call hargs hcall hdefine, hrest⟩

end Performs

end

/-! ## Rows -/

/-- Behind a row the values outside a range of numbers are as before, and the value of the row is
the word of the computation. -/
def Settled (values : Values) (lo hi : Nat) (value : Option Val) (w : Option Word)
    (values' : Values) : Prop :=
  (∀ id, id < lo ∨ hi ≤ id → values' id = values id) ∧
    ∀ v u, value = some v → w = some u → values' v.id = some u

/-- Where a row fails the values outside a range of numbers are as before, and so is the value of
the row. -/
def Unsettled (values : Values) (lo hi : Nat) (value : Option Val) (values' : Values) : Prop :=
  ∀ id, id < lo ∨ hi ≤ id ∨ (∃ v, value = some v ∧ v.id = id) → values' id = values id

/-- A row of operations that takes the numbers from `n` to `hi` delivers the word of a computation
in the value with the number `k`. -/
abbrev Delivers (E : Surroundings ω) (ops : List Op) (values : Values) (s : Store ω) (n hi k : Nat)
    (x : Act ω Word) : Prop :=
  Performs E ops values s (some <$> x) (Settled values n hi (some ⟨k, .register⟩))
    (Unsettled values n hi (some ⟨k, .register⟩))

section
variable {n : Nat} {v i address : Val} {post : Unit → Values → Prop}

theorem Settled.of_set {lo hi k : Nat}
    (h : ∀ id, id < lo ∨ hi ≤ id → values' id = values id) (hk : lo ≤ k ∧ k < hi) :
    Settled values lo hi (some ⟨k, .register⟩) (some w) (values'.set k w) := by
  refine ⟨fun id hid => (set_of_ne (by omega)).trans (h id hid), ?_⟩
  rintro _ _ ⟨⟩ ⟨⟩
  exact set_self

theorem Unsettled.of_frame {lo hi k : Nat}
    (h : ∀ id, id < lo ∨ hi ≤ id ∨ id = k → values' id = values id) :
    Unsettled values lo hi (some ⟨k, .register⟩) values' := by
  rintro id (hid | hid | ⟨_, ⟨⟩, hid⟩)
  · exact h id (.inl hid)
  · exact h id (.inr (.inl hid))
  · exact h id (.inr (.inr hid.symm))

theorem performs_constant (k : Int) :
    Delivers E ((Code.single <$> constant k).run n).1.ops values s n (n + 2) n
      (pure (wordOf k)) := by
  refine .map (.constant (.done ?_))
  exact .of_set (fun _ _ => rfl) (by omega)

theorem ult_one (x : Word) : x.ult 1 = (x == 0) := by
  rw [Bool.eq_iff_iff, ult_iff_lt, beq_iff_eq]
  exact lt_one_iff (by omega)

section
variable (ha : values a.id = some x) (hb : values b.id = some y)
include ha hb

theorem performs_single :
    Delivers E ((Code.single <$> register op a b).run n).1.ops values s n (n + 2) n
      (pure (op.eval x y)) := by
  refine .map (.register ha hb (.done ?_))
  exact .of_set (fun _ _ => rfl) (by omega)

theorem performs_division {f : Word → Word → Word} (hop : ∀ a b, b ≠ 0 → op.eval a b = f a b)
    (hna : a.id < n ∨ n + 5 ≤ a.id) (hnb : b.id < n ∨ n + 5 ≤ b.id) :
    Delivers E ((division op a b).run n).1.ops values s n (n + 5) (n + 3)
      (if y = 0 then fail "_error_div_zero" else pure (f x y)) := by
  have ha' : values.set n 0 a.id = some x := (set_of_ne (by omega)).trans ha
  have hb' : values.set n 0 b.id = some y := (set_of_ne (by omega)).trans hb
  refine .map (.constant (.test (y := 0) hb' set_self (fun hy => ⟨?_, .of_frame fun id hid => ?_⟩)
    fun hy => ?_))
  · rw [if_pos hy]
    rfl
  · exact set_of_ne (by omega)
  · rw [if_neg hy, ← hop x y hy]
    refine .register ha' hb' (.done (.of_set (fun id hid => set_of_ne ?_) ?_))
    all_goals omega

theorem performs_notLess (hfits : E.fits 1) :
    Delivers E ((notLess a b).run n).1.ops values s n (n + 4) (n + 2)
      (pure (truthWord !x.slt y)) := by
  refine .map (.register ha hb (.immediate hfits set_self (.done ?_)))
  have hnot : ImmOp.eval .xori (RegOp.eval .slt x y) (word 1).value = truthWord !x.slt y := by
    cases h : x.slt y <;> simp [RegOp.eval, h] <;> rfl
  rw [hnot]
  exact .of_set (fun id _ => set_of_ne (by omega)) (by omega)

theorem performs_sameWord (hfits : E.fits 1) :
    Delivers E ((sameWord a b).run n).1.ops values s n (n + 4) (n + 2)
      (pure (truthWord (x == y))) := by
  refine .map (.register ha hb (.immediate hfits set_self (.done ?_)))
  have hsame : ImmOp.eval .sltiu (RegOp.eval .xor x y) (word 1).value = truthWord (x == y) := by
    show truthWord ((x ^^^ y).ult 1) = _
    rw [ult_one]
    congr 1
    rw [Bool.eq_iff_iff, beq_iff_eq, beq_iff_eq]
    exact BitVec.xor_eq_zero_iff
  rw [hsame]
  exact .of_set (fun id _ => set_of_ne (by omega)) (by omega)

theorem performs_differentWord :
    Delivers E ((differentWord a b).run n).1.ops values s n (n + 6) (n + 4)
      (pure (truthWord (x != y))) := by
  refine .map (.register ha hb (.constant (.register (x := 0) set_self (y := x ^^^ y) ?_
    (.done ?_))))
  · simp (disch := omega) only [set_of_ne]
    exact set_self
  have hdifferent : RegOp.eval .sltu 0 (x ^^^ y) = truthWord (x != y) := by
    show truthWord (BitVec.ult 0 (x ^^^ y)) = _
    congr 1
    rw [Bool.eq_iff_iff, ult_iff_lt, bne_iff_ne, ne_eq, ← xor_eq_zero_iff]
    exact pos_iff_ne_zero _
  rw [hdifferent]
  refine .of_set (fun id _ => ?_) (by omega)
  simp (disch := omega) only [set_of_ne]

end

theorem performs_negate (hv : values v.id = some x) (hn : v.id < n ∨ n + 4 ≤ v.id) : Delivers E ((do
        let (zero, z) ← constant 0
        let (sub, r) ← register .sub z v
        return ({ ops := [zero, sub], value := some r } : Code) : Emit Code).run n).1.ops values s n
      (n + 4) (n + 2) (pure (-x)) := by
  have hv' : values.set n 0 v.id = some x := (set_of_ne (by omega)).trans hv
  refine .map (.constant (.register (x := 0) set_self hv' (.done ?_)))
  exact .of_set (fun id _ => set_of_ne (by omega)) (by omega)

theorem truthWord_or_eq_one (p q : Bool) : truthWord p ||| truthWord q = 1 ↔ (p || q) = true := by
  cases p <;> cases q <;> decide

theorem performs_element {α : Type} {f : Word → Act ω α} {post : α → Values → Prop} (os : List Op)
    (notes : BoundNotes) (hfits : E.fits 0 ∧ E.fits 1) (hv : values v.id = some x)
    (hi : values i.id = some y) (hnv : v.id < n ∨ n + 22 ≤ v.id) (hni : i.id < n ∨ n + 22 ≤ i.id)
    (hfault : ∀ values' : Values, (∀ id, id < n ∨ n + 18 ≤ id → values' id = values id) →
      fault values')
    (h : ∀ w (values' : Values) s', values' (n + 20) = some w → values' (n + 2) = some 1 →
      (∀ id, id < n ∨ n + 22 ≤ id → values' id = values id) →
      Performs E os values' s' (f w) post fault) :
    Performs E (((elementAddress v i notes).run n).1.1 ++ os) values s
      (element E x y >>= f) post fault := by
  refine .constant (.constant (.constant (.test (x := x) (y := 0) ?_ ?_ (fun hx => ⟨?_, ?_⟩)
    fun hx => ?_)))
  any_goals simp (disch := omega) only [set_of_ne, hv]
  · exact set_self
  · rw [element, if_pos hx]
    rfl
  · refine hfault _ fun id hid => ?_
    simp (disch := omega) only [set_of_ne]
  rw [element, if_neg hx, bind_assoc]
  refine .immediate hfits.2 (x := y) ?_ (.immediate hfits.1 (x := y) ?_
    (.loadHere hfits.1 ?_ fun m s' => ?_))
  any_goals simp (disch := omega) only [set_of_ne, hi, hv]
  refine .register (x := m) (y := y + 1) set_self ?_ (.register (x := truthWord (y.slt 0))
    (y := truthWord (m.slt (y + 1))) ?_ set_self (.test (y := 1) set_self ?_
      (fun ho => ⟨?_, ?_⟩) fun ho => ?_))
  any_goals simp (disch := omega) only [set_of_ne]
  any_goals exact set_self
  · rw [if_pos ((truthWord_or_eq_one _ _).mp ho)]
    rfl
  · refine hfault _ fun id hid => ?_
    simp (disch := omega) only [set_of_ne]
  rw [if_neg fun hor => ho ((truthWord_or_eq_one _ _).mpr hor)]
  refine .register (x := y + 1) (y := 4) ?_ ?_ (.register (x := x) (y := (y + 1) * 4) ?_
    set_self (h _ _ _ set_self ?_ fun id hid => ?_))
  all_goals simp (disch := omega) only [set_of_ne, hv]
  all_goals exact set_self

section
variable (hfits : ∀ k, E.fits k)
include hfits

section
variable (hv : values v.id = some x)
include hv

theorem performs_not :
    Delivers E ((Code.single <$> immediate .sltiu v 1).run n).1.ops values s n (n + 2) n
      (Act.unary "not" x) := by
  have hdone {w : Word} (hw : truthWord (x.ult 1) = w) :
      Delivers E ((Code.single <$> immediate .sltiu v 1).run n).1.ops values s n (n + 2) n
        (pure w) := by
    subst hw
    refine .map (.immediate (hfits _) hv (.done ?_))
    exact .of_set (fun _ _ => rfl) (by omega)
  unfold Act.unary
  cases htruth : truth? x with
  | none => trivial
  | some b =>
    unfold truth? at htruth
    split at htruth
    · cases htruth
      simp_all
    · split at htruth <;> cases htruth
      simp_all

theorem performs_length (hn : v.id < n ∨ n + 5 ≤ v.id) :
    Delivers E ((length v).run n).1.ops values s n (n + 5) (n + 3) (Act.length E x) := by
  have hv' : values.set n 0 v.id = some x := (set_of_ne (by omega)).trans hv
  refine .map (.constant (.test (y := 0) hv' set_self (fun hx => ⟨?_, .of_frame fun id hid => ?_⟩)
    fun hx => ?_))
  · rw [Act.length, if_pos hx]
    rfl
  · exact set_of_ne (by omega)
  · rw [Act.length, if_neg hx, ← bind_pure (Act.read E x)]
    refine .loadHere (hfits _) hv' fun w _ => .done ?_
    exact .of_set (fun id hid => set_of_ne (by omega)) (by omega)

theorem performs_getAddress
    (hi : values i.id = some y) (hnv : v.id < n ∨ n + 22 ≤ v.id) (hni : i.id < n ∨ n + 22 ≤ i.id) :
    Delivers E ((getAddress v i).run n).1.ops values s n (n + 22) (n + 20) (element E x y) := by
  rw [← bind_pure (element E x y)]
  refine .map (performs_element [] {} ⟨hfits 0, hfits 1⟩ hv hi hnv hni (fun values' hfault => ?_)
    fun w values' _ hw _ hframe => .done ?_)
  · exact .of_frame fun id _ => hfault id (by omega)
  · refine ⟨hframe, ?_⟩
    rintro _ _ ⟨⟩ ⟨⟩
    exact hw

theorem performs_indexString
    (hi : values i.id = some y) (hnv : v.id < n ∨ n + 33 ≤ v.id) (hni : i.id < n ∨ n + 33 ≤ i.id) :
    Delivers E ((indexString v i).run n).1.ops values s n (n + 33) (n + 30)
      (character E (E.slot (n + 31)) x y) := by
  refine .map (performs_element _ _ ⟨hfits 0, hfits 1⟩ hv hi (by omega) (by omega)
    (fun values' hfault => ?_)
    fun w values' s' hw hone hframe => ?_)
  · exact .of_frame fun id hid => hfault id (by omega)
  refine .loadHere (hfits _) hw fun c s' => .constant (.call (show List.mapM _ _ = some [8] from ?_)
    fun a s' => ⟨_, rfl, ?_⟩)
  · simp [set_self]
    rfl
  refine .storeHere (hfits _) (x := 1) (y := a) ?_ set_self fun s' =>
    .store (hfits _) (x := c) (y := a) ?_ set_self fun s' => .alloc (.storeHere (hfits _)
      (x := a) (y := E.slot (n + 31)) ?_ set_self fun s' => .done ⟨fun id hid => ?_, ?_⟩)
  any_goals simp (disch := omega) only [set_of_ne, hone]
  any_goals exact set_self
  · exact hframe id (by omega)
  · rintro _ _ ⟨⟩ ⟨⟩
    exact set_self

end

/-! ## Blocks on the heap -/

theorem performs_storeElems {p : Word} (hp : values address.id = some p) (hpost : post () values) :
    ∀ {elems : List Val} {ws : List Word} {k n : Nat} {s : Store ω},
      elems.mapM (fun v => values v.id) = some ws →
      Performs E ((storeElems address k elems).run n).1 values s (fill E p k ws) post fault
  | [], ws, k, n, s, hws => by
    cases hws
    exact .done hpost
  | v :: vs, ws, k, n, s, hws => by
    obtain ⟨w, _, hw, hrest, rfl⟩ := of_mapM_cons hws
    refine .store (hfits _) hw hp fun _ => ?_
    exact performs_storeElems hp hpost hrest

theorem performs_storeChars {p : Word} :
    ∀ {cs : List Char} {k n : Nat} {values : Values} {s : Store ω},
      values address.id = some p → address.id < n →
      (∀ values' : Values, (∀ id, id < n ∨ n + 3 * cs.length ≤ id → values' id = values id) →
        post () values') → Performs E ((storeChars address k cs).run n).1 values s
        (fill E p k (cs.map fun c => wordOf c.toNat)) post fault
  | [], k, n, values, s, hp, hn, hpost => .done (hpost values fun _ _ => rfl)
  | c :: cs, k, n, values, s, hp, hn, hpost => by
    have hp' : values.set n (wordOf c.toNat) address.id = some p :=
      (set_of_ne (by omega)).trans hp
    refine .constant (.store (hfits _) set_self hp' fun _ => ?_)
    refine performs_storeChars hp' (by omega) fun values' hframe => hpost _ fun id hid => ?_
    rw [length_cons] at hid
    exact (hframe id (by omega)).trans (set_of_ne (by omega))

theorem performs_allocateWords {α : Type} {f : Word → Act ω α} {post : α → Values → Prop}
    {os : List Op} {len : Nat} (h : ∀ p (values' : Values) s', values' (n + 4) = some p →
      (∀ id, id < n ∨ n + 7 ≤ id → values' id = values id) →
      Performs E os values' s' (f p) post fault) :
    Performs E (((allocateWords len).run n).1.1 ++ os) values s
      (call E "_malloc" [wordOf (len * 4 + 4)] >>= fun p =>
        write E p (wordOf len) >>= fun _ => f p) post fault := by
  refine .constant (.constant (.call ?_ fun p s' => ⟨_, rfl, ?_⟩))
  · have hsize : (values.set n (wordOf (len * 4 + 4))).set (n + 2) (wordOf len) n =
        some (wordOf (len * 4 + 4)) := (set_of_ne (by omega)).trans set_self
    exact congrArg (· >>= _) hsize
  refine .storeHere (hfits _) (x := wordOf len) (y := p) ?_ set_self fun s' => ?_
  · simp (disch := omega) only [set_of_ne]
    exact set_self
  · refine h p _ s' set_self fun id _ => ?_
    simp (disch := omega) only [set_of_ne]

theorem performs_list {elems : List Val} {ws : List Word}
    (hws : elems.mapM (fun v => values v.id) = some ws)
    (hclear : ∀ v ∈ elems, v.id < n ∨ n + 7 + elems.length ≤ v.id) :
    Delivers E ((list elems).run n).1.ops values s n (n + 7 + elems.length) (n + 4)
      (block E ws) := by
  rw [block, length_of_mapM hws]
  refine .map (performs_allocateWords hfits fun p values' _ hp hframe => ?_)
  have hws' : elems.mapM (fun v => values' v.id) = some ws := by
    rw [mapM_congr fun v hv => hframe v.id (by have := hclear v hv; omega)]
    exact hws
  refine .map (f := fun _ => p) (performs_storeElems hfits hp ⟨fun id _ => hframe id ?_, ?_⟩ hws')
  · omega
  · rintro _ _ ⟨⟩ ⟨⟩
    exact hp

theorem performs_string (text : String) :
    Delivers E ((literal (.str text)).run n).1.ops values s n (n + 7 + 3 * text.length) (n + 4)
      (Act.literal E (.str text)) := by
  rw [Act.literal, Act.block, length_map]
  refine .map (performs_allocateWords hfits fun p _ _ hp hframe => ?_)
  refine .map (f := fun _ => p) (performs_storeChars hfits hp (show n + 4 < n + 7 by omega)
    fun _ hframe' => ⟨fun id _ => ?_, ?_⟩)
  · rw [String.length_toList] at hframe'
    rw [hframe' id (by omega), hframe id (by omega)]
  · rintro _ _ ⟨⟩ ⟨⟩
    exact (hframe' (n + 4) (.inl (by omega))).trans hp

end

end

end Practicum.Machine
