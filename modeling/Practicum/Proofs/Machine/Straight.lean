import Practicum.Proofs.Machine.Rows
import Practicum.Proofs.Machine.Shapes

/-!
# Operations without blocks

The code for an operation of the flat level without blocks is a row. The row performs what the
operation does with the words of its operands, and changes no value but those of its own numbers.
-/

namespace Practicum.Machine

open IR Riscv Flat

variable {ω : Type}

/-- The operation that asks for memory on the stack in the code for an operation. -/
def slotAt (code : FlatCode) (start : Nat) : Nat :=
  match code with
  | .indexString => start + 31
  | .choice => start + 3
  | _ => start + 1

/-- Behind the code for an operation the values outside a range of numbers are as before, and the
result of the operation is the value of the code. -/
def Concluded (values : Values) (lo hi : Nat) (value : Option Val) (results : List Val)
    (w : Option Word) (values' : Values) : Prop :=
  (∀ id, id < lo ∨ hi ≤ id → values' id = values id) ∧
    (results = [] ∨ ∀ u, w = some u → ∃ v, value = some v ∧ values' v.id = some u)

section
variable {E : Surroundings ω} {values values' : Values} {s : Store ω} {n : Nat} {label : Nat}
  {code : FlatCode} {o : Op} {yields : Nat → Option Val} {e : Emit Code} {args : List Word}
  {results vs : List Val} {v : Val} {op : String}

/-- Code performs what its operation does, and gives its value to the results. -/
abbrev Executes (E : Surroundings ω) (values : Values) (s : Store ω) (n : Nat) (e : Emit Code)
    (results : List Val) (x : Act ω (Option Word)) : Prop :=
  Performs E (e.run n).1.ops values s x
    (Concluded values n (e.run n).2 (e.run n).1.value results)
    (Unsettled values n (e.run n).2 (e.run n).1.value)

theorem Settled.concluded {lo hi : Nat} {w : Option Word}
    (h : Settled values lo hi (some v) w values') :
    Concluded values lo hi (some v) results w values' :=
  ⟨h.1, .inr fun u hu => ⟨v, rfl, h.2 v u rfl hu⟩⟩

theorem Performs.concluded {x : Act ω (Option Word)} {k : Nat}
    (h : Performs E (e.run n).1.ops values s x (Settled values n k (some v))
      (Unsettled values n k (some v)))
    (hnext : (e.run n).2 = k := by rfl) (hvalue : (e.run n).1.value = some v := by rfl) :
    Executes E values s n e results x := by
  rw [Executes, hnext, hvalue]
  exact h.mono (fun _ _ => Settled.concluded) fun _ => id

theorem performs_unary (hfits : ∀ k, E.fits k) {x : Word} (he : unary op v = some e)
    (hv : values v.id = some x) (hclear : v.id < n ∨ (e.run n).2 ≤ v.id) :
    Executes E values s n e results (some <$> Act.unary op x) := by
  unfold unary at he
  split at he
  all_goals cases he
  · exact .concluded (performs_not hfits hv)
  · exact .concluded (performs_negate hv hclear)

theorem performs_binary (hfits : E.fits 1) {a b : Val} {x y : Word} (he : binary op a b = some e)
    (ha : values a.id = some x) (hb : values b.id = some y) (hca : a.id < n ∨ (e.run n).2 ≤ a.id)
    (hcb : b.id < n ∨ (e.run n).2 ≤ b.id) :
    Executes E values s n e results (some <$> Act.binary op x y) := by
  unfold binary at he
  split at he
  all_goals cases he
  iterate 3
    · exact .concluded (performs_single ha hb)
  iterate 2
    · refine .concluded (performs_division ha hb (fun a b hb => ?_) hca hcb)
      exact if_neg hb
  · exact .concluded (performs_single ha hb)
  · exact .concluded (performs_single hb ha)
  · exact .concluded (performs_notLess hb ha hfits)
  · exact .concluded (performs_notLess ha hb hfits)
  · exact .concluded (performs_sameWord ha hb hfits)
  · exact .concluded (performs_differentWord ha hb)
  · exact .concluded (performs_sameWord ha hb hfits)

theorem performs_literal (hfits : ∀ k, E.fits k) (v : Choco.Literal) :
    Executes E values s n (literal v) results (some <$> Act.literal E v) := by
  cases v with
  | int k => exact .concluded (performs_constant k)
  | bool b =>
    have hb : Act.literal E (.bool b) = pure (wordOf (if b then 1 else 0)) := by cases b <;> rfl
    rw [hb]
    exact .concluded (performs_constant _)
  | none => exact .concluded (performs_constant 0)
  | str text =>
    exact .concluded (performs_string hfits text) (next_string text n)

theorem operate_call {func : String} {slot : Word} (h : func ≠ "len") :
    Act.operate E (.call func) slot args = some <$> Act.call E func args := by
  unfold Act.operate
  split <;> simp_all

theorem two_of_mapM {a b : Val} (h : (a :: b :: vs).mapM (fun v => values v.id) = some args) :
    ∃ x y rest, values a.id = some x ∧ values b.id = some y ∧ args = x :: y :: rest := by
  obtain ⟨x, _, hx, htail, rfl⟩ := Env.of_mapM_cons h
  obtain ⟨y, rest, hy, -, rfl⟩ := Env.of_mapM_cons htail
  exact ⟨x, y, rest, hx, hy, rfl⟩

theorem emission_performs (hfits : ∀ k, E.fits k) (he : emission label code o yields = some e)
    (hnests : nests code = false) (hret : code ≠ .ret)
    (hargs : o.operands.mapM (fun v => values v.id) = some args)
    (hclear : ∀ v ∈ o.operands, v.id < n ∨ (e.run n).2 ≤ v.id) :
    Executes E values s n e o.results (Act.operate E code (E.slot (slotAt code n)) args) := by
  unfold emission at he
  split at he
  next v =>
    cases he
    cases args with
    | cons => trivial
    | nil => exact performs_literal hfits v
  next func =>
    split at he
    next hlen =>
      subst hlen
      obtain ⟨v, hv, rfl⟩ := Option.map_eq_some_iff.mp he
      obtain ⟨vs, hvs⟩ := List.head?_eq_some_iff.mp hv
      rw [hvs] at hargs hclear
      obtain ⟨x, rest, hx, -, rfl⟩ := Env.of_mapM_cons hargs
      cases rest with
      | nil => exact .concluded (performs_length hfits hx (hclear v List.mem_cons_self))
      | cons => trivial
    next hlen =>
      rw [operate_call hlen, ← bind_pure (Act.call E func args), map_bind]
      split at he
      all_goals cases he
      next hquiet =>
        refine .call hargs fun w s' => ⟨values, rfl, .done ⟨fun _ _ => rfl, .inl ?_⟩⟩
        exact List.isEmpty_iff.mp hquiet
      · refine .concluded (k := n + 2) (.call hargs fun w s' => ⟨_, rfl, .done ?_⟩)
        exact .of_set (fun _ _ => rfl) (by omega)
  next op v vs hvs =>
    rw [hvs] at hargs hclear
    obtain ⟨x, rest, hx, -, rfl⟩ := Env.of_mapM_cons hargs
    cases rest with
    | nil => exact performs_unary hfits he hx (hclear v List.mem_cons_self)
    | cons => trivial
  next op a b vs hvs =>
    rw [hvs] at hargs hclear
    obtain ⟨x, y, rest, hx, hy, rfl⟩ := two_of_mapM hargs
    cases rest with
    | nil => exact performs_binary (hfits 1) he hx hy (hclear a (by simp)) (hclear b (by simp))
    | cons => trivial
  next a v vs hvs =>
    cases he
    rw [hvs] at hargs hclear
    obtain ⟨x, y, rest, hx, hy, rfl⟩ := two_of_mapM hargs
    cases rest with
    | nil =>
      refine .storeHere (hfits _) hy hx fun s' => .done ⟨fun _ _ => rfl, .inr nofun⟩
    | cons => trivial
  next v vs hvs =>
    cases he
    rw [hvs] at hargs hclear
    obtain ⟨x, rest, hx, -, rfl⟩ := Env.of_mapM_cons hargs
    cases rest with
    | nil =>
      refine .concluded (k := n + 2) (.map ?_)
      rw [← bind_pure (Act.read E x)]
      refine .loadHere (hfits _) hx fun w s' => .done ?_
      exact .of_set (fun _ _ => rfl) (by omega)
    | cons => trivial
  · cases he
    cases args with
    | nil =>
      refine .concluded (k := n + 2) (.alloc (.done ?_))
      exact .of_set (fun _ _ => rfl) (by omega)
    | cons => trivial
  iterate 4
    · cases hnests
  · cases he
    refine .concluded (performs_list hfits hargs fun v hv => ?_) (next_list _ n)
    have := hclear v hv
    rwa [next_list] at this
  next v i vs hvs =>
    cases he
    rw [hvs] at hargs hclear
    obtain ⟨x, y, rest, hx, hy, rfl⟩ := two_of_mapM hargs
    cases rest with
    | nil =>
      refine .concluded (performs_getAddress hfits hx hy ?_ ?_)
      · exact hclear v (by simp)
      · exact hclear i (by simp)
    | cons => trivial
  next v i vs hvs =>
    cases he
    rw [hvs] at hargs hclear
    obtain ⟨x, y, rest, hx, hy, rfl⟩ := two_of_mapM hargs
    cases rest with
    | nil =>
      refine .concluded (performs_indexString hfits hx hy ?_ ?_)
      · exact hclear v (by simp)
      · exact hclear i (by simp)
    | cons => trivial
  · cases hnests
  · exact absurd rfl hret
  · cases he

end

end Practicum.Machine
