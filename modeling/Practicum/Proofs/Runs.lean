import Mathlib.Data.List.Forall2

/-!
# Runs that succeed

A sequence of steps that may fail succeeds exactly if its steps do, one after the other.
-/

namespace Practicum

open List

variable {ε σ α β : Type} {ys : List β} {r : β × σ} {R : α → β → Prop}
variable {s s' : σ} {x : Except ε α} {xs : List α} {a : α} {f : α → Except ε β} {b : β}

theorem bind_eq_ok_iff : (x >>= f) = .ok b ↔ ∃ a, x = .ok a ∧ f a = .ok b := by
  cases x with
  | error e => simp [bind, Except.bind]
  | ok a => simp [bind, Except.bind]

theorem of_bind (h : (x >>= f) = .ok b) : ∃ a, x = .ok a ∧ f a = .ok b :=
  bind_eq_ok_iff.mp h

theorem of_bind₂ {γ : Type} {y : α → Except ε β} {g : α → β → Except ε γ} {c : γ}
    (h : (x >>= fun a => y a >>= g a) = .ok c) : ∃ a b, x = .ok a ∧ y a = .ok b ∧ g a b = .ok c := by
  obtain ⟨a, ha, h⟩ := of_bind h
  obtain ⟨b, hb, h⟩ := of_bind h
  exact ⟨a, b, ha, hb, h⟩

theorem exists_bind_eq_ok {γ : Type} {g : γ → β} (hx : x = .ok a) (hf : ∃ c, f a = .ok (g c)) :
    ∃ c, (x >>= f) = .ok (g c) := by
  rwa [hx]

theorem exists_bind_pure_eq_ok_iff {g : α → β} :
    (∃ b, (x >>= fun a => pure (g a)) = .ok b) ↔ ∃ a, x = .ok a := by
  cases x with
  | error e => simp [bind, Except.bind]
  | ok a => simp [bind, Except.bind, pure, Except.pure]

theorem map_eq_ok_iff {f : α → β} : f <$> x = .ok b ↔ ∃ a, x = .ok a ∧ f a = b := by
  cases x with
  | error e => simp [Functor.map, Except.map]
  | ok a => simp [Functor.map, Except.map]

theorem of_ite_bind_eq_ok {c : Prop} [Decidable c] {y : Except ε α}
    (h : (if c then x >>= f else y >>= f) = .ok b) :
    ∃ a, (if c then x else y) = .ok a ∧ f a = .ok b := by
  split at h
  next hc =>
    rw [if_pos hc]
    exact bind_eq_ok_iff.mp h
  next hc =>
    rw [if_neg hc]
    exact bind_eq_ok_iff.mp h

theorem mapError_eq_ok_iff {ε' : Type} {f : ε → ε'} : x.mapError f = .ok a ↔ x = .ok a := by
  cases x with
  | error e => simp [Except.mapError]
  | ok b => simp [Except.mapError]

section
variable {x : StateT σ (Except ε) α} {f : α → StateT σ (Except ε) β}

theorem run_bind_ok_iff :
    (x >>= f).run s = .ok r ↔ ∃ a s1, x.run s = .ok (a, s1) ∧ (f a).run s1 = .ok r := by
  rw [StateT.run_bind, bind_eq_ok_iff]
  constructor
  · rintro ⟨⟨a, s1⟩, hx, hf⟩
    exact ⟨a, s1, hx, hf⟩
  · rintro ⟨a, s1, hx, hf⟩
    exact ⟨(a, s1), hx, hf⟩

theorem of_run_bind (h : (x >>= f).run s = .ok r) :
    ∃ a s1, x.run s = .ok (a, s1) ∧ (f a).run s1 = .ok r :=
  run_bind_ok_iff.mp h

theorem of_run_step (h : (x >>= f).run s = .ok r) (hx : x.run s = .ok (a, s')) :
    (f a).run s' = .ok r := by
  rwa [StateT.run_bind, hx] at h

theorem of_run_bind₂ {γ : Type} {g : α → β → StateT σ (Except ε) γ} {r : γ × σ}
    (h : (x >>= fun a => f a >>= g a).run s = .ok r) : ∃ a s1 b s2,
      x.run s = .ok (a, s1) ∧ (f a).run s1 = .ok (b, s2) ∧ (g a b).run s2 = .ok r := by
  obtain ⟨a, s1, ha, h⟩ := of_run_bind h
  obtain ⟨b, s2, hb, h⟩ := of_run_bind h
  exact ⟨a, s1, b, s2, ha, hb, h⟩

theorem of_run_look {Q : α → Prop} (h : (x >>= f).run s = .ok r)
    (hx : ∀ {a s'}, x.run s = .ok (a, s') → s' = s ∧ Q a) : ∃ a, Q a ∧ (f a).run s = .ok r := by
  obtain ⟨a, _, hrun, hrest⟩ := of_run_bind h
  obtain ⟨rfl, ha⟩ := hx hrun
  exact ⟨a, ha, hrest⟩

end

theorem run_lift_ok_iff :
    (liftM x : StateT σ (Except ε) α).run s = .ok (a, s') ↔ x = .ok a ∧ s' = s := by
  cases x with
  | error e => simp [liftM, monadLift, MonadLift.monadLift, StateT.lift, StateT.run, bind, Except.bind]
  | ok a =>
    simp [bind, Except.bind, pure, Except.pure, eq_comm]

/-! ## Steps along a list -/

theorem mapM_eq_ok_iff : xs.mapM f = .ok ys ↔ Forall₂ (fun x y => f x = .ok y) xs ys := by
  induction xs generalizing ys with
  | nil => simp [pure, Except.pure, eq_comm]
  | cons x xs ih =>
    rw [mapM_cons, forall₂_cons_left_iff]
    constructor
    · intro h
      obtain ⟨y, ys', hy, hys, ⟨⟩⟩ := of_bind₂ h
      exact ⟨y, ys', hy, ih.mp hys, rfl⟩
    · rintro ⟨y, ys', hy, hys, rfl⟩
      exact bind_eq_ok_iff.mpr ⟨y, hy, bind_eq_ok_iff.mpr ⟨ys', ih.mpr hys, rfl⟩⟩

theorem mapM_id_eq_ok_iff {xs : List (Except ε β)} : xs.mapM id = .ok ys ↔ xs = ys.map .ok := by
  rw [mapM_eq_ok_iff, ← forall₂_eq_eq_eq, forall₂_map_right_iff]
  rfl

theorem forall₂_of_mapM_run {f : α → StateT σ (Except ε) β} (h : (xs.mapM f).run s = .ok (ys, s')) :
    Forall₂ (fun x y => ∃ s1 s2, (f x).run s1 = .ok (y, s2)) xs ys := by
  induction xs generalizing ys s with
  | nil =>
    cases h
    exact .nil
  | cons x xs ih =>
    rw [mapM_cons] at h
    obtain ⟨y, _, _, _, hy, hys, h⟩ := of_run_bind₂ h
    cases h
    exact .cons ⟨_, _, hy⟩ (ih hys)

theorem exists_of_forall₂ (h : Forall₂ R xs ys) (ha : a ∈ xs) : ∃ y ∈ ys, R a y := by
  induction h with
  | nil => cases ha
  | cons head _ ih =>
    obtain rfl | ha := mem_cons.mp ha
    · exact ⟨_, mem_cons_self, head⟩
    · obtain ⟨y, hy, hR⟩ := ih ha
      exact ⟨y, mem_cons_of_mem _ hy, hR⟩

theorem mem_of_mapM_eq_ok (h : xs.mapM f = .ok ys) : ∀ y ∈ ys, ∃ x, f x = .ok y := by
  intro y hy
  obtain ⟨x, -, hx⟩ := exists_of_forall₂ (mapM_eq_ok_iff.mp h).flip hy
  exact ⟨x, hx⟩

theorem forall₂_trans {γ : Type} {S : β → γ → Prop} {T : α → γ → Prop}
    (hT : ∀ a b c, R a b → S b c → T a c) {zs : List γ} (h : Forall₂ R xs ys)
    (h' : Forall₂ S ys zs) : Forall₂ T xs zs := by
  induction h generalizing zs with
  | nil =>
    cases h'
    exact .nil
  | cons head _ ih =>
    cases h' with
    | cons head' tail' => exact .cons (hT _ _ _ head head') (ih tail')

theorem foldlM_kept {P : σ → Prop} {f : σ → α → Except ε σ}
    (hf : ∀ x ∈ xs, ∀ s s', P s → f s x = .ok s' → P s') (hs : P s)
    (h : xs.foldlM f s = .ok s') : P s' := by
  induction xs generalizing s with
  | nil =>
    cases h
    exact hs
  | cons x xs ih =>
    obtain ⟨s1, hx, h⟩ := bind_eq_ok_iff.mp h
    rw [forall_mem_cons] at hf
    exact ih hf.2 (hf.1 s s1 hs hx) h

theorem seq_eq_ok_iff {x : Except ε Unit} {f : Unit → Except ε Unit} :
    (x >>= f) = .ok () ↔ x = .ok () ∧ f () = .ok () := by
  rw [bind_eq_ok_iff]
  exact ⟨fun ⟨(), h⟩ => h, fun h => ⟨(), h⟩⟩

theorem forM_eq_ok_iff {f : α → Except ε Unit} : xs.forM f = .ok () ↔ ∀ x ∈ xs, f x = .ok () := by
  induction xs with
  | nil => exact iff_of_true rfl nofun
  | cons x xs ih =>
    rw [forall_mem_cons, ← ih]
    exact seq_eq_ok_iff

theorem forall_mem_pair {P : α → Prop} {b : α} (ha : P a) (hb : P b) : ∀ x ∈ [a, b], P x :=
  forall_mem_cons.mpr ⟨ha, forall_mem_singleton.mpr hb⟩

theorem forall_mem_between {P : α → Prop} {b : α} (ha : P a) (hxs : ∀ x ∈ xs, P x) (hb : P b) :
    ∀ x ∈ a :: (xs ++ [b]), P x :=
  forall_mem_cons.mpr ⟨ha, forall_mem_append.mpr ⟨hxs, forall_mem_singleton.mpr hb⟩⟩

/-! ## Lookups -/

theorem mem_of_lookup_eq_some {κ : Type} [BEq κ] [LawfulBEq κ] {entries : List (κ × α)} {k : κ}
    (h : entries.lookup k = some a) : (k, a) ∈ entries := by
  obtain ⟨_, _, rfl, -⟩ := lookup_eq_some_iff.mp h
  exact mem_append_right _ mem_cons_self

end Practicum
