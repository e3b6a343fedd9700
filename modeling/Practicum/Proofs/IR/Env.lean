import Practicum.IR.Op

/-!
# Environments

What the values of a program stand for while it runs.
-/

namespace Practicum.IR

open List Option

theorem of_some_bind₂ {α β γ : Type} {x : Option α} {y : α → Option β} {g : α → β → Option γ} {c : γ}
    (h : (x.bind fun a => (y a).bind (g a)) = some c) :
    ∃ a b, x = some a ∧ y a = some b ∧ g a b = some c := by
  obtain ⟨a, ha, h⟩ := bind_eq_some_iff.mp h
  obtain ⟨b, hb, h⟩ := bind_eq_some_iff.mp h
  exact ⟨a, b, ha, hb, h⟩

abbrev Env (V : Type) := Nat → Option V

namespace Env

variable {V : Type}

def set (env : Env V) (id : Nat) (v : V) : Env V :=
  fun k => if k = id then some v else env k

/-- The result of an operation, if it has one, is defined as what the operation computes. -/
def define? (env : Env V) (results : List Val) (v : Option V) : Option (Env V) :=
  match results, v with
  | [], _ => some env
  | [r], some v => some (env.set r.id v)
  | _, _ => none

variable {env env' : Env V} {id k : Nat} {v : V} {vs results : List Val} {xs : List V}

theorem set_self : env.set id v id = some v :=
  if_pos rfl

theorem set_of_ne (h : k ≠ id) : env.set id v k = env k :=
  if_neg h

theorem define?_cases {x : Option V} (h : env.define? results x = some env') :
    (results = [] ∧ env' = env) ∨ ∃ r v, results = [r] ∧ x = some v ∧ env' = env.set r.id v := by
  unfold define? at h
  split at h
  · cases h
    exact .inl ⟨rfl, rfl⟩
  next r v =>
    cases h
    exact .inr ⟨r, v, rfl, rfl, rfl⟩
  · cases h

theorem define?_none (h : env.define? results none = some env') : results = [] ∧ env' = env := by
  obtain h | ⟨r, v, -, hv, -⟩ := define?_cases h
  · exact h
  · cases hv

theorem of_mapM_cons {α β : Type} {f : α → Option β} {a : α} {as : List α} {bs : List β}
    (h : (a :: as).mapM f = some bs) : ∃ b rest, f a = some b ∧ as.mapM f = some rest ∧
      bs = b :: rest := by
  rw [mapM_cons] at h
  obtain ⟨b, rest, hb, hrest, h⟩ := of_some_bind₂ h
  exact ⟨b, rest, hb, hrest, (Option.some.inj h).symm⟩

theorem mapM_congr (h : ∀ v ∈ vs, env' v.id = env v.id) :
    vs.mapM (fun v => env' v.id) = vs.mapM (fun v => env v.id) := by
  induction vs with
  | nil => rfl
  | cons v vs ih =>
    rw [forall_mem_cons] at h
    rw [mapM_cons, mapM_cons, h.1, ih h.2]

theorem mapM_rename {f : Val → Val} (h : ∀ v ∈ vs, ∀ x, env v.id = some x → env' (f v).id = some x)
    (hxs : vs.mapM (fun v => env v.id) = some xs) :
    (vs.map f).mapM (fun v => env' v.id) = some xs := by
  induction vs generalizing xs with
  | nil => exact hxs
  | cons v vs ih =>
    rw [forall_mem_cons] at h
    obtain ⟨x, _, hx, hrest, rfl⟩ := of_mapM_cons hxs
    rw [map_cons, mapM_cons, h.1 x hx, ih h.2 hrest]
    rfl

theorem length_of_mapM (h : vs.mapM (fun v => env v.id) = some xs) : xs.length = vs.length := by
  induction vs generalizing xs with
  | nil =>
    cases h
    rfl
  | cons v vs ih =>
    obtain ⟨_, _, -, hrest, rfl⟩ := of_mapM_cons h
    rw [length_cons, length_cons, ih hrest]

end Env

end Practicum.IR
