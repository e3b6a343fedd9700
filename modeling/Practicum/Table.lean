/-! # Tables -/

namespace Practicum

abbrev Table (κ α : Type) := List (κ × α)

namespace Table

variable {κ α : Type} [DecidableEq κ]

def get? (t : Table κ α) (k : κ) : Option α :=
  match t with
  | [] => none
  | (k', v) :: t => if k' = k then some v else get? t k

/-- Puts a value under a key; a key that is present keeps its place. -/
def put (t : Table κ α) (k : κ) (v : α) : Table κ α :=
  match t with
  | [] => [(k, v)]
  | (k', v') :: t => if k' = k then (k', v) :: t else (k', v') :: put t k v

def update (t : Table κ α) (k : κ) (f : α → α) : Table κ α :=
  t.map fun entry => if entry.1 = k then (entry.1, f entry.2) else entry

def keys (t : Table κ α) : List κ :=
  t.map Prod.fst

def values (t : Table κ α) : List α :=
  t.map Prod.snd

attribute [local grind =] get? put update keys

theorem get?_put (t : Table κ α) (k j : κ) (v : α) :
    (t.put k v).get? j = if k = j then some v else t.get? j := by
  induction t with
  | nil => simp [put, get?]
  | cons entry t ih =>
    obtain ⟨k', v'⟩ := entry
    by_cases h : k' = k <;> by_cases hj : k' = j <;> grind

theorem get?_update (t : Table κ α) (k j : κ) (f : α → α) :
    (t.update k f).get? j = if k = j then (t.get? j).map f else t.get? j := by
  induction t with
  | nil => simp [update, get?]
  | cons entry t ih =>
    obtain ⟨k', v'⟩ := entry
    by_cases h : k' = k <;> by_cases hj : k' = j <;> grind

theorem get?_eq_none_iff {t : Table κ α} {k : κ} : t.get? k = none ↔ k ∉ t.keys := by
  induction t with
  | nil => simp [get?, keys]
  | cons entry t ih =>
    obtain ⟨k', v'⟩ := entry
    by_cases h : k' = k <;> grind

theorem mem_of_get? {t : Table κ α} {k : κ} {v : α} (h : t.get? k = some v) : (k, v) ∈ t := by
  induction t with
  | nil => cases h
  | cons entry t ih =>
    obtain ⟨k', v'⟩ := entry
    by_cases hk : k' = k <;> grind

theorem get?_of_mem {t : Table κ α} (hkeys : t.keys.Nodup) {k : κ} {v : α} (h : (k, v) ∈ t) :
    t.get? k = some v := by
  induction t with
  | nil => cases h
  | cons entry t ih =>
    obtain ⟨k', v'⟩ := entry
    by_cases hk : k' = k <;> grind

/-- A new key comes last. -/
theorem put_of_get?_eq_none {t : Table κ α} {k : κ} (h : t.get? k = none) (v : α) :
    t.put k v = t ++ [(k, v)] := by
  induction t with
  | nil => rfl
  | cons entry t ih =>
    obtain ⟨k', v'⟩ := entry
    by_cases hk : k' = k <;> grind

/-- A value is put in the place of the one before, if there is one, and nothing else changes. -/
theorem exists_put_eq (t : Table κ α) (k : κ) (v : α) : ∃ t₁ t₂,
    t = t₁ ++ (t.get? k).toList.map (k, ·) ++ t₂ ∧ t.put k v = t₁ ++ [(k, v)] ++ t₂ := by
  induction t with
  | nil => exact ⟨[], [], rfl, rfl⟩
  | cons entry t ih =>
    obtain ⟨k', v'⟩ := entry
    by_cases hk : k' = k
    · exact ⟨[], t, by simp [get?, put, hk]⟩
    · obtain ⟨t₁, t₂, ht, hput⟩ := ih
      exact ⟨(k', v') :: t₁, t₂, by simpa [get?, put, hk, hput] using ht⟩

/-- What a change of a value leaves as it is can be read off the table as before. -/
theorem map_update {β : Type} (t : Table κ α) (k : κ) {f : α → α} {g : κ × α → β}
    (h : ∀ v, g (k, f v) = g (k, v)) : (t.update k f).map g = t.map g := by
  rw [update, List.map_map]
  apply List.map_congr_left
  intro entry _
  by_cases hk : entry.1 = k
  · subst hk
    simp [h]
  · simp [hk]

end Table

end Practicum
