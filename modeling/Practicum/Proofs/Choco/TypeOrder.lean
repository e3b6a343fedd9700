import Mathlib.Data.List.Perm.Basic
import Mathlib.Order.Lattice
import Practicum.Choco.Typing.Rules

/-!
# The order of types

A type is below another if its values can be stored where the other is declared. On the types of
values this is an order, and `join` gives least upper bounds in it. The type of a list that is
written out is therefore the same in whichever order its elements come.
-/

namespace Practicum.Choco

namespace SourceType

/-- Whether a type is built from the types of plain values by forming lists. -/
def isValue : SourceType → Bool
  | .list elem => elem.isValue
  | .bottom | .returning _ | .taking _ _ => false
  | _ => true

variable {t u w : SourceType}

theorem cases_of_assignable (h : t.assignable u = true) :
    t = u ∨ u = .object ∨ (t = .none ∧ u.nullable = true) ∨ (t = .empty ∧ u.isList = true) ∨
      ∃ elem, t = .list .none ∧ u = .list elem ∧ elem.nullable = true := by
  have helems (helems : nullableElems t u = true) :
      ∃ elem, t = .list .none ∧ u = .list elem ∧ elem.nullable = true := by
    unfold nullableElems at helems
    split at helems
    · exact ⟨_, rfl, rfl, helems⟩
    · cases helems
  simp only [assignable, subtype, Bool.or_eq_true, Bool.and_eq_true, beq_iff_eq, bne_iff_ne] at h
  grind

theorem assignable_refl (ht : t.isValue = true) : t.assignable t = true := by
  cases t <;> first | cases ht; done | simp [assignable, subtype]

theorem assignable_object (ht : t.isValue = true) : t.assignable .object = true := by
  cases t <;> first | cases ht; done | simp [assignable, subtype, isList]

theorem empty_assignable (hu : u.isList = true) : empty.assignable u = true := by
  simp [assignable, hu]

theorem nullable_of_assignable (h : u.assignable w = true) (hu : u.nullable = true) :
    w.nullable = true := by
  obtain rfl | rfl | ⟨-, hw⟩ | ⟨-, hw⟩ | ⟨_, -, rfl, -⟩ := cases_of_assignable h
  · exact hu
  · rfl
  · exact hw
  · cases w <;> first | cases hw; done | rfl
  · rfl

theorem assignable_trans (ht : t.isValue = true) (htu : t.assignable u = true)
    (huw : u.assignable w = true) : t.assignable w = true := by
  obtain rfl | rfl | ⟨rfl, hu⟩ | ⟨rfl, hu⟩ | ⟨_, rfl, rfl, _⟩ := cases_of_assignable htu
  · exact huw
  · obtain rfl | rfl | ⟨⟨⟩, -⟩ | ⟨⟨⟩, -⟩ | ⟨_, ⟨⟩, -⟩ := cases_of_assignable huw
    · exact assignable_object ht
    · exact assignable_object ht
  · simp [assignable, nullable_of_assignable huw hu]
  · obtain rfl | rfl | ⟨rfl, -⟩ | ⟨rfl, -⟩ | ⟨_, -, rfl, -⟩ := cases_of_assignable huw
    · exact empty_assignable hu
    · exact assignable_object ht
    · cases hu
    · cases hu
    · exact empty_assignable rfl
  · obtain rfl | rfl | ⟨⟨⟩, -⟩ | ⟨⟨⟩, -⟩ | ⟨_, _, rfl, helem'⟩ := cases_of_assignable huw
    · exact htu
    · exact assignable_object ht
    · simp [assignable, nullableElems, helem']

/-- How far up a type stands: everything that is below a type stands lower. -/
def level : SourceType → Nat
  | .none => 0
  | .empty => 1
  | .list .none => 2
  | .object => 4
  | _ => 3

theorem level_lt_of_assignable (h : t.assignable u = true) (hne : t ≠ u) : t.level < u.level := by
  obtain rfl | rfl | ⟨rfl, hu⟩ | ⟨rfl, hu⟩ | ⟨_, rfl, rfl, -⟩ := cases_of_assignable h
  · exact absurd rfl hne
  · unfold level
    grind
  · unfold level
    grind
  · unfold level
    grind [isList]
  · unfold level
    grind

theorem assignable_antisymm (htu : t.assignable u = true) (hut : u.assignable t = true) :
    t = u := by
  by_contra hne
  have hlt := level_lt_of_assignable htu hne
  have hgt := level_lt_of_assignable hut (Ne.symm hne)
  omega

section
variable (ht : t.isValue = true)
include ht

theorem comparable_of_assignable (htw : t.assignable w = true)
    (huw : u.assignable w = true) (hw : w ≠ .object) :
    t.assignable u = true ∨ u.assignable t = true := by
  obtain rfl | rfl | ⟨rfl, _⟩ | ⟨rfl, _⟩ | ⟨_, rfl, rfl, _⟩ := cases_of_assignable htw
  · exact .inr huw
  · exact absurd rfl hw
  all_goals
    obtain rfl | hobject | ⟨rfl, -⟩ | ⟨rfl, -⟩ | ⟨_, rfl, -⟩ := cases_of_assignable huw
    · exact .inl htw
    · exact absurd hobject hw
    all_goals decide

theorem isValue_join (hu : u.isValue = true) : (t.join u).isValue = true := by
  rw [join]
  split
  · exact hu
  split
  · exact ht
  · rfl

theorem assignable_join (hu : u.isValue = true) :
    t.assignable (t.join u) = true ∧ u.assignable (t.join u) = true := by
  rw [join]
  split
  next h => exact ⟨h, assignable_refl hu⟩
  split
  next h => exact ⟨assignable_refl ht, h⟩
  · exact ⟨assignable_object ht, assignable_object hu⟩

theorem join_assignable (htw : t.assignable w = true)
    (huw : u.assignable w = true) : (t.join u).assignable w = true := by
  rw [join]
  split
  · exact huw
  next htu =>
    split
    · exact htw
    next hut =>
      by_cases hw : w = .object
      · rw [hw]
        rfl
      · exact absurd (comparable_of_assignable ht htw huw hw) (not_or.mpr ⟨htu, hut⟩)

end

def Valued := { t : SourceType // t.isValue = true }

namespace Valued

instance : SemilatticeSup Valued where
  le t u := t.val.assignable u.val = true
  le_refl t := assignable_refl t.property
  le_trans t _ _ := assignable_trans t.property
  le_antisymm _ _ htu hut := Subtype.ext (assignable_antisymm htu hut)
  sup t u := ⟨t.val.join u.val, isValue_join t.property u.property⟩
  le_sup_left t u := (assignable_join t.property u.property).1
  le_sup_right t u := (assignable_join t.property u.property).2
  sup_le t _ _ := join_assignable t.property

/-- The join of a type with further ones is below all that is above each of them. -/
theorem foldl_sup_le_iff (ts : List Valued) (t w : Valued) :
    ts.foldl (· ⊔ ·) t ≤ w ↔ ∀ u ∈ t :: ts, u ≤ w := by
  induction ts generalizing t with
  | nil => simp
  | cons u ts ih => simp [ih, and_assoc]

theorem val_foldl_sup (ts : List Valued) (t : Valued) :
    (ts.foldl (· ⊔ ·) t).val = (ts.map Subtype.val).foldl join t.val := by
  induction ts generalizing t with
  | nil => rfl
  | cons u ts ih => exact ih (t ⊔ u)

/-- A list has the same type in whichever order its elements come. -/
theorem listDisplayRule_perm {ts us : List Valued} (h : ts.Perm us) :
    Typing.listDisplayRule (ts.map Subtype.val) = Typing.listDisplayRule (us.map Subtype.val) := by
  obtain _ | ⟨t, ts⟩ := ts
  · rw [h.nil_eq]
  obtain _ | ⟨u, us⟩ := us
  · exact absurd h.symm.nil_eq (List.cons_ne_nil _ _).symm
  have heq : ts.foldl (· ⊔ ·) t = us.foldl (· ⊔ ·) u := eq_of_forall_ge_iff fun w => by
    rw [foldl_sup_le_iff, foldl_sup_le_iff]
    exact forall_congr' fun a => imp_congr_left h.mem_iff
  have hval := congrArg Subtype.val heq
  rw [val_foldl_sup, val_foldl_sup] at hval
  exact congrArg (fun s => Except.ok (list s)) hval

end Valued

/-- Assignability is a partial order on the types of values, `join` is the least upper bound in it,
and the type of a list that is written out does not depend on the order of its elements. -/
theorem assignable_order_join_lub (t u w : Valued) {ts us : List Valued} (hperm : ts.Perm us) :
    (t.val.assignable t.val = true ∧
      (t.val.assignable u.val = true → u.val.assignable t.val = true → t.val = u.val) ∧
      (t.val.assignable u.val = true → u.val.assignable w.val = true →
        t.val.assignable w.val = true)) ∧
    ((t.val.join u.val).isValue = true ∧ t.val.assignable (t.val.join u.val) = true ∧
      u.val.assignable (t.val.join u.val) = true ∧
      (t.val.assignable w.val = true → u.val.assignable w.val = true →
        (t.val.join u.val).assignable w.val = true)) ∧
    t.val.join u.val = u.val.join t.val ∧
    (t.val.join u.val).join w.val = t.val.join (u.val.join w.val) ∧
    Typing.listDisplayRule (ts.map Subtype.val) = Typing.listDisplayRule (us.map Subtype.val) := by
  refine ⟨⟨assignable_refl t.property, assignable_antisymm, assignable_trans t.property⟩,
    ⟨isValue_join t.property u.property, (assignable_join t.property u.property).1,
      (assignable_join t.property u.property).2, join_assignable t.property⟩, ?_, ?_,
    Valued.listDisplayRule_perm hperm⟩
  · exact congrArg Subtype.val (sup_comm t u)
  · exact congrArg Subtype.val (sup_assoc t u w)

/-- The absent value and an empty list in a list of lists of integers, from both ends. -/
theorem assignable_order_join_lub_nested :
    Typing.listDisplayRule [.none, .list .int, .empty] = .ok (.list (.list .int)) ∧
      Typing.listDisplayRule [.none, .list .int, .empty] =
        Typing.listDisplayRule [.empty, .list .int, .none] :=
  have hperm : List.Perm (α := Valued) [⟨.none, rfl⟩, ⟨.list .int, rfl⟩, ⟨.empty, rfl⟩]
      [⟨.empty, rfl⟩, ⟨.list .int, rfl⟩, ⟨.none, rfl⟩] := List.reverse_perm _ |>.symm
  ⟨rfl, (assignable_order_join_lub ⟨.none, rfl⟩ ⟨.empty, rfl⟩ ⟨.object, rfl⟩ hperm).2.2.2.2⟩

end SourceType

end Practicum.Choco
