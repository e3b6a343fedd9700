import Practicum.Flat.Verify
import Practicum.Proofs.Choco.Derivations

/-!
# Stores

Type checking decides by `assignable` what can be assigned to a variable, and the flat level decides
by `storable` what can be stored to its location. The two agree on every type that a variable can be
declared with, but for lists in which every element is absent.
-/

namespace Practicum

open Choco IR

variable {t u : SourceType} {T U : Ty}

namespace Choco.SourceType

/-- The types that can be written in a program. -/
def isDeclarable : SourceType → Bool
  | .int | .bool | .str | .object => true
  | .list elem => elem.isDeclarable
  | _ => false

theorem ofTy_of_toTy? (h : t.toTy? = some T) : ofTy T = .ok t := by
  induction t generalizing T with
  | list elem ih =>
    obtain ⟨E, helem, rfl⟩ := Option.map_eq_some_iff.mp h
    rw [ofTy, ih helem]
    rfl
  | bottom | returning | taking => cases h
  | _ =>
    cases h
    rfl

theorem toTy?_eq_iff (ht : t.toTy? = some T) (hu : u.toTy? = some U) : T = U ↔ t = u := by
  constructor
  · rintro rfl
    exact Except.ok.inj ((ofTy_of_toTy? ht).symm.trans (ofTy_of_toTy? hu))
  · rintro rfl
    exact Option.some.inj (ht.symm.trans hu)

end Choco.SourceType

namespace Flat

open SourceType

theorem storable_iff (ht : t.toTy? = some T) (hu : u.toTy? = some U) : storable U T = true ↔
      t = u ∨ u = .object ∨ u.isList = true ∧ (t = .empty ∨ t = .none) := by
  have hsame := toTy?_eq_iff ht hu
  have hobject := toTy?_eq_iff hu (u := .object) rfl
  have hempty := toTy?_eq_iff ht (u := .empty) rfl
  have hnone := toTy?_eq_iff ht (u := .none) rfl
  cases u with
  | list elem =>
    obtain ⟨E, -, rfl⟩ := Option.map_eq_some_iff.mp hu
    simp [storable, isList, hsame, hobject, hempty, hnone]
  | bottom | returning | taking => cases hu
  | _ =>
    have hplain : storable U T = (T == U || U == .object || false) := by
      cases hu
      rfl
    simp [hplain, isList, hsame, hobject]

/-- A value may be stored to the location of a variable exactly if it may be assigned to the
variable, unless it is a list of absent elements and the variable is declared as a list. -/
theorem stored_iff_assignable {o : Op} {place value : Val} (hstore : o.flat? = some .store)
    (hoperands : o.operands = [place, value]) (hplace : place.type = .memory U)
    (ht : t.toTy? = some value.type) (hu : u.toTy? = some U) (hdeclared : u.isDeclarable = true) :
    verifyHere o = .ok () ↔
      t.assignable u = true ∧ ¬(t = .list .none ∧ u.isList = true) := by
  have hvalue : t.isValue = true := by
    rw [← Typing.toTy?_isSome, ht]
    rfl
  have hverify : verifyHere o = .ok () ↔ storable U value.type = true := by
    simp [verifyHere, hstore, hoperands, hplace, typeOfFirst, contentOf, bind, Except.bind]
    cases storable U value.type <;> simp [pure, Except.pure, throw, throwThe, MonadExceptOf.throw]
  rw [hverify, storable_iff ht hu]
  constructor
  · rintro (rfl | rfl | ⟨hlist, rfl | rfl⟩)
    · refine ⟨assignable_refl hvalue, ?_⟩
      rintro ⟨rfl, -⟩
      cases hdeclared
    · exact ⟨assignable_object hvalue, fun h => absurd h.2 (by decide)⟩
    · exact ⟨empty_assignable hlist, nofun⟩
    · refine ⟨?_, nofun⟩
      cases u <;> first | cases hlist; done | rfl
  · rintro ⟨h, hnot⟩
    obtain rfl | rfl | ⟨rfl, hnull⟩ | ⟨rfl, hlist⟩ | ⟨_, rfl, rfl, -⟩ := cases_of_assignable h
    · exact .inl rfl
    · exact .inr (.inl rfl)
    · cases u <;> first | cases hnull; done | cases hdeclared; done | simp [isList]
    · exact .inr (.inr ⟨hlist, .inl rfl⟩)
    · exact absurd ⟨rfl, rfl⟩ hnot

/-- The absent value stored to a variable for lists of lists. -/
theorem stored_iff_assignable_absent :
    verifyHere (.mk 2 (.flat .store) [⟨0, .memory (.list (.list .int))⟩, ⟨1, .none⟩] [] []) = .ok () :=
  (stored_iff_assignable (t := .none) (u := .list (.list .int)) rfl rfl rfl rfl rfl rfl).mpr
    ⟨rfl, nofun⟩

/-- A list of an absent element may be assigned to such a variable, but it is not stored. -/
theorem refused_absentElement :
    (SourceType.list .none).assignable (.list (.list .int)) = true ∧
      (SourceType.list (.list .int)).isDeclarable = true ∧
      (verifyHere (.mk 2 (.flat .store) [⟨0, .memory (.list (.list .int))⟩, ⟨1, .list .none⟩]
        [] [])).isOk = false := by
  decide

end Flat

end Practicum
