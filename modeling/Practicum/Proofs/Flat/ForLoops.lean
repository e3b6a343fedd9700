import Practicum.Compiler.Command
import Practicum.Proofs.Choco.TypeOrder
import Practicum.Proofs.IR.Splicing

/-!
# Loops that count

A loop over the elements of a list or a string becomes a loop that counts. The operations that are
made for it take the type of an element from the variable of the loop, which may be wider.
-/

namespace Practicum.Flat.ForLoop

open Choco IR Editing List

/-- Type checking lets a loop whose variable has a type go over values of another type. -/
def Iterates (t : SourceType) (iterated : Ty) : Prop :=
  iterated = .str ∧ SourceType.str.assignable t = true ∨
    ∃ (e : SourceType) (E : Ty), e.toTy? = some E ∧ iterated = .list E ∧ e.assignable t = true

def Verified (ops : List Op) : Prop :=
  ∀ o ∈ ops, verifyHere o = .ok ()

variable {n k l : Nat} {x y iterable : Val} {T : Ty}

theorem verified_load : verifyHere (.mk n (.flat .load) [⟨k, .memory T⟩] [⟨l, T⟩] []) = .ok () :=
  if_neg (not_not_intro rfl)

theorem verified_store_iff : verifyHere (.mk n (.flat .store) [⟨k, .memory T⟩, y] [] []) = .ok () ↔
      storable T y.type = true := by
  change (if (!storable T y.type) = true then Except.error _ else Except.ok ()) = Except.ok () ↔ _
  cases storable T y.type <;> simp

theorem verified_getAddress_iff :
    verifyHere (.mk n (.flat .getAddress) [iterable, y] [⟨k, .memory T⟩] []) = .ok () ↔
      iterable.type = .list T ∨ iterable.type = .str ∧ T = .str := by
  obtain ⟨_, type⟩ := iterable
  cases type with
  | list E =>
    change (if E ≠ T then Except.error _ else Except.ok ()) = Except.ok () ↔ _
    by_cases h : E = T <;> simp [h, Ty.str]
  | named name =>
    change (if Ty.named name = .str then if T ≠ .str then Except.error _ else Except.ok ()
      else Except.error _) = Except.ok () ↔ _
    by_cases hname : name = "str" <;> by_cases hT : T = .named "str" <;> simp [Ty.str, hname, hT]
  | _ =>
    change Except.error _ = Except.ok () ↔ _
    simp [Ty.str]

/-! ## The parts of the loop -/

section
variable (d : Draft Unit) (n : Nat)

theorem run_condition (iterable : Val) : ∃ ops, Verified ops ∧ verifyLoop ops = .ok () ∧
    (condition ⟨n, .memory .int⟩ iterable).run d = .ok (.plain ops, d.after 7) := by
  refine ⟨_, ?_, rfl, rfl⟩
  simp only [Verified, forall_mem_cons]
  exact ⟨rfl, rfl, rfl, rfl, nofun⟩

theorem run_advance : ∃ ops, Verified ops ∧
    (advance ⟨n, .memory .int⟩).run d = .ok (ops, d.after 7) := by
  refine ⟨_, ?_, rfl⟩
  simp only [Verified, forall_mem_cons]
  exact ⟨rfl, rfl, rfl, rfl, nofun⟩

theorem run_fetch {t : SourceType} (hx : x.type = .memory T) (ht : t.toTy? = some T)
    (hit : Iterates t iterable.type) :
    ∃ ops k, (fetch x ⟨n, .memory .int⟩ iterable).run d = .ok (ops, d.after k) ∧
      (Verified ops ↔ iterable.type = .str ∨ iterable.type = .list T) := by
  obtain ⟨_, type⟩ := x
  cases hx
  obtain ⟨hstr, h⟩ | ⟨e, E, -, hlist, -⟩ := hit
  · have hT : storable T .str = true := by
      obtain rfl | rfl | ⟨⟨⟩, -⟩ | ⟨⟨⟩, -⟩ | ⟨_, ⟨⟩, -⟩ := SourceType.cases_of_assignable h
      all_goals
        cases ht
        rfl
    refine ⟨_, 9, by simp only [fetch, if_pos hstr]; rfl, ?_⟩
    simp only [Verified, forall_mem_cons, verified_getAddress_iff, reverse_nil, verified_store_iff]
    exact ⟨fun _ => .inl hstr, fun _ => ⟨rfl, .inr ⟨hstr, trivial⟩, rfl, rfl, hT, nofun⟩⟩
  · have hstr : iterable.type ≠ .str := hlist ▸ nofun
    refine ⟨_, 7, by simp only [fetch, if_neg hstr]; rfl, ?_⟩
    rw [or_iff_right hstr]
    simp only [Verified, forall_mem_cons, verified_getAddress_iff, reverse_nil, verified_store_iff]
    refine ⟨fun h => h.2.1.resolve_right fun h => hstr h.1, fun h => ?_⟩
    exact ⟨rfl, .inl h, verified_load, by simp [storable], nofun⟩

end

/-- The operations that are made for a loop over elements keep the rules of the flat level exactly if
the loop goes over a string, or over a list whose elements have the type of its variable. -/
theorem verified_iff_string_or_same (d : Draft Unit) {o : Op} {t : SourceType}
    (hfor : o.flat? = some .forEach) (hoperands : o.operands = [x, iterable])
    (hx : x.type = .memory T) (ht : t.toTy? = some T) (hit : Iterates t iterable.type) :
    ∃ start loop condition header footer next, (pattern o).run d = .ok ((), { d with
        program := { d.program with next }.exchanged (o.withRegions []) o (start ++ [loop])
        changed := true }) ∧
      loop.regions = [.plain condition, .plain (header ++ o.regionOps 0 ++ footer)] ∧
      (Verified (start ++ [loop] ++ condition ++ header ++ footer) ↔
        iterable.type = .str ∨ iterable.type = .list T) := by
  have hnone : Module.successors o [] = [] := by
    rw [Module.successors, zip_nil_right]
    rfl
  have hbeq : (o.flat? == some .forEach) = true := by
    rw [hfor]
    rfl
  obtain ⟨condition, hcondition, hloop, hrun1⟩ :=
    run_condition (d.after 5) d.program.next iterable
  obtain ⟨header, k, hrun2, hheader⟩ :=
    run_fetch ((d.after 5).after 7) d.program.next hx ht hit
  obtain ⟨footer, hfooter, hrun3⟩ :=
    run_advance (((d.after 5).after 7).after k) d.program.next
  refine ⟨[.mk (d.program.next + 1) (.flat (.alloc .int)) [] [⟨d.program.next, .memory .int⟩] [],
      .mk (d.program.next + 3) (.flat (.literal (.word 0))) [] [⟨d.program.next + 2, .int⟩] [],
      .mk (d.program.next + 4) (.flat .store)
        [⟨d.program.next, .memory .int⟩, ⟨d.program.next + 2, .int⟩] [] []],
    .mk (d.program.next + 5 + 7 + k + 7) (.flat .loop) [] [] [.plain condition,
      .plain (header ++ o.regionOps 0 ++ footer)], condition, header, footer,
    d.program.next + 5 + 7 + k + 7 + 1, ?_, rfl, ?_⟩
  · rw [pattern, if_pos hbeq, hoperands]
    refine run_bind_ok_iff.mpr ⟨_, d.after 2, rfl, ?_⟩
    refine run_bind_ok_iff.mpr ⟨_, d.after 4, rfl, ?_⟩
    refine run_bind_ok_iff.mpr ⟨_, d.after 5, rfl, ?_⟩
    refine run_bind_ok_iff.mpr ⟨_, _, hrun1, ?_⟩
    refine run_bind_ok_iff.mpr ⟨_, _, hrun2, ?_⟩
    refine run_bind_ok_iff.mpr ⟨_, _, hrun3, ?_⟩
    refine run_bind_ok_iff.mpr ⟨_, _, rfl, ?_⟩
    refine (run_replaceLeaving ..).trans ?_
    rw [hnone]
    rfl
  · rw [Verified, forall_mem_append, forall_mem_append, forall_mem_append]
    simp only [cons_append, nil_append, forall_mem_cons]
    refine ⟨fun h => hheader.mp h.1.2, fun h => ⟨⟨⟨?_, hcondition⟩, hheader.mpr h⟩, hfooter⟩⟩
    exact ⟨rfl, rfl, rfl, hloop, nofun⟩

namespace Wider

/-- A loop over a list of integers, with a variable for any value. -/
def loop : Op :=
  .mk 5 (.flat .forEach) [⟨0, .memory .object⟩, ⟨3, .list .int⟩] [] [.plain []]

def draft : Draft Unit where
  program := { ops := [loop], next := 6 }
  memo := ()

/-- What is made for the loop does not keep the rules. -/
theorem verified_iff_string_or_same_wider : ∃ start loop' condition header footer d',
    (pattern loop).run draft = .ok ((), d') ∧
      loop'.regions = [.plain condition, .plain (header ++ loop.regionOps 0 ++ footer)] ∧
      ¬ Verified (start ++ [loop'] ++ condition ++ header ++ footer) := by
  obtain ⟨start, loop', condition, header, footer, _, hrun, hregions, hiff⟩ :=
    verified_iff_string_or_same draft (o := loop) (t := .object) rfl rfl rfl rfl
      (.inr ⟨.int, .int, rfl, rfl, rfl⟩)
  exact ⟨start, loop', condition, header, footer, _, hrun, hregions, hiff.not.mpr (by decide)⟩

open Compiler in
/-- The program of the flat level that a source becomes. -/
def flatOf (source : String) : Option Module := do
  let n ← (parseProgram .third source).toOption
  let w ← (runPasses .third { program := .tree [n] }
    [.analysis .assignTarget, .analysis .names, .analysis .types, .flatten]).toOption
  match w.program with
  | .code m => some m
  | .tree _ => none

/-- A program that keeps the rules no longer does once its loop counts. -/
theorem refused_wider :
    (flatOf "x: object = None\nfor x in [1]:\n    pass\n").any (fun m => (verify m).isOk &&
      (run m).toOption.any fun m' => !(verify m').isOk) = true := by
  decide +kernel

end Wider

end Practicum.Flat.ForLoop
