import Practicum.Flat.Folding
import Practicum.Proofs.Machine.Straight

/-!
# Operators in advance and at run time

The literal that an operator is computed to in advance and the word that its code gives agree,
except for quotients and remainders that are not exact and whose operands have different signs: in
advance quotients are rounded down, and the machine rounds them towards zero.
-/

namespace Practicum.Machine

open Choco (Literal Value)
open IR Riscv Flat BitVec Int

def integerOperators : List String :=
  ["+", "-", "*", "//", "%", "==", "!=", "<", ">", "<=", ">="]

def Signed (n : Int) : Prop :=
  -2 ^ 31 ≤ n ∧ n < 2 ^ 31

/-- A quotient is exact, or not negative: to round it down is to round it towards zero. -/
def RoundsAlike (m n : Int) : Prop :=
  n ∣ m ∨ (0 ≤ m ↔ 0 ≤ n)

/-- The word of a literal, for which integers count modulo the number of words. -/
def literalWord? : Literal → Option Word
  | .int n _ => some (wordOf n)
  | .bool b => some (truthWord b)
  | _ => none

variable {m n : Int}

/-! ## Numbers and their words -/

theorem toInt_wordOf (h : Signed m) : (wordOf m).toInt = m :=
  toInt_ofInt_eq_self (by decide) h.1 h.2

theorem wordOf_mul : wordOf (m * n) = wordOf m * wordOf n :=
  ofInt_mul m n

theorem wordOf_sub : wordOf (m - n) = wordOf m - wordOf n := by
  rw [eq_comm, sub_eq_iff_eq_add, ← wordOf_add, Int.sub_add_cancel]

/-! ## Quotients -/

theorem fdiv_eq_tdiv_sub_one (hn : n ≠ 0) (h : ¬RoundsAlike m n) : m.fdiv n = m.tdiv n - 1 := by
  obtain ⟨hdvd, hsign⟩ := not_or.mp h
  rw [fdiv_eq_tdiv, if_neg hdvd]
  obtain hneg | hpos := lt_or_gt_of_ne hn
  · have hm : 0 ≤ m := by
      by_contra hm
      exact hsign ⟨fun h => absurd h hm, fun h => absurd hneg (not_lt.mpr h)⟩
    rw [if_pos hm, if_neg (not_le.mpr hneg)]
  · have hm : ¬0 ≤ m := fun hm => hsign ⟨fun _ => hpos.le, fun _ => hm⟩
    rw [if_neg hm, if_pos hpos.le, sign_eq_one_of_pos hpos]

theorem fdiv_eq_tdiv_of_roundsAlike (h : RoundsAlike m n) : m.fdiv n = m.tdiv n := by
  by_cases hdvd : n ∣ m
  · rw [fdiv_eq_tdiv, if_pos hdvd, sub_zero]
  have hsign := h.resolve_left hdvd
  rw [fdiv_eq_tdiv, if_neg hdvd]
  by_cases hm : 0 ≤ m
  · rw [if_pos hm, if_pos (hsign.mp hm), sub_zero]
  have hneg : n < 0 := not_le.mp fun hn => hm (hsign.mpr hn)
  rw [if_neg hm, if_neg (not_le.mpr hneg), sign_eq_neg_one_of_neg hneg]
  exact sub_zero _

section
variable (hm : Signed m) (hn : Signed n)
include hm hn

theorem wordOf_inj : wordOf m = wordOf n ↔ m = n := by
  refine ⟨fun h => ?_, congrArg wordOf⟩
  rw [← toInt_wordOf hm, h, toInt_wordOf hn]

omit hm in
theorem wordOf_ne_zero (h : n ≠ 0) : wordOf n ≠ 0 :=
  fun hzero => h ((wordOf_inj hn ⟨by decide, by decide⟩).mp hzero)

theorem slt_wordOf : (wordOf m).slt (wordOf n) = decide (m < n) := by
  rw [slt_eq_decide, toInt_wordOf hm, toInt_wordOf hn]

theorem beq_wordOf : (wordOf m == wordOf n) = (m == n) := by
  rw [Bool.eq_iff_iff, beq_iff_eq, beq_iff_eq, wordOf_inj hm hn]

theorem sdiv_wordOf : (wordOf m).sdiv (wordOf n) = wordOf (m.tdiv n) := by
  rw [← toInt_inj, toInt_sdiv, toInt_wordOf hm, toInt_wordOf hn]
  exact (toInt_ofInt _).symm

theorem srem_wordOf : (wordOf m).srem (wordOf n) = wordOf (m.tmod n) := by
  have hrem : ((wordOf m).srem (wordOf n)).toInt = m.tmod n := by
    rw [toInt_srem, toInt_wordOf hm, toInt_wordOf hn]
  rw [← hrem]
  exact ofInt_toInt.symm

theorem wordOf_fdiv_eq_iff (hzero : n ≠ 0) :
    wordOf (m.fdiv n) = (wordOf m).sdiv (wordOf n) ↔ RoundsAlike m n := by
  rw [sdiv_wordOf hm hn]
  refine ⟨fun h => ?_, fun h => by rw [fdiv_eq_tdiv_of_roundsAlike h]⟩
  by_contra hround
  rw [fdiv_eq_tdiv_sub_one hzero hround, wordOf_sub, sub_eq_iff_eq_add, left_eq_add] at h
  cases h

theorem wordOf_fmod_eq_iff (hzero : n ≠ 0) :
    wordOf (m.fmod n) = (wordOf m).srem (wordOf n) ↔ RoundsAlike m n := by
  rw [srem_wordOf hm hn]
  refine ⟨fun h => ?_, fun h => ?_⟩
  · by_contra hround
    have hmod : m.fmod n = m.tmod n + n := by
      rw [Int.fmod_def, Int.tmod_def, fdiv_eq_tdiv_sub_one hzero hround, Int.mul_sub]
      omega
    rw [hmod, wordOf_add, add_eq_left] at h
    exact wordOf_ne_zero hn hzero h
  · rw [Int.fmod_def, Int.tmod_def, fdiv_eq_tdiv_of_roundsAlike h]

end

/-! ## Operators -/

/-- An operator on two integers has a value in advance and gives a word at run time. The word is that
of the literal for the value, unless the operator is a division that is rounded differently. -/
theorem exists_folded_word {op : String} (hop : op ∈ integerOperators) (hm : Signed m)
    (hn : Signed n) (hzero : op = "//" ∨ op = "%" → n ≠ 0) (same : Bool) :
    ∃ v w, Folding.evaluate op same (.int m) (.int n) = .ok v ∧
      (∀ ω : Type, (Act.binary op (wordOf m) (wordOf n) : Act ω Word) = pure w) ∧
      (literalWord? (Folding.literalOf v) = some w ↔ (op = "//" ∨ op = "%" → RoundsAlike m n)) := by
  have hexact {op : String} {v w : Word} (hop : ¬(op = "//" ∨ op = "%")) (heq : v = w) :
      some v = some w ↔ (op = "//" ∨ op = "%" → RoundsAlike m n) :=
    iff_of_true (congrArg some heq) fun h => absurd h hop
  simp only [integerOperators, List.mem_cons, List.not_mem_nil, or_false] at hop
  obtain rfl | rfl | rfl | rfl | rfl | rfl | rfl | rfl | rfl | rfl | rfl := hop
  · exact ⟨_, _, rfl, fun _ => rfl, hexact (by decide) (wordOf_add _ _)⟩
  · exact ⟨_, _, rfl, fun _ => rfl, hexact (by decide) wordOf_sub⟩
  · exact ⟨_, _, rfl, fun _ => rfl, hexact (by decide) wordOf_mul⟩
  · have hn0 : n ≠ 0 := hzero (.inl rfl)
    refine ⟨.int (m.fdiv n), (wordOf m).sdiv (wordOf n), ?_, fun _ => ?_, ?_⟩
    · simp [Folding.evaluate, Value.binary, Value.floorDiv, Value.arith, Value.number?, hn0,
        Except.map]
    · exact if_neg (wordOf_ne_zero hn hn0)
    · refine (Option.some_inj.trans (wordOf_fdiv_eq_iff hm hn hn0)).trans ?_
      exact ⟨fun h _ => h, fun h => h (.inl rfl)⟩
  · have hn0 : n ≠ 0 := hzero (.inr rfl)
    refine ⟨.int (m.fmod n), (wordOf m).srem (wordOf n), ?_, fun _ => ?_, ?_⟩
    · simp [Folding.evaluate, Value.binary, Value.modulo, Value.arith, Value.number?, hn0,
        Except.map]
    · exact if_neg (wordOf_ne_zero hn hn0)
    · refine (Option.some_inj.trans (wordOf_fmod_eq_iff hm hn hn0)).trans ?_
      exact ⟨fun h _ => h, fun h => h (.inr rfl)⟩
  · refine ⟨_, _, rfl, fun _ => rfl, hexact (by decide) ?_⟩
    rw [beq_wordOf hm hn]
    rfl
  · refine ⟨_, _, rfl, fun _ => rfl, hexact (by decide) ?_⟩
    rw [bne, beq_wordOf hm hn]
    rfl
  · refine ⟨_, _, rfl, fun _ => rfl, hexact (by decide) ?_⟩
    rw [slt_wordOf hm hn]
  · refine ⟨_, _, rfl, fun _ => rfl, hexact (by decide) ?_⟩
    rw [slt_wordOf hn hm]
  · refine ⟨_, _, rfl, fun _ => rfl, hexact (by decide) ?_⟩
    rw [slt_wordOf hn hm, ← decide_not]
    simp only [not_lt]
  · refine ⟨_, _, rfl, fun _ => rfl, hexact (by decide) ?_⟩
    rw [slt_wordOf hm hn, ← decide_not]
    simp only [not_lt]

theorem run_binaryPattern_of_literals {op : String} {d : Draft Unit} {o l r : Op} {v : Value}
    (hoperands : (Folding.operandsOf o).run d = .ok ((l, r), d)) (hl : Folding.int? l = some m)
    (hr : Folding.int? r = some n)
    (hv : Folding.evaluate op (l.id == r.id) (.int m) (.int n) = .ok v) :
    (Folding.binaryPattern op o).run d =
      (Editing.replaceByLast o [.mk (d.program.next + 1) (.flat (.literal (Folding.literalOf v))) []
        [⟨d.program.next, (Folding.literalOf v).type⟩] []]).run (d.after 2) := by
  have hcomparable : Folding.comparable? l r = some (.int m, .int n) := by
    unfold Folding.int? at hl hr
    unfold Folding.comparable?
    split at hl <;> cases hl
    next hl =>
    split at hr <;> cases hr
    next hr => rw [hl, hr]
  rw [Folding.binaryPattern, StateT.run_bind, hoperands]
  simp only [bind, Except.bind, hcomparable, hv]
  rfl

/-- The literal that is put in the place of an operator on two integers is the word that the code for
the operator computes from the words of the two integers, for all operators but divisions. The
literal for a quotient or a remainder is that word exactly if the quotient is exact or the operands
have the same sign. -/
theorem folded_eq_computed_iff {ω : Type} {E : Surroundings ω} (hfits : E.fits 1) {op : String}
    (hop : op ∈ integerOperators) (hm : Signed m) (hn : Signed n)
    (hzero : op = "//" ∨ op = "%" → n ≠ 0) {d : Draft Unit} {o l r : Op}
    (hoperands : (Folding.operandsOf o).run d = .ok ((l, r), d)) (hl : Folding.int? l = some m)
    (hr : Folding.int? r = some n) {a b : Val} {values : Values} {start : Nat}
    (ha : values a.id = some (wordOf m)) (hb : values b.id = some (wordOf n))
    (hfresh : a.id < start ∧ b.id < start) (s : Store ω) :
    ∃ literal e v values' w, (Folding.binaryPattern op o).run d =
        (Editing.replaceByLast o [.mk (d.program.next + 1) (.flat (.literal literal)) []
          [⟨d.program.next, literal.type⟩] []]).run (d.after 2) ∧
      binary op a b = some e ∧ (e.run start).1.value = some v ∧
      runRow? E (e.run start).1.ops values s = some (.on values' s) ∧ values' v.id = some w ∧
      (literalWord? literal = some w ↔ (op = "//" ∨ op = "%" → RoundsAlike m n)) := by
  obtain ⟨v, w, hv, hact, hiff⟩ := exists_folded_word hop hm hn hzero (l.id == r.id)
  obtain ⟨e, he⟩ : ∃ e, binary op a b = some e := by
    simp only [integerOperators, List.mem_cons, List.not_mem_nil, or_false] at hop
    obtain rfl | rfl | rfl | rfl | rfl | rfl | rfl | rfl | rfl | rfl | rfl := hop <;> exact ⟨_, rfl⟩
  have hrow : Performs E (e.run start).1.ops values s _
      (Concluded values start _ _ [⟨0, .register⟩]) _ :=
    performs_binary hfits he ha hb (.inl hfresh.1) (.inl hfresh.2)
  rw [hact] at hrow
  obtain ⟨values', hrun, -, hvalue⟩ := hrow
  obtain ⟨u, hu, hw⟩ := (hvalue.resolve_left nofun) w rfl
  exact ⟨_, e, u, values', w, run_binaryPattern_of_literals hoperands hl hr hv, he, hu, hrun, hw,
    hiff⟩

/-! ## `m // n` -/

namespace Quotient

def dividend (m : Int) : Op := .mk 1 (.flat (.literal (.int m 32))) [] [⟨0, .int⟩] []

def divisor (n : Int) : Op := .mk 3 (.flat (.literal (.int n 32))) [] [⟨2, .int⟩] []

def quotient : Op := .mk 5 (.flat (.binary "//")) [⟨0, .int⟩, ⟨2, .int⟩] [⟨4, .int⟩] []

def program (m n : Int) : Module where
  ops := [dividend m, divisor n, quotient]
  next := 6

def operands (m n : Int) : Values :=
  fun id => if id = 0 then some (wordOf m) else if id = 2 then some (wordOf n) else none

def processor : Surroundings Unit where
  slot _ := 0
  reserved _ := false
  fits := encodable
  serve _ _ _ _ := none

def blank : Store Unit where
  memory _ := 0
  world := ()
  trace := []

def draft (m n : Int) : Draft Unit where
  program := program m n
  memo := ()

/-- The quotient of the least number by minus one is no number of a word, but it is the same word. -/
theorem folded_eq_computed_least : (∃ literal e v values' w,
      (Folding.binaryPattern "//" quotient).run (draft (-2 ^ 31) (-1)) =
        (Editing.replaceByLast quotient [.mk 7 (.flat (.literal literal)) []
          [⟨6, literal.type⟩] []]).run ((draft (-2 ^ 31) (-1)).after 2) ∧
      binary "//" ⟨0, .int⟩ ⟨2, .int⟩ = some e ∧ (e.run 6).1.value = some v ∧
      runRow? processor (e.run 6).1.ops (operands (-2 ^ 31) (-1)) blank =
        some (.on values' blank) ∧ values' v.id = some w ∧
      (literalWord? literal = some w ↔ ("//" = "//" ∨ "//" = "%" → RoundsAlike (-2 ^ 31) (-1)))) ∧
    RoundsAlike (-2 ^ 31) (-1) := by
  refine ⟨?_, .inl (by decide)⟩
  exact folded_eq_computed_iff (by decide) (by decide) ⟨by decide, by decide⟩
    ⟨by decide, by decide⟩ (by decide) rfl rfl rfl rfl rfl ⟨by decide, by decide⟩ blank

/-- In advance `-7 // 2` is `-4`; the code for it computes `-3`. -/
theorem quotient_differs : (Folding.run (program (-7) 2)).map Module.ops = .ok
        [dividend (-7), divisor 2, .mk 7 (.flat (.literal (.int (-4) 32))) [] [⟨6, .int⟩] []] ∧
      ∃ e v values', binary "//" ⟨0, .int⟩ ⟨2, .int⟩ = some e ∧ (e.run 6).1.value = some v ∧
        runRow? processor (e.run 6).1.ops (operands (-7) 2) blank = some (.on values' blank) ∧
        values' v.id = some (wordOf (-3)) ∧ literalWord? (.int (-4) 32) ≠ some (wordOf (-3)) :=
  ⟨rfl, _, _, _, rfl, rfl, rfl, by decide, by decide⟩

end Quotient

end Practicum.Machine
