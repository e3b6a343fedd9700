import Practicum.Proofs.Flat.FloorDivision
import Practicum.Proofs.Flat.FoldingRounds

/-!
# The value of a regrouped expression

An expression that applies one operator twice is regrouped so that its literals meet. For sums and
products this never changes a value. For differences, quotients and remainders it does, unless the
literals stand in certain places or are certain numbers: `Sound` says exactly which.
-/

namespace Practicum.Flat.Folding

open Option
open Choco (Literal Value)
open IR Editing

variable {op : String} {v : Val} {side : Side}

/-! ## Values of expressions -/

/-- The value of an expression that applies one operator twice, for values of its leaves. -/
def nestedValue (op : String) (side : Side) (x : Leaf → Value) : Except Fault Value :=
  match side with
  | .left => do Value.binary op (← Value.binary op (x .a) (x .b)) (x .c)
  | .right => do Value.binary op (x .a) (← Value.binary op (x .b) (x .c))

/-- What is put in the place of an expression: its leaves grouped anew, or the remainder of the
first leaf by one of the others. -/
inductive Replacement where
  | regrouped (g : Regrouping)
  | remainder (divisor : Leaf)

def Replacement.value (x : Leaf → Value) : Replacement → Except Fault Value
  | .regrouped g => do
    Value.binary g.outer (← Value.binary g.inner (x g.first) (x g.second)) (x g.third)
  | .remainder k => Value.binary "%" (x .a) (x k)

/-- The replacement of an expression that applies one operator twice. -/
def replacement? (op : String) (side : Side) (lit : Leaf → Option Int) : Option Replacement :=
  match op, side, lit .b, lit .c with
  | "%", .left, some b, some c => some (.remainder (if c < b then .c else .b))
  | _, _, _, _ => (regroup op op side fun k => (lit k).isSome).map .regrouped

/-- A leaf may have an integer as its value: any one, or the one that it is if it is a literal. -/
def Agrees (literal : Option Int) (n : Int) : Prop :=
  ∀ m, literal = some m → n = m

@[simp]
theorem agrees_none (n : Int) : Agrees none n := by
  simp [Agrees]

@[simp]
theorem agrees_some_iff {m n : Int} : Agrees (some m) n ↔ n = m := by
  simp [Agrees]

/-- The replacement has the value of the expression, for all integers that the leaves may have as
their values and for which the expression has a value. -/
def PreservesValue (op : String) (side : Side) (lit : Leaf → Option Int) (new : Replacement) :
    Prop :=
  ∀ x : Leaf → Int, (∀ k, Agrees (lit k) (x k)) →
    ∀ v, nestedValue op side (fun k => .int (x k)) = .ok v → new.value (fun k => .int (x k)) = .ok v

/-! ## The expressions that keep their values -/

def DifferenceSound : Side → Option Int → Option Int → Option Int → Prop
  | .left, none, some _, none => True
  | .left, some _, none, some _ => True
  | .left, _, _, _ => False
  | .right, _, _, _ => True

def QuotientSound : Side → Option Int → Option Int → Option Int → Prop
  | .left, none, some b, none => b = 0 ∨ b = 1
  | .left, none, none, some c => c = 0
  | .left, some _, some b, none => b = 0
  | .left, some a, none, some c => c = 0 ∨ a = 0 ∨ 0 < c ∧ c ∣ a
  | .left, none, some b, some c => b = 0 ∨ c = 0
  | .right, some a, none, none => a = 0
  | .right, none, some b, none => b = 0
  | .right, none, none, some c => c = 0 ∨ c = 1
  | .right, some a, some b, none => a = 0 ∨ b = 0
  | .right, some a, none, some c => a = 0 ∨ c = 0 ∨ c = 1 ∨ c = -1
  | .right, none, some b, some c =>
    c = 0 ∨ b.fdiv c = 0 ∨ c = 1 ∨ c = -1 ∧ (b = 1 ∨ b = -1)
  | _, _, _, _ => False

def RemainderSound : Side → Option Int → Option Int → Option Int → Prop
  | .left, none, some b, none => b = 0 ∨ b = 1 ∨ b = -1
  | .left, none, none, some c => c = 0
  | .left, some a, some b, none => b = 0 ∨ (a = 1 ∨ a = -1) ∧ (b = 1 ∨ b = -1)
  | .left, some a, none, some c => a = 0 ∨ c = 0 ∨ c = 1 ∨ c = -1
  | .left, none, some b, some c =>
    b = 0 ∨ c = 0 ∨ if c < b then c ∣ b else 0 < b ∨ b = -1 ∨ b = c
  | .right, some a, none, none => a = 0
  | .right, none, some b, none => b = 0
  | .right, none, none, some c => c = 0 ∨ c = 1 ∨ c = -1
  | .right, some a, some b, none => a = 0 ∨ b = 0
  | .right, some a, none, some c => ∀ r : Int, 1 ≤ r → r ≤ c.natAbs → r ∣ a
  | .right, none, some b, some c =>
    c = 0 ∨ b.fmod c = 0 ∨ 0 < b ∧ b < c ∨ c < b ∧ b < 0 ∨ c = 2 ∧ b = -1 ∨ c = -2 ∧ b = 1
  | _, _, _, _ => False

/-- The operators, sides and literals for which regrouping keeps the value. Where the literals
alone leave the expression without a value, there is none to keep. -/
def Sound (op : String) (side : Side) (lit : Leaf → Option Int) : Prop :=
  match op with
  | "+" => True
  | "*" => True
  | "-" => DifferenceSound side (lit .a) (lit .b) (lit .c)
  | "//" => QuotientSound side (lit .a) (lit .b) (lit .c)
  | "%" => RemainderSound side (lit .a) (lit .b) (lit .c)
  | _ => False

/-! ## Operators on integers -/

def valueOf? (p : Option Int) : Except Fault Value :=
  match p with
  | some n => .ok (.int n)
  | none => .error .divisionByZero

theorem valueOf?_within_iff {p q : Option Int} :
    (∀ v, valueOf? p = .ok v → valueOf? q = .ok v) ↔ Within p q := by
  cases p with
  | none => simp [valueOf?, Within]
  | some m => cases q <;> simp [valueOf?, Within]

@[simp]
theorem binary_add (m n : Int) : Value.binary "+" (.int m) (.int n) = .ok (.int (m + n)) := rfl

@[simp]
theorem binary_sub (m n : Int) : Value.binary "-" (.int m) (.int n) = .ok (.int (m - n)) := rfl

@[simp]
theorem binary_mul (m n : Int) : Value.binary "*" (.int m) (.int n) = .ok (.int (m * n)) := rfl

def Computes (op : String) (f : Int → Int → Option Int) : Prop :=
  ∀ m n, Value.binary op (.int m) (.int n) = valueOf? (f m n)

theorem computes_mul : Computes "*" fun m n => some (m * n) :=
  fun _ _ => rfl

theorem computes_floorDiv : Computes "//" quotient? := by
  intro m n
  by_cases hn : n = 0 <;>
    simp [Value.binary, Value.floorDiv, Value.arith, Value.number?, quotient?, valueOf?, hn,
      Except.map]

theorem computes_modulo : Computes "%" remainder? := by
  intro m n
  by_cases hn : n = 0 <;>
    simp [Value.binary, Value.modulo, Value.arith, Value.number?, remainder?, valueOf?, hn,
      Except.map]

theorem valueOf?_bind {p : Option Int} {f : Int → Option Int} {g : Value → Except Fault Value}
    (h : ∀ n, g (.int n) = valueOf? (f n)) : (valueOf? p >>= g) = valueOf? (p.bind f) := by
  cases p with
  | none => rfl
  | some n => exact h n

/-! ## Expressions on integers -/

section
variable {f g : Int → Int → Option Int}

theorem nestedValue_left (hop : Computes op f) (x : Leaf → Int) :
    nestedValue op .left (fun k => .int (x k)) =
      valueOf? ((f (x .a) (x .b)).bind (f · (x .c))) := by
  rw [nestedValue, hop]
  exact valueOf?_bind fun _ => hop _ _

theorem nestedValue_right (hop : Computes op f) (x : Leaf → Int) :
    nestedValue op .right (fun k => .int (x k)) =
      valueOf? ((f (x .b) (x .c)).bind (f (x .a) ·)) := by
  rw [nestedValue, hop]
  exact valueOf?_bind fun _ => hop _ _

theorem value_regrouped {inner outer : String} (hinner : Computes inner f)
    (houter : Computes outer g) (i j k : Leaf) (x : Leaf → Int) :
    (Replacement.regrouped ⟨inner, i, j, outer, k⟩).value (fun k => .int (x k)) =
      valueOf? ((f (x i) (x j)).bind (g · (x k))) := by
  rw [Replacement.value, hinner]
  exact valueOf?_bind fun _ => houter _ _

end

/-! ## One row after the other -/

section
variable {lit : Leaf → Option Int} {new : Replacement}

/-- The second result is within the first one for all integers that the leaves may have as their
values. -/
@[simp]
def Everywhere (lit : Leaf → Option Int) (p q : Int → Int → Int → Option Int) : Prop :=
  ∀ a, Agrees (lit .a) a → ∀ b, Agrees (lit .b) b → ∀ c, Agrees (lit .c) c →
    Within (p a b c) (q a b c)

/-- Some of the leaves are literals, and some are not. -/
def Mixed (lit : Leaf → Option Int) : Prop :=
  (∃ k, (lit k).isSome) ∧ ∃ k, lit k = none

theorem preservesValue_iff_within {p q : Int → Int → Int → Option Int} (hp : ∀ x : Leaf → Int,
      nestedValue op side (fun k => .int (x k)) = valueOf? (p (x .a) (x .b) (x .c)))
    (hq : ∀ x : Leaf → Int, new.value (fun k => .int (x k)) = valueOf? (q (x .a) (x .b) (x .c))) :
    PreservesValue op side lit new ↔ Everywhere lit p q := by
  simp only [PreservesValue, hp, hq, valueOf?_within_iff]
  constructor
  · intro h a ha b hb c hc
    refine h (Leaf.rec a b c) fun k => ?_
    cases k
    · exact ha
    · exact hb
    · exact hc
  · intro h x hx
    exact h _ (hx .a) _ (hx .b) _ (hx .c)

@[simp]
def asLeaves (a b c : Option Int) : Leaf → Option Int
  | .a => a
  | .b => b
  | .c => c

theorem eq_asLeaves_iff {a b c : Option Int} :
    lit = asLeaves a b c ↔ lit .a = a ∧ lit .b = b ∧ lit .c = c := by
  refine ⟨by rintro rfl; simp, ?_⟩
  rintro ⟨rfl, rfl, rfl⟩
  ext1 k
  cases k <;> rfl

theorem literals_cases (hmixed : Mixed lit) :
    (∃ a, lit = asLeaves (some a) none none) ∨ (∃ b, lit = asLeaves none (some b) none) ∨
    (∃ c, lit = asLeaves none none (some c)) ∨ (∃ a b, lit = asLeaves (some a) (some b) none) ∨
    (∃ a c, lit = asLeaves (some a) none (some c)) ∨
    ∃ b c, lit = asLeaves none (some b) (some c) := by
  obtain ⟨⟨k, _⟩, k', _⟩ := hmixed
  simp only [eq_asLeaves_iff]
  cases ha : lit .a <;> cases hb : lit .b <;> cases hc : lit .c <;> cases k <;> cases k' <;>
    simp_all

/-- How leaves are put together, by whether the outer two are both literals or both none. -/
def grouping (op : String) : Side → Bool → Regrouping
  | .left, true => ⟨op, .a, .c, op, .b⟩
  | .left, false => ⟨flipped op, .b, .c, op, .a⟩
  | .right, true => ⟨flipped op, .a, .c, op, .b⟩
  | .right, false => ⟨op, .a, .b, flipped op, .c⟩

theorem regroupSame_eq_grouping {lit : Leaf → Bool} (op : String) (side : Side)
    (hsome : ∃ k, lit k = true) (hnone : ∃ k, lit k = false) :
    regroupSame op side lit = some (grouping op side (lit .a == lit .c)) := by
  obtain ⟨k, _⟩ := hsome
  obtain ⟨k', _⟩ := hnone
  cases side <;> cases ha : lit .a <;> cases hb : lit .b <;> cases hc : lit .c <;> cases k <;>
    cases k' <;> simp_all [regroupSame, movable, grouping]

/-- The operators that are regrouped with themselves. -/
def regroupable : List String := ["+", "*", "//", "-", "%"]

theorem replacement?_eq_regroup
    (hrem : ¬(op = "%" ∧ side = .left ∧ (lit .b).isSome ∧ (lit .c).isSome)) :
    replacement? op side lit = (regroup op op side fun k => (lit k).isSome).map .regrouped := by
  unfold replacement?
  split
  next hb hc => exact absurd ⟨rfl, rfl, by simp [hb], by simp [hc]⟩ hrem
  · rfl

theorem replacement?_eq_grouping (side : Side) (hop : op ∈ regroupable) (hmixed : Mixed lit)
    (hrem : ¬(op = "%" ∧ side = .left ∧ (lit .b).isSome ∧ (lit .c).isSome)) :
    replacement? op side lit =
      some (.regrouped (grouping op side ((lit .a).isSome == (lit .c).isSome))) := by
  have hregroup : regroup op op side (fun k => (lit k).isSome) =
        some (grouping op side ((lit .a).isSome == (lit .c).isSome)) := by
    have hcontains : ["+", "*", "//", "-", "%"].contains op := List.contains_iff_mem.2 hop
    rw [regroup, if_pos rfl, if_pos hcontains]
    exact regroupSame_eq_grouping op side hmixed.1 (by simpa using hmixed.2)
  rw [replacement?_eq_regroup hrem, hregroup]
  rfl

theorem exists_replacement (hop : op ∈ regroupable) (hmixed : Mixed lit) :
    ∃ new, replacement? op side lit = some new := by
  by_cases hrem : op = "%" ∧ side = .left ∧ (lit .b).isSome ∧ (lit .c).isSome
  · obtain ⟨rfl, rfl, hb, hc⟩ := hrem
    obtain ⟨b, hb⟩ := isSome_iff_exists.1 hb
    obtain ⟨c, hc⟩ := isSome_iff_exists.1 hc
    exact ⟨.remainder (if c < b then .c else .b), by simp only [replacement?, hb, hc]⟩
  · exact ⟨_, replacement?_eq_grouping side hop hmixed hrem⟩

theorem preservesValue_of_associative (hop : op = "+" ∨ op = "*") (hmixed : Mixed lit)
    (hnew : replacement? op side lit = some new) : PreservesValue op side lit new := by
  have hmem : op ∈ regroupable := by rcases hop with rfl | rfl <;> decide
  have hrem : op ≠ "%" := by rcases hop with rfl | rfl <;> decide
  rw [replacement?_eq_grouping side hmem hmixed (fun h => hrem h.1)] at hnew
  intro x _ v hv
  rw [← some.inj hnew, ← hv]
  rcases hop with rfl | rfl <;> cases side <;> cases (lit .a).isSome == (lit .c).isSome <;>
    simp [nestedValue, Replacement.value, grouping, flipped, bind, Except.bind] <;> ring

theorem not_preservesValue_difference
    (h : ∃ a b c, (Agrees (lit .a) a ∧ Agrees (lit .b) b ∧ Agrees (lit .c) c) ∧ a ≠ b + c) :
    ¬PreservesValue "-" .left lit (.regrouped (grouping "-" .left false)) := by
  obtain ⟨a, b, c, ⟨ha, hb, hc⟩, _⟩ := h
  rw [preservesValue_iff_within
    (p := fun a b c => some (a - b - c)) (q := fun a b c => some (b + c - a))
    (fun _ => rfl) (fun _ => rfl)]
  intro h
  have := h a ha b hb c hc _ rfl
  simp only [some.injEq] at this
  omega

theorem difference_preservesValue_iff (hmixed : Mixed lit)
    (hnew : replacement? "-" side lit = some new) :
    PreservesValue "-" side lit new ↔ DifferenceSound side (lit .a) (lit .b) (lit .c) := by
  rw [replacement?_eq_grouping side (by decide) hmixed (by simp)] at hnew
  obtain rfl := some.inj hnew
  cases side with
  | left =>
    have hswap : PreservesValue "-" .left lit (.regrouped (grouping "-" .left true)) := by
      intro x _ v hv
      rw [← hv]
      simp only [nestedValue, Replacement.value, grouping, binary_sub, bind, Except.bind]
      congr 2
      omega
    obtain ⟨a, rfl⟩ | ⟨b, rfl⟩ | ⟨c, rfl⟩ | ⟨a, b, rfl⟩ | ⟨a, c, rfl⟩ | ⟨b, c, rfl⟩ :=
      literals_cases hmixed
    all_goals simp only [asLeaves, DifferenceSound, iff_true, iff_false]
    · exact not_preservesValue_difference ⟨a, a + 1, 0, by simp, by omega⟩
    · exact hswap
    · exact not_preservesValue_difference ⟨c + 1, 0, c, by simp, by omega⟩
    · exact not_preservesValue_difference ⟨a, b, a - b + 1, by simp, by omega⟩
    · exact hswap
    · exact not_preservesValue_difference ⟨b + c + 1, b, c, by simp, by omega⟩
  | right =>
    refine iff_of_true ?_ trivial
    intro x _ v hv
    rw [← hv]
    cases (lit .a).isSome == (lit .c).isSome <;>
      simp [nestedValue, Replacement.value, grouping, flipped, bind, Except.bind] <;> ring

theorem quotient_preservesValue_iff (hmixed : Mixed lit)
    (hnew : replacement? "//" side lit = some new) :
    PreservesValue "//" side lit new ↔ QuotientSound side (lit .a) (lit .b) (lit .c) := by
  rw [replacement?_eq_grouping side (by decide) hmixed (by simp)] at hnew
  obtain rfl := some.inj hnew
  cases side with
  | left =>
    have hmul : PreservesValue "//" .left lit (.regrouped (grouping "//" .left false)) ↔
          Everywhere lit quotientsLeft? fun a b c => quotient? (b * c) a :=
      preservesValue_iff_within (nestedValue_left computes_floorDiv)
        (value_regrouped computes_mul computes_floorDiv .b .c .a)
    have hswap : PreservesValue "//" .left lit (.regrouped (grouping "//" .left true)) ↔
          Everywhere lit quotientsLeft? fun a b c => quotientsLeft? a c b :=
      preservesValue_iff_within (nestedValue_left computes_floorDiv)
        (value_regrouped computes_floorDiv computes_floorDiv .a .c .b)
    obtain ⟨a, rfl⟩ | ⟨b, rfl⟩ | ⟨c, rfl⟩ | ⟨a, b, rfl⟩ | ⟨a, c, rfl⟩ | ⟨b, c, rfl⟩ :=
      literals_cases hmixed
    all_goals simp only [QuotientSound, asLeaves]
    · simpa [hmul] using not_within_quotient_mul a
    · simpa [hswap] using quotientsLeft_swap_b_iff b
    · simpa [hmul] using quotient_mul_c_iff c
    · simpa [hmul] using quotient_mul_ab_iff a b
    · simpa [hswap] using quotientsLeft_swap_ac_iff a c
    · simpa [hmul] using quotient_mul_bc_iff b c
  | right =>
    have hmul : PreservesValue "//" .right lit (.regrouped (grouping "//" .right false)) ↔
          Everywhere lit quotientsRight? fun a b c => (quotient? a b).map (· * c) :=
      preservesValue_iff_within (nestedValue_right computes_floorDiv) fun x => by
        rw [map_eq_bind]
        exact value_regrouped computes_floorDiv computes_mul .a .b .c x
    have hswap : PreservesValue "//" .right lit (.regrouped (grouping "//" .right true)) ↔
          Everywhere lit quotientsRight? fun a b c => quotient? (a * c) b :=
      preservesValue_iff_within (nestedValue_right computes_floorDiv)
        (value_regrouped computes_mul computes_floorDiv .a .c .b)
    obtain ⟨a, rfl⟩ | ⟨b, rfl⟩ | ⟨c, rfl⟩ | ⟨a, b, rfl⟩ | ⟨a, c, rfl⟩ | ⟨b, c, rfl⟩ :=
      literals_cases hmixed
    all_goals simp only [QuotientSound, asLeaves]
    · simpa [hmul] using mul_a_iff a
    · simpa [hswap] using quotient_mul_right_b_iff b
    · simpa [hmul] using mul_c_iff c
    · simpa [hmul] using mul_ab_iff a b
    · simpa [hswap] using quotient_mul_right_ac_iff a c
    · simpa [hmul] using mul_bc_iff b c

theorem remainder_preservesValue_iff (hmixed : Mixed lit)
    (hnew : replacement? "%" side lit = some new) :
    PreservesValue "%" side lit new ↔ RemainderSound side (lit .a) (lit .b) (lit .c) := by
  cases side with
  | left =>
    have hrotate : PreservesValue "%" .left lit (.regrouped (grouping "%" .left false)) ↔
          Everywhere lit remaindersLeft? fun a b c => remaindersLeft? b c a :=
      preservesValue_iff_within (nestedValue_left computes_modulo)
        (value_regrouped computes_modulo computes_modulo .b .c .a)
    have hswap : PreservesValue "%" .left lit (.regrouped (grouping "%" .left true)) ↔
          Everywhere lit remaindersLeft? fun a b c => remaindersLeft? a c b :=
      preservesValue_iff_within (nestedValue_left computes_modulo)
        (value_regrouped computes_modulo computes_modulo .a .c .b)
    have hgroup (hbc : ¬((lit .b).isSome ∧ (lit .c).isSome)) :
        new = .regrouped (grouping "%" .left ((lit .a).isSome == (lit .c).isSome)) := by
      rw [replacement?_eq_grouping .left (by decide) hmixed (by simpa using hbc)] at hnew
      exact (some.inj hnew).symm
    obtain ⟨a, rfl⟩ | ⟨b, rfl⟩ | ⟨c, rfl⟩ | ⟨a, b, rfl⟩ | ⟨a, c, rfl⟩ | ⟨b, c, rfl⟩ :=
      literals_cases hmixed
    all_goals simp only [RemainderSound, asLeaves, hgroup, isSome_none, Bool.false_eq_true,
      and_false, false_and, not_false_eq_true]
    · simpa [hrotate] using not_within_remaindersLeft_rotate a
    · simpa [hswap] using remaindersLeft_swap_b_iff b
    · simpa [hrotate] using remaindersLeft_rotate_c_iff c
    · simpa [hrotate] using remaindersLeft_rotate_ab_iff a b
    · simpa [hswap] using remaindersLeft_swap_ac_iff a c
    · obtain rfl : Replacement.remainder (if c < b then .c else .b) = new := by
        simpa [replacement?] using hnew
      refine (preservesValue_iff_within (p := remaindersLeft?)
        (q := fun x y z => remainder? x (if c < b then z else y)) (nestedValue_left computes_modulo)
        fun x => ?_).trans ?_
      · rw [Replacement.value, computes_modulo]
        split_ifs <;> rfl
      · simpa using remainder_smaller_iff b c
  | right =>
    rw [replacement?_eq_grouping .right (by decide) hmixed (by simp)] at hnew
    obtain rfl := some.inj hnew
    have hgroup : PreservesValue "%" .right lit (.regrouped (grouping "%" .right false)) ↔
          Everywhere lit remaindersRight? fun a b c => remaindersLeft? a b c :=
      preservesValue_iff_within (nestedValue_right computes_modulo)
        (value_regrouped computes_modulo computes_modulo .a .b .c)
    have hswap : PreservesValue "%" .right lit (.regrouped (grouping "%" .right true)) ↔
          Everywhere lit remaindersRight? fun a b c => remaindersLeft? a c b :=
      preservesValue_iff_within (nestedValue_right computes_modulo)
        (value_regrouped computes_modulo computes_modulo .a .c .b)
    obtain ⟨a, rfl⟩ | ⟨b, rfl⟩ | ⟨c, rfl⟩ | ⟨a, b, rfl⟩ | ⟨a, c, rfl⟩ | ⟨b, c, rfl⟩ :=
      literals_cases hmixed
    all_goals simp only [RemainderSound, asLeaves]
    · simpa [hgroup] using remaindersRight_a_iff a
    · simpa [hswap] using remaindersRight_swap_b_iff b
    · simpa [hgroup] using remaindersRight_c_iff c
    · simpa [hgroup] using remaindersRight_ab_iff a b
    · simpa [hswap] using remaindersRight_swap_ac_iff a c
    · simpa [hgroup] using remaindersRight_bc_iff b c

/-- Regrouping keeps the value of an expression exactly if its operator, its side and its literals
are sound. -/
theorem preservesValue_iff_sound (hop : op ∈ regroupable) (hmixed : Mixed lit)
    (hnew : replacement? op side lit = some new) :
    PreservesValue op side lit new ↔ Sound op side lit := by
  simp only [regroupable, List.mem_cons, List.not_mem_nil, or_false] at hop
  rcases hop with rfl | rfl | rfl | rfl | rfl
  · exact iff_of_true (preservesValue_of_associative (.inl rfl) hmixed hnew) trivial
  · exact iff_of_true (preservesValue_of_associative (.inr rfl) hmixed hnew) trivial
  · exact quotient_preservesValue_iff hmixed hnew
  · exact difference_preservesValue_iff hmixed hnew
  · exact remainder_preservesValue_iff hmixed hnew

end

/-! ## What the pattern puts in place -/

/-- Compute binary expressions one after the other, for values by their numbers. -/
def computeAll : List Op → (Nat → Value) → Except Fault (Nat → Value)
  | [], env => .ok env
  | o :: os, env =>
    match o.flat?, o.operands, o.results with
    | some (.binary op), [x, y], [v] => do
      let n ← Value.binary op (env x.id) (env y.id)
      computeAll os fun i => if i = v.id then n else env i
    | _, _, _ => .error .noSuchPart

def Nested.leafValue (e : Nested) (env : Nat → Value) (k : Leaf) : Value :=
  ((e.leaf k).results.head?.map fun v => env v.id).getD .none

/-- From one draft to another, an expression is replaced by operations that compute a
replacement. -/
def PutsInPlace (o : Op) (e : Nested) (new : Replacement) (d d' : Draft Unit) : Prop :=
  ∃ ops w n, (replace o ops [some w]).run (d.after n) = .ok ((), d') ∧
    ∀ env, (computeAll ops env).map (fun values => values w.id) = new.value (e.leafValue env)

theorem leafValue_eq {e : Nested} {k : Leaf} (env : Nat → Value)
    (h : (e.leaf k).results.head? = some v) : e.leafValue env k = env v.id := by
  simp [Nested.leafValue, h]

theorem computeAll_single {i : Nat} {x y : Val} (env : Nat → Value) :
    (computeAll [.mk i (.flat (.binary op)) [x, y] [v] []] env).map (fun values => values v.id) =
      Value.binary op (env x.id) (env y.id) := by
  simp only [computeAll, Op.flat?, Op.code, Op.operands, Op.results]
  cases Value.binary op (env x.id) (env y.id) with
  | error e => rfl
  | ok n => simp [bind, Except.bind, Except.map]

theorem computeAll_pair {i j : Nat} {inner outer : String} {x y z w : Val} (env : Nat → Value)
    (hz : z.id ≠ v.id) : (computeAll [.mk i (.flat (.binary inner)) [x, y] [v] [],
        .mk j (.flat (.binary outer)) [v, z] [w] []] env).map (fun values => values w.id) =
      (do Value.binary outer (← Value.binary inner (env x.id) (env y.id)) (env z.id)) := by
  simp only [computeAll, Op.flat?, Op.code, Op.operands, Op.results]
  cases Value.binary inner (env x.id) (env y.id) with
  | error e => rfl
  | ok n =>
    simp only [bind, Except.bind, if_pos, if_neg hz]
    cases Value.binary outer n (env z.id) with
    | error e => rfl
    | ok n => simp [Except.map]

variable {d d' : Draft Unit} {o l r : Op} {e : Nested}

theorem remainderPattern_putsInPlace (hrun : (remainderPattern o e).run d = .ok ((), d')) :
    ∃ b c, int? (e.leaf .b) = some b ∧ int? (e.leaf .c) = some c ∧
      PutsInPlace o e (.remainder (if c < b then .c else .b)) d d' := by
  obtain ⟨b, c, x, y, hb, hc, hx, hy, hput⟩ := run_remainderPattern hrun
  refine ⟨b, c, hb, hc, _, _, 2, hput, fun env => ?_⟩
  rw [computeAll_single, Replacement.value, leafValue_eq env hx, leafValue_eq env hy]

theorem grouping_putsInPlace {g : Regrouping}
    (hfresh : ∀ k, ∀ v ∈ (e.leaf k).results, v.id < d.program.next) {x y z : Val}
    (hreads : g.Reads e.leaf x y z) (hrun : (putRegrouped o g x y z).run d = .ok ((), d')) :
    PutsInPlace o e (.regrouped g) d d' := by
  obtain ⟨hx, hy, hz⟩ := hreads
  have hne : z.id ≠ d.program.next := (hfresh _ z (List.mem_of_mem_head? hz)).ne
  refine ⟨_, _, 4, hrun, fun env => ?_⟩
  rw [computeAll_pair env hne, Replacement.value, leafValue_eq env hx, leafValue_eq env hy,
    leafValue_eq env hz]

theorem regroupPattern_putsInPlace {new : Replacement}
    (hnested : (nested? l r).run d = .ok (some e, d)) (hinner : e.inner = op)
    (hint : ∀ k, (int? (e.leaf k)).isSome = (literal? (e.leaf k)).isSome)
    (hnew : replacement? op e.side (fun k => int? (e.leaf k)) = some new)
    (hfresh : ∀ k, ∀ v ∈ (e.leaf k).results, v.id < d.program.next)
    (hrun : (regroupPattern op o l r).run d = .ok ((), d')) : PutsInPlace o e new d d' := by
  replace hrun := of_run_step hrun hnested
  simp only [← hint] at hrun
  split at hrun
  next hrem =>
    obtain ⟨b, c, hb, hc, _⟩ := remainderPattern_putsInPlace hrun
    simp only [Bool.and_eq_true, decide_eq_true_eq] at hrem
    rw [hrem.1.1.1.1, hrem.1.1.2] at hnew
    simp only [replacement?, hb, hc, some.injEq] at hnew
    rwa [← hnew]
  next hrem =>
    rw [replacement?_eq_regroup (by simpa [hinner] using hrem)] at hnew
    obtain ⟨g, hg, rfl⟩ := map_eq_some_iff.1 hnew
    rw [hinner, hg] at hrun
    obtain ⟨x, y, z, hreads, hput⟩ := run_regrouped hrun
    exact grouping_putsInPlace hfresh hreads hput

/-- Regrouping an expression that applies one operator twice, with one or two integer literals among
its leaves, puts operations in its place that have the same value exactly if the operator, the side
and the literals are sound. -/
theorem regroupPattern_preservesValue_iff {op : String} (hop : op ∈ regroupable)
    (hnested : (nested? l r).run d = .ok (some e, d)) (hinner : e.inner = op)
    (hint : ∀ k, (int? (e.leaf k)).isSome = (literal? (e.leaf k)).isSome)
    (hsome : ∃ k, (int? (e.leaf k)).isSome) (hnone : ∃ k, int? (e.leaf k) = none)
    (hfresh : ∀ k, ∀ v ∈ (e.leaf k).results, v.id < d.program.next)
    (hrun : (regroupPattern op o l r).run d = .ok ((), d')) :
    ∃ new, PutsInPlace o e new d d' ∧ (PreservesValue op e.side (fun k => int? (e.leaf k)) new ↔
        Sound op e.side fun k => int? (e.leaf k)) := by
  obtain ⟨new, hnew⟩ := exists_replacement hop ⟨hsome, hnone⟩
  exact ⟨new, regroupPattern_putsInPlace hnested hinner hint hnew hfresh hrun,
    preservesValue_iff_sound hop ⟨hsome, hnone⟩ hnew⟩

/-! ## `(x - 1) - 2` -/

namespace TwoDifferences

def x : Op := .mk 1 (.flat .load) [] [⟨0, .int⟩] []

def one : Op := .mk 3 (.flat (.literal (.int 1 32))) [] [⟨2, .int⟩] []

def inner : Op := .mk 5 (.flat (.binary "-")) [⟨0, .int⟩, ⟨2, .int⟩] [⟨4, .int⟩] []

def two : Op := .mk 7 (.flat (.literal (.int 2 32))) [] [⟨6, .int⟩] []

def outer : Op := .mk 9 (.flat (.binary "-")) [⟨4, .int⟩, ⟨6, .int⟩] [⟨8, .int⟩] []

def program : Module where
  ops := [x, one, inner, two, outer]
  next := 10

def nested : Nested where
  inner := "-"
  side := .left
  leaf := leaves x one two

theorem regroupPattern_twoDifferences :
    ∃ d', (regroupPattern "-" outer inner two).run { program, memo := () } = .ok ((), d') ∧
      ∃ new, PutsInPlace outer nested new { program, memo := () } d' ∧
        (PreservesValue "-" .left (fun k => int? (nested.leaf k)) new ↔
          Sound "-" .left fun k => int? (nested.leaf k)) := by
  refine ⟨_, rfl, ?_⟩
  refine regroupPattern_preservesValue_iff (e := nested) (l := inner) (r := two)
    (by decide) rfl rfl ?_ ⟨.b, rfl⟩ ⟨.a, rfl⟩ ?_ rfl
  · intro k
    cases k <;> rfl
  · intro k v hv
    cases k <;> cases hv <;> first | decide | contradiction

/-- Folding turns `(x - 1) - 2` into `3 - x`: for the value `10` of `x` that is `-7`, not `7`. -/
theorem run_twoDifferences : (run program).map Module.ops = .ok [x, one, inner, two,
          .mk 15 (.flat (.literal (.int 3 32))) [] [⟨14, .int⟩] [],
          .mk 13 (.flat (.binary "-")) [⟨14, .int⟩, ⟨0, .int⟩] [⟨12, .int⟩] []] ∧
      nestedValue "-" .left (fun k => match k with | .a => .int 10 | .b => .int 1 | .c => .int 2) =
        .ok (.int 7) ∧
      Value.binary "-" (.int 3) (.int 10) = .ok (.int (-7)) :=
  ⟨rfl, rfl, rfl⟩

end TwoDifferences

/-!
## Sums of differences and differences of sums

An expression that adds to a difference or subtracts with a sum is regrouped so that its literals
meet. Whatever the places of the literals are, this keeps the value.
-/

variable {outer inner : String} {lit : Leaf → Bool} {g : Regrouping}

/-- The value of an expression that applies an operator to a leaf and what another operator gives. -/
def mixedValue (outer inner : String) (side : Side) (x : Leaf → Value) : Except Fault Value :=
  match side with
  | .left => do Value.binary outer (← Value.binary inner (x .a) (x .b)) (x .c)
  | .right => do Value.binary outer (x .a) (← Value.binary inner (x .b) (x .c))

/-- One of two operators adds and the other one subtracts. -/
def Opposed (outer inner : String) : Prop :=
  outer = "+" ∧ inner = "-" ∨ outer = "-" ∧ inner = "+"

theorem regroup_of_opposed (h : Opposed outer inner) (side : Side) (lit : Leaf → Bool) :
    regroup outer inner side lit = regroupMixed outer inner side lit := by
  obtain ⟨rfl, rfl⟩ | ⟨rfl, rfl⟩ := h <;> rfl

theorem exists_regroupMixed (outer inner : String) (side : Side) (hsome : ∃ k, lit k = true)
    (hnone : ∃ k, lit k = false) : ∃ g, regroupMixed outer inner side lit = some g := by
  obtain ⟨k, _⟩ := hsome
  obtain ⟨k', _⟩ := hnone
  cases side <;> cases ha : lit .a <;> cases hb : lit .b <;> cases hc : lit .c <;> cases k <;>
    cases k' <;> simp_all [regroupMixed, movable]

/-- Each of the ways in which leaves are put together anew has the value of the expression. -/
theorem value_regroupMixed (h : Opposed outer inner) (hg : regroupMixed outer inner side lit = some g)
    (x : Leaf → Int) : ∃ n : Int, mixedValue outer inner side (fun k => .int (x k)) = .ok (.int n) ∧
      (Replacement.regrouped g).value (fun k => .int (x k)) = .ok (.int n) := by
  obtain ⟨rfl, rfl⟩ | ⟨rfl, rfl⟩ := h
  all_goals
    cases side
    all_goals
      refine ⟨_, rfl, ?_⟩
      simp only [regroupMixed, String.reduceEq, if_true, if_false] at hg
      split_ifs at hg
      all_goals
        cases hg
        simp only [Replacement.value, binary_add, binary_sub, bind, Except.bind]
        congr 2
        omega

/-- Regrouping an expression of which one operator adds and the other one subtracts leaves it as it is,
or puts operations in its place that have the same integer as their value, for all integers that the
leaves may have; it is regrouped if one or two of its leaves are literals. -/
theorem regroupPattern_mixed_keepsValue (hopposed : Opposed outer e.inner)
    (hnested : (nested? l r).run d = .ok (some e, d))
    (hfresh : ∀ k, ∀ v ∈ (e.leaf k).results, v.id < d.program.next)
    (hrun : (regroupPattern outer o l r).run d = .ok ((), d')) :
    d' = d ∧ ((∀ k, (literal? (e.leaf k)).isSome) ∨ ∀ k, literal? (e.leaf k) = none) ∨
      ∃ g, PutsInPlace o e (.regrouped g) d d' ∧ ∀ x : Leaf → Int, ∃ n : Int,
        mixedValue outer e.inner e.side (fun k => .int (x k)) = .ok (.int n) ∧
          (Replacement.regrouped g).value (fun k => .int (x k)) = .ok (.int n) := by
  obtain ⟨_, _, hnested', hrun⟩ := of_run_bind hrun
  rw [hnested] at hnested'
  obtain ⟨rfl, rfl⟩ := hnested'
  have hrem : (outer = "%" && e.inner = "%" && e.side = .left && (literal? (e.leaf .b)).isSome &&
      (literal? (e.leaf .c)).isSome) = false := by
    obtain ⟨rfl, -⟩ | ⟨rfl, -⟩ := hopposed <;> rfl
  dsimp only at hrun
  rw [hrem, if_neg Bool.false_ne_true, regroup_of_opposed hopposed] at hrun
  split at hrun
  · next hg =>
    cases hrun
    refine .inl ⟨rfl, ?_⟩
    by_contra hmixed
    simp only [not_or, not_forall, Bool.not_eq_true, ← ne_eq, Option.ne_none_iff_isSome] at hmixed
    obtain ⟨g, hsome⟩ := exists_regroupMixed outer e.inner e.side hmixed.2 hmixed.1
    rw [hg] at hsome
    cases hsome
  · next g hg =>
    obtain ⟨x, y, z, hreads, hput⟩ := run_regrouped hrun
    exact .inr ⟨g, grouping_putsInPlace hfresh hreads hput, value_regroupMixed hopposed hg⟩

namespace SumOfDifference

open TwoDifferences (x one two)

def difference : Op := .mk 5 (.flat (.binary "-")) [⟨0, .int⟩, ⟨2, .int⟩] [⟨4, .int⟩] []

def sum : Op := .mk 9 (.flat (.binary "+")) [⟨4, .int⟩, ⟨6, .int⟩] [⟨8, .int⟩] []

def draft : Draft Unit where
  program := { ops := [x, one, difference, two, sum], next := 10 }
  memo := ()

/-- `(x - 1) + 2` becomes `(2 - 1) + x`. -/
theorem regroupPattern_sumOfDifference :
    ∃ d', (regroupPattern "+" sum difference two).run draft = .ok ((), d') ∧
      ∃ g, PutsInPlace sum ⟨"-", .left, leaves x one two⟩ (.regrouped g) draft d' ∧
        ∀ y : Leaf → Int, ∃ n : Int, mixedValue "+" "-" .left (fun k => .int (y k)) = .ok (.int n) ∧
          (Replacement.regrouped g).value (fun k => .int (y k)) = .ok (.int n) := by
  refine ⟨_, rfl, ?_⟩
  have hopposed : Opposed "+" "-" := .inl ⟨rfl, rfl⟩
  have hput := regroupPattern_mixed_keepsValue (o := sum) (l := difference) (r := two)
    (e := ⟨"-", .left, leaves x one two⟩) (d := draft) hopposed rfl
    (by intro k v hv; cases k <;> cases hv <;> first | decide | contradiction) rfl
  exact hput.resolve_left fun h => h.2.elim (fun hall => absurd (hall .a) (by decide))
    fun hnone => absurd (hnone .b) (by decide)

end SumOfDifference

end Practicum.Flat.Folding
