import Practicum.Proofs.Flat.Evaluation
import Practicum.Proofs.Flat.Regrouping

/-!
# Neutral elements

An operator of which one operand is the literal `0` or `1` may be replaced by the literal `0`, or by
a copy of the operation that its other operand comes from, which then runs once more.
-/

namespace Practicum.Flat

open Choco (Value)
open IR Editing

variable {V S F : Type}

/-- The evaluation of operations ends behind them, in a state and with a value. -/
def Outcome.Gives (out : Outcome V S F) (w : Val) (x : V) (s : S) : Prop :=
  ∃ env, out = .ended .behind env s ∧ env w.id = some x

/-- Two outcomes are the same for those who read one value in the first and another one in the
second. -/
def Outcome.Alike (v w : Val) : Outcome V S F → Outcome V S F → Prop
  | .ended how env s, .ended how' env' s' =>
    how' = how ∧ s' = s ∧ (how = .behind → env' w.id = env v.id)
  | .stuck, .stuck => True
  | _, _ => False

theorem Outcome.alike_set_iff {v w : Val} {env : Env V} {x : V} {s : S} {out : Outcome V S F} :
    Alike v w (.ended .behind (env.set v.id x) s) out ↔ out.Gives w x s := by
  cases out with
  | stuck => simp [Alike, Gives]
  | ended how env' s' => simp [Alike, Gives, Env.set_self, and_assoc]

/-- Integers are among the values, and literals and operators compute with them as `Value.binary`
does, in every state and without a change of it. -/
structure Meaning.Calculates (M : Meaning V S F) (int : Int → V) (fault : Fault → F) : Prop where
  literal n id env s : M.operate (.literal (.word n)) id [] env s = .value (some (int n)) s
  value {op x y z} : Value.binary op (.int x) (.int y) = .ok (.int z) →
    ∀ id env s, M.operate (.binary op) id [int x, int y] env s = .value (some (int z)) s
  failure {op x y e} : Value.binary op (.int x) (.int y) = .error e →
    ∀ id env s, M.operate (.binary op) id [int x, int y] env s = .failed (fault e) s

/-- Operations that do not compute with the values of their operands. -/
def steers : FlatCode → Bool
  | .ret | .yield | .funcDef .. => true
  | _ => false

variable {M : Meaning V S F} {n : Nat} {env : Env V} {s : S}

theorem evalOp_straight {c : FlatCode} (hc : steers c = false) (id : Nat)
    (args results : List Val) : M.evalOp n (.mk id (.flat c) args results []) env s =
      M.straight c id args results env s := by
  cases c <;> first | rfl | cases hc

theorem gives_straight_iff {c : FlatCode} (hc : steers c = false) {id : Nat} {args : List Val}
    {w : Val} {x : V} : (M.evalOp n (.mk id (.flat c) args [w] []) env s).Gives w x s ↔
      ∃ xs, args.mapM (fun v => env v.id) = some xs ∧
        M.operate c id xs env s = .value (some x) s := by
  rw [evalOp_straight hc, Meaning.straight]
  cases args.mapM fun v => env v.id with
  | none => simp [Outcome.Gives]
  | some xs =>
    simp only [Option.some.injEq, exists_eq_left']
    cases M.operate c id xs env s with
    | value y s' => cases y <;> simp [Outcome.Gives, conclude, Env.define?, Env.set_self, and_comm]
    | failed | starved | stuck => simp [Outcome.Gives]

namespace Folding

variable {d d' : Draft Unit} {o l r other : Op} {op : String} {k : Int} {side : Side}

/-- Two operands, of which one stands on a side. -/
def Side.operands {α : Type} (side : Side) (one other : α) : List α :=
  match side with
  | .left => [one, other]
  | .right => [other, one]

def neutralValue (op : String) (k : Int) (side : Side) (x : Int) : Except Fault Value :=
  match side with
  | .left => Value.binary op (.int k) (.int x)
  | .right => Value.binary op (.int x) (.int k)

theorem neutralValue_other (h : simplify op k side = some .other) (x : Int) :
    neutralValue op k side x = .ok (.int x) := by
  unfold simplify at h
  split_ifs at h with h0 h1
  · subst h0
    split at h <;> cases h
    · cases side <;> simp [neutralValue]
    · simp [neutralValue]
  · subst h1
    split at h <;> cases h
    · cases side <;> simp [neutralValue]
    · simp [neutralValue, computes_floorDiv _ _, quotient?, valueOf?]

/-- A literal that is divided by zero. -/
def DividesByZero (op : String) (side : Side) (x : Int) : Prop :=
  side = .left ∧ op ≠ "*" ∧ x = 0

theorem neutralValue_zero (h : simplify op k side = some .zero) (x : Int) :
    DividesByZero op side x ∧ neutralValue op k side x = .error .divisionByZero ∨
      ¬DividesByZero op side x ∧ neutralValue op k side x = .ok (.int 0) := by
  unfold simplify at h
  split_ifs at h with h0 h1
  · subst h0
    split at h <;> cases h
    · cases side <;> simp [neutralValue, DividesByZero]
    · by_cases hx : x = 0 <;>
        simp [neutralValue, DividesByZero, computes_floorDiv _ _, quotient?, valueOf?, hx]
    · by_cases hx : x = 0 <;>
        simp [neutralValue, DividesByZero, computes_modulo _ _, remainder?, valueOf?, hx]
  · subst h1
    split at h <;> cases h
    simp [neutralValue, DividesByZero, computes_modulo _ _, remainder?, valueOf?]

theorem comparable?_of_oneInt? {p : Int × Side × Op} (h : oneInt? l r = some p) :
    comparable? l r = none := by
  unfold oneInt? int? at h
  unfold comparable?
  split
  next hl hr => simp [hl, hr] at h
  next hl hr => simp [hl, hr] at h
  · rfl

variable {i j : Nat} {a b u v w : Val} {args : List Val} {code : Opcode}

theorem run_binaryPattern (op : String) (hparts : (operandsOf o).run d = .ok ((l, r), d))
    (hone : oneInt? l r = some (k, side, other)) : (binaryPattern op o).run d =
      (match simplify op k side with
        | some .other => putCopy o other
        | some .zero => putLiteral o (.int 0)
        | some .negated => throw .noSuchPart
        | none => regroupPattern op o l r : Editing Unit Unit).run d := by
  rw [binaryPattern, StateT.run_bind, hparts]
  dsimp only [bind, Except.bind]
  rw [comparable?_of_oneInt? hone, hone]
  dsimp only [Option.bind_eq_bind, Option.bind_some]
  split <;> simp_all <;> rfl

/-! ## What is put in place -/

/-- A step puts an operation in the place of another one, and a value in the place of its result. -/
def Puts (step : Editing Unit Unit) (d : Draft Unit) (o new : Op) (w : Val) : Prop :=
  ∃ m d', step.run d = .ok ((), d') ∧ (replace o [new] [some w]).run (d.after m) = .ok ((), d')

theorem puts_literal (d : Draft Unit) (o : Op) (n : Int) : ∃ j w,
    Puts (putLiteral o (.int n)) d o (.mk j (.flat (.literal (.word n))) [] [w] []) w :=
  ⟨_, _, 2, _, run_replaceLeaving .., run_replaceLeaving ..⟩

theorem result_of_run_copy (h : (other.copy : Editing Unit Op).run d = .ok (o, d'))
    (hresult : other.results = [u]) : ∃ w, o.results = [w] := by
  obtain ⟨_, _, _, _, _⟩ := other
  cases hresult
  obtain ⟨_, _, -, h⟩ := of_run_bind h
  rw [Op.copyWith] at h
  obtain ⟨_, _, _, _, -, -, h⟩ := of_run_bind₂ h
  cases h
  exact ⟨_, rfl⟩

theorem run_copy_straight (hargs : ∀ a ∈ args, a.id ≠ u.id) :
    (Op.copy (.mk j code args [u] []) : Editing Unit Op).run d = .ok
      (.mk (d.program.next + 1) code args [⟨d.program.next, u.type⟩] [], d.after 2) := by
  let ρ (v : Val) : Val := ([(u.id, (⟨d.program.next, u.type⟩ : Val))].lookup v.id).getD v
  have hargs : args.map ρ = args := by
    refine (List.map_congr_left fun v hv => ?_).trans args.map_id
    simp [ρ, List.lookup_cons, beq_eq_false_iff_ne.mpr (hargs v hv)]
  have hu : ρ u = ⟨d.program.next, u.type⟩ := by
    simp [ρ]
  show Except.ok (Op.mk (d.program.next + 1) code (args.map ρ) [ρ u] [], d.after 2) = _
  rw [hargs, hu]

/-- An operation can be copied; the copy of one without blocks reads the same values. -/
theorem puts_copy (d : Draft Unit) (o : Op) (hresult : other.results = [u]) :
    ∃ new w, Puts (putCopy o other) d o new w ∧ ∀ j code args, other = .mk j code args [u] [] →
      (∀ a ∈ args, a.id ≠ u.id) → ∃ i, new = .mk i code args [w] [] := by
  obtain ⟨new, m, hcopy⟩ := numbers_copy other d
  obtain ⟨w, hw⟩ := result_of_run_copy hcopy hresult
  refine ⟨new, w, ⟨m, _, ?_, run_replaceLeaving ..⟩, ?_⟩
  · rw [putCopy, StateT.run_bind, hcopy]
    show (replaceLeaving o o [new] (new.results.map some)).run (d.after m) = _
    rw [hw]
    exact run_replaceLeaving ..
  · rintro j code args rfl hargs
    rw [run_copy_straight hargs] at hcopy
    obtain ⟨rfl, -⟩ := Prod.mk.inj (Except.ok.inj hcopy)
    cases hw
    exact ⟨_, rfl⟩

/-! ## The pattern -/

section
variable {int : Int → V} {fault : Fault → F} (hM : M.Calculates int fault) {x z : Int}
  (hargs : [a, b].mapM (fun v => env v.id) = some ((side.operands k x).map int))
include hM hargs

theorem evalOp_of_value (hvalue : neutralValue op k side x = .ok (.int z)) :
    M.evalOp n (.mk i (.flat (.binary op)) [a, b] [v] []) env s =
      .ended .behind (env.set v.id (int z)) s := by
  rw [evalOp_straight rfl, Meaning.straight, hargs]
  cases side <;> simp only [Side.operands, List.map, hM.value hvalue] <;> rfl

theorem evalOp_of_failure {e : Fault} (hvalue : neutralValue op k side x = .error e) :
    M.evalOp n (.mk i (.flat (.binary op)) [a, b] [v] []) env s =
      .ended (.failed (fault e)) env s := by
  rw [evalOp_straight rfl, Meaning.straight, hargs]
  cases side <;> simp only [Side.operands, List.map, hM.failure hvalue]

theorem alike_zero_iff (h : simplify op k side = some .zero) :
    (M.evalOp n (.mk i (.flat (.binary op)) [a, b] [v] []) env s).Alike v w
        (M.evalOp n (.mk j (.flat (.literal (.word 0))) [] [w] []) env s) ↔
      ¬DividesByZero op side x := by
  rw [evalOp_straight (c := .literal _) rfl, Meaning.straight]
  simp only [List.mapM_nil, Option.pure_def, hM.literal]
  obtain ⟨hzero, hvalue⟩ | ⟨hzero, hvalue⟩ := neutralValue_zero h x
  · rw [evalOp_of_failure hM hargs hvalue]
    simp [conclude, Env.define?, Outcome.Alike, hzero]
  · rw [evalOp_of_value hM hargs hvalue, Outcome.alike_set_iff]
    simp [conclude, Env.define?, Outcome.Gives, hzero, Env.set_self]

end

/-- An operator with a literal that is neutral for it, or makes it zero, is left to regrouping or
replaced, except that `0 - x` is an error. Where it becomes `0`, every run goes on as before except
for one that would fail because the literal is divided by zero. Where it becomes a copy of what
gives its other operand, a run goes on as before exactly if running that once more gives the same
value and changes nothing; without blocks, it is a single operation that has to do so. -/
theorem binaryPattern_neutral_alike_iff {int : Int → V} {fault : Fault → F}
    (hM : M.Calculates int fault) (ho : o = .mk i (.flat (.binary op)) [a, b] [v] [])
    (hparts : (operandsOf o).run d = .ok ((l, r), d)) (hone : oneInt? l r = some (k, side, other))
    (hresult : other.results = [u]) :
    match simplify op k side with
    | none => (binaryPattern op o).run d = (regroupPattern op o l r).run d
    | some .negated => (binaryPattern op o).run d = .error .noSuchPart
    | some .zero => ∃ new w, Puts (binaryPattern op o) d o new w ∧
      ∀ n env s x, [a, b].mapM (fun v => env v.id) = some ((side.operands k x).map int) →
        ((M.evalOp n o env s).Alike v w (M.evalOp n new env s) ↔ ¬DividesByZero op side x)
    | some .other => ∃ new w, Puts (binaryPattern op o) d o new w ∧
      (∀ n env s x, [a, b].mapM (fun v => env v.id) = some ((side.operands k x).map int) →
        ((M.evalOp n o env s).Alike v w (M.evalOp n new env s) ↔
          (M.evalOp n new env s).Gives w (int x) s)) ∧
      ∀ j c args, other = .mk j (.flat c) args [u] [] → steers c = false →
        (∀ a ∈ args, a.id ≠ u.id) → ∀ n env s x, (M.evalOp n new env s).Gives w (int x) s ↔
          ∃ xs, args.mapM (fun v => env v.id) = some xs ∧
            M.operate c new.id xs env s = .value (some (int x)) s := by
  have hrun := run_binaryPattern op hparts hone
  cases hsimplify : simplify op k side with
  | none =>
    rw [hsimplify] at hrun
    exact hrun
  | some act =>
    rw [hsimplify] at hrun
    cases act with
    | negated => exact hrun
    | zero =>
      obtain ⟨_, w, m, d', hput, hreplace⟩ := puts_literal d o 0
      refine ⟨_, w, ⟨m, d', hrun.trans hput, hreplace⟩, fun n env s x hargs => ?_⟩
      rw [ho]
      exact alike_zero_iff hM hargs hsimplify
    | other =>
      obtain ⟨new, w, ⟨m, d', hput, hreplace⟩, hstraight⟩ := puts_copy d o hresult
      refine ⟨new, w, ⟨m, d', hrun.trans hput, hreplace⟩, fun n env s x hargs => ?_, ?_⟩
      · rw [ho, evalOp_of_value hM hargs (neutralValue_other hsimplify x), Outcome.alike_set_iff]
      · rintro j c args hother hc hargs n env s x
        obtain ⟨_, rfl⟩ := hstraight j _ args hother hargs
        exact gives_straight_iff hc

/-! ## `f() + 0` and `0 - f()` -/

namespace CallAndZero

def call : Op := .mk 1 (.flat (.call "f")) [] [⟨0, .int⟩] []

def zero : Op := .mk 3 (.flat (.literal (.word 0))) [] [⟨2, .int⟩] []

def sum : Op := .mk 5 (.flat (.binary "+")) [⟨0, .int⟩, ⟨2, .int⟩] [⟨4, .int⟩] []

def difference : Op := .mk 5 (.flat (.binary "-")) [⟨2, .int⟩, ⟨0, .int⟩] [⟨4, .int⟩] []

def program (o : Op) : Module where
  ops := [call, zero, o]
  next := 6

/-- The state is the number of calls so far, and a call gives the next number. -/
def counting : Meaning Int Nat Fault where
  truth? _ := none
  operate code _ args _ s :=
    match code, args with
    | .literal (.int n _), [] => .value (some n) s
    | .binary op, [x, y] =>
      match Value.binary op (.int x) (.int y) with
      | .ok (.int z) => .value (some z) s
      | .ok _ => .stuck
      | .error e => .failed e s
    | .call _, _ => .value (some (s + 1 : Nat)) (s + 1)
    | _, _ => .stuck

theorem calculates_counting : counting.Calculates id id where
  literal _ _ _ _ := rfl
  value h _ _ _ := by simp [counting, h]
  failure h _ _ _ := by simp [counting, h]

/-- The sum is not like what is put in its place, in whatever state it is computed. -/
theorem binaryPattern_callPlusZero : ∃ new w,
    Puts (binaryPattern "+" sum) (fresh (program sum)) sum new w ∧
      ∀ n env s x, env 0 = some x → env 2 = some 0 →
        ¬(counting.evalOp n sum env s).Alike ⟨4, .int⟩ w (counting.evalOp n new env s) := by
  obtain ⟨new, w, hputs, halike, hstraight⟩ := binaryPattern_neutral_alike_iff (o := sum)
    (d := fresh (program sum)) calculates_counting rfl rfl rfl rfl
  refine ⟨new, w, hputs, fun n env s x hx h0 => ?_⟩
  rw [halike n env s x (by simp [hx, h0, Side.operands]),
    hstraight 1 (.call "f") [] rfl rfl nofun]
  simp [counting]

/-- The function is called twice for `f() + 0`, and not at all for `0 - f()`. -/
theorem run_callAndZero : (∃ env, counting.evalOps 0 (program sum).ops (fun _ => none) 0 =
        .ended .behind env 1 ∧ env 4 = some 1) ∧
      (∃ m env, run (program sum) = .ok m ∧ counting.evalOps 0 m.ops (fun _ => none) 0 =
        .ended .behind env 2 ∧ env 6 = some 2) ∧
      run (program difference) = .error .noSuchPart :=
  ⟨⟨_, rfl, rfl⟩, ⟨_, _, rfl, rfl, rfl⟩, rfl⟩

end CallAndZero

end Folding

end Practicum.Flat
