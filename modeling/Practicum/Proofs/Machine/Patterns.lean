import Practicum.Proofs.Flat.Evaluation
import Practicum.Proofs.IR.Splicing
import Practicum.Proofs.Machine.Emission

/-!
# What the patterns of lowering do

A pattern leaves an operation of the flat level as it is, or puts the code for it in its place,
which stands around the blocks of the operation.
-/

namespace Practicum.Machine

open IR Riscv Flat Editing Labels Option

/-! ## What one operation is lowered to -/

namespace Labels

def of (l : Labels) : FlatCode → Nat
  | .branch => l.branch
  | .lazyBinary op => if op = "and" then l.both else l.either
  | .choice => l.choice
  | .loop => l.loop
  | _ => 0

def bump (l : Labels) : FlatCode → Labels
  | .branch => { l with branch := l.branch + 1 }
  | .lazyBinary op =>
    if op = "and" then { l with both := l.both + 1 } else { l with either := l.either + 1 }
  | .choice => { l with choice := l.choice + 1 }
  | .loop => { l with loop := l.loop + 1 }
  | _ => l

end Labels

variable {label least : Nat} {yields : Nat → Option Val} {e : Emit Code} {code : FlatCode} {o : Op}

def argsOf (o : Op) : List Val :=
  (o.regions.head?.map Block.args).getD []

/-- The code for an operation of the flat level, with the number of its labels and the values that
its blocks end with; there is none for an operation that is left as it is. -/
def emission (label : Nat) (code : FlatCode) (o : Op) (yields : Nat → Option Val) :
    Option (Emit Code) :=
  match code, o.operands with
  | .literal v, _ => some (literal v)
  | .call func, operands =>
    if func = "len" then operands.head?.map length
    else if o.results.isEmpty then some do return { ops := [← step (.call func) operands] }
    else some (Code.single <$> callValue func operands)
  | .unary op, v :: _ => unary op v
  | .binary op, a :: b :: _ => binary op a b
  | .store, address :: v :: _ => some do return { ops := [← storeAt v address 0] }
  | .load, v :: _ => some (Code.single <$> loadAt v 0)
  | .alloc _, _ => some (Code.single <$> compute .alloc [])
  | .branch, cond :: _ =>
    some do return { ops := ← branch label cond (o.regionOps 0) (o.regionOps 1) }
  | .lazyBinary op, _ => do
    let l ← yields 0
    let r ← yields 1
    if op = "and" then
      some (lazyOperator (numbered "_and_after_" label) 0 (o.regionOps 0) l (o.regionOps 1) r)
    else if op = "or" then
      some (lazyOperator (numbered "_or_after_" label) 1 (o.regionOps 0) l (o.regionOps 1) r)
    else none
  | .choice, cond :: _ => do
    let a ← yields 0
    let b ← yields 1
    some (choice label cond (o.regionOps 0) a (o.regionOps 1) b)
  | .loop, _ => do
    let v ← yields 0
    some do return { ops := ← loop label (o.regionOps 0) v (o.regionOps 1) }
  | .list, operands => some (list operands)
  | .getAddress, v :: i :: _ => some (getAddress v i)
  | .indexString, v :: i :: _ => some (indexString v i)
  | .funcDef func _, _ =>
    some do return { ops := [← Op.make (.machine (.func func) none) [] []
      [.mk ((argsOf o).map inRegister) (o.regionOps 0)]] }
  | .ret, operands => some do return { ops := [← step .ret operands] }
  | _, _ => none

def nests : FlatCode → Bool
  | .branch | .loop | .lazyBinary _ | .choice | .funcDef .. => true
  | _ => false

/-- The names of the labels that the code for an operation places around its blocks, without their
number. -/
def stems : FlatCode → List String
  | .branch => ["_if_else_", "_if_after_"]
  | .lazyBinary op => [if op = "and" then "_and_after_" else "_or_after_"]
  | .choice => ["_if_expr_else_", "_if_expr_after_"]
  | .loop => ["_while_start_", "_while_after_"]
  | _ => []

def ownLabels (label : Nat) (code : FlatCode) : List String :=
  (stems code).map fun name => numbered name label

theorem emission_straight {known : String → Prop} (hcode : nests code = false)
    (hcall : ∀ func, code = .call func → func = "len" ∨ Callable known func)
    (he : emission label code o yields = some e) : EmitsStraight least known e := by
  refine emitsStraight_of_transported fun F hF => ?_
  unfold emission at he
  split at he
  · cases he
    exact hF.literal _
  · split at he
    · obtain ⟨v, -, rfl⟩ := map_eq_some_iff.mp he
      exact hF.length v
    next hlen =>
      have hcallable := (hcall _ rfl).resolve_left hlen
      split at he
      · cases he
        exact hF.only (hF.step (.callable hcallable) (List.map_id _).symm)
      · cases he
        exact hF.single (hF.callValue hcallable (List.map_id _).symm)
  · exact .of_exists he (hF.unary he)
  · exact .of_exists he (hF.binary he)
  · cases he
    exact hF.only (hF.storeAt _ rfl rfl)
  · cases he
    exact hF.single (hF.loadAt _ rfl)
  · cases he
    exact hF.single hF.alloc
  iterate 4
    · cases hcode
  · cases he
    exact hF.list (List.map_id _).symm
  · cases he
    exact hF.getAddress _ _
  · cases he
    exact hF.indexString _ _
  · cases hcode
  · cases he
    exact hF.only (hF.step .plain (List.map_id _).symm)
  · cases he

theorem emission_surrounds (hcode : nests code = true) (hfunc : ∀ f t, code ≠ .funcDef f t)
    (he : emission label code o yields = some e) :
    Emits least (fun c => Surrounds least (ownLabels label code) (o.regionOps 0) (o.regionOps 1)
      c.ops) e := by
  unfold emission at he
  split at he
  case h_8 =>
    cases he
    exact (emits_branch _ _ _ _).bind fun _ h => Emits.pure h
  case h_9 op _ =>
    obtain ⟨l, r, -, -, he⟩ := of_some_bind₂ he
    rw [ownLabels, stems]
    split at he
    next hand =>
      cases he
      rw [if_pos hand]
      exact emits_lazyOperator _ _ _ _ _ _
    next hand =>
      rw [if_neg hand]
      split at he
      all_goals cases he
      exact emits_lazyOperator _ _ _ _ _ _
  case h_10 =>
    obtain ⟨a, b, -, -, he⟩ := of_some_bind₂ he
    cases he
    exact emits_choice _ _ _ _ _ _
  case h_11 =>
    obtain ⟨v, -, he⟩ := bind_eq_some_iff.mp he
    cases he
    exact (emits_loop _ _ _ _).bind fun _ h => Emits.pure h
  case h_15 => exact absurd rfl (hfunc _ _)
  all_goals simp [nests] at hcode he

/-! ## What a pattern does -/

/-- The values that are read in the place of others after an operation was lowered. -/
def rereads (code : FlatCode) (o : Op) (value : Option Val) : List (Val × Val) :=
  match code with
  | .funcDef .. => (argsOf o).map fun v => (v, inRegister v)
  | _ => Module.successors o [value]

/-- A draft in which an operation has been lowered, of which something is left. -/
def lowered (d : Draft Labels) (code : FlatCode) (husk o : Op) (e : Emit Code) : Draft Labels where
  program := ({ d.program with next := (e.run d.program.next).2 }.exchanged husk o
    (e.run d.program.next).1.ops).renamed (rereads code o (e.run d.program.next).1.value)
  changed := true
  memo := d.memo.bump code

def inert : FlatCode → Bool
  | .classDef .. | .forEach | .pass | .yield | .assign | .member _ => true
  | .lazyBinary op => op != "and" && op != "or"
  | _ => false

theorem inert_of_emission (he : emission label code o yields = some e) : inert code = false := by
  cases code
  case lazyBinary op =>
    obtain ⟨l, -, he⟩ := bind_eq_some_iff.mp he
    by_cases hand : op = "and"
    · simp [inert, hand]
    by_cases hor : op = "or"
    · simp [inert, hor]
    · simp [hand, hor] at he
  case classDef | forEach | pass | yield | assign | member => simp [emission] at he
  all_goals rfl

/-- An operation is left as it is, or it is lowered. -/
def Lowers (d : Draft Labels) (code : FlatCode) (o : Op) (d' : Draft Labels) : Prop :=
  match emission (d.memo.of code) code o fun k => yieldOf (o.regionOps k) with
  | none => inert code = true ∧ d' = d
  | some e => ∃ husk, (husk.regions = [] ∨ husk = o ∧ nests code = false) ∧
    d' = lowered d code husk o e

section
variable {d d' : Draft Labels} {u : Unit}

theorem run_emitted {α : Type} (e : Emit α) :
    (emitted e : Editing Labels α).run d = .ok ((e.run d.program.next).1,
      { d with program := { d.program with next := (e.run d.program.next).2 } }) :=
  rfl

theorem run_firstOperand {v : Val} (hrun : (firstOperand o).run d = .ok (v, d')) :
    d' = d ∧ ∃ vs, o.operands = v :: vs := by
  unfold firstOperand at hrun
  split at hrun
  next w vs hvs =>
    cases hrun
    exact ⟨rfl, vs, hvs⟩
  · cases hrun

theorem run_twoOperands {p : Val × Val} (hrun : (twoOperands o).run d = .ok (p, d')) :
    d' = d ∧ ∃ vs, o.operands = p.1 :: p.2 :: vs := by
  unfold twoOperands at hrun
  split at hrun
  next a b vs hvs =>
    cases hrun
    exact ⟨rfl, vs, hvs⟩
  · cases hrun

theorem run_yielded {ops : List Op} {v : Val} (hrun : (yielded ops).run d = .ok (v, d')) :
    d' = d ∧ yieldOf ops = some v := by
  unfold yielded at hrun
  unfold yieldOf
  split at hrun
  next x hx =>
    rw [hx]
    split at hrun
    next w vs hcode hvs =>
      cases hrun
      simp [hcode, hvs]
    · cases hrun
  · cases hrun

section
variable (he : emission (d.memo.of code) code o (fun k => yieldOf (o.regionOps k)) = some e)
include he

theorem Lowers.of_put (hrun : (put o e).run d = .ok (u, d')) (hcode : nests code = false := by rfl)
    (hrereads : ∀ value, rereads code o value = Module.successors o [value] := by intro; rfl)
    (hbump : d.memo.bump code = d.memo := by rfl) : Lowers d code o d' := by
  rw [Lowers, he]
  refine ⟨o, .inr ⟨rfl, hcode⟩, ?_⟩
  have hreplace := of_run_step hrun (run_emitted _)
  rw [replace, run_replaceLeaving] at hreplace
  cases hreplace
  rw [lowered, hrereads, hbump]

theorem Lowers.of_putFlattened {f : Labels → Labels} (hbump : d.memo.bump code = f d.memo)
    (hrun : (do putFlattened o e; remember f).run d = .ok (u, d'))
    (hrereads : ∀ value, rereads code o value = Module.successors o [value] := by intro; rfl) :
    Lowers d code o d' := by
  rw [Lowers, he]
  refine ⟨o.withRegions [], .inl rfl, ?_⟩
  obtain ⟨_, _, hput, hremember⟩ := of_run_bind hrun
  cases hremember
  have hreplace := of_run_step hput (run_emitted _)
  rw [run_replaceLeaving] at hreplace
  cases hreplace
  rw [lowered, hrereads, hbump]

end

theorem Lowers.of_funcPattern {func : String} {result : Ty}
    (hrun : (funcPattern func o).run d = .ok (u, d')) : Lowers d (.funcDef func result) o d' := by
  refine ⟨o.withRegions [], .inl rfl, ?_⟩
  obtain ⟨_, _, _, _, hemit, hreplace, hsubstitute⟩ := of_run_bind₂ hrun
  have hmake := run_emitted (d := d) (Op.make (.machine (.func func) none) [] []
    [.mk ((argsOf o).map inRegister) (o.regionOps 0)])
  obtain ⟨rfl, rfl⟩ := Prod.mk.inj (Except.ok.inj (hmake.symm.trans hemit))
  rw [run_replaceLeaving] at hreplace
  obtain ⟨-, rfl⟩ := Prod.mk.inj (Except.ok.inj hreplace)
  rw [run_substitute] at hsubstitute
  obtain ⟨-, rfl⟩ := Prod.mk.inj (Except.ok.inj hsubstitute)
  have hnone : Module.successors o [] = [] := by
    rw [Module.successors, List.zip_nil_right]
    rfl
  rw [hnone]
  rfl

theorem lowers_of_pattern (hflat : o.flat? = some code) (hrun : (pattern o).run d = .ok (u, d')) :
    Lowers d code o d' := by
  rw [pattern, hflat] at hrun
  cases code with
  | literal | alloc | list | ret => exact .of_put rfl hrun
  | call func =>
    dsimp only at hrun
    rw [callPattern] at hrun
    split at hrun
    next hlen =>
      obtain ⟨v, ⟨vs, hvs⟩, hrun⟩ := of_run_look hrun run_firstOperand
      refine .of_put ?_ hrun
      simp [emission, hvs, hlen]
    next hlen =>
      split at hrun
      next hquiet =>
        refine .of_put ?_ hrun
        simp only [emission, hlen, hquiet, if_false, if_true]
      next hquiet =>
        refine .of_put ?_ hrun
        simp only [emission, hlen, hquiet]
        rfl
  | unary op =>
    obtain ⟨v, ⟨vs, hvs⟩, hrun⟩ := of_run_look hrun run_firstOperand
    split at hrun
    next e he =>
      refine .of_put ?_ hrun
      simp [emission, hvs, he]
    · obtain ⟨_, _, _, hthrow⟩ := of_run_bind hrun
      exact absurd hthrow run_throw_ne_ok
  | binary op =>
    obtain ⟨v, ⟨vs, hvs⟩, hrun⟩ := of_run_look hrun run_twoOperands
    dsimp only at hrun
    split at hrun
    next e he =>
      refine .of_put ?_ hrun
      simp [emission, hvs, he]
    · obtain ⟨_, _, _, _, _, _, hthrow⟩ := of_run_bind₂ hrun
      exact absurd hthrow run_throw_ne_ok
  | store | getAddress | indexString =>
    obtain ⟨v, ⟨vs, hvs⟩, hrun⟩ := of_run_look hrun run_twoOperands
    refine .of_put ?_ hrun
    simp [emission, hvs]
  | load =>
    obtain ⟨v, ⟨vs, hvs⟩, hrun⟩ := of_run_look hrun run_firstOperand
    refine .of_put ?_ hrun
    simp [emission, hvs]
  | branch =>
    replace hrun := of_run_step hrun rfl
    obtain ⟨cond, ⟨vs, hvs⟩, hrun⟩ := of_run_look hrun run_firstOperand
    refine .of_putFlattened ?_ rfl hrun
    simp [emission, hvs, of]
  | lazyBinary op =>
    dsimp only at hrun
    rw [lazyPattern] at hrun
    split at hrun
    next hand =>
      replace hrun := of_run_step hrun rfl
      obtain ⟨a, ha, hrun⟩ := of_run_look hrun run_yielded
      obtain ⟨b, hb, hrun⟩ := of_run_look hrun run_yielded
      refine .of_putFlattened ?_ ?_ hrun
      · simp [emission, ha, hb, hand, of]
      · simp [bump, hand]
    next hand =>
      split at hrun
      next hor =>
        replace hrun := of_run_step hrun rfl
        obtain ⟨a, ha, hrun⟩ := of_run_look hrun run_yielded
        obtain ⟨b, hb, hrun⟩ := of_run_look hrun run_yielded
        refine .of_putFlattened ?_ ?_ hrun
        · simp [emission, ha, hb, hor, of]
        · simp [bump, hor]
      next hor =>
        cases hrun
        have hnone : emission (d.memo.of (.lazyBinary op)) (.lazyBinary op) o
            (fun k => yieldOf (o.regionOps k)) = none := by
          simp [emission, hand, hor]
        rw [Lowers, hnone]
        exact ⟨by simp [inert, hand, hor], rfl⟩
  | choice =>
    replace hrun := of_run_step hrun rfl
    obtain ⟨cond, ⟨vs, hvs⟩, hrun⟩ := of_run_look hrun run_firstOperand
    obtain ⟨a, ha, hrun⟩ := of_run_look hrun run_yielded
    obtain ⟨b, hb, hrun⟩ := of_run_look hrun run_yielded
    refine .of_putFlattened ?_ rfl hrun
    simp [emission, hvs, ha, hb, of]
  | loop =>
    replace hrun := of_run_step hrun rfl
    obtain ⟨v, hv, hrun⟩ := of_run_look hrun run_yielded
    refine .of_putFlattened ?_ rfl hrun
    simp [emission, hv, of]
  | funcDef func _ => exact .of_funcPattern hrun
  | _ =>
    cases hrun
    exact ⟨rfl, rfl⟩

end

end Practicum.Machine
