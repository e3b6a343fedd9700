import Mathlib.Tactic.TFAE
import Practicum.Flat.Folding
import Practicum.Proofs.IR.Splicing

/-!
# Rounds of folding

Every application of the folding pattern that changes a draft adds to its remnants. A round that
changes nothing can therefore be told from its result, and what folding returns is a fixed point
exactly if it does not depend on the number of rounds.
-/

namespace Practicum.Flat.Folding

open Choco IR Editing

/-!
## Steps of folding

Folding leaves an operation as it is, or it puts a literal, a copy of an operand, a regrouped
expression or the operations of one of its blocks in its place.
-/

variable {l r : Op} {op : String} {m : Module} {d d' : Draft Unit} {o : Op} {u : Unit}

/-! ## Parts of expressions -/

def OperandsOf (m : Module) (o l r : Op) : Prop :=
  ∃ a b rest, o.operands = a :: b :: rest ∧ m.definition? a = some l ∧ m.definition? b = some r

theorem run_operandsOf {p : Op × Op} (hrun : (operandsOf o).run d = .ok (p, d')) :
    d' = d ∧ OperandsOf d.program o p.1 p.2 := by
  unfold operandsOf at hrun
  split at hrun
  next a b rest hoperands =>
    obtain ⟨l, _, hl, hsecond⟩ := of_run_bind hrun
    obtain ⟨hl, rfl⟩ := run_definition hl
    obtain ⟨r, _, hr, hpair⟩ := of_run_bind hsecond
    obtain ⟨hr, rfl⟩ := run_definition hr
    cases hpair
    exact ⟨rfl, a, b, rest, hoperands, hl, hr⟩
  · cases hrun

def parts? (o : Op) : Editing Unit (Option (String × Op × Op)) := do
  match operator? o with
  | some op => return some (op, ← operandsOf o)
  | none => return none

theorem run_parts? {p : Option (String × Op × Op)} (hrun : (parts? o).run d = .ok (p, d')) :
    d' = d ∧ ∀ op l r, p = some (op, l, r) →
      o.flat? = some (.binary op) ∧ OperandsOf d.program o l r := by
  rw [parts?, operator?] at hrun
  split at hrun
  next op hop =>
    obtain ⟨q, hparts, hpure⟩ := of_run_look hrun run_operandsOf
    cases hpure
    refine ⟨rfl, ?_⟩
    rintro _ l r ⟨⟩
    split at hop
    next hflat =>
      cases hop
      exact ⟨hflat, hparts⟩
    · cases hop
  · cases hrun
    exact ⟨rfl, nofun⟩

/-- The leaves of an expression of which one operand is an expression itself. -/
inductive Leaves (m : Module) (l r : Op) : Nested → Prop
  | left {inner : String} {a b : Op} (code : l.flat? = some (.binary inner))
      (parts : OperandsOf m l a b) : Leaves m l r { inner, side := .left, leaf := leaves a b r }
  | right {inner : String} {b c : Op} (code : r.flat? = some (.binary inner))
      (parts : OperandsOf m r b c) : Leaves m l r { inner, side := .right, leaf := leaves l b c }

theorem run_nested? {e : Option Nested} (hrun : (nested? l r).run d = .ok (e, d')) :
    d' = d ∧ ∀ e', e = some e' → Leaves d.program l r e' := by
  obtain ⟨p, hpl, hsecond⟩ := of_run_look hrun run_parts?
  obtain ⟨q, hqr, hpair⟩ := of_run_look hsecond run_parts?
  split at hpair <;> cases hpair
  · obtain ⟨hcode, hparts⟩ := hpl _ _ _ rfl
    refine ⟨rfl, ?_⟩
    rintro e' ⟨⟩
    exact .left hcode hparts
  · obtain ⟨hcode, hparts⟩ := hqr _ _ _ rfl
    refine ⟨rfl, ?_⟩
    rintro e' ⟨⟩
    exact .right hcode hparts
  · exact ⟨rfl, nofun⟩

theorem run_resultOf {v : Val} (hrun : (resultOf o).run d = .ok (v, d')) :
    d' = d ∧ o.results.head? = some v := by
  unfold resultOf at hrun
  split at hrun <;> cases hrun
  next hresults => exact ⟨rfl, by rw [hresults]; rfl⟩

theorem run_intOf {n : Int} (hrun : (intOf o).run d = .ok (n, d')) : d' = d ∧ int? o = some n := by
  unfold intOf at hrun
  split at hrun <;> cases hrun
  next hliteral => exact ⟨rfl, by rw [int?, hliteral]⟩

/-! ## What is put in place -/

def putLiteral (o : Op) (v : Value) : Editing Unit Unit := do
  replaceByLast o [← newLiteral v]

def putCopy (o other : Op) : Editing Unit Unit := do
  replaceByLast o [← other.copy]

def putRemainder (o : Op) (a b : Val) : Editing Unit Unit := do
  let (new, v) ← newBinary "%" a b
  replace o [new] [some v]

def putRegrouped (o : Op) (g : Regrouping) (a b c : Val) : Editing Unit Unit := do
  let (first, v) ← newBinary g.inner a b
  let (second, w) ← newBinary g.outer v c
  replace o [first, second] [some w]

/-- Values that are the first results of the leaves of a grouping. -/
def Regrouping.Reads (g : Regrouping) (leaf : Leaf → Op) (a b c : Val) : Prop :=
  (leaf g.first).results.head? = some a ∧ (leaf g.second).results.head? = some b ∧
    (leaf g.third).results.head? = some c

theorem run_regrouped {e : Nested} {g : Regrouping} (hrun : (do
      let a ← resultOf (e.leaf g.first)
      let b ← resultOf (e.leaf g.second)
      let c ← resultOf (e.leaf g.third)
      putRegrouped o g a b c : Editing Unit Unit).run d = .ok (u, d')) :
    ∃ a b c, g.Reads e.leaf a b c ∧ (putRegrouped o g a b c).run d = .ok (u, d') := by
  obtain ⟨a, ha, hrun1⟩ := of_run_look hrun run_resultOf
  obtain ⟨b, hb, hrun2⟩ := of_run_look hrun1 run_resultOf
  obtain ⟨c, hc, hput⟩ := of_run_look hrun2 run_resultOf
  exact ⟨a, b, c, ⟨ha, hb, hc⟩, hput⟩

theorem run_remainderPattern {e : Nested} (hrun : (remainderPattern o e).run d = .ok (u, d')) :
    ∃ m n a b, int? (e.leaf .b) = some m ∧ int? (e.leaf .c) = some n ∧
      (e.leaf .a).results.head? = some a ∧
      (e.leaf (if n < m then .c else .b)).results.head? = some b ∧
      (putRemainder o a b).run d = .ok (u, d') := by
  obtain ⟨m, hm, hrun1⟩ := of_run_look hrun run_intOf
  obtain ⟨n, hn, hrun2⟩ := of_run_look hrun1 run_intOf
  obtain ⟨a, ha, hrun3⟩ := of_run_look hrun2 run_resultOf
  obtain ⟨b, hb, hput⟩ := of_run_look hrun3 run_resultOf
  rw [← apply_ite e.leaf] at hb
  exact ⟨m, n, a, b, hm, hn, ha, hb, hput⟩

theorem run_yielded {ops : List Op} {value : Option Val}
    (hrun : (yielded ops).run d = .ok (value, d')) :
    d' = d ∧ ∃ y, ops.getLast? = some y ∧ y.flat? = some .yield ∧ value = y.operands.head? := by
  unfold yielded at hrun
  split at hrun
  next y hy =>
    split at hrun <;> cases hrun
    next hcode => exact ⟨rfl, y, hy, by simpa using hcode, rfl⟩
  · cases hrun

/-- What an application of the pattern does. -/
inductive Folds (d : Draft Unit) (o : Op) (d' : Draft Unit) : Prop
  | idle (eq : d' = d)
  | unary {op : String} {v : Value} (code : o.flat? = some (.unary op))
      (value : op = "-" → ∃ n, v = .int n) (run : (putLiteral o v).run d = .ok ((), d'))
  | constant {op : String} {l r : Op} {x y v : Value} (code : o.flat? = some (.binary op))
      (parts : OperandsOf d.program o l r) (literals : comparable? l r = some (x, y))
      (value : evaluate op (l.id == r.id) x y = .ok v) (run : (putLiteral o v).run d = .ok ((), d'))
  | zero {op : String} {l r other : Op} {n : Int} {side : Side} (code : o.flat? = some (.binary op))
      (parts : OperandsOf d.program o l r) (one : oneInt? l r = some (n, side, other))
      (simplified : simplify op n side = some .zero)
      (run : (putLiteral o (.int 0)).run d = .ok ((), d'))
  | other {op : String} {l r other : Op} {n : Int} {side : Side} (code : o.flat? = some (.binary op))
      (parts : OperandsOf d.program o l r) (one : oneInt? l r = some (n, side, other))
      (simplified : simplify op n side = some .other) (run : (putCopy o other).run d = .ok ((), d'))
  | remainder {l r : Op} {e : Nested} {k : Leaf} {a b : Val} (code : o.flat? = some (.binary "%"))
      (parts : OperandsOf d.program o l r) (leaves : Leaves d.program l r e) (inner : e.inner = "%")
      (left : (e.leaf .a).results.head? = some a) (right : (e.leaf k).results.head? = some b)
      (run : (putRemainder o a b).run d = .ok ((), d'))
  | regrouped {op : String} {l r : Op} {e : Nested} {g : Regrouping} {lit : Leaf → Bool}
      {a b c : Val} (code : o.flat? = some (.binary op)) (parts : OperandsOf d.program o l r)
      (leaves : Leaves d.program l r e) (grouping : regroup op e.inner e.side lit = some g)
      (reads : g.Reads e.leaf a b c) (run : (putRegrouped o g a b c).run d = .ok ((), d'))
  | block {kind : FlatCode} {k : Nat} {w : Option Val} (code : o.flat? = some kind)
      (value : kind = .branch ∧ w = none ∨ (kind = .choice ∨ ∃ op, kind = .lazyBinary op) ∧
        ∃ y, (o.regionOps k).getLast? = some y ∧ y.flat? = some .yield ∧ w = y.operands.head?)
      (run : (keepBlock o k w).run d = .ok ((), d'))

theorem looks_knownBool? (v : Option Val) : Looks (knownBool? v) := by
  intro d a d' hrun
  cases hrun
  rfl

theorem Folds.of_unary (hcode : o.flat? = some (.unary op))
    (hrun : (unaryPattern op o).run d = .ok (u, d')) : Folds d o d' := by
  rw [unaryPattern] at hrun
  split at hrun
  · cases hrun
    exact .idle rfl
  replace hrun := of_run_step hrun rfl
  dsimp only at hrun
  split at hrun
  next v hfolded =>
    refine .unary hcode (fun hop => ?_) hrun
    rw [hop] at hfolded
    split at hfolded <;> cases hfolded
    · exact ⟨_, rfl⟩
    · exact ⟨_, rfl⟩
  · cases hrun
    exact .idle rfl

theorem Folds.of_regroup (hcode : o.flat? = some (.binary op)) (hparts : OperandsOf d.program o l r)
    (hrun : (regroupPattern op o l r).run d = .ok (u, d')) : Folds d o d' := by
  obtain ⟨_, hleaves, hstep⟩ := of_run_look hrun run_nested?
  split at hstep
  · cases hstep
    exact .idle rfl
  next e =>
    dsimp only at hstep
    split at hstep
    next hrem =>
      simp only [Bool.and_eq_true, decide_eq_true_eq] at hrem
      obtain ⟨⟨⟨⟨rfl, hinner⟩, -⟩, -⟩, -⟩ := hrem
      obtain ⟨m, n, a, b, -, -, ha, hb, hput⟩ := run_remainderPattern hstep
      exact .remainder hcode hparts (hleaves e rfl) hinner ha hb hput
    split at hstep
    · cases hstep
      exact .idle rfl
    next hg =>
      obtain ⟨a, b, c, hreads, hput⟩ := run_regrouped hstep
      exact .regrouped hcode hparts (hleaves e rfl) hg hreads hput

theorem Folds.of_binary (hcode : o.flat? = some (.binary op))
    (hrun : (binaryPattern op o).run d = .ok (u, d')) : Folds d o d' := by
  obtain ⟨⟨l, r⟩, hparts, hstep⟩ := of_run_look hrun run_operandsOf
  dsimp only at hstep
  split at hstep
  next hliterals =>
    obtain ⟨v, _, hevaluate, hput⟩ := of_run_bind hstep
    obtain ⟨hvalue, rfl⟩ := run_lift_ok_iff.mp hevaluate
    exact .constant hcode hparts hliterals hvalue hput
  · have hone {s : Simplified} {other : Op} (hs : (oneInt? l r >>= fun p =>
          (simplify op p.1 p.2.1).map fun s => (s, p.2.2)) = some (s, other)) :
        ∃ n side, oneInt? l r = some (n, side, other) ∧ simplify op n side = some s := by
      obtain ⟨⟨n, side, _⟩, hone, hs⟩ := Option.bind_eq_some_iff.mp hs
      obtain ⟨_, hsimplify, hpair⟩ := Option.map_eq_some_iff.mp hs
      cases hpair
      exact ⟨n, side, hone, hsimplify⟩
    split at hstep
    next hs =>
      obtain ⟨n, side, hone, hs⟩ := hone hs
      exact .other hcode hparts hone hs hstep
    next hs =>
      obtain ⟨n, side, hone, hs⟩ := hone hs
      exact .zero hcode hparts hone hs hstep
    · cases hstep
    · exact .of_regroup hcode hparts hstep

theorem folds_of_run (hrun : (pattern o).run d = .ok (u, d')) : Folds d o d' := by
  rw [pattern] at hrun
  split at hrun
  next hcode => exact .of_unary hcode hrun
  next hcode =>
    obtain ⟨known, d1, hlook, hstep⟩ := of_run_bind hrun
    obtain rfl := looks_knownBool? _ hlook
    split at hstep
    · obtain ⟨value, hvalue, hkeep⟩ := of_run_look hstep run_yielded
      exact .block hcode (.inr ⟨.inl rfl, hvalue⟩) hkeep
    · cases hstep
      exact .idle rfl
  next hcode => exact .of_binary hcode hrun
  next hcode =>
    rw [lazyPattern] at hrun
    split at hrun
    · obtain ⟨value, hvalue, hstep⟩ := of_run_look hrun run_yielded
      obtain ⟨known, _, hlook, hkeep⟩ := of_run_bind hstep
      obtain rfl := looks_knownBool? _ hlook
      split at hkeep
      · exact .block hcode (.inr ⟨.inr ⟨_, rfl⟩, hvalue⟩) hkeep
      · cases hkeep
        exact .idle rfl
    · cases hrun
      exact .idle rfl
  next hcode =>
    obtain ⟨known, d1, hlook, hstep⟩ := of_run_bind hrun
    obtain rfl := looks_knownBool? _ hlook
    split at hstep
    · exact .block hcode (.inl ⟨rfl, rfl⟩) hstep
    · cases hstep
      exact .idle rfl
  · rw [loopPattern] at hrun
    obtain ⟨value, -, hpure⟩ := of_run_look hrun run_yielded
    cases hpure
    exact .idle rfl
  · cases hrun
    exact .idle rfl

variable {n k : Nat}

/-! ## Remnants -/

/-- A step that always succeeds and only takes numbers. -/
def Numbers {α : Type} (p : Editing Unit α) : Prop :=
  ∀ d, ∃ a n, p.run d = .ok (a, d.after n)

section
variable {α β : Type} {p : Editing Unit α} {f : α → Editing Unit β}

theorem numbers_pure (a : α) : Numbers (pure a) :=
  fun _ => ⟨a, 0, rfl⟩

theorem numbers_fresh : Numbers Fresh.fresh :=
  fun d => ⟨d.program.next, 1, rfl⟩

theorem Numbers.bind (hp : Numbers p) (hf : ∀ a, Numbers (f a)) : Numbers (p >>= f) := by
  intro d
  obtain ⟨a, n, hfirst⟩ := hp d
  obtain ⟨b, k, hsecond⟩ := hf a (d.after n)
  refine ⟨b, n + k, ?_⟩
  simp only [Draft.after, Nat.add_assoc] at hsecond
  rw [StateT.run_bind, hfirst]
  exact hsecond

theorem numbers_mapM (hf : ∀ a, Numbers (f a)) : ∀ xs : List α, Numbers (xs.mapM f)
  | [] => numbers_pure []
  | x :: xs => by
    rw [List.mapM_cons]
    exact (hf x).bind fun _ => (numbers_mapM hf xs).bind fun _ => numbers_pure _

end

mutual

theorem numbers_copyWith (rename : Val → Val) : ∀ o : Op, Numbers (o.copyWith rename)
  | .mk _ _ _ _ regions => by
    rw [Op.copyWith]
    exact (numbers_copyRegionsWith rename regions).bind fun _ => numbers_fresh.bind fun _ => numbers_pure _

theorem numbers_copyAllWith (rename : Val → Val) : ∀ os : List Op, Numbers (Op.copyAllWith rename os)
  | [] => numbers_pure []
  | o :: os => by
    rw [Op.copyAllWith]
    exact (numbers_copyWith rename o).bind fun _ =>
      (numbers_copyAllWith rename os).bind fun _ => numbers_pure _

theorem numbers_copyRegionsWith (rename : Val → Val) :
    ∀ bs : List Block, Numbers (Op.copyRegionsWith rename bs)
  | [] => numbers_pure []
  | .mk _ ops :: bs => by
    rw [Op.copyRegionsWith]
    exact (numbers_copyAllWith rename ops).bind fun _ =>
      (numbers_copyRegionsWith rename bs).bind fun _ => numbers_pure _

end

theorem numbers_copy (o : Op) : Numbers o.copy :=
  (numbers_mapM (fun _ => numbers_fresh.bind fun _ => numbers_pure _) _).bind fun _ => numbers_copyWith _ o

theorem numbers_newLiteral (v : Choco.Value) : Numbers (newLiteral v) :=
  (numbers_mapM (fun _ => numbers_fresh.bind fun _ => numbers_pure _) _).bind fun _ =>
    numbers_fresh.bind fun _ => numbers_pure _

theorem numbers_newBinary (op : String) (a b : Val) : Numbers (newBinary op a b) :=
  numbers_fresh.bind fun _ => numbers_fresh.bind fun _ => numbers_pure _

/-- A draft that says that it is a changed one, and has more remnants than before. -/
def Outgrows (d d' : Draft Unit) : Prop :=
  d'.changed = true ∧ d.program.remnants.length < d'.program.remnants.length

/-- A step that adds a remnant whenever it succeeds. -/
def Grows (p : Editing Unit Unit) : Prop :=
  ∀ ⦃d u d'⦄, p.run d = .ok (u, d') → Outgrows d d'

theorem grows_replaceLeaving (husk old : Op) (new : List Op) (values : List (Option Val)) :
    Grows (replaceLeaving husk old new values) := by
  intro d u d' hrun
  rw [run_replaceLeaving] at hrun
  cases hrun
  refine ⟨rfl, ?_⟩
  rw [Module.renamed]
  split <;> simp [Module.exchanged, Module.splice, Module.mapOperands]

theorem Grows.after {α : Type} {p : Editing Unit α} {f : α → Editing Unit Unit} (hp : Numbers p)
    (hf : ∀ a, Grows (f a)) : Grows (p >>= f) := by
  intro d u d' hrun
  obtain ⟨a, n, hfirst⟩ := hp d
  rw [StateT.run_bind, hfirst] at hrun
  exact hf a (d := d.after n) hrun

/-- An application of the pattern leaves a draft as it is, or it adds to its remnants. -/
theorem Folds.eq_or_outgrows (h : Folds d o d') : d' = d ∨ Outgrows d d' := by
  have hlast {new : List Op} : Grows (replaceByLast o new) := grows_replaceLeaving ..
  cases h with
  | idle heq => exact .inl heq
  | unary _ _ hput | constant _ _ _ _ hput | zero _ _ _ _ hput =>
    exact .inr (Grows.after (numbers_newLiteral _) (fun _ => hlast) hput)
  | other _ _ _ _ hput => exact .inr (Grows.after (numbers_copy _) (fun _ => hlast) hput)
  | remainder _ _ _ _ _ _ hput =>
    refine .inr (Grows.after (numbers_newBinary _ _ _) (fun _ => ?_) hput)
    exact grows_replaceLeaving ..
  | regrouped _ _ _ _ _ hput =>
    refine .inr (Grows.after (numbers_newBinary _ _ _) (fun _ => .after (numbers_newBinary _ _ _) fun _ => ?_) hput)
    exact grows_replaceLeaving ..
  | block _ _ hput => exact .inr (grows_replaceLeaving _ _ _ _ hput)

/-! ## Rounds -/

theorem eq_or_outgrows_offers (ids : List Nat)
    (hrun : (ids.forM (offer pattern)).run d = .ok (u, d')) : d' = d ∨ Outgrows d d' := by
  induction ids generalizing d with
  | nil =>
    cases hrun
    exact .inl rfl
  | cons k ids ih =>
    obtain ⟨_, d1, hoffer, hrest⟩ := of_run_bind hrun
    have hfirst : d1 = d ∨ Outgrows d d1 := by
      replace hoffer := of_run_step hoffer rfl
      split at hoffer
      · exact (folds_of_run hoffer).eq_or_outgrows
      · cases hoffer
        exact .inl rfl
    obtain rfl | ⟨hchanged, hlength⟩ := ih hrest
    · exact hfirst
    obtain rfl | hgrown := hfirst
    · exact .inr ⟨hchanged, hlength⟩
    · exact .inr ⟨hchanged, Nat.lt_trans hgrown.2 hlength⟩

def fresh (m : Module) : Draft Unit :=
  { program := m, memo := () }

def Quiet (m : Module) : Prop :=
  (round pattern .forward).run (fresh m) = .ok ((), fresh m)

theorem quiet_or_outgrows (hrun : (round pattern .forward).run d = .ok (u, d')) :
    d' = fresh d.program ∧ Quiet d.program ∨ Outgrows d d' := by
  obtain rfl | hgrown := eq_or_outgrows_offers _ hrun
  · exact .inl ⟨rfl, hrun⟩
  · exact .inr hgrown

/-- More rounds for what a round leaves, if it has changed something. -/
def goOn (n : Nat) (r : Unit × Draft Unit) : Except Fault (Unit × Draft Unit) :=
  if r.2.changed then (exhaustWithin pattern .forward n).run r.2 else .ok r

theorem run_succ (n : Nat) (d : Draft Unit) :
    (exhaustWithin pattern .forward (n + 1)).run d = (round pattern .forward).run d >>= goOn n := by
  rw [exhaustWithin, StateT.run_bind]
  congr
  funext ⟨_, d1⟩
  show (if d1.changed then exhaustWithin pattern .forward n else pure ()).run d1 = _
  rw [goOn]
  split <;> rfl

/-- A larger number of rounds goes on where a smaller one stops. -/
theorem run_add (n k : Nat) (d : Draft Unit) : (exhaustWithin pattern .forward (n + 1 + k)).run d =
    (exhaustWithin pattern .forward (n + 1)).run d >>= goOn k := by
  rw [Nat.add_right_comm]
  induction n generalizing d with
  | zero =>
    rw [Nat.zero_add, run_succ, run_succ, bind_assoc]
    congr
    funext r
    by_cases hchanged : r.2.changed = true
    · rw [goOn, goOn, if_pos hchanged, if_pos hchanged]
      exact (if_pos hchanged).symm
    · rw [goOn, goOn, if_neg hchanged, if_neg hchanged]
      exact (if_neg hchanged).symm
  | succ n ih =>
    rw [run_succ, run_succ, bind_assoc]
    congr
    funext r
    by_cases hchanged : r.2.changed = true
    · rw [goOn, goOn, if_pos hchanged, if_pos hchanged, Nat.add_right_comm, ih]
    · rw [goOn, goOn, if_neg hchanged, if_neg hchanged]
      exact (if_neg hchanged).symm

/-- Where the last round says that it changes nothing, no round does from there on. -/
theorem quiet_or_changed (hrun : (exhaustWithin pattern .forward (n + 1)).run d = .ok (u, d')) :
    Quiet d'.program ∨ d'.changed = true := by
  have hlast {d : Draft Unit} (hround : (round pattern .forward).run d = .ok (u, d')) :
      Quiet d'.program ∨ d'.changed = true := by
    obtain ⟨rfl, hquiet⟩ | hgrown := quiet_or_outgrows hround
    · exact .inl hquiet
    · exact .inr hgrown.1
  induction n generalizing d with
  | zero =>
    rw [run_succ] at hrun
    obtain ⟨r, hround, hrest⟩ := of_bind hrun
    rw [goOn] at hrest
    split at hrest <;> cases hrest <;> exact hlast hround
  | succ n ih =>
    rw [run_succ] at hrun
    obtain ⟨r, hround, hrest⟩ := of_bind hrun
    rw [goOn] at hrest
    split at hrest
    · exact ih hrest
    · cases hrest
      exact hlast hround

theorem keptBy_remnants (k : Nat) : KeptBy (fun m _ => k ≤ m.remnants.length) pattern := by
  intro d u d' o hle _ hrun
  obtain rfl | hgrown := (folds_of_run hrun).eq_or_outgrows
  · exact hle
  · exact Nat.le_trans hle (Nat.le_of_lt hgrown.2)

theorem fixed_iff_quiet : run m = .ok m ↔ Quiet m := by
  constructor
  · intro hrun
    obtain ⟨⟨_, _⟩, hend, rfl⟩ := map_eq_ok_iff.mp hrun
    rw [exhaust, maxRounds, run_succ] at hend
    obtain ⟨r, hround, hrest⟩ := of_bind hend
    obtain ⟨-, hquiet⟩ | ⟨hchanged, hlength⟩ := quiet_or_outgrows hround
    · exact hquiet
    rw [goOn, if_pos hchanged] at hrest
    have hle := (keptBy_remnants _).exhaustWithin .forward _ (Nat.le_refl _) hrest
    exact absurd hle (Nat.not_le.mpr hlength)
  · intro hquiet
    have hround : (round pattern .forward).run (fresh m) = .ok ((), fresh m) := hquiet
    show (fun r => r.2.program) <$> (exhaustWithin pattern .forward 50).run (fresh m) = _
    rw [run_succ, hround]
    rfl

theorem exists_unfixed (hnext : ((run m >>= fun m' => (round pattern .forward).run (fresh m')).map
      fun r => r.2.changed).toOption = some true) : ∃ m', run m = .ok m' ∧ run m' ≠ .ok m' := by
  cases hrun : run m with
  | error e =>
    rw [hrun] at hnext
    cases hnext
  | ok m' =>
    refine ⟨m', rfl, fun hfixed => ?_⟩
    have hround : (round pattern .forward).run (fresh m') = .ok ((), fresh m') :=
      fixed_iff_quiet.mp hfixed
    simp only [hrun, bind, Except.bind, hround] at hnext
    cases hnext

/-- What folding returns is a fixed point exactly if the rounds ended because there was nothing left
to change: a larger number of rounds returns the same program. -/
theorem fixed_tfae {m' : Module} (hrun : Folding.run m = .ok m') :
    List.TFAE [Folding.run m' = .ok m', Quiet m',
      ∀ n, maxRounds ≤ n → apply (exhaustWithin pattern .forward n) () m = .ok m'] := by
  obtain ⟨⟨_, d'⟩, hend, rfl⟩ := map_eq_ok_iff.mp hrun
  have hmore (k : Nat) : apply (exhaustWithin pattern .forward (maxRounds + k)) () m =
      (fun r => r.2.program) <$> goOn k ((), d') := by
    have hadd := run_add 49 k (fresh m)
    rw [show (exhaustWithin pattern .forward 50).run (fresh m) = .ok ((), d') from hend] at hadd
    exact congrArg _ hadd
  tfae_have 1 ↔ 2 := fixed_iff_quiet
  tfae_have 2 → 3 := by
    intro hquiet n hn
    obtain ⟨k, rfl⟩ := Nat.exists_eq_add_of_le hn
    rw [hmore, goOn]
    split
    · cases k with
      | zero => rfl
      | succ k =>
        have hround : (round pattern .forward).run d' = .ok ((), fresh d'.program) := hquiet
        rw [run_succ, hround]
        rfl
    · rfl
  tfae_have 3 → 2 := by
    intro hsame
    have hlast := hsame (maxRounds + 1) (Nat.le_succ _)
    rw [hmore, goOn] at hlast
    split at hlast
    · obtain ⟨r', hlast, hprogram⟩ := map_eq_ok_iff.mp hlast
      rw [run_succ] at hlast
      obtain ⟨r, hround, hrest⟩ := of_bind hlast
      obtain ⟨-, hquiet⟩ | ⟨hchanged, hlength⟩ := quiet_or_outgrows hround
      · exact hquiet
      · rw [goOn, if_pos hchanged] at hrest
        cases hrest
        exact absurd (congrArg (fun m => m.remnants.length) hprogram) (Nat.ne_of_gt hlength)
    · next hchanged => exact (quiet_or_changed hend).resolve_right hchanged
  tfae_finish

def literals : Module where
  ops :=
    [.mk 1 (.flat (.literal (.word 3))) [] [⟨2, .int⟩] [],
      .mk 3 (.flat (.literal (.word 4))) [] [⟨4, .int⟩] [],
      .mk 5 (.flat (.binary "+")) [⟨2, .int⟩, ⟨4, .int⟩] [⟨6, .int⟩] []]
  next := 7

def foldedLiterals : Module where
  ops :=
    [.mk 1 (.flat (.literal (.word 3))) [] [⟨2, .int⟩] [],
      .mk 3 (.flat (.literal (.word 4))) [] [⟨4, .int⟩] [],
      .mk 8 (.flat (.literal (.word 7))) [] [⟨7, .int⟩] []]
  remnants := [.mk 5 (.flat (.binary "+")) [⟨2, .int⟩, ⟨4, .int⟩] [⟨6, .int⟩] []]
  next := 9

theorem fixed_tfae_literals : Folding.run literals = .ok foldedLiterals ∧
    Folding.run foldedLiterals = .ok foldedLiterals ∧ ∀ n, maxRounds ≤ n →
      apply (exhaustWithin pattern .forward n) () literals = .ok foldedLiterals := by
  have hrun : Folding.run literals = .ok foldedLiterals := by rfl
  have hquiet : Quiet foldedLiterals := by rfl
  exact ⟨hrun, ((fixed_tfae hrun).out 1 0).mp hquiet, ((fixed_tfae hrun).out 1 2).mp hquiet⟩

def openSum : Module where
  ops :=
    [.mk 1 (.flat .load) [] [⟨2, .int⟩] [], .mk 3 (.flat .load) [] [⟨4, .int⟩] [],
      .mk 5 (.flat (.literal (.word 5))) [] [⟨6, .int⟩] [],
      .mk 7 (.flat (.binary "+")) [⟨2, .int⟩, ⟨4, .int⟩] [⟨8, .int⟩] [],
      .mk 9 (.flat (.binary "+")) [⟨8, .int⟩, ⟨6, .int⟩] [⟨10, .int⟩] []]
  next := 11

/-- The sum is regrouped in every round, and there is always another grouping left. -/
theorem openSum_regrouped : ∃ m', Folding.run openSum = .ok m' ∧ Folding.run m' ≠ .ok m' := by
  apply exists_unfixed
  decide +kernel

end Practicum.Flat.Folding
