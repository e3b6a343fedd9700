import Practicum.Proofs.Flat.Regrouping
import Practicum.Proofs.Flat.Tidy

/-!
# Constant folding in tidy programs

Folding may compute an operation once more that was taken out of the program. It does so only for
operands of arithmetic beside an integer, and a call of a function without code is no such operand.
-/

namespace Practicum.Flat

open Choco IR Editing Numbered List

/-!
## Calls of the library in tidy programs

The functions `print` and `input` have no code. A round that puts calls of the library in the place
of calls of these functions meets every operation once, so that afterwards no operation of the
program calls them. Only what was taken out of the program still does.
-/

def Bodiless (func : String) : Prop :=
  func = "print" ∨ func = "input"

instance (func : String) : Decidable (Bodiless func) :=
  inferInstanceAs (Decidable (_ ∨ _))

/-- The functions that are called before the round. -/
def called (C : String → Prop) (func : String) : Prop :=
  C func ∨ Bodiless func

/-- Calls of functions with code, and calls of functions without code by operations that are still
to be met. -/
def pending (C : String → Prop) (rest : List Nat) (i : Nat) (func : String) : Prop :=
  C func ∨ Bodiless func ∧ i ∈ rest

variable {funcs : Nat → Option String} {C : String → Prop} {notes : SharedLiterals.Table}
  {L L' : Ledger} {rest : List Nat} {m : Module} {d d' : Draft Unit} {o : Op} {u : Unit}
variable {calls : Nat → String → Prop} {func : String}

section

open LibraryCalls

theorem called_of_pending (i : Nat) (func : String) (h : pending C rest i func) : called C func :=
  h.imp_right And.left

theorem Tidy.met {i : Nat} (h : Tidy funcs (called C) notes (pending C (i :: rest)) L m)
    (hi : ∀ o ∈ m.placed, o.id = i → ∀ func, L.code o.id = .call func → C func) :
    Tidy funcs (called C) notes (pending C rest) L m := by
  refine ⟨Module.each_of_placed (fun o ho => ?_) h.each.remnant, called_of_pending, h.numbers,
    h.housed, h.noted⟩
  have hregular := (h.each.of_mem_placed ho).of_mem mem_cons_self
  refine hregular.imp fun func hfunc => ?_
  obtain hC | ⟨hbodiless, hmem⟩ := hregular.call func hfunc
  · exact .inl hC
  obtain hid | hmem := mem_cons.mp hmem
  · exact .inl (hi o ho hid func hfunc)
  · exact .inr ⟨hbodiless, hmem⟩

theorem Given.replacePending {new : List Op} {values : List (Option Val)} {k : Nat}
    (h : Given funcs (called C) notes (pending C (o.id :: rest)) L d o)
    (hext : L.Extends (next d) L' (next (after d k))) (hold : Replaceable (L.code o.id))
    (hnew : Each (Regular (pending C rest) L' (next (after d k))) new)
    (hvalues : ∀ w, some w ∈ values →
      w.id < next (after d k) ∧ ∀ r ∈ o.results, (L'.of r).Admits (L'.of w))
    (hrun : (Editing.replace o new values).run (after d k) = .ok (u, d')) :
    Tidy funcs (called C) notes (pending C rest) L' d'.program := by
  have hstays {i : Nat} {func : String} (hne : i ≠ o.id)
      (hpending : pending C (o.id :: rest) i func) : pending C rest i func :=
    hpending.imp_right fun ⟨hbodiless, hmem⟩ =>
      ⟨hbodiless, (mem_cons.mp hmem).resolve_left hne⟩
  refine h.replaceLeaving hext hold (fun _ _ => hstays) called_of_pending hnew (h.known.mono hext)
    (fun b hb x hx => ?_) hvalues hrun
  -- what is nested in an operation that calls a function would have to be nested in a call
  have hregular := each_mono ((Each.singleton_iff.mp h.each).2 b hb) hext x hx
  refine hregular.imp fun func hfunc => hstays (fun hid => ?_) (hregular.call func hfunc)
  have hcode := hext.code _ h.regular.below
  rw [hid, hcode] at hfunc
  rw [h.regular.ready.bare (.inr ⟨func, hfunc⟩)] at hb
  cases hb

theorem Regular.admits {n n' : Nat} {calls' : Nat → String → Prop} {x : Op} {ops : List Op}
    {natures : List Nature} (h : Regular calls L n o) (hext : L.Extends n L' n')
    (hx : Each (Regular calls' L' n') [x]) (hmap : x.results.map L'.of = natures)
    (hlast : ops.getLast? = some x)
    (hnatures : ∀ r ∈ o.results, ∀ c ∈ natures, (L.of r).Admits c) :
    ∀ w, some w ∈ ((ops.getLast?.map Op.results).getD []).map some →
      w.id < n' ∧ ∀ r ∈ o.results, (L'.of r).Admits (L'.of w) := by
  rw [hlast]
  intro w hw
  obtain ⟨_, hw', heq⟩ := mem_map.mp hw
  cases heq
  refine ⟨(hx.of_mem mem_cons_self).results _ hw', fun r hr => ?_⟩
  rw [Ledger.of, hext.nature _ (h.results r hr)]
  exact hnatures r hr _ (hmap ▸ mem_map_of_mem hw')

theorem makes_like {code : FlatCode} {operands : List Val} {calls' : Nat → String → Prop}
    (ho : Regular calls L (next d) o)
    (h : Whole calls' L (next d) code operands (o.results.map L.of) []) :
    Makes L d (fun L' n x => Built calls' L' n code (o.results.map L.of) x)
      (Op.make (.flat code) operands (resultTypes o) : Editing Unit Op) := by
  have hsingle := ho.single
  rw [resultTypes]
  cases hresults : o.results with
  | nil =>
    rw [hresults] at h
    exact (makes_step h).imp fun _ _ _ _ hbuilt => hbuilt.1
  | cons r rs =>
    obtain rfl : rs = [] := by
      rw [hresults, length_cons] at hsingle
      exact eq_nil_of_length_eq_zero (by omega)
    rw [hresults] at h
    exact makes_single h

/-! ## Patterns -/

/-- The functions of the library that take the place of other operations. -/
structure Library (C : String → Prop) : Prop where
  input : C "_input"
  print : ∀ t func, printer? t = some func → C func
  concat : C "_list_concat"
  equal : C "_str_eq"

theorem pending_of_library (h : C func) :
    ∀ (i : Nat) (f : String), FlatCode.call func = .call f → pending C rest i f := by
  rintro i f ⟨⟩
  exact .inl h

theorem suits_call (hbodiless : ¬ Bodiless func) (operands results : List Nature) :
    Suits (.call func) operands results :=
  fun h => absurd h hbodiless

theorem Regular.head_nature {n : Nat} {r : Val} (h : Regular calls L n o) (hr : r ∈ o.results) :
    (o.results.head?.map L.of).getD .unknown = L.of r := by
  cases hresults : o.results with
  | nil =>
    rw [hresults] at hr
    cases hr
  | cons v _ =>
    rw [h.nature_result hr (hresults ▸ mem_cons_self)]
    rfl

theorem Library.callPattern (hC : Library C)
    (h : Given funcs (called C) notes (pending C (o.id :: rest)) L d o)
    (hcode : L.code o.id = .call func)
    (hrun : (LibraryCalls.callPattern func o).run d = .ok (u, d')) :
    ∃ L', Tidy funcs (called C) notes (pending C rest) L' d'.program := by
  have hold : Replaceable (L.code o.id) := hcode ▸ trivial
  rw [LibraryCalls.callPattern] at hrun
  split at hrun
  · -- the line that is read has the nature of what was read before
    obtain ⟨L', k, x, hext, hbuilt, hrun⟩ := (makes_single
      (c := (o.results.head?.map L.of).getD .unknown)
      (.leaf (by intro v hv; cases hv) (suits_call (by decide) _ _) (pending_of_library hC.input))).first hrun
    refine ⟨L', h.replacePending hext hold hbuilt.each
      (h.regular.admits hext hbuilt.each hbuilt.natures rfl fun r hr => ?_) hrun⟩
    exact forall_mem_singleton.mpr (.inr (h.regular.head_nature hr))
  split at hrun
  · split at hrun
    · cases hrun
    split at hrun
    next printer hprinter =>
      have hbodiless : ¬ Bodiless printer := by
        unfold LibraryCalls.printer? at hprinter
        split_ifs at hprinter <;> cases hprinter <;> decide
      obtain ⟨L', k, x, hext, ⟨hbuilt, -⟩, hrun⟩ := (makes_step
        (.leaf h.regular.ready.reads (suits_call hbodiless _ _)
          (pending_of_library (hC.print _ _ hprinter)))).first hrun
      exact ⟨L', h.replacePending hext hold hbuilt.each
        (h.regular.admits hext hbuilt.each hbuilt.natures rfl fun _ _ => forall_mem_nil _) hrun⟩
    · cases hrun
  next hinput hprint =>
    cases hrun
    refine ⟨L, h.tidy.met fun x _ hid f hf => ?_⟩
    obtain rfl : func = f := by
      rw [hid, hcode] at hf
      exact FlatCode.call.inj hf
    refine (h.regular.call func hcode).resolve_right fun ⟨hbodiless, _⟩ => ?_
    exact hbodiless.elim hprint hinput

theorem Library.binaryPattern {op : String} (hC : Library C)
    (h : Given funcs (called C) notes (pending C (o.id :: rest)) L d o)
    (hcode : L.code o.id = .binary op)
    (hrun : (LibraryCalls.binaryPattern op o).run d = .ok (u, d')) :
    ∃ L', Tidy funcs (called C) notes (pending C rest) L' d'.program := by
  have hold : Replaceable (L.code o.id) := hcode ▸ trivial
  have hsame : ∀ r ∈ o.results, ∀ c ∈ o.results.map L.of, (L.of r).Admits c := by
    intro r hr
    refine forall_mem_map.mpr fun v hv => ?_
    rw [h.regular.nature_result hr hv]
    exact .refl _
  have hcall {func : String} (hfunc : C func) (hbodiless : ¬ Bodiless func) :
      Makes L d (fun L' n x => Built (pending C rest) L' n (.call func) (o.results.map L.of) x)
        (Op.make (.flat (.call func)) o.operands (LibraryCalls.resultTypes o)) :=
    makes_like h.regular
      (.leaf h.regular.ready.reads (suits_call hbodiless _ _) (pending_of_library hfunc))
  rw [LibraryCalls.binaryPattern] at hrun
  split at hrun
  · obtain ⟨L', k, x, hext, hbuilt, hrun⟩ := (hcall hC.concat (by decide)).first hrun
    exact ⟨L', h.replacePending hext hold hbuilt.each
      (h.regular.admits hext hbuilt.each hbuilt.natures rfl hsame) hrun⟩
  split at hrun
  · obtain ⟨L', k, x, hext, hbuilt, hrun⟩ := (hcall hC.equal (by decide)).first hrun
    exact ⟨L', h.replacePending hext hold hbuilt.each
      (h.regular.admits hext hbuilt.each hbuilt.natures rfl hsame) hrun⟩
  split at hrun
  next hop =>
    -- whether two strings differ is nothing to compute with, before and after
    have hunknown : ∀ c ∈ o.results.map L.of, c = .unknown := by
      have hsuits := h.regular.ready.suits
      have hne : op = "!=" := by
        rw [Bool.and_eq_true, decide_eq_true_eq] at hop
        exact hop.1
      rw [hcode, hne] at hsuits
      exact hsuits
    obtain ⟨_, j, equal, hext1, hequal, hrun⟩ := (hcall hC.equal (by decide)).first hrun
    have hresults := hext1.map_of h.regular.results
    obtain ⟨L', k, x, hext2, hbuilt, hrun⟩ := (makes_like (h.regular.mono hext1)
      (.leaf (hequal.each.of_mem mem_cons_self).results (hresults ▸ hunknown))).first hrun
    have hext := hext1.trans hext2
    rw [hresults] at hbuilt
    have hequal := hequal.mono hext2
    rw [after_after] at hext hbuilt hrun hequal
    exact ⟨L', h.replacePending hext hold (hequal.each.append hbuilt.each)
      (h.regular.admits hext hbuilt.each hbuilt.natures rfl hsame) hrun⟩
  · cases hrun
    refine ⟨L, h.tidy.met fun x _ hid f hf => ?_⟩
    rw [hid, hcode] at hf
    cases hf

/-! ## The round -/

theorem Library.offer (hC : Library C) {i : Nat}
    (h : Tidy funcs (called C) notes (pending C (i :: rest)) L d.program)
    (hrun : (offer pattern i).run d = .ok (u, d')) :
    ∃ L', Tidy funcs (called C) notes (pending C rest) L' d'.program := by
  have hoffer := of_run_step hrun rfl
  cases hfind : d.program.find? i with
  | none =>
    rw [hfind] at hoffer
    cases hoffer
    refine ⟨L, h.met fun o ho hid => ?_⟩
    exact absurd (beq_iff_eq.mpr hid) (List.find?_eq_none.mp hfind o ho)
  | some o =>
    rw [hfind] at hoffer
    obtain rfl : o.id = i := (h.each.of_find? hfind).2
    have hgiven : Given funcs (called C) notes (pending C (o.id :: rest)) L d o := ⟨h, hfind⟩
    have hpattern : (pattern o).run d = .ok (u, d') := hoffer
    rw [pattern, hgiven.regular.flat?] at hpattern
    cases hcode : L.code o.id with
    | call _ =>
      rw [hcode] at hpattern
      exact hC.callPattern hgiven hcode hpattern
    | binary _ =>
      rw [hcode] at hpattern
      exact hC.binaryPattern hgiven hcode hpattern
    | _ =>
      rw [hcode] at hpattern
      cases hpattern
      refine ⟨L, h.met fun x _ hid f hf => ?_⟩
      rw [hid, hcode] at hf
      cases hf

theorem Library.offers (hC : Library C) (ids : List Nat)
    (h : Tidy funcs (called C) notes (pending C ids) L d.program)
    (hrun : (ids.forM (Editing.offer pattern)).run d = .ok (u, d')) :
    ∃ L', Tidy funcs (called C) notes (pending C []) L' d'.program := by
  induction ids generalizing d L with
  | nil =>
    cases hrun
    exact ⟨L, h⟩
  | cons i ids ih =>
    obtain ⟨_, _, hfirst, hrest⟩ := of_run_bind hrun
    obtain ⟨_, h1⟩ := hC.offer h hfirst
    exact ih h1 hrest

theorem Library.run (hC : Library C) {m' : Module}
    (h : Tidy funcs (called C) notes (fun _ => called C) L m) (hremnants : m.remnants = [])
    (hrun : run m = .ok m') : ∃ L', Tidy funcs (called C) notes (fun _ => C) L' m' := by
  have hpending : Tidy funcs (called C) notes (pending C (m.walk.map Op.id)) L m := by
    refine ⟨Module.each_of_placed (fun o ho => ?_) h.each.remnant, called_of_pending, h.numbers,
      h.housed, h.noted⟩
    have hregular := (h.each.of_mem_placed ho).of_mem mem_cons_self
    rw [Module.placed, hremnants, flatMap_nil, append_nil] at ho
    exact hregular.imp fun func hfunc =>
      (hregular.call func hfunc).imp_right fun hb => ⟨hb, mem_map_of_mem ho⟩
  obtain ⟨⟨_, d⟩, hround, rfl⟩ := map_eq_ok_iff.mp hrun
  replace hround := of_run_step hround rfl
  replace hround := of_run_step hround rfl
  obtain ⟨L', h'⟩ := hC.offers _ (d := { program := m, memo := () }) hpending hround
  refine ⟨L', ⟨h'.each.mono (fun o ho => ho.imp fun func hfunc => ?_) fun _ ho => ho,
    fun _ _ => .inl, h'.numbers, h'.housed, h'.noted⟩⟩
  exact (ho.call func hfunc).resolve_right fun hb => not_mem_nil hb.2

end

/-! ## Definitions of operands -/

open Folding Ledger

variable {op : String} {side : Side} {a b v : Val} {g : Regrouping} {n : Nat} {l r : Op} {c : Nature}
  {lit : Leaf → Bool} {e : Nested} {k : Int}

/-- An operation defines a value. It may have been taken out of the program. -/
structure Defines (C : String → Prop) (L : Ledger) (n : Nat) (v : Val) (l : Op) : Prop where
  regular : Regular (fun _ => called C) L n l
  nested : ∀ b ∈ l.regions, Each (Regular (fun _ => C) L n) b.ops
  result : ∃ r ∈ l.results, r.id = v.id

theorem Tidy.defines (h : Tidy funcs (called C) notes (fun _ => C) L m)
    (hdef : m.definition? v = some l) : Defines C L m.next v l := by
  obtain ⟨hregular, hnested, hresult⟩ := h.each.of_definition? hdef
  refine ⟨hregular.elim (fun hplaced => hplaced.imp fun f hf => ?_) id, hnested, hresult⟩
  exact .inl (hplaced.call f hf)

section
variable (h : Defines C L n v l)
include h

theorem Defines.of_mem {r : Val} (hr : r ∈ l.results) : r.id = v.id := by
  obtain ⟨_, hr', hid⟩ := h.result
  rw [h.regular.nature_result hr hr', hid]

theorem Defines.nature_mem : L.of v ∈ l.results.map L.of := by
  obtain ⟨r, hr, hid⟩ := h.result
  refine mem_map.mpr ⟨r, hr, ?_⟩
  rw [of, hid]
  rfl

theorem Defines.suits {code : FlatCode} (hflat : l.flat? = some code) :
    Suits code (l.operands.map L.of) (l.results.map L.of) := by
  rw [h.regular.flat?] at hflat
  rw [← Option.some.inj hflat]
  exact h.regular.ready.suits

theorem Defines.nature_literal {a : Literal} (hliteral : literal? l = some a) :
    L.of v = .ofLiteral a := by
  unfold literal? at hliteral
  split at hliteral
  next hflat =>
    cases hliteral
    exact h.suits hflat _ h.nature_mem
  · cases hliteral

theorem Defines.nature_int (hint : int? l = some k) : L.of v = .integer := by
  unfold int? at hint
  split at hint
  next hliteral => exact h.nature_literal hliteral
  · cases hint

theorem Defines.each (hinteger : L.of v = .integer) : Each (Regular (fun _ => C) L n) [l] := by
  refine Each.singleton_iff.mpr ⟨h.regular.imp fun f hf => ?_, h.nested⟩
  refine (h.regular.call f hf).resolve_right fun hbodiless => ?_
  have hsuits := h.regular.ready.suits
  rw [hf] at hsuits
  exact hsuits hbodiless _ h.nature_mem hinteger

end

/-! ## Operators -/

theorem simplify_arithmetic {s : Folding.Simplified} (h : simplify op k side = some s) :
    Arithmetic op := by
  unfold simplify at h
  split at h
  · split at h <;> first | rfl | cases h
  split at h
  · split at h <;> first | rfl | cases h
  · cases h

theorem binary_int (hop : Arithmetic op) {j : Int} {v : Value}
    (h : Value.binary op (.int j) (.int k) = .ok v) : ∃ i, v = .int i := by
  have hvalue {p : Option Int} (hp : valueOf? p = .ok v) : ∃ i, v = .int i := by
    unfold valueOf? at hp
    split at hp
    · exact ⟨_, (Except.ok.inj hp).symm⟩
    · cases hp
  simp only [Arithmetic, Typing.arithmetic, contains_eq_mem, mem_cons, not_mem_nil, or_false,
    decide_eq_true_eq] at hop
  obtain rfl | rfl | rfl | rfl | rfl := hop
  iterate 3
    · exact ⟨_, (Except.ok.inj h).symm⟩
  · rw [computes_floorDiv] at h
    exact hvalue h
  · rw [computes_modulo] at h
    exact hvalue h

/-! ## Binary expressions -/

theorem Tidy.operands (h : Tidy funcs (called C) notes (fun _ => C) L m)
    (hparts : Folding.OperandsOf m o l r) : ∃ a b rest, o.operands = a :: b :: rest ∧
      Defines C L m.next a l ∧ Defines C L m.next b r := by
  obtain ⟨a, b, rest, hoperands, hl, hr⟩ := hparts
  exact ⟨a, b, rest, hoperands, h.defines hl, h.defines hr⟩

theorem nature_of_arithmetic {operands : List Val} {results : List Nature}
    (h : Suits (.binary op) ((a :: b :: operands).map L.of) results) (hop : Arithmetic op) :
    ∃ c, c ≠ .unknown ∧ L.of a = c ∧ L.of b = c ∧ ∀ x ∈ results, x = c := by
  rw [Suits, if_pos hop] at h
  obtain ⟨c, hc, hoperands, hresults⟩ := h
  simp only [map_cons, forall_mem_cons] at hoperands
  exact ⟨c, hc, hoperands.1, hoperands.2.1, hresults⟩

theorem makes_newBinary (C : String → Prop) (hop : Arithmetic op)
    (hc : c ≠ .unknown) (ha : Valued L (next d) c a) (hb : Valued L (next d) c b) :
    Makes L d (fun L' n r => Built (fun _ => C) L' n (.binary op) [c] r.1 ∧ Valued L' n c r.2)
      (newBinary op a b) :=
  (makes_value (.arithmetic hop hc ha hb)).imp fun _ _ _ _ hbuilt => ⟨hbuilt.1, hbuilt.2.1⟩

/-- The leaves of a nested expression of arithmetic have the nature of the expression. -/
def LeavesOf (C : String → Prop) (L : Ledger) (n : Nat) (c : Nature) (e : Folding.Nested) : Prop :=
  ∀ k, ∃ v, Defines C L n v (e.leaf k) ∧ L.of v = c

theorem LeavesOf.valued {k : Folding.Leaf}
    (h : LeavesOf C L n c e) (hhead : (e.leaf k).results.head? = some v) : Valued L n c v := by
  obtain ⟨w, hdefines, hnature⟩ := h k
  have hmem := mem_of_mem_head? hhead
  refine ⟨hdefines.regular.results v hmem, ?_⟩
  rw [of, hdefines.of_mem hmem]
  exact hnature

theorem Tidy.parts {x y : Op} (h : Tidy funcs (called C) notes (fun _ => C) L m)
    (hv : Defines C L m.next v l) (hflat : l.flat? = some (.binary op))
    (hparts : Folding.OperandsOf m l x y) (hop : Arithmetic op) :
    (∃ a, Defines C L m.next a x ∧ L.of a = L.of v) ∧
      ∃ b, Defines C L m.next b y ∧ L.of b = L.of v := by
  obtain ⟨a, b, _, hl, ha, hb⟩ := h.operands hparts
  have hsuits := hv.suits hflat
  rw [hl] at hsuits
  obtain ⟨c, -, hac, hbc, hresults⟩ := nature_of_arithmetic hsuits hop
  have hvc := hresults _ hv.nature_mem
  exact ⟨⟨a, ha, hac.trans hvc.symm⟩, b, hb, hbc.trans hvc.symm⟩

theorem Tidy.leaves (h : Tidy funcs (called C) notes (fun _ => C) L m) (ha : Defines C L m.next a l)
    (hb : Defines C L m.next b r) (hleaves : Folding.Leaves m l r e)
    (hinner : Arithmetic e.inner) (hab : L.of a = L.of b) : LeavesOf C L m.next (L.of a) e := by
  cases hleaves with
  | left code parts =>
    obtain ⟨hx, hy⟩ := h.parts ha code parts hinner
    rintro (_ | _ | _)
    exacts [hx, hy, ⟨b, hb, hab.symm⟩]
  | right code parts =>
    obtain ⟨hy, hz⟩ := h.parts hb code parts hinner
    rw [← hab] at hy hz
    rintro (_ | _ | _)
    exacts [⟨a, ha, rfl⟩, hy, hz]

theorem arithmetic_flipped (h : Arithmetic op) : Arithmetic (flipped op) := by
  unfold flipped
  split
  · rfl
  · rfl
  · exact h

theorem regroupSame_arithmetic (hop : Arithmetic op) (h : regroupSame op side lit = some g) :
    Arithmetic g.inner ∧ Arithmetic g.outer := by
  have hflipped := arithmetic_flipped hop
  unfold regroupSame at h
  split at h <;> split at h
  · cases h
    exact ⟨hflipped, hop⟩
  · split at h <;> cases h
    exact ⟨hop, hop⟩
  · cases h
    exact ⟨hop, hflipped⟩
  · split at h <;> cases h
    exact ⟨hflipped, hop⟩

theorem regroupMixed_arithmetic {outer inner : String} (houter : Arithmetic outer)
    (hinner : Arithmetic inner) (h : regroupMixed outer inner side lit = some g) :
    Arithmetic g.inner ∧ Arithmetic g.outer := by
  unfold regroupMixed at h
  split at h <;> split at h
  · cases h
    split <;> exact ⟨rfl, rfl⟩
  · split at h <;> cases h
    exact ⟨houter, hinner⟩
  · cases h
    exact ⟨houter, rfl⟩
  · split at h <;> cases h
    exact ⟨rfl, houter⟩

theorem regroup_arithmetic {outer inner : String} (h : regroup outer inner side lit = some g) :
    (Arithmetic outer ∧ Arithmetic inner) ∧ Arithmetic g.inner ∧ Arithmetic g.outer := by
  unfold regroup at h
  split at h
  next heq =>
    split at h
    next hop =>
      have hop : Arithmetic outer := by
        simp only [contains_eq_mem, decide_eq_true_eq, Arithmetic, Typing.arithmetic, mem_cons,
          not_mem_nil, or_false] at hop ⊢
        grind
      exact ⟨⟨hop, heq ▸ hop⟩, regroupSame_arithmetic hop h⟩
    · cases h
  split at h
  next hops =>
    have hops : Arithmetic outer ∧ Arithmetic inner := by
      simp only [Bool.or_eq_true, Bool.and_eq_true, decide_eq_true_eq] at hops
      obtain ⟨rfl, rfl⟩ | ⟨rfl, rfl⟩ := hops <;> exact ⟨rfl, rfl⟩
    exact ⟨hops, regroupMixed_arithmetic hops.1 hops.2 h⟩
  · cases h

theorem comparable_cases {x y : Value} (ha : Defines C L n a l)
    (h : comparable? l r = some (x, y)) :
    (L.of a = .integer ∧ ∃ j k, x = .int j ∧ y = .int k) ∨ L.of a = .unknown := by
  unfold comparable? at h
  split at h
  next hl _ =>
    cases h
    exact .inl ⟨ha.nature_literal hl, _, _, rfl, rfl⟩
  next hl _ => exact .inr (ha.nature_literal hl)
  · cases h

theorem evaluate_int {same : Bool} {j : Int} {v : Value}
    (hop : Arithmetic op) (h : evaluate op same (.int j) (.int k) = .ok v) : ∃ i, v = .int i := by
  have his : op ≠ "is" := by
    rintro rfl
    cases hop
  rw [evaluate, decide_eq_false his] at h
  exact binary_int hop h

theorem oneInt_cases {other : Op} (ha : Defines C L n a l) (hb : Defines C L n b r)
    (hab : L.of a = L.of b) (h : oneInt? l r = some (k, side, other)) :
    L.of a = .integer ∧ ∃ v, Defines C L n v other ∧ L.of v = .integer := by
  unfold oneInt? at h
  split at h
  next hl _ =>
    cases h
    have hnature := ha.nature_int hl
    exact ⟨hnature, b, hb, hab ▸ hnature⟩
  next _ hr =>
    cases h
    have hnature := hb.nature_int hr
    exact ⟨hab.trans hnature, a, ha, hab.trans hnature⟩
  · cases h

/-! ## New operations -/

section
variable (h : Given funcs (called C) notes (fun _ => C) L d o) (hold : Replaceable (L.code o.id))
include h hold

theorem Given.putLiteral {v : Value}
    (hadmits : ∀ r ∈ o.results, (L.of r).Admits (.ofLiteral (literalOf v)))
    (hrun : (putLiteral o v).run d = .ok (u, d')) :
    ∃ L', Tidy funcs (called C) notes (fun _ => C) L' d'.program := by
  obtain ⟨L', k, x, hext, hbuilt, hrun⟩ := (makes_single (.literal _)).first hrun
  exact ⟨L', h.replace hext hold hbuilt.each (h.regular.admits hext hbuilt.each hbuilt.natures rfl
    fun r hr => forall_mem_singleton.mpr (hadmits r hr)) hrun⟩

theorem Given.keepBlock {k : Nat} {value : Option Val}
    (hvalue : ∀ w, value = some w → w.id < next d ∧ ∀ r ∈ o.results, (L.of r).Admits (L.of w))
    (hrun : (keepBlock o k value).run d = .ok (u, d')) :
    ∃ L', Tidy funcs (called C) notes (fun _ => C) L' d'.program := by
  have hregular := h.known
  have hblocks := (Each.singleton_iff.mp h.each).2
  refine ⟨L, h.replaceLeaving (k := 0) (.refl L _) hold (fun _ _ _ hc => hc) h.tidy.known
    (h.each.regionOps k) ?_ ?_ ?_ hrun⟩
  · refine ⟨hregular.code, hregular.below, hregular.results, hregular.single, hregular.call,
      hregular.ready.reads, hregular.ready.suits, fun hbare => ?_, fun hchoice b hb y hy => ?_⟩
    · rw [Op.regions_withRegions, hregular.ready.bare hbare]
      rfl
    · obtain hb | rfl := mem_or_eq_of_mem_set hb
      · exact hregular.ready.closes hchoice b hb y hy
      · cases hy
  · intro b hb
    obtain hb | rfl := mem_or_eq_of_mem_set hb
    · exact hblocks b hb
    · exact Each.nil
  · intro w hw
    exact hvalue w (mem_singleton.mp hw).symm

variable (hresults : ∀ x ∈ o.results.map L.of, x = c)
include hresults

theorem Given.putValue {new : List Op} {w : Val} {k : Nat}
    (hext : L.Extends (next d) L' (next (after d k)))
    (hnew : Each (Regular (fun _ => C) L' (next (after d k))) new)
    (hw : Valued L' (next (after d k)) c w)
    (hrun : (Editing.replace o new [some w]).run (after d k) = .ok (u, d')) :
    ∃ L', Tidy funcs (called C) notes (fun _ => C) L' d'.program := by
  refine ⟨L', h.replace hext hold hnew (fun _ hw' => ?_) hrun⟩
  cases mem_singleton.mp hw'
  refine ⟨hw.below, fun r hr => .inr ?_⟩
  rw [hw.nature, of, hext.nature _ (h.regular.results r hr)]
  exact (hresults _ (mem_map_of_mem hr)).symm

theorem Given.putRemainder (hc : c ≠ .unknown) (ha : Valued L (next d) c a)
    (hb : Valued L (next d) c b) (hrun : (putRemainder o a b).run d = .ok (u, d')) :
    ∃ L', Tidy funcs (called C) notes (fun _ => C) L' d'.program := by
  obtain ⟨_, k, _, hext, ⟨hbuilt, hvalued⟩, hrun⟩ := (makes_newBinary C rfl hc ha hb).first hrun
  exact h.putValue hold hresults hext hbuilt.each hvalued hrun

theorem Given.putRegrouped {x y z : Val} (hc : c ≠ .unknown) (hleaves : LeavesOf C L (next d) c e)
    (hinner : Arithmetic g.inner) (houter : Arithmetic g.outer) (hreads : g.Reads e.leaf x y z)
    (hrun : (putRegrouped o g x y z).run d = .ok (u, d')) :
    ∃ L', Tidy funcs (called C) notes (fun _ => C) L' d'.program := by
  obtain ⟨hx, hy, hz⟩ := hreads
  obtain ⟨_, j, ⟨first, v⟩, hext1, ⟨hfirst, hv⟩, hrun1⟩ :=
    (makes_newBinary C hinner hc (hleaves.valued hx) (hleaves.valued hy)).first hrun
  obtain ⟨_, k, ⟨_, w⟩, hext2, ⟨hsecond, hw⟩, hrun2⟩ :=
    (makes_newBinary C houter hc hv ((hleaves.valued hz).mono hext1)).first hrun1
  have hext := hext1.trans hext2
  have hfirst := hfirst.mono hext2
  rw [after_after] at hext hfirst hsecond hw hrun2
  exact h.putValue hold hresults hext (hfirst.each.append hsecond.each) hw hrun2

end

/-! ## The pass -/

theorem keptBy_folding :
    KeptBy (fun m (_ : Unit) => ∃ L, Tidy funcs (called C) notes (fun _ => C) L m) pattern := by
  rintro d u _ o ⟨L, htidy⟩ hfind hrun
  have h : Given funcs (called C) notes (fun _ => C) L d o := ⟨htidy, hfind⟩
  have hcode {kind : FlatCode} (hflat : o.flat? = some kind) : L.code o.id = kind :=
    Option.some.inj (h.regular.flat?.symm.trans hflat)
  have hsuits {kind : FlatCode} (hflat : o.flat? = some kind) :
      Suits kind (o.operands.map L.of) (o.results.map L.of) :=
    hcode hflat ▸ h.regular.ready.suits
  -- the nature of an expression of arithmetic, and of what defines its operands
  have harithmetic {op : String} {l r : Op} (hflat : o.flat? = some (.binary op))
      (hparts : Folding.OperandsOf d.program o l r) (hop : Arithmetic op) :
      ∃ a b, Defines C L (next d) a l ∧ Defines C L (next d) b r ∧ L.of a = L.of b ∧
        L.of a ≠ .unknown ∧ ∀ x ∈ o.results.map L.of, x = L.of a := by
    obtain ⟨a, b, _, hoperands, ha, hb⟩ := htidy.operands hparts
    obtain ⟨c, hc, rfl, hbc, hresults⟩ := nature_of_arithmetic (hoperands ▸ hsuits hflat) hop
    exact ⟨a, b, ha, hb, hbc.symm, hc, hresults⟩
  have hinteger {op : String} {l r other : Op} {k : Int} {side : Folding.Side}
      {s : Folding.Simplified} (hflat : o.flat? = some (.binary op))
      (hparts : Folding.OperandsOf d.program o l r)
      (hone : oneInt? l r = some (k, side, other))
      (hs : simplify op k side = some s) : (∀ q ∈ o.results.map L.of, q = .integer) ∧
        ∃ v, Defines C L (next d) v other ∧ L.of v = .integer := by
    obtain ⟨a, b, ha, hb, hab, -, hresults⟩ := harithmetic hflat hparts (simplify_arithmetic hs)
    obtain ⟨hint, hother⟩ := oneInt_cases ha hb hab hone
    exact ⟨hint ▸ hresults, hother⟩
  cases folds_of_run hrun with
  | idle heq =>
    rw [heq]
    exact ⟨L, htidy⟩
  | unary hflat hvalue hput =>
    refine h.putLiteral (hcode hflat ▸ trivial) (fun r hr => ?_) hput
    have hnature := hsuits hflat _ (mem_map_of_mem hr)
    split at hnature
    next hop =>
      obtain ⟨n, rfl⟩ := hvalue hop
      exact .inr hnature.symm
    · rw [hnature]
      exact Nature.admits_unknown _
  | @constant op l r x y v hflat hparts hliterals hvalue hput =>
    refine h.putLiteral (hcode hflat ▸ trivial) (fun q hq => ?_) hput
    have hq := mem_map_of_mem (f := L.of) hq
    by_cases hop : Arithmetic op
    · obtain ⟨a, b, ha, -, -, hc, hresults⟩ := harithmetic hflat hparts hop
      obtain ⟨hint, j, k, rfl, rfl⟩ | hunknown := comparable_cases ha hliterals
      · obtain ⟨i, rfl⟩ := evaluate_int hop hvalue
        rw [hresults _ hq, hint]
        exact .refl _
      · exact absurd hunknown hc
    · have hunknown := hsuits hflat
      rw [Suits, if_neg hop] at hunknown
      rw [hunknown _ hq]
      exact Nature.admits_unknown _
  | zero hflat hparts hone hs hput =>
    refine h.putLiteral (hcode hflat ▸ trivial) (fun q hq => .inr ?_) hput
    exact ((hinteger hflat hparts hone hs).1 _ (mem_map_of_mem hq)).symm
  | other hflat hparts hone hs hput =>
    obtain ⟨hresults, v, hdefines, hnature⟩ := hinteger hflat hparts hone hs
    obtain ⟨L', k, x, hext, ⟨heach, hnatures, -⟩, hput⟩ :=
      (makes_copy (hdefines.each hnature)).first hput
    refine ⟨L', h.replace hext (hcode hflat ▸ trivial) heach
      (h.regular.admits hext heach hnatures rfl fun q hq => ?_) hput⟩
    refine forall_mem_map.mpr fun w hw => .inr ?_
    rw [of, hdefines.of_mem hw]
    exact hnature.trans (hresults _ (mem_map_of_mem hq)).symm
  | remainder hflat hparts hleaves hinner hleft hright hput =>
    obtain ⟨a, b, ha, hb, hab, hc, hresults⟩ := harithmetic hflat hparts rfl
    have hleaves := htidy.leaves ha hb hleaves (hinner ▸ rfl) hab
    exact h.putRemainder (hcode hflat ▸ trivial) hresults hc (hleaves.valued hleft)
      (hleaves.valued hright) hput
  | regrouped hflat hparts hleaves hg hreads hput =>
    obtain ⟨⟨hop, hinner⟩, hginner, hgouter⟩ := regroup_arithmetic hg
    obtain ⟨a, b, ha, hb, hab, hc, hresults⟩ := harithmetic hflat hparts hop
    exact h.putRegrouped (hcode hflat ▸ trivial) hresults hc
      (htidy.leaves ha hb hleaves hinner hab) hginner hgouter hreads hput
  | @block _ k _ hflat hvalue hput =>
    obtain ⟨rfl, rfl⟩ | ⟨hkind, y, hy, -, rfl⟩ := hvalue
    · exact h.keepBlock (hcode hflat ▸ trivial) (by intro w hw; cases hw) hput
    obtain rfl | ⟨op, rfl⟩ := hkind
    · refine h.keepBlock (hcode hflat ▸ trivial) (fun w hw => ?_) hput
      obtain hempty | ⟨b, hb, hops⟩ := o.regionOps_cases k
      · simp [hempty] at hy
      have hcloses := h.regular.ready.closes (hcode hflat) b hb y (hops ▸ hy)
      exact (hcloses.value w (mem_of_mem_head? hw)).imp_right
        fun hadmits r hr => hadmits _ (mem_map_of_mem hr)
    · refine h.keepBlock (hcode hflat ▸ trivial) (fun w hw => ⟨?_, fun r hr => ?_⟩) hput
      · have hregular := (h.each.regionOps _).of_mem (mem_of_getLast? hy)
        exact hregular.ready.reads w (mem_of_mem_head? hw)
      · rw [hsuits hflat _ (mem_map_of_mem hr)]
        exact Nature.admits_unknown _

theorem Tidy.folding {m' : Module} (h : Tidy funcs (called C) notes (fun _ => C) L m)
    (hrun : run m = .ok m') : ∃ L', Tidy funcs (called C) notes (fun _ => C) L' m' :=
  (keptBy_folding.exhaust .forward).apply ⟨L, h⟩ hrun |>.elim fun _ h' => h'

end Practicum.Flat
