import Practicum.Flat.Tidying
import Practicum.Proofs.Flat.Making

/-!
# Tidy programs

A program of the flat level is tidy if its operations are regular in one ledger and its functions
stand in the body of the main function. The passes that take out dead code, share literals and
unroll loops over elements make only exchanges that keep a program tidy.
-/

namespace Practicum.Flat

open List hiding replace

open Choco IR Editing Numbered
open Module
open ForLoop
open Each

def Notes (K : String → Prop) (L : Ledger) (n : Nat) (entry : Literal × Op) : Prop :=
  Regular (fun _ => K) L n entry.2 ∧ L.code entry.2.id = .literal entry.1

variable {entry : Literal × Op}

theorem Notes.mono {K : String → Prop} {L L' : Ledger} {n n' : Nat} (h : Notes K L n entry)
    (hext : L.Extends n L' n') : Notes K L' n' entry :=
  ⟨h.1.mono hext, (hext.code _ h.1.below).trans h.2⟩

/-- A program is as a ledger has it, and its functions have numbers of their own. What was taken
out of the program may still call what its operations call no more. Literals that are noted are in
the ledger as well. -/
structure Tidy (funcs : Nat → Option String) (K : String → Prop) (notes : SharedLiterals.Table)
    (calls : Nat → String → Prop) (L : Ledger) (m : Module) : Prop where
  each : m.Each (Regular calls L m.next) (Regular (fun _ => K) L m.next)
  known : ∀ i f, calls i f → K f
  numbers : ∀ i f, funcs i = some f → i < m.next ∧ ∃ r, L.code i = .funcDef f r
  housed : Housed (fun o f => funcs o.id = some f) (Named funcs) m.ops
  noted : ∀ entry ∈ notes, Notes K L m.next entry

variable {funcs : Nat → Option String} {K : String → Prop} {notes : SharedLiterals.Table}
  {calls calls' : Nat → String → Prop} {L L' : Ledger} {m m' : Module} {n : Nat} {u : Unit}
  {new : List Op}

theorem Tidy.widen (h : Tidy funcs K notes calls L m) (hext : L.Extends m.next L' n) :
    Tidy funcs K notes calls L' { m with next := n } where
  each := (h.each.mono (fun _ ho => ho.mono hext) fun _ ho => ho.mono hext).withNext n
  numbers i f hf := by
    obtain ⟨hlt, r, hr⟩ := h.numbers i f hf
    exact ⟨Nat.lt_of_lt_of_le hlt hext.le, r, (hext.code i hlt).trans hr⟩
  known := h.known
  housed := h.housed
  noted entry hentry := (h.noted entry hentry).mono hext

/-! ## Other values are read -/

theorem admits_reread {changes : List (Val × Val)}
    (h : ∀ c ∈ changes, c.2.id < n ∧ (L.of c.1).Admits (L.of c.2)) {v : Val} (hv : v.id < n) :
    (reread changes v).id < n ∧ (L.of v).Admits (L.of (reread changes v)) := by
  obtain heq | ⟨c, hc, hid, heq⟩ := reread_cases changes v
  · rw [heq]
    exact ⟨hv, .refl _⟩
  · rw [heq, Ledger.of, ← hid]
    exact h c hc

theorem Tidy.renamed (h : Tidy funcs K notes calls L m) (changes : List (Val × Val))
    (hchanges : ∀ c ∈ changes, c.2.id < m.next ∧ (L.of c.1).Admits (L.of c.2)) :
    Tidy funcs K notes calls L (m.renamed changes) where
  each := by
    rw [next_renamed]
    exact h.each.renamed (fun o ho => ho.rename fun v hv => admits_reread hchanges hv)
      fun o ho => ho.renameInside fun v hv => admits_reread hchanges hv
  known := h.known
  numbers := by
    rw [next_renamed]
    exact h.numbers
  housed := h.housed.renamed (fun _ _ _ hf hid _ => hid ▸ hf) changes
  noted := by
    rw [next_renamed]
    exact h.noted

/-! ## Operations are replaced -/

theorem Tidy.splice {f : Op → Option (List Op)} (h : Tidy funcs K notes calls L m)
    (hyield : ∀ x, L.code x.id = .yield → f x = none)
    (hcalls : ∀ o, f o = none → ∀ func, calls o.id func → calls' o.id func)
    (hknown : ∀ i func, calls' i func → K func)
    (hnew : ∀ x new, Regular calls L m.next x → f x = some new → Each (Regular calls' L m.next) new)
    (hfunc : ∀ o ∈ m.walk, ∀ func new, funcs o.id = some func → f o = some new →
      ∃ x, new = [x] ∧ funcs x.id = some func ∧ (m.ops = [o] → o.regionOps 0 ⊆ x.regionOps 0)) :
    Tidy funcs K notes calls' L (m.splice f) where
  each := h.each.splice (fun o ho hregular => hregular.splice hyield (hcalls o ho))
    (fun _ ho => ho.splice hyield fun _ hK => hK) hnew
  known := hknown
  numbers := h.numbers
  housed := h.housed.splice (fun _ _ _ hf hid _ => hid ▸ hf) hfunc
  noted := h.noted

/-- Whether an operation may be replaced: it is neither a function nor the end of a block. -/
def Replaceable : FlatCode → Prop
  | .funcDef .. | .yield => False
  | _ => True

theorem Tidy.exchanged {husk old : Op} (h : Tidy funcs K notes calls L m)
    (hold : Replaceable (L.code old.id))
    (hcalls : ∀ i func, i ≠ old.id → calls i func → calls' i func)
    (hknown : ∀ i func, calls' i func → K func) (hnew : Each (Regular calls' L m.next) new)
    (hhusk : Regular (fun _ => K) L m.next husk)
    (hnested : ∀ b ∈ husk.regions, Each (Regular calls' L m.next) b.ops) :
    Tidy funcs K notes calls' L (m.exchanged husk old new) := by
  have hsplice : Tidy funcs K notes calls' L (m.splice (swap old new)) := by
    refine h.splice (fun x hx => ?_) (fun o ho func => ?_) hknown (fun x new' _ hswap => ?_)
      fun o _ func new' hfunc hswap => ?_
    · rw [swap_eq_none_iff]
      intro hid
      rw [← hid, hx] at hold
      exact hold
    · exact hcalls _ func (swap_eq_none_iff.mp ho)
    · rw [(swap_eq_some_iff.mp hswap).2]
      exact hnew
    · obtain ⟨-, r, hr⟩ := h.numbers _ _ hfunc
      rw [(swap_eq_some_iff.mp hswap).1] at hr
      rw [hr] at hold
      exact hold.elim
  refine ⟨⟨hsplice.each.ops, ?_, ?_⟩, hknown, hsplice.numbers, hsplice.housed, hsplice.noted⟩
  · exact forall_mem_cons.mpr ⟨hhusk, hsplice.each.remnant⟩
  · exact forall_mem_cons.mpr ⟨hnested, hsplice.each.nested⟩

/-! ## Patterns -/

section
variable {σ : Type} {d d' : Draft σ} {o : Op} {u : Unit}

/-- A pattern is given an operation of a tidy program. -/
structure Given (funcs : Nat → Option String) (K : String → Prop) (notes : SharedLiterals.Table)
    (calls : Nat → String → Prop) (L : Ledger) (d : Draft σ) (o : Op) : Prop where
  tidy : Tidy funcs K notes calls L d.program
  found : d.program.find? o.id = some o

section
variable (h : Given funcs K notes calls L d o) {values : List (Option Val)}
include h

theorem Given.each : Each (Regular calls L (next d)) [o] :=
  (h.tidy.each.of_find? h.found).1

theorem Given.regular : Regular calls L (next d) o :=
  h.each.of_mem mem_cons_self

theorem Given.known : Regular (fun _ => K) L (next d) o :=
  h.regular.imp fun f hf => h.tidy.known _ f (h.regular.call f hf)

theorem Given.replaceLeaving {husk : Op} {k : Nat} (hext : L.Extends (next d) L' (next (after d k)))
    (hold : Replaceable (L.code o.id)) (hcalls : ∀ i func, i ≠ o.id → calls i func → calls' i func)
    (hknown : ∀ i func, calls' i func → K func)
    (hnew : Each (Regular calls' L' (next (after d k))) new)
    (hhusk : Regular (fun _ => K) L' (next (after d k)) husk)
    (hnested : ∀ b ∈ husk.regions, Each (Regular calls' L' (next (after d k))) b.ops)
    (hvalues : ∀ w, some w ∈ values →
      w.id < next (after d k) ∧ ∀ r ∈ o.results, (L'.of r).Admits (L'.of w))
    (hrun : (replaceLeaving husk o new values).run (after d k) = .ok (u, d')) :
    Tidy funcs K notes calls' L' d'.program := by
  rw [run_replaceLeaving] at hrun
  cases hrun
  have hcode := hext.code _ h.regular.below
  refine ((h.tidy.widen hext).exchanged (hcode ▸ hold) hcalls hknown hnew hhusk hnested).renamed _
    fun c hc => ?_
  obtain ⟨hresult, hvalue⟩ := mem_successors hc
  exact ⟨(hvalues _ hvalue).1, (hvalues _ hvalue).2 _ hresult⟩

theorem Given.replace {k : Nat} (hext : L.Extends (next d) L' (next (after d k)))
    (hold : Replaceable (L.code o.id)) (hnew : Each (Regular calls L' (next (after d k))) new)
    (hvalues : ∀ w, some w ∈ values →
      w.id < next (after d k) ∧ ∀ r ∈ o.results, (L'.of r).Admits (L'.of w))
    (hrun : (replace o new values).run (after d k) = .ok (u, d')) :
    Tidy funcs K notes calls L' d'.program :=
  h.replaceLeaving hext hold (fun _ _ _ hc => hc) h.tidy.known hnew (h.known.mono hext)
    (fun b hb => each_mono ((singleton_iff.mp h.each).2 b hb) hext) hvalues hrun

theorem Given.erase (hold : Replaceable (L.code o.id)) (hrun : (erase o).run d = .ok (u, d')) :
    Tidy funcs K notes calls L d'.program :=
  h.replace (k := 0) (.refl L _) hold nil (by intro w hw; cases hw) hrun

theorem Given.replaceable {v : Val} (hv : v ∈ o.results) : Replaceable (L.code o.id) := by
  have hsuits := h.regular.ready.suits
  cases hcode : L.code o.id with
  | funcDef | yield =>
    rw [hcode] at hsuits
    rw [map_eq_nil_iff.mp hsuits] at hv
    cases hv
  | _ => trivial

end

end

/-! ## Dead code -/

theorem keptBy_storePattern {d d' : Draft Unit} {o : Op} (h : Given funcs K notes calls L d o)
    (hold : Replaceable (L.code o.id)) (hrun : (DeadCode.storePattern o).run d = .ok (u, d')) :
    Tidy funcs K notes calls L d'.program := by
  rw [DeadCode.storePattern] at hrun
  split at hrun
  · cases hrun
  obtain ⟨_, _, hlook, hrun⟩ := of_run_bind hrun
  cases (run_definition hlook).2
  split at hrun
  · cases hrun
    exact h.tidy
  · replace hrun := of_run_step hrun rfl
    split at hrun
    · exact h.erase hold hrun
    · cases hrun
      exact h.tidy

theorem keptBy_deadCode :
    KeptBy (fun m (_ : Unit) => ∃ L, Tidy funcs K notes calls L m) DeadCode.pattern := by
  rintro d u _ o ⟨L, htidy⟩ hfind hrun
  have h : Given funcs K notes calls L d o := ⟨htidy, hfind⟩
  rw [DeadCode.pattern, h.regular.flat?] at hrun
  split at hrun
  next hcode => exact ⟨L, keptBy_storePattern h (Option.some.inj hcode ▸ trivial) hrun⟩
  case h_6 =>
    obtain ⟨_, _, hlook, hrun⟩ := of_run_bind hrun
    rw [DeadCode.unread] at hlook
    split at hlook
    · cases hlook
      cases hrun
      exact ⟨L, htidy⟩
    next hresults =>
      cases hlook
      split at hrun
      · have hmem := hresults ▸ mem_cons_self
        exact ⟨L, h.erase (h.replaceable hmem) hrun⟩
      · cases hrun
        exact ⟨L, htidy⟩
  all_goals
    cases hrun
    exact ⟨L, htidy⟩

theorem Tidy.deadCode (h : Tidy funcs K notes calls L m) (hrun : DeadCode.run m = .ok m') :
    ∃ L', Tidy funcs K notes calls L' m' :=
  (keptBy_deadCode.exhaust .backward).apply ⟨L, h⟩ hrun |>.elim fun _ h' => h'

/-! ## Shared literals -/

theorem Regular.of_literal {o : Op} {v : Literal} {r : Val} (h : Regular calls L n o)
    (hcode : L.code o.id = .literal v) (hr : r ∈ o.results) : Valued L n (.ofLiteral v) r := by
  refine ⟨h.results r hr, ?_⟩
  have hsuits := h.ready.suits
  rw [hcode] at hsuits
  exact hsuits _ (mem_map_of_mem hr)

/-- A program is tidy, and what is remembered is noted. -/
def Shares (funcs : Nat → Option String) (K C : String → Prop) (m : Module)
    (table : SharedLiterals.Table) : Prop :=
  ∃ L, Tidy funcs K table (fun _ => C) L m

variable {C : String → Prop} {table : SharedLiterals.Table} {main : Op}

theorem keptBy_shareLiterals : KeptBy (Shares funcs K C) SharedLiterals.pattern := by
  rintro d u _ o ⟨L, htidy⟩ hfind hrun
  have h : Given funcs K d.memo (fun _ => C) L d o := ⟨htidy, hfind⟩
  rw [SharedLiterals.pattern, h.regular.flat?] at hrun
  split at hrun
  next v hcode =>
    have hliteral := Option.some.inj hcode
    replace hrun := of_run_step hrun rfl
    split at hrun
    next known hknown =>
      obtain ⟨hregular, hcode'⟩ := htidy.noted _ (mem_of_lookup_eq_some hknown)
      have htidy' := h.replace (k := 0) (.refl L _) (hliteral ▸ trivial) nil (fun w hw => by
        obtain ⟨_, hw, heq⟩ := mem_map.mp hw
        cases heq
        have hvalued := hregular.of_literal hcode' (mem_of_mem_take hw)
        refine ⟨hvalued.below, fun r hr => .inr ?_⟩
        rw [hvalued.nature, (h.regular.of_literal hliteral hr).nature]) hrun
      rw [replace, run_replaceLeaving] at hrun
      cases hrun
      exact ⟨L, htidy'⟩
    · cases hrun
      exact ⟨L, htidy.each, htidy.known, htidy.numbers, htidy.housed,
        forall_mem_append.mpr ⟨htidy.noted, forall_mem_singleton.mpr ⟨h.known, hliteral⟩⟩⟩
  · cases hrun
    exact ⟨L, htidy⟩

theorem Tidy.prepend {d d' : Draft SharedLiterals.Table} {new : Op}
    (h : Tidy funcs K notes calls L d.program) (hmain : funcs main.id = some "_main")
    (hnew : Each (Regular calls L d.program.next) [new])
    (hrun : (SharedLiterals.prepend main new).run d = .ok (u, d')) :
    Tidy funcs K notes calls L d'.program ∧ d'.memo = d.memo := by
  replace hrun := of_run_step hrun rfl
  split at hrun
  next args first rest more hfind =>
    cases hrun
    refine ⟨?_, rfl⟩
    obtain ⟨p, hp, hregions⟩ := Option.map_eq_some_iff.mp hfind
    obtain ⟨-, r, hcode⟩ := h.numbers _ _ hmain
    have hbody := (singleton_iff.mp (h.each.of_find? hp).1).2
    rw [hregions, forall_mem_cons] at hbody
    refine h.splice (fun x hx => if_neg fun hid => ?_) (fun _ _ _ hc => hc) h.known
      (fun x new' hx hnew' => ?_) fun o _ _ new' hfunc hnew' => ?_
    · rw [beq_iff_eq.mp hid, hcode] at hx
      cases hx
    · obtain ⟨hid, rfl⟩ := Option.ite_some_none_eq_some.mp hnew'
      rw [← beq_iff_eq.mp hid] at hcode
      refine singleton_iff.mpr ⟨⟨hx.code, hx.below, hx.results, hx.single, hx.call,
        hx.ready.reads, hx.ready.suits, ?_, ?_⟩, ?_⟩
      · rintro (⟨v, hv⟩ | ⟨f, hf⟩)
        · exact nomatch hcode.symm.trans hv
        · exact nomatch hcode.symm.trans hf
      · intro hchoice
        exact nomatch hcode.symm.trans hchoice
      · rw [Op.regions_withRegions, forall_mem_cons]
        exact ⟨cons_iff.mpr ⟨hnew, hbody.1⟩, hbody.2⟩
    · obtain ⟨hid, rfl⟩ := Option.ite_some_none_eq_some.mp hnew'
      refine ⟨_, rfl, hfunc, fun hops => ?_⟩
      have hfirst := find?_main hops
      rw [beq_iff_eq.mp hid, hp] at hfirst
      cases hfirst
      rw [Op.regionOps, hregions]
      exact subset_cons_self _ _
  · cases hrun

theorem Shares.hoist {d d' : Draft SharedLiterals.Table} (h : Shares funcs K C d.program table)
    (hentry : entry ∈ table) (hmain : funcs main.id = some "_main")
    (hrun : (SharedLiterals.hoist main entry).run d = .ok (u, d')) :
    Shares funcs K C d'.program table ∧ d'.memo = d.memo := by
  obtain ⟨L, htidy⟩ := h
  obtain ⟨hregular, hcode⟩ := htidy.noted entry hentry
  have hregions := hregular.ready.bare (.inl ⟨_, hcode⟩)
  have hold : Each (Regular (fun _ => C) L (next d)) [entry.2] := by
    refine .leaf hregions (hregular.imp fun f hf => ?_)
    cases hcode.symm.trans hf
  obtain ⟨new, _, hcopy, hrun⟩ := of_run_bind hrun
  obtain ⟨L', k, rfl, hext, hnew, _, hcopied⟩ := makes_copy hold _ _ hcopy
  replace hrun := of_run_step hrun (run_substitute _)
  replace hrun := of_run_step hrun rfl
  have hentry' := hregular.mono hext
  have hcode' := (hext.code _ hregular.below).trans hcode
  have hnewRegular := hnew.of_mem mem_cons_self
  have hnewCode : L'.code new.id = .literal entry.1 := by
    have hflat := hnewRegular.code
    rw [hcopied, hentry'.code, hcode'] at hflat
    exact (Opcode.flat.inj hflat).symm
  have hrenamed := (htidy.widen hext).renamed (entry.2.results.zip new.results) fun c hc => by
      obtain ⟨hr, hw⟩ := of_mem_zip hc
      have hvalued := hnewRegular.of_literal hnewCode hw
      refine ⟨hvalued.below, .inr ?_⟩
      rw [hvalued.nature, (hentry'.of_literal hcode' hr).nature]
  have hnext : next (after d k) =
      (renamed (entry.2.results.zip new.results) (after d k).program).next :=
    (next_renamed ..).symm
  have hexchanged : Tidy funcs K table (fun _ => C) L' (exchanged entry.2 entry.2 []
      (renamed (entry.2.results.zip new.results) (after d k).program)) := by
    refine hrenamed.exchanged (hcode' ▸ trivial) (fun _ _ _ hc => hc) htidy.known nil
      (hnext ▸ hentry') ?_
    rw [hregions]
    exact forall_mem_nil _
  obtain ⟨htidy', hmemo⟩ := Tidy.prepend (d := ⟨_, _, _⟩) hexchanged hmain (hnext ▸ hnew) hrun
  exact ⟨⟨L', htidy'⟩, hmemo⟩

theorem Shares.hoistAll (hmain : funcs main.id = some "_main") (entries : SharedLiterals.Table)
    (hentries : entries ⊆ table) {d d' : Draft SharedLiterals.Table}
    (h : Shares funcs K C d.program table)
    (hrun : (entries.forM (SharedLiterals.hoist main)).run d = .ok (u, d')) :
    Shares funcs K C d'.program table ∧ d'.memo = d.memo := by
  induction entries generalizing d with
  | nil =>
    cases hrun
    exact ⟨h, rfl⟩
  | cons _ entries ih =>
    obtain ⟨_, _, hfirst, hrest⟩ := of_run_bind hrun
    obtain ⟨hentry, hentries⟩ := cons_subset.mp hentries
    obtain ⟨h1, hmemo1⟩ := h.hoist hentry hmain hfirst
    obtain ⟨h2, hmemo2⟩ := ih hentries h1 hrest
    exact ⟨h2, hmemo2.trans hmemo1⟩

theorem Shares.run {table' : SharedLiterals.Table} (h : Shares funcs K C m table)
    (hrun : SharedLiterals.run table m = .ok (m', table')) : Shares funcs K C m' table' := by
  rw [SharedLiterals.run] at hrun
  split at hrun
  next main hmain =>
    obtain ⟨⟨_, d⟩, hediting, hrun⟩ := of_bind hrun
    cases hrun
    obtain ⟨_, _, _, _, hexhaust, hlook, hhoist⟩ := of_run_bind₂ hediting
    cases hlook
    have hname : funcs main.id = some "_main" := by
      obtain ⟨L, htidy⟩ := h
      obtain ⟨_, hops, hname, -⟩ := htidy.housed
      have hmem := (mem_filter.mp (mem_of_getLast? hmain)).1
      rw [hops, mem_singleton] at hmem
      rw [hmem]
      exact hname
    have h1 := keptBy_shareLiterals.exhaust .forward (d := { program := m, memo := table }) h
      hexhaust
    obtain ⟨h2, hmemo⟩ := h1.hoistAll hname _ (Subset.refl _) hhoist
    rw [hmemo]
    exact h2
  · cases hrun

/-! ## Loops over elements -/

section
variable {d : Draft Unit} {x position iterable : Val}

theorem makes_condition (hlen : ∀ i, calls i "len") (hposition : position.id < next d)
    (hiterable : iterable.id < next d) : Makes L d (fun L' n b => Each (Regular calls L' n) b.ops)
      (condition position iterable) := by
  have hnil : Each (Regular calls L (next d)) [] := nil
  refine Makes.value (c := .integer) hnil (.leaf ?_ ?_ ?_) fun _ k len n hext1 hops hn _ => ?_
  · simpa using hiterable
  · intro h
    simp at h
  · rintro i f ⟨⟩
    exact hlen i
  refine Makes.value (c := .integer) hops (.plain ?_) fun _ k _ i hext2 hops hi _ => ?_
  · simpa using Nat.lt_of_lt_of_le hposition hext1.le
  have hn := hn.mono hext2
  refine Makes.value (c := .unknown) hops (.leaf ?_ ?_) fun _ k _ _ _ hops hmore _ => ?_
  · simpa using ⟨hi.below, hn.below⟩
  · simp [Suits, Typing.arithmetic]
  refine Makes.step hops (.leaf ?_ rfl) fun _ k _ _ hops => Makes.pure ?_
  · simpa using hmore.below
  · exact hops

theorem makes_contentOf (type : Ty) : Makes L d (fun _ _ _ => True) (ForLoop.contentOf type) := by
  unfold ForLoop.contentOf
  split
  · exact Makes.pure trivial
  · exact Makes.throw

theorem makes_fetch (calls : Nat → String → Prop) (hx : x.id < next d)
    (hposition : position.id < next d) (hiterable : iterable.id < next d) :
    Makes L d (fun L' n ops => Each (Regular calls L' n) ops) (fetch x position iterable) := by
  have hnil : Each (Regular calls L (next d)) [] := nil
  refine Makes.value (c := .integer) hnil (.plain ?_) fun _ k _ i hext1 hops hi _ => ?_
  · simpa using hposition
  have hiterable := Nat.lt_of_lt_of_le hiterable hext1.le
  have hx := Nat.lt_of_lt_of_le hx hext1.le
  dsimp only
  split
  · refine Makes.value (c := .unknown) hops (.plain ?_) fun L2 k address a hext2 hops ha _ => ?_
    · simpa using ⟨hiterable, hi.below⟩
    refine Makes.value (c := .unknown) hops (.plain ?_) fun L3 k read e hext3 hops he _ => ?_
    · simpa using ha.below
    refine Makes.value (c := .unknown) hops (.plain ?_) fun L4 k _ w hext4 hops hw _ => ?_
    · simpa using he.below
    refine Makes.step hops (.plain ?_) fun L5 k store hext5 hops => Makes.pure ?_
    · have hx := Nat.lt_of_lt_of_le hx ((hext2.trans hext3).trans hext4).le
      simpa using ⟨hx, hw.below⟩
    · exact hops
  · refine Makes.value (c := .unknown) hops (.plain ?_) fun L2 k address a hext2 hops ha _ => ?_
    · simpa using ⟨hiterable, hi.below⟩
    refine (makes_contentOf x.type).bind fun L3 k _ hext3 _ => ?_
    refine Makes.value (c := .unknown) (each_mono hops hext3) (.plain ?_)
      fun L4 k read e hext4 hops he _ => ?_
    · simpa using Nat.lt_of_lt_of_le ha.below hext3.le
    refine Makes.step hops (.plain ?_) fun L5 k store hext5 hops => Makes.pure ?_
    · have hx := Nat.lt_of_lt_of_le hx ((hext2.trans hext3).trans hext4).le
      simpa using ⟨hx, he.below⟩
    · exact hops

theorem makes_advance (calls : Nat → String → Prop) (hposition : position.id < next d) :
    Makes L d (fun L' n ops => Each (Regular calls L' n) ops) (advance position) := by
  have hnil : Each (Regular calls L (next d)) [] := nil
  refine Makes.value hnil (.literal _) fun _ k literal _ hext1 hops hone _ => ?_
  refine Makes.value (c := .integer) hops (.plain ?_) fun _ k _ i hext2 hops hi _ => ?_
  · simpa using Nat.lt_of_lt_of_le hposition hext1.le
  have hone := hone.mono hext2
  refine Makes.value hops (.arithmetic rfl (by decide) hi hone)
    fun _ k _ _ hext3 hops hfollowing _ => ?_
  refine Makes.step hops (.plain ?_) fun _ k _ _ hops => Makes.pure ?_
  · have hposition := Nat.lt_of_lt_of_le hposition ((hext1.trans hext2).trans hext3).le
    simpa using ⟨hposition, hfollowing.below⟩
  · exact hops.of_subset (by simp)

/-- The loop that counts, with what stands in front of it. -/
def counting (x iterable : Val) (body : List Op) : Editing Unit (List Op) := do
  let (alloc, position) ← ForLoop.compute (.alloc .int) [] (.memory .int)
  let (literal, zero) ← ForLoop.compute (.literal (.word 0)) [] .int
  let start ← ForLoop.step .store [position, zero]
  let cond ← ForLoop.condition position iterable
  let header ← ForLoop.fetch x position iterable
  let footer ← ForLoop.advance position
  let loop ← ForLoop.step .loop [] [cond, .plain (header ++ body ++ footer)]
  return [alloc, literal, start, loop]

theorem makes_counting (hlen : ∀ i, calls i "len") {body : List Op} (hx : x.id < next d)
    (hiterable : iterable.id < next d) (hbody : Each (Regular calls L (next d)) body) :
    Makes L d (fun L' n new => Each (Regular calls L' n) new) (counting x iterable body) := by
  have hnil : Each (Regular calls L (next d)) [] := nil
  refine Makes.value (c := .unknown) hnil (.plain (forall_mem_nil _))
    fun _ k _ _ hext1 hops hposition _ => ?_
  refine Makes.value hops (.literal _) fun _ k literal _ hext2 hops hzero _ => ?_
  have hposition := hposition.mono hext2
  refine Makes.step hops (.plain ?_) fun _ k _ hext3 hops => ?_
  · simpa using ⟨hposition.below, hzero.below⟩
  have hposition := hposition.mono hext3
  have hext := (hext1.trans hext2).trans hext3
  have hiterable := Nat.lt_of_lt_of_le hiterable hext.le
  refine (makes_condition hlen hposition.below hiterable).bind fun _ k _ hext4 hcond => ?_
  have hposition := hposition.mono hext4
  have hiterable := Nat.lt_of_lt_of_le hiterable hext4.le
  have hx := Nat.lt_of_lt_of_le hx (hext.trans hext4).le
  refine (makes_fetch calls hx hposition.below hiterable).bind fun _ k _ hext5 hheader => ?_
  have hposition := hposition.mono hext5
  refine (makes_advance calls hposition.below).bind fun _ k _ hext6 hfooter => ?_
  have hext' := (hext4.trans hext5).trans hext6
  refine Makes.step (each_mono hops hext') (.plain (forall_mem_nil _) trivial ?_)
    fun _ k loop _ hops => Makes.pure hops
  -- the blocks of the loop: the condition, and the old body between the new operations
  refine forall_mem_pair (each_mono hcond (hext5.trans hext6)) (.append ?_ hfooter)
  exact (each_mono hheader hext6).append (each_mono hbody (hext.trans hext'))

theorem keptBy_forLoop (hlen : ∀ i, calls i "len") :
    KeptBy (fun m (_ : Unit) => ∃ L, Tidy funcs K notes calls L m) pattern := by
  rintro d u d' o ⟨L, htidy⟩ hfind hrun
  have h : Given funcs K notes calls L d o := ⟨htidy, hfind⟩
  rw [pattern] at hrun
  split at hrun
  next hcode =>
    have hcode : L.code o.id = .forEach := by
      rw [h.regular.flat?] at hcode
      simpa using hcode
    have hreads := h.regular.ready.reads
    split at hrun
    next x iterable rest hoperands =>
      rw [hoperands] at hreads
      have hrun : (counting x iterable (o.regionOps 0) >>= fun new =>
          replaceLeaving (o.withRegions []) o new []).run d = .ok (u, d') := by
        simpa only [counting, bind_assoc, pure_bind] using hrun
      have hx := hreads x mem_cons_self
      have hiterable := hreads iterable (mem_cons_of_mem _ mem_cons_self)
      obtain ⟨L', k, new, hext, hnew, hrun⟩ :=
        (makes_counting hlen hx hiterable (h.each.regionOps 0)).first hrun
      have hregular := h.regular.mono hext
      have hcode' := (hext.code _ h.regular.below).trans hcode
      refine ⟨L', h.replaceLeaving hext (hcode ▸ trivial) (fun _ _ _ hc => hc) htidy.known hnew ?_
        (fun _ hb => absurd hb not_mem_nil) (by intro w hw; cases hw) hrun⟩
      refine ⟨hregular.code, hregular.below, hregular.results, hregular.single,
        (h.known.mono hext).call, ?_⟩
      show Ready L' _ (L'.code o.id) _ _ _
      rw [hcode']
      exact .plain trivial hregular.ready.reads
    · cases hrun
  · cases hrun
    exact ⟨L, htidy⟩

theorem Tidy.forLoops (h : Tidy funcs K notes calls L m) (hlen : ∀ i, calls i "len")
    (hrun : run m = .ok m') : ∃ L', Tidy funcs K notes calls L' m' :=
  ((keptBy_forLoop hlen).round .forward).apply ⟨L, h⟩ hrun |>.elim fun _ h' => h'

end

end Practicum.Flat
