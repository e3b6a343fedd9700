import Practicum.Flat.OfTree
import Practicum.Proofs.Flat.Ledger

/-!
# New operations

A computation that takes new numbers makes operations that are regular in some ledger which extends
the ledger before. A sequence of steps extends the ledger step by step.
-/

namespace Practicum.Flat

open Choco IR Editing List Op Nat

/-- States that give numbers away one after the other. -/
class Numbered (σ : Type) where
  next : σ → Nat
  after : σ → Nat → σ
  after_zero : ∀ s, after s 0 = s
  after_after : ∀ s j k, after (after s j) k = after s (j + k)
  next_after : ∀ s k, next (after s k) = next s + k

/-- New numbers are those that the state gives away. -/
class Supplies (σ ε : Type) [Numbered σ] [Fresh (StateT σ (Except ε))] : Prop where
  run_fresh : ∀ s : σ, (Fresh.fresh : StateT σ (Except ε) Nat).run s =
    .ok (Numbered.next s, Numbered.after s 1)

instance : Numbered Nat where
  next s := s
  after s k := s + k
  after_zero _ := rfl
  after_after := Nat.add_assoc
  next_after _ _ := rfl

instance : Supplies Nat FlattenError where
  run_fresh _ := rfl

instance {τ : Type} : Numbered (Draft τ) where
  next d := d.program.next
  after := Draft.after
  after_zero _ := rfl
  after_after d j k := by
    simp only [Draft.after]
    rw [Nat.add_assoc]
  next_after _ _ := rfl

instance {τ : Type} : Supplies (Draft τ) Fault where
  run_fresh _ := rfl

open Numbered

section
variable {σ ε α β : Type} [Numbered σ] {L L' : Ledger} {s : σ} {Q Q' : Ledger → Nat → α → Prop}
  {R : Ledger → Nat → β → Prop} {calls : Nat → String → Prop} {f : α → StateT σ (Except ε) β}
  {natures : List Nature}
variable {n' n1 n : Nat} {c : Nature} {o : Op} {x : StateT σ (Except ε) α} {type : Ty}

/-- A computation takes some numbers, and what it makes has a property in a ledger for them. -/
def Makes (L : Ledger) (s : σ) (Q : Ledger → Nat → α → Prop) (x : StateT σ (Except ε) α) : Prop :=
  ∀ a s', x.run s = .ok (a, s') →
    ∃ L' k, s' = after s k ∧ L.Extends (next s) L' (next s') ∧ Q L' (next s') a

theorem Makes.pure {a : α} (h : Q L (next s) a) : Makes L s Q (pure a : StateT σ (Except ε) α) := by
  intro b s' hrun
  cases hrun
  exact ⟨L, 0, (after_zero s).symm, .refl L _, h⟩

theorem Makes.imp (h : Makes L s Q x)
    (hQ : ∀ L' n a, L.Extends (next s) L' n → Q L' n a → Q' L' n a) : Makes L s Q' x := by
  intro a s' hrun
  obtain ⟨L', k, hs', hext, ha⟩ := h a s' hrun
  exact ⟨L', k, hs', hext, hQ L' _ a hext ha⟩

theorem Makes.bind (hx : Makes L s Q x)
    (hf : ∀ L' k a, L.Extends (next s) L' (next (after s k)) → Q L' (next (after s k)) a →
      Makes L' (after s k) R (f a)) : Makes L s R (x >>= f) := by
  intro b s'' hrun
  obtain ⟨a, s', hrunx, hrunf⟩ := of_run_bind hrun
  obtain ⟨L', k, rfl, hext, ha⟩ := hx a s' hrunx
  obtain ⟨L'', j, rfl, hext', hb⟩ := hf L' k a hext ha b s'' hrunf
  exact ⟨L'', k + j, after_after s k j, hext.trans hext', hb⟩

theorem Makes.first {r : β × σ} (hx : Makes L s Q x) (hrun : (x >>= f).run s = .ok r) :
    ∃ L' k a, L.Extends (next s) L' (next (after s k)) ∧ Q L' (next (after s k)) a ∧
      (f a).run (after s k) = .ok r := by
  obtain ⟨a, s', hrunx, hrunf⟩ := of_run_bind hrun
  obtain ⟨L', k, rfl, hext, ha⟩ := hx a s' hrunx
  exact ⟨L', k, a, hext, ha, hrunf⟩

theorem Makes.throw {e : ε} : Makes L s Q (throw e : StateT σ (Except ε) α) := by
  intro a s' hrun
  cases hrun

theorem Makes.take {a : α} {k : Nat} (hrun : x.run s = .ok (a, after s k))
    (hext : L.Extends (next s) L' (next s + k)) (ha : Q L' (next s + k) a) : Makes L s Q x := by
  intro b s' hrun'
  rw [hrun] at hrun'
  cases hrun'
  rw [← next_after] at hext ha
  exact ⟨L', k, rfl, hext, ha⟩

theorem Makes.lift {x : Except ε α} (h : ∀ a, x = .ok a → Q L (next s) a) :
    Makes L s Q (liftM x : StateT σ (Except ε) α) := by
  intro a s' hrun
  obtain ⟨hx, rfl⟩ := run_lift_ok_iff.mp hrun
  exact ⟨L, 0, (after_zero _).symm, .refl L _, h a hx⟩

/-! ## Single operations -/

/-- A value that was recorded with a nature. -/
structure Valued (L : Ledger) (n : Nat) (c : Nature) (v : Val) : Prop where
  below : v.id < n
  nature : L.of v = c

theorem Valued.mono {v : Val} (h : Valued L n c v) (hext : L.Extends n L' n') : Valued L' n' c v :=
  ⟨lt_of_lt_of_le h.below hext.le, (hext.nature _ h.below).trans h.nature⟩

variable {code : FlatCode} {operands : List Val} {regions : List Block} {ops : List Op}

/-- What an operation consists of fits together, it calls what may be called, and the operations in
its blocks are regular. -/
structure Whole (calls : Nat → String → Prop) (L : Ledger) (n : Nat) (code : FlatCode)
    (operands : List Val) (natures : List Nature) (regions : List Block) : Prop where
  ready : Ready L n code operands natures regions
  call : ∀ i f, code = .call f → calls i f
  nested : ∀ b ∈ regions, Each (Regular calls L n) b.ops

theorem Whole.plain (hreads : ∀ v ∈ operands, v.id < n) (hcode : Plain code := by exact trivial)
    (hnested : ∀ b ∈ regions, Each (Regular calls L n) b.ops := by exact forall_mem_nil _) :
    Whole calls L n code operands natures regions where
  ready := .plain hcode hreads
  call := by
    rintro _ f rfl
    exact hcode.elim
  nested := hnested

theorem Whole.leaf (hreads : ∀ v ∈ operands, v.id < n)
    (hsuits : Suits code (operands.map L.of) natures)
    (hcall : ∀ i f, code = .call f → calls i f := by rintro _ _ ⟨⟩) :
    Whole calls L n code operands natures [] :=
  ⟨⟨hreads, hsuits, fun _ => rfl, nofun⟩, hcall, nofun⟩

theorem Whole.literal (v : Literal) : Whole calls L n (.literal v) [] [.ofLiteral v] [] :=
  .leaf nofun (forall_mem_singleton.mpr rfl)

theorem Whole.arithmetic {op : String} {a b : Val} (hop : Arithmetic op)
    (hc : c ≠ .unknown) (ha : Valued L n c a) (hb : Valued L n c b) :
    Whole calls L n (.binary op) [a, b] [c] [] := by
  refine .leaf (forall_mem_pair ha.below hb.below) ?_
  rw [Suits, if_pos hop]
  exact ⟨c, hc, forall_mem_pair ha.nature hb.nature, forall_mem_singleton.mpr rfl⟩

theorem Whole.mono (h : Whole calls L n code operands natures regions)
    (hext : L.Extends n L' n') : Whole calls L' n' code operands natures regions :=
  ⟨h.ready.mono hext, h.call, fun b hb => each_mono (h.nested b hb) hext⟩

/-- An operation was made for a purpose, with results of some natures. -/
structure Built (calls : Nat → String → Prop) (L : Ledger) (n : Nat) (code : FlatCode)
    (natures : List Nature) (o : Op) : Prop where
  each : Each (Regular calls L n) [o]
  recorded : L.code o.id = code
  natures : o.results.map L.of = natures

theorem Built.mono (h : Built calls L n code natures o)
    (hext : L.Extends n L' n') : Built calls L' n' code natures o := by
  have hregular := h.each.of_mem mem_cons_self
  refine ⟨each_mono h.each hext, (hext.code _ hregular.below).trans h.recorded, ?_⟩
  rw [hext.map_of hregular.results]
  exact h.natures

variable [Fresh (StateT σ (Except ε))] [Supplies σ ε]

theorem run_make_single (code : Opcode) (operands : List Val) (type : Ty) (regions : List Block)
    (s : σ) : (make code operands [type] regions : StateT σ (Except ε) Op).run s =
      .ok (.mk (next s + 1) code operands [⟨next s, type⟩] regions, after s 2) := by
  simp only [make, mapM_cons, mapM_nil, pure_bind, bind_assoc, StateT.run_bind, Supplies.run_fresh]
  show Except.ok (Op.mk (next (after s 1)) .., after (after s 1) 1) = _
  rw [next_after, after_after]

theorem run_makeValue_eq (code : Opcode) (operands : List Val) (type : Ty) (regions : List Block)
    (s : σ) : (makeValue code operands type regions : StateT σ (Except ε) (Op × Val)).run s =
      .ok ((.mk (next s + 1) code operands [⟨next s, type⟩] regions, ⟨next s, type⟩),
        after s 2) := by
  simp only [makeValue, StateT.run_bind, Supplies.run_fresh]
  show Except.ok ((Op.mk (next (after s 1)) .., _), after (after s 1) 1) = _
  rw [next_after, after_after]

theorem built_with (results : List Val)
    (h : Whole calls L n code operands (results.map L.of) regions)
    (hresults : ∀ v ∈ results, v.id < n) (hsingle : results.length ≤ 1) :
    Built calls (L.withCode n code) (n + 1) code (results.map L.of)
      (.mk n (.flat code) operands results regions) := by
  have hext := L.extends_withCode n code
  have hcode : (L.withCode n code).code n = code := if_pos rfl
  refine ⟨Each.singleton_iff.mpr ⟨?_, fun b hb => each_mono (h.nested b hb) hext⟩, hcode, rfl⟩
  refine ⟨congrArg Opcode.flat hcode.symm, lt_succ_self n,
    fun v hv => lt_succ_of_lt (hresults v hv), hsingle,
    fun f hf => h.call n f (hcode.symm.trans hf), ?_⟩
  show Ready _ _ ((L.withCode n code).code n) _ _ _
  rw [hcode]
  exact h.ready.mono hext

theorem built_value (type : Ty) (h : Whole calls L n code operands [c] regions) :
    Built calls ((L.withNature n c).withCode (n + 1) code) (n + 2) code [c]
      (.mk (n + 1) (.flat code) operands [⟨n, type⟩] regions) := by
  have hext := L.extends_withNature n c
  have hnature : [Val.mk n type].map (L.withNature n c).of = [c] :=
    congrArg (fun a => [a]) (L.nature_withNature n c)
  have hwhole := h.mono hext
  rw [← hnature] at hwhole
  have hbuilt := built_with [⟨n, type⟩] hwhole
    (forall_mem_singleton.mpr (lt_succ_self n)) (le_refl 1)
  rw [hnature] at hbuilt
  exact hbuilt

theorem makes_with {results : List Val}
    (h : Whole calls L (next s) code operands (results.map L.of) regions)
    (hresults : ∀ v ∈ results, v.id < next s) (hsingle : results.length ≤ 1) :
    Makes L s (fun L' n o => Each (Regular calls L' n) [o] ∧
        o = .mk (next s) (.flat code) operands results regions)
      (do return .mk (← Fresh.fresh) (.flat code) operands results regions :
        StateT σ (Except ε) Op) := by
  refine .take ?_ (L.extends_withCode _ code) ⟨(built_with results h hresults hsingle).each, rfl⟩
  rw [StateT.run_bind, Supplies.run_fresh]
  rfl

theorem makes_step (h : Whole calls L (next s) code operands [] regions) :
    Makes L s (fun L' n o => Built calls L' n code [] o ∧ o.operands = operands)
      (make (.flat code) operands [] regions : StateT σ (Except ε) Op) := by
  refine .take ?_ (L.extends_withCode _ code) ⟨built_with [] h nofun (zero_le 1), rfl⟩
  simp only [make, StateT.run_bind, Supplies.run_fresh]
  rfl

theorem makes_single (h : Whole calls L (next s) code operands [c] regions) :
    Makes L s (fun L' n o => Built calls L' n code [c] o)
      (make (.flat code) operands [type] regions : StateT σ (Except ε) Op) :=
  .take (run_make_single ..)
    ((L.extends_withNature _ c).trans ((L.withNature _ c).extends_withCode _ code))
    (built_value type h)

theorem makes_value (h : Whole calls L (next s) code operands [c] regions) :
    Makes L s (fun L' n r => Built calls L' n code [c] r.1 ∧ Valued L' n c r.2 ∧ r.2.type = type)
      (makeValue (.flat code) operands type regions : StateT σ (Except ε) (Op × Val)) :=
  .take (run_makeValue_eq ..)
    ((L.extends_withNature _ c).trans ((L.withNature _ c).extends_withCode _ code))
    ⟨built_value type h, ⟨Nat.lt_add_of_pos_right Nat.zero_lt_two, L.nature_withNature _ c⟩, rfl⟩

theorem Makes.value {f : Op × Val → StateT σ (Except ε) β}
    (hops : Each (Regular calls L (next s)) ops)
    (h : Whole calls L (next s) code operands [c] regions)
    (hf : ∀ L' k o v, L.Extends (next s) L' (next (after s k)) →
      Each (Regular calls L' (next (after s k))) (ops ++ [o]) → Valued L' (next (after s k)) c v →
      v.type = type → Makes L' (after s k) R (f (o, v))) :
    Makes L s R (makeValue (.flat code) operands type regions >>= f) :=
  (makes_value h).bind fun L' k r hext ⟨hbuilt, hvalued, htype⟩ =>
    hf L' k r.1 r.2 hext ((each_mono hops hext).append hbuilt.each) hvalued htype

theorem Makes.step {f : Op → StateT σ (Except ε) β} (hops : Each (Regular calls L (next s)) ops)
    (h : Whole calls L (next s) code operands [] regions)
    (hf : ∀ L' k o, L.Extends (next s) L' (next (after s k)) →
      Each (Regular calls L' (next (after s k))) (ops ++ [o]) → Makes L' (after s k) R (f o)) :
    Makes L s R (make (.flat code) operands [] regions >>= f) :=
  (makes_step h).bind fun L' k o hext ⟨hbuilt, _⟩ =>
    hf L' k o hext ((each_mono hops hext).append hbuilt.each)

/-! ## Copies -/

/-- An operation does what another one does, with its values renamed. -/
structure Copied (ρ : Val → Val) (o o' : Op) : Prop where
  code : o'.code = o.code
  operands : o'.operands = o.operands.map ρ
  results : o'.results = o.results.map ρ

def Renames (L : Ledger) (n : Nat) (ρ : Val → Val) (L' : Ledger) (n' : Nat) : Prop :=
  ∀ v, v.id < n → Valued L' n' (L.of v) (ρ v)

/-- Operations are as many as others and end with the copy of what those end with. -/
structure CopiedAll (ρ : Val → Val) (ops ops' : List Op) : Prop where
  length : ops'.length = ops.length
  last : ∀ y', ops'.getLast? = some y' → ∃ y, ops.getLast? = some y ∧ Copied ρ y y'

variable {ρ : Val → Val} {n : Nat} {C : String → Prop} {L1 : Ledger} {vs : List Val}

theorem Renames.mono (h : Renames L n ρ L1 n1) (hext : L1.Extends n1 L' n') : Renames L n ρ L' n' :=
  fun v hv => (h v hv).mono hext

theorem Renames.map_of (h : Renames L n ρ L1 n1) (hvs : ∀ v ∈ vs, v.id < n) :
    (vs.map ρ).map L1.of = vs.map L.of := by
  rw [map_map]
  exact map_congr_left fun v hv => (h v (hvs v hv)).nature

theorem Renames.below (h : Renames L n ρ L1 n1) (hvs : ∀ v ∈ vs, v.id < n) :
    ∀ v ∈ vs.map ρ, v.id < n1 :=
  forall_mem_map.mpr fun v hv => (h v (hvs v hv)).below

theorem CopiedAll.nil : CopiedAll ρ [] [] :=
  ⟨rfl, nofun⟩

theorem CopiedAll.cons {o' : Op} {os os' : List Op} (ho : Copied ρ o o')
    (hos : CopiedAll ρ os os') : CopiedAll ρ (o :: os) (o' :: os') := by
  refine ⟨congrArg succ hos.length, fun _ hy' => ?_⟩
  rw [List.getLast?_cons] at hy' ⊢
  cases hlast : os'.getLast? with
  | none =>
    have hnil : os = [] := by
      rw [List.getLast?_eq_none_iff.mp hlast] at hos
      exact eq_nil_of_length_eq_zero hos.length.symm
    rw [hlast] at hy'
    cases hy'
    rw [hnil]
    exact ⟨o, rfl, ho⟩
  | some z' =>
    rw [hlast] at hy'
    cases hy'
    obtain ⟨y, hy, hcopied⟩ := hos.last z' hlast
    rw [hy]
    exact ⟨y, rfl, hcopied⟩

theorem Closes.copy {y y' : Op} (h : Closes L n natures y) (hcopied : Copied ρ y y')
    (hregular : Regular calls L1 n1 y') (hρ : Renames L n ρ L1 n1) : Closes L1 n1 natures y' where
  code := hcopied.code.trans h.code
  recorded := by
    have hcode := hregular.code
    rw [hcopied.code, h.code] at hcode
    exact (Opcode.flat.inj hcode).symm
  below := hregular.below
  value w hw := by
    rw [hcopied.operands] at hw
    obtain ⟨v, hv, rfl⟩ := mem_map.mp hw
    obtain ⟨hlt, hadmits⟩ := h.value v hv
    rw [(hρ v hlt).nature]
    exact ⟨(hρ v hlt).below, hadmits⟩

set_option linter.unusedSectionVars false in
mutual

theorem makes_copyWith : ∀ {o : Op} {L1 : Ledger} {s : σ},
    Each (Regular (fun _ => C) L n) [o] → Renames L n ρ L1 (next s) →
    Makes L1 s (fun L' k o' => Each (Regular (fun _ => C) L' k) [o'] ∧ Copied ρ o o')
      (copyWith ρ o : StateT σ (Except ε) Op)
  | .mk i code operands results regions, L1, s, h, hρ => by
    obtain ⟨ho, hregions⟩ := Each.singleton_iff.mp h
    rw [copyWith]
    refine (makes_copyRegionsWith hregions hρ).bind fun L2 k bs' hext ⟨heach, hempty, hends⟩ => ?_
    have hρ2 := hρ.mono hext
    have hreads := hρ2.map_of ho.ready.reads
    have hresults := hρ2.map_of ho.results
    have hready : Ready L2 (next (after s k)) (L.code i) (operands.map ρ)
        ((results.map ρ).map L2.of) bs' := by
      refine ⟨hρ2.below ho.ready.reads, ?_, fun hbare => hempty (ho.ready.bare hbare),
        fun hcode b' hb' y' hy' => ?_⟩
      · exact hreads ▸ hresults ▸ ho.ready.suits
      · obtain ⟨b, hb, hcopied⟩ := hends b' hb'
        obtain ⟨y, hy, hyy'⟩ := hcopied.last y' hy'
        have hregular := (heach b' hb').of_mem (mem_of_getLast? hy')
        exact hresults ▸ (ho.ready.closes hcode b hb y hy).copy hyy' hregular hρ2
    have hsingle : (results.map ρ).length ≤ 1 := by
      rw [length_map]
      exact ho.single
    have hcode : code = .flat (L.code i) := ho.code
    rw [hcode]
    refine (makes_with ⟨hready, fun _ => ho.call, heach⟩ (hρ2.below ho.results) hsingle).imp
      fun L' m o' _ ⟨heach', ho'⟩ => ⟨heach', ?_⟩
    rw [ho']
    exact ⟨rfl, rfl, rfl⟩

theorem makes_copyAllWith : ∀ {ops : List Op} {L1 : Ledger} {s : σ},
    Each (Regular (fun _ => C) L n) ops → Renames L n ρ L1 (next s) →
    Makes L1 s (fun L' k ops' => Each (Regular (fun _ => C) L' k) ops' ∧ CopiedAll ρ ops ops')
      (copyAllWith ρ ops : StateT σ (Except ε) (List Op))
  | [], L1, s, h, hρ => by
    rw [copyAllWith]
    exact Makes.pure ⟨Each.nil, .nil⟩
  | o :: os, L1, s, h, hρ => by
    rw [Each.cons_iff] at h
    rw [copyAllWith]
    refine (makes_copyWith h.1 hρ).bind fun L2 k o' hext ⟨heach, hcopied⟩ => ?_
    refine (makes_copyAllWith h.2 (hρ.mono hext)).bind fun L3 j os' hext' ⟨hall, hcopiedAll⟩ => ?_
    exact Makes.pure ⟨Each.cons_iff.mpr ⟨each_mono heach hext', hall⟩, hcopiedAll.cons hcopied⟩

theorem makes_copyRegionsWith : ∀ {bs : List Block} {L1 : Ledger} {s : σ},
    (∀ b ∈ bs, Each (Regular (fun _ => C) L n) b.ops) → Renames L n ρ L1 (next s) →
    Makes L1 s (fun L' k bs' => (∀ b' ∈ bs', Each (Regular (fun _ => C) L' k) b'.ops) ∧
        (bs = [] → bs' = []) ∧ ∀ b' ∈ bs', ∃ b ∈ bs, CopiedAll ρ b.ops b'.ops)
      (copyRegionsWith ρ bs : StateT σ (Except ε) (List Block))
  | [], L1, s, h, hρ => by
    rw [copyRegionsWith]
    exact Makes.pure ⟨forall_mem_nil _, fun _ => rfl, forall_mem_nil _⟩
  | .mk args ops :: bs, L1, s, h, hρ => by
    rw [forall_mem_cons] at h
    rw [copyRegionsWith]
    refine (makes_copyAllWith h.1 hρ).bind fun L2 k ops' hext ⟨heach, hcopied⟩ => ?_
    refine (makes_copyRegionsWith h.2 (hρ.mono hext)).bind fun L3 j bs' hext' ⟨hall, _, hends⟩ => ?_
    refine Makes.pure ⟨?_, (absurd · (cons_ne_nil _ _)), ?_⟩
    · exact forall_mem_cons.mpr ⟨each_mono heach hext', hall⟩
    · rw [forall_mem_cons]
      refine ⟨⟨_, mem_cons_self, hcopied⟩, fun b' hb' => ?_⟩
      obtain ⟨b, hb, hb'⟩ := hends b' hb'
      exact ⟨b, mem_cons_of_mem _ hb, hb'⟩

end

theorem makes_renaming (vs : List Val) (L : Ledger) (s : σ) :
    Makes L s (fun L' n ps => ∀ p ∈ ps, p.1 < next s → Valued L' n (L.nature p.1) p.2)
      (vs.mapM fun v => do return (v.id, ({ id := ← Fresh.fresh, type := v.type } : Val)) :
        StateT σ (Except ε) (List (Nat × Val))) := by
  induction vs generalizing L s with
  | nil =>
    exact Makes.pure nofun
  | cons v vs ih =>
    rw [mapM_cons]
    have hfirst : Makes L s (fun L' n p => p.1 = v.id ∧ (p.1 < next s → Valued L' n (L.nature v.id) p.2))
        (do return (v.id, ({ id := ← Fresh.fresh, type := v.type } : Val)) :
          StateT σ (Except ε) (Nat × Val)) := by
      refine .take (a := (v.id, ⟨next s, v.type⟩)) ?_ (L.extends_withNature _ _)
        ⟨rfl, fun _ => ⟨lt_succ_self _, L.nature_withNature _ _⟩⟩
      rw [StateT.run_bind, Supplies.run_fresh]
      rfl
    refine hfirst.bind fun L1 k p hext ⟨hp, hvalued⟩ => ?_
    refine (ih L1 (after s k)).bind fun _ j ps hext' hps => Makes.pure ?_
    rw [forall_mem_cons]
    constructor
    · intro hlt
      rw [hp]
      exact (hvalued hlt).mono hext'
    · intro q hq hlt
      have hvalued' := hps q hq (lt_of_lt_of_le hlt hext.le)
      rw [hext.nature _ hlt] at hvalued'
      exact hvalued'

theorem makes_copy (h : Each (Regular (fun _ => C) L (next s)) [o]) :
    Makes L s (fun L' n o' => Each (Regular (fun _ => C) L' n) [o'] ∧
        o'.results.map L'.of = o.results.map L.of ∧ o'.code = o.code)
      (copy o : StateT σ (Except ε) Op) := by
  refine (makes_renaming o.defined L s).bind fun L1 k ps hext hps => ?_
  have hρ : Renames L (next s) (fun v => (ps.lookup v.id).getD v) L1 (next (after s k)) := by
    intro v hv
    show Valued _ _ _ ((ps.lookup v.id).getD v)
    cases hlookup : ps.lookup v.id with
    | none => exact ⟨lt_of_lt_of_le hv hext.le, hext.nature _ hv⟩
    | some w => exact hps _ (mem_of_lookup_eq_some hlookup) hv
  refine (makes_copyWith h hρ).imp fun L2 n o' hext' ⟨heach, hcopied⟩ => ⟨heach, ?_, hcopied.code⟩
  rw [hcopied.results]
  exact (hρ.mono hext').map_of (h.of_mem mem_cons_self).results

end

end Practicum.Flat
