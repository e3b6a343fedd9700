import Practicum.Proofs.Machine.Linking
import Practicum.Proofs.Machine.Running

/-!
# Structured control flow becomes jumps

A function of the flat level is lowered to operations with labels, branches and jumps between them.
From the first operation of any block of the function in which no statement chooses between two
blocks, the code does what the evaluation of the block does, and runs for ever just if the
evaluation does. What the code stores in memory of its own does not count.
-/

namespace Practicum.Machine

open IR Riscv Flat List Option

variable {ω : Type} {src m : Module} {D : Nat → Fate} {ρ : Val → Val} {κ : Nat → Nat} {l : Labels}
  {o : Op} {ops : List Op}

section
variable {stamp : Stamp} {n label : Nat} {code : FlatCode} {e : Emit Code}
  {yields : Nat → Option Val} {v : Val} {name op : String}

/-! ## Labels -/

theorem isDigit_of_numbered (name : String) (k : Nat) :
    (numbered name k).toList.getLast?.any Char.isDigit = true := by
  have hne : Nat.toDigits 10 k ≠ [] := length_pos_iff.mp (Nat.length_toDigits_pos)
  rw [toList_numbered, List.getLast?_append_of_ne_nil _ hne, List.getLast?_eq_some_getLast hne]
  exact Nat.isDigit_of_mem_toDigits (by decide) (by decide) (getLast_mem hne)

section
variable (hfit : ∀ o ∈ Op.walkAll ops, Fit src.next D ρ o)
  (h : name ∈ placedLabels (renderAll D ρ ops))
include hfit h

theorem mem_labels_of_placed : ∃ o ∈ Op.walkAll ops, name ∈ labelsFor D o := by
  have hcount := count_placedLabels_le hfit name
  have hpos := count_pos_iff.mpr h
  exact mem_flatMap.mp (count_pos_iff.mp (Nat.lt_of_lt_of_le hpos hcount))

theorem isDigit_of_placed : name.toList.getLast?.any Char.isDigit = true := by
  obtain ⟨o, -, hname⟩ := mem_labels_of_placed hfit h
  unfold labelsFor at hname
  split at hname
  · obtain ⟨_, -, rfl⟩ := mem_map.mp hname
    exact isDigit_of_numbered _ _
  · cases hname

end

theorem Rendered.nodup_labels (h : Rendered src D ρ κ m l) (hsrc : Orderly src)
    (hops : (Op.walkAll ops).Sublist src.walk) : (placedLabels (renderAll D ρ ops)).Nodup := by
  have hown : ((Op.walkAll ops).flatMap (labelsFor D)).Nodup := by
    refine nodup_flatMap.mpr ⟨fun o _ => ?_, ?_⟩
    · unfold labelsFor
      split
      · exact nodup_ownLabels _ _
      · exact nodup_nil
    · have hids := pairwise_map.mp ((hops.map Op.id).nodup hsrc.ids)
      exact hids.imp_of_mem fun ho hp hne => h.labels _ (hops.subset ho) _ (hops.subset hp) hne
  rw [nodup_iff_count_le_one] at hown ⊢
  intro name
  exact Nat.le_trans (count_placedLabels_le (fun o ho => h.fit o (hops.subset ho)) name) (hown name)

theorem library_labels : ∀ label ∈ labelsOf Runtime.library,
    label.toList.getLast?.any Char.isDigit = false ∧ ¬"_return".toList <:+ label.toList := by
  decide +kernel

theorem returnLabel_suffix (func : String) : "_return".toList <:+ (returnLabel func).toList := by
  rw [returnLabel, String.toList_append]
  exact suffix_append _ _

theorem isDigit_returnLabel (func : String) :
    (returnLabel func).toList.getLast?.any Char.isDigit = false := by
  rw [returnLabel, String.toList_append, List.getLast?_append_of_ne_nil _ (by decide)]
  rfl

def Rendered.scene (h : Rendered src D ρ κ m l) (hsrc : Orderly src)
    (hops : (Op.walkAll ops).Sublist src.walk) (func : String) (E : Surroundings ω)
    (hE : (layoutOf D κ ops).Housed E) : Scene ω where
  E
  layout := layoutOf D κ ops
  least := src.next
  exit := returnLabel func
  body := renderAll D ρ ops
  housed := hE
  labels := h.nodup_labels hsrc hops
  exit_away hplaced := by
    have hdigit := isDigit_of_placed (fun o ho => h.fit o (hops.subset ho)) hplaced
    rw [isDigit_returnLabel] at hdigit
    cases hdigit
  library_away label hlabel := by
    obtain ⟨hdigit, hsuffix⟩ := library_labels label hlabel
    refine ⟨fun hplaced => ?_, fun hexit => hsuffix (hexit ▸ returnLabel_suffix func)⟩
    rw [isDigit_of_placed (fun o ho => h.fit o (hops.subset ho)) hplaced] at hdigit
    cases hdigit

/-! ## Blocks of a function -/

theorem Within.stands {xs : List Op} (h : Within ops xs) (hdone : Done src D ρ κ m l)
    (hops : Op.walkAll ops ⊆ src.walk) :
    ∃ k, StandsAt (renderAll D ρ ops) k (renderAll D ρ xs) := by
  induction h with
  | body => exact ⟨0, [], [], by simp, rfl⟩
  | @block xs o b code hwithin ho hflat hcode hb ih =>
    obtain ⟨k, hk⟩ := ih
    obtain ⟨xs1, xs2, rfl⟩ := append_of_mem ho
    have hwalk : o ∈ src.walk := hops (hwithin.subset (Op.mem_walkAll_self ho))
    obtain ⟨stamp, htaken⟩ := hdone.taken o hwalk code hflat (inert_of_controls hcode)
    obtain ⟨-, _, e, hstamped⟩ := (hdone.fit o hwalk).taken stamp htaken
    have hinside : ∃ j, StandsAt (render D ρ o) j (renderAll D ρ b.ops) := by
      rw [hstamped.render htaken]
      obtain rfl := Option.some.inj (hstamped.flat.symm.trans hflat)
      obtain ⟨_, _, _, rfl, -⟩ | ⟨hpaired, before, between, behind, hcode', -⟩ :=
        hstamped.cases (hdone.fit o hwalk).shaped
      · cases hcode
      rw [hcode']
      obtain hops | hops := hpaired.ops_of_mem hb
      · rw [hops]
        exact ⟨before.length, before, between ++ renderAll D ρ (o.regionOps 1) ++ behind,
          by simp, rfl⟩
      · rw [hops]
        exact ⟨_, before ++ renderAll D ρ (o.regionOps 0) ++ between, behind, by simp, rfl⟩
    obtain ⟨j, hj⟩ := hinside
    have ho' : StandsAt (renderAll D ρ (xs1 ++ o :: xs2)) (renderAll D ρ xs1).length
        (render D ρ o) := by
      refine ⟨renderAll D ρ xs1, renderAll D ρ xs2, ?_, rfl⟩
      rw [renderAll_append, renderAll, append_assoc]
    exact ⟨_, hk.trans (ho'.trans hj)⟩

/-! ## What the code has for the operations -/

/-- Memory on the stack is asked for by an operation of a number. -/
def Allocates (body : List Op) (t : Nat) : Prop :=
  ∃ x ∈ Op.walkAll body, x.id = t ∧ x.machine? = some .alloc

theorem emission_allocates {p : Op} (hslot : asksSlot code = true ∨ keepsTemp code = true)
    (he : emission label code p yields = some e) :
    (∃ x ∈ (e.run n).1.ops, x.id = slotAt code n ∧ x.machine? = some .alloc) ∧
      n ≤ slotAt code n ∧ slotAt code n < (e.run n).2 := by
  unfold emission at he
  split at he
  case h_7 =>
    cases he
    refine ⟨⟨giving n .alloc [], mem_cons_self, rfl, rfl⟩, Nat.le_succ n, Nat.lt_succ_self _⟩
  case h_9 op _ =>
    have hlazy (after : String) (settling : Int) (lhs rhs : List Op) (l r : Val) :
        (∃ x ∈ ((lazyOperator after settling lhs l rhs r).run n).1.ops,
          x.id = n + 1 ∧ x.machine? = some .alloc) ∧
        n ≤ n + 1 ∧ n + 1 < ((lazyOperator after settling lhs l rhs r).run n).2 := by
      rw [run_lazyOperator]
      exact ⟨⟨giving n .alloc [], by simp, rfl, rfl⟩, by omega, by dsimp only; omega⟩
    obtain ⟨l, r, -, -, he⟩ := of_some_bind₂ he
    split at he
    · cases he
      exact hlazy _ _ _ _ _ _
    split at he
    all_goals cases he
    exact hlazy _ _ _ _ _ _
  case h_10 =>
    obtain ⟨a, b, -, -, he⟩ := of_some_bind₂ he
    cases he
    rw [run_choice]
    exact ⟨⟨giving (n + 2) .alloc [], by simp, rfl, rfl⟩, Nat.le_add_right n 3,
      Nat.add_lt_add_left (by decide) n⟩
  case h_14 =>
    cases he
    refine ⟨⟨giving (n + 30) .alloc [], mem_of_getElem? (i := 17) rfl, rfl, rfl⟩,
      Nat.le_add_right n 31, ?_⟩
    show n + 31 < n + 33
    omega
  all_goals simp [asksSlot, keepsTemp] at hslot he

theorem inert_of_gives (h : gives code = true) : inert code = false := by
  cases code
  case lazyBinary op => exact inert_of_controls h
  case classDef | forEach | pass | yield | assign | member => cases h
  all_goals rfl

end

/-- How code stands for operations is as it should be: memory on the stack is asked for in the code,
for each operation by another one, and the result of an operation is read from a result in the
code, for each operation from another one. -/
structure Layout.Suits (L : Layout) (ops body : List Op) : Prop where
  temps : ∀ t ∈ L.temps, Allocates body t
  slots : ∀ o ∈ Op.walkAll ops, o.flat?.any asksSlot = true →
    Allocates body (L.slot o.id) ∧ L.slot o.id ∉ L.temps
  slots_apart : ∀ o ∈ Op.walkAll ops, ∀ p ∈ Op.walkAll ops, o.flat?.any asksSlot = true →
    p.flat?.any asksSlot = true → L.slot o.id = L.slot p.id → o = p
  results : ∀ o ∈ Op.walkAll ops, ∀ code r, o.flat? = some code → gives code = true →
    o.results = [r] → ∃ x ∈ Op.walkAll body, ∃ v ∈ x.results, v.id = L.value r.id
  results_apart : ∀ o ∈ Op.walkAll ops, ∀ p ∈ Op.walkAll ops, ∀ r ∈ o.results, ∀ r' ∈ p.results,
    L.value r.id = L.value r'.id → o = p

/-- From a range of a function, the code comes to where the evaluation of operations ends, having
done what is seen of the evaluation, and it runs for ever just if the evaluation does. -/
def Enacts (L : Layout) (E : Surroundings ω) (least : Nat) (exit : String) (body : List Op)
    (lo hi : Nat) (ops : List Op) : Prop :=
  ∀ W s V S, L.Tracks E least W s V S →
    (∀ n how W' s', (L.meaning E).evalOps n ops W s = .ended how W' s' →
      ∃ j place V' S', Goes E exit body lo hi j (stateOf (.at lo) V S) (stateOf place V' S') ∧
        L.Tracks E least W' s' V' S' ∧ Lands n hi how j place) ∧
    ((∀ n, (L.meaning E).evalOps n ops W s ≠ .stuck) →
      ((∀ n, ∃ W' s', (L.meaning E).evalOps n ops W s = .ended .starved W' s') ↔
        ∀ j, ∃ st, Goes E exit body lo hi j (stateOf (.at lo) V S) st))

theorem not_inside_of_lands {lo hi n j k : Nat} {how : Ending Word String}
    (hhow : how ≠ .starved) (h : Lands n hi how j (.at k)) : ¬(lo ≤ k ∧ k < hi) := by
  cases how with
  | behind =>
    cases h
    omega
  | starved => exact absurd rfl hhow
  | returned w => cases h
  | failed _ => cases h

theorem enacts_of_runs {T : Scene ω} {ops X : List Op} {own : Nat → Prop} {k : Nat}
    (hruns : ∀ n, T.Runs n X own (T.meaning.evalOps n ops)) (hstands : StandsAt T.body k X) :
    Enacts T.layout T.E T.least T.exit T.body k (k + X.length) ops := by
  intro W s V S htracks
  have hends (n : Nat) (how : Ending Word String) (W' : Env Word) (s' : Store ω)
      (hend : T.meaning.evalOps n ops W s = .ended how W' s') :
      ∃ j place V' S', Goes T.E T.exit T.body k (k + X.length) j (stateOf (.at k) V S)
        (stateOf place V' S') ∧ T.Tracks W' s' V' S' ∧ Lands n (k + X.length) how j place := by
    have hreaches := hruns n k W s V S hstands htracks
    rw [hend] at hreaches
    obtain ⟨j, place, V', S', hgoes, htracks', hlands, -⟩ := hreaches
    exact ⟨j, place, V', S', hgoes, htracks', hlands⟩
  refine ⟨hends, fun hmeans => ⟨fun hstarves j => ?_, fun hgoes n => ?_⟩⟩
  · obtain ⟨W', s', hend⟩ := hstarves j
    obtain ⟨i, place, V', S', hgoes, -, hlands⟩ := hends j _ W' s' hend
    exact hgoes.exists_of_le hlands
  · cases hend : T.meaning.evalOps n ops W s with
    | stuck => exact absurd hend (hmeans n)
    | ended how W' s' =>
      by_cases hhow : how = .starved
      · exact ⟨W', s', by rw [hhow]⟩
      obtain ⟨j, place, V', S', hgoes', -, hlands⟩ := hends n how W' s' hend
      obtain ⟨_, hgoes⟩ := hgoes (j + 1)
      have hle := hgoes'.le_of_left (fun i hi => by
        cases hi
        exact not_inside_of_lands hhow hlands) hgoes
      omega

section
variable {p : Op}

/-- The code of an operation asks for memory on the stack. -/
abbrev Slotted (o : Op) : Prop :=
  o.flat?.any asksSlot = true ∨ o.flat?.any keepsTemp = true

variable (h : Done src D ρ κ m l)
include h

theorem Done.slotFor_spec (ho : o ∈ src.walk) (hslot : Slotted o) :
    ∃ stamp, D o.id = .taken stamp ∧ stamp.start ≤ slotFor D o ∧ slotFor D o < stamp.stop ∧
      ∃ x ∈ render D ρ o, x.id = slotFor D o ∧ x.machine? = some .alloc := by
  obtain ⟨code, hflat⟩ := exists_flat_of_shaped (h.fit o ho).shaped
  rw [Slotted, hflat] at hslot
  have hinert : inert code = false := by
    cases code
    case lazyBinary op => exact inert_of_controls (hslot.resolve_left nofun)
    case classDef | forEach | pass | yield | assign | member => cases hslot <;> contradiction
    all_goals rfl
  obtain ⟨stamp, htaken⟩ := h.taken o ho code hflat hinert
  obtain ⟨-, _, e, hstamped⟩ := (h.fit o ho).taken stamp htaken
  obtain rfl := Option.some.inj (hstamped.flat.symm.trans hflat)
  obtain ⟨halloc, hlo, hhi⟩ := emission_allocates (n := stamp.start) hslot hstamped.emission
  rw [hstamped.stop] at hhi
  rw [hstamped.render htaken, slotFor, hflat, htaken]
  exact ⟨stamp, rfl, hlo, hhi, halloc⟩

theorem Done.allocates (hops : Op.walkAll ops ⊆ src.walk) (ho : o ∈ Op.walkAll ops)
    (hslot : Slotted o) : Allocates (renderAll D ρ ops) (slotFor D o) := by
  obtain ⟨-, -, -, -, x, hx, halloc⟩ := h.slotFor_spec (hops ho) hslot
  exact ⟨x, render_subset_walkAll (fun p hp => h.fit p (hops hp)) ho hx, halloc⟩

variable (hsrc : Orderly src)
include hsrc

theorem Done.eq_of_slotFor (ho : o ∈ src.walk) (hp : p ∈ src.walk) (hslot : Slotted o)
    (hslot' : Slotted p) (heq : slotFor D o = slotFor D p) : o = p := by
  obtain ⟨stamp, htaken, _, _, -⟩ := h.slotFor_spec ho hslot
  obtain ⟨stamp', htaken', _, _, -⟩ := h.slotFor_spec hp hslot'
  by_contra hne
  have := h.apart o ho p hp (fun hid => hne (hsrc.eq_of_id ho hp hid)) stamp stamp' htaken htaken'
  omega

theorem Done.reads_result (ho : o ∈ src.walk) {r : Val} (hr : r ∈ o.results) :
    κ r.id = r.id ∨ ∃ stamp, D o.id = .taken stamp ∧ src.next ≤ stamp.start ∧
      stamp.start ≤ κ r.id ∧ κ r.id < stamp.stop := by
  obtain hid | ⟨q, hq, stamp, _, v, htaken, hr', hid, hv, hκ⟩ := h.reads r.id
  · exact .inl hid
  obtain rfl := hsrc.eq_of_value hq ho (mem_append_left _ hr') (mem_append_left _ hr) hid
  rw [hκ]
  exact .inr ⟨stamp, htaken, h.value_bounds hq htaken hv⟩

theorem Done.eq_of_result (ho : o ∈ src.walk) (hp : p ∈ src.walk) {r r' : Val} (hr : r ∈ o.results)
    (hr' : r' ∈ p.results) (heq : κ r.id = κ r'.id) : o = p := by
  have hlt := hsrc.value_lt o ho r (mem_append_right _ (mem_append_left _ hr))
  have hlt' := hsrc.value_lt p hp r' (mem_append_right _ (mem_append_left _ hr'))
  obtain hid | ⟨stamp, htaken, _, _, _⟩ := h.reads_result hsrc ho hr
  · obtain hid' | ⟨stamp', -, _, hlo', -⟩ := h.reads_result hsrc hp hr'
    · exact hsrc.eq_of_value ho hp (mem_append_left _ hr) (mem_append_left _ hr') (by omega)
    · omega
  · obtain hid' | ⟨stamp', htaken', -, hlo', _⟩ := h.reads_result hsrc hp hr'
    · omega
    by_contra hne
    have := h.apart o ho p hp (fun hid => hne (hsrc.eq_of_id ho hp hid)) stamp stamp' htaken htaken'
    omega

theorem Done.suits (hops : Op.walkAll ops ⊆ src.walk) :
    (layoutOf D κ ops).Suits ops (renderAll D ρ ops) where
  temps t ht := by
    obtain ⟨o, ho, rfl⟩ := mem_map.mp ht
    obtain ⟨ho, hkeeps⟩ := mem_filter.mp ho
    exact h.allocates hops ho (.inr hkeeps)
  slots o ho hasks := by
    rw [slot_layoutOf hsrc hops ho]
    refine ⟨h.allocates hops ho (.inl hasks), fun ht => ?_⟩
    obtain ⟨p, hp, heq⟩ := mem_map.mp ht
    obtain ⟨hp, hkeeps⟩ := mem_filter.mp hp
    obtain rfl := h.eq_of_slotFor hsrc (hops hp) (hops ho) (.inr hkeeps) (.inl hasks) heq
    obtain ⟨code, hflat⟩ := exists_flat_of_shaped (h.fit p (hops hp)).shaped
    rw [hflat] at hasks hkeeps
    cases code <;> cases hasks <;> cases hkeeps
  slots_apart o ho p hp hasks hasks' heq := by
    rw [slot_layoutOf hsrc hops ho, slot_layoutOf hsrc hops hp] at heq
    exact h.eq_of_slotFor hsrc (hops ho) (hops hp) (.inl hasks) (.inl hasks') heq
  results o ho code r hflat hgives hr := by
    have hwalk := hops ho
    obtain ⟨stamp, htaken⟩ := h.taken o hwalk code hflat (inert_of_gives hgives)
    obtain ⟨-, _, e, hstamped⟩ := (h.fit o hwalk).taken stamp htaken
    obtain rfl := Option.some.inj (hstamped.flat.symm.trans hflat)
    have hresults : (keep D ρ o).results ≠ [] := by
      show o.results ≠ []
      rw [hr]
      exact cons_ne_nil _ _
    obtain ⟨v, hv, x, hx, hvx⟩ :=
      (emission_emitted (n := stamp.start) hstamped.emission).2 ⟨hgives, hresults⟩
    rw [hstamped.value] at hv
    rw [← hstamped.render htaken] at hx
    refine ⟨x, render_subset_walkAll (fun p hp => h.fit p (hops hp)) ho hx, v, hvx, ?_⟩
    exact (h.result o hwalk stamp r v htaken hr hv).symm
  results_apart o ho p hp r hr r' hr' heq := h.eq_of_result hsrc (hops ho) (hops hp) hr hr' heq

theorem Done.args_fixed (ho : o ∈ src.walk) {b : Block} (hb : b ∈ o.regions) (hv : v ∈ b.args) :
    κ v.id = v.id := by
  obtain hid | ⟨q, hq, _, r, _, -, hr, hid, -⟩ := h.reads v.id
  · exact hid
  have hown : v ∈ o.regions.flatMap Block.args := mem_flatMap.mpr ⟨b, hb, hv⟩
  obtain rfl := hsrc.eq_of_value hq ho (mem_append_left _ hr) (mem_append_right _ hown) hid
  have hnodup := hsrc.values
  rw [map_flatMap, nodup_flatMap] at hnodup
  have hvalues := hnodup.1 q hq
  rw [ownValues, map_append, nodup_append] at hvalues
  exact absurd hid (hvalues.2.2 r.id (mem_map_of_mem hr) v.id (mem_map_of_mem hown))

end

/-- The code of a function of a program that was lowered follows the evaluation of every block of
the function in which there is no statement that chooses between blocks. -/
theorem enacts_of_ofFlat {m m' : Module} (hm : Orderly m) (hlower : ofFlat m = .ok m') {f : Op}
    (hf : f ∈ m.walk) {func : String} {result : Ty}
    (hfunc : f.flat? = some (.funcDef func result)) :
    ∃ f' ∈ m'.walk, ∃ b b' L, f.regions = [b] ∧ f'.machine? = some (.func func) ∧
      f'.regions = [b'] ∧ b'.args.map Val.id = b.args.map Val.id ∧
      (∀ v ∈ b.args, L.value v.id = v.id) ∧ L.Suits b.ops b'.ops ∧
      ∀ ops, Within b.ops ops → (∀ xs, Within ops xs → ∀ o ∈ xs, o.flat? ≠ some .branch) →
        ∃ lo hi, (ops = b.ops → lo = 0 ∧ hi = b'.ops.length) ∧
          ∀ {ω : Type} (E : Surroundings ω), L.Housed E →
            Enacts L E m.next (returnLabel func) b'.ops lo hi ops := by
  obtain ⟨D, ρ, κ, l, hdone⟩ := done_of_ofFlat hm hlower
  obtain ⟨stamp, htaken⟩ := hdone.taken f hf _ hfunc rfl
  obtain ⟨-, code, e, hstamped⟩ := (hdone.fit f hf).taken stamp htaken
  obtain rfl := Option.some.inj (hstamped.flat.symm.trans hfunc)
  have hone := hm.shaped f hf
  rw [shaped, hfunc] at hone
  obtain ⟨_, _, b, hcode, hb, hcode'⟩ | ⟨hpaired, -⟩ := hstamped.cases (hdone.fit f hf).shaped
  · cases hcode
    have hmem : b ∈ f.regions := by simp [hb]
    have hops : (Op.walkAll b.ops).Sublist m.walk :=
      ((Op.walkAll_sublist_walkRegions hmem).trans (by
        rw [Op.walk_eq]
        exact sublist_cons_self _ _)).trans (Op.walk_sublist hf)
    refine ⟨funcOp stamp.start func b.args (renderAll D ρ b.ops), ?_, b, _, layoutOf D κ b.ops, hb,
      rfl, rfl, ?_, fun v hv => hdone.args_fixed hm hf hmem hv, hdone.suits hm hops.subset,
      fun ops hwithin hbranch => ?_⟩
    · rw [Module.walk, hdone.ops]
      refine render_subset_walkAll hdone.fit hf ?_
      rw [hstamped.render htaken, hcode']
      exact mem_singleton_self _
    · exact map_map.trans rfl
    obtain ⟨lo, hstands⟩ := hwithin.stands hdone hops.subset
    refine ⟨lo, lo + (renderAll D ρ ops).length, ?_, fun E hE => ?_⟩
    · rintro rfl
      obtain ⟨before, after, heq, rfl⟩ := hstands
      have hlength := congrArg List.length heq
      simp only [length_append] at hlength
      exact ⟨by omega, show _ = (renderAll D ρ b.ops).length by omega⟩
    · exact enacts_of_runs (T := hdone.scene hm hops func E hE) (fun n => runs_ops
        hdone hm ⟨rfl, rfl, hops.subset⟩ hwithin.subset hbranch) hstands
  · obtain hregions | ⟨_, _, hregions⟩ := hpaired <;> simp [hregions] at hone

def flatOp (id : Nat) (code : FlatCode) (operands results : List Nat) (blocks : List (List Op)) :
    Op :=
  .mk id (.flat code) (operands.map fun v => ⟨v, .int⟩) (results.map fun v => ⟨v, .int⟩)
    (blocks.map (.mk []))

/-- A function that beeps as long as a clock ticks and the truth is true, and then returns the time,
since a lie is not true. -/
def tickerBody : List Op := [ flatOp 2 .loop [] [] [ [flatOp 3 (.lazyBinary "and") [] [11] [
        [flatOp 4 (.call "tick") [] [12] [], flatOp 5 .yield [12] [] []],
        [flatOp 6 (.literal (.bool true)) [] [13] [], flatOp 7 .yield [13] [] []]],
      flatOp 8 .yield [11] [] []],
    [flatOp 9 (.call "beep") [] [] []]],
  flatOp 10 (.literal (.bool false)) [] [14] [],
  flatOp 11 .choice [14] [15] [
    [flatOp 12 (.literal (.int 5 32)) [] [16] [], flatOp 13 .yield [16] [] []],
    [flatOp 14 (.call "time") [] [17] [], flatOp 15 .yield [17] [] []]],
  flatOp 16 .ret [15] [] []]

@[inherit_doc tickerBody]
def ticker : Module where
  ops := [flatOp 1 (.funcDef "run" .int) [] [] [tickerBody]]
  next := 20

def clock : Surroundings Nat where
  slot i := wordOf (4 * i)
  reserved _ := false
  fits _ := true
  serve
    | .call "tick", _, m, n => some (truthWord (n < 2), m, n + 1)
    | .call "time", _, m, n => some (wordOf n, m, n)
    | _, _, m, n => some (0, m, n)

theorem blind_clock (hide : Word → Bool) : clock.Blind hide := by
  intro r args m m' n w m1 n1 hagree hserve
  unfold clock at hserve ⊢
  dsimp only at hserve ⊢
  split at hserve
  all_goals
    cases hserve
    exact ⟨m', rfl, hagree⟩

theorem orderly_ticker : Orderly ticker where
  shaped := by decide +kernel
  ids := by decide +kernel
  values := by decide +kernel
  id_lt := by decide +kernel
  value_lt := by decide +kernel
  unread := by decide +kernel
  remnants := nofun

/-- The function beeps twice and returns 3. -/
theorem enacts_of_ofFlat_ticker :
    ∃ m' f' b' L, ofFlat ticker = .ok m' ∧ f' ∈ m'.walk ∧ f'.machine? = some (.func "run") ∧
      f'.regions = [b'] ∧ ∃ j V S, Goes clock (returnLabel "run") b'.ops 0 b'.ops.length j
          (stateOf (.at 0) (fun _ => none) ⟨fun _ => 0, 0, []⟩) (stateOf (.returned 3) V S) ∧
        visible (Layout.hides L clock) S.trace = [
          .ask (.call "tick") [] 1, .ask (.call "beep") [] 0,
          .ask (.call "tick") [] 1, .ask (.call "beep") [] 0, .ask (.call "tick") [] 0,
          .ask (.call "time") [] 3] := by
  have hok : (ofFlat ticker).isOk := by decide +kernel
  match hm' : ofFlat ticker with
  | .error e =>
    rw [hm'] at hok
    cases hok
  | .ok m' =>
    obtain ⟨f', hf', b, b', L, hb, hcode, hb', -, -, -, hfollows⟩ :=
      enacts_of_ofFlat orderly_ticker hm' mem_cons_self rfl
    cases hb
    have hbranch : ∀ o ∈ Op.walkAll tickerBody, o.flat? ≠ some .branch := by decide +kernel
    obtain ⟨lo, hi, hwhole, hruns⟩ := hfollows tickerBody .body fun xs hxs o ho =>
      hbranch o (hxs.subset (Op.mem_walkAll_self ho))
    obtain ⟨rfl, rfl⟩ := hwhole rfl
    have heval : ∃ W s, (L.meaning clock).evalOps 5 tickerBody (fun _ => none) ⟨fun _ => 0, 0, []⟩ =
        .ended (.returned 3) W s ∧ s.trace = [.ask (.call "tick") [] 1, .ask (.call "beep") [] 0,
          .ask (.call "tick") [] 1, .ask (.call "beep") [] 0, .ask (.call "tick") [] 0,
          .ask (.call "time") [] 3] := ⟨_, _, rfl, rfl⟩
    obtain ⟨W, s, heval, htrace⟩ := heval
    obtain ⟨j, place, V, S, hgoes, htracks, hlands⟩ :=
      (hruns clock ⟨fun _ => rfl, fun _ _ => rfl, blind_clock _⟩ (fun _ => none) _ (fun _ => none)
        ⟨fun _ => 0, 0, []⟩ ⟨nofun, fun _ _ => rfl, rfl, rfl⟩).1 5 _ W s heval
    cases hlands
    exact ⟨m', f', b', L, rfl, hf', hcode, hb', j, V, S, hgoes, htracks.sees.trace.trans htrace⟩

end Practicum.Machine
