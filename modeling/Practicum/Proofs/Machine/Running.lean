import Practicum.Proofs.Machine.Lowered
import Practicum.Proofs.Machine.Scenes

/-!
# Running lowered operations

Once a program has been lowered, the code for its operations stands in the code of their function.
The numbers of the code for each operation are its own, so the code for every kind of operation
comes to where the operation ends, and so does the code for every list of operations.
-/

namespace Practicum.Machine

open IR Riscv Flat List Option Op Scene

variable {ω : Type}

def slotFor (D : Nat → Fate) (o : Op) : Nat :=
  match o.flat?, D o.id with
  | some code, .taken stamp => slotAt code stamp.start
  | _, _ => 0

/-- The code for an operation uses memory on the stack on its own account. -/
def keepsTemp : FlatCode → Bool
  | .choice => true
  | .lazyBinary op => (settling? op).isSome
  | _ => false

def asksSlot : FlatCode → Bool
  | .alloc _ | .indexString => true
  | _ => false

/-- How the code for operations stands for them. -/
def layoutOf (D : Nat → Fate) (κ : Nat → Nat) (ops : List Op) : Layout where
  value := κ
  slot i := (((walkAll ops).find? fun o => o.id == i).map (slotFor D)).getD 0
  temps := ((walkAll ops).filter fun o => o.flat?.any keepsTemp).map (slotFor D)

def Owned (D : Nat → Fate) (ops : List Op) (id : Nat) : Prop :=
  ∃ o ∈ walkAll ops, ∃ stamp, D o.id = .taken stamp ∧ stamp.start ≤ id ∧ id < stamp.stop

variable {src m : Module} {D : Nat → Fate} {ρ : Val → Val} {κ : Nat → Nat} {l : Labels} {o : Op}
  {stamp : Stamp}

section
variable {b : Block} {v : Val}

variable (h : Rendered src D ρ κ m l) (hsrc : Orderly src) (ho : o ∈ src.walk)
  (htaken : D o.id = .taken stamp)
include h hsrc ho htaken

theorem Rendered.image {x : Nat} (hx : x < src.next) (hlo : stamp.start ≤ κ x)
    (hhi : κ x < stamp.stop) :
    ∃ r ∈ o.results, r.id = x ∧ ∃ v, stamp.value = some v ∧ κ x = v.id := by
  obtain ⟨_, -⟩ := (h.fit o ho).taken stamp htaken
  obtain _ | ⟨p, hp, stamp', r, v, htaken', hr, hid, hv, hκ⟩ := h.reads x
  · omega
  obtain ⟨-, _, _⟩ := h.value_bounds hp htaken' hv
  have hpo : p.id = o.id := by
    by_contra hne
    have := h.apart p hp o ho hne stamp' stamp htaken' htaken
    omega
  obtain rfl := hsrc.eq_of_id hp ho hpo
  rw [htaken] at htaken'
  cases htaken'
  exact ⟨r, hr, hid, v, hv, hκ⟩

theorem Rendered.operands_clear (hv : v ∈ o.operands.map ρ) :
    v.id < stamp.start ∨ stamp.stop ≤ v.id := by
  obtain ⟨u, hu, rfl⟩ := mem_map.mp hv
  rw [h.names]
  by_contra hrange
  have hlt := hsrc.value_lt o ho u (mem_append_left _ hu)
  obtain ⟨r, hr, hid, -⟩ := h.image hsrc ho htaken hlt (by omega) (by omega)
  exact hsrc.unread o ho u hu r hr hid.symm

theorem Rendered.not_owned (hb : b ∈ o.regions) {id : Nat} (hlo : stamp.start ≤ id)
    (hhi : id < stamp.stop) : ¬Owned D b.ops id := by
  rintro ⟨p, hp, stamp', htaken', _, _⟩
  obtain ⟨hwalk, hne⟩ := hsrc.nested ho hb hp
  have := h.apart p hwalk o ho hne stamp' stamp htaken' htaken
  omega

end

/-- The code of a function was made from operations of the flat level. -/
structure Scene.Shows (T : Scene ω) (src : Module) (D : Nat → Fate) (κ : Nat → Nat)
    (ops : List Op) : Prop where
  least : T.least = src.next
  layout : T.layout = layoutOf D κ ops
  walk : walkAll ops ⊆ src.walk

section
variable {ops xs : List Op} {T : Scene ω} {n : Nat} {code : FlatCode} {e : Emit Code}
  {regions : List (Region Word (Store ω) String)}

theorem slot_layoutOf (hsrc : Orderly src) (hops : walkAll ops ⊆ src.walk)
    (ho : o ∈ walkAll ops) : (layoutOf D κ ops).slot o.id = slotFor D o := by
  have hfind : (walkAll ops).find? (fun p => p.id == o.id) = some o := by
    cases hp : (walkAll ops).find? fun p => p.id == o.id with
    | none => exact absurd (beq_self_eq_true o.id) (List.find?_eq_none.mp hp o ho)
    | some p =>
      have hid : p.id = o.id := beq_iff_eq.mp (List.find?_some (p := fun p : Op => p.id == o.id) hp)
      rw [hsrc.eq_of_id (hops (mem_of_find?_eq_some hp)) (hops ho) hid]
  rw [layoutOf]
  dsimp only
  rw [hfind, map_some, getD_some]

theorem Scene.Shows.value (hT : T.Shows src D κ ops) : T.layout.value = κ := by
  rw [hT.layout, layoutOf]

theorem Scene.Shows.slot (hT : T.Shows src D κ ops) (hsrc : Orderly src) (ho : o ∈ walkAll ops)
    (hflat : o.flat? = some code) (htaken : D o.id = .taken stamp) :
    T.layout.slot o.id = slotAt code stamp.start := by
  rw [hT.layout, slot_layoutOf hsrc hT.walk ho, slotFor, hflat, htaken]

theorem Scene.Shows.temps (hT : T.Shows src D κ ops) (ho : o ∈ walkAll ops)
    (hflat : o.flat? = some code) (htaken : D o.id = .taken stamp)
    (hkeeps : keepsTemp code = true) : slotAt code stamp.start ∈ T.layout.temps := by
  rw [hT.layout]
  refine mem_map.mpr ⟨o, mem_filter.mpr ⟨ho, by rwa [hflat]⟩, ?_⟩
  rw [slotFor, hflat, htaken]

/-! ## Evaluation by the kinds of operations -/

def region (M : Meaning Word (Store ω) String) (n : Nat) (b : Block) :
    Region Word (Store ω) String where
  run := M.evalOps n b.ops
  value := (yieldOf b.ops).map Val.id

theorem evalRegions_eq_map (M : Meaning Word (Store ω) String) (n : Nat) (bs : List Block) :
    M.evalRegions n bs = bs.map (region M n) := by
  induction bs with
  | nil => rw [Meaning.evalRegions, map_nil]
  | cons b bs ih =>
    cases b
    rw [Meaning.evalRegions, ih]
    rfl

theorem evalOp_eq (M : Meaning Word (Store ω) String) (hflat : o.flat? = some code) :
    M.evalOp n o = M.perform n o.id (.flat code) o.operands o.results
      (o.regions.map (region M n)) := by
  obtain ⟨id, c, operands, results, regions⟩ := o
  have hc : c = .flat code := by
    cases c <;> simp_all [Op.flat?, Op.code]
  rw [Meaning.evalOp, evalRegions_eq_map, hc]
  rfl

theorem exists_of_yieldOf (h : yieldOf ops = some v) : ∃ o ∈ ops, v ∈ o.operands := by
  obtain ⟨o, ho, h⟩ := bind_eq_some_iff.mp h
  refine ⟨o, mem_of_getLast? ho, ?_⟩
  split at h
  next hoperands =>
    cases h
    rw [hoperands]
    exact mem_cons_self
  · cases h

section
variable (h : Rendered src D ρ κ m l) (hsrc : Orderly src) (hT : T.Shows src D κ ops)
  (ho : o ∈ src.walk)
include h hsrc hT ho

theorem Rendered.owns (htaken : D o.id = .taken stamp) :
    T.Owns stamp.start stamp.stop stamp.value o.results where
  image x hx hlo hhi := by
    rw [hT.value] at hlo hhi ⊢
    exact h.image hsrc ho htaken (hT.least ▸ hx) hlo hhi
  result r v hr hv := by
    rw [hT.value]
    exact h.result o ho stamp r v htaken hr hv

theorem Rendered.args (W : Env Word) (s : Store ω) (V : Values) (S : Store ω) (args : List Word)
    (htracks : T.Tracks W s V S) (hargs : o.operands.mapM (fun v => W v.id) = some args) :
    (o.operands.map ρ).mapM (fun v => V v.id) = some args := by
  refine Env.mapM_rename (fun v hv w hw => ?_) hargs
  have hlt := hsrc.value_lt o ho v (mem_append_left _ hv)
  rw [h.names, ← hT.value]
  exact htracks.values v.id (hT.least.symm ▸ hlt) w hw

theorem Rendered.runsTo {own : Nat → Prop} (hb : b ∈ o.regions)
    (hruns : T.Runs n (renderAll D ρ b.ops) own (T.meaning.evalOps n b.ops))
    (hyield : (yieldOf b.ops).map ρ = some v) :
    T.RunsTo n (renderAll D ρ b.ops) own (region T.meaning n b) v := by
  obtain ⟨u, hu, rfl⟩ := map_eq_some_iff.mp hyield
  obtain ⟨p, hp, hup⟩ := exists_of_yieldOf hu
  have hwalk := (hsrc.nested ho hb (mem_walkAll_self hp)).1
  have hlt := hsrc.value_lt p hwalk u (mem_append_left _ hup)
  refine ⟨hruns, u.id, ?_, hT.least.symm ▸ hlt, ?_⟩
  · rw [region, hu, map_some]
  · rw [hT.value, h.names]

end

theorem isSome_settling? (op : String) : (settling? op).isSome = !inert (.lazyBinary op) := by
  unfold settling?
  split
  · rfl
  · rfl
  next hand hor => simpa [inert] using ⟨hand, hor⟩

theorem perform_of_inert (hinert : inert code = true) (hyield : code ≠ .yield) {id : Nat}
    {operands results : List Val} {W : Env Word} {s : Store ω} :
    T.meaning.perform n id (.flat code) operands results regions W s = .stuck := by
  have hstraight (hoperate : ∀ args, T.meaning.operate code id args W s = .stuck) :
      T.meaning.straight code id operands results W s = .stuck := by
    unfold Meaning.straight
    split
    · rw [hoperate]
    · rfl
  cases code
  case lazyBinary op =>
    have hop : settling? op = none := by
      rw [← not_isSome_iff_eq_none, isSome_settling?, hinert]
      decide
    match regions with
    | [] | [_] => exact hstraight fun _ => rfl
    | _ :: _ :: _ =>
      show T.meaning.lazily op _ _ results W s = .stuck
      rw [Meaning.lazily, hop]
  case yield => exact absurd rfl hyield
  case classDef | forEach | pass | assign | member => exact hstraight fun _ => rfl
  all_goals cases hinert

theorem perform_of_straight {M : Meaning Word (Store ω) String} (hnests : nests code = false)
    (hret : code ≠ .ret) (hyield : code ≠ .yield) {id : Nat} {operands results : List Val} :
    M.perform n id (.flat code) operands results regions = M.straight code id operands results := by
  cases code
  case branch | loop | lazyBinary | choice | funcDef => cases hnests
  case ret => exact absurd rfl hret
  case yield => exact absurd rfl hyield
  all_goals rfl

def controls : FlatCode → Bool
  | .branch | .loop | .choice => true
  | .lazyBinary op => (settling? op).isSome
  | _ => false

theorem inert_of_controls (h : controls code = true) : inert code = false := by
  cases code
  case lazyBinary op =>
    rw [controls, isSome_settling?] at h
    simpa using h
  case branch | loop | choice => rfl
  all_goals cases h

theorem controls_of_nests (hnests : nests code = true) (hinert : inert code = false)
    (hfunc : ∀ func result, code ≠ .funcDef func result) : controls code = true := by
  cases code
  case funcDef func result => exact absurd rfl (hfunc func result)
  case lazyBinary op =>
    rw [controls, isSome_settling?, hinert]
    rfl
  case branch | loop | choice => rfl
  all_goals cases hnests

/-- Operations are the body of a function, or a block that runs as a part of it. -/
inductive Within (ops : List Op) : List Op → Prop where
  | body : Within ops ops
  | block {xs : List Op} {o : Op} {b : Block} {code : FlatCode} (h : Within ops xs) (ho : o ∈ xs)
      (hflat : o.flat? = some code) (hcode : controls code = true) (hb : b ∈ o.regions) :
      Within ops b.ops

theorem Within.of_tail {os : List Op} (h : Within os xs) : xs = os ∨ Within (o :: os) xs := by
  induction h with
  | body => exact .inl rfl
  | block _ hp hflat hcode hb ih =>
    obtain rfl | hwithin := ih
    · exact .inr (.block .body (mem_cons_of_mem o hp) hflat hcode hb)
    · exact .inr (.block hwithin hp hflat hcode hb)

theorem Within.of_block {ys : List Op} (h : Within b.ops xs) (ho : o ∈ ys)
    (hflat : o.flat? = some code) (hcode : controls code = true) (hb : b ∈ o.regions) :
    Within ys xs := by
  induction h with
  | body => exact .block .body ho hflat hcode hb
  | block _ hp hflat' hcode' hb' ih => exact .block ih hp hflat' hcode' hb'

theorem Within.subset (h : Within ops xs) : walkAll xs ⊆ walkAll ops := by
  induction h with
  | body => exact List.Subset.refl _
  | block _ ho _ _ hb ih =>
    intro p hp
    exact ih (mem_walkAll.mpr ⟨_, ho, walkAll_block_subset hb hp⟩)

theorem exists_blocks_of_shaped (hshaped : shaped o = true) (hflat : o.flat? = some code)
    (hcontrols : controls code = true) : ∃ b0 b1, o.regions = [b0, b1] := by
  rw [shaped, hflat] at hshaped
  refine length_eq_two.mp ?_
  cases code
  case branch => simpa using hshaped
  case loop | choice | lazyBinary =>
    simp only [Bool.and_eq_true, beq_iff_eq] at hshaped
    simp [hshaped]
  all_goals cases hcontrols

def OwnedInside (D : Nat → Fate) (o : Op) (id : Nat) : Prop :=
  ∃ b ∈ o.regions, Owned D b.ops id

theorem owned_of_taken (htaken : D o.id = .taken stamp) {id : Nat}
    (hid : (stamp.start ≤ id ∧ id < stamp.stop) ∨ OwnedInside D o id) : Owned D [o] id := by
  rw [Owned, walkAll, walkAll, append_nil]
  obtain hid | ⟨b, hb, p, hp, hrest⟩ := hid
  · exact ⟨o, mem_walk_self o, stamp, htaken, hid⟩
  · exact ⟨p, walkAll_block_subset hb hp, hrest⟩

section
variable (h : Rendered src D ρ κ m l) (hsrc : Orderly src) (hT : T.Shows src D κ ops)
  (ho : o ∈ walkAll ops) (htaken : D o.id = .taken stamp)
  (hstamped : Stamped D ρ o stamp code e)

include h hsrc hT ho htaken hstamped

theorem runs_stamped_straight (hnests : nests code = false) (hyield : code ≠ .yield) :
    T.Runs n (e.run stamp.start).1.ops (Owned D [o]) (T.meaning.evalOp n o) := by
  have hargs := h.args hsrc hT (hT.walk ho)
  rw [evalOp_eq _ hstamped.flat]
  by_cases hret : code = .ret
  · subst hret
    have he := hstamped.emission
    cases he
    exact runs_ret hargs
  · rw [perform_of_straight hnests hret hyield]
    have howns := h.owns hsrc hT (hT.walk ho) htaken
    have hclear (v : Val) (hv : v ∈ (keep D ρ o).operands) :=
      h.operands_clear hsrc (hT.walk ho) htaken hv
    rw [← hstamped.stop, ← hstamped.value] at howns
    rw [← hstamped.stop] at hclear
    refine (runs_straight hstamped.emission hnests hret howns
      (hT.slot hsrc ho hstamped.flat htaken) hargs hclear).mono fun _ hid => ?_
    rw [hstamped.stop] at hid
    exact owned_of_taken htaken (.inl hid)

variable {b0 b1 : Block} (hregions : o.regions = [b0, b1])
  (hblocks : ∀ b ∈ o.regions,
    T.Runs n (renderAll D ρ b.ops) (OwnedInside D o) (T.meaning.evalOps n b.ops))

include hregions hblocks

theorem runs_stamped_controls (hcontrols : controls code = true) (hbranch : code ≠ .branch) :
    T.Runs n (e.run stamp.start).1.ops (Owned D [o]) (T.meaning.evalOp n o) := by
  have howns := h.owns hsrc hT (hT.walk ho) htaken
  have hinside (id : Nat) (hat : stamp.start ≤ id ∧ id < stamp.stop) : ¬OwnedInside D o id := by
    rintro ⟨b, hb, hid⟩
    exact h.not_owned hsrc (hT.walk ho) htaken hb hat.1 hat.2 hid
  have hb0 : b0 ∈ o.regions := by simp [hregions]
  have hb1 : b1 ∈ o.regions := by simp [hregions]
  have hops0 : (keep D ρ o).regionOps 0 = renderAll D ρ b0.ops := by
    rw [regionOps_keep]
    simp [regionOps, hregions]
  have hops1 : (keep D ρ o).regionOps 1 = renderAll D ρ b1.ops := by
    rw [regionOps_keep]
    simp [regionOps, hregions]
  have hyield0 : yieldAt ρ o.regions 0 = (yieldOf b0.ops).map ρ := by simp [yieldAt, hregions]
  have hyield1 : yieldAt ρ o.regions 1 = (yieldOf b1.ops).map ρ := by simp [yieldAt, hregions]
  have hown (id : Nat) (hid : (stamp.start ≤ id ∧ id < stamp.stop) ∨ OwnedInside D o id) :
      Owned D [o] id := owned_of_taken htaken hid
  have he := hstamped.emission
  rw [← hstamped.stop, ← hstamped.value] at howns
  rw [← hstamped.stop] at hinside hown
  rw [evalOp_eq _ hstamped.flat, hregions]
  cases code
  case branch => exact absurd rfl hbranch
  case loop =>
    obtain ⟨v, hv, he⟩ := bind_eq_some_iff.mp he
    cases he
    rw [hyield0] at hv
    refine (runs_loop howns ?_ ?_ hinside).mono hown
    · rw [hops0]
      exact h.runsTo hsrc hT (hT.walk ho) hb0 (hblocks b0 hb0) hv
    · rw [hops1]
      exact hblocks b1 hb1
  case choice =>
    have hoperands : (keep D ρ o).operands = o.operands.map ρ := rfl
    cases hcond : o.operands with
    | nil =>
      simp only [emission, hoperands, hcond, map_nil] at he
      cases he
    | cons u _ =>
      simp only [emission, hoperands, hcond, map_cons] at he
      obtain ⟨v, w, hv, hw, he⟩ := of_some_bind₂ he
      cases he
      rw [hyield0] at hv
      rw [hyield1] at hw
      have hlt := hsrc.value_lt o (hT.walk ho) u (mem_append_left _ (by simp [hcond]))
      have ht := hT.temps ho hstamped.flat htaken rfl
      refine (runs_choice (x := u.id) (hT.least.symm ▸ hlt) ?_ ht howns ?_ ?_ hinside).mono hown
      · rw [hT.value, h.names]
      · rw [hops0]
        exact h.runsTo hsrc hT (hT.walk ho) hb0 (hblocks b0 hb0) hv
      · rw [hops1]
        exact h.runsTo hsrc hT (hT.walk ho) hb1 (hblocks b1 hb1) hw
  case lazyBinary op =>
    obtain ⟨v, w, hv, hw, hsome⟩ := of_some_bind₂ he
    rw [hyield0] at hv
    rw [hyield1] at hw
    have ht := hT.temps ho hstamped.flat htaken hcontrols
    have hlhs := h.runsTo hsrc hT (hT.walk ho) hb0 (hblocks b0 hb0) hv
    have hrhs := h.runsTo hsrc hT (hT.walk ho) hb1 (hblocks b1 hb1) hw
    rw [hops0, hops1] at hsome
    split at hsome
    next hand =>
      cases hsome
      have hop : settling? op = some false := by rw [hand]; rfl
      exact (runs_lazily hop rfl ht howns hlhs hrhs hinside).mono hown
    split at hsome
    next hor =>
      cases hsome
      have hop : settling? op = some true := by rw [hor]; rfl
      exact (runs_lazily hop rfl ht howns hlhs hrhs hinside).mono hown
    · cases hsome
  all_goals cases hcontrols

end

section
variable (hdone : Done src D ρ κ m l) (hsrc : Orderly src) (hT : T.Shows src D κ ops)

include hdone hsrc hT

theorem runs_op (ho : o ∈ walkAll ops) (hbranch : o.flat? ≠ some .branch)
    (hblocks : ∀ code, o.flat? = some code → controls code = true → ∀ b ∈ o.regions,
      T.Runs n (renderAll D ρ b.ops) (Owned D b.ops) (T.meaning.evalOps n b.ops)) :
    T.Runs n (render D ρ o) (Owned D [o]) (T.meaning.evalOp n o) := by
  have hwalk := hT.walk ho
  obtain ⟨code, hflat⟩ := exists_flat_of_shaped (hsrc.shaped o hwalk)
  cases hinert : inert code with
  | true =>
    rw [evalOp_eq _ hflat]
    by_cases hyield : code = .yield
    · subst hyield
      rw [render_of_erased (hdone.erased o hwalk hflat)]
      exact runs_nil
    · intro k W s V S _ _
      rw [perform_of_inert hinert hyield]
      trivial
  | false =>
    obtain ⟨stamp, htaken⟩ := hdone.taken o hwalk code hflat hinert
    obtain ⟨-, code', e, hstamped⟩ := (hdone.fit o hwalk).taken stamp htaken
    obtain rfl := Option.some.inj (hstamped.flat.symm.trans hflat)
    rw [hstamped.render htaken]
    cases hnests : nests code' with
    | false =>
      refine runs_stamped_straight hdone.toRendered hsrc hT ho htaken hstamped hnests ?_
      rintro rfl
      cases hinert
    | true =>
      by_cases hfunc : ∃ func result, code' = .funcDef func result
      · obtain ⟨func, result, rfl⟩ := hfunc
        rw [evalOp_eq _ hflat]
        have he := hstamped.emission
        cases he
        exact runs_func
      · have hcontrols := controls_of_nests hnests hinert fun func result hcode =>
          hfunc ⟨func, result, hcode⟩
        obtain ⟨_, _, hregions⟩ := exists_blocks_of_shaped (hsrc.shaped o hwalk) hflat hcontrols
        refine runs_stamped_controls hdone.toRendered hsrc hT ho htaken hstamped hregions
          (fun b hb => ?_) hcontrols ?_
        · exact (hblocks _ hflat hcontrols b hb).mono fun _ hid => ⟨b, hb, hid⟩
        · rintro rfl
          exact hbranch hflat

/-- The code for operations comes to where their evaluation ends. -/
theorem runs_ops (hxs : walkAll xs ⊆ walkAll ops)
    (hbranch : ∀ ys, Within xs ys → ∀ o ∈ ys, o.flat? ≠ some .branch) :
    T.Runs n (renderAll D ρ xs) (Owned D xs) (T.meaning.evalOps n xs) := by
  induction xs using nested_induction with
  | nil =>
    exact runs_nil
  | cons o os hblocks hos =>
    obtain ⟨hxo, hxos⟩ := append_subset.mp hxs
    have hown (ys : List Op) (hys : walkAll ys ⊆ walkAll (o :: os)) (id : Nat)
        (hid : Owned D ys id) : Owned D (o :: os) id := by
      obtain ⟨p, hp, hrest⟩ := hid
      exact ⟨p, hys hp, hrest⟩
    have hfirst := runs_op hdone hsrc hT (n := n) (hxo (mem_walk_self o))
      (hbranch _ .body o mem_cons_self) fun _ hflat hcode b hb => hblocks b hb
        (fun p hp => hxo (walkAll_block_subset hb hp))
        fun ys hys => hbranch ys (hys.of_block mem_cons_self hflat hcode hb)
    have hrest := hos hxos fun ys hys p hp => by
      obtain rfl | hys := hys.of_tail (o := o)
      · exact hbranch _ .body p (mem_cons_of_mem o hp)
      · exact hbranch ys hys p hp
    refine (hfirst.mono (hown [o] ?_)).append (hrest.mono (hown os ?_))
    · simp [walkAll]
    · simp [walkAll]

end

end

end Practicum.Machine
