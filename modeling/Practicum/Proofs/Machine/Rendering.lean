import Practicum.Proofs.Machine.Shapes

/-!
# What a program is lowered to

Lowering replaces the operations of a program one by one, and the operations nested in one that was
replaced move into its code. At any time the program is known from the program at the beginning,
from what became of each of its operations, and from the names of its values.
-/

namespace Practicum.Machine

open IR Riscv Flat Editing List

/-! ## Rendering -/

/-- Where the code for an operation comes from: the first of the numbers that it takes and the first
behind them, the number of its labels, and the value that is read in the place of its result. -/
structure Stamp where
  start : Nat
  stop : Nat
  label : Nat
  value : Option Val

inductive Fate where
  | kept
  | taken (stamp : Stamp)
  | erased

def Fate.place (fate : Fate) (o : Op) (yields : Nat → Option Val) : List Op :=
  match fate, o.flat? with
  | .kept, _ => [o]
  | .taken stamp, some code =>
    ((emission stamp.label code o yields).map fun e => (e.run stamp.start).1.ops).getD []
  | _, _ => []

/-- The value that the block of a number ends with, under other names for the values. -/
def yieldAt (ρ : Val → Val) (regions : List Block) (k : Nat) : Option Val :=
  (yieldOf (((regions.drop k).head?.map Block.ops).getD [])).map ρ

mutual

/-- What an operation is lowered to, by what becomes of each operation in it and by the names of
the values. -/
def render (D : Nat → Fate) (ρ : Val → Val) : Op → List Op
  | .mk id code operands results regions =>
    (D id).place (.mk id code (operands.map ρ) results (renderRegions D ρ regions))
      (yieldAt ρ regions)

def renderAll (D : Nat → Fate) (ρ : Val → Val) : List Op → List Op
  | [] => []
  | o :: os => render D ρ o ++ renderAll D ρ os

def renderRegions (D : Nat → Fate) (ρ : Val → Val) : List Block → List Block
  | [] => []
  | .mk args ops :: bs => .mk args (renderAll D ρ ops) :: renderRegions D ρ bs

end

/-- An operation that is kept, with what its blocks are lowered to. -/
def keep (D : Nat → Fate) (ρ : Val → Val) (o : Op) : Op :=
  .mk o.id o.code (o.operands.map ρ) o.results (renderRegions D ρ o.regions)

section
variable {least : Nat} {D D' : Nat → Fate} {ρ ρ' σ : Val → Val} {F : List Op → List Op} {o x : Op}
  {ops : List Op} {stamp : Stamp}
variable {e : Emit Code} {code : FlatCode}

variable (D ρ)

theorem render_eq (o : Op) : render D ρ o = (D o.id).place (keep D ρ o) (yieldAt ρ o.regions) := by
  cases o
  rfl

theorem renderRegions_eq (bs : List Block) :
    renderRegions D ρ bs = bs.map fun b => .mk b.args (renderAll D ρ b.ops) :=
  Op.regions_eq_map rfl (fun _ _ _ => rfl) bs

theorem renderAll_append (xs ys : List Op) :
    renderAll D ρ (xs ++ ys) = renderAll D ρ xs ++ renderAll D ρ ys := by
  induction xs with
  | nil => rw [renderAll, nil_append, nil_append]
  | cons x xs ih => rw [cons_append, renderAll, renderAll, ih, append_assoc]

theorem regionOps_keep (o : Op) (k : Nat) :
    (keep D ρ o).regionOps k = renderAll D ρ (o.regionOps k) := by
  apply Op.regionOps_of_map
  · rw [renderAll]
  · exact renderRegions_eq D ρ o.regions

variable {D ρ}

theorem render_of_kept (h : D o.id = .kept) : render D ρ o = [keep D ρ o] := by
  rw [render_eq, h]
  rfl

theorem render_of_erased (h : D o.id = .erased) : render D ρ o = [] := by
  rw [render_eq, h]
  rfl

structure Stamped (D : Nat → Fate) (ρ : Val → Val) (o : Op) (stamp : Stamp) (code : FlatCode)
    (e : Emit Code) : Prop where
  flat : o.flat? = some code
  emission : emission stamp.label code (keep D ρ o) (yieldAt ρ o.regions) = some e
  value : (e.run stamp.start).1.value = stamp.value
  stop : (e.run stamp.start).2 = stamp.stop

theorem Stamped.render (h : Stamped D ρ o stamp code e)
    (htaken : D o.id = .taken stamp) : render D ρ o = (e.run stamp.start).1.ops := by
  have hflat : (keep D ρ o).flat? = some code := h.flat
  simp only [render_eq, htaken, Fate.place, hflat, h.emission, Option.map_some, Option.getD_some]

abbrev mapBlocks (F : List Op → List Op) (bs : List Block) : List Block :=
  bs.map fun b => .mk b.args (F b.ops)

theorem Stamped.moved (hF : Commutes least F σ) (hρ : ∀ v, ρ' v = σ (ρ v))
    (h : Stamped D ρ o stamp code e) (hstart : least ≤ stamp.start)
    (hregions : renderRegions D' ρ' o.regions = mapBlocks F (renderRegions D ρ o.regions)) :
    ∃ e', Stamped D' ρ' o stamp code e' ∧
      F (e.run stamp.start).1.ops = (e'.run stamp.start).1.ops := by
  have hoperands : (keep D' ρ' o).operands = (keep D ρ o).operands.map σ := by
    show o.operands.map ρ' = (o.operands.map ρ).map σ
    rw [map_map]
    exact map_congr_left fun v _ => hρ v
  have hyields (k : Nat) : yieldAt ρ' o.regions k = (yieldAt ρ o.regions k).map σ := by
    rw [yieldAt, yieldAt, Option.map_map]
    exact congrArg (Option.map · _) (funext hρ)
  obtain ⟨e', he', hmirrored⟩ := emission_mirrored hF hoperands rfl hregions hyields h.emission
  obtain ⟨-, hnext, hcodes⟩ := hmirrored stamp.start hstart
  exact ⟨e', ⟨h.flat, he', hcodes.value.trans h.value, hnext.trans h.stop⟩, hcodes.ops⟩

theorem renderRegions_moved {bs : List Block}
    (h : ∀ b ∈ bs, F (renderAll D ρ b.ops) = renderAll D' ρ' b.ops) :
    renderRegions D' ρ' bs = mapBlocks F (renderRegions D ρ bs) := by
  rw [renderRegions_eq, renderRegions_eq, mapBlocks, map_map]
  exact map_congr_left fun b hb => congrArg (Block.mk b.args) (h b hb).symm

/-- What a change of the program does to an operation, if it works on the blocks of the operation as
it should. -/
def Moves (least : Nat) (F : List Op → List Op) (D D' : Nat → Fate) (ρ ρ' : Val → Val) (o : Op) :
    Prop :=
  match D o.id with
  | .kept => renderRegions D' ρ' o.regions = mapBlocks F (renderRegions D ρ o.regions) →
      F [keep D ρ o] = render D' ρ' o
  | .taken stamp => D' o.id = .taken stamp ∧ least ≤ stamp.start ∧ ∃ code e, Stamped D ρ o stamp code e
  | .erased => D' o.id = .erased

theorem renderAll_moved (hF : Commutes least F σ) (hρ : ∀ v, ρ' v = σ (ρ v)) (ops : List Op)
    (h : ∀ x ∈ Op.walkAll ops, Moves least F D D' ρ ρ' x) :
    F (renderAll D ρ ops) = renderAll D' ρ' ops := by
  induction ops using Op.nested_induction with
  | nil => rw [renderAll, renderAll, hF.nil]
  | cons o _ hblocks hos =>
    rw [Op.walkAll, forall_mem_append] at h
    have hregions := renderRegions_moved fun b hb =>
      hblocks b hb fun x hx => h.1 x (Op.walkAll_block_subset hb hx)
    have ho := h.1 o (Op.mem_walk_self o)
    rw [renderAll, hF.append, hos h.2]
    congr 1
    rw [Moves] at ho
    split at ho
    next hkept =>
      rw [render_of_kept hkept]
      exact ho hregions
    next stamp htaken =>
      obtain ⟨htaken', hstart, _, e, hstamped⟩ := ho
      obtain ⟨_, hstamped', hops⟩ := hstamped.moved hF hρ hstart hregions
      rw [hstamped.render htaken, hstamped'.render htaken', hops]
    next herased =>
      rw [render_of_erased herased, render_of_erased ho, hF.nil]

/-! ## What stands in a rendering -/

/-- An operation of the flat level has the blocks that its code speaks of, and they end with a value
where it is needed. -/
def shaped (o : Op) : Bool :=
  match o.flat? with
  | some .branch => o.regions.length == 2
  | some .loop => o.regions.length == 2 && (yieldOf (o.regionOps 0)).isSome
  | some (.lazyBinary _) | some .choice =>
    o.regions.length == 2 && (yieldOf (o.regionOps 0)).isSome && (yieldOf (o.regionOps 1)).isSome
  | some (.funcDef ..) => o.regions.length == 1
  | some (.classDef ..) | some .forEach | some .pass | some .assign | some (.member _) => true
  | some _ => o.regions.isEmpty
  | none => false

theorem exists_flat_of_shaped (h : shaped o = true) : ∃ code, o.flat? = some code := by
  rw [shaped] at h
  cases hflat : o.flat? with
  | none => simp [hflat] at h
  | some code => exact ⟨code, rfl⟩

theorem machine?_of_shaped (h : shaped o = true) : o.machine? = none := by
  obtain ⟨code, hflat⟩ := exists_flat_of_shaped h
  cases hcode : o.code <;> simp [Op.flat?, Op.machine?, hcode] at hflat ⊢

/-- What became of an operation can have become of it. -/
structure Fit (least : Nat) (D : Nat → Fate) (ρ : Val → Val) (o : Op) : Prop where
  shaped : shaped o = true
  taken : ∀ stamp, D o.id = .taken stamp →
    least ≤ stamp.start ∧ ∃ code e, Stamped D ρ o stamp code e
  erased : D o.id = .erased → o.flat? = some .yield

def funcOp (n : Nat) (func : String) (args : List Val) (body : List Op) : Op :=
  .mk n (.machine (.func func) none) [] [] [.mk (args.map inRegister) body]

def Paired (o : Op) : Prop :=
  o.regions = [] ∨ ∃ b b', o.regions = [b, b']

theorem Paired.walkRegions (h : Paired o) :
    Op.walkRegions o.regions = Op.walkAll (o.regionOps 0) ++ Op.walkAll (o.regionOps 1) := by
  obtain hempty | ⟨b, _, hbs⟩ := h
  · simp [Op.regionOps, hempty, Op.walkRegions, Op.walkAll]
  · simp [Op.regionOps, hbs, Op.walkRegions_pair]

theorem Paired.ops_of_mem (h : Paired o) {b : Block} (hb : b ∈ o.regions) :
    b.ops = o.regionOps 0 ∨ b.ops = o.regionOps 1 := by
  obtain hempty | ⟨_, _, hbs⟩ := h
  · rw [hempty] at hb
    cases hb
  · rw [hbs] at hb
    obtain rfl | hb := mem_cons.mp hb
    · exact .inl (by simp [Op.regionOps, hbs])
    · obtain rfl := mem_singleton.mp hb
      exact .inr (by simp [Op.regionOps, hbs])

theorem paired_of_shaped (h : shaped o = true) (hflat : o.flat? = some code)
    (hinert : inert code = false) (hfunc : ∀ f t, code ≠ .funcDef f t) :
    (nests code = false → o.regions = []) ∧ Paired o := by
  have htwo (hlength : o.regions.length = 2) : Paired o := .inr (length_eq_two.mp hlength)
  rw [shaped, hflat] at h
  cases code
  case funcDef f t => exact absurd rfl (hfunc f t)
  case branch => exact ⟨nofun, htwo (by simpa using h)⟩
  case loop | choice | lazyBinary =>
    simp only [Bool.and_eq_true, beq_iff_eq] at h
    exact ⟨nofun, htwo (by simp [h])⟩
  case classDef | forEach | pass | assign | member => cases hinert
  all_goals
    have hempty : o.regions = [] := by simpa using h
    exact ⟨fun _ => hempty, .inl hempty⟩

theorem Stamped.cases (hshaped : shaped o = true) (h : Stamped D ρ o stamp code e) :
    (∃ func result b, code = .funcDef func result ∧ o.regions = [b] ∧
      (e.run stamp.start).1.ops = [funcOp stamp.start func b.args (renderAll D ρ b.ops)]) ∨
    (Paired o ∧ Around stamp.start (ownLabels stamp.label code) (renderAll D ρ (o.regionOps 0))
        (renderAll D ρ (o.regionOps 1)) (e.run stamp.start).1.ops) := by
  by_cases hfunc : ∃ func result, code = .funcDef func result
  · obtain ⟨func, result, rfl⟩ := hfunc
    rw [shaped, h.flat] at hshaped
    obtain ⟨b, hb⟩ := length_eq_one_iff.mp (beq_iff_eq.mp hshaped)
    refine .inl ⟨func, result, b, rfl, hb, ?_⟩
    have he := h.emission
    cases he
    have hargs : argsOf (keep D ρ o) = b.args := by
      show ((renderRegions D ρ o.regions).head?.map Block.args).getD [] = b.args
      rw [renderRegions_eq, hb]
      rfl
    have hops : o.regionOps 0 = b.ops := by simp [Op.regionOps, hb]
    rw [hargs, regionOps_keep, hops]
    rfl
  · have hfunc' : ∀ f t, code ≠ .funcDef f t := fun f t hcode => hfunc ⟨f, t, hcode⟩
    obtain ⟨hnests, hpaired⟩ := paired_of_shaped hshaped h.flat (inert_of_emission h.emission)
      hfunc'
    refine .inr ⟨hpaired, ?_⟩
    rw [← regionOps_keep, ← regionOps_keep]
    refine emission_around hfunc' (fun hcode => ?_) h.emission
    rw [keep, Op.regions, hnests hcode, renderRegions]

def IsNew (least : Nat) (x : Op) : Prop :=
  least ≤ x.id ∧ x.machine?.isSome = true

theorem Made.isNew {code : MachineCode} (h : Made least code x) : IsNew least x :=
  ⟨h.fresh, by rw [h.machine?]; rfl⟩

theorem Made.walk {code : MachineCode} (h : Made least code x) : Op.walk x = [x] := by
  rw [Op.walk_eq, h.regions, Op.walkRegions]

theorem mem_walkAll_render (hfit : Fit least D ρ o) (hx : x ∈ Op.walkAll (render D ρ o)) :
    IsNew least x ∨ (D o.id = .kept ∧ x = keep D ρ o) ∨
      ∃ b ∈ o.regions, x ∈ Op.walkAll (renderAll D ρ b.ops) := by
  cases hfate : D o.id with
  | erased =>
    rw [render_of_erased hfate] at hx
    cases hx
  | kept =>
    rw [render_of_kept hfate, Op.walkAll_cons, mem_cons] at hx
    obtain rfl | hx := hx
    · exact .inr (.inl ⟨rfl, rfl⟩)
    rw [Op.walkAll, append_nil] at hx
    obtain ⟨b, hb, hx⟩ := Op.mem_walkRegions.mp hx
    rw [keep, renderRegions_eq] at hb
    obtain ⟨b0, hb0, rfl⟩ := mem_map.mp hb
    exact .inr (.inr ⟨b0, hb0, hx⟩)
  | taken stamp =>
    obtain ⟨hstart, code, e, hstamped⟩ := hfit.taken stamp hfate
    rw [hstamped.render hfate] at hx
    obtain ⟨_, _, b, -, hb, hops⟩ | ⟨-, before, between, behind, hops, hmade, -⟩ :=
      hstamped.cases hfit.shaped
    · rw [hops, Op.walkAll_cons, mem_cons] at hx
      obtain rfl | hx := hx
      · exact .inl ⟨hstart, rfl⟩
      · rw [Op.walkAll, append_nil, funcOp, Op.regions, Op.walkRegions_singleton] at hx
        exact .inr (.inr ⟨b, by rw [hb]; exact mem_cons_self, hx⟩)
    · have hnew {y : Op} (hy : y ∈ before ++ between ++ behind) (hxy : x ∈ Op.walk y) :
          IsNew least x := by
        obtain ⟨code, hcode⟩ := hmade y hy
        rw [hcode.walk, mem_singleton] at hxy
        subst hxy
        exact ⟨Nat.le_trans hstart hcode.isNew.1, hcode.isNew.2⟩
      have hblock {k : Nat} (hxk : x ∈ Op.walkAll (renderAll D ρ (o.regionOps k))) :
          ∃ b ∈ o.regions, x ∈ Op.walkAll (renderAll D ρ b.ops) := by
        obtain hempty | ⟨b, hb, hops⟩ := Op.regionOps_cases o k
        · rw [hempty, renderAll, Op.walkAll] at hxk
          cases hxk
        · exact ⟨b, hb, hops ▸ hxk⟩
      rw [hops] at hx
      simp only [Op.walkAll_append, mem_append] at hx
      obtain (((hx | hx) | hx) | hx) | hx := hx
      · obtain ⟨y, hy, hxy⟩ := Op.mem_walkAll.mp hx
        exact .inl (hnew (by simp [hy]) hxy)
      · exact .inr (.inr (hblock hx))
      · obtain ⟨y, hy, hxy⟩ := Op.mem_walkAll.mp hx
        exact .inl (hnew (by simp [hy]) hxy)
      · exact .inr (.inr (hblock hx))
      · obtain ⟨y, hy, hxy⟩ := Op.mem_walkAll.mp hx
        exact .inl (hnew (by simp [hy]) hxy)

theorem mem_walkAll_renderAll (hfit : ∀ o ∈ Op.walkAll ops, Fit least D ρ o)
    (hx : x ∈ Op.walkAll (renderAll D ρ ops)) :
    IsNew least x ∨ ∃ o ∈ Op.walkAll ops, D o.id = .kept ∧ x = keep D ρ o := by
  induction ops using Op.nested_induction with
  | nil =>
    cases hx
  | cons o _ hblocks hos =>
    rw [Op.walkAll, forall_mem_append] at hfit
    rw [renderAll, Op.walkAll_append, mem_append] at hx
    obtain hx | hx := hx
    · obtain hnew | ⟨hkept, rfl⟩ | ⟨b, hb, hxb⟩ :=
        mem_walkAll_render (hfit.1 o (Op.mem_walk_self o)) hx
      · exact .inl hnew
      · exact .inr ⟨o, mem_append_left _ (Op.mem_walk_self o), hkept, rfl⟩
      · refine (hblocks b hb (fun p hp => hfit.1 p (Op.walkAll_block_subset hb hp)) hxb).imp_right ?_
        rintro ⟨p, hp, hrest⟩
        exact ⟨p, mem_append_left _ (Op.walkAll_block_subset hb hp), hrest⟩
    · refine (hos hfit.2 hx).imp_right ?_
      rintro ⟨p, hp, hrest⟩
      exact ⟨p, mem_append_right _ hp, hrest⟩

theorem walkAll_render_block_subset (hfit : Fit least D ρ o) {b : Block} (hb : b ∈ o.regions) :
    Op.walkAll (renderAll D ρ b.ops) ⊆ Op.walkAll (render D ρ o) := by
  cases hfate : D o.id with
  | erased =>
    have hshaped := hfit.shaped
    rw [Machine.shaped, hfit.erased hfate] at hshaped
    rw [isEmpty_iff.mp hshaped] at hb
    cases hb
  | kept =>
    intro x hx
    rw [render_of_kept hfate, Op.walkAll_cons]
    refine mem_cons_of_mem _ (mem_append_left _ (Op.mem_walkRegions.mpr
      ⟨.mk b.args (renderAll D ρ b.ops), ?_, hx⟩))
    rw [keep, renderRegions_eq]
    exact mem_map.mpr ⟨b, hb, rfl⟩
  | taken stamp =>
    obtain ⟨_, _, e, hstamped⟩ := hfit.taken stamp hfate
    rw [hstamped.render hfate]
    obtain ⟨_, _, _, -, hb', hops⟩ | ⟨hpaired, _, _, _, hops, -⟩ := hstamped.cases hfit.shaped
    · rw [hb'] at hb
      obtain rfl := mem_singleton.mp hb
      rw [hops, Op.walkAll_cons, funcOp, Op.regions, Op.walkRegions_singleton]
      exact fun x hx => mem_cons_of_mem _ (mem_append_left _ hx)
    · rw [hops]
      simp only [Op.walkAll_append]
      obtain hk | hk := hpaired.ops_of_mem hb <;> rw [hk] <;> intro x hx <;> simp [hx]

theorem render_subset_walkAll (hfit : ∀ o ∈ Op.walkAll ops, Fit least D ρ o)
    (ho : o ∈ Op.walkAll ops) : render D ρ o ⊆ Op.walkAll (renderAll D ρ ops) := by
  induction ops using Op.nested_induction with
  | nil =>
    cases ho
  | cons p _ hblocks hps =>
    rw [Op.walkAll, forall_mem_append] at hfit
    rw [Op.walkAll_cons, mem_cons, mem_append] at ho
    rw [renderAll, Op.walkAll_append]
    obtain rfl | ho | ho := ho
    · exact fun x hx => mem_append_left _ (Op.mem_walkAll_self hx)
    · obtain ⟨b, hb, hob⟩ := Op.mem_walkRegions.mp ho
      have hsub := hblocks b hb (fun q hq => hfit.1 q (Op.walkAll_block_subset hb hq)) hob
      exact fun x hx => mem_append_left _
        (walkAll_render_block_subset (hfit.1 p (Op.mem_walk_self p)) hb (hsub hx))
    · exact fun x hx => mem_append_right _ (hps hfit.2 ho hx)

/-- The labels that the code for an operation places around its blocks, if it was lowered. -/
def labelsFor (D : Nat → Fate) (o : Op) : List String :=
  match D o.id, o.flat? with
  | .taken stamp, some code => ownLabels stamp.label code
  | _, _ => []

theorem count_placedLabels_le (hfit : ∀ o ∈ Op.walkAll ops, Fit least D ρ o) (name : String) :
    (placedLabels (renderAll D ρ ops)).count name ≤
      ((Op.walkAll ops).flatMap (labelsFor D)).count name := by
  induction ops using Op.nested_induction with
  | nil =>
    exact Nat.zero_le _
  | cons o _ hblocks hos =>
    rw [Op.walkAll, forall_mem_append] at hfit
    rw [renderAll, placedLabels_append, count_append, Op.walkAll_cons, flatMap_cons,
      flatMap_append, count_append, count_append]
    have hrest := hos hfit.2
    have hfirst : (placedLabels (render D ρ o)).count name ≤ (labelsFor D o).count name +
        ((Op.walkRegions o.regions).flatMap (labelsFor D)).count name := by
      have ho := hfit.1 o (Op.mem_walk_self o)
      have hblock (k : Nat) : (placedLabels (renderAll D ρ (o.regionOps k))).count name ≤
          ((Op.walkAll (o.regionOps k)).flatMap (labelsFor D)).count name := by
        obtain hempty | ⟨b, hb, hops⟩ := Op.regionOps_cases o k
        · rw [hempty, renderAll]
          exact Nat.zero_le _
        · rw [hops]
          exact hblocks b hb fun p hp => hfit.1 p (Op.walkAll_block_subset hb hp)
      cases hfate : D o.id with
      | erased =>
        rw [render_of_erased hfate]
        exact Nat.zero_le _
      | kept =>
        have hmachine : (keep D ρ o).machine? = none := show o.machine? = none from
          machine?_of_shaped ho.shaped
        rw [render_of_kept hfate, placedLabels, filterMap_cons, hmachine]
        exact Nat.zero_le _
      | taken stamp =>
        obtain ⟨-, code, e, hstamped⟩ := ho.taken stamp hfate
        rw [hstamped.render hfate]
        obtain ⟨_, _, _, -, -, hops⟩ | ⟨hpaired, _, _, _, hops, -, hown⟩ := hstamped.cases ho.shaped
        · rw [hops]
          exact Nat.zero_le _
        have hlabels : labelsFor D o = ownLabels stamp.label code := by
          rw [labelsFor, hfate, hstamped.flat]
        have h0 := hblock 0
        have h1 := hblock 1
        rw [hops, hlabels, ← hown, hpaired.walkRegions]
        simp only [placedLabels_append, flatMap_append, count_append]
        omega
    omega

end

end Practicum.Machine
