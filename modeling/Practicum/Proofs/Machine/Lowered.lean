import Mathlib.Data.List.Pairwise
import Practicum.Proofs.Machine.Rendering

/-!
# A lowered program is a rendering

A program of the flat level in which every operation and every value has a number of its own is
lowered step by step. After each step the program is a rendering of the program at the beginning.
In the end every operation has been lowered that can be, and the ends of blocks are gone.
-/

namespace Practicum.Machine

open List hiding replace

open IR Riscv Flat Editing Function

/-- The values that an operation defines: its results, and the arguments of its blocks. -/
def ownValues (o : Op) : List Val :=
  o.results ++ o.regions.flatMap Block.args

/-- A program of the flat level is in order: its operations have the blocks that belong to them,
every operation and every value has a number of its own, below the next one, and no operation reads
its own result. -/
structure Orderly (m : Module) : Prop where
  shaped : ∀ o ∈ m.walk, shaped o = true
  ids : (m.walk.map Op.id).Nodup
  values : ((m.walk.flatMap ownValues).map Val.id).Nodup
  id_lt : ∀ o ∈ m.walk, o.id < m.next
  value_lt : ∀ o ∈ m.walk, ∀ v ∈ o.operands ++ ownValues o, v.id < m.next
  unread : ∀ o ∈ m.walk, ∀ v ∈ o.operands, ∀ r ∈ o.results, v.id ≠ r.id
  remnants : ∀ r ∈ m.remnants, ∀ o ∈ Op.walkRegions r.regions,
    o.id < m.next ∧ o.id ∉ m.walk.map Op.id

variable {src : Module} {o p : Op}

namespace Orderly

theorem eq_of_id (h : Orderly src) (ho : o ∈ src.walk) (hp : p ∈ src.walk) (hid : o.id = p.id) :
    o = p :=
  inj_on_of_nodup_map h.ids ho hp hid

theorem eq_of_value (h : Orderly src) (ho : o ∈ src.walk) (hp : p ∈ src.walk) {v w : Val}
    (hv : v ∈ ownValues o) (hw : w ∈ ownValues p) (hid : v.id = w.id) : o = p := by
  have hvalues := h.values
  rw [map_flatMap, nodup_flatMap] at hvalues
  have : Std.Symm (onFun Disjoint fun o => (ownValues o).map Val.id) :=
    ⟨fun _ _ hxy _ hx hy => hxy hy hx⟩
  by_contra hne
  have hdisjoint := hvalues.2.forall ho hp hne
  exact hdisjoint (mem_map_of_mem hv) (hid ▸ mem_map_of_mem hw)

theorem nested (h : Orderly src) (ho : o ∈ src.walk) {b : Block} (hb : b ∈ o.regions)
    (hp : p ∈ Op.walkAll b.ops) : p ∈ src.walk ∧ p.id ≠ o.id := by
  have hsub := Op.walk_sublist ho
  have hmem : p ∈ Op.walkRegions o.regions := Op.mem_walkRegions.mpr ⟨b, hb, hp⟩
  rw [Op.walk_eq] at hsub
  refine ⟨hsub.subset (mem_cons_of_mem _ hmem), fun hid => ?_⟩
  have hnodup := (hsub.map Op.id).nodup h.ids
  rw [map_cons, nodup_cons] at hnodup
  exact hnodup.1 (hid ▸ mem_map_of_mem hmem)

end Orderly

/-! ## Changes of the program -/

/-- Operations are put in the place of an operation, and other values are read. -/
def exchangeAll (σ : Val → Val) (old : Op) (new ops : List Op) : List Op :=
  Op.mapOperandsAll σ (Op.spliceAll (Module.swap old new) ops)

variable {σ : Val → Val} {new : List Op}

section
variable {least : Nat} {old : Op}

theorem commutes_rename (hσ : ∀ v : Val, least ≤ v.id → σ v = v) :
    Commutes least (Op.mapOperandsAll σ) σ where
  nil := by rw [Op.mapOperandsAll]
  append := Op.mapOperandsAll_append σ
  made := by
    intro id code note operands results bs _
    rw [Op.mapOperandsAll, Op.mapOperandsAll, Op.mapOperands, Op.mapOperandsRegions_eq]
  fresh := hσ _

theorem exchangeAll_of_ne {o : Op} (h : o.id ≠ old.id) :
    exchangeAll σ old new [o] = [.mk o.id o.code (o.operands.map σ) o.results
      (mapBlocks (exchangeAll σ old new) o.regions)] := by
  rw [exchangeAll, Op.spliceAll, Module.swap_eq_none_iff.mpr h]
  rw [Op.spliceInside_eq, Op.mapOperandsAll, Op.mapOperands_eq, Op.regions_withRegions,
    Op.mapOperandsRegions_eq, Op.spliceRegions_eq, map_map]
  rfl

theorem exchangeAll_self : exchangeAll σ old new [old] = Op.mapOperandsAll σ new := by
  rw [exchangeAll, Op.spliceAll, Op.spliceAll, Module.swap_eq_some_iff.mpr ⟨rfl, rfl⟩]
  dsimp only
  rw [append_nil]

theorem commutes_exchange (hσ : ∀ v : Val, least ≤ v.id → σ v = v) (hold : old.id < least) :
    Commutes least (exchangeAll σ old new) σ where
  nil := by rw [exchangeAll, Op.spliceAll, Op.mapOperandsAll]
  append xs ys := by
    rw [exchangeAll, Op.spliceAll_append, Op.mapOperandsAll_append]
    rfl
  made := by
    intro id code note operands results bs hid
    exact exchangeAll_of_ne (o := .mk id (.machine code note) operands results bs)
      (show id ≠ old.id by omega)
  fresh := hσ _

end

variable {D D' : Nat → Fate} {ρ ρ' : Val → Val}

section

theorem keep_moved {F : List Op → List Op} (hρ' : ∀ v, ρ' v = σ (ρ v))
    (hregions : renderRegions D' ρ' o.regions = mapBlocks F (renderRegions D ρ o.regions)) :
    Op.mk (keep D ρ o).id (keep D ρ o).code ((keep D ρ o).operands.map σ) (keep D ρ o).results
      (mapBlocks F (keep D ρ o).regions) = keep D' ρ' o := by
  rw [keep, keep, hregions]
  show Op.mk o.id o.code ((o.operands.map ρ).map σ) o.results _ = _
  rw [map_map]
  congr 1
  exact map_congr_left fun v _ => (hρ' v).symm

variable (hfit : ∀ p ∈ src.walk, Fit src.next D ρ p) (hD' : ∀ i, i ≠ o.id → D' i = D i)
  (hρ' : ∀ v, ρ' v = σ (ρ v)) {ops : List Op}

include hfit hD' hρ'

theorem moves_of_ne {F : List Op → List Op} (hF : ∀ x : Op, x.id ≠ o.id → F [x] =
      [.mk x.id x.code (x.operands.map σ) x.results (mapBlocks F x.regions)])
    (hp : p ∈ src.walk) (hne : p.id ≠ o.id) : Moves src.next F D D' ρ ρ' p := by
  rw [Moves]
  split
  next hkept =>
    intro hregions
    rw [render_of_kept ((hD' _ hne).trans hkept), ← keep_moved hρ' hregions]
    exact hF _ hne
  next stamp htaken => exact ⟨(hD' _ hne).trans htaken, (hfit p hp).taken stamp htaken⟩
  next herased => exact (hD' _ hne).trans herased

variable (hsrc : Orderly src) (ho : o ∈ src.walk)
include hsrc ho

theorem renderRegions_rename (hσ : ∀ v : Val, src.next ≤ v.id → σ v = v) :
    renderRegions D' ρ' o.regions =
      mapBlocks (Op.mapOperandsAll σ) (renderRegions D ρ o.regions) := by
  refine renderRegions_moved fun b hb => renderAll_moved (commutes_rename hσ) hρ' _ fun p hp => ?_
  obtain ⟨hwalk, hne⟩ := hsrc.nested ho hb hp
  refine moves_of_ne hfit hD' hρ' (fun x _ => ?_) hwalk hne
  rw [Op.mapOperandsAll, Op.mapOperandsAll, Op.mapOperands_eq, Op.mapOperandsRegions_eq]

variable (hkept : D o.id = .kept) (hnew : Op.mapOperandsAll σ new = render D' ρ' o)
include hkept hnew

theorem moves_exchange (hp : p ∈ src.walk) :
    Moves src.next (exchangeAll σ (keep D ρ o) new) D D' ρ ρ' p := by
  by_cases hid : p.id = o.id
  · obtain rfl := hsrc.eq_of_id hp ho hid
    rw [Moves, hkept]
    exact fun _ => exchangeAll_self.trans hnew
  · exact moves_of_ne hfit hD' hρ' (fun _ => exchangeAll_of_ne) hp hid

variable (hσ : ∀ v : Val, src.next ≤ v.id → σ v = v)
include hσ

theorem exchangeAll_renderAll (hops : Op.walkAll ops ⊆ src.walk) :
    exchangeAll σ (keep D ρ o) new (renderAll D ρ ops) = renderAll D' ρ' ops :=
  renderAll_moved (commutes_exchange hσ (hsrc.id_lt o ho)) hρ' ops fun _ hp =>
    moves_exchange hfit hD' hρ' hsrc ho hkept hnew (hops hp)

theorem fit_exchange (hp : p ∈ src.walk) (hne : p.id ≠ o.id) : Fit src.next D' ρ' p where
  shaped := (hfit p hp).shaped
  taken stamp htaken := by
    rw [hD' _ hne] at htaken
    obtain ⟨hstart, code, e, hstamped⟩ := (hfit p hp).taken stamp htaken
    have hregions := renderRegions_moved fun b hb =>
      exchangeAll_renderAll hfit hD' hρ' hsrc ho hkept hnew hσ fun q hq => (hsrc.nested hp hb hq).1
    obtain ⟨e', hstamped', -⟩ := hstamped.moved
      (commutes_exchange hσ (hsrc.id_lt o ho)) hρ' hstart hregions
    exact ⟨hstart, code, e', hstamped'⟩
  erased herased := by
    rw [hD' _ hne] at herased
    exact (hfit p hp).erased herased

end

/-! ## The invariant -/

/-- A value is read as it is, or it is the result of an operation that was lowered, and the value of
the code is read. -/
def Reads (src : Module) (D : Nat → Fate) (κ : Nat → Nat) (x : Nat) : Prop :=
  κ x = x ∨ ∃ o ∈ src.walk, ∃ stamp r v, D o.id = .taken stamp ∧ r ∈ o.results ∧ r.id = x ∧
    stamp.value = some v ∧ κ x = v.id

/-- A program under way from one level to the other: it is a rendering of the program at the
beginning, the code for different operations has different numbers and labels, and the result of an
operation that was lowered is read from the value of its code. -/
structure Rendered (src : Module) (D : Nat → Fate) (ρ : Val → Val) (κ : Nat → Nat) (m : Module)
    (l : Labels) : Prop where
  ops : m.ops = renderAll D ρ src.ops
  next : src.next ≤ m.next
  nested : ∀ r ∈ m.remnants, ∀ b ∈ r.regions,
    IR.Each (fun o => o.id < src.next ∧ o.id ∉ src.walk.map Op.id) b.ops
  fit : ∀ o ∈ src.walk, Fit src.next D ρ o
  stop : ∀ o ∈ src.walk, ∀ stamp, D o.id = .taken stamp → stamp.stop ≤ m.next
  apart : ∀ o ∈ src.walk, ∀ p ∈ src.walk, o.id ≠ p.id → ∀ s t, D o.id = .taken s →
    D p.id = .taken t → s.stop ≤ t.start ∨ t.stop ≤ s.start
  used : ∀ o ∈ src.walk, ∀ label ∈ labelsFor D o, Used l label
  labels : ∀ o ∈ src.walk, ∀ p ∈ src.walk, o.id ≠ p.id → Disjoint (labelsFor D o) (labelsFor D p)
  names : ∀ v, (ρ v).id = κ v.id
  reads : ∀ x, Reads src D κ x
  result : ∀ o ∈ src.walk, ∀ stamp r v, D o.id = .taken stamp → o.results = [r] →
    stamp.value = some v → κ r.id = v.id

def Offered (src : Module) (n : Nat) : Prop :=
  n ∈ src.walk.map Op.id ∨ src.next ≤ n

section
variable {m : Module} {κ : Nat → Nat} {l : Labels} {x : Op} {changes : List (Val × Val)}
  {fate : Fate}
variable {r v : Val} {code : FlatCode} {stamp : Stamp}

theorem rendered_self (hsrc : Orderly src) : Rendered src (fun _ => .kept) id id src {} where
  ops := by
    have hkeep (ops : List Op) : renderAll (fun _ => .kept) id ops = ops := by
      induction ops using Op.nested_induction with
      | nil => rw [renderAll]
      | cons o _ hblocks hos =>
        have hregions : renderRegions (fun _ => .kept) id o.regions = o.regions := by
          rw [renderRegions_eq]
          refine (map_congr_left fun b hb => ?_).trans (map_id _)
          rw [hblocks b hb]
          cases b
          rfl
        rw [renderAll, hos, render_of_kept rfl, keep, hregions, map_id]
        cases o
        rfl
    exact (hkeep src.ops).symm
  next := Nat.le_refl _
  nested r hr b hb o ho := hsrc.remnants r hr o (Op.mem_walkRegions.mpr ⟨b, hb, ho⟩)
  fit o ho := ⟨hsrc.shaped o ho, nofun, nofun⟩
  stop := nofun
  apart := nofun
  used o _ label hlabel := by simp [labelsFor] at hlabel
  labels o _ p _ _ label hlabel := by simp [labelsFor] at hlabel
  names _ := rfl
  reads _ := .inl rfl
  result := nofun

section
variable (h : Rendered src D ρ κ m l)
include h

theorem Rendered.value_bounds (ho : o ∈ src.walk) (htaken : D o.id = .taken stamp)
    (hv : stamp.value = some v) :
    src.next ≤ stamp.start ∧ stamp.start ≤ v.id ∧ v.id < stamp.stop := by
  obtain ⟨hstart, _, e, hstamped⟩ := (h.fit o ho).taken stamp htaken
  obtain ⟨⟨-, hvalue⟩, -⟩ := emission_emitted (n := stamp.start) hstamped.emission
  rw [hstamped.value, hstamped.stop] at hvalue
  exact ⟨hstart, hvalue v hv⟩

/-! ## Operations in a rendering -/

theorem Rendered.walk_cases (hx : x ∈ m.walk) :
    IsNew src.next x ∨ ∃ o ∈ src.walk, D o.id = .kept ∧ x = keep D ρ o := by
  rw [Module.walk, h.ops] at hx
  exact mem_walkAll_renderAll h.fit hx

theorem Rendered.keep_mem (ho : o ∈ src.walk) (hkept : D o.id = .kept) : keep D ρ o ∈ m.walk := by
  rw [Module.walk, h.ops]
  refine render_subset_walkAll h.fit ho ?_
  rw [render_of_kept hkept]
  exact mem_cons_self

/-- An operation that is found is new, or it is an operation of the program at the beginning, which
was kept. -/
theorem Rendered.find?_cases {n : Nat} (hn : Offered src n) (hfind : m.find? n = some x) :
    src.next ≤ n ∧ x.flat? = none ∨ ∃ o ∈ src.walk, o.id = n ∧ D o.id = .kept ∧ x = keep D ρ o := by
  have hid : x.id = n := beq_iff_eq.mp (find?_some (p := fun y : Op => y.id == n) hfind)
  obtain hx | hx := mem_append.mp (mem_of_find?_eq_some hfind)
  · obtain ⟨hnext, hnew⟩ | ⟨o, ho, hkept, rfl⟩ := h.walk_cases hx
    · refine .inl ⟨hid ▸ hnext, ?_⟩
      cases hcode : x.code <;> simp [Op.machine?, Op.flat?, hcode] at hnew ⊢
    · exact .inr ⟨o, ho, hid, hkept, rfl⟩
  · obtain ⟨r, hr, hxr⟩ := mem_flatMap.mp hx
    obtain ⟨b, hb, hxb⟩ := Op.mem_walkRegions.mp hxr
    obtain ⟨hlt, hout⟩ := h.nested r hr b hb x hxb
    obtain hmem | hnew := hn
    · exact absurd (hid ▸ hmem) hout
    · omega

end

/-! ## One step -/

theorem id_reread_congr (changes : List (Val × Val)) {w : Val} (h : v.id = w.id) :
    (Module.reread changes v).id = (Module.reread changes w).id := by
  rw [Module.reread, Module.reread, h]
  cases changes.find? fun c => c.1.id == w.id with
  | none => exact h
  | some c => rfl

theorem reread_of_ne (h : ∀ c ∈ changes, c.1.id ≠ v.id) : Module.reread changes v = v := by
  rw [Module.reread, find?_eq_none.mpr fun c hc => by simpa using h c hc]
  rfl

theorem argsOf_keep (D : Nat → Fate) (ρ : Val → Val) (o : Op) : argsOf (keep D ρ o) = argsOf o := by
  show ((renderRegions D ρ o.regions).head?.map Block.args).getD [] = argsOf o
  rw [renderRegions_eq, head?_map, Option.map_map]
  rfl

theorem mem_ownValues_of_mem_argsOf (hv : v ∈ argsOf o) : v ∈ ownValues o := by
  rw [argsOf] at hv
  cases hb : o.regions.head? with
  | none => simp [hb] at hv
  | some b =>
    rw [hb] at hv
    exact mem_append_right _ (mem_flatMap.mpr ⟨b, mem_of_mem_head? hb, hv⟩)

theorem mem_rereads {value : Option Val} {c : Val × Val}
    (hc : c ∈ rereads code (keep D ρ o) value) :
    c.1 ∈ ownValues o ∧ (c.2.id = c.1.id ∨ c.1 ∈ o.results ∧ value = some c.2) := by
  unfold rereads at hc
  split at hc
  · obtain ⟨v, hv, rfl⟩ := mem_map.mp hc
    rw [argsOf_keep] at hv
    exact ⟨mem_ownValues_of_mem_argsOf hv, .inl rfl⟩
  · obtain ⟨hres, hvalue⟩ := Module.mem_successors hc
    exact ⟨mem_append_left _ hres, .inr ⟨hres, (mem_singleton.mp hvalue).symm⟩⟩

theorem reread_result {w : Val} (hresults : o.results = [r]) (hcode : ∀ f t, code ≠ .funcDef f t)
    (hw : w.id = r.id) : Module.reread (rereads code (keep D ρ o) (some v)) w = v := by
  have hrereads : rereads code (keep D ρ o) (some v) = [(r, v)] := by
    have hsuccessors : Module.successors (keep D ρ o) [some v] = [(r, v)] := by
      show (o.results.zip [some v]).filterMap _ = _
      rw [hresults]
      rfl
    unfold rereads
    split
    next f t => exact absurd rfl (hcode f t)
    · exact hsuccessors
  rw [hrereads, Module.reread, find?_cons_of_pos (by simpa using hw.symm)]
  rfl

theorem nested_lowered {P : Nat → Prop} {husk old : Op} {new : List Op} (hhusk : husk.regions = [])
    (hold : ¬P old.id) (h : ∀ r ∈ m.remnants, ∀ b ∈ r.regions, IR.Each (fun o => P o.id) b.ops) :
    ∀ r ∈ ((m.exchanged husk old new).renamed changes).remnants, ∀ b ∈ r.regions,
      IR.Each (fun o => P o.id) b.ops := by
  -- what stands in the program itself does not matter
  let m' : Module := { m with ops := [] }
  have hbefore : m'.Each (fun o => P o.id) fun _ => True := ⟨nofun, fun _ _ => trivial, h⟩
  have hsplice : (m'.splice (Module.swap old new)).Each (fun o => P o.id) fun _ => True :=
    hbefore.splice (fun o _ ho => by rwa [Op.spliceInside_eq]) (fun _ _ => trivial)
      fun x _ hx hswap => absurd ((Module.swap_eq_some_iff.mp hswap).1 ▸ hx) hold
  have hexchanged : (m'.exchanged husk old new).Each (fun o => P o.id) fun _ => True :=
    ⟨hsplice.ops, fun _ _ => trivial,
      forall_mem_cons.mpr ⟨by rw [hhusk]; exact nofun, hsplice.nested⟩⟩
  have hrenamed : ((m'.exchanged husk old new).renamed changes).Each (fun o => P o.id) fun _ =>
      True := hexchanged.renamed (fun o ho => by rwa [Op.id_mapOperands]) fun _ _ => trivial
  cases changes <;> exact hrenamed.nested

theorem Reads.update {κ' : Nat → Nat} {x : Nat} (h : Reads src D κ x) (hkept : D o.id = .kept)
    (hsame : κ' x = κ x) : Reads src (update D o.id fate) κ' x := by
  rw [Reads, hsame]
  refine h.imp_right fun ⟨p, hp, s, r, v, htaken, hrest⟩ => ⟨p, hp, s, r, v, ?_, hrest⟩
  rw [update_of_ne ?_, htaken]
  intro hid
  rw [hid, hkept] at htaken
  cases htaken

theorem labelsFor_update_of_ne {i : Nat} (hne : p.id ≠ i) :
    labelsFor (update D i fate) p = labelsFor D p := by
  rw [labelsFor, labelsFor, update_of_ne hne]

theorem labelsFor_update_erased (hkept : D o.id = .kept) (p : Op) :
    labelsFor (update D o.id .erased) p = labelsFor D p := by
  by_cases hid : p.id = o.id
  · rw [labelsFor, labelsFor, hid, update_self, hkept]
  · exact labelsFor_update_of_ne hid

theorem Orderly.taken_update (hsrc : Orderly src) (ho : o ∈ src.walk) (hp : p ∈ src.walk)
    (htaken : update D o.id fate p.id = .taken stamp) :
    p = o ∧ fate = .taken stamp ∨ p.id ≠ o.id ∧ D p.id = .taken stamp := by
  by_cases hid : p.id = o.id
  · rw [hid, update_self] at htaken
    exact .inl ⟨hsrc.eq_of_id hp ho hid, htaken⟩
  · rw [update_of_ne hid] at htaken
    exact .inr ⟨hid, htaken⟩

section
variable (h : Rendered src D ρ κ m l)
include h

theorem Rendered.eq_of_reads {x : Nat} (hx : κ x < src.next) : κ x = x := by
  obtain hfixed | ⟨p, hp, _, r, v, htaken, -, -, hv, _⟩ := h.reads x
  · exact hfixed
  · have := h.value_bounds hp htaken hv
    omega

variable (hsrc : Orderly src) (ho : o ∈ src.walk) (hkept : D o.id = .kept)
include hsrc ho hkept

theorem Rendered.reads_of_kept (hr : r ∈ o.results) : κ r.id = r.id := by
  obtain hfixed | ⟨p, hp, _, _, v, htaken, hr', hid, -⟩ := h.reads r.id
  · exact hfixed
  obtain rfl := hsrc.eq_of_value hp ho (mem_append_left _ hr') (mem_append_left _ hr) hid
  rw [hkept] at htaken
  cases htaken

/-- The results of an operation that is lowered are read from the value of its code, and the other
values as before. -/
theorem Rendered.reads_lower (x : Nat) :
    Reads src (update D o.id (.taken stamp)) (fun x =>
      (Module.reread (rereads code (keep D ρ o) stamp.value) ⟨κ x, .register⟩).id) x := by
  obtain hsame | ⟨c, hc, hid, hread⟩ :=
    Module.reread_cases (rereads code (keep D ρ o) stamp.value) ⟨κ x, .register⟩
  · exact (h.reads x).update hkept (congrArg Val.id hsame)
  obtain ⟨hown, hcase | ⟨hres, hvalue⟩⟩ := mem_rereads hc
  · exact (h.reads x).update hkept ((congrArg Val.id hread).trans (hcase.trans hid))
  have hlt : κ x < src.next := by
    have hlt := hsrc.value_lt o ho c.1 (mem_append_right _ hown)
    rwa [hid] at hlt
  refine .inr ⟨o, ho, stamp, c.1, c.2, update_self .., hres, ?_, hvalue, ?_⟩
  · exact hid.trans (h.eq_of_reads hlt)
  · exact congrArg Val.id hread

theorem Rendered.result_lower
    (hfunc : stamp.value.isSome → ∀ f t, code ≠ .funcDef f t) (hp : p ∈ src.walk) {s : Stamp}
    (htaken : update D o.id (.taken stamp) p.id = .taken s) (hresults : p.results = [r])
    (hv : s.value = some v) :
    (Module.reread (rereads code (keep D ρ o) stamp.value) ⟨κ r.id, .register⟩).id = v.id := by
  obtain ⟨rfl, ⟨⟩⟩ | ⟨-, htaken⟩ := hsrc.taken_update ho hp htaken
  · have hread := h.reads_of_kept hsrc ho hkept (by rw [hresults]; exact mem_cons_self)
    rw [hread, hv]
    exact congrArg Val.id (reread_result hresults (hfunc (by rw [hv]; rfl)) rfl)
  · have hbounds := h.value_bounds hp htaken hv
    rw [h.result p hp s r v htaken hresults hv, reread_of_ne]
    intro c hc
    have hlt := hsrc.value_lt o ho c.1 (mem_append_right _ (mem_rereads hc).1)
    show c.1.id ≠ v.id
    omega

theorem Rendered.lower (hflat : o.flat? = some code) {e : Emit Code}
    (he : emission (l.of code) code (keep D ρ o) (yieldAt ρ o.regions) = some e) {husk : Op}
    (hhusk : husk.regions = []) : ∃ stamp ρ' κ', Rendered src (update D o.id (.taken stamp)) ρ' κ'
      (({ m with next := (e.run m.next).2 }.exchanged husk (keep D ρ o) (e.run m.next).1.ops).renamed
        (rereads code (keep D ρ o) (e.run m.next).1.value)) (l.bump code) := by
  let stamp : Stamp := ⟨m.next, (e.run m.next).2, l.of code, (e.run m.next).1.value⟩
  let σ := Module.reread (rereads code (keep D ρ o) stamp.value)
  have hσ (v : Val) (hv : src.next ≤ v.id) : σ v = v := by
    refine reread_of_ne fun c hc => ?_
    have hlt := hsrc.value_lt o ho c.1 (mem_append_right _ (mem_rereads hc).1)
    omega
  have hD' (i : Nat) (hi : i ≠ o.id) : update D o.id (.taken stamp) i = D i := update_of_ne hi ..
  have hregions := renderRegions_rename h.fit hD' (fun _ => rfl) hsrc ho hσ
  have hbefore : Stamped D ρ o stamp code e := ⟨hflat, he, rfl, rfl⟩
  obtain ⟨e', hstamped, hops⟩ := hbefore.moved (commutes_rename hσ) (fun _ => rfl) h.next hregions
  have hnew := hops.trans (hstamped.render (update_self ..)).symm
  obtain ⟨⟨hnext, _⟩, -⟩ := emission_emitted (n := m.next) he
  refine ⟨stamp, fun v => σ (ρ v), fun x => (σ ⟨κ x, .register⟩).id, ?_⟩
  have hlabels {p : Op} (hp : p ∈ src.walk) :
      p = o ∧ labelsFor (update D o.id (.taken stamp)) p = ownLabels (l.of code) code ∨
        labelsFor (update D o.id (.taken stamp)) p = labelsFor D p := by
    by_cases hid : p.id = o.id
    · exact .inl ⟨hsrc.eq_of_id hp ho hid, by
        rw [labelsFor, hsrc.eq_of_id hp ho hid, update_self, hflat]⟩
    · exact .inr (labelsFor_update_of_ne hid)
  exact {
    ops := by
      rw [Module.ops_renamed]
      rw [h.ops]
      exact exchangeAll_renderAll h.fit hD' (fun _ => rfl) hsrc ho hkept hnew hσ (Subset.refl _)
    next := by
      rw [Module.next_renamed]
      exact Nat.le_trans h.next hnext
    nested := nested_lowered (P := fun i => i < src.next ∧ i ∉ src.walk.map Op.id) hhusk
      (fun hout => hout.2 (show o.id ∈ _ from mem_map_of_mem ho)) h.nested
    fit := by
      intro p hp
      by_cases hid : p.id = o.id
      · obtain rfl := hsrc.eq_of_id hp ho hid
        refine ⟨(h.fit p hp).shaped, fun s hs => ?_, fun hs => ?_⟩
        · rw [update_self] at hs
          cases hs
          exact ⟨h.next, code, e', hstamped⟩
        · rw [update_self] at hs
          cases hs
      · exact fit_exchange h.fit hD' (fun _ => rfl) hsrc ho hkept hnew hσ hp hid
    stop := by
      intro p hp s hs
      rw [Module.next_renamed]
      obtain ⟨-, ⟨⟩⟩ | ⟨-, hs⟩ := hsrc.taken_update ho hp hs
      · exact Nat.le_refl _
      · exact Nat.le_trans (h.stop p hp s hs) hnext
    apart := by
      intro p hp q hq hpq s t hs ht
      obtain ⟨hpo, ⟨⟩⟩ | ⟨-, hs⟩ := hsrc.taken_update ho hp hs <;>
        obtain ⟨hqo, ⟨⟩⟩ | ⟨-, ht⟩ := hsrc.taken_update ho hq ht
      · exact absurd (by rw [hpo, hqo]) hpq
      · exact .inr (h.stop q hq t ht)
      · exact .inl (h.stop p hp s hs)
      · exact h.apart p hp q hq hpq s t hs ht
    used := by
      intro p hp label hlabel
      obtain ⟨-, heq⟩ | heq := hlabels hp <;> rw [heq] at hlabel
      · exact used_of_mem_ownLabels hlabel
      · exact (h.used p hp label hlabel).bump code
    labels := by
      intro p hp q hq hpq label hlabel hlabel'
      obtain ⟨hpo, heq⟩ | heq := hlabels hp <;> rw [heq] at hlabel <;>
        obtain ⟨hqo, heq⟩ | heq := hlabels hq <;> rw [heq] at hlabel'
      · exact hpq (by rw [hpo, hqo])
      · exact not_used_of_mem_ownLabels hlabel (h.used q hq label hlabel')
      · exact not_used_of_mem_ownLabels hlabel' (h.used p hp label hlabel)
      · exact h.labels p hp q hq hpq hlabel hlabel'
    names := fun v => id_reread_congr _ (h.names v)
    reads := h.reads_lower hsrc ho hkept
    result := by
      intro p hp s r v hs hresults hv
      refine h.result_lower hsrc ho hkept (fun hsome f t hcode => ?_) hp hs hresults hv
      subst hcode
      cases he
      cases hsome }

theorem Rendered.erase (hyield : o.flat? = some .yield) : Rendered src (update D o.id .erased) ρ κ
      ((m.exchanged (keep D ρ o) (keep D ρ o) []).renamed (Module.successors (keep D ρ o) [])) l := by
  have hnone : Module.successors (keep D ρ o) [] = [] := by
    rw [Module.successors, zip_nil_right]
    rfl
  have hD' (i : Nat) (hi : i ≠ o.id) : update D o.id .erased i = D i := update_of_ne hi ..
  have htaken {p : Op} (hp : p ∈ src.walk) {s : Stamp}
      (hs : update D o.id .erased p.id = .taken s) : D p.id = .taken s := by
    obtain ⟨-, ⟨⟩⟩ | ⟨-, hs⟩ := hsrc.taken_update ho hp hs
    exact hs
  have hnew : Op.mapOperandsAll (Module.reread []) [] = render (update D o.id .erased) ρ o := by
    rw [render_of_erased (update_self ..), Op.mapOperandsAll]
  have hempty : o.regions = [] := by
    have hshaped := hsrc.shaped o ho
    rw [shaped, hyield] at hshaped
    exact isEmpty_iff.mp hshaped
  exact {
    ops := by
      rw [hnone, Module.ops_renamed]
      show exchangeAll (Module.reread []) (keep D ρ o) [] m.ops = _
      rw [h.ops]
      exact exchangeAll_renderAll h.fit hD' (fun _ => rfl) hsrc ho hkept hnew (fun _ _ => rfl)
        (Subset.refl _)
    next := by
      rw [Module.next_renamed]
      exact h.next
    nested := by
      refine nested_lowered (P := fun i => i < src.next ∧ i ∉ src.walk.map Op.id) ?_
        (fun hout => hout.2 (show o.id ∈ _ from mem_map_of_mem ho)) h.nested
      rw [keep, Op.regions, hempty, renderRegions]
    fit := by
      intro p hp
      by_cases hid : p.id = o.id
      · obtain rfl := hsrc.eq_of_id hp ho hid
        refine ⟨(h.fit p hp).shaped, fun s hs => ?_, fun _ => hyield⟩
        rw [update_self] at hs
        cases hs
      · exact fit_exchange h.fit hD' (fun _ => rfl) hsrc ho hkept hnew (fun _ _ => rfl) hp hid
    stop := by
      intro p hp s hs
      rw [Module.next_renamed]
      exact h.stop p hp s (htaken hp hs)
    apart := fun p hp q hq hpq s t hs ht =>
      h.apart p hp q hq hpq s t (htaken hp hs) (htaken hq ht)
    used := fun p hp label hlabel =>
      h.used p hp label (labelsFor_update_erased hkept p ▸ hlabel)
    labels := by
      intro p hp q hq hpq
      rw [labelsFor_update_erased hkept, labelsFor_update_erased hkept]
      exact h.labels p hp q hq hpq
    names := h.names
    reads := fun x => (h.reads x).update hkept rfl
    result := fun p hp s r v hs => h.result p hp s r v (htaken hp hs) }

end

/-! ## The values that blocks end with -/

theorem yieldOf_renderAll (hyields : ∀ p ∈ ops, p.flat? = some .yield → D p.id = .kept)
    (hsome : (yieldOf ops).isSome = true) : yieldOf (renderAll D ρ ops) = (yieldOf ops).map ρ := by
  obtain ⟨v, hv⟩ := Option.isSome_iff_exists.mp hsome
  rw [hv]
  obtain ⟨y, hlast, hy⟩ := Option.bind_eq_some_iff.mp hv
  obtain ⟨_, rfl⟩ := getLast?_eq_some_iff.mp hlast
  split at hy
  next w ws hflat hoperands =>
    cases hy
    have hkept := hyields y (by simp) hflat
    rw [renderAll_append, renderAll, renderAll, render_of_kept hkept, yieldOf]
    have hflat' : (keep D ρ y).flat? = some .yield := hflat
    have hoperands' : (keep D ρ y).operands = ρ v :: ws.map ρ := by
      show y.operands.map ρ = _
      rw [hoperands, map_cons]
    simp [hflat', hoperands']
  · cases hy

/-- The code for an operation does not depend on whether its blocks have been lowered before it. -/
theorem emission_keep (hsrc : Orderly src) (ho : o ∈ src.walk)
    (hyields : ∀ p ∈ src.walk, p.flat? = some .yield → D p.id = .kept)
    (hflat : o.flat? = some code) (label : Nat) :
    emission label code (keep D ρ o) (fun k => yieldOf ((keep D ρ o).regionOps k)) =
      emission label code (keep D ρ o) (yieldAt ρ o.regions) := by
  have hyield {k : Nat} (hsome : (yieldOf (o.regionOps k)).isSome = true) :
      yieldOf ((keep D ρ o).regionOps k) = yieldAt ρ o.regions k := by
    rw [regionOps_keep]
    refine yieldOf_renderAll (fun p hp => hyields p ?_) hsome
    obtain ⟨b, hb, hpb⟩ := Op.mem_regionOps hp
    exact (hsrc.nested ho hb (Op.mem_walkAll_self hpb)).1
  have hshaped := hsrc.shaped o ho
  rw [shaped, hflat] at hshaped
  cases code
  case loop =>
    simp only [Bool.and_eq_true] at hshaped
    simp only [emission, hyield hshaped.2]
  case choice | lazyBinary =>
    simp only [Bool.and_eq_true] at hshaped
    simp only [emission, hyield hshaped.1.2, hyield hshaped.2]
  all_goals
    unfold emission
    rcases (keep D ρ o).operands with _ | ⟨a, _ | ⟨b, _⟩⟩ <;> rfl

/-! ## Rounds -/

/-- What has become of an operation does not change any more. -/
def Extends (D D' : Nat → Fate) : Prop :=
  ∀ i, D i ≠ .kept → D' i = D i

theorem Extends.refl (D : Nat → Fate) : Extends D D :=
  fun _ _ => rfl

theorem Extends.trans {D'' : Nat → Fate} (h : Extends D D') (h' : Extends D' D'') :
    Extends D D'' := by
  intro i hi
  rw [h' i (by rwa [h i hi]), h i hi]

theorem extends_update {i : Nat} (hkept : D i = .kept) (fate : Fate) :
    Extends D (update D i fate) := by
  intro j hj
  rw [update_of_ne]
  rintro rfl
  exact hj hkept

def Resolved (src : Module) (due : FlatCode → Bool) (which : Nat → Prop) (D : Nat → Fate) : Prop :=
  ∀ o ∈ src.walk, which o.id → ∀ code, o.flat? = some code → due code = true → D o.id ≠ .kept

theorem Resolved.extend {due : FlatCode → Bool} {which : Nat → Prop}
    (h : Resolved src due which D) (hextends : Extends D D') : Resolved src due which D' := by
  intro o ho hwhich code hcode hdue
  rw [hextends o.id (h o ho hwhich code hcode hdue)]
  exact h o ho hwhich code hcode hdue

/-- A step of the editing keeps the program a rendering in which some fates may be required, and
brings about something. -/
def Resolves (src : Module) (Q P : (Nat → Fate) → Prop) (x : Editing Labels Unit) : Prop :=
  ∀ ⦃D ρ κ d u d'⦄, Rendered src D ρ κ d.program d.memo → Q D → x.run d = .ok (u, d') →
    ∃ D' ρ' κ', Rendered src D' ρ' κ' d'.program d'.memo ∧ Q D' ∧ Extends D D' ∧ P D'

section
variable {Q : (Nat → Fate) → Prop} {due : FlatCode → Bool}
  {pattern : Op → Editing Labels Unit}

section
variable (hstep : ∀ n, Offered src n → Resolves src Q (Resolved src due (· = n)) (offer pattern n))
include hstep

theorem resolves_offers (ids : List Nat) (hids : ∀ n ∈ ids, Offered src n) :
    Resolves src Q (Resolved src due (· ∈ ids)) (ids.forM (offer pattern)) := by
  induction ids with
  | nil =>
    intro D ρ κ d u d' h hQ hrun
    cases hrun
    exact ⟨D, ρ, κ, h, hQ, .refl D, nofun⟩
  | cons n ids ih =>
    intro D ρ κ d u d' h hQ hrun
    rw [forall_mem_cons] at hids
    obtain ⟨_, _, hfirst, hrest⟩ := of_run_bind hrun
    obtain ⟨_, _, _, h1, hQ1, hextends1, hresolved1⟩ := hstep n hids.1 h hQ hfirst
    obtain ⟨D2, ρ2, κ2, h2, hQ2, hextends2, hresolved2⟩ := ih hids.2 h1 hQ1 hrest
    refine ⟨D2, ρ2, κ2, h2, hQ2, hextends1.trans hextends2, fun o ho hmem => ?_⟩
    obtain hn | hmem := mem_cons.mp hmem
    · exact hresolved1.extend hextends2 o ho hn
    · exact hresolved2 o ho hmem

theorem resolves_round :
    Resolves src Q (Resolved src due fun _ => True) (round pattern .forward) := by
  intro D ρ κ d u d' h hQ hrun
  replace hrun := of_run_step hrun rfl
  have hids : ∀ n ∈ d.program.walk.map Op.id, Offered src n := by
    intro n hn
    obtain ⟨x, hx, rfl⟩ := mem_map.mp hn
    obtain ⟨hnew, -⟩ | ⟨o, ho, -, rfl⟩ := h.walk_cases hx
    · exact .inr hnew
    · exact .inl (show o.id ∈ _ from mem_map_of_mem ho)
  obtain ⟨D', ρ', κ', h', hQ', hextends, hresolved⟩ :=
    resolves_offers hstep _ hids (d := { d with changed := false }) h hQ hrun
  refine ⟨D', ρ', κ', h', hQ', hextends, fun o ho _ code hcode hdue => ?_⟩
  by_cases hkept : D o.id = .kept
  · refine hresolved o ho ?_ code hcode hdue
    exact (show (keep D ρ o).id ∈ _ from mem_map_of_mem (h.keep_mem ho hkept))
  · rw [hextends o.id hkept]
    exact hkept

theorem resolves_exhaustWithin (n : Nat) :
    Resolves src Q (fun D => n ≠ 0 → Resolved src due (fun _ => True) D)
      (exhaustWithin pattern .forward n) := by
  induction n with
  | zero =>
    intro D ρ κ d u d' h hQ hrun
    cases hrun
    exact ⟨D, ρ, κ, h, hQ, .refl D, fun hne => absurd rfl hne⟩
  | succ n ih =>
    intro D ρ κ d u d' h hQ hrun
    obtain ⟨_, _, _, _, hround, hget, hrun⟩ := of_run_bind₂ hrun
    cases hget
    obtain ⟨D1, ρ1, κ1, h1, hQ1, hextends1, hresolved⟩ := resolves_round hstep h hQ hround
    split at hrun
    · obtain ⟨D2, ρ2, κ2, h2, hQ2, hextends2, -⟩ := ih h1 hQ1 hrun
      exact ⟨D2, ρ2, κ2, h2, hQ2, hextends1.trans hextends2, fun _ => hresolved.extend hextends2⟩
    · cases hrun
      exact ⟨D1, ρ1, κ1, h1, hQ1, hextends1, fun _ => hresolved⟩

end

end

/-! ## The two patterns -/

def YieldsKept (src : Module) (D : Nat → Fate) : Prop :=
  ∀ o ∈ src.walk, o.flat? = some .yield → D o.id = .kept

theorem Rendered.offer_cases {pattern : Op → Editing Labels Unit} {n : Nat} {d d' : Draft Labels}
    {u : Unit} (h : Rendered src D ρ κ d.program d.memo) (hsrc : Orderly src) (hn : Offered src n)
    (hidle : ∀ x : Op, x.flat? = none → (pattern x).run d = .ok ((), d))
    (hrun : (offer pattern n).run d = .ok (u, d')) :
    (d' = d ∧ ∀ o ∈ src.walk, o.id = n → D o.id ≠ .kept) ∨
      ∃ o ∈ src.walk, o.id = n ∧ D o.id = .kept ∧ (pattern (keep D ρ o)).run d = .ok (u, d') := by
  replace hrun := of_run_step hrun rfl
  cases hfind : d.program.find? n with
  | none =>
    rw [hfind] at hrun
    cases hrun
    refine .inl ⟨rfl, fun o ho hid hkept => ?_⟩
    exact find?_eq_none.mp hfind _ (mem_append_left _ (h.keep_mem ho hkept)) (beq_iff_eq.mpr hid)
  | some x =>
    rw [hfind] at hrun
    obtain ⟨_, hflat⟩ | ⟨o, ho, hid, hkept, rfl⟩ := h.find?_cases hn hfind
    · have hrun' := (hidle x hflat).symm.trans hrun
      cases hrun'
      refine .inl ⟨rfl, fun o ho hid => ?_⟩
      have hlt := hsrc.id_lt o ho
      omega
    · exact .inr ⟨o, ho, hid, hkept, hrun⟩

theorem resolves_offer_pattern (hsrc : Orderly src) (n : Nat) (hn : Offered src n) :
    Resolves src (YieldsKept src) (Resolved src (fun code => !inert code) (· = n))
      (offer pattern n) := by
  intro D ρ κ d u d' h hyields hrun
  have hidle (x : Op) (hx : x.flat? = none) : (pattern x).run d = .ok ((), d) := by
    rw [pattern, hx]
    rfl
  obtain ⟨rfl, hne⟩ | ⟨o, ho, rfl, hkept, hrun⟩ := h.offer_cases hsrc hn hidle hrun
  · exact ⟨D, ρ, κ, h, hyields, .refl D, fun o ho hid _ _ _ => hne o ho hid⟩
  obtain ⟨code, hflat⟩ := exists_flat_of_shaped (hsrc.shaped o ho)
  have hlowers := lowers_of_pattern (o := keep D ρ o) hflat hrun
  rw [Lowers, emission_keep hsrc ho hyields hflat] at hlowers
  split at hlowers
  · obtain ⟨hinert, rfl⟩ := hlowers
    refine ⟨D, ρ, κ, h, hyields, .refl D, fun p hp hid _ hflat' hdue => ?_⟩
    obtain rfl := hsrc.eq_of_id hp ho hid
    rw [hflat] at hflat'
    cases hflat'
    simp [hinert] at hdue
  next e he =>
    obtain ⟨husk, hhusk, rfl⟩ := hlowers
    have hempty : husk.regions = [] := by
      obtain hempty | ⟨rfl, hnests⟩ := hhusk
      · exact hempty
      have hfunc : ∀ f t, code ≠ .funcDef f t := by
        rintro f t rfl
        cases hnests
      have hregions := (paired_of_shaped (hsrc.shaped o ho) hflat (inert_of_emission he)
        hfunc).1 hnests
      rw [keep, Op.regions, hregions, renderRegions]
    obtain ⟨_, ρ', κ', h'⟩ := h.lower hsrc ho hkept hflat he hempty
    refine ⟨_, ρ', κ', h', fun p hp hyield => ?_, extends_update hkept _, ?_⟩
    · rw [update_of_ne, hyields p hp hyield]
      intro hid
      obtain rfl := hsrc.eq_of_id hp ho hid
      rw [hflat] at hyield
      cases hyield
      cases inert_of_emission he
    · intro p _ hid _ _ _ hstill
      rw [hid, update_self] at hstill
      cases hstill

theorem resolves_offer_yieldPattern (hsrc : Orderly src) (n : Nat) (hn : Offered src n) :
    Resolves src (fun _ => True) (Resolved src (fun code => code == .yield) (· = n))
      (offer yieldPattern n) := by
  intro D ρ κ d u d' h hQ hrun
  have hidle (x : Op) (hx : x.flat? = none) : (yieldPattern x).run d = .ok ((), d) := by
    rw [yieldPattern, hx]
    rfl
  obtain ⟨rfl, hne⟩ | ⟨o, ho, rfl, hkept, hrun⟩ := h.offer_cases hsrc hn hidle hrun
  · exact ⟨D, ρ, κ, h, hQ, .refl D, fun o ho hid _ _ _ => hne o ho hid⟩
  rw [yieldPattern] at hrun
  split at hrun
  next hyield =>
    rw [erase, replace, run_replaceLeaving] at hrun
    cases hrun
    refine ⟨_, ρ, κ, h.erase hsrc ho hkept (beq_iff_eq.mp hyield), trivial,
      extends_update hkept _, fun p _ hid _ _ _ hstill => ?_⟩
    rw [hid, update_self] at hstill
    cases hstill
  next hyield =>
    cases hrun
    refine ⟨D, ρ, κ, h, hQ, .refl D, fun p hp hid code hflat hdue => ?_⟩
    obtain rfl := hsrc.eq_of_id hp ho hid
    refine absurd ?_ hyield
    show (p.flat? == some .yield) = true
    rw [hflat, beq_iff_eq.mp hdue]
    rfl

/-! ## Whole programs -/

/-- A program that was lowered is a rendering in which everything has been lowered that can be, and
the ends of blocks are gone. -/
structure Done (src : Module) (D : Nat → Fate) (ρ : Val → Val) (κ : Nat → Nat) (m : Module)
    (l : Labels) : Prop extends Rendered src D ρ κ m l where
  taken : ∀ o ∈ src.walk, ∀ code, o.flat? = some code → inert code = false →
    ∃ stamp, D o.id = .taken stamp
  erased : ∀ o ∈ src.walk, o.flat? = some .yield → D o.id = .erased

theorem done_of_ofFlat {m' : Module} (hsrc : Orderly src) (hrun : ofFlat src = .ok m') :
    ∃ D ρ κ l, Done src D ρ κ m' l := by
  rw [ofFlat, Editing.apply] at hrun
  cases hedit : (do exhaust pattern .forward; exhaust yieldPattern .forward :
      Editing Labels Unit).run { program := src, memo := {} } with
  | error e =>
    rw [hedit] at hrun
    cases hrun
  | ok r =>
    rw [hedit] at hrun
    cases hrun
    obtain ⟨_, d, hfirst, hsecond⟩ := of_run_bind hedit
    obtain ⟨_, _, _, h1, -, -, hlowered⟩ := resolves_exhaustWithin (resolves_offer_pattern hsrc) _
      (rendered_self hsrc) (fun _ _ _ => rfl) hfirst
    obtain ⟨D, ρ, κ, h, -, hextends, herased⟩ :=
      resolves_exhaustWithin (resolves_offer_yieldPattern hsrc) _ h1 trivial hsecond
    have hlowered' := (hlowered fun h => by cases h).extend hextends
    refine ⟨D, ρ, κ, _, { h with
      taken := fun o ho code hflat hinert => ?_
      erased := fun o ho hyield => ?_ }⟩
    · have hne := hlowered' o ho trivial code hflat (by simp [hinert])
      cases hfate : D o.id with
      | kept => exact absurd hfate hne
      | taken stamp => exact ⟨stamp, rfl⟩
      | erased =>
        have hyield := (h.fit o ho).erased hfate
        rw [hflat] at hyield
        cases hyield
        cases hinert
    · have hne := herased (fun h => by cases h) o ho trivial _ hyield rfl
      cases hfate : D o.id with
      | kept => exact absurd hfate hne
      | erased => rfl
      | taken stamp =>
        obtain ⟨-, code, e, hstamped⟩ := (h.fit o ho).taken stamp hfate
        have hflat := hstamped.flat
        rw [hyield] at hflat
        cases hflat
        cases inert_of_emission hstamped.emission

end

end Practicum.Machine
