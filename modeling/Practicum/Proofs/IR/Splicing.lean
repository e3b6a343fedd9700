import Practicum.IR.Editing
import Practicum.Proofs.Runs

/-!
# What holds of every operation

A property that every operation of a program has, at every depth, is kept by an exchange of
operations as soon as the new operations have it and the exchange, seen from one operation that
stays, keeps it. A run of a pattern then keeps whatever one application of the pattern keeps.
-/

namespace Practicum.IR

open List Op

/-- Every operation of a list, and of what is nested in it, has a property. -/
def Each (P : Op → Prop) (ops : List Op) : Prop :=
  ∀ o ∈ walkAll ops, P o

/-- Every operation that stands in some block of a program has a property, and every operation that
was taken out of it has another one. -/
structure Module.Each (P Q : Op → Prop) (m : Module) : Prop where
  ops : IR.Each P m.ops
  remnant : ∀ r ∈ m.remnants, Q r
  nested : ∀ r ∈ m.remnants, ∀ b ∈ r.regions, IR.Each P b.ops

/-!
## Runs of editings

What the steps of an editing return and what draft they leave behind, as facts about runs that
succeed.
-/

/-- A draft whose program has given away some more numbers. -/
def Draft.after {σ : Type} (d : Draft σ) (n : Nat) : Draft σ :=
  { d with program := { d.program with next := d.program.next + n } }

namespace Editing

variable {σ α : Type} {d : Draft σ}

theorem run_throw_ne_ok {e : Fault} {r : α × Draft σ} : (throw e : Editing σ α).run d ≠ .ok r := by
  intro h
  cases h

end Editing

namespace Op

variable {f : Op → Option (List Op)} {g : Val → Val} {o o' : Op} {ops : List Op}

attribute [local simp] walkAll walkRegions spliceAll mapOperandsAll

@[simp] theorem code_withRegions (o : Op) (bs : List Block) : (o.withRegions bs).code = o.code := rfl

@[simp] theorem regions_withRegions (o : Op) (bs : List Block) : (o.withRegions bs).regions = bs := rfl

mutual

/-- A property of lists of operations holds of all lists if it holds of the empty list, and of a
list as soon as it holds of its rest and of the blocks of its first operation. -/
@[elab_as_elim]
theorem nested_induction {P : List Op → Prop} (nil : P [])
    (cons : ∀ o os, (∀ b ∈ o.regions, P b.ops) → P os → P (o :: os)) : ∀ ops : List Op, P ops
  | [] => nil
  | .mk _ _ _ _ bs :: os =>
    cons _ os (nested_induction_regions nil cons bs) (nested_induction nil cons os)

theorem nested_induction_regions {P : List Op → Prop} (nil : P [])
    (cons : ∀ o os, (∀ b ∈ o.regions, P b.ops) → P os → P (o :: os)) :
    ∀ bs : List Block, ∀ b ∈ bs, P b.ops
  | [], _, hb => absurd hb not_mem_nil
  | .mk _ ops :: bs, b, hb => by
    obtain rfl | hb := mem_cons.mp hb
    · exact nested_induction nil cons ops
    · exact nested_induction_regions nil cons bs b hb

end

section
variable (f g o ops) (bs : List Block)

theorem spliceInside_eq : spliceInside f o = o.withRegions (spliceRegions f o.regions) := by
  cases o
  rfl

theorem mapOperands_eq : mapOperands g o =
      .mk o.id o.code (o.operands.map g) o.results (mapOperandsRegions g o.regions) := by
  cases o
  rfl

@[simp] theorem id_mapOperands : (mapOperands g o).id = o.id := by
  rw [mapOperands_eq]
  rfl

@[simp] theorem code_mapOperands : (mapOperands g o).code = o.code := by
  rw [mapOperands_eq]
  rfl

theorem regions_eq_map {G : List Block → List Block} {F : List Op → List Op} (nil : G [] = [])
    (cons : ∀ args ops bs, G (.mk args ops :: bs) = .mk args (F ops) :: G bs) (bs : List Block) :
    G bs = bs.map fun b => .mk b.args (F b.ops) := by
  induction bs with
  | nil => exact nil
  | cons b bs ih =>
    cases b
    rw [cons, ih]
    rfl

theorem spliceRegions_eq :
    spliceRegions f bs = bs.map fun b => .mk b.args (spliceAll f b.ops) :=
  regions_eq_map rfl (fun _ _ _ => rfl) bs

theorem mapOperandsRegions_eq :
    mapOperandsRegions g bs = bs.map fun b => .mk b.args (mapOperandsAll g b.ops) :=
  regions_eq_map rfl (fun _ _ _ => rfl) bs

theorem mapOperandsAll_eq : mapOperandsAll g ops = ops.map (mapOperands g) := by
  induction ops with
  | nil => rw [mapOperandsAll, map_nil]
  | cons o _ ih => rw [mapOperandsAll, ih, map_cons]

theorem spliceAll_eq :
    spliceAll f ops = ops.flatMap fun o => (f o).getD [spliceInside f o] := by
  induction ops with
  | nil => rw [spliceAll, flatMap_nil]
  | cons o _ ih =>
    rw [spliceAll, flatMap_cons, ← ih]
    cases f o with
    | none => rfl
    | some _ => rfl

theorem regionOps_of_map {F : List Op → List Op} (hF : F [] = []) {x y : Op}
    (h : x.regions = y.regions.map fun b => .mk b.args (F b.ops)) (k : Nat) :
    x.regionOps k = F (y.regionOps k) := by
  rw [regionOps, regionOps, h, ← map_drop, List.head?_map]
  cases (y.regions.drop k).head? with
  | none => exact hF.symm
  | some b => rfl

theorem regionOps_spliceInside (k : Nat) :
    (spliceInside f o).regionOps k = spliceAll f (o.regionOps k) := by
  apply regionOps_of_map
  · rw [spliceAll]
  · rw [spliceInside_eq, regions_withRegions, spliceRegions_eq]

theorem regionOps_mapOperands (k : Nat) :
    (mapOperands g o).regionOps k = mapOperandsAll g (o.regionOps k) := by
  apply regionOps_of_map
  · rw [mapOperandsAll]
  · rw [mapOperands_eq, ← mapOperandsRegions_eq]
    rfl

end

/-! ## Walks -/

theorem walk_eq (o : Op) : walk o = o :: walkRegions o.regions := by
  cases o
  rfl

theorem walkAll_append (xs ys : List Op) : walkAll (xs ++ ys) = walkAll xs ++ walkAll ys := by
  induction xs with
  | nil => rw [walkAll, nil_append, nil_append]
  | cons x xs ih => rw [cons_append, walkAll, walkAll, ih, append_assoc]

theorem mem_walkAll : o ∈ walkAll ops ↔ ∃ x ∈ ops, o ∈ walk x := by
  induction ops with
  | nil => simp
  | cons x _ ih => simp [ih]

theorem mem_walkRegions {bs : List Block} : o ∈ walkRegions bs ↔ ∃ b ∈ bs, o ∈ walkAll b.ops := by
  induction bs with
  | nil => simp
  | cons b bs ih =>
    cases b
    simp [ih, Block.ops]

theorem mem_walk_self (o : Op) : o ∈ walk o := by
  rw [walk_eq]
  exact mem_cons_self

theorem mem_walkAll_self (h : o ∈ ops) : o ∈ walkAll ops :=
  mem_walkAll.mpr ⟨o, h, mem_walk_self o⟩

theorem regionOps_cases (o : Op) (k : Nat) :
    o.regionOps k = [] ∨ ∃ b ∈ o.regions, o.regionOps k = b.ops := by
  rw [regionOps]
  cases hb : (o.regions.drop k).head? with
  | none => exact .inl rfl
  | some b => exact .inr ⟨b, mem_of_mem_drop (mem_of_mem_head? hb), rfl⟩

theorem mem_regionOps {k : Nat} (h : o' ∈ o.regionOps k) : ∃ b ∈ o.regions, o' ∈ b.ops := by
  obtain hempty | ⟨b, hb, hops⟩ := regionOps_cases o k
  · simp [hempty] at h
  · exact ⟨b, hb, hops ▸ h⟩

theorem walkAll_cons (o : Op) (os : List Op) :
    walkAll (o :: os) = o :: (walkRegions o.regions ++ walkAll os) := by
  rw [walkAll, walk_eq, cons_append]

theorem walkRegions_singleton (b : Block) : walkRegions [b] = walkAll b.ops := by
  cases b
  rw [walkRegions, walkRegions, append_nil]
  rfl

theorem walkRegions_pair (b b' : Block) :
    walkRegions [b, b'] = walkAll b.ops ++ walkAll b'.ops := by
  cases b
  rw [walkRegions, walkRegions_singleton]
  rfl

theorem walkAll_sublist_walkRegions {b : Block} {bs : List Block} (hb : b ∈ bs) :
    (walkAll b.ops).Sublist (walkRegions bs) := by
  induction bs with
  | nil => cases hb
  | cons c _ ih =>
    cases c
    obtain rfl | hb := mem_cons.mp hb
    · exact sublist_append_left _ _
    · exact (ih hb).trans (sublist_append_right _ _)

theorem walkAll_block_subset {b : Block} (hb : b ∈ o.regions) : walkAll b.ops ⊆ walk o := by
  intro x hx
  rw [walk_eq]
  exact mem_cons_of_mem _ (mem_walkRegions.mpr ⟨b, hb, hx⟩)

theorem walk_sublist (ho : o ∈ walkAll ops) : (walk o).Sublist (walkAll ops) := by
  induction ops using nested_induction with
  | nil =>
    cases ho
  | cons p _ hblocks hps =>
    rw [walkAll_cons, mem_cons, mem_append] at ho
    obtain rfl | ho | ho := ho
    · rw [walkAll]
      exact sublist_append_left _ _
    · obtain ⟨b, hb, hob⟩ := mem_walkRegions.mp ho
      refine (hblocks b hb hob).trans ?_
      rw [walkAll_cons]
      exact ((walkAll_sublist_walkRegions hb).trans (sublist_append_left _ _)).cons p
    · rw [walkAll]
      exact (hps ho).trans (sublist_append_right _ _)

theorem mapOperandsAll_append (g : Val → Val) (xs ys : List Op) :
    mapOperandsAll g (xs ++ ys) = mapOperandsAll g xs ++ mapOperandsAll g ys := by
  rw [mapOperandsAll_eq, mapOperandsAll_eq, mapOperandsAll_eq, map_append]

theorem spliceAll_append (f : Op → Option (List Op)) (xs ys : List Op) :
    spliceAll f (xs ++ ys) = spliceAll f xs ++ spliceAll f ys := by
  rw [spliceAll_eq, spliceAll_eq, spliceAll_eq, flatMap_append]

theorem mapOperandsAll_of_fixed {g : Val → Val} (hg : ∀ v, g v = v) (ops : List Op) :
    mapOperandsAll g ops = ops := by
  induction ops using nested_induction with
  | nil => rw [mapOperandsAll]
  | cons o _ hblocks hos =>
    have hregions : mapOperandsRegions g o.regions = o.regions := by
      rw [mapOperandsRegions_eq]
      refine (map_congr_left fun b hb => ?_).trans (map_id _)
      cases b
      exact congrArg (Block.mk _) (hblocks _ hb)
    have hoperands : o.operands.map g = o.operands :=
      (map_congr_left fun v _ => hg v).trans (map_id _)
    rw [mapOperandsAll, mapOperands_eq, hregions, hoperands, hos]
    cases o
    rfl

end Op

namespace Each

open Op

variable {P P' : Op → Prop} {f : Op → Option (List Op)} {g : Val → Val} {o : Op}
  {ops xs ys : List Op}

theorem nil : Each P [] := by
  intro o ho
  cases ho

theorem append (hxs : Each P xs) (hys : Each P ys) : Each P (xs ++ ys) := by
  intro o ho
  rw [walkAll_append, mem_append] at ho
  exact ho.elim (hxs o) (hys o)

theorem of_mem (h : Each P ops) (ho : o ∈ ops) : P o :=
  h o (mem_walkAll_self ho)

theorem mono (h : Each P ops) (hP : ∀ o, P o → P' o) : Each P' ops :=
  fun o ho => hP o (h o ho)

theorem of_subset (h : Each P ys) (hsub : xs ⊆ ys) : Each P xs := by
  intro o ho
  obtain ⟨x, hx, hox⟩ := mem_walkAll.mp ho
  exact h o (mem_walkAll.mpr ⟨x, hsub hx, hox⟩)

theorem singleton_iff : Each P [o] ↔ P o ∧ ∀ b ∈ o.regions, Each P b.ops := by
  have hwalk : walkAll [o] = o :: walkRegions o.regions := by
    rw [walkAll, walkAll, append_nil, walk_eq]
  constructor
  · intro h
    refine ⟨h.of_mem mem_cons_self, fun b hb x hx => h x ?_⟩
    rw [hwalk]
    exact mem_cons_of_mem _ (mem_walkRegions.mpr ⟨b, hb, hx⟩)
  · rintro ⟨ho, hbs⟩ x hx
    rw [hwalk] at hx
    obtain rfl | hx := mem_cons.mp hx
    · exact ho
    · obtain ⟨b, hb, hx⟩ := mem_walkRegions.mp hx
      exact hbs b hb x hx

theorem iff_forall : Each P ops ↔ ∀ o ∈ ops, Each P [o] := by
  constructor
  · intro h o ho
    exact h.of_subset (by simpa using ho)
  · intro h o ho
    obtain ⟨x, hx, hox⟩ := mem_walkAll.mp ho
    exact h x hx o (mem_walkAll.mpr ⟨x, mem_cons_self, hox⟩)

theorem cons_iff : Each P (o :: ops) ↔ Each P [o] ∧ Each P ops := by
  rw [iff_forall, forall_mem_cons, ← iff_forall]

theorem leaf (hregions : o.regions = []) (ho : P o) : Each P [o] := by
  rw [singleton_iff, hregions]
  exact ⟨ho, nofun⟩

theorem inside (h : Each P ops) (ho : o ∈ walkAll ops) : Each P [o] := by
  intro x hx
  rw [walkAll, walkAll, append_nil] at hx
  exact h x ((walk_sublist ho).subset hx)

theorem regionOps (h : Each P [o]) (k : Nat) : Each P (o.regionOps k) := by
  rw [iff_forall]
  intro x hx
  obtain ⟨b, hb, hxb⟩ := mem_regionOps hx
  exact iff_forall.mp ((singleton_iff.mp h).2 b hb) x hxb

/-! ## Exchanges -/

theorem splice (hP : ∀ o, f o = none → P o → P' (spliceInside f o))
    (hnew : ∀ x new, P x → f x = some new → Each P' new) (h : Each P ops) :
    Each P' (spliceAll f ops) := by
  induction ops using nested_induction with
  | nil => exact nil
  | cons o _ hblocks hos =>
    obtain ⟨ho, hrest⟩ := cons_iff.mp h
    obtain ⟨hop, hinner⟩ := singleton_iff.mp ho
    rw [spliceAll]
    cases hf : f o with
    | none =>
      refine cons_iff.mpr ⟨singleton_iff.mpr ⟨hP o hf hop, ?_⟩, hos hrest⟩
      rw [spliceInside_eq, regions_withRegions, spliceRegions_eq, forall_mem_map]
      exact fun b hb => hblocks b hb (hinner b hb)
    | some new => exact (hnew o new hop hf).append (hos hrest)

theorem mapOperandsAll (hP : ∀ o, P o → P' (mapOperands g o)) (h : Each P ops) :
    Each P' (mapOperandsAll g ops) := by
  induction ops using nested_induction with
  | nil => exact nil
  | cons o _ hblocks hos =>
    obtain ⟨ho, hrest⟩ := cons_iff.mp h
    obtain ⟨hop, hinner⟩ := singleton_iff.mp ho
    refine cons_iff.mpr ⟨singleton_iff.mpr ⟨hP o hop, ?_⟩, hos hrest⟩
    rw [mapOperands_eq, regions, mapOperandsRegions_eq, forall_mem_map]
    exact fun b hb => hblocks b hb (hinner b hb)

end Each

variable {f : Op → Option (List Op)}

namespace Module

variable {P P' Q Q' : Op → Prop} {m : Module} {o : Op}
variable {new ops : List Op} {old : Op}

theorem Each.withNext (h : m.Each P Q) (n : Nat) : { m with next := n }.Each P Q :=
  ⟨h.ops, h.remnant, h.nested⟩

theorem Each.mono (h : m.Each P Q) (hP : ∀ o, P o → P' o) (hQ : ∀ o, Q o → Q' o) : m.Each P' Q' :=
  ⟨h.ops.mono hP, fun r hr => hQ r (h.remnant r hr), fun r hr b hb => (h.nested r hr b hb).mono hP⟩

theorem each_of_placed (hP : ∀ o ∈ m.placed, P o) (hQ : ∀ r ∈ m.remnants, Q r) : m.Each P Q := by
  refine ⟨fun o ho => hP o (mem_append_left _ ho), hQ, fun r hr b hb o ho => hP o ?_⟩
  exact mem_append_right _ (mem_flatMap.mpr ⟨r, hr, mem_walkRegions.mpr ⟨b, hb, ho⟩⟩)

theorem Each.of_mem_placed (h : m.Each P Q) (ho : o ∈ m.placed) : IR.Each P [o] := by
  obtain ho | ho := mem_append.mp ho
  · exact h.ops.inside ho
  obtain ⟨r, hr, hor⟩ := mem_flatMap.mp ho
  obtain ⟨b, hb, hob⟩ := mem_walkRegions.mp hor
  exact (h.nested r hr b hb).inside hob

theorem Each.of_find? {n : Nat} (h : m.Each P Q) (hfind : m.find? n = some o) :
    IR.Each P [o] ∧ o.id = n := by
  constructor
  · exact h.of_mem_placed (mem_of_find?_eq_some hfind)
  · have hid := List.find?_some hfind
    exact beq_iff_eq.mp hid

theorem Each.of_definition? {v : Val} (h : m.Each P Q) (hdef : m.definition? v = some o) :
    (P o ∨ Q o) ∧ (∀ b ∈ o.regions, IR.Each P b.ops) ∧ ∃ r ∈ o.results, r.id = v.id := by
  have hany := List.find?_some hdef
  obtain ⟨r, hr, hid⟩ := any_eq_true.mp hany
  obtain hmem | hmem := mem_append.mp (mem_of_find?_eq_some hdef)
  · obtain ⟨ho, hregions⟩ := IR.Each.singleton_iff.mp (h.of_mem_placed hmem)
    exact ⟨.inl ho, hregions, r, hr, beq_iff_eq.mp hid⟩
  · exact ⟨.inr (h.remnant o hmem), h.nested o hmem, r, hr, beq_iff_eq.mp hid⟩

/-! ## Exchanges and rereads -/

def swap (old : Op) (new : List Op) (o : Op) : Option (List Op) :=
  if o.id == old.id then some new else none

theorem swap_eq_some_iff {new' : List Op} :
    swap old new o = some new' ↔ o.id = old.id ∧ new' = new := by
  rw [swap]
  by_cases h : o.id = old.id
  · rw [if_pos (beq_iff_eq.mpr h), Option.some_inj]
    exact ⟨fun hnew => ⟨h, hnew.symm⟩, fun hnew => hnew.2.symm⟩
  · rw [if_neg (by simpa using h)]
    simp [h]

theorem swap_eq_none_iff : swap old new o = none ↔ o.id ≠ old.id := by
  rw [swap]
  by_cases h : o.id = old.id <;> simp

theorem mem_splice_of_ne (ho : o ∈ ops) (hne : o.id ≠ old.id) :
    spliceInside (swap old new) o ∈ spliceAll (swap old new) ops := by
  rw [spliceAll_eq, mem_flatMap]
  refine ⟨o, ho, ?_⟩
  rw [swap_eq_none_iff.mpr hne]
  exact mem_cons_self

theorem mem_splice_of_eq {x : Op} (ho : o ∈ ops) (heq : o.id = old.id) (hx : x ∈ new) :
    x ∈ spliceAll (swap old new) ops := by
  rw [spliceAll_eq, mem_flatMap]
  refine ⟨o, ho, ?_⟩
  rw [swap_eq_some_iff.mpr ⟨heq, rfl⟩]
  exact hx

theorem mem_splice_cases {x : Op} (hx : x ∈ spliceAll (swap old new) ops) :
    (x ∈ new ∧ ∃ o ∈ ops, o.id = old.id) ∨
      ∃ o ∈ ops, o.id ≠ old.id ∧ x = spliceInside (swap old new) o := by
  rw [spliceAll_eq, mem_flatMap] at hx
  obtain ⟨o, ho, hx⟩ := hx
  by_cases hid : o.id = old.id
  · rw [swap_eq_some_iff.mpr ⟨hid, rfl⟩] at hx
    exact .inl ⟨hx, o, ho, hid⟩
  · rw [swap_eq_none_iff.mpr hid] at hx
    exact .inr ⟨o, ho, hid, mem_singleton.mp hx⟩

def reread (changes : List (Val × Val)) (v : Val) : Val :=
  ((changes.find? fun c => c.1.id == v.id).map Prod.snd).getD v

def renamed (changes : List (Val × Val)) (m : Module) : Module :=
  if changes.isEmpty then m else m.mapOperands (reread changes)

/-- The program with operations in the place of an operation, of which something is left. -/
def exchanged (husk old : Op) (new : List Op) (m : Module) : Module :=
  { m.splice (swap old new) with remnants := husk :: (m.splice (swap old new)).remnants }

def successors (old : Op) (values : List (Option Val)) : List (Val × Val) :=
  (old.results.zip values).filterMap fun (r, v) => v.map fun v => (r, v)

theorem ops_renamed (changes : List (Val × Val)) (m : Module) :
    (m.renamed changes).ops = mapOperandsAll (reread changes) m.ops := by
  rw [Module.renamed]
  split
  next hempty =>
    rw [isEmpty_iff.mp hempty]
    exact (mapOperandsAll_of_fixed (fun _ => rfl) m.ops).symm
  · rfl

theorem reread_cases (changes : List (Val × Val)) (v : Val) :
    reread changes v = v ∨ ∃ c ∈ changes, c.1.id = v.id ∧ reread changes v = c.2 := by
  rw [reread]
  cases hfind : changes.find? fun c => c.1.id == v.id with
  | none => exact .inl rfl
  | some c =>
    refine .inr ⟨c, mem_of_find?_eq_some hfind, ?_, rfl⟩
    exact beq_iff_eq.mp (find?_some (p := fun c : Val × Val => c.1.id == v.id) hfind)

theorem mem_successors {values : List (Option Val)} {c : Val × Val}
    (h : c ∈ successors old values) : c.1 ∈ old.results ∧ some c.2 ∈ values := by
  obtain ⟨⟨r, v⟩, hmem, hc⟩ := mem_filterMap.mp h
  obtain ⟨w, rfl, rfl⟩ := Option.map_eq_some_iff.mp hc
  exact ⟨(of_mem_zip hmem).1, (of_mem_zip hmem).2⟩

@[simp] theorem next_renamed (changes : List (Val × Val)) (m : Module) :
    (m.renamed changes).next = m.next := by
  rw [renamed]
  split <;> rfl

theorem Each.renamed {changes : List (Val × Val)} (h : m.Each P Q)
    (hP : ∀ o, P o → P (Op.mapOperands (reread changes) o))
    (hQ : ∀ o, Q o → Q (o.withRegions (Op.mapOperandsRegions (reread changes) o.regions))) :
    (m.renamed changes).Each P Q := by
  rw [Module.renamed]
  split
  · exact h
  constructor
  · exact h.ops.mapOperandsAll hP
  · exact forall_mem_map.mpr fun r hr => hQ r (h.remnant r hr)
  · refine forall_mem_map.mpr fun r hr => ?_
    rw [Op.regions_withRegions, Op.mapOperandsRegions_eq, forall_mem_map]
    exact fun b hb => (h.nested r hr b hb).mapOperandsAll hP

theorem Each.splice (h : m.Each P Q) (hP : ∀ o, f o = none → P o → P' (spliceInside f o))
    (hQ : ∀ o, Q o → Q' (spliceInside f o))
    (hnew : ∀ x new, P x → f x = some new → IR.Each P' new) : (m.splice f).Each P' Q' := by
  constructor
  · exact h.ops.splice hP hnew
  · exact forall_mem_map.mpr fun r hr => hQ r (h.remnant r hr)
  · refine forall_mem_map.mpr fun r hr => ?_
    rw [spliceInside_eq, regions_withRegions, spliceRegions_eq, forall_mem_map]
    exact fun b hb => (h.nested r hr b hb).splice hP hnew

theorem Each.exchanged {husk : Op} (h : m.Each P Q)
    (hP : ∀ o, o.id ≠ old.id → P o → P' (spliceInside (swap old new) o))
    (hQ : ∀ o, Q o → Q' (spliceInside (swap old new) o)) (hnew : IR.Each P' new)
    (hhusk : Q' husk) (hnested : ∀ b ∈ husk.regions, IR.Each P' b.ops) :
    (m.exchanged husk old new).Each P' Q' := by
  have hsplice := h.splice (f := swap old new) (fun o ho => hP o (swap_eq_none_iff.mp ho)) hQ
    fun x _ _ hx => (swap_eq_some_iff.mp hx).2 ▸ hnew
  constructor
  · exact hsplice.ops
  · exact forall_mem_cons.mpr ⟨hhusk, hsplice.remnant⟩
  · exact forall_mem_cons.mpr ⟨hnested, hsplice.nested⟩

theorem find?_main {main : Op} (hops : m.ops = [main]) : m.find? main.id = some main := by
  rw [find?, placed, walk, hops, walkAll, walk_eq]
  exact List.find?_cons_of_pos (by simp)

end Module

/-! ## Functions -/

def Named (funcs : Nat → Option String) (func : String) : Prop :=
  ∃ n, funcs n = some func

/-- A program is one main function, in whose body the functions of some names stand. -/
def Housed (stands : Op → String → Prop) (named : String → Prop) (ops : List Op) : Prop :=
  ∃ main, ops = [main] ∧ stands main "_main" ∧
    ∀ func, named func → func = "_main" ∨ ∃ o ∈ main.regionOps 0, stands o func

section
variable {stands : Op → String → Prop} {named : String → Prop} {m : Module}

theorem Housed.renamed (h : Housed stands named m.ops)
    (hstands : ∀ o x f, stands o f → x.id = o.id → x.code = o.code → stands x f)
    (changes : List (Val × Val)) : Housed stands named (m.renamed changes).ops := by
  rw [Module.renamed]
  split
  · exact h
  obtain ⟨_, hops, hmain, hall⟩ := h
  have hmap {x : Op} {f : String} (hx : stands x f) :
      stands (mapOperands (Module.reread changes) x) f :=
    hstands _ _ _ hx (id_mapOperands ..) (code_mapOperands ..)
  refine ⟨_, ?_, hmap hmain, fun f hf => ?_⟩
  · show mapOperandsAll _ m.ops = _
    rw [hops]
    rfl
  · refine (hall f hf).imp_right fun ⟨o, ho, hstand⟩ => ⟨_, ?_, hmap hstand⟩
    rw [regionOps_mapOperands, mapOperandsAll_eq]
    exact mem_map_of_mem ho

theorem Housed.splice (h : Housed stands named m.ops)
    (hstands : ∀ o x f, stands o f → x.id = o.id → x.code = o.code → stands x f)
    (hf : ∀ o ∈ m.walk, ∀ func new, stands o func → f o = some new →
      ∃ x, new = [x] ∧ stands x func ∧ (m.ops = [o] → o.regionOps 0 ⊆ x.regionOps 0)) :
    Housed stands named (m.splice f).ops := by
  obtain ⟨main, hops, hmain, hall⟩ := h
  have hinside {x : Op} {func : String} (hx : stands x func) : stands (spliceInside f x) func := by
    rw [spliceInside_eq]
    exact hstands _ _ _ hx rfl rfl
  have hwalk : main ∈ m.walk := by
    rw [Module.walk, hops]
    exact mem_walkAll_self mem_cons_self
  show Housed stands named (spliceAll f m.ops)
  rw [hops, spliceAll]
  cases hreplace : f main with
  | some new =>
    -- the main function itself is replaced, and its body is taken over
    obtain ⟨x, rfl, hx, hbody⟩ := hf main hwalk _ new hmain hreplace
    refine ⟨x, append_nil _, hx, fun func hfunc => ?_⟩
    refine (hall func hfunc).imp_right fun ⟨o, ho, hstand⟩ => ⟨o, hbody hops ho, hstand⟩
  | none =>
    refine ⟨_, rfl, hinside hmain, fun func hfunc => ?_⟩
    refine (hall func hfunc).imp_right fun ⟨o, ho, hstand⟩ => ?_
    rw [regionOps_spliceInside, spliceAll_eq]
    cases hreplace' : f o with
    | none =>
      refine ⟨_, mem_flatMap.mpr ⟨o, ho, ?_⟩, hinside hstand⟩
      rw [hreplace']
      exact mem_cons_self
    | some new =>
      have hinner : o ∈ m.walk := by
        obtain ⟨b, hb, hob⟩ := mem_regionOps ho
        rw [Module.walk, hops, walkAll, walkAll, append_nil, walk_eq]
        exact mem_cons_of_mem _ (mem_walkRegions.mpr ⟨b, hb, mem_walkAll_self hob⟩)
      obtain ⟨x, rfl, hx, -⟩ := hf o hinner func new hstand hreplace'
      refine ⟨x, mem_flatMap.mpr ⟨o, ho, ?_⟩, hx⟩
      rw [hreplace']
      exact mem_cons_self

end

namespace Editing

variable {σ α : Type} {d d' : Draft σ} {I : Module → σ → Prop}

theorem run_substitute (changes : List (Val × Val)) : (substitute changes : Editing σ Unit).run d =
      .ok ((), { d with program := d.program.renamed changes }) := by
  cases changes <;> rfl

theorem run_replaceLeaving (husk old : Op) (new : List Op) (values : List (Option Val)) :
    (replaceLeaving husk old new values : Editing σ Unit).run d = .ok ((), { d with
        program := (d.program.exchanged husk old new).renamed (Module.successors old values)
        changed := true }) := by
  exact run_substitute _

/-! ## Steps that only look at the program -/

theorem run_definition {v : Val} {o : Op}
    (hrun : (definition v : Editing σ Op).run d = .ok (o, d')) :
    d.program.definition? v = some o ∧ d' = d := by
  replace hrun := of_run_step hrun rfl
  cases hdef : d.program.definition? v with
  | none =>
    rw [hdef] at hrun
    cases hrun
  | some x =>
    rw [hdef] at hrun
    cases hrun
    exact ⟨rfl, rfl⟩

def Looks (x : Editing σ α) : Prop :=
  ∀ ⦃d a d'⦄, x.run d = .ok (a, d') → d' = d

/-! ## Rounds -/

/-- A step of an editing keeps a property of the program and of what is remembered. -/
def Keeps (I : Module → σ → Prop) (x : Editing σ α) : Prop :=
  ∀ ⦃d a d'⦄, I d.program d.memo → x.run d = .ok (a, d') → I d'.program d'.memo

/-- A pattern keeps a property when the operation that it is given stands in some block. -/
def KeptBy (I : Module → σ → Prop) (pattern : Op → Editing σ Unit) : Prop :=
  ∀ ⦃d u d' o⦄, I d.program d.memo → d.program.find? o.id = some o →
    (pattern o).run d = .ok (u, d') → I d'.program d'.memo

variable {pattern : Op → Editing σ Unit}

section
variable (h : KeptBy I pattern)
include h

theorem KeptBy.offer (n : Nat) : Keeps I (offer pattern n) := by
  intro d u d' hI hrun
  replace hrun := of_run_step hrun rfl
  cases hfind : d.program.find? n with
  | none =>
    rw [hfind] at hrun
    cases hrun
    exact hI
  | some o =>
    rw [hfind] at hrun
    have hid : o.id = n := beq_iff_eq.mp (List.find?_some (p := fun o : Op => o.id == n) hfind)
    exact h hI (hid ▸ hfind) hrun

theorem KeptBy.offers (ids : List Nat) : Keeps I (ids.forM (Editing.offer pattern)) := by
  induction ids with
  | nil =>
    intro d u d' hI hrun
    cases hrun
    exact hI
  | cons n ids ih =>
    intro d u d' hI hrun
    obtain ⟨_, _, hfirst, hrest⟩ := of_run_bind hrun
    exact ih (h.offer n hI hfirst) hrest

theorem KeptBy.round (direction : Direction) : Keeps I (round pattern direction) := by
  intro d u d' hI hrun
  replace hrun := of_run_step hrun rfl
  cases direction with
  | forward | backward => exact h.offers _ (d := { d with changed := false }) hI hrun

theorem KeptBy.exhaustWithin (direction : Direction) (n : Nat) :
    Keeps I (exhaustWithin pattern direction n) := by
  induction n with
  | zero =>
    intro d u d' hI hrun
    cases hrun
    exact hI
  | succ n ih =>
    intro d u d' hI hrun
    obtain ⟨_, _, _, _, hround, hget, hrun⟩ := of_run_bind₂ hrun
    cases hget
    have hI1 := h.round direction hI hround
    split at hrun
    · exact ih hI1 hrun
    · cases hrun
      exact hI1

theorem KeptBy.exhaust (direction : Direction) : Keeps I (exhaust pattern direction) :=
  h.exhaustWithin direction maxRounds

end

theorem Keeps.apply {x : Editing σ Unit} (h : Keeps I x) {memo : σ} {m m' : Module}
    (hI : I m memo) (hrun : apply x memo m = .ok m') : ∃ memo', I m' memo' := by
  rw [Editing.apply] at hrun
  cases hx : x.run { program := m, memo } with
  | error e =>
    rw [hx] at hrun
    cases hrun
  | ok r =>
    rw [hx] at hrun
    cases hrun
    exact ⟨r.2.memo, h (d := { program := m, memo }) hI hx⟩

end Editing

end Practicum.IR
