import Practicum.Proofs.Machine.Patterns

/-!
# Where a program of the machine level leads

Lowering goes through programs that are partly of the flat and partly of the machine level. In all
of them every label that an operation of a block leads to can be led to in that block, and every
call is of a function that is there or will be.
-/

namespace Practicum.Machine

open List hiding replace

open IR Riscv Editing
open Module
open Op

/-- What an operation can be while a program is lowered: of the flat level below the bound and of
the machine level from the bound on. The numbers of functions are those of their definitions. -/
def Fits (least : Nat) (funcs : Nat → Option String) (known : String → Prop) (o : Op) : Prop :=
  match o.code with
  | .flat code =>
    o.id < least ∧ (∀ func, code = .call func → func = "len" ∨ Callable known func) ∧
      ∀ func, funcs o.id = some func → ∃ result, code = .funcDef func result
  | .machine code _ => least ≤ o.id ∧ ∀ func, code = .call func → Callable known func
  | .line _ => False

/-- An operation fits, and so do the operations of its blocks, which lead to each other and to the
library only. -/
structure Sound (least : Nat) (funcs : Nat → Option String) (known : String → Prop) (o : Op) :
    Prop where
  fits : Fits least funcs known o
  blocks : ∀ b ∈ o.regions, (∀ x ∈ b.ops, Fits least funcs known x) ∧ Leads b.ops b.ops

/-- An operation is a function, before or after it was lowered. -/
def Stands (funcs : Nat → Option String) (o : Op) (func : String) : Prop :=
  o.machine? = some (.func func) ∨ funcs o.id = some func

/-- What holds while a program is lowered. If the functions that are called are functions of the
program, then these stand in the main function. -/
structure Lowering (least : Nat) (funcs : Nat → Option String) (known : String → Prop)
    (m : Module) : Prop where
  each : m.Each (Sound least funcs known) fun _ => True
  top : Leads m.ops m.ops
  housed : (∀ func, known func → Named funcs func) → Housed (Stands funcs) (Named funcs) m.ops
  next : least ≤ m.next

section
variable {least : Nat} {funcs : Nat → Option String} {known : String → Prop} {o old x : Op}
  {func name : String} {ops new : List Op} {m : Module} {F : Op → Op} {code : MachineCode}

theorem Fits.congr (h : Fits least funcs known o) (hid : x.id = o.id) (hcode : x.code = o.code) :
    Fits least funcs known x := by
  rw [Fits, hcode, hid]
  exact h

theorem Stands.congr (h : Stands funcs o func) (hid : x.id = o.id) (hcode : x.code = o.code) :
    Stands funcs x func := by
  rw [Stands, machine?, hcode, hid]
  exact h

theorem Fits.flat_of_lt (h : Fits least funcs known o) (hlt : o.id < least) :
    ∃ code, o.flat? = some code := by
  cases hcode : o.code with
  | flat code => exact ⟨code, by rw [flat?, hcode]⟩
  | machine code _ =>
    rw [Fits, hcode] at h
    exact absurd hlt (Nat.not_lt.mpr h.1)
  | line l =>
    rw [Fits, hcode] at h
    exact h.elim

theorem Fits.le_of_machine? (h : Fits least funcs known o) (hcode : o.machine? = some code) :
    least ≤ o.id := by
  obtain ⟨_, hcode⟩ := code_of_machine? hcode
  rw [Fits, hcode] at h
  exact h.1

theorem Made.fits (h : Made least code o)
    (hcall : ∀ func, code = .call func → Callable known func) : Fits least funcs known o := by
  obtain ⟨_, hcode⟩ := h.machine
  rw [Fits, hcode]
  exact ⟨h.fresh, hcall⟩

theorem Closed.each {blocks : List Op} (h : Closed least known blocks new)
    (hblocks : Each (Sound least funcs known) blocks) : Each (Sound least funcs known) new := by
  refine Each.iff_forall.mpr fun o ho => ?_
  obtain hblock | ⟨_, hmade, hcall⟩ := h.1 o ho
  · exact Each.iff_forall.mp hblocks o hblock
  refine .leaf hmade.regions ⟨hmade.fits hcall, ?_⟩
  rw [hmade.regions]
  exact nofun

/-! ## Operations that lead nowhere else after an exchange -/

theorem target?_congr (hcode : x.code = o.code) : x.target? = o.target? := by
  rw [target?, target?, machine?, machine?, hcode]

theorem lands_congr (hcode : x.code = o.code) (h : o.Lands name) : x.Lands name := by
  rw [Op.Lands, machine?, hcode]
  exact h

theorem Placed.map (hF : ∀ o, (F o).code = o.code) (h : Placed ops name) :
    Placed (ops.map F) name := by
  obtain ⟨o, ho, hland⟩ := h
  exact ⟨F o, mem_map_of_mem ho, lands_congr (hF o) hland⟩

theorem Leads.map (hF : ∀ o, (F o).code = o.code) (h : Leads ops ops) :
    Leads (ops.map F) (ops.map F) := by
  intro o ho name hname
  obtain ⟨x, hx, rfl⟩ := mem_map.mp ho
  rw [target?_congr (hF x)] at hname
  exact (h x hx name hname).imp (Placed.map hF)

theorem Placed.splice (hfits : ∀ o ∈ ops, Fits least funcs known o) (hold : old.id < least)
    (h : Placed ops name) : Placed (spliceAll (swap old new) ops) name := by
  obtain ⟨o, ho, hland⟩ := h
  -- a label is of the machine level, so it is not what is replaced
  have hne : o.id ≠ old.id := by
    have hle := (hfits o ho).le_of_machine? hland
    omega
  refine ⟨_, mem_splice_of_ne ho hne, lands_congr ?_ hland⟩
  rw [spliceInside_eq, code_withRegions]

theorem Leads.splice (hfits : ∀ o ∈ ops, Fits least funcs known o) (hold : old.id < least)
    (hnew : Leads new new) (h : Leads ops ops) :
    Leads (spliceAll (swap old new) ops) (spliceAll (swap old new) ops) := by
  intro x hx name hname
  obtain ⟨hxnew, o, ho, hid⟩ | ⟨o, ho, -, rfl⟩ := mem_splice_cases hx
  · exact (hnew x hxnew name hname).mono fun y hy => mem_splice_of_eq ho hid hy
  · rw [spliceInside_eq, target?_congr (code_withRegions ..)] at hname
    exact (h o ho name hname).imp (Placed.splice hfits hold)

theorem Sound.splice (hold : old.id < least) (hfits : ∀ x ∈ new, Fits least funcs known x)
    (hnew : Leads new new) (h : Sound least funcs known o) :
    Sound least funcs known (spliceInside (swap old new) o) := by
  rw [spliceInside_eq]
  refine ⟨h.fits.congr rfl rfl, fun b hb => ?_⟩
  rw [spliceRegions_eq] at hb
  obtain ⟨b0, hb0, rfl⟩ := mem_map.mp hb
  obtain ⟨hfitsb, hleads⟩ := h.blocks b0 hb0
  refine ⟨fun x hx => ?_, Leads.splice hfitsb hold hnew hleads⟩
  obtain ⟨hxnew, -⟩ | ⟨y, hy, -, rfl⟩ := mem_splice_cases hx
  · exact hfits x hxnew
  · rw [spliceInside_eq]
    exact (hfitsb y hy).congr rfl rfl

theorem Sound.of_map (hid : ∀ o, (F o).id = o.id) (hcode : ∀ o, (F o).code = o.code)
    (hxid : x.id = o.id) (hxcode : x.code = o.code)
    (hregions : x.regions = o.regions.map fun b => .mk b.args (b.ops.map F))
    (h : Sound least funcs known o) : Sound least funcs known x := by
  refine ⟨h.fits.congr hxid hxcode, fun b hb => ?_⟩
  rw [hregions] at hb
  obtain ⟨b0, hb0, rfl⟩ := mem_map.mp hb
  obtain ⟨hfits, hleads⟩ := h.blocks b0 hb0
  exact ⟨forall_mem_map.mpr fun y hy => (hfits y hy).congr (hid y) (hcode y), hleads.map hcode⟩

theorem Sound.renamed (h : m.Each (Sound least funcs known) fun _ => True)
    (changes : List (Val × Val)) :
    (m.renamed changes).Each (Sound least funcs known) fun _ => True := by
  refine h.renamed (fun o ho => ?_) fun _ _ => trivial
  have hregions : (mapOperands (reread changes) o).regions = o.regions.map fun b =>
      .mk b.args (b.ops.map (mapOperands (reread changes))) := by
    rw [mapOperands_eq, ← funext fun b : Block =>
      congrArg (Block.mk b.args) (mapOperandsAll_eq (reread changes) b.ops),
      ← mapOperandsRegions_eq]
    rfl
  exact Sound.of_map (id_mapOperands _) (code_mapOperands _) (id_mapOperands ..)
    (code_mapOperands ..) hregions ho

theorem Leads.renamed (h : Leads m.ops m.ops) (changes : List (Val × Val)) :
    Leads (m.renamed changes).ops (m.renamed changes).ops := by
  rw [Module.renamed]
  split
  · exact h
  show Leads (mapOperandsAll _ m.ops) (mapOperandsAll _ m.ops)
  rw [mapOperandsAll_eq]
  exact h.map (code_mapOperands _)

/-! ## The functions -/

theorem Stands.ne_of_not_func (h : Stands funcs o func) (hfits : Fits least funcs known o)
    (hold : old.id < least) (hnone : funcs old.id = none) : o.id ≠ old.id := by
  intro hid
  obtain hmachine | hname := h
  · have := hfits.le_of_machine? hmachine
    omega
  · rw [hid, hnone] at hname
    cases hname

theorem Stands.eq_of_id_eq {func' : String} (h : Stands funcs o func)
    (hfits : Fits least funcs known o) (hold : old.id < least) (hid : o.id = old.id)
    (hsome : funcs old.id = some func') : func = func' := by
  obtain hmachine | hname := h
  · have := hfits.le_of_machine? hmachine
    omega
  · rw [hid, hsome] at hname
    exact (Option.some.inj hname).symm

theorem Lowering.houses {husk : Op} (h : Lowering least funcs known m)
    (hknown : ∀ func, known func → Named funcs func) (hfind : m.find? old.id = some old)
    (hold : old.id < least) (hnew : ∀ f, funcs old.id = some f →
      ∃ x, new = [x] ∧ x.machine? = some (.func f) ∧ x.regionOps 0 = old.regionOps 0) :
    Housed (Stands funcs) (Named funcs) (m.exchanged husk old new).ops := by
  refine (h.housed hknown).splice (fun _ _ _ => Stands.congr) fun o ho f _ hstands hswap => ?_
  obtain ⟨hid, rfl⟩ := swap_eq_some_iff.mp hswap
  have hfits := ((h.each.ops.inside ho).of_mem mem_cons_self).fits
  cases hname : funcs old.id with
  | none => exact absurd hid (hstands.ne_of_not_func hfits hold hname)
  | some _ =>
    obtain rfl := hstands.eq_of_id_eq hfits hold hid hname
    obtain ⟨x, hx, hfunc, hbody⟩ := hnew _ hname
    refine ⟨x, hx, .inl hfunc, fun hops => ?_⟩
    have hmain := find?_main hops
    rw [hid, hfind] at hmain
    rw [← Option.some.inj hmain, hbody]
    exact Subset.refl _

/-! ## One exchange -/

theorem Lowering.withNext (h : Lowering least funcs known m) {n : Nat} (hn : least ≤ n) :
    Lowering least funcs known { m with next := n } :=
  ⟨h.each.withNext n, h.top, h.housed, hn⟩

theorem Lowering.exchange {husk : Op} (h : Lowering least funcs known m)
    (hfind : m.find? old.id = some old) (hold : old.id < least)
    (hnew : Each (Sound least funcs known) new) (hleads : Leads new new)
    (hhusk : ∀ b ∈ husk.regions, Each (Sound least funcs known) b.ops)
    (hfunc : ∀ f, funcs old.id = some f →
      ∃ x, new = [x] ∧ x.machine? = some (.func f) ∧ x.regionOps 0 = old.regionOps 0)
    (changes : List (Val × Val)) :
    Lowering least funcs known ((m.exchanged husk old new).renamed changes) where
  each := by
    apply Sound.renamed
    refine h.each.exchanged (fun o _ ho => ?_) (fun _ _ => trivial) hnew trivial hhusk
    exact Sound.splice hold (fun x hx => (hnew.of_mem hx).fits) hleads ho
  top := by
    have hfits : ∀ x ∈ m.ops, Fits least funcs known x := fun x hx => (h.each.ops.of_mem hx).fits
    have hsplice := Leads.splice hfits hold hleads h.top
    exact Leads.renamed (m := m.exchanged husk old new) hsplice changes
  housed hknown := (h.houses hknown hfind hold hfunc).renamed (fun _ _ _ => Stands.congr) changes
  next := by
    rw [next_renamed]
    exact h.next

/-! ## Patterns -/

variable {d d' : Draft Labels} {u : Unit} {yields : Nat → Option Val} {e : Emit Code} {label : Nat}

/-- A pattern is given an operation of the flat level. -/
structure Given (least : Nat) (funcs : Nat → Option String) (known : String → Prop)
    (d : Draft Labels) (o : Op) : Prop where
  lowering : Lowering least funcs known d.program
  found : d.program.find? o.id = some o
  below : o.id < least

section
variable (h : Given least funcs known d o)
include h

theorem Given.sound : Each (Sound least funcs known) [o] :=
  (h.lowering.each.of_find? h.found).1

theorem Given.leads (k : Nat) : Leads (o.regionOps k) (o.regionOps k) := by
  rw [regionOps]
  cases hb : (o.regions.drop k).head? with
  | none => exact leads_nil
  | some b =>
    have hmem := mem_of_mem_drop (mem_of_mem_head? hb)
    exact ((h.sound.of_mem mem_cons_self).blocks b hmem).2

theorem Given.husk : ∀ b ∈ o.regions, Each (Sound least funcs known) b.ops :=
  (Each.singleton_iff.mp h.sound).2

end

theorem Fits.of_flat? (h : Fits least funcs known o) {code : FlatCode}
    (hflat : o.flat? = some code) :
    o.id < least ∧ (∀ func, code = .call func → func = "len" ∨ Callable known func) ∧
      ∀ func, funcs o.id = some func → ∃ result, code = .funcDef func result := by
  rw [Fits, code_of_flat? hflat] at h
  exact h

theorem emission_closed {code : FlatCode} (hfunc : ∀ f r, code ≠ .funcDef f r)
    (hcall : ∀ func, code = .call func → func = "len" ∨ Callable known func)
    (hleads : ∀ k, Leads (o.regionOps k) (o.regionOps k))
    (he : emission label code o yields = some e) :
    Emits least (fun c => Closed least known (o.regionOps 0 ++ o.regionOps 1) c.ops) e := by
  cases hcode : nests code with
  | false => exact (emission_straight hcode hcall he).mono fun c hc => hc.closed
  | true =>
    exact (emission_surrounds hcode hfunc he).mono fun c hc => hc.closed (hleads 0) (hleads 1)

theorem Given.function (h : Given least funcs known d o) {result : Ty} {husk : Op}
    (hname : ∀ f, funcs o.id = some f → f = func)
    (hhusk : ∀ b ∈ husk.regions, Each (Sound least funcs known) b.ops)
    (he : emission label (.funcDef func result) o yields = some e) :
    Lowering least funcs known (lowered d (.funcDef func result) husk o e).program := by
  cases he
  have hbody := h.sound.regionOps 0
  have hnew : Each (Sound least funcs known) [Op.mk d.program.next (.machine (.func func) none)
      [] [] [.mk ((argsOf o).map inRegister) (o.regionOps 0)]] := by
    refine Each.singleton_iff.mpr ⟨⟨⟨h.lowering.next, nofun⟩, fun b hb => ?_⟩, fun b hb => ?_⟩
    all_goals obtain rfl := mem_singleton.mp hb
    · exact ⟨fun x hx => (hbody.of_mem hx).fits, h.leads 0⟩
    · exact hbody
  exact (h.lowering.withNext (Nat.le_succ_of_le h.lowering.next)).exchange h.found h.below hnew
    (forall_mem_cons.mpr ⟨nofun, leads_nil⟩) hhusk (fun f hf => ⟨_, rfl, hname f hf ▸ rfl, rfl⟩) _

theorem keptBy_pattern :
    KeptBy (fun m (_ : Labels) => Lowering least funcs known m) Machine.pattern := by
  intro d u d' o hI hfind hrun
  have hfits := ((hI.each.of_find? hfind).1.of_mem mem_cons_self).fits
  cases hflat : o.flat? with
  | none =>
    rw [Machine.pattern, hflat] at hrun
    cases hrun
    exact hI
  | some code =>
    obtain ⟨hbelow, hcall, hname⟩ := hfits.of_flat? hflat
    have h : Given least funcs known d o := ⟨hI, hfind, hbelow⟩
    have hlowers := lowers_of_pattern hflat hrun
    unfold Lowers at hlowers
    split at hlowers
    · exact hlowers.2 ▸ hI
    next e he =>
      obtain ⟨husk, hhusk, rfl⟩ := hlowers
      have hblocks : ∀ b ∈ husk.regions, Each (Sound least funcs known) b.ops := by
        obtain hnil | ⟨rfl, -⟩ := hhusk
        · rw [hnil]
          exact forall_mem_nil _
        · exact h.husk
      by_cases hfunc : ∃ f r, code = .funcDef f r
      · obtain ⟨f, r, rfl⟩ := hfunc
        refine h.function (fun g hg => ?_) hblocks he
        obtain ⟨_, hr'⟩ := hname g hg
        cases hr'
        rfl
      · have hcode (f : String) (r : Ty) : code ≠ .funcDef f r := fun h => hfunc ⟨f, r, h⟩
        obtain ⟨hnext, hclosed⟩ := emission_closed hcode hcall h.leads he _ hI.next
        refine (hI.withNext hnext).exchange hfind hbelow
          (hclosed.each ((h.sound.regionOps 0).append (h.sound.regionOps 1))) hclosed.2 hblocks
          (fun f hf => ?_) _
        obtain ⟨r, hr⟩ := hname f hf
        exact absurd hr (hcode f r)

theorem keptBy_yieldPattern :
    KeptBy (fun m (_ : Labels) => Lowering least funcs known m) yieldPattern := by
  intro d u d' o hI hfind hrun
  rw [yieldPattern] at hrun
  split at hrun
  next hyield =>
    have hsound := (hI.each.of_find? hfind).1
    obtain ⟨hbelow, -, hname⟩ := (hsound.of_mem mem_cons_self).fits.of_flat? (beq_iff_eq.mp hyield)
    rw [erase, replace, run_replaceLeaving] at hrun
    cases hrun
    refine hI.exchange hfind hbelow Each.nil leads_nil (Each.singleton_iff.mp hsound).2
      (fun f hf => ?_) _
    obtain ⟨r, hr⟩ := hname f hf
    cases hr
  · cases hrun
    exact hI

/-! ## Whole programs -/

theorem leads_of_flat (h : ∀ o ∈ ops, o.flat?.isSome = true) : Leads ops ops := by
  intro o ho name hname
  obtain ⟨code, hflat⟩ := Option.isSome_iff_exists.mp (h o ho)
  simp [target?, machine?, code_of_flat? hflat] at hname

theorem lowering_of_flat (hflat : ∀ o ∈ m.placed, o.flat?.isSome = true ∧ Fits m.next funcs known o)
    (hhoused : (∀ func, known func → Named funcs func) →
      Housed (Stands funcs) (Named funcs) m.ops) : Lowering m.next funcs known m := by
  have heach : m.Each (fun o => o.flat?.isSome = true ∧ Fits m.next funcs known o) fun _ => True :=
    each_of_placed hflat fun _ _ => trivial
  refine ⟨each_of_placed (fun o ho => ?_) fun _ _ => trivial, ?_, hhoused, Nat.le_refl _⟩
  · obtain ⟨hfits, hregions⟩ := Each.singleton_iff.mp (heach.of_mem_placed ho)
    refine ⟨hfits.2, fun b hb => ⟨fun x hx => ((hregions b hb).of_mem hx).2, ?_⟩⟩
    exact leads_of_flat fun x hx => ((hregions b hb).of_mem hx).1
  · exact leads_of_flat fun x hx => (heach.ops.of_mem hx).1

theorem Lowering.ofFlat {m' : Module} (h : Lowering least funcs known m)
    (hrun : ofFlat m = .ok m') : Lowering least funcs known m' := by
  have hkeeps : Keeps (fun m (_ : Labels) => Lowering least funcs known m)
      (do exhaust Machine.pattern .forward; exhaust yieldPattern .forward) := by
    intro d u d' hI hrun
    obtain ⟨_, _, hfirst, hsecond⟩ := of_run_bind hrun
    exact keptBy_yieldPattern.exhaust .forward (keptBy_pattern.exhaust .forward hI hfirst) hsecond
  obtain ⟨_, h'⟩ := hkeeps.apply h hrun
  exact h'

end

end Practicum.Machine
