import Practicum.Proofs.Machine.Frames

/-!
# Functions that follow their operations

A run of the operations of a function is followed by its lines step by step: where the operations
stand before an operation, the lines stand before its lines, with every value in its slot. This
holds of every function of an assembled program.
-/

namespace Practicum.Machine

open IR Riscv Assembly List

/-! ## Following a run -/

def spot (a : Access) (func : String) (b : Block) (first : List Line) (k : Nat) : Nat :=
  first.length + ((b.ops.take k).flatMap (linesFor a func)).length

/-- The place of the lines when the operations are at one of theirs: before the lines of the
operation, or behind the label at the end. -/
def spotFor (a : Access) (func : String) (b : Block) (first : List Line) (k : Nat) : Nat :=
  if k < b.ops.length then spot a func b first k else spot a func b first b.ops.length + 3

variable {a : Access} {func : String} {b : Block} {first last lines : List Line} {o : Op} {ω : Type}
  {P : Platform ω}

namespace Written

variable {name : String} {k : Nat}

theorem spot_succ (ho : b.ops[k]? = some o) :
    spot a func b first (k + 1) = spot a func b first k + (linesFor a func o).length := by
  simp [spot, take_add_one, ho, Nat.add_assoc]

variable (h : Written a func b first last lines)
include h

theorem lines_eq (ho : b.ops[k]? = some o) :
    lines = first ++ (b.ops.take k).flatMap (linesFor a func) ++ linesFor a func o ++
      ((b.ops.drop (k + 1)).flatMap (linesFor a func) ++ footer a func ++ last) := by
  have hops : b.ops = b.ops.take k ++ o :: b.ops.drop (k + 1) := by
    obtain ⟨hk, rfl⟩ := List.getElem?_eq_some_iff.mp ho
    rw [← drop_eq_getElem_cons hk, take_append_drop]
  conv_lhs => rw [h.lines, hops]
  simp

theorem stands (ho : b.ops[k]? = some o) :
    StandsAt lines (spot a func b first k) (linesFor a func o) :=
  ⟨_, _, h.lines_eq ho, by simp [spot]⟩

theorem stands_footer : StandsAt lines (spot a func b first b.ops.length) (footer a func ++ last) :=
  ⟨first ++ b.ops.flatMap (linesFor a func), [], by simp [h.lines], by simp [spot]⟩

theorem not_mem_before {ops : List Op} (hops : ops ⊆ b.ops)
    (hnone : ∀ o ∈ ops, o.machine? ≠ some (.label name)) :
    .label name ∉ first ++ ops.flatMap (linesFor a func) := by
  intro hmem
  obtain hmem | hmem := mem_append.mp hmem
  · exact absurd rfl ((idle_of_header h.header _ hmem).unlabelled name)
  obtain ⟨o, ho, hmem⟩ := mem_flatMap.mp hmem
  obtain ⟨ls?, hlower⟩ := h.total o (hops ho)
  rw [linesFor, hlower] at hmem
  cases ls? with
  | none => cases hmem
  | some _ => exact hnone o ho ((lineOf_of_lower hlower _ hmem).label name rfl)

theorem behind_of_labelIndex? (hk : labelIndex? b.ops name = some k)
    (hresults : b.ops[k]?.all fun o => o.results.isEmpty) :
    k < b.ops.length ∧ Riscv.behind lines name = .at (spot a func b first (k + 1)) := by
  obtain ⟨hlt, hplaces, hfirst⟩ := List.findIdx?_eq_some_iff_getElem.mp hk
  have ho : b.ops[k]? = some b.ops[k] := List.getElem?_eq_getElem hlt
  have hcode : b.ops[k].machine? = some (.label name) := by simpa using hplaces
  rw [ho] at hresults
  obtain ⟨_, hlower⟩ := h.total _ (getElem_mem hlt)
  obtain ⟨_, rfl, -⟩ := label_mem_of_lower hcode hlower
  obtain ⟨before, rfl, hbefore⟩ := lower_of_label hcode (by simpa using hresults) hlower
  have hlines : linesFor a func b.ops[k] = before ++ [.label name] := by rw [linesFor, hlower]
  have hearlier : ∀ o ∈ b.ops.take k, o.machine? ≠ some (.label name) := by
    intro o ho hlabel
    obtain ⟨j, _, rfl⟩ := mem_take_iff_getElem.mp ho
    exact hfirst j (by omega) (by simp [hlabel])
  have hnot : .label name ∉ first ++ (b.ops.take k).flatMap (linesFor a func) ++ before := by
    rw [mem_append]
    exact not_or_intro (h.not_mem_before (take_subset k _) hearlier) hbefore
  refine ⟨hlt, ?_⟩
  have := behind_append hnot
    ((b.ops.drop (k + 1)).flatMap (linesFor a func) ++ footer a func ++ last)
  rw [h.lines_eq ho, spot_succ ho, hlines]
  simpa [spot, Nat.add_assoc] using this

theorem behind_of_labelIndex?_eq_none (hlast : ∀ l ∈ last, Unlabelled l)
    (hnone : labelIndex? b.ops name = none) :
    Riscv.behind lines name = if name = returnLabel func then
      .at (spot a func b first b.ops.length + 3) else .outside name := by
  have hops : ∀ o ∈ b.ops, o.machine? ≠ some (.label name) := by
    intro o ho hlabel
    simpa [hlabel] using List.findIdx?_eq_none_iff.mp hnone o ho
  have hnot := h.not_mem_before (List.Subset.refl _) hops
  rw [h.lines, footer_eq]
  split
  next heq =>
    subst heq
    have hbefore : .label (returnLabel func) ∉
        first ++ b.ops.flatMap (linesFor a func) ++ [blank, remark "Footer Ops"] := by
      rw [mem_append]
      exact not_or_intro hnot (by simp [blank, remark])
    have := behind_append hbefore (closing a ++ last)
    simpa [spot, Nat.add_assoc] using this
  next hne =>
    refine behind_of_not_mem fun hmem => ?_
    simp only [mem_append, mem_cons, not_mem_nil, or_false] at hmem
    obtain ((hmem | hmem) | (hmem | hmem | hmem) | hmem) | hmem := hmem
    · exact hnot (mem_append_left _ hmem)
    · exact hnot (mem_append_right _ hmem)
    · cases hmem
    · cases hmem
    · cases hmem
      exact hne rfl
    · exact absurd rfl (unlabelled_of_closing _ hmem name)
    · exact absurd rfl (hlast _ hmem name)

theorem settles (hk : k ≤ b.ops.length) {t : Processor ω}
    (ht : t.place = .at (spot a func b first k)) :
    t.Reaches P lines { t with place := .at (spotFor a func b first k) } := by
  unfold spotFor
  split
  · rw [← ht]
    exact .refl
  · obtain rfl : k = b.ops.length := by omega
    have hstands := h.stands_footer
    rw [footer_eq, append_assoc] at hstands
    exact Processor.reaches_of_carries (.cons rfl (.cons rfl (.single rfl))) ht rfl hstands.left

end Written

variable {n : Nat}

section

def State.entry (args : List Val) (words : List Word) (globals : Values) (m : Memory) (world : ω) :
    State ω :=
  { place := .at 0, values := globals.bind args words, memory := m, world, trace := [] }

/-- A processor is where a run of operations is: at the lines of the operation that comes next, or
behind the label at the end with the result in its register, with every value in its slot and memory
outside the slots the same, after the same requests with the same words. -/
structure Tracks (a : Access) (sp tp ra : Word) (places : Nat → Nat) (exit : Nat) (s : State ω)
    (t : Processor ω) : Prop where
  place : t.place = match s.place with
    | .at k => .at (places k)
    | .outside name => .outside name
    | .returned _ => .at exit
  mirrors : Mirrors a sp tp ra s.values s.memory t.core
  world : t.world = s.world
  served : List.Forall₂ Meets (s.trace.filterMap Event.request?) t.served
  result : ∀ w, s.place = .returned w → t.core.get .a0 = w

variable {sp tp ra : Word} {s s' : State ω} {t : Processor ω}
  {serve : Asking → List Word → Memory → ω → Option (Word × Memory × ω)} {code : MachineCode}

theorem func_of_lower_eq_none (hcode : o.machine? = some code) (h : lower a func o = .ok none) :
    ∃ f, code = .func f := by
  obtain ⟨_, hop⟩ := Op.code_of_machine? hcode
  cases code
  case func f => exact ⟨f, rfl⟩
  all_goals
    rw [lower, hop] at h
    obtain ⟨_, -, h⟩ := of_bind h
    first | cases h | (obtain ⟨_, -, h⟩ := of_bind h; cases h)

variable (h : Written a func b first last lines) (hfits : a.Fits)
include h hfits

/-- Behind the label at the end, the frame is given back: only the last lines are left. -/
theorem Written.leaves {values : Values} {m : Memory}
    (hplace : t.place = .at (spotFor a func b first b.ops.length))
    (hmirrors : Mirrors a sp tp ra values m t.core) :
    ∃ t', t.Reaches P lines t' ∧ (∃ k, t'.place = .at k ∧ lines.drop k = last) ∧
      t'.core.get .sp = sp + wordOf (a.top + 4) ∧ t'.core.get .ra = ra ∧
      t'.core.get .a0 = t.core.get .a0 ∧ t'.core.get .tp = tp ∧ t'.core.memory = t.core.memory ∧
      t'.world = t.world ∧ t'.served = t.served := by
  obtain ⟨_, hcarries, hsp, hra, ha0, htp, hmemory⟩ := carries_closing hfits hmirrors
  rw [spotFor, if_neg (lt_irrefl _)] at hplace
  have hstands : StandsAt lines (spot a func b first b.ops.length + 3) (closing a ++ last) := by
    have := h.stands_footer
    rw [footer_eq, append_assoc] at this
    exact this.right
  refine ⟨_, Processor.reaches_of_carries hcarries hplace rfl hstands.left, ⟨_, rfl, ?_⟩, hsp, hra,
    ha0, htp, hmemory, rfl, rfl⟩
  rw [h.lines, footer_eq]
  exact drop_left' (by simp [spot]; omega)

variable (hserves : Serves a sp tp P serve)
  (hallocs : ∀ o ∈ b.ops, o.machine? = some .alloc → o.id ∈ a.own.allocs)
include hserves hallocs

theorem Written.follows (hapart : a.Apart sp tp) {k : Nat} {args : List Word} {values values' : Values} {m : Memory} {e : Effect ω}
    (ho : b.ops[k]? = some o) (hplace : t.place = .at (spot a func b first k))
    (hmirrors : Mirrors a sp tp ra values m t.core) (hcode : o.machine? = some code)
    (hargs : o.operands.mapM (fun v => values v.id) = some args)
    (he : Effect.of? (a.surroundings sp tp serve) code o.id args m t.world = some e)
    (hvalues : values.define? o.results e.value = some values') :
    Arrives P lines func a sp tp ra t values' e (spot a func b first (k + 1)) := by
  have hmem : o ∈ b.ops := mem_of_getElem? ho
  have hstands := h.stands ho
  rw [spot_succ ho]
  obtain ⟨ls?, hlower⟩ := h.total o hmem
  rw [linesFor, hlower] at hstands ⊢
  cases ls? with
  | some _ =>
    exact follows_lower hfits hmirrors hplace hstands hargs hvalues hapart hserves hlower hcode
      (fun halloc => hallocs o hmem (halloc ▸ hcode)) he
  | none =>
    obtain ⟨f, rfl⟩ := func_of_lower_eq_none hcode hlower
    obtain rfl : e = Effect.go .on m t.world := by
      cases args with
      | nil => exact (Option.some.inj he).symm
      | cons x _ => cases he
    obtain ⟨-, rfl⟩ := Env.define?_none hvalues
    exact ⟨t, ⟨.refl, rfl, hmirrors, [], (append_nil _).symm, .nil⟩, hplace, fun _ hw => by cases hw⟩

variable (hlast : ∀ l ∈ last, Unlabelled l)
include hlast

theorem Tracks.step (hapart : a.Apart sp tp)
    (htracks : Tracks a sp tp ra (spotFor a func b first) (spotFor a func b first b.ops.length) s t)
    (hstep : s.step? (a.surroundings sp tp serve) (returnLabel func) b.ops = some s') :
    ∃ t', t.Reaches P lines t' ∧
      Tracks a sp tp ra (spotFor a func b first) (spotFor a func b first b.ops.length) s' t' := by
  obtain ⟨k, o, _, _, e, values, place, hplace, ho, hcode, hargs, he, hvalues, hnext, rfl⟩ :=
    State.step?_eq_some_iff.mp hstep
  have hk : k < b.ops.length := (List.getElem?_eq_some_iff.mp ho).1
  have hend : spotFor a func b first b.ops.length = spot a func b first b.ops.length + 3 :=
    if_neg (lt_irrefl _)
  have hat : t.place = .at (spot a func b first k) := by
    rw [htracks.place, hplace]
    exact congrArg Spot.at (if_pos hk)
  rw [← htracks.world] at he
  obtain ⟨t', hfollows, hplace', hresult⟩ :=
    h.follows hfits hserves hallocs hapart ho hat htracks.mirrors hcode hargs he hvalues
  obtain ⟨_, hserved, hmeets⟩ := hfollows.served
  have hserved' : List.Forall₂ Meets ((s.trace ++ e.events).filterMap Event.request?) t'.served := by
    rw [filterMap_append, hserved]
    exact rel_append htracks.served hmeets
  -- the run is at the place behind some operation, and the lines get there
  have hsettle (j : Nat) (hj : j ≤ b.ops.length) (hplace : place = .at j)
      (ht' : t'.place = .at (spot a func b first j)) :
      ∃ t'', t.Reaches P lines t'' ∧ Tracks a sp tp ra (spotFor a func b first)
        (spotFor a func b first b.ops.length)
        { place, values, memory := e.memory, world := e.world, trace := s.trace ++ e.events }
        t'' := by
    subst hplace
    exact ⟨_, hfollows.reaches.trans (h.settles hj ht'), rfl, hfollows.mirrors, hfollows.world,
      hserved', fun _ hw => by cases hw⟩
  cases hcourse : e.course with
  | on =>
    rw [hcourse] at hnext hplace'
    cases hnext
    exact hsettle (k + 1) hk rfl hplace'
  | jump _ =>
    rw [hcourse] at hnext hplace'
    simp only [State.next?, behind?] at hnext
    split at hnext
    next j hj =>
      split at hnext
      next hresults =>
        cases hnext
        obtain ⟨hlt, hbehind⟩ := h.behind_of_labelIndex? hj hresults
        exact hsettle (j + 1) hlt rfl (hplace'.trans hbehind)
      · cases hnext
    next hnone =>
      have hbehind := hplace'.trans (h.behind_of_labelIndex?_eq_none hlast hnone)
      split at hnext
      next hexit =>
        cases hnext
        rw [if_pos hexit, ← hend] at hbehind
        exact ⟨t', hfollows.reaches, hbehind, hfollows.mirrors, hfollows.world, hserved', fun _ hw => by cases hw⟩
      next hexit =>
        cases hnext
        rw [if_neg hexit] at hbehind
        exact ⟨t', hfollows.reaches, hbehind, hfollows.mirrors, hfollows.world, hserved', fun _ hw => by cases hw⟩
  | leave w =>
    rw [hcourse] at hnext hplace'
    simp only [State.next?] at hnext
    split at hnext
    next hnone =>
      cases hnext
      have hbehind := hplace'.trans (h.behind_of_labelIndex?_eq_none hlast hnone)
      rw [if_pos rfl, ← hend] at hbehind
      refine ⟨t', hfollows.reaches, hbehind, hfollows.mirrors, hfollows.world, hserved', ?_⟩
      rintro _ ⟨⟩
      exact hresult w hcourse
    · cases hnext

theorem Written.tracks {c : Core} {words : List Word} {globals : Values} {world : ω}
    (henters : Enters a sp tp b.args words globals c)
    (hsteps : State.after? (a.surroundings sp tp serve) (returnLabel func) b.ops n
      (.entry b.args words globals c.memory world) = some s) :
    ∃ t, Processor.Reaches P lines ⟨.at 0, c, world, []⟩ t ∧
      Tracks a sp tp (c.get .ra) (spotFor a func b first) (spotFor a func b first b.ops.length) s
        t := by
  induction n generalizing s with
  | zero =>
    cases hsteps
    obtain ⟨c', hcarries, hmirrors⟩ := carries_header hfits h.header henters
    have hstands : StandsAt lines 0 first :=
      ⟨[], b.ops.flatMap (linesFor a func) ++ footer a func ++ last, by simp [h.lines], rfl⟩
    have hreach := Processor.reaches_of_carries (P := P) (s := ⟨.at 0, c, world, []⟩) hcarries rfl rfl
      hstands
    have hsettles := h.settles (P := P) (k := 0) (Nat.zero_le _)
      (t := ⟨.at (0 + first.length), c', world, []⟩) (by simp [spot])
    exact ⟨_, hreach.trans hsettles, rfl, hmirrors, rfl, .nil, nofun⟩
  | succ n ih =>
    obtain ⟨_, hsteps, hstep⟩ := Option.bind_eq_some_iff.mp hsteps
    obtain ⟨t, hreach, htracks⟩ := ih hsteps
    obtain ⟨t', hreach', htracks'⟩ :=
      htracks.step h hfits hserves hallocs hlast henters.apart hstep
    exact ⟨t', hreach.trans hreach', htracks'⟩

end

/-! ## The program -/

/-- A function is left: only the last lines are to be run, the frame is given back, and the result
is in its register. -/
structure Leaves (a : Access) (sp tp : Word) (last lines : List Line) (c : Core) (w : Word)
    (m : Memory) (t : Processor ω) : Prop where
  place : ∃ k, t.place = .at k ∧ lines.drop k = last
  stack : t.core.get .sp = c.get .sp
  main : a.main ≠ none → t.core.get .tp = c.get .tp
  address : t.core.get .ra = c.get .ra
  result : t.core.get .a0 = w
  shared : ∀ b, a.reserves sp tp b = false → t.core.memory b = m b

abbrev accessOf (main : Option Frame) (b : Block) : Access :=
  { own := .ofBody b, main }

/-- The lines of a function do what its operations do, if the distances in its frame have a place in
an instruction: every run of the operations in the frame is followed by a run of the lines, which
stands before the lines of an operation when the other stands before the operation, and when the
function returns its frame is given back. -/
def Simulates (main : Option Frame) (func : String) (b : Block) (last lines : List Line) : Prop :=
  (∀ o ∈ b.ops, line? o = none) → (accessOf main b).Fits → ∃ places : Nat → Nat,
      (∀ k o ls, b.ops[k]? = some o → lower (accessOf main b) func o = .ok (some ls) →
        StandsAt lines (places k) ls) ∧
      ∀ (ω : Type) (P : Platform ω)
        (serve : Asking → List Word → Memory → ω → Option (Word × Memory × ω)) (sp tp : Word)
        (c : Core) (words : List Word) (globals : Values) (world : ω),
        Enters (accessOf main b) sp tp b.args words globals c →
        Serves (accessOf main b) sp tp P serve →
        ∀ n s, State.after? ((accessOf main b).surroundings sp tp serve) (returnLabel func) b.ops n
          (.entry b.args words globals c.memory world) = some s →
        ∃ t, Processor.Reaches P lines ⟨.at 0, c, world, []⟩ t ∧
          Tracks (accessOf main b) sp tp (c.get .ra) places (places b.ops.length) s t ∧
          ∀ w, s.place = .returned w → ∃ t', t.Reaches P lines t' ∧
            Leaves (accessOf main b) sp tp last lines c w s.memory t' ∧
            t'.world = s.world ∧ t'.served = t.served

section
variable {main : Option Frame} {f : Op} {b' : Block} {ops : List Op} {n' : Nat} {frame : Frame}

theorem simulates_of_written (hlast : ∀ l ∈ last, Unlabelled l) (h : (∀ o ∈ b.ops, line? o = none) →
      ∃ first, Written (accessOf main b) func b first last lines) : Simulates main func b last lines := by
  intro hlines hfits
  obtain ⟨first, h⟩ := h hlines
  refine ⟨spotFor (accessOf main b) func b first, fun k o _ ho hlower => ?_, ?_⟩
  · have hstands := h.stands ho
    rw [linesFor, hlower] at hstands
    rwa [spotFor, if_pos (List.getElem?_eq_some_iff.mp ho).1]
  · intro ω P serve sp tp c words globals world henters hserves n s hsteps
    obtain ⟨t, hreach, htracks⟩ := h.tracks hfits hserves
      (fun o ho hcode => mem_map_of_mem (mem_filter.mpr ⟨ho, by simp [hcode]⟩)) hlast henters hsteps
    refine ⟨t, hreach, htracks, fun w hw => ?_⟩
    have hplace := htracks.place
    rw [hw] at hplace
    obtain ⟨t', hreach', hplace', hsp, hra, ha0, htp, hmemory, hworld, hserved⟩ :=
      h.leaves (P := P) hfits hplace htracks.mirrors
    refine ⟨t', hreach', ⟨hplace', hsp.trans henters.stack.symm, fun hmain => ?_, hra,
      ha0.trans (htracks.result w hw), fun x hx => ?_⟩, hworld.trans htracks.world, hserved⟩
    · rw [htp, henters.ofOther hmain]
    · rw [hmemory]
      exact htracks.mirrors.shared x hx

theorem simulates_of_assembleFunc {f' : Op} (h : (assembleFunc frame f).run n = .ok (f', n')) :
    (f'.id = f.id ∧ f'.code = f.code) ∧ ∀ b, body? f = some b →
      Simulates (some frame) (funcName f) b [ret] (linesOf (f'.regionOps 0)) := by
  unfold assembleFunc at h
  split at h
  next b hb =>
    obtain ⟨_, _, hb', h⟩ := of_run_bind h
    cases h
    refine ⟨⟨rfl, rfl⟩, fun _ hb0 => ?_⟩
    cases hb.symm.trans hb0
    exact simulates_of_written (by simp [Unlabelled, ret, instr]) fun hlines =>
      written_of_assembleBody hlines hb'
  next hnone =>
    cases h
    exact ⟨⟨rfl, rfl⟩, fun b hb => by rw [hnone] at hb; cases hb⟩

theorem line?_of_isFunc (h : isFunc o) : line? o = none := by
  obtain ⟨f, hf⟩ := isFunc_iff.mp h
  unfold Op.machine? at hf
  unfold line?
  split at hf
  next hcode => rw [hcode]
  · cases hf

theorem AssembledIn.isFunc_eq {o' : Op} (h : AssembledIn frame o o') : isFunc o' = isFunc o := by
  unfold AssembledIn at h
  split at h
  · obtain ⟨_, _, h⟩ := h
    have hcode := (simulates_of_assembleFunc h).1.2
    rw [isFunc, isFunc, Op.machine?, Op.machine?, hcode]
  · rw [h]

theorem AssembledIn.lower_eq {o' : Op} (h : AssembledIn frame o o') :
    lower a func o' = lower a func o := by
  by_cases hfunc : isFunc o
  · obtain ⟨f, hf⟩ := isFunc_iff.mp hfunc
    obtain ⟨_, hf'⟩ := isFunc_iff.mp (h.isFunc_eq.trans hfunc)
    rw [lower_of_func hf, lower_of_func hf']
  · rw [AssembledIn, if_neg hfunc] at h
    rw [h]

theorem linesOf_functionsLast (ops : List Op) : linesOf (functionsLast ops) = linesOf ops := by
  have hfuncs : linesOf (ops.filter isFunc) = [] := by
    refine filterMap_eq_nil_iff.mpr fun o ho => ?_
    exact line?_of_isFunc (mem_filter.mp ho).2
  have hothers : linesOf (ops.filter fun o => !isFunc o) = linesOf ops := by
    rw [linesOf, filterMap_filter]
    refine filterMap_congr fun o _ => ?_
    by_cases hfunc : isFunc o
    · simp [line?_of_isFunc hfunc]
    · simp [hfunc]
  rw [functionsLast, linesOf, filterMap_append, ← linesOf, ← linesOf, hfuncs, hothers, append_nil]

theorem flatMap_linesFor_congr {source : List Op}
    (h : List.Forall₂ (AssembledIn frame) source ops) :
    ops.flatMap (linesFor a func) = source.flatMap (linesFor a func) := by
  induction h with
  | nil => rfl
  | cons head _ ih => rw [flatMap_cons, flatMap_cons, ih, linesFor, linesFor, head.lower_eq]

theorem line?_of_assembledIn (hops : List.Forall₂ (AssembledIn (.ofBody b)) b.ops ops)
    (hlines : ∀ o ∈ b.ops, line? o = none) : ∀ o ∈ ops, line? o = none := by
  intro o' ho'
  obtain ⟨o, ho, hassembled⟩ : ∃ o ∈ b.ops, AssembledIn _ o o' := exists_of_forall₂ hops.flip ho'
  by_cases hfunc : isFunc o
  · exact line?_of_isFunc (hassembled.isFunc_eq.trans hfunc)
  · rw [AssembledIn, if_neg hfunc] at hassembled
    exact hassembled ▸ hlines o ho

theorem written_of_main (hops : List.Forall₂ (AssembledIn (.ofBody b)) b.ops ops)
    (h : (assembleBody (accessOf none b) func (.mk b.args ops) last).run n = .ok (b', n'))
    (hlines : ∀ o ∈ b.ops, line? o = none) :
    ∃ first, Written (accessOf none b) func b first last (linesOf b'.ops) := by
  obtain ⟨first, hwritten⟩ :=
    written_of_assembleBody (b := .mk b.args ops) (line?_of_assembledIn hops hlines) h
  refine ⟨first, hwritten.header, ?_, fun o ho => ?_⟩
  · rw [hwritten.lines, ← flatMap_linesFor_congr hops]
    rfl
  · obtain ⟨o', ho', hassembled⟩ := exists_of_forall₂ hops ho
    obtain ⟨ls?, hlower⟩ := hwritten.total o' ho'
    exact ⟨ls?, hassembled.lower_eq.symm.trans hlower⟩

/-- The lines of every function of an assembled program do what the operations of the function
do. -/
theorem assemble_simulates {m m' : Module} (h : assemble m = .ok m') :
    ∃ main b main' rest, m.ops = [main] ∧ body? main = some b ∧ m'.ops = main' :: rest ∧
      main'.code = main.code ∧ linesOf rest = Runtime.library ∧
      Simulates none (funcName main) b (Runtime.exit 0) (linesOf (main'.regionOps 0)) ∧
      ∀ f ∈ b.ops, isFunc f → ∀ body, body? f = some body → ∃ f' ∈ main'.regionOps 0,
        (f'.id = f.id ∧ f'.code = f.code) ∧
        Simulates (some (.ofBody b)) (funcName f) body [ret] (linesOf (f'.regionOps 0)) := by
  obtain ⟨main, b, ops, b', rest, _, _, hmain, hb, hops, hb', hrest, hresult⟩ := of_assemble h
  refine ⟨main, b, _, rest, hmain, hb, hresult, rfl, linesOf_of_holds hrest, ?_, ?_⟩
  · change Simulates _ _ _ _ (linesOf (functionsLast b'.ops))
    rw [linesOf_functionsLast]
    exact simulates_of_written (by simp [Runtime.exit, Unlabelled, blank, remark, li, ecall, instr])
      (written_of_main hops hb')
  · intro f hf hfunc body hbodyf
    obtain ⟨f', hf', hassembledIn⟩ := exists_of_forall₂ hops hf
    have hfunc' : isFunc f' := hassembledIn.isFunc_eq.trans hfunc
    obtain ⟨name, hname⟩ := isFunc_iff.mp hfunc'
    rw [AssembledIn, if_pos hfunc] at hassembledIn
    obtain ⟨_, _, hrunf⟩ := hassembledIn
    obtain ⟨hsame, hsimulates⟩ := simulates_of_assembleFunc hrunf
    refine ⟨f', ?_, hsame, hsimulates body hbodyf⟩
    change f' ∈ functionsLast b'.ops
    have hkept := (assembled_of_assembleBody (still_exit 0) hb').kept f' hf' (lower_of_func hname)
    exact mem_append_right _ (mem_filter.mpr ⟨hkept, hfunc'⟩)

end

def wordVal (id : Nat) : Val :=
  { id, type := .register }

def machineOp (id : Nat) (code : MachineCode) (operands results : List Nat) : Op :=
  .mk id (.machine code none) (operands.map wordVal) (results.map wordVal) []

/-- A function that keeps its argument in memory on the stack, adds a value of main to it, has the
sum doubled by another function and returns what it gets unless it is the value of main. -/
def doublingBody : Block :=
  .mk [wordVal 10] [ machineOp 3 .alloc [] [11],
    machineOp 4 (.store .sw { value := 0 }) [10, 11] [],
    machineOp 5 (.load .lw { value := 0 }) [11] [12],
    machineOp 6 (.register .add) [12, 1] [13],
    machineOp 7 (.call "twice") [13] [14],
    machineOp 8 (.branch .bne (.label "_other")) [14, 1] [],
    machineOp 9 .ret [1] [],
    machineOp 10 (.label "_other") [] [],
    machineOp 11 .ret [14] []]

@[inherit_doc doublingBody]
def doubling : Op :=
  .mk 2 (.machine (.func "double") none) [] [] [doublingBody]

def doublingMain : Block :=
  .mk [] [doubling, machineOp 1 (.constant .li { value := 7 }) [] [1]]

def doublingProgram : Module where
  ops := [.mk 0 (.machine (.func "_main") none) [] [] [doublingMain]]
  next := 20

def twicePlatform : Platform Unit where
  serve
    | .call _, c, world => some (c.set .a0 (c.get .a0 + c.get .a0), world)
    | _, _, _ => none

def twice : Asking → List Word → Memory → Unit → Option (Word × Memory × Unit)
  | .call _, [x], m, world => some (x + x, m, world)
  | _, _, _, _ => none

/-- The processor when the function is entered with the argument 5, while the value of main is 7. -/
def doublingCore : Core where
  regs r := if r = .sp then 4124 else if r = .tp then 8192 else if r = .a0 then 5 else 0
  memory := Memory.write (fun _ => 0) 8192 4 7

theorem twice_serves {sp tp : Word} : Serves a sp tp twicePlatform twice := by
  intro r args m world w m' world' c hserve hpasses hsp htp hshared
  unfold twice at hserve
  split at hserve
  next func x =>
    cases hserve
    obtain ⟨q, hq, hx⟩ := hpasses 0 x rfl
    obtain rfl : q = .a0 := (Option.some.inj hq).symm
    refine ⟨_, rfl, ?_, ?_, fun _ _ => ?_, hshared, fun _ _ => rfl⟩
    · exact (Core.get_set_of_ne).trans hsp
    · exact (Core.get_set_of_ne).trans htp
    · rw [Core.get_set_self, hx]
  · cases hserve

/-- The function returns 24, and its lines leave it in the register of the result. -/
theorem assemble_simulates_doubling :
    ∃ m' main' rest f' t, assemble doublingProgram = .ok m' ∧ m'.ops = main' :: rest ∧
      f' ∈ main'.regionOps 0 ∧ f'.id = doubling.id ∧
      Processor.Reaches twicePlatform (linesOf (f'.regionOps 0)) ⟨.at 0, doublingCore, (), []⟩ t ∧
      t.core.get .a0 = 24 ∧ t.core.get .sp = doublingCore.get .sp := by
  have hok : (assemble doublingProgram).isOk := by decide +kernel
  match hm' : assemble doublingProgram with
  | .error e =>
    rw [hm'] at hok
    cases hok
  | .ok m' =>
    obtain ⟨main, b, main', rest, hmain, hb, hops, -, -, -, hfuncs⟩ := assemble_simulates hm'
    cases hmain
    cases hb
    obtain ⟨f', hf', ⟨hid, -⟩, hsimulates⟩ := hfuncs doubling mem_cons_self rfl doublingBody rfl
    have hfits : (accessOf (some (.ofBody doublingMain)) doublingBody).Fits := by
      refine ⟨by decide, by decide, by decide, ?_⟩
      rintro f ⟨⟩
      decide
    have henters : Enters (accessOf (some (.ofBody doublingMain)) doublingBody) 4096 8192
        doublingBody.args [5] (fun id => if id = 1 then some 7 else none) doublingCore := by
      refine ⟨by decide, nofun, fun _ => rfl, ?_, rfl, ?_, ?_⟩
      · rintro f ⟨⟩ b hown hmain
        change (b - 4096).toNat < 28 at hown
        change (b - 8192).toNat < 4 at hmain
        bv_omega
      · rintro (_ | j) w hw
        · exact ⟨.a0, rfl, Option.some.inj hw⟩
        · cases hw
      · intro id w hw
        split at hw
        · next heq =>
          subst heq
          cases hw
          refine ⟨by decide, fun x hx => ?_⟩
          cases hx
          decide +kernel
        · cases hw
    obtain ⟨places, -, hruns⟩ := hsimulates (by decide) hfits
    obtain ⟨s, hs, hplace⟩ : ∃ s, State.after? ((accessOf (some (.ofBody doublingMain))
        doublingBody).surroundings 4096 8192 twice) (returnLabel "double") doublingBody.ops 7
        (.entry doublingBody.args [5] (fun id => if id = 1 then some 7 else none)
          doublingCore.memory ()) = some s ∧ s.place = .returned 24 := by
      rw [← Option.map_eq_some_iff]
      decide +kernel
    obtain ⟨t, hreach, -, hleaves⟩ :=
      hruns Unit twicePlatform twice 4096 8192 doublingCore [5] _ () henters twice_serves 7 s hs
    obtain ⟨t', hreach', hleft, -, -⟩ := hleaves 24 hplace
    exact ⟨m', main', rest, f', t', rfl, hops, hf', hid, hreach.trans hreach', hleft.result,
      hleft.stack⟩

/-! ## The layout of a frame -/

theorem Frame.words_apart (f : Frame) :
    (∀ i ∈ f.slots, f.slots.idxOf i < f.slots.length ∧
      ∀ j, i ≠ j → f.slots.idxOf i ≠ f.slots.idxOf j) ∧
    ∀ i ∈ f.allocs, f.slotBytes ≤ f.allocOffset i ∧
      f.allocOffset i + 4 ≤ f.slotBytes + f.allocBytes ∧ ∀ j, i ≠ j →
        f.allocOffset i + 4 ≤ f.allocOffset j ∨ f.allocOffset j + 4 ≤ f.allocOffset i := by
  have hne {ids : List Nat} {i : Nat} (hi : i ∈ ids) (j : Nat) (hij : i ≠ j) :
      ids.idxOf i ≠ ids.idxOf j := fun h => hij ((idxOf_inj hi).mp h)
  refine ⟨fun i hi => ⟨idxOf_lt_length_of_mem hi, hne hi⟩, fun i hi => ?_⟩
  have hlt := idxOf_lt_length_of_mem hi
  unfold slotBytes allocBytes allocOffset
  refine ⟨by omega, by omega, fun j hij => ?_⟩
  have := hne hi j hij
  omega

/-- A frame is laid out without overlap, whatever its function is: the values have slots of their
own, above them the memory of the operations has words of its own, and the return address is on top.
Between operations the stack pointer stands below the frame and the return address is kept in it; when
the function returns, both are what they were when it was entered. -/
theorem frame_laid_out {b' : Block} {n' : Nat} (hown : a.own = .ofBody b)
    (h : (assembleBody a func b last).run n = .ok (b', n')) :
    (∀ v, v ∈ b.args ∨ (∃ o ∈ b.ops, v ∈ o.results) →
      a.own.slots.idxOf v.id < a.own.slots.length ∧
      ∀ w : Val, v.id ≠ w.id → a.own.slots.idxOf v.id ≠ a.own.slots.idxOf w.id) ∧
    (∀ o ∈ b.ops, o.machine? = some .alloc → a.own.slotBytes ≤ a.own.allocOffset o.id ∧
      a.own.allocOffset o.id + 4 ≤ a.top ∧ ∀ p : Op, o.id ≠ p.id →
        a.own.allocOffset o.id + 4 ≤ a.own.allocOffset p.id ∨
        a.own.allocOffset p.id + 4 ≤ a.own.allocOffset o.id) ∧
    ((∀ o ∈ b.ops, line? o = none) → (∀ l ∈ last, Unlabelled l) → a.Fits →
      ∀ (ω : Type) (P : Platform ω)
        (serve : Asking → List Word → Memory → ω → Option (Word × Memory × ω)) (sp tp : Word)
        (c : Core) (words : List Word) (globals : Values) (world : ω),
        Enters a sp tp b.args words globals c → Serves a sp tp P serve →
        ∀ k s, State.after? (a.surroundings sp tp serve) (returnLabel func) b.ops k
          (.entry b.args words globals c.memory world) = some s →
        ∃ t, Processor.Reaches P (linesOf b'.ops) ⟨.at 0, c, world, []⟩ t ∧
          t.core.get .sp + wordOf (a.top + 4) = c.get .sp ∧
          t.core.memory.word (t.core.get .sp + wordOf a.top) = c.get .ra ∧
          ∀ w, s.place = .returned w → ∃ t', t.Reaches P (linesOf b'.ops) t' ∧
            (∃ k, t'.place = .at k ∧ (linesOf b'.ops).drop k = last) ∧
            t'.core.get .sp = c.get .sp ∧ t'.core.get .ra = c.get .ra) := by
  obtain ⟨_, main⟩ := a
  subst hown
  obtain ⟨hslots, hallocs⟩ := (Frame.ofBody b).words_apart
  refine ⟨fun v hv => ?_, fun o ho halloc => ?_, fun hlines hlast hfits => ?_⟩
  · obtain ⟨hlt, hne⟩ := hslots v.id (mem_map_of_mem (by simpa using hv))
    exact ⟨hlt, fun w => hne w.id⟩
  · obtain ⟨hle, hlt, hne⟩ := hallocs o.id (mem_map_of_mem (mem_filter.mpr ⟨ho, by simp [halloc]⟩))
    exact ⟨hle, top_eq (accessOf main b) ▸ hlt, fun p => hne p.id⟩
  · intro ω P serve sp tp c words globals world henters hserves k s hsteps
    obtain ⟨_, -, hruns⟩ :=
      simulates_of_written hlast (fun hlines => written_of_assembleBody hlines h) hlines hfits
    obtain ⟨t, hreach, htracks, hleaves⟩ :=
      hruns ω P serve sp tp c words globals world henters hserves k s hsteps
    refine ⟨t, hreach, ?_, ?_, fun w hw => ?_⟩
    · rw [htracks.mirrors.ownPointer, henters.stack]
    · rw [htracks.mirrors.ownPointer, htracks.mirrors.saved]
    · obtain ⟨t', hreach', hleft, -, -⟩ := hleaves w hw
      exact ⟨t', hreach', hleft.place, hleft.stack, hleft.address⟩

theorem frame_laid_out_doubling : ∃ r,
    (assembleBody (accessOf (some (.ofBody doublingMain)) doublingBody) "double" doublingBody
      [ret]).run 20 = .ok r ∧ (Frame.ofBody doublingBody).slots.idxOf 11 < 5 := by
  have hok : ((assembleBody (accessOf (some (.ofBody doublingMain)) doublingBody) "double"
      doublingBody [ret]).run 20).isOk := by decide +kernel
  generalize hr : (assembleBody _ "double" doublingBody [ret]).run 20 = r at hok ⊢
  cases r with
  | error e => cases hok
  | ok r => exact ⟨r, rfl, ((frame_laid_out rfl hr).1 (wordVal 11) (by decide)).1⟩

end Practicum.Machine
