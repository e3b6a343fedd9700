import Practicum.Compiler.Pass
import Practicum.Proofs.Machine.Lowering

/-!
# Where the lines of an assembly program lead

The lines of an operation lead where the operation led, to the function that it calls, or to the end
of the function that it stands in. So what could be led to before the lines were made can be led to
afterwards, in the one sequence of lines that the program becomes.
-/

namespace Practicum.Machine

open IR Riscv Assembly List Runtime Op Layout

def HasLine (ops : List Op) (l : Line) : Prop :=
  ∃ o ∈ ops, o.code = .line l

def Still (l : Line) : Prop :=
  l.target? = none

def Unlabelled (l : Line) : Prop :=
  ∀ name, l ≠ .label name

/-- A line that leads nowhere and places no label. -/
structure Idle (l : Line) : Prop where
  still : Still l
  unlabelled : Unlabelled l

variable {l : Line} {o : Op} {ops : List Op} {b : Block}

theorem HasLine.mono {xs ys : List Op} (h : HasLine xs l) (hsub : xs ⊆ ys) : HasLine ys l := by
  obtain ⟨o, ho, hcode⟩ := h
  exact ⟨o, hsub ho, hcode⟩

/-! ## The lines of an operation -/

variable {a : Access} {func : String}

section
variable {name f : String} {ls : List Line} {ls? : Option (List Line)} {note : Option String}
  {rs : Register}
variable {vs : List Val} {k : Nat}

theorem idle_of_fetch {v : Option Val} {rd : Register} (h : a.fetch v rd = .ok l) : Idle l := by
  unfold Access.fetch at h
  split at h
  · obtain ⟨offset, -, h⟩ := of_bind h
    cases h
    exact ⟨rfl, nofun⟩
  split at h
  · obtain ⟨offset, -, h⟩ := of_bind h
    cases h
    exact ⟨rfl, nofun⟩
  · cases h

theorem idle_of_spill {v : Val} (h : a.spill rs v = .ok l) : Idle l := by
  unfold Access.spill at h
  split at h
  · obtain ⟨_, -, h⟩ := of_bind h
    cases h
    exact ⟨rfl, nofun⟩
  · cases h

theorem mem_fetchArgs (h : a.fetchArgs k vs = .ok ls) :
    ∀ l ∈ ls, ∃ v r, a.fetch (some v) r = .ok l := by
  induction vs generalizing k ls with
  | nil =>
    cases h
    exact nofun
  | cons v vs ih =>
    unfold Access.fetchArgs at h
    split at h
    · obtain ⟨_, _, hline, hrest, h⟩ := of_bind₂ h
      cases h
      exact forall_mem_cons.mpr ⟨⟨v, _, hline⟩, ih hrest⟩
    · cases h

theorem mem_spillArgs (h : a.spillArgs k vs = .ok ls) : ∀ l ∈ ls, ∃ r v, a.spill r v = .ok l := by
  induction vs generalizing k ls with
  | nil =>
    cases h
    exact nofun
  | cons v vs ih =>
    unfold Access.spillArgs at h
    split at h
    · obtain ⟨_, _, hline, hrest, h⟩ := of_bind₂ h
      cases h
      exact forall_mem_cons.mpr ⟨⟨_, v, hline⟩, ih hrest⟩
    · cases h

def returnLabel (func : String) : String :=
  "_" ++ func ++ "_return"

theorem machine?_of_code {code : MachineCode} (h : o.code = .machine code note) :
    o.machine? = some code := by
  rw [machine?, h]

theorem target?_of_instruction? {code : MachineCode} {t : String}
    (h : instruction? code note = some l) (ht : l.target? = some t) : code.target? = some t := by
  unfold instruction? at h
  split at h <;> cases h
  all_goals first | cases ht | skip
  next op target =>
    cases target with
    | label name => exact ht
    | distance d => cases ht
  next target =>
    cases target with
    | label name => exact ht
    | distance d => cases ht

/-- The line that does what an operation does, once its operands are in registers. -/
def ownLine (a : Access) (func : String) (o : Op) : Option Line :=
  match o.code with
  | .machine .ecall _ => some ecall
  | .machine (.call callee) _ => some (call callee)
  | .machine .alloc _ =>
    some (addi .t0 .sp (a.own.allocOffset o.id) "Save ptr of stack-slot into register")
  | .machine .ret _ => some (jump (returnLabel func))
  | .machine code note => instruction? code note
  | _ => none

/-- A line beside it: a remark, or a line that moves a value between a register and its slot. -/
inductive Serving (a : Access) : Line → Prop where
  | remark (note : Option String) : Serving a (.comment note)
  | fetch {v : Option Val} {rd : Register} {l : Line} (h : a.fetch v rd = .ok l) : Serving a l
  | spill {rs : Register} {v : Val} {l : Line} (h : a.spill rs v = .ok l) : Serving a l

theorem Serving.idle (h : Serving a l) : Idle l := by
  cases h with
  | remark => exact ⟨rfl, nofun⟩
  | fetch h => exact idle_of_fetch h
  | spill h => exact idle_of_spill h

theorem serving_of_spills (h : vs.mapM (a.spill rs) = .ok ls) : ∀ l ∈ ls, Serving a l := by
  intro l hl
  obtain ⟨v, hv⟩ := mem_of_mapM_eq_ok h l hl
  exact .spill hv

theorem serving_of_fetchArgs (h : a.fetchArgs k vs = .ok ls) : ∀ l ∈ ls, Serving a l := by
  intro l hl
  obtain ⟨v, r, hv⟩ := mem_fetchArgs h l hl
  exact .fetch hv

theorem of_lower (h : lower a func o = .ok ls?) : (ls? = none ∧ ownLine a func o = none) ∨
      ∃ line before after, ownLine a func o = some line ∧ ls? = some (before ++ line :: after) ∧
        (∀ l ∈ before, Serving a l) ∧ ∀ l ∈ after, Serving a l := by
  unfold lower at h
  split at h
  next hcode =>
    obtain ⟨_, hls, rfl⟩ := map_eq_ok_iff.mp h
    obtain ⟨number, args, hnumber, hargs, hls⟩ := of_bind₂ hls
    cases hls
    exact .inr ⟨ecall, number :: args, [], by rw [ownLine, hcode], rfl,
      forall_mem_cons.mpr ⟨.fetch hnumber, serving_of_fetchArgs hargs⟩, forall_mem_nil _⟩
  next callee _ hcode =>
    obtain ⟨_, hls, rfl⟩ := map_eq_ok_iff.mp h
    obtain ⟨args, result, hargs, hresult, hls⟩ := of_bind₂ hls
    cases hls
    exact .inr ⟨call callee, [blank, remark o.code.name] ++ args, result, by rw [ownLine, hcode], by simp,
      forall_mem_append.mpr ⟨forall_mem_pair (.remark _) (.remark _),
        serving_of_fetchArgs hargs⟩, serving_of_spills hresult⟩
  next hcode =>
    obtain ⟨_, hls, rfl⟩ := map_eq_ok_iff.mp h
    obtain ⟨spills, hspills, hls⟩ := of_bind hls
    cases hls
    exact .inr ⟨_, [], spills, by rw [ownLine, hcode], rfl, forall_mem_nil _, serving_of_spills hspills⟩
  next hcode =>
    obtain ⟨_, hls, rfl⟩ := map_eq_ok_iff.mp h
    obtain ⟨load, hload, hls⟩ := of_bind hls
    cases hls
    exact .inr ⟨_, [load], [], by rw [ownLine, hcode, returnLabel], rfl,
      forall_mem_singleton.mpr (.fetch hload), forall_mem_nil _⟩
  next code note hecall hcall halloc hret hcode =>
    have hown : ownLine a func o = instruction? code note := by simp [ownLine, hcode]
    split at h
    next line hline =>
      obtain ⟨loads, spills, hloads, hspills, h⟩ := of_bind₂ h
      cases h
      refine .inr ⟨line, [blank, remark o.code.name] ++ loads, spills, hown.trans hline, by simp,
        forall_mem_append.mpr ⟨forall_mem_pair (.remark _) (.remark _),
          fun l hl => ?_⟩, serving_of_spills hspills⟩
      obtain ⟨v, hv⟩ := mem_of_mapM_eq_ok hloads l hl
      exact .fetch hv
    next hnone =>
      cases h
      exact .inl ⟨rfl, hown.trans hnone⟩
  next hcode =>
    cases h
    refine .inl ⟨rfl, ?_⟩
    unfold ownLine
    split <;> first | rfl | next h => exact absurd h (hcode _ _)

/-- What a line of an operation has to do with it: where it leads, and which label it places. -/
structure LineOf (func : String) (o : Op) (l : Line) : Prop where
  target : ∀ t, l.target? = some t →
    o.target? = some t ∨ o.machine? = some (.call t) ∨ t = returnLabel func
  label : ∀ name, l = .label name → o.Lands name

theorem Idle.lineOf (h : Idle l) : LineOf func o l where
  target t ht := by
    rw [h.still] at ht
    cases ht
  label name hname := absurd hname (h.unlabelled name)

theorem lineOf_ownLine (h : ownLine a func o = some l) : LineOf func o l := by
  unfold ownLine at h
  split at h
  · cases h
    exact ⟨nofun, nofun⟩
  next hcode =>
    cases h
    refine ⟨?_, nofun⟩
    rintro _ ⟨⟩
    exact .inr (.inl (machine?_of_code hcode))
  · cases h
    exact ⟨nofun, nofun⟩
  · cases h
    refine ⟨?_, nofun⟩
    rintro _ ⟨⟩
    exact .inr (.inr rfl)
  next hcode =>
    refine ⟨fun t ht => .inl ?_, ?_⟩
    · rw [target?, machine?_of_code hcode]
      exact target?_of_instruction? h ht
    · rintro _ rfl
      rw [Op.Lands, machine?_of_code hcode]
      unfold instruction? at h
      split at h <;> cases h
      rfl
  · cases h

theorem lineOf_of_lower (h : lower a func o = .ok (some ls)) : ∀ l ∈ ls, LineOf func o l := by
  obtain ⟨⟨⟩, -⟩ | ⟨line, before, after, hown, ⟨⟩, hbefore, hafter⟩ := of_lower h
  rw [forall_mem_append, forall_mem_cons]
  exact ⟨fun l hl => (hbefore l hl).idle.lineOf, lineOf_ownLine hown,
    fun l hl => (hafter l hl).idle.lineOf⟩

/-- An operation that places a label has lines, and the label among them. -/
theorem label_mem_of_lower (hland : o.Lands name) (h : lower a func o = .ok ls?) :
    ∃ ls, ls? = some ls ∧ .label name ∈ ls := by
  obtain ⟨_, hcode⟩ := code_of_machine? hland
  have hown : ownLine a func o = some (.label name) := by
    rw [ownLine, hcode]
    rfl
  obtain ⟨-, hnone⟩ | ⟨_, _, _, hline, hls, -⟩ := of_lower h
  · rw [hown] at hnone
    cases hnone
  · rw [hown] at hline
    cases hline
    exact ⟨_, hls, by simp⟩

theorem lower_of_machine?_eq_none (h : o.machine? = none) : lower a func o = .ok none := by
  cases hcode : o.code with
  | machine code _ =>
    rw [machine?_of_code hcode] at h
    cases h
  | flat code =>
    rw [lower, hcode]
    rfl
  | line l =>
    rw [lower, hcode]
    rfl

theorem lower_of_func (h : o.machine? = some (.func f)) : lower a func o = .ok none := by
  obtain ⟨_, hcode⟩ := code_of_machine? h
  rw [lower, hcode]
  rfl

end

/-! ## The body of a function -/

section
variable {b' : Block} {last : List Line} {n n' : Nat}

/-- An operation that holds a line. -/
def Holds (l : Line) (o : Op) : Prop :=
  o.code = .line l ∧ o.regions = []

theorem holds_of_placeLines {lines : List Line} (h : (placeLines lines).run n = .ok (ops, n')) :
    Forall₂ Holds lines ops := by
  refine (forall₂_of_mapM_run h).imp fun l o ho => ?_
  obtain ⟨_, _, hmake⟩ := ho
  cases hmake
  exact ⟨rfl, rfl⟩

/-- What has become of an operation: its lines, or the operation itself if it has none. -/
def TurnsInto (a : Access) (func : String) (o : Op) (made : List Op) : Prop :=
  match lower a func o with
  | .ok (some ls) => Forall₂ Holds ls made
  | .ok none => made = [o]
  | .error _ => False

/-- What a body is assembled to: the lines of its header, what has become of its operations, and the
lines of its footer with the last lines. -/
structure Laid (a : Access) (func : String) (b : Block) (first last : List Line)
    (before : List Op) (made : List (List Op)) (after : List Op) (b' : Block) : Prop where
  ops : b'.ops = before ++ made.flatten ++ after
  header : header a b.args = .ok first
  before : Forall₂ Holds first before
  made : Forall₂ (TurnsInto a func) b.ops made
  after : Forall₂ Holds (footer a func ++ last) after

theorem laid_of_assembleBody (h : (assembleBody a func b last).run n = .ok (b', n')) :
    ∃ first before made after, Laid a func b first last before made after b' := by
  obtain ⟨first, s1, lowered, _, hfirst, hlowered, h⟩ := of_run_bind₂ h
  obtain ⟨made, _, before, _, hmade, hbefore, h⟩ := of_run_bind₂ h
  obtain ⟨after, _, hafter, h⟩ := of_run_bind h
  cases h
  obtain ⟨hheader, rfl⟩ := run_lift_ok_iff.mp hfirst
  refine ⟨first, before, made, after, rfl, hheader, holds_of_placeLines hbefore, ?_,
    holds_of_placeLines hafter⟩
  have hpairs := forall₂_reverse_iff.mpr (forall₂_of_mapM_run hlowered)
  rw [reverse_reverse] at hpairs
  refine forall₂_trans (fun o p made ho hp => ?_) hpairs (forall₂_of_mapM_run hmade)
  obtain ⟨_, _, hrun⟩ := ho
  obtain ⟨ls?, _, hlift, hpure⟩ := of_run_bind hrun
  obtain ⟨hlower, rfl⟩ := run_lift_ok_iff.mp hlift
  cases hpure
  obtain ⟨_, _, hrun⟩ := hp
  rw [TurnsInto, hlower]
  cases ls? with
  | none =>
    cases hrun
    rfl
  | some ls => exact holds_of_placeLines hrun

theorem Laid.total {first : List Line} {before after : List Op} {made : List (List Op)}
    (h : Laid a func b first last before made after b') (ho : o ∈ b.ops) :
    ∃ ls?, lower a func o = .ok ls? := by
  obtain ⟨_, -, hturns⟩ := exists_of_forall₂ h.made ho
  unfold TurnsInto at hturns
  split at hturns
  next hlower => exact ⟨_, hlower⟩
  next hlower => exact ⟨_, hlower⟩
  · exact hturns.elim

/-- The operations of a body are the lines of the operations of another one, or operations of it
that have no lines; around them stand lines that lead nowhere, the end of the function among
them. -/
structure Assembled (a : Access) (func : String) (source ops : List Op) : Prop where
  origin : ∀ o ∈ ops, (o ∈ source ∧ lower a func o = .ok none) ∨
    o.regions = [] ∧ ∃ l, o.code = .line l ∧
      (Still l ∨ ∃ x ∈ source, ∃ ls, lower a func x = .ok (some ls) ∧ l ∈ ls)
  kept : ∀ x ∈ source, lower a func x = .ok none → x ∈ ops
  lines : ∀ x ∈ source, ∀ ls, lower a func x = .ok (some ls) → ∀ l ∈ ls, HasLine ops l
  total : ∀ x ∈ source, ∃ ls?, lower a func x = .ok ls?
  exit : HasLine ops (.label (returnLabel func))

theorem idle_of_header {args : List Val} {ls : List Line} (h : header a args = .ok ls) :
    ∀ l ∈ ls, Idle l := by
  obtain ⟨_, hspills, h⟩ := of_bind h
  cases h
  simp only [forall_mem_append, forall_mem_cons]
  refine ⟨⟨⟨⟨⟨rfl, nofun⟩, ⟨rfl, nofun⟩, ⟨rfl, nofun⟩, nofun⟩, ?_⟩, ?_⟩, fun l hl => ?_⟩
  · split
    · exact nofun
    · exact forall_mem_singleton.mpr ⟨rfl, nofun⟩
  · split
    · exact forall_mem_singleton.mpr ⟨rfl, nofun⟩
    · exact nofun
  · obtain ⟨r, v, hv⟩ := mem_spillArgs hspills l hl
    exact idle_of_spill hv

theorem still_of_footer : ∀ l ∈ footer a func, Still l := by
  simp only [footer, forall_mem_append]
  refine ⟨⟨by simp [Still, blank, remark, label, addi, instr, Line.target?], ?_⟩,
    by simp [Still, lw, addi, instr, Line.target?]⟩
  split <;> simp [Still, addi, instr, Line.target?]

theorem assembled_of_assembleBody (hlast : ∀ l ∈ last, Still l)
    (h : (assembleBody a func b last).run n = .ok (b', n')) : Assembled a func b.ops b'.ops := by
  obtain ⟨first, before, made, after, hlaid⟩ := laid_of_assembleBody h
  have hturns {x : Op} (hx : x ∈ b.ops) : ∃ ops ⊆ b'.ops, TurnsInto a func x ops := by
    obtain ⟨ops, hops, hx⟩ := exists_of_forall₂ hlaid.made hx
    refine ⟨ops, fun o ho => ?_, hx⟩
    rw [hlaid.ops]
    exact mem_append_left _ (mem_append_right _ (mem_flatten.mpr ⟨ops, hops, ho⟩))
  refine ⟨fun o ho => ?_, fun x hx hnone => ?_, fun x hx ls hls l hl => ?_,
    fun x hx => hlaid.total hx, ?_⟩
  · rw [hlaid.ops, mem_append, mem_append] at ho
    obtain (ho | ho) | ho := ho
    · obtain ⟨l, hl, hcode, hregions⟩ := exists_of_forall₂ (R := flip Holds) hlaid.before.flip ho
      exact .inr ⟨hregions, l, hcode, .inl (idle_of_header hlaid.header l hl).still⟩
    · obtain ⟨ops, hops, ho⟩ := mem_flatten.mp ho
      obtain ⟨x, hx, hops⟩ := exists_of_forall₂ (R := flip (TurnsInto a func)) hlaid.made.flip hops
      unfold flip TurnsInto at hops
      split at hops
      next ls hlower =>
        obtain ⟨l, hl, hcode, hregions⟩ := exists_of_forall₂ (R := flip Holds) hops.flip ho
        exact .inr ⟨hregions, l, hcode, .inr ⟨x, hx, ls, hlower, hl⟩⟩
      next hlower =>
        obtain rfl := mem_singleton.mp (hops ▸ ho)
        exact .inl ⟨hx, hlower⟩
      · exact hops.elim
    · obtain ⟨l, hl, hcode, hregions⟩ := exists_of_forall₂ (R := flip Holds) hlaid.after.flip ho
      refine .inr ⟨hregions, l, hcode, .inl ?_⟩
      exact (mem_append.mp hl).elim (still_of_footer l) (hlast l)
  · obtain ⟨ops, hops, hx⟩ := hturns hx
    rw [TurnsInto, hnone] at hx
    exact hops (hx ▸ mem_cons_self)
  · obtain ⟨ops, hops, hx⟩ := hturns hx
    rw [TurnsInto, hls] at hx
    obtain ⟨o, ho, hcode, -⟩ := exists_of_forall₂ hx hl
    exact ⟨o, hops ho, hcode⟩
  · have hlabel : .label (returnLabel func) ∈ footer a func ++ last :=
      mem_append_left _ (by simp [footer, label, returnLabel])
    obtain ⟨o, ho, hcode, -⟩ := exists_of_forall₂ hlaid.after hlabel
    exact ⟨o, hlaid.ops ▸ mem_append_right _ ho, hcode⟩

end

/-- A label can be led to in an assembly program: it allocates memory on the heap, it is placed, or
it is the label to which a conditional statement jumps by mistake. -/
def Answered (ops : List Op) (name : String) : Prop :=
  name = "_malloc" ∨ HasLine ops (.label name) ∨
    ∃ n, name = numbered "_if_expr_after_" n ∧ HasLine ops (.label (numbered "_if_after_" n))

def Answers (all ops : List Op) : Prop :=
  ∀ o ∈ ops, ∀ l, o.code = .line l → ∀ t, l.target? = some t → Answered all t

variable {least : Nat} {funcs : Nat → Option String} {all : List Op}

section
variable {source : List Op}

theorem Assembled.hasLabel (h : Assembled a func source ops) {name : String}
    (hplaced : Placed source name) : HasLine ops (.label name) := by
  obtain ⟨x, hx, hland⟩ := hplaced
  obtain ⟨_, hlower⟩ := h.total x hx
  obtain ⟨ls, rfl, hlabel⟩ := label_mem_of_lower hland hlower
  exact h.lines x hx ls hlower _ hlabel

structure Complete (funcs : Nat → Option String) (all : List Op) : Prop where
  library : ∀ l ∈ library, HasLine all l
  func : ∀ f, Named funcs f → HasLine all (.label f)

theorem Assembled.answers (h : Assembled a func source ops)
    (hfits : ∀ x ∈ source, Fits least funcs (Named funcs) x) (hleads : Leads source source)
    (hall : ∀ l, HasLine ops l → HasLine all l) (hcomplete : Complete funcs all) :
    Answers all ops := by
  intro o ho l hcode t ht
  obtain ⟨hsource, -⟩ | ⟨-, l', hcode', horigin⟩ := h.origin o ho
  · -- there are no lines yet in the source
    have hfit := hfits o hsource
    rw [Fits, hcode] at hfit
    exact hfit.elim
  obtain rfl : l' = l := by
    rw [hcode] at hcode'
    cases hcode'
    rfl
  obtain hstill | ⟨x, hx, _, hlower, hl⟩ := horigin
  · rw [hstill] at ht
    cases ht
  obtain htarget | hcall | rfl := (lineOf_of_lower hlower _ hl).target t ht
  · obtain hname | hplaced | ⟨n, hn, hplaced⟩ := hleads x hx t htarget
    · exact .inr (.inl (hcomplete.library _ (mem_labelsOf.mp hname)))
    · exact .inr (.inl (hall _ (h.hasLabel hplaced)))
    · exact .inr (.inr ⟨n, hn, hall _ (h.hasLabel hplaced)⟩)
  · have hfit := hfits x hx
    obtain ⟨_, hxcode⟩ := code_of_machine? hcall
    rw [Fits, hxcode] at hfit
    obtain rfl | hname | hname := hfit.2 t rfl
    · exact .inl rfl
    · exact .inr (.inl (hcomplete.library _ (mem_labelsOf.mp hname)))
    · exact .inr (.inl (hcomplete.func t hname))
  · exact .inr (.inl (hall _ h.exit))

end

/-! ## One sequence of lines -/

section

open Layout

variable {x : Op} {bs : List Block}

theorem mem_flattenAll : x ∈ flattenAll ops ↔ ∃ o ∈ ops, x ∈ flatten o := by
  induction ops with
  | nil => simp [flattenAll]
  | cons o _ ih => simp [flattenAll, ih]

theorem flatten_eq (o : Op) : flatten o = unfold o (flattenRegions o.regions) := by
  cases o
  rfl

theorem flatten_func (h : o.machine? = some (.func f)) (hregions : o.regions = b :: bs) :
    flatten o = .mk o.id (.line (.label f)) [] [] [] :: flattenAll b.ops := by
  cases b
  rw [flatten_eq, hregions]
  unfold unfold
  rw [h]
  rfl

theorem flatten_withRegions (h : o.machine? = some (.func f)) :
    flatten (o.withRegions (b :: bs)) = .mk o.id (.line (.label f)) [] [] [] :: flattenAll b.ops :=
  flatten_func (o := o.withRegions (b :: bs)) h rfl

theorem flatten_other (h : (∀ f, o.machine? ≠ some (.func f)) ∨ o.regions = []) :
    flatten o = [o.withRegions (flattenRegions o.regions)] := by
  rw [flatten_eq]
  unfold unfold
  split
  next f args body bs hfunc hregions =>
    obtain h | h := h
    · exact absurd hfunc (h f)
    · rw [h, flattenRegions] at hregions
      cases hregions
  · rfl

theorem machine?_ne_func_of_line (h : o.code = .line l) (f : String) :
    o.machine? ≠ some (.func f) := by
  simp [machine?, h]

theorem HasLine.flattenAll (h : HasLine ops l) : HasLine (flattenAll ops) l := by
  obtain ⟨o, ho, hcode⟩ := h
  refine ⟨o.withRegions (flattenRegions o.regions), mem_flattenAll.mpr ⟨o, ho, ?_⟩, hcode⟩
  rw [flatten_other (.inl (machine?_ne_func_of_line hcode))]
  exact mem_cons_self

def Unwritten (o : Op) : Prop :=
  ∀ l, o.code ≠ .line l

theorem still_of_flattenAll (h : Each Unwritten ops) :
    ∀ x ∈ flattenAll ops, ∀ l, x.code = .line l → Still l := by
  induction ops using nested_induction with
  | nil => exact nofun
  | cons o os hblocks hos =>
    obtain ⟨ho, hrest⟩ := Each.cons_iff.mp h
    obtain ⟨hunwritten, hinner⟩ := Each.singleton_iff.mp ho
    intro x hx l hl
    rw [flattenAll, mem_append] at hx
    obtain hx | hx := hx
    · by_cases hfunc : (∃ f, o.machine? = some (.func f)) ∧ o.regions ≠ []
      · obtain ⟨⟨f, hf⟩, hregions⟩ := hfunc
        obtain ⟨b, bs, hbs⟩ := exists_cons_of_ne_nil hregions
        have hb : b ∈ o.regions := hbs ▸ mem_cons_self
        rw [flatten_func hf hbs] at hx
        obtain rfl | hx := mem_cons.mp hx
        · cases hl
          rfl
        · exact hblocks b hb (hinner b hb) x hx l hl
      · rw [flatten_other (by simpa [or_iff_not_imp_left] using hfunc)] at hx
        obtain rfl := mem_singleton.mp hx
        exact absurd hl (hunwritten l)
    · exact hos hrest x hx l hl

end

/-! ## Whole programs -/

theorem regions_of_body? {f : Op} (h : body? f = some b) : ∃ bs, f.regions = b :: bs := by
  unfold body? at h
  split at h
  next hregions =>
    cases h
    exact ⟨_, hregions⟩
  next hregions _ =>
    cases h
    exact ⟨_, hregions⟩
  · cases h

theorem isFunc_iff : isFunc o = true ↔ ∃ f, o.machine? = some (.func f) := by
  unfold isFunc
  split
  next f hf => simp [hf]
  next hf =>
    constructor
    · intro h
      cases h
    · rintro ⟨f, hf'⟩
      exact absurd hf' (hf f)

def FuncAssembled (f x : Op) : Prop :=
  (body? f = none ∧ x = f) ∨ ∃ a b b', body? f = some b ∧ x = f.withRegions (b' :: f.regions.tail) ∧
      Assembled a (funcName f) b.ops b'.ops

theorem still_ret : ∀ l ∈ [ret], Still l := by
  simp [Still, ret, instr, Line.target?]

theorem still_exit (code : Int) : ∀ l ∈ exit code, Still l := by
  simp [Still, exit, blank, remark, li, ecall, instr, Line.target?]

theorem funcAssembled_of_assembleFunc {frame : Frame} {f x : Op} {n n' : Nat}
    (h : (assembleFunc frame f).run n = .ok (x, n')) : FuncAssembled f x := by
  unfold assembleFunc at h
  split at h
  next b hbody =>
    obtain ⟨b', s, hassemble, h⟩ := of_run_bind h
    cases h
    exact .inr ⟨_, b, b', hbody, rfl, assembled_of_assembleBody still_ret hassemble⟩
  next hbody =>
    cases h
    exact .inl ⟨hbody, rfl⟩

/-- What a program is assembled to: the main function, with the functions in its body assembled
first, and the library. -/
structure ProgramAssembled (m m' : Module) (main : Op) (b : Block) (ops body lib : List Op) :
    Prop where
  single : m.ops = [main]
  found : body? main = some b
  result : ∃ args, m'.ops = main.withRegions (.mk args (functionsLast body) :: main.regions.tail)
    :: lib
  origin : ∀ x ∈ ops, (x ∈ b.ops ∧ isFunc x = false) ∨
    ∃ f ∈ b.ops, isFunc f = true ∧ FuncAssembled f x
  kept : ∀ o ∈ b.ops, isFunc o = false → o ∈ ops
  funcs : ∀ f ∈ b.ops, isFunc f = true → ∃ x ∈ ops, FuncAssembled f x
  assembled : ∃ a, Assembled a (funcName main) ops body
  libFrom : ∀ o ∈ lib, ∃ l ∈ library, o.code = .line l
  libTo : ∀ l ∈ library, HasLine lib l

/-- The functions of main are assembled, and the other operations stay as they are. -/
def AssembledIn (frame : Frame) (o o' : Op) : Prop :=
  if isFunc o then ∃ n n', (assembleFunc frame o).run n = .ok (o', n') else o' = o

theorem of_assemble {m m' : Module} (h : assemble m = .ok m') : ∃ main b ops b' lib n n',
    m.ops = [main] ∧ body? main = some b ∧ Forall₂ (AssembledIn (.ofBody b)) b.ops ops ∧
    (assembleBody ⟨.ofBody b, none⟩ (funcName main) (.mk b.args ops) (exit 0)).run n =
      .ok (b', n') ∧ Forall₂ Holds library lib ∧
    m'.ops = main.withRegions (.mk b'.args (functionsLast b'.ops) :: main.regions.tail) :: lib := by
  unfold assemble at h
  split at h
  next main hmain =>
    split at h
    next b hbody =>
      obtain ⟨_, hbuild, h⟩ := of_bind h
      cases h
      obtain ⟨ops, n, b', n', hops, hassemble, hbuild⟩ := of_run_bind₂ hbuild
      obtain ⟨lib, _, hlib, hbuild⟩ := of_run_bind hbuild
      cases hbuild
      refine ⟨main, b, ops, b', lib, n, n', hmain, hbody, ?_, hassemble, holds_of_placeLines hlib, rfl⟩
      refine (forall₂_of_mapM_run hops).imp fun o o' ho => ?_
      obtain ⟨s, s', ho⟩ := ho
      unfold AssembledIn
      split at ho
      next hfunc =>
        rw [if_pos hfunc]
        exact ⟨s, s', ho⟩
      next hfunc =>
        rw [if_neg hfunc]
        cases ho
        rfl
    · cases h
  · cases h

theorem programAssembled_of_assemble {m m' : Module} (h : assemble m = .ok m') :
    ∃ main b ops body lib, ProgramAssembled m m' main b ops body lib := by
  obtain ⟨main, b, ops, b', lib, _, _, hmain, hbody, hops, hassemble, hlib, hresult⟩ := of_assemble h
  refine ⟨main, b, ops, b'.ops, lib, hmain, hbody, ⟨b'.args, hresult⟩, fun x hx => ?_,
    fun o ho hfunc => ?_, fun f hf hfunc => ?_,
    ⟨_, assembled_of_assembleBody (still_exit 0) hassemble⟩, fun o ho => ?_, fun l hl => ?_⟩
  · obtain ⟨o, ho, hx⟩ : ∃ o ∈ b.ops, AssembledIn _ o x := exists_of_forall₂ hops.flip hx
    unfold AssembledIn at hx
    split at hx
    next hfunc =>
      obtain ⟨_, _, hx⟩ := hx
      exact .inr ⟨o, ho, hfunc, funcAssembled_of_assembleFunc hx⟩
    next hfunc => exact .inl ⟨hx ▸ ho, by simpa [hx] using hfunc⟩
  · obtain ⟨x, hx, ho⟩ := exists_of_forall₂ hops ho
    rw [AssembledIn, hfunc] at ho
    exact ho ▸ hx
  · obtain ⟨x, hx, hf⟩ := exists_of_forall₂ hops hf
    rw [AssembledIn, if_pos hfunc] at hf
    obtain ⟨_, _, hf⟩ := hf
    exact ⟨x, hx, funcAssembled_of_assembleFunc hf⟩
  · obtain ⟨l, hl, hcode, -⟩ := exists_of_forall₂ (R := flip Holds) hlib.flip ho
    exact ⟨l, hl, hcode⟩
  · obtain ⟨o, ho, hcode, -⟩ := exists_of_forall₂ hlib hl
    exact ⟨o, ho, hcode⟩

theorem mem_functionsLast : o ∈ functionsLast ops ↔ o ∈ ops := by
  rw [functionsLast, mem_append, mem_filter, mem_filter]
  cases isFunc o <;> simp

theorem library_answered (hl : l ∈ library) {t : String} (ht : l.target? = some t) :
    t = "_malloc" ∨ .label t ∈ Runtime.library := by
  have hall : ∀ l ∈ library, ∀ t ∈ l.target?, t = "_malloc" ∨ t ∈ labelsOf Runtime.library := by
    decide +kernel
  exact (hall l hl t ht).imp_right mem_labelsOf.mp

section

open Layout

variable {m m2 m3 : Module}

theorem Fits.unwritten (h : Fits least funcs (Named funcs) o) : Unwritten o := by
  intro l hcode
  rw [Fits, hcode] at h
  exact h

theorem Fits.machine?_eq_none_of_lt (hfits : Fits least funcs (Named funcs) o)
    (hlt : o.id < least) : o.machine? = none := by
  obtain ⟨code, hflat⟩ := hfits.flat_of_lt hlt
  rw [machine?, code_of_flat? hflat]

theorem FuncAssembled.code {f x : Op} (h : FuncAssembled f x) : x.id = f.id ∧ x.code = f.code := by
  obtain ⟨-, rfl⟩ | ⟨_, _, _, -, rfl, -⟩ := h
  · exact ⟨rfl, rfl⟩
  · exact ⟨rfl, rfl⟩

theorem ops_of_layout (h : run m = .ok m2) :
    m2.ops = .mk m.next (.line (call "_main")) [] [] [] :: flattenAll m.ops := by
  unfold run at h
  split at h
  · cases h
  next hops =>
    cases h
    rw [hops]

namespace ProgramAssembled

variable {main : Op} {body lib : List Op}

variable (h : ProgramAssembled m m2 main b ops body lib)
include h

theorem regionOps : main.regionOps 0 = b.ops := by
  obtain ⟨_, hregions⟩ := regions_of_body? h.found
  rw [Op.regionOps, hregions]
  rfl

/-- The operations of the body of the main function before its lines are made: they lead where they
led before the functions among them were assembled. -/
theorem leads (hleads : Leads b.ops b.ops) : Leads ops ops := by
  have hfunc {x f : Op} (hf : isFunc f = true) (hx : FuncAssembled f x) :
      ∃ g, x.machine? = some (.func g) := by
    obtain ⟨g, hg⟩ := isFunc_iff.mp hf
    exact ⟨g, by rw [← hg, machine?, machine?, hx.code.2]⟩
  have hplaced {name : String} (hname : Placed b.ops name) : Placed ops name := by
    obtain ⟨o, ho, hland⟩ := hname
    refine ⟨o, h.kept o ho ?_, hland⟩
    unfold isFunc
    rw [hland]
  intro x hx name hname
  obtain ⟨hxb, -⟩ | ⟨f, -, hf, hfx⟩ := h.origin x hx
  · exact (hleads x hxb name hname).imp hplaced
  obtain ⟨g, hg⟩ := hfunc hf hfx
  rw [target?, hg] at hname
  cases hname

theorem main_func (hbound : ∀ n f, funcs n = some f → n < least)
    (hfits : Fits least funcs (Named funcs) main) (hstands : Stands funcs main "_main")
    (hwritten : ∀ o ∈ flattenAll m2.ops, ∃ l, o.code = .line l) :
    main.machine? = some (.func "_main") := by
  refine hstands.resolve_right fun hname => ?_
  obtain ⟨_, hresult⟩ := h.result
  have hmachine := hfits.machine?_eq_none_of_lt (hbound _ _ hname)
  obtain ⟨main', hmem, hcode⟩ : ∃ x ∈ flattenAll m2.ops, x.code = main.code := by
    rw [hresult, flattenAll, flatten_other (.inl fun f hf => ?_)]
    · exact ⟨_, mem_cons_self, rfl⟩
    · rw [machine?, code_withRegions, ← machine?, hmachine] at hf
      cases hf
  obtain ⟨l, hl⟩ := hwritten _ hmem
  exact hfits.unwritten l (hcode.symm.trans hl)

theorem fits (hsound : Each (Sound least funcs (Named funcs)) b.ops) :
    ∀ x ∈ ops, Fits least funcs (Named funcs) x := by
  intro x hx
  obtain ⟨hxb, -⟩ | ⟨f, hf, -, hfx⟩ := h.origin x hx
  · exact (hsound.of_mem hxb).fits
  · exact (hsound.of_mem hf).fits.congr hfx.code.1 hfx.code.2

variable (hmain : main.machine? = some (.func "_main"))
include hmain

theorem mem_of_body {x y : Op} (hy : y ∈ body) (hx : x ∈ flatten y) : x ∈ flattenAll m2.ops := by
  obtain ⟨_, hresult⟩ := h.result
  refine mem_flattenAll.mpr ⟨_, hresult ▸ mem_cons_self, ?_⟩
  rw [flatten_withRegions hmain]
  exact mem_cons_of_mem _ (mem_flattenAll.mpr ⟨y, mem_functionsLast.mpr hy, hx⟩)

theorem cases_of_mem {x : Op} (hx : x ∈ flattenAll m2.ops) :
    x.code = .line (.label "_main") ∨ (∃ y ∈ body, x ∈ flatten y) ∨ ∃ y ∈ lib, x ∈ flatten y := by
  obtain ⟨_, hresult⟩ := h.result
  obtain ⟨y, hy, hxy⟩ := mem_flattenAll.mp hx
  rw [hresult] at hy
  obtain rfl | hy := mem_cons.mp hy
  · rw [flatten_withRegions hmain] at hxy
    obtain rfl | hxy := mem_cons.mp hxy
    · exact .inl rfl
    · obtain ⟨y, hy, hxy⟩ := mem_flattenAll.mp hxy
      exact .inr (.inl ⟨y, mem_functionsLast.mp hy, hxy⟩)
  · exact .inr (.inr ⟨y, hy, hxy⟩)

theorem hasLine_main : HasLine (flattenAll m2.ops) (.label "_main") := by
  obtain ⟨_, hresult⟩ := h.result
  refine ⟨.mk main.id (.line (.label "_main")) [] [] [], ?_, rfl⟩
  rw [hresult, flattenAll, flatten_withRegions hmain]
  exact mem_cons_self

theorem hasLine_of_stands (hbound : ∀ n f, funcs n = some f → n < least)
    (hsound : Each (Sound least funcs (Named funcs)) b.ops)
    (hwritten : ∀ o ∈ flattenAll m2.ops, ∃ l, o.code = .line l) (ho : o ∈ b.ops)
    (hstands : Stands funcs o f) : HasLine (flattenAll m2.ops) (.label f) := by
  obtain ⟨a, hbody⟩ := h.assembled
  have hfits := (hsound.of_mem ho).fits
  -- what stays in its place would be left
  have hgone {x : Op} (hx : x ∈ body) (hcode : x.code = o.code)
      (hother : (∀ f, x.machine? ≠ some (.func f)) ∨ x.regions = []) : False := by
    obtain ⟨l, hl⟩ := hwritten (x.withRegions (flattenRegions x.regions))
      (h.mem_of_body hmain hx (flatten_other hother ▸ mem_cons_self))
    exact hfits.unwritten l (hcode.symm.trans hl)
  obtain hmachine | hname := hstands
  · obtain ⟨x, hx, hfx⟩ := h.funcs o ho (isFunc_iff.mpr ⟨f, hmachine⟩)
    have hxmachine : x.machine? = some (.func f) := by
      rw [← hmachine, machine?, machine?, hfx.code.2]
    have hxbody := hbody.kept x hx (lower_of_func hxmachine)
    cases hregions : x.regions with
    | nil => exact (hgone hxbody hfx.code.2 (.inr hregions)).elim
    | cons b _ =>
      refine ⟨.mk x.id (.line (.label f)) [] [] [], h.mem_of_body hmain hxbody ?_, rfl⟩
      rw [flatten_func hxmachine hregions]
      exact mem_cons_self
  · have hnone := hfits.machine?_eq_none_of_lt (hbound _ _ hname)
    have hfunc : isFunc o = false := by
      unfold isFunc
      rw [hnone]
    have hobody := hbody.kept o (h.kept o ho hfunc) (lower_of_machine?_eq_none hnone)
    exact (hgone hobody rfl (.inl (by simp [hnone]))).elim

theorem complete (hbound : ∀ n f, funcs n = some f → n < least)
    (hsound : Each (Sound least funcs (Named funcs)) b.ops)
    (hhoused : ∀ f, Named funcs f → f = "_main" ∨ ∃ o ∈ b.ops, Stands funcs o f)
    (hwritten : ∀ o ∈ flattenAll m2.ops, ∃ l, o.code = .line l) :
    Complete funcs (flattenAll m2.ops) := by
  obtain ⟨_, hresult⟩ := h.result
  constructor
  · intro l hl
    exact ((h.libTo l hl).mono (hresult ▸ subset_cons_self ..)).flattenAll
  · intro f hf
    obtain rfl | ⟨o, ho, hstands⟩ := hhoused f hf
    · exact h.hasLine_main hmain
    · exact h.hasLine_of_stands hmain hbound hsound hwritten ho hstands

end ProgramAssembled

theorem answers_of_unwritten {y : Op} (h : Each Unwritten [y]) : Answers all (flatten y) := by
  intro o ho l hcode t ht
  rw [still_of_flattenAll h o (by simpa [flattenAll] using ho) l hcode] at ht
  cases ht

theorem unwritten_of_sound (h : Each (Sound least funcs (Named funcs)) ops) : Each Unwritten ops :=
  h.mono fun _ ho => ho.fits.unwritten

theorem Assembled.answers_flatten {a : Access} {func : String} {source : List Op}
    (h : Assembled a func source ops) (hanswers : Answers all ops)
    (hkept : ∀ y ∈ source, lower a func y = .ok none → Answers all (flatten y)) {y : Op}
    (hy : y ∈ ops) : Answers all (flatten y) := by
  obtain ⟨hsource, hnone⟩ | ⟨-, l, hcode, -⟩ := h.origin y hy
  · exact hkept y hsource hnone
  rw [flatten_other (.inl (machine?_ne_func_of_line hcode))]
  exact forall_mem_singleton.mpr (hanswers y hy)

theorem FuncAssembled.answers {f x : Op} (h : FuncAssembled f x) (hfunc : isFunc f = true)
    (hsound : Each (Sound least funcs (Named funcs)) [f]) (hin : ∀ o ∈ flatten x, o ∈ all)
    (hcomplete : Complete funcs all) : Answers all (flatten x) := by
  obtain ⟨-, rfl⟩ | ⟨a, b, b', hbody, rfl, hassembled⟩ := h
  · exact answers_of_unwritten (unwritten_of_sound hsound)
  obtain ⟨g, hg⟩ := isFunc_iff.mp hfunc
  obtain ⟨_, hregions⟩ := regions_of_body? hbody
  have hmem : b ∈ f.regions := hregions ▸ mem_cons_self
  have hsource := (Each.singleton_iff.mp hsound).2 b hmem
  rw [flatten_withRegions hg] at hin ⊢
  have hanswers : Answers all b'.ops := by
    refine hassembled.answers (fun x hx => (hsource.of_mem hx).fits)
      ((hsound.of_mem mem_cons_self).blocks b hmem).2 (fun l hl => ?_) hcomplete
    exact hl.flattenAll.mono fun o ho => hin o (mem_cons_of_mem _ ho)
  intro o ho
  obtain rfl | ho := mem_cons.mp ho
  · rintro l ⟨⟩ t ⟨⟩
  obtain ⟨z, hz, hoz⟩ := mem_flattenAll.mp ho
  refine hassembled.answers_flatten hanswers (fun y hy _ => ?_) hz o hoz
  exact answers_of_unwritten (unwritten_of_sound (Each.iff_forall.mp hsource y hy))

/-- Every label that a line leads to can be led to, in a program of which nothing but lines is
left. -/
theorem Lowering.answers (h : Lowering least funcs (Named funcs) m)
    (hbound : ∀ n f, funcs n = some f → n < least) (hassemble : assemble m = .ok m2)
    (hlayout : run m2 = .ok m3)
    (hwritten : ∀ o ∈ m3.ops, ∃ l, o.code = .line l) : Answers m3.ops m3.ops := by
  obtain ⟨main, b, ops, body, _, hp⟩ := programAssembled_of_assemble hassemble
  obtain ⟨a, hbody⟩ := hp.assembled
  obtain ⟨main', hops, hstands, hhoused⟩ := h.housed fun _ => id
  obtain rfl : main = main' := singleton_inj.mp (hp.single.symm.trans hops)
  rw [hp.regionOps] at hhoused
  have hm3 := ops_of_layout hlayout
  have hrest : flattenAll m2.ops ⊆ m3.ops := hm3 ▸ subset_cons_self ..
  have hsound : Each (Sound least funcs (Named funcs)) [main] := hops ▸ h.each.ops
  have hsoundBody : Each (Sound least funcs (Named funcs)) b.ops :=
    hp.regionOps ▸ hsound.regionOps 0
  have hmain := hp.main_func hbound (hsound.of_mem mem_cons_self).fits hstands
    fun o ho => hwritten o (hrest ho)
  have hin {x y : Op} (hy : y ∈ body) (hx : x ∈ flatten y) : x ∈ m3.ops :=
    hrest (hp.mem_of_body hmain hy hx)
  have hcomplete : Complete funcs m3.ops := by
    have hrestWritten := fun o ho => hwritten o (hrest ho)
    obtain ⟨hlib, hfunc⟩ := hp.complete hmain hbound hsoundBody hhoused hrestWritten
    exact ⟨fun l hl => (hlib l hl).mono hrest, fun f hf => (hfunc f hf).mono hrest⟩
  have hanswers : Answers m3.ops body := by
    obtain ⟨_, hregions⟩ := regions_of_body? hp.found
    have hleads := ((hsound.of_mem mem_cons_self).blocks b (hregions ▸ mem_cons_self)).2
    refine hbody.answers (hp.fits hsoundBody) (hp.leads hleads) (fun l hl => ?_) hcomplete
    refine hl.flattenAll.mono fun x hx => ?_
    obtain ⟨y, hy, hxy⟩ := mem_flattenAll.mp hx
    exact hin hy hxy
  intro o ho l hcode t ht
  rw [hm3] at ho
  obtain rfl | ho := mem_cons.mp ho
  · -- the program starts by a call of the main function
    cases hcode
    cases ht
    exact .inr (.inl ((hp.hasLine_main hmain).mono hrest))
  obtain hlabel | ⟨y, hy, hoy⟩ | ⟨y, hy, hoy⟩ := hp.cases_of_mem hmain ho
  · rw [hlabel] at hcode
    cases hcode
    cases ht
  · refine hbody.answers_flatten hanswers (fun y hy hnone => ?_) hy o hoy l hcode t ht
    obtain ⟨hyb, -⟩ | ⟨f, hf, hfunc, hfy⟩ := hp.origin y hy
    · exact answers_of_unwritten (unwritten_of_sound (Each.iff_forall.mp hsoundBody y hyb))
    · exact hfy.answers hfunc (Each.iff_forall.mp hsoundBody f hf)
        (fun x hx => hin (hbody.kept y hy hnone) hx) hcomplete
  · obtain ⟨l', hl', hcode'⟩ := hp.libFrom y hy
    rw [flatten_other (.inl (machine?_ne_func_of_line hcode'))] at hoy
    obtain rfl := mem_singleton.mp hoy
    obtain rfl : l' = l := by
      rw [code_withRegions, hcode'] at hcode
      cases hcode
      rfl
    obtain rfl | hplaced := library_answered hl' ht
    · exact .inl rfl
    · exact .inr (.inl (hcomplete.library _ hplaced))

end

end Practicum.Machine
