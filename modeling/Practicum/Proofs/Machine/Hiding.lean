import Practicum.Proofs.Machine.Rows
import Practicum.Proofs.Machine.Shapes

/-!
# Hidden memory

The code for an operation with blocks keeps a value in memory of its own, of which the flat level
knows nothing. A row of operations that stays away from such memory runs alike whatever stands in
it, and what is seen of the row lies outside it.
-/

namespace Practicum.Machine

open IR Riscv Flat List Option Effect Surroundings Op Nat

variable {ω : Type}

def Event.address? : Event → Option Word
  | .load _ a _ | .store _ a _ => some a
  | .ask .. => none

/-- What is seen of a run apart from the hidden bytes. -/
def visible (hide : Word → Bool) (trace : List Event) : List Event :=
  trace.filter fun e => !e.address?.any hide

/-- Memory is the same apart from the hidden bytes. -/
def Agree (hide : Word → Bool) (m m' : Memory) : Prop :=
  ∀ a, hide a = false → m' a = m a

/-- Surroundings in which the hidden bytes are reserved too. -/
def Surroundings.veiled (E : Surroundings ω) (hide : Word → Bool) : Surroundings ω :=
  { E with reserved := fun a => E.reserved a || hide a }

/-- Requests have nothing to do with the hidden bytes. -/
def Surroundings.Blind (E : Surroundings ω) (hide : Word → Bool) : Prop :=
  ∀ r args m m' world w m₁ world₁, Agree hide m m' → E.serve r args m world = some (w, m₁, world₁) →
    ∃ m₁', E.serve r args m' world = some (w, m₁', world₁) ∧ Agree hide m₁ m₁'

/-- What the flat level knows of a store of the machine level. -/
structure Sees (hide : Word → Bool) (s S : Store ω) : Prop where
  memory : Agree hide s.memory S.memory
  world : S.world = s.world
  trace : visible hide S.trace = s.trace

def Finish.values : Finish ω → Values
  | .on values _ | .out _ values _ => values

def Finish.store : Finish ω → Store ω
  | .on _ s | .out _ _ s => s

def Finish.withStore (f : Finish ω) (S : Store ω) : Finish ω :=
  match f with
  | .on values _ => .on values S
  | .out label values _ => .out label values S

section
variable {E : Surroundings ω} {hide : Word → Bool} {s S : Store ω} {values values' : Values}
  {m m' : Memory} {a w : Word} {n i : Nat} {ops : List Op} {label : String} {f : Finish ω}
  {events : List Event} {code : MachineCode} {args : List Word} {e : Effect ω}
variable {g : List Block} {note : Option String}

theorem visible_append (xs ys : List Event) :
    visible hide (xs ++ ys) = visible hide xs ++ visible hide ys :=
  filter_append ..

theorem Sees.append (h : Sees hide s S) (hm : Agree hide m m') (world : ω)
    (hevents : visible hide events = events) :
    Sees hide { memory := m, world, trace := s.trace ++ events }
      { memory := m', world, trace := S.trace ++ events } :=
  ⟨hm, rfl, by rw [visible_append, h.trace, hevents]⟩

theorem Sees.hidden (h : Sees hide s S) (hm : Agree hide S.memory m)
    (hevents : visible hide events = []) :
    Sees hide s { memory := m, world := S.world, trace := S.trace ++ events } where
  memory b hb := (hm b hb).trans (h.memory b hb)
  world := h.world
  trace := by rw [visible_append, h.trace, hevents, append_nil]

theorem Surroundings.free_of_veiled (h : (E.veiled hide).free a n) : E.free a n := by
  refine all_eq_true.mpr fun i hi => ?_
  have hfree := all_eq_true.mp h i hi
  simp only [veiled, Bool.not_or, Bool.and_eq_true] at hfree
  exact hfree.1

theorem Surroundings.not_hidden_of_free (h : (E.veiled hide).free a n) {b : Word}
    (hb : Covers a n b) : hide b = false := by
  have hreserved := not_reserved_of_free h hb
  simp only [veiled, Bool.or_eq_false_iff] at hreserved
  exact hreserved.2

theorem Agree.write (h : Agree hide m m') : Agree hide (m.write a n w) (m'.write a n w) := by
  intro b hb
  unfold Memory.write
  split
  · rfl
  · exact h b hb

theorem agree_write (h : ∀ b, Covers a n b → hide b = true) : Agree hide m (m.write a n w) := by
  intro b hb
  refine Memory.write_of_not_covers fun hcovers => ?_
  rw [h b hcovers] at hb
  cases hb

theorem visible_singleton {e : Event} (h : ∀ a, e.address? = some a → hide a = false) :
    visible hide [e] = [e] := by
  cases ha : e.address? with
  | none => simp [visible, ha]
  | some a => simp [visible, ha, h a ha]

theorem target?_of_jump {id : Nat} {world : ω} (he : of? E code id args m world = some e)
    (hcourse : e.course = .jump label) : code.target? = some label := by
  have hask {r : Asking} {args : List Word} {e : Effect ω}
      (h : ask? E r args m world = some e) : e.course = .on := by
    obtain ⟨_, -, rfl⟩ := map_eq_some_iff.mp h
    rfl
  unfold of? at he
  split at he
  case h_6 =>
    cases he
    split at hcourse <;> cases hcourse
    rfl
  case h_7 =>
    cases he
    cases hcourse
    rfl
  case h_5 =>
    obtain ⟨_, -, rfl⟩ := map_eq_some_iff.mp he
    cases hcourse
  case h_8 =>
    obtain ⟨-, he⟩ := ite_none_right_eq_some.mp he
    obtain ⟨_, hserve, rfl⟩ := map_eq_some_iff.mp he
    cases (hask hserve).symm.trans hcourse
  case h_9 =>
    obtain ⟨_, hserve, rfl⟩ := map_eq_some_iff.mp he
    cases (hask hserve).symm.trans hcourse
  case h_10 => cases (hask he).symm.trans hcourse
  case h_1 | h_2 | h_3 =>
    obtain ⟨-, he⟩ := ite_none_right_eq_some.mp he
    cases he
    cases hcourse
  case h_15 => cases he
  all_goals
    cases he
    cases hcourse

theorem of?_veiled (hblind : E.Blind hide) (hm : Agree hide m m') {id : Nat} {world : ω}
    (h : of? (E.veiled hide) code id args m world = some e) :
    ∃ m1, of? E code id args m' world = some { e with memory := m1 } ∧
      Agree hide e.memory m1 ∧ visible hide e.events = e.events := by
  have hask {r : Asking} {args : List Word} {e : Effect ω}
      (h : ask? (E.veiled hide) r args m world = some e) :
      ∃ m1, ask? E r args m' world = some { e with memory := m1 } ∧
        Agree hide e.memory m1 ∧ visible hide e.events = e.events := by
    obtain ⟨⟨w, m1, _⟩, hserve, rfl⟩ := map_eq_some_iff.mp h
    obtain ⟨m1', hserve', hm1⟩ := hblind _ _ _ _ _ _ _ _ hm hserve
    exact ⟨m1', by rw [ask?, hserve']; rfl, hm1, visible_singleton nofun⟩
  unfold of? at h
  split at h
  next op offset a =>
    simp only [ite_none_right_eq_some, Bool.and_eq_true] at h
    obtain ⟨⟨hfits, hfree⟩, ⟨⟩⟩ := h
    have hvisible {b : Word} := not_hidden_of_free hfree (b := b)
    have hread := LoadOp.read_congr fun b hb => hm b (hvisible hb)
    refine ⟨m', ?_, hm, visible_singleton ?_⟩
    · simp only [of?]
      have hok : (E.fits offset.value && E.free (a + wordOf offset.value) op.width) = true :=
        Bool.and_eq_true_iff.mpr ⟨hfits, free_of_veiled hfree⟩
      rw [if_pos hok, hread]
      rfl
    · rintro b ⟨⟩
      exact hvisible (covers_self (by cases op <;> decide))
  next op offset w a =>
    simp only [ite_none_right_eq_some, Bool.and_eq_true] at h
    obtain ⟨⟨hfits, hfree⟩, ⟨⟩⟩ := h
    refine ⟨m'.write (a + wordOf offset.value) op.width w, ?_, hm.write, visible_singleton ?_⟩
    · simp only [of?]
      have hok : (E.fits offset.value && E.free (a + wordOf offset.value) op.width) = true :=
        Bool.and_eq_true_iff.mpr ⟨hfits, free_of_veiled hfree⟩
      rw [if_pos hok]
      rfl
    · rintro b ⟨⟩
      exact not_hidden_of_free hfree (covers_self (by cases op <;> decide))
  · simp only [ite_none_right_eq_some] at h
    obtain ⟨hfits, ⟨⟩⟩ := h
    exact ⟨m', if_pos hfits, hm, rfl⟩
  · cases h
    exact ⟨m', rfl, hm, rfl⟩
  next op n =>
    obtain ⟨w, hw, rfl⟩ := map_eq_some_iff.mp h
    exact ⟨m', by simp only [of?, hw, map_some]; rfl, hm, rfl⟩
  iterate 2
    · cases h
      exact ⟨m', rfl, hm, rfl⟩
  · simp only [ite_none_right_eq_some] at h
    obtain ⟨hlength, h⟩ := h
    obtain ⟨e', he', rfl⟩ := map_eq_some_iff.mp h
    obtain ⟨m1, hserve, hm1, hevents⟩ := hask he'
    exact ⟨m1, by simp only [of?, hserve, if_pos hlength, map_some], hm1, hevents⟩
  · obtain ⟨e', he', rfl⟩ := map_eq_some_iff.mp h
    obtain ⟨m1, hserve, hm1, hevents⟩ := hask he'
    exact ⟨m1, by simp only [of?, hserve, map_some], hm1, hevents⟩
  · exact hask h
  iterate 4
    · cases h
      exact ⟨m', rfl, hm, rfl⟩
  · cases h

/-! ## Rows -/

theorem runRow?_cons_eq_some_iff {o : Op} : runRow? E (o :: ops) values s = some f ↔
      ∃ code args e values', o.machine? = some code ∧
        o.operands.mapM (fun v => values v.id) = some args ∧
        of? E code o.id args s.memory s.world = some e ∧
        values.define? o.results e.value = some values' ∧
        match e.course with
        | .on => runRow? E ops values'
            { memory := e.memory, world := e.world, trace := s.trace ++ e.events } = some f
        | .jump label => f = .out label values'
            { memory := e.memory, world := e.world, trace := s.trace ++ e.events }
        | .leave _ => False := by
  simp only [runRow?, bind_eq_bind, bind_eq_some_iff]
  constructor
  · rintro ⟨code, hcode, args, hargs, e, he, values', hvalues', h⟩
    refine ⟨code, args, e, values', hcode, hargs, he, hvalues', ?_⟩
    split at h
    next hcourse => simpa only [hcourse] using h
    next hcourse => simpa only [hcourse] using (Option.some.inj h).symm
    · cases h
  · rintro ⟨code, args, e, values', hcode, hargs, he, hvalues', h⟩
    refine ⟨code, hcode, args, hargs, e, he, values', hvalues', ?_⟩
    split
    next hcourse => rwa [hcourse] at h
    next hcourse =>
      rw [hcourse] at h
      exact congrArg some h.symm
    next hcourse =>
      rw [hcourse] at h
      exact h.elim

/-- A row that stays away from the hidden bytes runs alike whatever stands in them. -/
theorem runRow?_veiled (hblind : E.Blind hide) (hsees : Sees hide s S)
    (h : runRow? (E.veiled hide) ops values s = some f) :
    ∃ S', runRow? E ops values S = some (f.withStore S') ∧ Sees hide f.store S' := by
  induction ops generalizing values s S with
  | nil =>
    cases h
    exact ⟨S, rfl, hsees⟩
  | cons o _ ih =>
    obtain ⟨code, args, e, values', hcode, hargs, he, hvalues', h⟩ := runRow?_cons_eq_some_iff.mp h
    obtain ⟨_, he', hm1, hevents⟩ := of?_veiled hblind hsees.memory he
    rw [← hsees.world] at he'
    have hsees' := hsees.append hm1 e.world hevents
    split at h
    next hcourse =>
      obtain ⟨S', hrow, hS'⟩ := ih hsees' h
      refine ⟨S', runRow?_cons_eq_some_iff.mpr ⟨code, args, _, values', hcode, hargs, he', hvalues',
        ?_⟩, hS'⟩
      rw [hcourse]
      exact hrow
    next label hcourse =>
      subst h
      refine ⟨_, runRow?_cons_eq_some_iff.mpr ⟨code, args, _, values', hcode, hargs, he', hvalues',
        ?_⟩, hsees'⟩
      rw [hcourse]
      rfl
    · exact h.elim

theorem exists_target_of_out (h : runRow? E ops values s = some (.out label values' S)) :
    ∃ o ∈ ops, ∃ code, o.machine? = some code ∧ code.target? = some label := by
  induction ops generalizing values s with
  | nil => cases h
  | cons o _ ih =>
    obtain ⟨code, _, e, _, hcode, -, he, -, h⟩ := runRow?_cons_eq_some_iff.mp h
    split at h
    · obtain ⟨p, hp, hrest⟩ := ih h
      exact ⟨p, mem_cons_of_mem _ hp, hrest⟩
    next name hcourse =>
      cases h
      exact ⟨o, mem_cons_self, code, hcode, target?_of_jump he hcourse⟩
    · exact h.elim

theorem runRow?_label : runRow? E (.mk i (.machine (.label label) note) [] [] g :: ops) values s =
      runRow? E ops values s := by
  simp [runRow?, machine?, code, operands, results, of?, go, Env.define?]

theorem runRow?_func : runRow? E (.mk i (.machine (.func label) note) [] [] g :: ops) values s =
      runRow? E ops values s := by
  simp [runRow?, machine?, code, operands, results, of?, go, Env.define?]

theorem runRow?_jump :
    runRow? E (.mk i (.machine (.jump (.label label)) note) [] [] g :: ops) values s =
      some (.out label values s) := by
  simp [runRow?, machine?, code, operands, results, of?, go, Env.define?]

end

/-! ## Runs -/

inductive Goes (E : Surroundings ω) (exit : String) (body : List Op) (lo hi : Nat) :
    Nat → State ω → State ω → Prop where
  | here (st : State ω) : Goes E exit body lo hi 0 st st
  | step {k j : Nat} {st st₁ st₂ : State ω} (hplace : st.place = .at k) (hlo : lo ≤ k)
      (hhi : k < hi) (hstep : st.step? E exit body = some st₁)
      (hrest : Goes E exit body lo hi j st₁ st₂) : Goes E exit body lo hi (j + 1) st st₂

def stateOf (place : Spot) (values : Values) (s : Store ω) : State ω :=
  { place, values, memory := s.memory, world := s.world, trace := s.trace }

def Finish.place? (exit : String) (body : List Op) (k : Nat) : Finish ω → Option Spot
  | .on .. => some (.at k)
  | .out label .. => behind? exit body label

section
variable {E : Surroundings ω} {exit : String} {body : List Op} {lo hi lo' hi' i j : Nat}
  {st st1 st2 : State ω}

namespace Goes

theorem trans (h : Goes E exit body lo hi i st st1) (h' : Goes E exit body lo hi j st1 st2) :
    Goes E exit body lo hi (i + j) st st2 := by
  induction h with
  | here => rwa [zero_add]
  | step hplace hlo hhi hstep _ ih =>
    rw [add_right_comm]
    exact .step hplace hlo hhi hstep (ih h')

variable (h : Goes E exit body lo hi j st st1)
include h

theorem mono (hlo : lo' ≤ lo) (hhi : hi ≤ hi') : Goes E exit body lo' hi' j st st1 := by
  induction h with
  | here st => exact .here st
  | step hplace hle hlt hstep _ ih =>
    exact .step hplace (le_trans hlo hle) (lt_of_lt_of_le hlt hhi) hstep ih

theorem exists_of_le (hij : i ≤ j) : ∃ st2, Goes E exit body lo hi i st st2 := by
  induction h generalizing i with
  | here st =>
    obtain rfl := le_zero.mp hij
    exact ⟨st, .here st⟩
  | @step k j st st1 st2 hplace hlo hhi hstep _ ih =>
    cases i with
    | zero => exact ⟨st, .here st⟩
    | succ i =>
      obtain ⟨st3, h⟩ := ih (le_of_succ_le_succ hij)
      exact ⟨st3, .step hplace hlo hhi hstep h⟩

theorem le_of_left
    (hleft : ∀ k, st1.place = .at k → ¬(lo ≤ k ∧ k < hi)) (h' : Goes E exit body lo hi i st st2) :
    i ≤ j := by
  induction h generalizing i with
  | here st =>
    cases h' with
    | here => exact le_refl 0
    | step hplace hlo hhi => exact absurd ⟨hlo, hhi⟩ (hleft _ hplace)
  | step hplace hlo hhi hstep _ ih =>
    cases h' with
    | here => exact zero_le _
    | step _ _ _ hstep' hrest' =>
      rw [hstep] at hstep'
      cases hstep'
      exact succ_le_succ (ih hleft hrest')

end Goes

theorem goes_of_runRow {row : List Op} {k : Nat} {values : Values} {s : Store ω} {place : Spot}
    (hstands : StandsAt body k row) (hrow : runRow? E row values s = some f)
    (hplace : f.place? exit body (k + row.length) = some place) :
    ∃ j, Goes E exit body k (k + row.length) j (stateOf (.at k) values s)
      (stateOf place f.values f.store) ∧ (row ≠ [] → 0 < j) := by
  induction row generalizing k values s with
  | nil =>
    cases hrow
    cases hplace
    exact ⟨0, .here _, absurd rfl⟩
  | cons o os ih =>
    obtain ⟨code, args, e, values', hcode, hargs, he, hvalues', hrow⟩ :=
      runRow?_cons_eq_some_iff.mp hrow
    have hstep {next : Spot} (hnext : State.next? exit body k e.course = some next) :
        (stateOf (.at k) values s).step? E exit body = some (stateOf next values'
          { memory := e.memory, world := e.world, trace := s.trace ++ e.events }) :=
      State.step?_eq_some_iff.mpr ⟨_, o, code, args, e, values', next, rfl, hstands.head, hcode,
        hargs, he, hvalues', hnext, rfl⟩
    rw [length_cons, add_comm os.length, ← add_assoc] at hplace ⊢
    split at hrow
    next hcourse =>
      obtain ⟨j, hgoes, -⟩ := ih hstands.tail hrow hplace
      refine ⟨j + 1, .step rfl (le_refl k) (by omega) (hstep (by rw [hcourse]; rfl)) ?_,
        fun _ => succ_pos j⟩
      exact hgoes.mono (le_succ k) (le_refl _)
    next label hcourse =>
      subst hrow
      refine ⟨1, .step rfl (le_refl k) (by omega) (hstep ?_) (.here _), fun _ => one_pos⟩
      rw [hcourse]
      exact hplace
    · exact hrow.elim

theorem behind?_of_nodup {rest : List Op} {k : Nat} {name : String}
    (hlabels : (placedLabels body).Nodup)
    (hstands : StandsAt body k (acting i (.label name) [] :: rest)) :
    behind? exit body name = some (.at (k + 1)) := by
  obtain ⟨before, behind, rfl, rfl⟩ := hstands
  have hbefore : before.findIdx? (fun o => o.machine? == some (.label name)) = none := by
    refine List.findIdx?_eq_none_iff.mpr fun o ho => beq_eq_false_iff_ne.mpr fun hlabel => ?_
    rw [append_assoc, placedLabels_append, nodup_append] at hlabels
    refine hlabels.2.2 name (mem_filterMap.mpr ⟨o, ho, by rw [hlabel]⟩) name ?_ rfl
    exact mem_filterMap.mpr ⟨_, mem_cons_self, rfl⟩
  have hindex : labelIndex? (before ++ acting i (.label name) [] :: rest ++ behind) name =
      some before.length := by
    rw [labelIndex?, append_assoc, List.findIdx?_append, hbefore, cons_append, List.findIdx?_cons]
    simp [machine?, code]
  rw [behind?, hindex]
  simp [results]

end

end Practicum.Machine
