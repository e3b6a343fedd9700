import Practicum.Proofs.Machine.Hiding
import Practicum.Proofs.Machine.Rendering
import Practicum.Proofs.Machine.Straight

/-!
# Running the code for operations

The code for operations of the flat level runs as part of a function. Wherever it stands, it comes
to where the evaluation of the operations ends, and the values and the memory are then what the
evaluation says. This is shown for each kind of operation, from what is known of its blocks.
-/

namespace Practicum.Machine

open IR Riscv Flat Env Nat

variable {ω : Type}

/-! ## Layouts -/

/-- How the code of a function stands for the operations of the flat level: the values that are read
in the place of others, the operations that ask for memory on the stack in the place of others, and
those that ask for memory which the code uses on its own account. -/
structure Layout where
  value : Nat → Nat
  slot : Nat → Nat
  temps : List Nat

namespace Layout

variable (L : Layout) (E : Surroundings ω)

def hides (a : Word) : Bool :=
  L.temps.any fun t => Covers (E.slot t) 4 a

def meaning : Meaning Word (Store ω) String :=
  wordMeaning (E.veiled (L.hides E)) fun i => E.slot (L.slot i)

/-- The code has come as far as the evaluation of the operations: every value of the flat level with
a number below a bound is there, and so is everything that is seen outside. -/
structure Tracks (least : Nat) (W : Env Word) (s : Store ω) (V : Values) (S : Store ω) : Prop where
  values : ∀ x, x < least → ∀ w, W x = some w → V (L.value x) = some w
  sees : Sees (L.hides E) s S

/-- Surroundings in which the code can run: every number fits into an instruction, the memory that
the code uses on its own account is free, and requests have nothing to do with that memory. -/
structure Housed : Prop where
  fits : ∀ k, E.fits k
  temps : ∀ t ∈ L.temps, E.free (E.slot t) 4
  blind : E.Blind (L.hides E)

end Layout

/-- Where a function is after a number of steps, by how the evaluation of operations ended. -/
def Lands (n hi : Nat) (how : Ending Word String) (j : Nat) (place : Spot) : Prop :=
  match how with
  | .behind => place = .at hi
  | .returned w => place = .returned w
  | .failed label => place = .outside label
  | .starved => n ≤ j

/-- The code of a function, with what it finds when it runs. Every label stands once in it, and the
labels for failures and for the end of the function stand elsewhere. -/
structure Scene (ω : Type) where
  E : Surroundings ω
  layout : Layout
  least : Nat
  exit : String
  body : List Op
  housed : layout.Housed E
  labels : (placedLabels body).Nodup
  exit_away : exit ∉ placedLabels body
  library_away : ∀ label ∈ labelsOf Runtime.library, label ∉ placedLabels body ∧ label ≠ exit

namespace Scene

variable (T : Scene ω)

abbrev meaning : Meaning Word (Store ω) String :=
  T.layout.meaning T.E

abbrev Tracks (W : Env Word) (s : Store ω) (V : Values) (S : Store ω) : Prop :=
  T.layout.Tracks T.E T.least W s V S

/-- From a place in a range the code comes to where the evaluation of operations ends, and changes
some values only. -/
def Reaches (n lo hi k : Nat) (own : Nat → Prop) (V : Values) (S : Store ω) :
    Flat.Outcome Word (Store ω) String → Prop
  | .ended how W s => ∃ j place V' S',
    Goes T.E T.exit T.body lo hi j (stateOf (.at k) V S) (stateOf place V' S') ∧
      T.Tracks W s V' S' ∧ Lands n hi how j place ∧ ∀ id, ¬own id → V' id = V id
  | .stuck => True

/-- Wherever some operations stand in the code, they come to where an evaluation ends. -/
def Runs (n : Nat) (ops : List Op) (own : Nat → Prop)
    (run : Env Word → Store ω → Flat.Outcome Word (Store ω) String) : Prop :=
  ∀ k W s V S, StandsAt T.body k ops → T.Tracks W s V S →
    T.Reaches n k (k + ops.length) k own V S (run W s)

/-- Operations come to where the evaluation of a block ends, and then its value is there. -/
structure RunsTo (n : Nat) (ops : List Op) (own : Nat → Prop) (r : Region Word (Store ω) String)
    (v : Val) : Prop where
  runs : T.Runs n ops own r.run
  value : ∃ x, r.value = some x ∧ x < T.least ∧ T.layout.value x = v.id

/-- The numbers of the code for an operation are read by no one, apart from that of its value, which
is read in the place of its result. -/
structure Owns (start stop : Nat) (value : Option Val) (results : List Val) : Prop where
  image : ∀ x, x < T.least → start ≤ T.layout.value x → T.layout.value x < stop →
    ∃ r ∈ results, r.id = x ∧ ∃ v, value = some v ∧ T.layout.value x = v.id
  result : ∀ r v, results = [r] → value = some v → T.layout.value r.id = v.id

section
variable {T : Scene ω} {n n' lo lo' hi mid k k' j start stop i : Nat} {own own' : Nat → Prop}
  {V V' : Values} {S S' : Store ω} {W W' : Env Word} {s s' : Store ω}
  {o : Flat.Outcome Word (Store ω) String}
  {next run : Env Word → Store ω → Flat.Outcome Word (Store ω) String}
  {xs X os ops : List Op} {f : Finish ω} {value : Option Val} {results : List Val}
  {r : Region Word (Store ω) String} {v : Val} {w : Word} {E : Surroundings ω}

/-! ## Values -/

theorem Owns.unsettled (h : T.Owns start stop value results) (htracks : T.Tracks W s V S)
    (hV' : Unsettled V start stop value V') : T.Tracks W s V' S := by
  refine ⟨fun x hx w hw => ?_, htracks.sees⟩
  rw [hV' _ ?_]
  · exact htracks.values x hx w hw
  by_cases hrange : start ≤ T.layout.value x ∧ T.layout.value x < stop
  · obtain ⟨_, -, -, v, hv, hid⟩ := h.image x hx hrange.1 hrange.2
    exact .inr (.inr ⟨v, hv, hid.symm⟩)
  · omega

theorem Owns.concluded (h : T.Owns start stop value results) (htracks : T.Tracks W s V S)
    {w : Option Word} (hV' : Concluded V start stop value results w V')
    (hW' : W.define? results w = some W') (hsees : Sees (T.layout.hides T.E) s' S') :
    T.Tracks W' s' V' S' := by
  refine ⟨fun x hx u hu => ?_, hsees⟩
  have hother (hx' : ∀ r ∈ results, r.id ≠ x) : V' (T.layout.value x) = V (T.layout.value x) := by
    refine hV'.1 _ ?_
    by_contra hrange
    obtain ⟨r, hr, hid, -⟩ := h.image x hx (by omega) (by omega)
    exact hx' r hr hid
  obtain ⟨rfl, rfl⟩ | ⟨r, y, rfl, rfl, rfl⟩ := define?_cases hW'
  · rw [hother nofun]
    exact htracks.values x hx u hu
  by_cases hr : x = r.id
  · subst hr
    rw [set_self] at hu
    cases hu
    obtain hnil | hsome := hV'.2
    · cases hnil
    obtain ⟨v, hv, hvalue⟩ := hsome u rfl
    rw [h.result r v rfl hv]
    exact hvalue
  · rw [set_of_ne hr] at hu
    rw [hother (by simpa using Ne.symm hr)]
    exact htracks.values x hx u hu

/-! ## Steps -/

theorem Reaches.here (hk : k = hi) (h : T.Tracks W s V S) :
    T.Reaches n lo hi k own V S (.ended .behind W s) :=
  ⟨0, _, V, S, .here _, h, congrArg Spot.at hk, fun _ _ => rfl⟩

theorem Reaches.mono (h : T.Reaches n lo hi k own V S o) (hn : n' ≤ n) (hlo : lo' ≤ lo)
    (hown : ∀ id, own id → own' id) : T.Reaches n' lo' hi k own' V S o := by
  cases o with
  | stuck => trivial
  | ended how W s =>
    obtain ⟨j, place, V', S', hgoes, htracks, hlands, hframe⟩ := h
    refine ⟨j, place, V', S', hgoes.mono hlo (le_refl _), htracks, ?_,
      fun id hid => hframe id fun hown' => hid (hown id hown')⟩
    cases how
    case starved => exact le_trans hn hlands
    all_goals exact hlands

theorem Reaches.goes
    (hgoes : Goes T.E T.exit T.body lo hi j (stateOf (.at k) V S) (stateOf (.at k') V' S'))
    (hframe : ∀ id, ¬own id → V' id = V id) (hn : n ≤ n' + j)
    (h : T.Reaches n' lo hi k' own V' S' o) : T.Reaches n lo hi k own V S o := by
  cases o with
  | stuck => trivial
  | ended how W s =>
    obtain ⟨i, place, V'', S'', hgoes', htracks, hlands, hframe'⟩ := h
    refine ⟨j + i, place, V'', S'', hgoes.trans hgoes', htracks, ?_,
      fun id hid => (hframe' id hid).trans (hframe id hid)⟩
    cases how
    case starved =>
      rw [Lands] at hlands ⊢
      omega
    all_goals exact hlands

/-- A row of operations takes a step at least. -/
theorem Reaches.row {x : Op} (hstands : StandsAt T.body j (x :: xs))
    (hrow : runRow? T.E (x :: xs) V S = some f)
    (hplace : f.place? T.exit T.body (k + (x :: xs).length) = some (.at k'))
    (hframe : ∀ id, ¬own id → f.values id = V id)
    (h : T.Reaches (n - 1) lo hi k' own f.values f.store o)
    (hat : k = j ∧ lo ≤ k ∧ k + (x :: xs).length ≤ hi := by simp <;> omega) :
    T.Reaches n lo hi k own V S o := by
  obtain ⟨rfl, hlo, hhi⟩ := hat
  obtain ⟨i, hgoes, hi⟩ := goes_of_runRow hstands hrow hplace
  have := hi nofun
  exact .goes (hgoes.mono hlo hhi) hframe (by omega) h

theorem Reaches.bind (h : T.Reaches n lo mid k own V S o) (hlo : lo' ≤ lo) (hmid : mid ≤ hi)
    (hown : ∀ id, own id → own' id)
    (hnext : ∀ W s V' S', T.Tracks W s V' S' → (∀ id, ¬own id → V' id = V id) →
      T.Reaches n lo' hi mid own' V' S' (next W s)) :
    T.Reaches n lo' hi k own' V S (o.andThen next) := by
  cases o with
  | stuck => trivial
  | ended how W s =>
    obtain ⟨j, place, V', S', hgoes, htracks, hlands, hframe⟩ := h
    have hframe' (id : Nat) (hid : ¬own' id) : V' id = V id :=
      hframe id fun hown' => hid (hown id hown')
    cases how
    case behind =>
      cases hlands
      have hrest := hnext W s V' S' htracks hframe
      exact .goes (hgoes.mono hlo hmid) hframe' (le_add_right n j) hrest
    all_goals exact ⟨j, place, V', S', hgoes.mono hlo hmid, htracks, hlands, hframe'⟩

theorem Runs.andThen (h : T.Runs n X own run) (hstands : StandsAt T.body j X)
    (htracks : T.Tracks W s V S) (hown : ∀ id, own id → own' id)
    (hnext : ∀ W s V' S', T.Tracks W s V' S' → (∀ id, ¬own id → V' id = V id) →
      T.Reaches n' lo hi (k + X.length) own' V' S' (next W s))
    (hat : n' ≤ n ∧ k = j ∧ lo ≤ k ∧ k + X.length ≤ hi := by simp <;> omega) :
    T.Reaches n' lo hi k own' V S ((run W s).andThen next) := by
  obtain ⟨hn, rfl, hlo, hhi⟩ := hat
  have hrun := (h k W s V S hstands htracks).mono hn (le_refl k) fun _ => id
  exact hrun.bind hlo hhi hown hnext

theorem RunsTo.valued {next : Word → Env Word → Store ω → Flat.Outcome Word (Store ω) String}
    (h : T.RunsTo n X own r v) (hstands : StandsAt T.body j X) (htracks : T.Tracks W s V S)
    (hown : ∀ id, own id → own' id)
    (hnext : ∀ w W s V' S', T.Tracks W s V' S' → V' v.id = some w → (∀ id, ¬own id → V' id = V id) →
      T.Reaches n' lo hi (k + X.length) own' V' S' (next w W s))
    (hat : n' ≤ n ∧ k = j ∧ lo ≤ k ∧ k + X.length ≤ hi := by simp <;> omega) :
    T.Reaches n' lo hi k own' V S (r.valued W s next) := by
  obtain ⟨x, hx, hlt, hid⟩ := h.value
  refine h.runs.andThen hstands htracks hown (fun W s V' S' htracks hframe => ?_) hat
  rw [hx, Option.bind_some]
  cases hw : W x with
  | none => trivial
  | some w => exact hnext w W s V' S' htracks (hid ▸ htracks.values x hlt w hw) hframe

theorem eq_truthWord_of_truth? {b : Bool} (h : truth? w = some b) : w = truthWord b := by
  unfold truth? at h
  split at h
  next hw =>
    cases h
    exact hw
  split at h
  next hw =>
    cases h
    exact hw
  · cases h

theorem truthWord_inj {b c : Bool} (h : truthWord b = truthWord c) : b = c := by
  cases b <;> cases c <;> simp [truthWord] at h ⊢

theorem reaches_test {next : Bool → Flat.Outcome Word (Store ω) String}
    (h : ∀ b, w = truthWord b → T.Reaches n lo hi k own V S (next b)) :
    T.Reaches n lo hi k own V S (T.meaning.test (some w) next) := by
  rw [Meaning.test, Option.bind_some]
  cases hw : T.meaning.truth? w with
  | none => trivial
  | some b => exact h b (eq_truthWord_of_truth? hw)

/-! ## Operations without blocks -/

theorem labelIndex?_eq_none {name : String} (h : name ∉ placedLabels ops) :
    labelIndex? ops name = none := by
  refine List.findIdx?_eq_none_iff.mpr fun o ho => beq_eq_false_iff_ne.mpr fun hlabel => h ?_
  exact List.mem_filterMap.mpr ⟨o, ho, by rw [hlabel]⟩

theorem runs_straight {code : FlatCode} {label id : Nat} {p : Op} {yields : Nat → Option Val}
    {e : Emit Code} {operands : List Val} (he : emission label code p yields = some e)
    (hnests : nests code = false) (hret : code ≠ .ret)
    (howns : T.Owns start (e.run start).2 (e.run start).1.value p.results)
    (hslot : T.layout.slot id = slotAt code start)
    (hargs : ∀ W s V S args, T.Tracks W s V S → operands.mapM (fun v => W v.id) = some args →
      p.operands.mapM (fun v => V v.id) = some args)
    (hclear : ∀ v ∈ p.operands, v.id < start ∨ (e.run start).2 ≤ v.id) :
    T.Runs n (e.run start).1.ops (fun id => start ≤ id ∧ id < (e.run start).2)
      (T.meaning.straight code id operands p.results) := by
  intro k W s V S hstands htracks
  unfold Meaning.straight
  cases hmap : operands.mapM fun v => W v.id with
  | none => trivial
  | some args =>
    obtain ⟨E, hE⟩ : ∃ E, E = T.E.veiled (T.layout.hides T.E) := ⟨_, rfl⟩
    have hfits : ∀ k, E.fits k := hE ▸ T.housed.fits
    have hperforms := emission_performs (s := s) hfits he hnests hret
      (hargs W s V S args htracks hmap) hclear
    have hoperate : T.meaning.operate code id args W s =
        (Act.operate E code (E.slot (slotAt code start)) args).answer s := by
      rw [← hslot, hE]
      rfl
    dsimp only
    rw [hoperate, Act.answer]
    unfold Executes Performs at hperforms
    split at hperforms
    next w s' hrun =>
      obtain ⟨V', hrow, hconcluded⟩ := hperforms
      rw [hE] at hrow
      obtain ⟨S', hrow', hsees⟩ := runRow?_veiled T.housed.blind htracks.sees hrow
      obtain ⟨j, hgoes, -⟩ := goes_of_runRow hstands hrow' rfl
      simp only [hrun, conclude]
      cases hdefine : W.define? p.results w with
      | none => trivial
      | some _ =>
        refine ⟨j, _, V', S', hgoes, howns.concluded htracks hconcluded hdefine hsees, rfl,
          fun id hid => hconcluded.1 id ?_⟩
        omega
    next label s' hrun =>
      obtain ⟨V', hrow, hunsettled⟩ := hperforms
      rw [hE] at hrow
      obtain ⟨S', hrow', hsees⟩ := runRow?_veiled T.housed.blind htracks.sees hrow
      obtain ⟨x, hx, c, hc, htarget⟩ := exists_target_of_out hrow'
      obtain ⟨_, hmade, hsober⟩ := (emission_straight hnests
        (fun _ _ => .inr (.inr (.inr trivial))) he start (le_refl _)).2 x hx
      obtain rfl := Option.some.inj (hmade.machine?.symm.trans hc)
      obtain ⟨haway, hexit⟩ := T.library_away label (hsober.target label htarget)
      have hplace : behind? T.exit T.body label = some (.outside label) := by
        rw [behind?, labelIndex?_eq_none haway]
        exact congrArg some (if_neg hexit)
      obtain ⟨j, hgoes, -⟩ := goes_of_runRow hstands hrow' hplace
      simp only [hrun]
      refine ⟨j, _, V', S', hgoes, ⟨(howns.unsettled htracks hunsettled).values, hsees⟩, rfl,
        fun id hid => hunsettled id ?_⟩
      omega
    next hrun =>
      simp only [hrun]
      trivial

/-! ## Operations with blocks -/

def kept (S : Store ω) (p w : Word) : Store ω :=
  { S with memory := S.memory.write p 4 w, trace := S.trace ++ [.store .sw p w] }

def recalled (S : Store ω) (p : Word) : Store ω :=
  { S with trace := S.trace ++ [.load .lw p (S.memory.word p)] }

theorem runRow?_keep {a b : Val} {p : Word} (hfits : E.fits 0) (hfree : E.free p 4)
    (ha : V a.id = some w) (hb : V b.id = some p) :
    runRow? E (acting i (.store .sw (word 0)) [a, b] :: os) V S = runRow? E os V (kept S p w) := by
  refine runRow?_store hfits ha hb ?_
  rw [word_add_zero]
  simp only [Act.write, StateT.run, hfree]
  rfl

theorem runRow?_recall {a : Val} {p : Word} (hfits : E.fits 0) (hfree : E.free p 4)
    (ha : V a.id = some p) : runRow? E (giving i (.load .lw (word 0)) [a] :: os) V S =
      runRow? E os (V.set i (S.memory.word p)) (recalled S p) := by
  refine runRow?_load hfits ha ?_
  rw [word_add_zero]
  simp only [Act.read, StateT.run, hfree]
  rfl

section
variable {t : Nat}
variable {X0 X1 : List Op} {a b : Val}

section
variable (ht : t ∈ T.layout.temps)
include ht

theorem hides_of_mem {b : Word} (hb : Covers (T.E.slot t) 4 b) : T.layout.hides T.E b = true :=
  List.any_eq_true.mpr ⟨t, ht, decide_eq_true hb⟩

theorem tracks_kept (h : T.Tracks W s V S) : T.Tracks W s V (kept S (T.E.slot t) w) := by
  refine ⟨h.values, h.sees.hidden (agree_write fun b hb => hides_of_mem ht hb) ?_⟩
  simp [visible, Event.address?, hides_of_mem ht (covers_self (n := 4) (by omega))]

theorem tracks_recalled (h : T.Tracks W s V S) : T.Tracks W s V (recalled S (T.E.slot t)) := by
  refine ⟨h.values, h.sees.hidden (fun _ _ => rfl) ?_⟩
  simp [visible, Event.address?, hides_of_mem ht (covers_self (n := 4) (by omega))]

theorem reaches_recall (hstands : StandsAt T.body j [giving i (.load .lw (word 0)) [a]])
    (howns : T.Owns start stop (some (reg i)) results) (ha : V a.id = some (T.E.slot t))
    (htracks : T.Tracks W s V S)
    (hat : (start ≤ i ∧ i < stop) ∧ k = j ∧ hi = k + 1 ∧ lo ≤ k := by simp <;> omega) :
    T.Reaches n lo hi k (fun id => (start ≤ id ∧ id < stop) ∨ own id) V (kept S (T.E.slot t) w)
      (conclude W results (some w) s) := by
  obtain ⟨hi', rfl, rfl, hlo⟩ := hat
  unfold conclude
  cases hdefine : W.define? results (some w) with
  | none => trivial
  | some _ =>
    have hrow : runRow? T.E [giving i (.load .lw (word 0)) [a]] V (kept S (T.E.slot t) w) = _ :=
      runRow?_recall (T.housed.fits 0) (T.housed.temps t ht) ha
    have hword : (kept S (T.E.slot t) w).memory.word (T.E.slot t) = w := Memory.word_write
    rw [hword] at hrow
    refine .row hstands hrow rfl (fun id hid => set_of_ne (by omega)) (.here rfl ?_) (by simpa)
    have hset : Settled V start stop (some (reg i)) (some w) (V.set i w) :=
      .of_set (fun _ _ => rfl) hi'
    refine howns.concluded htracks hset.concluded hdefine ?_
    exact (tracks_recalled ht (tracks_kept ht htracks)).sees

theorem reaches_keep {i' i'' : Nat} {after : String}
    (hstands : StandsAt T.body j [acting i (.store .sw (word 0)) [b, a],
      acting i' (.label after) [], giving i'' (.load .lw (word 0)) [a]])
    (howns : T.Owns start stop (some (reg i'')) results) (ha : V a.id = some (T.E.slot t))
    (hb : V b.id = some w) (htracks : T.Tracks W s V S)
    (hat : (start ≤ i'' ∧ i'' < stop) ∧ k = j ∧ hi = k + 3 ∧ lo ≤ k := by simp <;> omega) :
    T.Reaches n lo hi k (fun id => (start ≤ id ∧ id < stop) ∨ own id) V S
      (conclude W results (some w) s) := by
  obtain ⟨hi', rfl, rfl, hlo⟩ := hat
  have hrow : runRow? T.E [acting i (.store .sw (word 0)) [b, a], acting i' (.label after) []] V S =
      some (.on V (kept S (T.E.slot t) w)) :=
    (runRow?_keep (T.housed.fits 0) (T.housed.temps t ht) hb ha).trans runRow?_label
  have hsplit : StandsAt T.body k ([acting i (.store .sw (word 0)) [b, a],
      acting i' (.label after) []] ++ [giving i'' (.load .lw (word 0)) [a]]) := hstands
  refine .row hsplit.left hrow rfl (fun _ _ => rfl) ?_
  exact reaches_recall ht hsplit.right howns ha htracks

end

theorem runs_lazily {op after : String} {settling : Int} {stop : Bool}
    {lhs rhs : Region Word (Store ω) String} (hop : settling? op = some stop)
    (hsettling : wordOf settling = truthWord stop) (ht : start + 1 ∈ T.layout.temps)
    (howns : T.Owns start (start + 10) (some (reg (start + 8))) results)
    (hlhs : T.RunsTo n X0 own lhs a) (hrhs : T.RunsTo n X1 own rhs b)
    (hapart : ∀ id, start ≤ id ∧ id < start + 10 → ¬own id) :
    T.Runs n ((lazyOperator after settling X0 a X1 b).run start).1.ops
      (fun id => (start ≤ id ∧ id < start + 10) ∨ own id)
      (T.meaning.lazily op lhs rhs results) := by
  intro k W s V S hstands htracks
  rw [run_lazyOperator] at hstands ⊢
  rw [Meaning.lazily, hop]
  obtain ⟨V1, hV1⟩ : ∃ V1, V1 = (V.set start (T.E.slot (start + 1))).set (start + 2)
    (wordOf settling) := ⟨_, rfl⟩
  have hrow1 : runRow? T.E [giving start .alloc [],
      giving (start + 2) (.constant .li (word settling)) []] V S = some (.on V1 S) :=
    runRow?_alloc.trans (runRow?_constant.trans (by rw [hV1]; rfl))
  have hframe1 (id : Nat) (hid : id ≠ start) (hid' : id ≠ start + 2) : V1 id = V id := by
    rw [hV1, set_of_ne hid', set_of_ne hid]
  have htracks1 : T.Tracks W s V1 S :=
    howns.unsettled htracks (.of_frame fun id hid => hframe1 id (by omega) (by omega))
  have hslot1 : V1 start = some (T.E.slot (start + 1)) := by
    rw [hV1, set_of_ne (by omega), set_self]
  have hword1 : V1 (start + 2) = some (truthWord stop) := by
    rw [hV1, set_self, hsettling]
  refine .row hstands.left.left.left.left hrow1 rfl
    (fun id hid => hframe1 id (by omega) (by omega)) ?_
  refine hlhs.valued hstands.left.left.left.right htracks1 (fun id => .inr)
    fun w _ _ V2 S2 htracks2 hw hframe2 => reaches_test fun c hc => ?_
  have hslot2 : V2 start = some (T.E.slot (start + 1)) :=
    (hframe2 start (hapart start (by omega))).trans hslot1
  have hword2 : V2 (start + 2) = some (truthWord stop) :=
    (hframe2 _ (hapart _ (by omega))).trans hword1
  have hrow2 : runRow? T.E [acting (start + 4) (.store .sw (word 0)) [a, reg start],
      acting (start + 5) (.branch .beq (.label after)) [a, reg (start + 2)]] V2 S2 =
      if w = truthWord stop then some (.out after V2 (kept S2 (T.E.slot (start + 1)) w))
      else some (.on V2 (kept S2 (T.E.slot (start + 1)) w)) :=
    (runRow?_keep (T.housed.fits 0) (T.housed.temps _ ht) hw hslot2).trans
      (runRow?_branch hw hword2)
  by_cases hstop : c = stop
  · rw [if_pos hstop]
    rw [if_pos (hc.trans (congrArg truthWord hstop))] at hrow2
    refine .row hstands.left.left.right hrow2 (behind?_of_nodup T.labels hstands.right.tail)
      (fun _ _ => rfl) ?_
    exact reaches_recall ht hstands.right.tail.tail howns hslot2 htracks2
  · rw [if_neg hstop]
    rw [if_neg (hc ▸ fun heq => hstop (truthWord_inj heq))] at hrow2
    refine .row hstands.left.left.right hrow2 rfl (fun _ _ => rfl) ?_
    refine hrhs.valued hstands.left.right (tracks_kept ht htracks2)
      (fun id => .inr) fun u _ _ V3 _ htracks3 hu hframe3 => ?_
    have hslot3 : V3 start = some (T.E.slot (start + 1)) :=
      (hframe3 start (hapart start (by omega))).trans hslot2
    exact reaches_keep ht hstands.right howns hslot3 hu htracks3

theorem runs_choice {label x : Nat} {cond : Val} {yes no : Region Word (Store ω) String}
    (hx : x < T.least) (hcond : T.layout.value x = cond.id) (ht : start + 3 ∈ T.layout.temps)
    (howns : T.Owns start (start + 12) (some (reg (start + 10))) results)
    (hyes : T.RunsTo n X0 own yes a) (hno : T.RunsTo n X1 own no b)
    (hapart : ∀ id, start ≤ id ∧ id < start + 12 → ¬own id) :
    T.Runs n ((choice label cond X0 a X1 b).run start).1.ops
      (fun id => (start ≤ id ∧ id < start + 12) ∨ own id)
      (fun W s => T.meaning.test (W x) fun c => (if c then yes else no).valued W s
        fun v W s => conclude W results (some v) s) := by
  intro k W s V S hstands htracks
  rw [run_choice] at hstands ⊢
  dsimp only at hstands ⊢
  cases hw : W x with
  | none => trivial
  | some w =>
    refine reaches_test fun c hc => ?_
    obtain ⟨V1, hV1⟩ : ∃ V1, V1 = (V.set start 0).set (start + 2) (T.E.slot (start + 3)) :=
      ⟨_, rfl⟩
    have hframe1 (id : Nat) (hid : id ≠ start) (hid' : id ≠ start + 2) : V1 id = V id := by
      rw [hV1, set_of_ne hid', set_of_ne hid]
    have htracks1 : T.Tracks W s V1 S :=
      howns.unsettled htracks (.of_frame fun id hid => hframe1 id (by omega) (by omega))
    have hcond1 : V1 cond.id = some w := hcond ▸ htracks1.values x hx w hw
    have hzero1 : V1 start = some 0 := by rw [hV1, set_of_ne (by omega), set_self]
    have hslot1 : V1 (start + 2) = some (T.E.slot (start + 3)) := by rw [hV1, set_self]
    have hrow1 : runRow? T.E [giving start (.constant .li (word 0)) [],
        giving (start + 2) .alloc [],
        acting (start + 4) (.branch .beq (.label (numbered "_if_expr_else_" label)))
          [cond, reg start]] V S =
        if w = 0 then some (.out (numbered "_if_expr_else_" label) V1 S) else some (.on V1 S) := by
      refine runRow?_constant.trans (runRow?_alloc.trans ?_)
      rw [hV1] at hcond1 hzero1 ⊢
      exact runRow?_branch hcond1 hzero1
    have hslot {V' : Values} (hV' : ∀ id, ¬own id → V' id = V1 id) :
        V' (start + 2) = some (T.E.slot (start + 3)) :=
      (hV' _ (hapart _ (by omega))).trans hslot1
    cases c with
    | false =>
      rw [if_pos (show w = 0 from hc)] at hrow1
      refine .row hstands.left.left.left.left hrow1
        (behind?_of_nodup T.labels hstands.left.left.right.tail.tail)
        (fun id hid => hframe1 id (by omega) (by omega)) ?_
      refine hno.valued hstands.left.right htracks1 (fun id => .inr)
        fun u _ _ V2 S2 htracks2 hu hframe2 => ?_
      exact reaches_keep ht hstands.right howns (hslot hframe2) hu htracks2
    | true =>
      rw [if_neg (by rw [hc]; decide)] at hrow1
      refine .row hstands.left.left.left.left hrow1 rfl
        (fun id hid => hframe1 id (by omega) (by omega)) ?_
      refine hyes.valued hstands.left.left.left.right htracks1 (fun id => .inr)
        fun u _ _ V2 S2 htracks2 hu hframe2 => ?_
      have hrow2 : runRow? T.E [acting (start + 5) (.store .sw (word 0)) [a, reg (start + 2)],
          acting (start + 6) (.jump (.label (numbered "_if_expr_after_" label))) [],
          acting (start + 7) (.label (numbered "_if_expr_else_" label)) []] V2 S2 =
          some (.out (numbered "_if_expr_after_" label) V2 (kept S2 (T.E.slot (start + 3)) u)) :=
        (runRow?_keep (T.housed.fits 0) (T.housed.temps _ ht) hu (hslot hframe2)).trans runRow?_jump
      refine .row hstands.left.left.right hrow2 (behind?_of_nodup T.labels hstands.right.tail)
        (fun _ _ => rfl) ?_
      exact reaches_recall ht hstands.right.tail.tail howns (hslot hframe2) htracks2

/-- The code for a loop comes to where the loop ends, or makes as many steps as the loop has
turns. -/
theorem runs_loop {label : Nat} {cond body : Region Word (Store ω) String}
    (howns : T.Owns start (start + 6) none results) (hcond : T.RunsTo n X0 own cond v)
    (hloop : T.Runs n X1 own body.run) (hapart : ∀ id, start ≤ id ∧ id < start + 6 → ¬own id) :
    T.Runs n ((loop label X0 v X1).run start).1
      (fun id => (start ≤ id ∧ id < start + 6) ∨ own id) (T.meaning.repeated cond body n) := by
  intro k W s V S hstands htracks
  rw [run_loop] at hstands ⊢
  -- from the label at the beginning on, for every number of turns
  have hturns (hi : Nat) (hhi : hi = k + (X0.length + X1.length + 5)) (t : Nat) (ht : t ≤ n)
      (W : Env Word) (s : Store ω) (V : Values) (S : Store ω) (htracks : T.Tracks W s V S)
      (hzero : V start = some 0) :
      T.Reaches t k hi (k + 2) (fun id => (start ≤ id ∧ id < start + 6) ∨ own id) V S
        (T.meaning.repeated cond body t W s) := by
    induction t generalizing W s V S with
    | zero => exact ⟨0, _, V, S, .here _, htracks, le_refl 0, fun _ _ => rfl⟩
    | succ t ih =>
      refine hcond.valued hstands.left.left.left.right htracks (fun id => .inr)
        fun w _ _ V2 S2 htracks2 hw hframe2 => reaches_test fun c hc => ?_
      have hzero2 : V2 start = some 0 :=
        (hframe2 start (hapart start (by omega))).trans hzero
      have hrow2 : runRow? T.E [acting (start + 3)
          (.branch .beq (.label (numbered "_while_after_" label))) [v, reg start]] V2 S2 =
          if w = 0 then some (.out (numbered "_while_after_" label) V2 S2) else some (.on V2 S2) :=
        runRow?_branch hw hzero2
      cases c with
      | false =>
        rw [if_pos (show w = 0 from hc)] at hrow2
        refine .row hstands.left.left.right hrow2 (behind?_of_nodup T.labels hstands.right.tail)
          (fun _ _ => rfl) ?_
        exact .here (by simp; omega) htracks2
      | true =>
        rw [if_neg (by rw [hc]; decide)] at hrow2
        refine .row hstands.left.left.right hrow2 rfl (fun _ _ => rfl) ?_
        refine hloop.andThen hstands.left.right htracks2 (fun id => .inr)
          fun W3 s3 V3 S3 htracks3 hframe3 => ?_
        have hzero3 : V3 start = some 0 :=
          (hframe3 start (hapart start (by omega))).trans hzero2
        refine .row hstands.right runRow?_jump
          (behind?_of_nodup T.labels hstands.left.left.left.left.tail) (fun _ _ => rfl) ?_
        exact (ih (by omega) W3 s3 V3 S3 htracks3 hzero3).mono (by omega) (le_refl k) fun _ => id
  have hrow1 : runRow? T.E [giving start (.constant .li (word 0)) [],
      acting (start + 2) (.label (numbered "_while_start_" label)) []] V S =
      some (.on (V.set start 0) S) := runRow?_constant.trans runRow?_label
  have htracks1 : T.Tracks W s (V.set start 0) S :=
    howns.unsettled htracks fun id hid => set_of_ne (by
      obtain hid | hid | ⟨_, ⟨⟩, -⟩ := hid <;> omega)
  refine .row hstands.left.left.left.left hrow1 rfl (fun id hid => set_of_ne (by omega)) ?_
  exact (hturns _ (by simp; omega) n (le_refl n) W s _ S htracks1 set_self).mono
    (sub_le n 1) (le_refl k) fun _ => id

end

/-! ## Lists of operations -/

theorem Runs.mono (h : T.Runs n X own run) (hown : ∀ id, own id → own' id) : T.Runs n X own' run :=
  fun k W s V S hstands htracks =>
    (h k W s V S hstands htracks).mono (le_refl n) (le_refl k) hown

theorem runs_nil : T.Runs n [] own (fun W s => .ended .behind W s) :=
  fun _ _ _ _ _ _ htracks => .here rfl htracks

theorem Runs.append {Y : List Op} {run' : Env Word → Store ω → Flat.Outcome Word (Store ω) String}
    (h : T.Runs n X own run) (h' : T.Runs n Y own run') :
    T.Runs n (X ++ Y) own (fun W s => (run W s).andThen run') := by
  intro k W s V S hstands htracks
  refine h.andThen hstands.left htracks (fun _ => id) fun W s V' S' htracks _ => ?_
  have hrest := (h' _ W s V' S' hstands.right htracks).mono (le_refl n) (le_add_right k _)
    fun _ => id
  rwa [List.length_append, ← add_assoc]

theorem runs_func {func : String} {args : List Val} :
    T.Runs n [funcOp start func args ops] own (fun W s => .ended .behind W s) := by
  intro k W s V S hstands htracks
  exact .row hstands runRow?_func rfl (fun _ _ => rfl) (.here rfl htracks)

theorem runs_ret {operands operands' : List Val} {regions : List (Region Word (Store ω) String)}
    (hargs : ∀ W s V S args, T.Tracks W s V S → operands.mapM (fun v => W v.id) = some args →
      operands'.mapM (fun v => V v.id) = some args) : T.Runs n [acting start .ret operands'] own
      (T.meaning.perform n i (.flat .ret) operands results regions) := by
  intro k W s V S hstands htracks
  unfold Meaning.perform
  dsimp only
  split
  next v hv =>
    refine ⟨1, .returned v, V, S, .step rfl (le_refl k) (lt_succ_self k) ?_ (.here _),
      htracks, rfl, fun _ _ => rfl⟩
    have hnext : State.next? T.exit T.body k (.leave v) = some (.returned v) :=
      if_pos (labelIndex?_eq_none T.exit_away)
    exact State.step?_eq_some_iff.mpr ⟨k, _, .ret, [v], Effect.go (.leave v) S.memory S.world, V, _,
      rfl, hstands.head, rfl, hargs W s V S [v] htracks hv, rfl, rfl, hnext, by
        simp [stateOf, Effect.go]⟩
  · trivial

end

end Scene

end Practicum.Machine
