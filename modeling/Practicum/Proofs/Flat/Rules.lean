import Practicum.Proofs.Flat.Making

/-!
# The rules of flattening make regular operations

Every rule that makes a piece of a program flat keeps to the ledger: if the parts of the piece give
regular operations and values of the natures that their types promise, then so does the piece.
-/

namespace Practicum.Flat

open Choco IR List Makes

variable {r : Computed} {func : String} {v : Val} {scope : Scope}

variable {α β : Type} {K : String → Prop} {L L0 L' : Ledger} {n n0 n' s : Nat} {a b c : Nature}
  {Q : Ledger → Nat → α → Prop} {R : Ledger → Nat → β → Prop}
variable {x y : Flatten Computed} {rs : List Computed} {type : Ty}

/-- A computation makes something whenever it runs from now on. -/
def Always (L : Ledger) (n : Nat) (Q : Ledger → Nat → α → Prop) (x : Flatten α) : Prop :=
  ∀ L' n', L.Extends n L' n' → Makes L' n' Q x

theorem Always.andThen {x : Flatten α} {f : α → Flatten β} (hx : Always L0 n0 Q x)
    (hs : L0.Extends n0 L s) (hf : ∀ L' s' a, L.Extends s L' s' → Q L' s' a → Makes L' s' R (f a)) :
    Makes L s R (x >>= f) :=
  (hx L s hs).bind fun L' k a hext ha => hf L' (s + k) a hext ha

theorem Always.mapM (xs : List β) {f : β → Flatten α}
    (hmono : ∀ L n L' n' r, L.Extends n L' n' → Q L n r → Q L' n' r)
    (h : ∀ x ∈ xs, Always L n Q (f x)) :
    Always L n (fun L' n' rs => ∀ r ∈ rs, Q L' n' r) (xs.mapM f) := by
  induction xs with
  | nil =>
    intro L1 s hs
    exact pure nofun
  | cons x xs ih =>
    rw [forall_mem_cons] at h
    intro L1 s hs
    rw [mapM_cons]
    refine h.1.andThen hs fun _ _ r h2 hr => ?_
    refine (ih h.2).andThen (hs.trans h2) fun _ _ rs h3 hrs => pure ?_
    exact forall_mem_cons.mpr ⟨hmono _ _ _ _ r h3 hr, hrs⟩

theorem Always.lift {x : Except FlattenError α} :
    Always L n (fun _ _ r => x = .ok r) (liftM x : Flatten α) :=
  fun _ _ _ => Makes.lift fun _ h => h

/-! ## Values -/

def Works (K : String → Prop) (L : Ledger) (n : Nat) (ops : List Op) : Prop :=
  Each (Regular (fun _ => K) L n) ops

theorem Works.mono {ops : List Op} (h : Works K L n ops) (hext : L.Extends n L' n') :
    Works K L' n' ops :=
  each_mono h hext

/-- Operations compute a value of some nature. -/
structure Evaluates (K : String → Prop) (c : Nature) (L : Ledger) (n : Nat) (r : Computed) :
    Prop where
  works : Works K L n r.ops
  valued : Valued L n c r.value

theorem Evaluates.mono (h : Evaluates K c L n r) (hext : L.Extends n L' n') :
    Evaluates K c L' n' r :=
  ⟨h.works.mono hext, h.valued.mono hext⟩

/-- Operations compute a value of some nature, or a location for such a value. -/
structure Denotes (K : String → Prop) (c : Nature) (L : Ledger) (n : Nat) (r : Computed) :
    Prop where
  works : Works K L n r.ops
  below : r.value.id < n
  nature : (∃ content, r.value.type = .memory content) ∨ L.of r.value = c

theorem Evaluates.denotes (h : Evaluates K c L n r) : Denotes K c L n r :=
  ⟨h.works, h.valued.below, .inr h.valued.nature⟩

def Leaves (K : String → Prop) (L : Ledger) (n : Nat) (r : Computed) : Prop :=
  Works K L n r.ops ∧ r.value.id < n

theorem Leaves.mono (h : Leaves K L n r) (hext : L.Extends n L' n') : Leaves K L' n' r :=
  ⟨h.1.mono hext, Nat.lt_of_lt_of_le h.2 hext.le⟩

theorem Denotes.leaves (h : Denotes K c L n r) : Leaves K L n r :=
  ⟨h.works, h.below⟩

theorem Always.denotes (h : Always L n (Evaluates K c) x) : Always L n (Denotes K c) x :=
  fun L' n' hext => (h L' n' hext).imp fun _ _ _ _ hr => hr.denotes

theorem Always.leaves (h : Always L n (Denotes K c) x) : Always L n (Leaves K) x :=
  fun L' n' hext => (h L' n' hext).imp fun _ _ _ _ hr => hr.leaves

theorem works_flatMap {rs : List β} {f : β → List Op} (h : ∀ r ∈ rs, Works K L n (f r)) :
    Works K L n (rs.flatMap f) := by
  refine Each.iff_forall.mpr fun o ho => ?_
  obtain ⟨r, hr, ho⟩ := mem_flatMap.mp ho
  exact Each.iff_forall.mp (h r hr) o ho

variable {code : FlatCode} {operands : List Val} {regions : List Block} {ops : List Op}
  {args : Flatten (List Computed)} {body : Flatten (List Op)} {cond : Flatten Computed}
  {op : String}

theorem makes_followedBy (hops : Works K L s ops)
    (h : Whole (fun _ => K) L s code operands [c] regions) : Makes L s (Evaluates K c)
      (do return .followedBy ops (← compute code operands type regions) : Flatten Computed) :=
  Makes.value hops h fun _ _ _ _ _ hworks hvalued _ =>
    Makes.pure ⟨hworks, hvalued⟩

theorem makes_function {args : List Val} (hops : Works K L s ops) :
    Makes L s (fun L' n o => Works K L' n [o])
      (step (.funcDef func type) [] [.mk args ops] : Flatten Op) := by
  have hwhole : Whole (fun _ => K) L s (.funcDef func type) [] [] [.mk args ops] :=
    ⟨⟨nofun, rfl, nofun, nofun⟩, nofun, forall_mem_singleton.mpr hops⟩
  exact (makes_step hwhole).imp fun _ _ _ _ ho => ho.1.each

theorem makes_doneAfter (hops : Works K L s ops)
    (h : Whole (fun _ => K) L s code operands [] regions) :
    Makes L s (Works K) (do return ops ++ [← step code operands regions] : Flatten (List Op)) :=
  Makes.step hops h fun _ _ _ _ hworks => Makes.pure hworks

/-! ## Expressions -/

theorem makes_loaded (h : Always L n (Denotes K c) x) : Always L n (Evaluates K c) (loaded x) := by
  intro L1 s hs
  refine h.andThen hs fun _ _ r _ hr => ?_
  split
  · exact makes_followedBy hr.works (.plain (forall_mem_singleton.mpr hr.below))
  next hmemory =>
    exact pure ⟨hr.works, hr.below, hr.nature.resolve_left (not_exists.mpr hmemory)⟩

theorem makes_operandBlock {natures : List Nature} (h : Evaluates K c L s r)
    (hnatures : ∀ a ∈ natures, a.Admits c) : Makes L s (fun L' n b => Works K L' n b.ops ∧
        ∀ y, b.ops.getLast? = some y → Closes L' n natures y) (operandBlock r) := by
  have hstep : Makes L s (fun L' n y => Built (fun _ => K) L' n .yield [] y ∧
      y.operands = [r.value]) (step .yield [r.value]) :=
    makes_step (.leaf (forall_mem_singleton.mpr h.valued.below) rfl)
  refine hstep.bind fun L1 k y h1 ⟨hy, hoperands⟩ => ?_
  refine pure ⟨(h.works.mono h1).append hy.each, fun y' hy' => ?_⟩
  have heq : y = y' := by
    rw [Block.plain, Block.ops, List.getLast?_concat] at hy'
    exact Option.some.inj hy'
  subst heq
  have hregular := hy.each.of_mem mem_cons_self
  have hvalued := h.valued.mono h1
  refine ⟨?_, hy.recorded, hregular.below, fun w hw => ?_⟩
  · rw [hregular.code, hy.recorded]
  · rw [hoperands, mem_singleton] at hw
    rw [hw, hvalued.nature]
    exact ⟨hvalued.below, hnatures⟩

theorem makes_literalRule (v : Literal) : Always L n (Evaluates K (.ofLiteral v)) (literalRule v) :=
  fun _ _ _ => makes_followedBy Each.nil (.literal v)

theorem makes_unaryRule (hx : Always L n (Evaluates K a) x) (hsuits : Suits (.unary op) [a] [c]) :
    Always L n (Evaluates K c) (unaryRule op x) := by
  intro L1 s hs
  refine hx.andThen hs fun _ _ r _ hr => ?_
  exact makes_followedBy hr.works (.leaf (forall_mem_singleton.mpr hr.valued.below) hsuits)

theorem makes_binaryRule (hx : Always L n (Evaluates K a) x) (hy : Always L n (Evaluates K b) y)
    (hsuits : Suits (.binary op) [a, b] [c]) : Always L n (Evaluates K c) (binaryRule op x y) := by
  intro L1 s hs
  refine hx.andThen hs fun _ _ r h2 hr => ?_
  refine hy.andThen (hs.trans h2) fun _ _ q h3 hq => ?_
  have hr3 := hr.mono h3
  refine Always.lift.andThen (.refl _ _) fun _ _ _ h4 _ => ?_
  have hr4 := hr3.mono h4
  have hq4 := hq.mono h4
  split
  next hlazy =>
    have hc : c = .unknown := by
      have hop : ¬Arithmetic op := by
        simp only [Bool.or_eq_true, decide_eq_true_eq] at hlazy
        obtain rfl | rfl := hlazy <;> decide
      rw [Suits, if_neg hop] at hsuits
      exact hsuits c mem_cons_self
    have hnone : ∀ d : Nature, ∀ a ∈ ([] : List Nature), a.Admits d := fun _ => forall_mem_nil _
    refine (makes_operandBlock hr4 (hnone _)).bind fun L5 k5 first h5 hfirst => ?_
    refine (makes_operandBlock (hq4.mono h5) (hnone _)).bind fun L6 k6 second h6 hsecond => ?_
    refine makes_followedBy Each.nil ⟨⟨forall_mem_nil _, forall_mem_singleton.mpr hc, ?_, ?_⟩, ?_,
      forall_mem_pair (hfirst.1.mono h6) hsecond.1⟩
    · rintro (⟨_, ⟨⟩⟩ | ⟨_, ⟨⟩⟩)
    · rintro ⟨⟩
    · rintro _ _ ⟨⟩
  · refine makes_followedBy (hr4.works.append hq4.works)
      (.leaf (forall_mem_pair hr4.valued.below hq4.valued.below) ?_)
    rw [map_cons, map_singleton, hr4.valued.nature, hq4.valued.nature]
    exact hsuits

theorem makes_choiceRule {z : Flatten Computed} (hx : Always L n (Leaves K) x)
    (hy : Always L n (Evaluates K a) y) (hz : Always L n (Evaluates K b) z) (ha : c.Admits a)
    (hb : c.Admits b) : Always L n (Evaluates K c) (choiceRule x y z) := by
  intro L1 s hs
  refine hx.andThen hs fun _ _ r h2 hr => ?_
  refine hy.andThen (hs.trans h2) fun _ _ p h3 hp => ?_
  refine hz.andThen ((hs.trans h2).trans h3) fun _ _ q h4 hq => ?_
  have hp4 := hp.mono h4
  refine (makes_operandBlock hp4 (forall_mem_singleton.mpr ha)).bind
    fun L5 k5 first h5 ⟨hfirst, hfirstEnd⟩ => ?_
  refine (makes_operandBlock (hq.mono h5) (forall_mem_singleton.mpr hb)).bind
    fun L6 k6 second h6 ⟨hsecond, hsecondEnd⟩ => ?_
  have hr6 := hr.mono (((h3.trans h4).trans h5).trans h6)
  refine makes_followedBy hr6.1 ⟨⟨forall_mem_singleton.mpr hr6.2, trivial, nofun, fun _ => ?_⟩, nofun,
    forall_mem_pair (hfirst.mono h6) hsecond⟩
  exact forall_mem_pair (fun y hy => (hfirstEnd y hy).mono h6) hsecondEnd

theorem makes_checked (x : Check α) : Always L n (fun _ _ _ => True) (checked x) := by
  intro L1 s hs
  cases x with
  | error e => exact throw
  | ok r => exact pure trivial

theorem makes_displayType (types : List Ty) :
    Always L n (fun _ _ _ => True) (displayType types) := by
  have hfold (ts : List Ty) (u : SourceType) : Always L n (fun _ _ _ => True)
      (ts.foldlM (fun (u : SourceType) t => do
        return u.join (← checked (SourceType.ofTy t))) u) := by
    induction ts generalizing u with
    | nil => exact fun _ _ _ => pure trivial
    | cons t ts ih =>
      intro L1 s hs
      rw [foldlM_cons, bind_assoc]
      refine (makes_checked _).andThen hs fun L2 s2 v h2 _ => ?_
      exact ih _ L2 s2 (hs.trans h2)
  intro L1 s hs
  cases types with
  | nil => exact pure trivial
  | cons t ts =>
    refine (makes_checked _).andThen hs fun L2 s2 _ h2 _ => ?_
    refine (hfold _ _).andThen (hs.trans h2) fun _ _ _ h3 _ => ?_
    exact (makes_checked _).andThen ((hs.trans h2).trans h3) fun _ _ _ _ _ => pure trivial

def LeavesAll (K : String → Prop) (L : Ledger) (n : Nat) (rs : List Computed) : Prop :=
  ∀ r ∈ rs, Leaves K L n r

theorem LeavesAll.works (h : LeavesAll K L n rs) : Works K L n (rs.flatMap Computed.ops) :=
  works_flatMap fun r hr => (h r hr).1

theorem LeavesAll.below (h : LeavesAll K L n rs) : ∀ v ∈ rs.map Computed.value, v.id < n :=
  forall_mem_map.mpr fun r hr => (h r hr).2

theorem LeavesAll.mono (h : LeavesAll K L n rs) (hext : L.Extends n L' n') : LeavesAll K L' n' rs :=
  fun r hr => (h r hr).mono hext

theorem makes_listRule {elems : Flatten (List Computed)} (helems : Always L n (LeavesAll K) elems) :
    Always L n (Evaluates K c) (listRule elems) := by
  intro L1 s hs
  refine helems.andThen hs fun _ _ _ _ hrs => ?_
  refine (makes_displayType _).andThen (.refl _ _) fun _ _ _ h3 _ => ?_
  have hrs3 := hrs.mono h3
  exact makes_followedBy hrs3.works (.plain hrs3.below)

theorem makes_indexRule (hx : Always L n (Leaves K) x)
    (hy : Always L n (Leaves K) y) : Always L n (Denotes K c) (indexRule x y) := by
  have hplace (code : FlatCode) (elem : Ty) (hcode : Plain code) {L s} {r q : Computed}
      (hr : Leaves K L s r) (hq : Leaves K L s q) :
      Makes L s (Denotes K c) (do
        return .followedBy (r.ops ++ q.ops)
          (← compute code [r.value, q.value] (.memory elem)) : Flatten Computed) :=
    Makes.value (c := c) (hr.1.append hq.1) (.plain (forall_mem_pair hr.2 hq.2) hcode)
      fun L1 k o v _ hworks hvalued htype => Makes.pure ⟨hworks, hvalued.below, .inl ⟨elem, htype⟩⟩
  intro L1 s hs
  refine hx.andThen hs fun _ _ r h2 hr => ?_
  refine hy.andThen (hs.trans h2) fun _ _ q h3 hq => ?_
  have hr3 := hr.mono h3
  split
  · exact hplace .getAddress _ trivial hr3 hq
  split
  · exact hplace .indexString _ trivial hr3 hq
  · exact Makes.throw

theorem makes_callRule {hint : Option Ty} (hargs : Always L n (LeavesAll K) args) (hfunc : K func)
    (hc : func = "print" ∨ func = "input" → c ≠ .integer) :
    Always L n (Evaluates K c) (callRule func args hint) := by
  intro L1 s hs
  refine hargs.andThen hs fun _ _ _ _ hrs => ?_
  split
  · refine makes_followedBy hrs.works (.leaf hrs.below ?_ ?_)
    · exact fun hf => forall_mem_singleton.mpr (hc hf)
    · rintro _ _ ⟨⟩
      exact hfunc
  · exact throw

/-! ## Statements -/

theorem makes_storeRule {t : Computed} (hv : v.id < n) (ht : Leaves K L n t) :
    Always L n (Works K) (storeRule v t) := by
  intro L1 s hs
  have ht1 := ht.mono hs
  unfold storeRule
  split
  · exact makes_doneAfter ht1.1 (.plain (forall_mem_pair ht1.2 (Nat.lt_of_lt_of_le hv hs.le)))
  · exact throw

/-- The parts of an assignment compute values. -/
structure Chained (K : String → Prop) (L : Ledger) (n : Nat) (c : Chain) : Prop where
  value : Always L n (Leaves K) c.value
  targets : ∀ t ∈ c.targets, Always L n (Leaves K) t

theorem makes_assignRule {c : Chain} (h : Chained K L n c) :
    Always L n (Works K) (assignRule c) := by
  intro L1 s hs
  refine h.value.andThen hs fun _ _ v h2 hv => ?_
  have htargets := Always.mapM c.targets (f := id) (Q := Leaves K)
    (fun _ _ _ _ _ hext hr => hr.mono hext) h.targets
  refine htargets.andThen (hs.trans h2) fun _ _ ts h3 hts => ?_
  have hv3 := hv.mono h3
  have hstores := Always.mapM ts (f := storeRule v.value) (Q := Works K)
    (fun _ _ _ _ _ hext hr => hr.mono hext) fun t ht => makes_storeRule hv3.2 (hts t ht)
  refine hstores.andThen (.refl _ _) fun _ _ _ h4 hstores => pure ?_
  rw [← flatMap_id]
  exact (hv3.mono h4).1.append (works_flatMap hstores)

theorem makes_returnRule {place : List Node}
    (hx : place ≠ [] → Always L n (Leaves K) x) : Always L n (Works K) (returnRule place x) := by
  have hreturn {L1 s r} (hr : Leaves K L1 s r) : Makes L1 s (Works K)
      (do return r.ops ++ [← step .ret [r.value]] : Flatten (List Op)) :=
    makes_doneAfter hr.1 (.plain (forall_mem_singleton.mpr hr.2))
  intro L1 s hs
  unfold returnRule
  split
  · exact (makes_literalRule .none).denotes.leaves.andThen hs fun L2 s2 r h2 hr => hreturn hr
  next hplace =>
    have hne : place ≠ [] := fun hnil => hplace (isEmpty_iff.mpr hnil)
    exact (hx hne).andThen hs fun L2 s2 r h2 hr => hreturn hr

theorem makes_callStmtRule (hargs : Always L n (LeavesAll K) args) (hfunc : K func) :
    Always L n (Works K) (callStmtRule func args) := by
  intro L1 s hs
  refine hargs.andThen hs fun _ _ _ _ hrs => ?_
  refine makes_doneAfter hrs.works (.leaf hrs.below (fun _ => nofun) ?_)
  rintro _ _ ⟨⟩
  exact hfunc

theorem makes_branchRule {yes no : Flatten (List Op)} (hcond : Always L n (Leaves K) cond)
    (hyes : Always L n (Works K) yes) (hno : Always L n (Works K) no) :
    Always L n (Works K) (branchRule cond yes no) := by
  intro L1 s hs
  refine hcond.andThen hs fun _ _ r h2 hr => ?_
  refine hyes.andThen (hs.trans h2) fun _ _ _ h3 has => ?_
  refine hno.andThen ((hs.trans h2).trans h3) fun _ _ _ h4 hbs => ?_
  have hr4 := hr.mono (h3.trans h4)
  refine makes_doneAfter hr4.1 (.plain (forall_mem_singleton.mpr hr4.2) trivial ?_)
  exact forall_mem_pair (has.mono h4) hbs

theorem makes_loopRule (hcond : Always L n (Evaluates K c) cond)
    (hbody : Always L n (Works K) body) : Always L n (Works K) (loopRule cond body) := by
  intro L1 s hs
  refine hcond.andThen hs fun _ _ r h2 hr => ?_
  have hnone : ∀ a ∈ ([] : List Nature), a.Admits c := nofun
  refine (makes_operandBlock hr hnone).bind fun L3 k3 first h3 ⟨hfirst, _⟩ => ?_
  refine hbody.andThen ((hs.trans h2).trans h3) fun _ _ _ h4 hops => ?_
  exact makes_doneAfter Each.nil (.plain nofun trivial (forall_mem_pair (hfirst.mono h4) hops))

/-- A value is a memory location that was given a number. -/
def Location (n : Nat) (v : Val) : Prop :=
  v.id < n ∧ ∃ content, v.type = .memory content

def Located (n : Nat) (scope : Scope) : Prop :=
  ∀ frame ∈ scope.inner :: scope.outer, ∀ p ∈ frame, Location n p.2

theorem Location.mono (h : Location n v) (hle : n ≤ n') : Location n' v :=
  ⟨Nat.lt_of_lt_of_le h.1 hle, h.2⟩

section
variable (h : Located n scope)
include h

theorem Located.mono (hle : n ≤ n') : Located n' scope :=
  fun frame hframe p hp => (h frame hframe p hp).mono hle

theorem Located.of_find? {x : String} (hfind : scope.find? x = some v) : Location n v := by
  obtain ⟨frame, hframe, hlookup⟩ := exists_of_findSome?_eq_some hfind
  exact h frame hframe _ (mem_of_lookup_eq_some hlookup)

theorem makes_nameRule {x : String} : Always L n (Denotes K c) (nameRule scope x) := by
  intro L1 s hs
  unfold nameRule
  split
  next v hv =>
    have ⟨hlt, hmemory⟩ := (h.mono hs.le).of_find? hv
    exact pure ⟨Each.nil, hlt, .inl hmemory⟩
  · exact throw

theorem makes_forRule {x : String} {iterable : Flatten Computed}
    (hiterable : Always L n (Leaves K) iterable) (hbody : Always L n (Works K) body) :
    Always L n (Works K) (forRule scope x iterable body) := by
  intro L1 s hs
  refine hiterable.andThen hs fun _ _ r h2 hr => ?_
  refine hbody.andThen (hs.trans h2) fun _ _ _ h3 hops => ?_
  have hr3 := hr.mono h3
  refine makes_doneAfter hr3.1 (.plain (forall_mem_append.mpr ⟨fun v hv => ?_,
    forall_mem_singleton.mpr hr3.2⟩) trivial (forall_mem_singleton.mpr hops))
  exact ((h.mono ((hs.trans h2).trans h3).le).of_find? (Option.mem_toList.mp hv)).1

end

/-! ## Definitions -/

theorem Located.declare {scope' : Scope} {x : String} (h : Located n scope) (hv : Location n v)
    (hdeclare : scope.declare x v = .ok scope') : Located n scope' := by
  unfold Scope.declare at hdeclare
  split at hdeclare
  · cases hdeclare
  cases hdeclare
  obtain ⟨hinner, houter⟩ := forall_mem_cons.mp h
  exact forall_mem_cons.mpr ⟨forall_mem_cons.mpr ⟨hv, hinner⟩, houter⟩

theorem Located.enter {names : List (String × Val)} (h : Located n scope)
    (hnames : ∀ p ∈ names, Location n p.2) : Located n (scope.enter names) :=
  forall_mem_cons.mpr ⟨hnames, h⟩

/-- A definition makes regular operations and a scope with locations. -/
def Introduces (K : String → Prop) (L : Ledger) (n : Nat) (r : Scope × List Op) : Prop :=
  Located n r.1 ∧ Works K L n r.2

theorem makes_stored (f : Op → Val → Op → Flatten α) (hops : Works K L s ops) (hv : v.id < s)
    (hf : ∀ L' s' alloc location store, L.Extends s L' s' →
      Works K L' s' (ops ++ [alloc, store]) → Location s' location →
      Makes L' s' Q (f alloc location store)) :
    Makes L s Q (do
      let (alloc, location) ← compute (.alloc type) [] (.memory type)
      let store ← step .store [location, v]
      f alloc location store) := by
  refine Makes.value (c := .unknown) hops (.plain (forall_mem_nil _))
    fun L1 k1 alloc location h1 hworks hvalued htype => ?_
  have hreads : ∀ w ∈ [location, v], w.id < s + k1 :=
    forall_mem_pair hvalued.below (Nat.lt_of_lt_of_le hv h1.le)
  refine Makes.step hworks (.plain hreads) fun L2 k2 store h2 hworks2 => ?_
  rw [append_assoc] at hworks2
  exact hf L2 (s + k1 + k2) alloc location store (h1.trans h2) hworks2
    (Location.mono ⟨hvalued.below, type, htype⟩ h2.le)

theorem makes_varDefRule {declared : List Node} {initial : Flatten Computed} (h : Located n scope)
    (hinitial : Always L n (Leaves K) initial) :
    Always L n (Introduces K) (varDefRule scope declared initial) := by
  intro L1 s hs
  unfold varDefRule
  split
  · refine Always.lift.andThen hs fun _ _ p h2 _ => ?_
    refine hinitial.andThen (hs.trans h2) fun _ _ r h3 hr => ?_
    refine makes_stored (fun alloc location store => do
        return (← scope.declare p.1 location, r.ops ++ [alloc, store]))
      hr.1 hr.2 fun _ _ alloc location store h4 hworks hlocation => ?_
    refine Always.lift.andThen (.refl _ _) fun _ _ _ h5 hdeclare => ?_
    refine pure ⟨?_, hworks.mono h5⟩
    have hscope := h.mono ((((hs.trans h2).trans h3).trans h4).trans h5).le
    exact hscope.declare (hlocation.mono h5.le) hdeclare
  · intro r s' hrun
    cases hrun

def Houses (K : String → Prop) (L : Ledger) (n : Nat) (r : List Op × Val) : Prop :=
  Works K L n r.1 ∧ Location n r.2

theorem makes_paramRule {arg : Val} (harg : arg.id < n) :
    Always L n (Houses K) (paramRule arg) := by
  intro L1 s hs
  have harg1 := Nat.lt_of_lt_of_le harg hs.le
  exact makes_stored (fun alloc location store => pure ([alloc, store], location)) Each.nil harg1
    fun _ _ alloc location store _ hworks hlocation => pure ⟨hworks, hlocation⟩

theorem makes_argument (type : Ty) : Always L n (fun _ n' v => v.id < n')
    (do return ({ id := ← Fresh.fresh, type } : Val) : Flatten Val) := by
  intro L1 s hs
  exact .take rfl (L1.extends_withNature s .unknown) (Nat.lt_succ_self s)

theorem makes_funcDefRule {params returnType : List Node} {body : Scope → Flatten (List Op)}
    (h : Located n scope) (hbody : ∀ L' n' inner, L.Extends n L' n' → Located n' inner →
      Always L' n' (Works K) (body inner)) : Always L n (fun L' n' o => Works K L' n' [o])
      (funcDefRule scope func params returnType body) := by
  intro L1 s hs
  have hdeclared := Always.mapM params (L := L1) (n := s) (Q := fun _ _ _ => True)
    (fun _ _ _ _ _ _ _ => trivial) fun p _ => fun _ _ _ => lift (x := typedVar p) fun _ _ => trivial
  refine hdeclared.andThen (.refl _ _) fun _ _ declared h2 _ => ?_
  refine Always.lift.andThen (.refl _ _) fun L3 s3 _ h3 _ => ?_
  have hargs := Always.mapM declared (L := L3) (n := s3) (Q := fun _ n' (v : Val) => v.id < n')
    (fun _ _ _ _ _ hext hv => Nat.lt_of_lt_of_le hv hext.le) fun p _ => makes_argument p.2
  refine hargs.andThen (.refl _ _) fun L4 s4 args h4 hargs => ?_
  have hstored := Always.mapM args.reverse (L := L4) (n := s4)
    (Q := Houses K) (fun _ _ _ _ _ hext hr => ⟨hr.1.mono hext, hr.2.mono hext.le⟩)
    fun v hv => makes_paramRule (hargs v (mem_reverse.mp hv))
  refine hstored.andThen (.refl _ _) fun L5 s5 stored h5 hstored => ?_
  have hext := (((hs.trans h2).trans h3).trans h4).trans h5
  have hinner : Located s5
      (scope.enter ((declared.map Prod.fst).reverse.zip (stored.map Prod.snd))) := by
    refine (h.mono hext.le).enter fun p hp => ?_
    obtain ⟨r, hr, hlocation⟩ := mem_map.mp (of_mem_zip hp).2
    exact hlocation ▸ (hstored r hr).2
  refine (hbody L5 s5 _ hext hinner).andThen (.refl _ _) fun _ _ _ h6 hops => ?_
  exact makes_function ((works_flatMap fun r hr => (hstored r hr).1.mono h6).append hops)

end Practicum.Flat
