import Mathlib.Tactic.FinCases
import Practicum.Choco.Node.Verify
import Practicum.Choco.Typing.Rules
import Practicum.Proofs.Runs

/-!
# What the typing rules conclude

Each typing rule read from its conclusion: the rule gives a type exactly if its premises hold, and the
type is determined by theirs.
-/

namespace Practicum.Choco.Typing

open List Judgement

variable {e0 e1 e2 : Judgement} {t : SourceType} {op : String} {l r c place ns : List Node} {o : Env}
  {n n' : Node} {body : Check (List Node)}
attribute [local simp] bind Except.bind pure Except.pure

variable {f x : String} {u : SourceType}

theorem Judgement.ofType_ok_iff {expected : SourceType} :
    e1.ofType expected = .ok l ↔ e1 = .ok (expected, l) := by
  obtain _ | ⟨u, _⟩ := e1
  · simp [ofType]
  · by_cases hu : u = expected <;> simp [ofType, hu]

theorem Judgement.ofList_ok_iff {elem : SourceType} :
    e1.ofList = .ok (elem, l) ↔ e1 = .ok (.list elem, l) := by
  obtain _ | ⟨u, _⟩ := e1
  · simp [ofList]
  · cases u <;> simp [ofList, elemType]

theorem requireAssignable_ok_iff {a : Unit} :
    requireAssignable t u = .ok a ↔ t.assignable u = true := by
  rw [requireAssignable]
  split <;> simp [*]

/-! ## Operators -/

/-- The rules for unary operators: the operator, and the type of its operand and its result. -/
inductive Inverts : String → SourceType → Prop
  | negate : Inverts "-" .int
  | not : Inverts "not" .bool

/-- The rules for binary operators: the operator, the types of its operands, and the type of its
result. -/
inductive Combines : String → SourceType → SourceType → SourceType → Prop
  | arith {op : String} (hop : op ∈ arithmetic) : Combines op .int .int .int
  | intCompare {op : String} (hop : op ∈ orderings) : Combines op .int .int .bool
  | boolCompare {op : String} (hop : op ∈ equalities) : Combines op .bool .bool .bool
  | and : Combines "and" .bool .bool .bool
  | or : Combines "or" .bool .bool .bool
  | strCompare {op : String} (hop : op ∈ equalities) : Combines op .str .str .bool
  | strConcat : Combines "+" .str .str .str
  | is {t u : SourceType} (ht : lacksIdentity t = false) (hu : lacksIdentity u = false) :
    Combines "is" t u .bool
  | listConcat (t u : SourceType) : Combines "+" (.list t) (.list u) (.list (t.join u))

inductive Selects : SourceType → SourceType → Prop
  | str : Selects .str .str
  | list (t : SourceType) : Selects (.list t) t

def Both (e₁ e₂ : Judgement) (l r : List Node) (types : SourceType → SourceType → Prop) : Prop :=
  ∃ t₁ t₂, e₁ = .ok (t₁, l) ∧ e₂ = .ok (t₂, r) ∧ types t₁ t₂

theorem sameRule_ok_iff {operand result : SourceType} :
    sameRule operand result e1 e2 = .ok (t, l, r) ↔
      e1 = .ok (operand, l) ∧ e2 = .ok (operand, r) ∧ t = result := by
  simp only [sameRule, bind_eq_ok_iff, ofType_ok_iff]
  constructor
  · rintro ⟨_, hl, _, hr, ⟨⟩⟩
    exact ⟨hl, hr, rfl⟩
  · rintro ⟨hl, hr, rfl⟩
    exact ⟨l, hl, r, hr, rfl⟩

theorem unaryRule_ok_iff : unaryRule op e1 = .ok (t, l) ↔ e1 = .ok (t, l) ∧ Inverts op t := by
  constructor
  · intro h
    unfold unaryRule at h
    split at h
    next hop =>
      obtain ⟨_, hl, ⟨⟩⟩ := of_bind h
      exact ⟨ofType_ok_iff.mp hl, hop ▸ .negate⟩
    split at h
    next hop =>
      obtain ⟨_, hl, ⟨⟩⟩ := of_bind h
      exact ⟨ofType_ok_iff.mp hl, hop ▸ .not⟩
    · cases h
  · rintro ⟨rfl, _ | _⟩ <;> rfl

theorem binaryRule_ok_iff :
    binaryRule e1 op e2 = .ok (t, l, r) ↔ Both e1 e2 l r (Combines op · · t) := by
  constructor
  · intro h
    have hsame {operand result : SourceType} (hcombines : Combines op operand operand result)
        (h : sameRule operand result e1 e2 = .ok (t, l, r)) :
        Both e1 e2 l r (Combines op · · t) := by
      obtain ⟨hl, hr, rfl⟩ := sameRule_ok_iff.mp h
      exact ⟨_, _, hl, hr, hcombines⟩
    unfold binaryRule at h
    split at h
    next hop =>
      obtain ⟨⟨u, p⟩, -, hu⟩ := of_bind h
      dsimp only at hu
      split at hu
      · rw [arithRule, if_pos hop] at hu
        exact hsame (.arith (contains_iff_mem.mp hop)) hu
      split at hu
      next hconcat =>
        simp only [Bool.and_eq_true, beq_iff_eq] at hconcat
        exact hsame (hconcat.2 ▸ .strConcat) hu
      split at hu
      · split at hu
        · cases hu
        next hplus =>
          obtain ⟨⟨u1, _⟩, ⟨u2, _⟩, hl, hr, ⟨⟩⟩ := of_bind₂ hu
          exact ⟨_, _, ofList_ok_iff.mp hl, ofList_ok_iff.mp hr,
            Decidable.not_not.mp hplus ▸ .listConcat u1 u2⟩
      · cases hu
    split at h
    next hop =>
      obtain ⟨⟨u, p⟩, -, hu⟩ := of_bind h
      dsimp only at hu
      split at hu
      · rw [intCompareRule, if_pos hop] at hu
        exact hsame (.intCompare (contains_iff_mem.mp hop)) hu
      split at hu
      · split at hu
        · cases hu
        next heq =>
          rw [Bool.not_eq_true', Bool.not_eq_false] at heq
          rw [boolCompareRule, if_pos heq] at hu
          exact hsame (.boolCompare (contains_iff_mem.mp heq)) hu
      split at hu
      · split at hu
        · cases hu
        next heq =>
          rw [Bool.not_eq_true', Bool.not_eq_false] at heq
          rw [strCompareRule, if_pos heq] at hu
          exact hsame (.strCompare (contains_iff_mem.mp heq)) hu
      · cases hu
    split at h
    next hop =>
      simp only [Bool.or_eq_true, decide_eq_true_eq] at hop
      obtain rfl | rfl := hop
      · exact hsame .and h
      · exact hsame .or h
    split at h
    next hop =>
      obtain ⟨⟨t1, _⟩, ⟨t2, _⟩, hl, hr, hu⟩ := of_bind₂ h
      dsimp only at hu
      split at hu
      · cases hu
      next hidentity =>
        cases hu
        simp only [Bool.or_eq_true, not_or, Bool.not_eq_true] at hidentity
        exact ⟨_, _, hl, hr, hop ▸ .is hidentity.1 hidentity.2⟩
    · cases h
  · rintro ⟨t1, t2, rfl, rfl, hrule⟩
    cases hrule with
    | arith hop | intCompare hop | boolCompare hop | strCompare hop => fin_cases hop <;> rfl
    | is ht hu =>
      show (if (lacksIdentity t1 || lacksIdentity t2) = true then _ else _) = _
      rw [ht, hu]
      rfl
    | _ => rfl

theorem condRule_ok_iff : condRule e1 e0 e2 = .ok (t, c, l, r) ↔
      e0 = .ok (.bool, c) ∧ Both e1 e2 l r fun t1 t2 => t = t1.join t2 := by
  simp only [condRule, bind_eq_ok_iff, ofType_ok_iff]
  constructor
  · rintro ⟨_, hc, ⟨t1, _⟩, hl, ⟨t2, _⟩, hr, ⟨⟩⟩
    exact ⟨hc, t1, t2, hl, hr, rfl⟩
  · rintro ⟨hc, t1, t2, hl, hr, rfl⟩
    exact ⟨c, hc, _, hl, _, hr, rfl⟩

theorem indexRule_ok_iff :
    indexRule e1 e2 = .ok (t, l, r) ↔ Both e1 e2 l r fun t1 t2 => Selects t1 t ∧ t2 = .int := by
  constructor
  · intro h
    obtain ⟨⟨u, p⟩, -, hu⟩ := of_bind h
    dsimp only at hu
    split at hu
    · obtain ⟨_, _, hl, hr, ⟨⟩⟩ := of_bind₂ hu
      exact ⟨_, _, ofType_ok_iff.mp hl, ofType_ok_iff.mp hr, .str, rfl⟩
    split at hu
    · obtain ⟨⟨_, _⟩, _, hl, hr, ⟨⟩⟩ := of_bind₂ hu
      exact ⟨_, _, ofList_ok_iff.mp hl, ofType_ok_iff.mp hr, .list _, rfl⟩
    · cases hu
  · rintro ⟨_, _, rfl, rfl, _ | _, rfl⟩ <;> rfl

/-- The arguments of a call can be stored where its inputs are declared. -/
def Fits : List SourceType → List SourceType → Prop :=
  List.Forall₂ fun found expected => found.assignable expected = true

theorem fits_iff {args inputs : List SourceType} : Fits args inputs ↔ args.length = inputs.length ∧
      (args.zip inputs).forM (fun (found, expected) => requireAssignable found expected) =
        .ok () := by
  induction args generalizing inputs with
  | nil => cases inputs <;> simp [Fits]
  | cons t args ih =>
    cases inputs with
    | nil => simp [Fits]
    | cons u inputs =>
      have hforM : ((t :: args).zip (u :: inputs)).forM
            (fun (found, expected) => requireAssignable found expected) = .ok () ↔
          t.assignable u = true ∧ (args.zip inputs).forM
            (fun (found, expected) => requireAssignable found expected) = .ok () := by
        rw [zip_cons_cons, forM_eq_forM, forM_cons, bind_eq_ok_iff]
        simp [requireAssignable_ok_iff]
      rw [Fits, forall₂_cons, ← Fits]
      grind

theorem invokeRule_ok_iff {args : List SourceType} : invokeRule o f args = .ok t ↔
      ∃ info, o.lookup f = some (.function info) ∧ Fits args info.inputs ∧ t = info.output := by
  unfold invokeRule
  split
  next hlookup => simp [hlookup]
  next hlookup => simp [hlookup]
  next info hlookup =>
    have hinfo : (∃ info', o.lookup f = some (.function info') ∧ Fits args info'.inputs ∧
        t = info'.output) ↔ Fits args info.inputs ∧ t = info.output := by
      simp [hlookup]
    rw [hinfo, fits_iff]
    split
    next hlength => exact ⟨nofun, fun h => absurd h.1.1 hlength⟩
    next hlength =>
      rw [bind_eq_ok_iff]
      constructor
      · rintro ⟨⟨⟩, hfits, ⟨⟩⟩
        exact ⟨⟨Decidable.not_not.mp hlength, hfits⟩, rfl⟩
      · rintro ⟨⟨-, hfits⟩, rfl⟩
        exact ⟨(), hfits, rfl⟩

/-! ## Trees -/

theorem of_checkPlace (h : checkPlace o place = .ok (t, l)) :
    ∃ e rest e', place = e :: rest ∧ checkExpr o e = .ok (t, e') ∧ l = e' :: rest := by
  cases place with
  | nil => cases h
  | cons e rest =>
    obtain ⟨⟨u, e'⟩, he, h⟩ := of_bind h
    cases h
    exact ⟨e, rest, e', rfl, he, rfl⟩

/-! ## Statements -/

theorem variable_ok_iff : o.variable x = .ok t ↔ o.lookup x = some (.value t) := by
  unfold Env.variable Env.entry
  cases o.lookup x with
  | none => simp
  | some entry => cases entry <;> simp [throw, throwThe, MonadExceptOf.throw]

theorem functionInfo_ok_iff {info : FunctionInfo} :
    functionInfo o f = .ok info ↔ o.lookup f = some (.function info) := by
  unfold functionInfo Env.entry
  cases o.lookup f with
  | none => simp
  | some entry => cases entry <;> simp [throw, throwThe, MonadExceptOf.throw]

theorem assignRule_ok_iff :
    assignRule e1 e2 = .ok (l, r) ↔ Both e1 e2 l r fun t1 t2 => t2.assignable t1 = true := by
  simp only [assignRule, bind_eq_ok_iff, requireAssignable_ok_iff]
  constructor
  · rintro ⟨⟨t1, _⟩, hl, ⟨t2, _⟩, hr, _, hassign, ⟨⟩⟩
    exact ⟨t1, t2, hl, hr, hassign⟩
  · rintro ⟨t1, t2, hl, hr, hassign⟩
    exact ⟨_, hl, _, hr, (), hassign, rfl⟩

/-- The judgements about some places hold, and a value of a type can be stored in each of them. -/
def Holds (t : SourceType) (js : List Judgement) (places : List (List Node)) : Prop :=
  List.Forall₂ (fun j place => ∃ u, j = .ok (u, place) ∧ t.assignable u = true) js places

theorem holds_iff {js : List Judgement} {places : List (List Node)} :
    js.mapM (fun j => do return (← assignRule j (.ok (t, r))).1) = .ok places ↔
      Holds t js places := by
  rw [mapM_eq_ok_iff]
  constructor
  · refine List.Forall₂.imp fun j place h => ?_
    obtain ⟨⟨_, _⟩, hj, ⟨⟩⟩ := of_bind h
    obtain ⟨u, _, hl, ⟨⟩, hassign⟩ := assignRule_ok_iff.mp hj
    exact ⟨u, hl, hassign⟩
  · refine List.Forall₂.imp ?_
    rintro j place ⟨u, hl, hassign⟩
    exact bind_eq_ok_iff.mpr ⟨_, assignRule_ok_iff.mpr ⟨u, t, hl, rfl, hassign⟩, rfl⟩

theorem multiAssignRule_ok_iff {targets : List Judgement} {ls : List (List Node)} :
    multiAssignRule targets e1 = .ok (ls, r) ↔
      1 < ls.length ∧ ∃ t, e1 = .ok (t, r) ∧ t ≠ .list .none ∧ Holds t targets ls := by
  unfold multiAssignRule
  split
  next hlength =>
    refine ⟨nofun, fun ⟨hls, t, _, _, hholds⟩ => ?_⟩
    rw [hholds.length_eq] at hlength
    omega
  next hlength =>
    rw [bind_eq_ok_iff]
    constructor
    · rintro ⟨⟨t, v⟩, hv, h⟩
      obtain ⟨_, hls, h⟩ := of_bind h
      rw [hv] at hls
      have hholds := holds_iff.mp hls
      split at h
      · cases h
      next ht =>
        cases h
        rw [hholds.length_eq] at hlength
        exact ⟨Nat.lt_of_not_le hlength, t, hv, ht, hholds⟩
    · rintro ⟨-, t, rfl, ht, hholds⟩
      refine ⟨_, rfl, bind_eq_ok_iff.mpr ⟨ls, holds_iff.mpr hholds, ?_⟩⟩
      exact if_neg ht

/-- A chain of assignments is in order if its value can be stored in all its targets, and is no list
of absent values if they are several. -/
theorem chainRule_ok_iff : chainRule o n = .ok n' ↔ ∃ t ls r, (chainPremises o [n]).2 = .ok (t, r) ∧
      Holds t (chainPremises o [n]).1 ls ∧ ls ≠ [] ∧ (1 < ls.length → t ≠ .list .none) ∧
      n' = (refillChain [n] ls r).headD n := by
  unfold chainRule
  dsimp only
  split
  next target htargets =>
    rw [bind_eq_ok_iff, htargets]
    constructor
    · rintro ⟨⟨l, r⟩, hassign, ⟨⟩⟩
      obtain ⟨u, t, hl, hr, hu⟩ := assignRule_ok_iff.mp hassign
      exact ⟨t, [l], r, hr, .cons ⟨u, hl, hu⟩ .nil, cons_ne_nil _ _, by simp, rfl⟩
    · rintro ⟨t, ls, r, hr, _ | ⟨⟨u, hl, hu⟩, ⟨⟩⟩, -, -, rfl⟩
      exact ⟨_, assignRule_ok_iff.mpr ⟨u, t, hl, hr, hu⟩, rfl⟩
  next hne =>
    rw [bind_eq_ok_iff]
    constructor
    · rintro ⟨⟨ls, r⟩, hrule, ⟨⟩⟩
      obtain ⟨hlength, t, hr, ht, hholds⟩ := multiAssignRule_ok_iff.mp hrule
      exact ⟨t, ls, r, hr, hholds, by rintro rfl; simp at hlength, fun _ => ht, rfl⟩
    · rintro ⟨t, ls, r, hr, hholds, hls, ht, rfl⟩
      have hlength : 1 < ls.length := by
        obtain _ | ⟨l, _ | ⟨_, ls⟩⟩ := ls
        · exact absurd rfl hls
        · generalize (chainPremises o [n]).1 = js at hholds hne
          obtain _ | ⟨-, ⟨⟩⟩ := hholds
          exact absurd rfl (hne _)
        · simp
      exact ⟨_, multiAssignRule_ok_iff.mpr ⟨hlength, t, hr, ht hlength, hholds⟩, rfl⟩

theorem initRule_ok_iff :
    initRule o x e1 = .ok l ↔ ∃ t t1, o.lookup x = some (.value t) ∧ e1 = .ok (t1, l) ∧
      t1.assignable t = true := by
  simp only [initRule, bind_eq_ok_iff, variable_ok_iff, requireAssignable_ok_iff]
  constructor
  · rintro ⟨t, ht, ⟨t1, _⟩, hl, _, hassign, ⟨⟩⟩
    exact ⟨t, t1, ht, hl, hassign⟩
  · rintro ⟨t, t1, ht, hl, hassign⟩
    exact ⟨t, ht, _, hl, (), hassign, rfl⟩

theorem returnValueRule_ok_iff :
    returnValueRule u e1 = .ok l ↔ ∃ t, e1 = .ok (t, l) ∧ t.assignable u = true := by
  simp only [returnValueRule, bind_eq_ok_iff, requireAssignable_ok_iff]
  constructor
  · rintro ⟨⟨t, _⟩, hl, _, hassign, ⟨⟩⟩
    exact ⟨t, hl, hassign⟩
  · rintro ⟨t, hl, hassign⟩
    exact ⟨_, hl, (), hassign, rfl⟩

theorem ifRule_ok_iff {yes : Check (List Node)} {no : Option (Check (List Node))} :
    ifRule e0 yes no = .ok (c, l, r) ↔
      e0 = .ok (.bool, c) ∧ yes = .ok l ∧ no.getD (.ok []) = .ok r := by
  constructor
  · intro h
    obtain ⟨_, _, hc, hl, h⟩ := of_bind₂ h
    cases no with
    | none =>
      cases h
      exact ⟨ofType_ok_iff.mp hc, hl, rfl⟩
    | some b =>
      obtain ⟨_, hr, ⟨⟩⟩ := of_bind h
      exact ⟨ofType_ok_iff.mp hc, hl, hr⟩
  · rintro ⟨rfl, rfl, hr⟩
    cases no with
    | none =>
      cases hr
      rfl
    | some b =>
      cases hr
      rfl

theorem whileRule_ok_iff : whileRule e0 body = .ok (c, l) ↔ e0 = .ok (.bool, c) ∧ body = .ok l := by
  simp only [whileRule, bind_eq_ok_iff, ofType_ok_iff]
  constructor
  · rintro ⟨_, hc, _, hl, ⟨⟩⟩
    exact ⟨hc, hl⟩
  · rintro ⟨hc, hl⟩
    exact ⟨c, hc, l, hl, rfl⟩

theorem forRule_ok_iff :
    forRule o x e0 body = .ok (c, l) ↔ (∃ t elem u, e0 = .ok (t, c) ∧ Selects t elem ∧
      o.lookup x = some (.value u) ∧ elem.assignable u = true) ∧ body = .ok l := by
  constructor
  · intro h
    obtain ⟨⟨u, p⟩, -, hu⟩ := of_bind h
    dsimp only at hu
    split at hu
    · simp only [forStrRule, bind_eq_ok_iff, ofType_ok_iff, variable_ok_iff,
        requireAssignable_ok_iff] at hu
      obtain ⟨_, hc, u, hx, _, hassign, _, hl, ⟨⟩⟩ := hu
      exact ⟨⟨_, _, u, hc, .str, hx, hassign⟩, hl⟩
    split at hu
    · simp only [forListRule, bind_eq_ok_iff, variable_ok_iff, requireAssignable_ok_iff] at hu
      obtain ⟨⟨elem, _⟩, hc, u, hx, _, hassign, _, hl, ⟨⟩⟩ := hu
      exact ⟨⟨_, elem, u, ofList_ok_iff.mp hc, .list elem, hx, hassign⟩, hl⟩
    · cases hu
  · rintro ⟨⟨t, elem, u, rfl, hselects, hx, hassign⟩, rfl⟩
    have hx := variable_ok_iff.mpr hx
    have hassign := requireAssignable_ok_iff (a := ()).mpr hassign
    cases hselects with
    | str =>
      simp [forRule, forStrRule, ofType, hx, hassign]
    | list =>
      simp [forRule, forListRule, ofList, elemType, SourceType.isList, hx, hassign]

theorem of_varDef {declared initial : List Node}
    (h : checkStmt o u (.varDef declared initial) = .ok n') :
    ∃ initial' t, n' = .varDef declared initial' ∧ checkPlace o initial = .ok (t, initial') := by
  obtain _ | ⟨d, _⟩ := declared
  · simp [checkStmt] at h
  cases d with
  | typedVar x _ =>
    obtain ⟨initial', hinitial, h1⟩ := of_bind h
    cases h1
    obtain ⟨-, t, -, ht, -⟩ := initRule_ok_iff.mp hinitial
    exact ⟨initial', t, rfl, ht⟩
  | _ => simp [checkStmt] at h

theorem of_funcDef {params returnType body : List Node}
    (h : checkStmt o u (.funcDef f params returnType body) = .ok n') :
    ∃ info body', n' = .funcDef f params returnType body' ∧
      checkBody (o.enter info) info.output body = .ok body' := by
  obtain ⟨info, body', -, hbody, h2⟩ := of_bind₂ h
  cases h2
  exact ⟨info, body', rfl, hbody⟩

theorem of_checkBody (h : checkBody o u (n :: ns) = .ok l) :
    ∃ n' ns', l = n' :: ns' ∧ checkStmt o u n = .ok n' ∧
      (ns = [] ∧ ns' = [] ∨ checkBody o u ns = .ok ns') := by
  cases ns with
  | nil =>
    obtain ⟨n', hn, h1⟩ := of_bind h
    cases h1
    exact ⟨n', [], rfl, hn, .inl ⟨rfl, rfl⟩⟩
  | cons m ns =>
    obtain ⟨n', ns', hn, hns, h2⟩ := of_bind₂ h
    cases h2
    exact ⟨n', ns', rfl, hn, .inr hns⟩

theorem mem_of_checkBody (h : checkBody o u ns = .ok l) :
    (∀ n' ∈ l, ∃ n ∈ ns, checkStmt o u n = .ok n') ∧
      ∀ n ∈ ns, ∃ n' ∈ l, checkStmt o u n = .ok n' := by
  induction ns generalizing l with
  | nil =>
    cases h
  | cons n ns ih =>
    obtain ⟨n', ns', rfl, hn, hns⟩ := of_checkBody h
    have hrest : (∀ m' ∈ ns', ∃ m ∈ ns, checkStmt o u m = .ok m') ∧
        ∀ m ∈ ns, ∃ m' ∈ ns', checkStmt o u m = .ok m' := by
      obtain ⟨rfl, rfl⟩ | hns := hns
      · exact ⟨nofun, nofun⟩
      · exact ih hns
    rw [forall_mem_cons, forall_mem_cons]
    refine ⟨⟨⟨n, mem_cons_self, hn⟩, fun m' hm' => ?_⟩, ⟨n', mem_cons_self, hn⟩, fun m hm => ?_⟩
    · obtain ⟨m, hm, hcheck⟩ := hrest.1 m' hm'
      exact ⟨m, mem_cons_of_mem _ hm, hcheck⟩
    · obtain ⟨m', hm', hcheck⟩ := hrest.2 m hm
      exact ⟨m', mem_cons_of_mem _ hm', hcheck⟩

theorem of_assign {target value : List Node} (h : chainRule o (.assign target value) = .ok n') :
    ∃ target' value', n' = .assign target' value' := by
  obtain ⟨u, _, r, -, hls, -, -, rfl⟩ := chainRule_ok_iff.mp h
  rw [chainPremises] at hls
  cases hls with
  | cons _ _ => exact ⟨_, _, rfl⟩

end Practicum.Choco.Typing
