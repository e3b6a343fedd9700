import Practicum.Proofs.Choco.Judgements
import Practicum.Proofs.Choco.TypeOrder

/-!
# Derivations

The typing rules as a deductive system: `Typed` derives the types of expressions, `StmtTyped` and
`BodyTyped` derive that statements are in order. The checker finds exactly the types that can be
derived. It accepts more statements: the rules let a value be stored in a variable or an element of
a list, while the checker asks only that the target has a type.
-/

namespace Practicum.Choco.Typing

open List hiding elem
open Typing

/-! ## Rules -/

mutual

/-- An expression has a type. The rules look at the first node of each place. -/
inductive Typed (o : Env) : Node → SourceType → Prop
  | literal (v : Literal) (hint : Option IR.Ty) : Typed o (.literal v hint) (literalType v)
  | read (hx : o.lookup x = some (.value t)) (ht : t.isValue = true) : Typed o (.name x hint) t
  | unary (he : Typed o e t) (hop : Inverts op t) : Typed o (.unary op (e :: es) hint) t
  | binary (ha : Typed o a t₁) (hb : Typed o b t₂) (hop : Combines op t₁ t₂ t) :
    Typed o (.binary op (a :: as) (b :: bs) hint) t
  | cond (hc : Typed o c .bool) (ha : Typed o a t₁) (hb : Typed o b t₂) :
    Typed o (.ifExpr (c :: cs) (a :: as) (b :: bs) hint) (t₁.join t₂)
  | index (ha : Typed o a t₁) (hb : Typed o b .int) (ht : Selects t₁ t) :
    Typed o (.index (a :: as) (b :: bs) hint) t
  | nil (hint : Option IR.Ty) : Typed o (.listExpr [] hint) .empty
  | display (hes : TypedAll o es (t :: ts)) : Typed o (.listExpr es hint) (.list (ts.foldl .join t))
  | invoke (hes : TypedAll o es ts) (hf : o.lookup f = some (.function info))
    (hfits : Fits ts info.inputs) (ht : info.output.isValue = true) :
    Typed o (.call f es hint) info.output

inductive TypedAll (o : Env) : List Node → List SourceType → Prop
  | nil : TypedAll o [] []
  | cons (he : Typed o e t) (hes : TypedAll o es ts) : TypedAll o (e :: es) (t :: ts)

end

mutual

/-- An expression is filled with the types of all its parts. -/
inductive Annotates (o : Env) : Node → Node → Prop
  | mk (hparts : AnnotatesParts o n n') (ht : Typed o n t) (htype : t.toTy? = some type) :
    Annotates o n (n'.withHint type)

inductive AnnotatesParts (o : Env) : Node → Node → Prop
  | literal (v : Literal) (hint : Option IR.Ty) :
    AnnotatesParts o (.literal v hint) (.literal v hint)
  | name (x : String) (hint : Option IR.Ty) : AnnotatesParts o (.name x hint) (.name x hint)
  | unary (he : Annotates o e e') :
    AnnotatesParts o (.unary op (e :: es) hint) (.unary op (e' :: es) hint)
  | binary (ha : Annotates o a a') (hb : Annotates o b b') :
    AnnotatesParts o (.binary op (a :: as) (b :: bs) hint) (.binary op (a' :: as) (b' :: bs) hint)
  | cond (hc : Annotates o c c') (ha : Annotates o a a') (hb : Annotates o b b') :
    AnnotatesParts o (.ifExpr (c :: cs) (a :: as) (b :: bs) hint)
      (.ifExpr (c' :: cs) (a' :: as) (b' :: bs) hint)
  | index (ha : Annotates o a a') (hb : Annotates o b b') :
    AnnotatesParts o (.index (a :: as) (b :: bs) hint) (.index (a' :: as) (b' :: bs) hint)
  | listExpr (hes : AnnotatesAll o es es') : AnnotatesParts o (.listExpr es hint) (.listExpr es' hint)
  | call (hes : AnnotatesAll o es es') : AnnotatesParts o (.call f es hint) (.call f es' hint)

inductive AnnotatesAll (o : Env) : List Node → List Node → Prop
  | nil : AnnotatesAll o [] []
  | cons (he : Annotates o e e') (hes : AnnotatesAll o es es') :
    AnnotatesAll o (e :: es) (e' :: es')

end

/-- The targets of a chain of assignments, from the left, and the value at its end. -/
def assignmentParts : List Node → List (List Node) × List Node
  | .assign target value :: _ => (target :: (assignmentParts value).1, (assignmentParts value).2)
  | place => ([], place)

/-- A value may be assigned to a target: to a variable, or to an element of a list. -/
inductive Assigns (o : Env) : Node → Node → Prop
  | name (hx : Typed o (.name x hint) t) (he : Typed o e u) (hassign : u.assignable t = true) :
    Assigns o (.name x hint) e
  | element (ha : Typed o a (.list t)) (hb : Typed o b .int) (he : Typed o e u)
    (hassign : u.assignable t = true) : Assigns o (.index (a :: as) (b :: bs) hint) e

mutual

/-- A statement or a definition is in order in a function with a return type, where `A` says what may
be assigned to what. -/
inductive StmtTyped (A : Env → Node → Node → Prop) : Env → SourceType → Node → Prop
  | funcDef (hf : o.lookup f = some (.function info))
    (hbody : BodyTyped A (o.enter info) info.output body) :
    StmtTyped A o r (.funcDef f params returnType body)
  | varInit (hx : o.lookup x = some (.value t)) (he : Typed o e u)
    (hassign : u.assignable t = true) :
    StmtTyped A o r (.varDef (.typedVar x type :: ds) (e :: es))
  | assign (hparts : assignmentParts [.assign target value] = ([a :: as], e :: es)) (h : A o a e) :
    StmtTyped A o r (.assign target value)
  | multiAssign (hparts : assignmentParts [.assign target value] = (places, e :: es))
    (hmany : 1 < places.length) (he : Typed o e t) (ht : t ≠ .list .none)
    (hall : ∀ place ∈ places, ∃ a as, place = a :: as ∧ A o a e) :
    StmtTyped A o r (.assign target value)
  | pass : StmtTyped A o r .passStmt
  | returnValue (he : Typed o e t) (hassign : t.assignable r = true) :
    StmtTyped A o r (.returnStmt [e])
  | returnNone (hassign : SourceType.none.assignable r = true) : StmtTyped A o r (.returnStmt [])
  | ifElse (hc : Typed o c .bool) (hyes : BodyTyped A o r yes)
    (hno : no ≠ [] → BodyTyped A o r no) :
    StmtTyped A o r (.ifStmt (c :: cs) yes no)
  | whileLoop (hc : Typed o c .bool) (hbody : BodyTyped A o r body) :
    StmtTyped A o r (.whileStmt (c :: cs) body)
  | forLoop (he : Typed o e t) (helem : Selects t elem) (hx : o.lookup x = some (.value u))
    (hassign : elem.assignable u = true) (hbody : BodyTyped A o r body) :
    StmtTyped A o r (.forStmt x (e :: es) body)
  | globalDecl (x : String) : StmtTyped A o r (.globalDecl x)
  | nonlocalDecl (x : String) : StmtTyped A o r (.nonlocalDecl x)
  | expr (he : Typed o e t) : StmtTyped A o r e

inductive BodyTyped (A : Env → Node → Node → Prop) : Env → SourceType → List Node → Prop
  | last (hn : StmtTyped A o r n) : BodyTyped A o r [n]
  | cons (hn : StmtTyped A o r n) (hns : BodyTyped A o r ns) : BodyTyped A o r (n :: ns)

end

variable {o : Env} {r t u : SourceType} {n n' : Node}

/-! ## Expressions -/

theorem toTy?_isSome (t : SourceType) : t.toTy?.isSome = t.isValue := by
  induction t with
  | list _ ih => simpa [SourceType.toTy?, SourceType.isValue] using ih
  | _ => rfl

theorem conclude_ok_iff :
    conclude u n = .ok (t, n') ↔ t = u ∧ ∃ type, u.toTy? = some type ∧ n' = n.withHint type := by
  unfold conclude SourceType.toTy
  cases u.toTy? <;> simp [bind, Except.bind, pure, Except.pure, eq_comm]

theorem readRule_ok_iff {x : String} : readRule o x = .ok t ↔ o.lookup x = some (.value t) := by
  unfold readRule
  split
  next hx => simp only [hx, reduceCtorEq]
  next hx => simp [hx]
  next hx => simp [hx]

theorem isValue_foldl_join {ts : List SourceType} (ht : t.isValue = true)
    (hts : ∀ u ∈ ts, u.isValue = true) : (ts.foldl .join t).isValue = true := by
  induction ts generalizing t with
  | nil => exact ht
  | cons u ts ih =>
    rw [forall_mem_cons] at hts
    exact ih (SourceType.isValue_join ht hts.1) hts.2

mutual

theorem Typed.isValue {n : Node} {t : SourceType} : Typed o n t → t.isValue = true
  | .literal v _ => by cases v <;> rfl
  | .read _ ht => ht
  | .unary he _ => he.isValue
  | .binary ha hb hop => by
    have hta := ha.isValue
    have htb := hb.isValue
    cases hop with
    | listConcat => exact SourceType.isValue_join hta htb
    | _ => rfl
  | .cond _ ha hb => SourceType.isValue_join ha.isValue hb.isValue
  | .index ha _ ht => by
    have hta := ha.isValue
    cases ht with
    | str => rfl
    | list => exact hta
  | .nil _ => rfl
  | .display hes => by
    obtain ⟨ht, hts⟩ := forall_mem_cons.mp hes.isValue
    exact isValue_foldl_join ht hts
  | .invoke _ _ _ ht => ht

theorem TypedAll.isValue {es : List Node} {ts : List SourceType} :
    TypedAll o es ts → ∀ t ∈ ts, t.isValue = true
  | .nil => forall_mem_nil _
  | .cons he hes => forall_mem_cons.mpr ⟨he.isValue, hes.isValue⟩

end

mutual

theorem of_checkExpr {n n' : Node} {t : SourceType} (h : checkExpr o n = .ok (t, n')) :
    Typed o n t ∧ Annotates o n n' := by
  have hend {m m' : Node} {u : SourceType} (hparts : AnnotatesParts o m m')
      (htyped : u.isValue = true → Typed o m u) (hconclude : conclude u m' = .ok (t, n')) :
      Typed o m t ∧ Annotates o m n' := by
    obtain ⟨rfl, _, htype, rfl⟩ := conclude_ok_iff.mp hconclude
    have ht := htyped (by rw [← toTy?_isSome, htype]; rfl)
    exact ⟨ht, .mk hparts ht htype⟩
  cases n with
  | literal v hint =>
    rw [checkExpr] at h
    exact hend (.literal v hint) (fun _ => .literal v hint) h
  | name x hint =>
    rw [checkExpr] at h
    obtain ⟨u, hread, h⟩ := of_bind h
    exact hend (.name x hint) (.read (readRule_ok_iff.mp hread)) h
  | unary op _ hint =>
    rw [checkExpr] at h
    obtain ⟨⟨u, l⟩, hrule, h⟩ := of_bind h
    obtain ⟨hl, hop⟩ := unaryRule_ok_iff.mp hrule
    obtain ⟨e, es, _, rfl, he, rfl⟩ := of_checkPlace hl
    obtain ⟨he, he'⟩ := of_checkExpr he
    exact hend (.unary he') (fun _ => .unary he hop) h
  | binary op _ _ hint =>
    rw [checkExpr] at h
    obtain ⟨⟨u, l, r⟩, hrule, h⟩ := of_bind h
    obtain ⟨t1, t2, hl, hr, hop⟩ := binaryRule_ok_iff.mp hrule
    obtain ⟨a, as, a', rfl, ha, rfl⟩ := of_checkPlace hl
    obtain ⟨b, bs, b', rfl, hb, rfl⟩ := of_checkPlace hr
    obtain ⟨ha, ha'⟩ := of_checkExpr ha
    obtain ⟨hb, hb'⟩ := of_checkExpr hb
    exact hend (.binary ha' hb') (fun _ => .binary ha hb hop) h
  | ifExpr cond _ _ hint =>
    rw [checkExpr] at h
    obtain ⟨⟨u, c, l, r⟩, hrule, h⟩ := of_bind h
    obtain ⟨hcond, t1, t2, hl, hr, rfl⟩ := condRule_ok_iff.mp hrule
    obtain ⟨c, _, _, rfl, hc, rfl⟩ := of_checkPlace hcond
    obtain ⟨a, as, a', rfl, ha, rfl⟩ := of_checkPlace hl
    obtain ⟨b, bs, b', rfl, hb, rfl⟩ := of_checkPlace hr
    obtain ⟨hc, hc'⟩ := of_checkExpr hc
    obtain ⟨ha, ha'⟩ := of_checkExpr ha
    obtain ⟨hb, hb'⟩ := of_checkExpr hb
    exact hend (.cond hc' ha' hb') (fun _ => .cond hc ha hb) h
  | index _ _ hint =>
    rw [checkExpr] at h
    obtain ⟨⟨u, l, r⟩, hrule, h⟩ := of_bind h
    obtain ⟨t1, t2, hl, hr, hselects, rfl⟩ := indexRule_ok_iff.mp hrule
    obtain ⟨a, as, a', rfl, ha, rfl⟩ := of_checkPlace hl
    obtain ⟨b, bs, b', rfl, hb, rfl⟩ := of_checkPlace hr
    obtain ⟨ha, ha'⟩ := of_checkExpr ha
    obtain ⟨hb, hb'⟩ := of_checkExpr hb
    exact hend (.index ha' hb') (fun _ => .index ha hb hselects) h
  | listExpr _ hint =>
    rw [checkExpr] at h
    split at h
    next hempty =>
      rw [isEmpty_iff.mp hempty] at h ⊢
      exact hend (.listExpr .nil) (fun _ => .nil hint) h
    · obtain ⟨⟨ts, es⟩, hes, h⟩ := of_bind h
      obtain ⟨hes, hes'⟩ := of_checkAll hes
      obtain ⟨u, hu, h⟩ := of_bind h
      cases ts with
      | nil => cases hu
      | cons t ts =>
        cases hu
        exact hend (.listExpr hes') (fun _ => .display hes) h
  | call f _ hint =>
    rw [checkExpr] at h
    obtain ⟨⟨ts, es⟩, hes, h⟩ := of_bind h
    obtain ⟨hes, hes'⟩ := of_checkAll hes
    obtain ⟨u, hu, h⟩ := of_bind h
    obtain ⟨_, hf, hfits, rfl⟩ := invokeRule_ok_iff.mp hu
    exact hend (.call hes') (.invoke hes hf hfits) h
  | _ => simp [checkExpr] at h

theorem of_checkAll {es es' : List Node} {ts : List SourceType}
    (h : checkAll o es = .ok (ts, es')) : TypedAll o es ts ∧ AnnotatesAll o es es' := by
  cases es with
  | nil =>
    rw [checkAll] at h
    cases h
    exact ⟨.nil, .nil⟩
  | cons e es =>
    rw [checkAll] at h
    obtain ⟨⟨t, _⟩, ⟨ts, es'⟩, he, hes, ⟨⟩⟩ := of_bind₂ h
    obtain ⟨he, he'⟩ := of_checkExpr he
    obtain ⟨hes, hes'⟩ := of_checkAll hes
    exact ⟨.cons he hes, .cons he' hes'⟩

end

theorem Annotates.isExpr {e e' : Node} (h : Annotates o e e') : e'.isExpr = true := by
  obtain ⟨hparts, -, -⟩ := h
  cases hparts <;> rfl

theorem checkPlace_of_checkExpr (es : List Node) (h : checkExpr o n = .ok (t, n')) :
    checkPlace o (n :: es) = .ok (t, n' :: es) := by
  exact bind_eq_ok_iff.mpr ⟨_, h, rfl⟩

mutual

theorem Typed.checkExpr {n : Node} {t : SourceType} (h : Typed o n t) :
    ∃ n', checkExpr o n = .ok (t, n') := by
  have hend (m : Node) : ∃ n', conclude t m = .ok (t, n') := by
    obtain ⟨type, htype⟩ := Option.isSome_iff_exists.mp ((toTy?_isSome t).trans h.isValue)
    exact ⟨_, conclude_ok_iff.mpr ⟨rfl, type, htype, rfl⟩⟩
  cases h with
  | literal v hint =>
    rw [checkExpr]
    exact hend _
  | read hx ht =>
    rw [checkExpr]
    exact exists_bind_eq_ok (readRule_ok_iff.mpr hx) (hend _)
  | unary he hop =>
    obtain ⟨_, he⟩ := he.checkExpr
    rw [checkExpr]
    exact exists_bind_eq_ok (unaryRule_ok_iff.mpr ⟨checkPlace_of_checkExpr _ he, hop⟩) (hend _)
  | binary ha hb hop =>
    obtain ⟨a', ha⟩ := ha.checkExpr
    obtain ⟨b', hb⟩ := hb.checkExpr
    rw [checkExpr]
    exact exists_bind_eq_ok (binaryRule_ok_iff.mpr
      ⟨_, _, checkPlace_of_checkExpr _ ha, checkPlace_of_checkExpr _ hb, hop⟩) (hend _)
  | cond hc ha hb =>
    obtain ⟨_, hc⟩ := hc.checkExpr
    obtain ⟨a', ha⟩ := ha.checkExpr
    obtain ⟨b', hb⟩ := hb.checkExpr
    rw [checkExpr]
    exact exists_bind_eq_ok (condRule_ok_iff.mpr ⟨checkPlace_of_checkExpr _ hc,
      _, _, checkPlace_of_checkExpr _ ha, checkPlace_of_checkExpr _ hb, rfl⟩) (hend _)
  | index ha hb hselects =>
    obtain ⟨a', ha⟩ := ha.checkExpr
    obtain ⟨b', hb⟩ := hb.checkExpr
    rw [checkExpr]
    exact exists_bind_eq_ok (indexRule_ok_iff.mpr
      ⟨_, _, checkPlace_of_checkExpr _ ha, checkPlace_of_checkExpr _ hb, hselects, rfl⟩) (hend _)
  | nil hint =>
    rw [checkExpr]
    exact hend _
  | display hes =>
    obtain ⟨es', hcheck⟩ := hes.checkAll
    rw [checkExpr]
    cases hes with
    | cons he hes => exact exists_bind_eq_ok hcheck (exists_bind_eq_ok rfl (hend _))
  | invoke hes hf hfits ht =>
    obtain ⟨es', hcheck⟩ := hes.checkAll
    rw [checkExpr]
    exact exists_bind_eq_ok hcheck
      (exists_bind_eq_ok (invokeRule_ok_iff.mpr ⟨_, hf, hfits, rfl⟩) (hend _))

theorem TypedAll.checkAll {es : List Node} {ts : List SourceType} (h : TypedAll o es ts) :
    ∃ es', checkAll o es = .ok (ts, es') := by
  cases h with
  | nil => exact ⟨_, rfl⟩
  | cons he hes =>
    obtain ⟨_, he⟩ := he.checkExpr
    obtain ⟨es', hes⟩ := hes.checkAll
    rw [checkAll]
    exact ⟨_, bind_eq_ok_iff.mpr ⟨_, he, bind_eq_ok_iff.mpr ⟨_, hes, rfl⟩⟩⟩

end

theorem checkExpr_iff : (∃ n', checkExpr o n = .ok (t, n')) ↔ Typed o n t :=
  ⟨fun ⟨_, h⟩ => (of_checkExpr h).1, Typed.checkExpr⟩

theorem Typed.unique (ht : Typed o n t) (hu : Typed o n u) : t = u := by
  obtain ⟨_, ht⟩ := ht.checkExpr
  obtain ⟨_, hu⟩ := hu.checkExpr
  rw [ht] at hu
  cases hu
  rfl

/-! ## Statements -/

mutual

/-- The targets of the assignments in a statement, each with the environment that it stands in. -/
def targets (o : Env) : Node → List (Env × Node)
  | .funcDef f _ _ body =>
    match o.lookup f with
    | some (.function info) => targetsAll (o.enter info) body
    | _ => []
  | .assign target value =>
    (assignmentParts [.assign target value]).1.flatMap fun place =>
      (place.take 1).map fun a => (o, a)
  | .ifStmt _ yes no => targetsAll o yes ++ targetsAll o no
  | .whileStmt _ body => targetsAll o body
  | .forStmt _ _ body => targetsAll o body
  | _ => []

def targetsAll (o : Env) : List Node → List (Env × Node)
  | [] => []
  | n :: ns => targets o n ++ targetsAll o ns

end

/-- What the checker asks of an assignment: the types of its target and its value. -/
def Accepts (o : Env) (a e : Node) : Prop :=
  ∃ t u, Typed o a t ∧ Typed o e u ∧ u.assignable t = true

theorem accepts_iff {a e : Node} (he : Typed o e t) :
    Accepts o a e ↔ ∃ u, Typed o a u ∧ t.assignable u = true := by
  constructor
  · rintro ⟨u, _, ha, he', hassign⟩
    rw [he'.unique he] at hassign
    exact ⟨u, ha, hassign⟩
  · rintro ⟨u, ha, hassign⟩
    exact ⟨u, t, ha, he, hassign⟩

theorem checkPlace_iff {place : List Node} :
    (∃ l, checkPlace o place = .ok (t, l)) ↔ ∃ e es, place = e :: es ∧ Typed o e t := by
  constructor
  · rintro ⟨l, h⟩
    obtain ⟨e, es, e', rfl, he, rfl⟩ := of_checkPlace h
    exact ⟨e, es, rfl, (of_checkExpr he).1⟩
  · rintro ⟨e, es, rfl, he⟩
    obtain ⟨e', he⟩ := he.checkExpr
    exact ⟨_, checkPlace_of_checkExpr es he⟩

theorem chainPremises_eq (o : Env) (place : List Node) : chainPremises o place =
      ((assignmentParts place).1.map (checkPlace o), checkPlace o (assignmentParts place).2) := by
  fun_induction assignmentParts place with
  | case1 _ _ _ ih => simp [chainPremises, ih]
  | case2 place hne =>
    rw [chainPremises]
    · rfl
    · exact hne

theorem holds_targets_iff {places : List (List Node)} :
    (∃ ls, Holds t (places.map (checkPlace o)) ls) ↔
      ∀ place ∈ places, ∃ a as, place = a :: as ∧ ∃ u, Typed o a u ∧ t.assignable u = true := by
  induction places with
  | nil => exact ⟨fun _ => forall_mem_nil _, fun _ => ⟨[], .nil⟩⟩
  | cons place places ih =>
    rw [forall_mem_cons, ← ih]
    constructor
    · rintro ⟨_, _ | ⟨⟨u, hplace, hassign⟩, hrest⟩⟩
      obtain ⟨a, as, ha, htyped⟩ := checkPlace_iff.mp ⟨_, hplace⟩
      exact ⟨⟨a, as, ha, u, htyped, hassign⟩, _, hrest⟩
    · rintro ⟨⟨a, as, ha, u, htyped, hassign⟩, ls, hrest⟩
      obtain ⟨l, hplace⟩ := checkPlace_iff.mpr ⟨a, as, ha, htyped⟩
      exact ⟨l :: ls, .cons ⟨u, hplace, hassign⟩ hrest⟩

theorem chainRule_iff : (∃ n', chainRule o n = .ok n') ↔ (assignmentParts [n]).1 ≠ [] ∧
      ∃ e es t, (assignmentParts [n]).2 = e :: es ∧ Typed o e t ∧
        (1 < (assignmentParts [n]).1.length → t ≠ .list .none) ∧
        ∀ place ∈ (assignmentParts [n]).1, ∃ a as, place = a :: as ∧ Accepts o a e := by
  simp only [chainRule_ok_iff, chainPremises_eq]
  generalize (assignmentParts [n]).2 = value
  constructor
  · rintro ⟨n', t, ls, r, hvalue, hholds, hls, hmany, -⟩
    obtain ⟨e, es, rfl, he⟩ := checkPlace_iff.mp ⟨_, hvalue⟩
    have hlength := hholds.length_eq
    rw [length_map] at hlength
    refine ⟨fun hplaces => hls ?_, e, es, t, rfl, he, hlength ▸ hmany, fun place hplace => ?_⟩
    · rw [hplaces] at hlength
      exact length_eq_zero_iff.mp hlength.symm
    · obtain ⟨a, as, ha, haccepts⟩ := holds_targets_iff.mp ⟨ls, hholds⟩ place hplace
      exact ⟨a, as, ha, (accepts_iff he).mpr haccepts⟩
  · rintro ⟨hplaces, e, es, t, rfl, he, hmany, hall⟩
    obtain ⟨r, hvalue⟩ := checkPlace_iff.mpr ⟨e, es, rfl, he⟩
    obtain ⟨ls, hholds⟩ := holds_targets_iff.mpr fun place hplace => by
      obtain ⟨a, as, ha, haccepts⟩ := hall place hplace
      exact ⟨a, as, ha, (accepts_iff he).mp haccepts⟩
    have hlength := hholds.length_eq
    rw [length_map] at hlength
    refine ⟨_, t, ls, r, hvalue, hholds, fun hls => hplaces ?_, hlength ▸ hmany, rfl⟩
    rw [hls] at hlength
    exact length_eq_zero_iff.mp hlength

theorem isDefinition_of_checkStmt (h : checkStmt o r n = .ok n') :
    n'.isDefinition = n.isDefinition := by
  cases n with
  | funcDef =>
    obtain ⟨_, _, rfl, -⟩ := of_funcDef h
    rfl
  | varDef =>
    obtain ⟨_, t, rfl, -⟩ := of_varDef h
    rfl
  | assign =>
    obtain ⟨_, _, rfl⟩ := of_assign h
    rfl
  | globalDecl | nonlocalDecl | passStmt =>
    cases h
    rfl
  | returnStmt value =>
    obtain _ | ⟨e, _ | ⟨e', _⟩⟩ := value
    iterate 2
      · rw [checkStmt] at h
        obtain ⟨_, -, h1⟩ := of_bind h
        cases h1
        rfl
    · simp [checkStmt] at h
  | ifStmt | whileStmt | forStmt =>
    obtain ⟨_, -, h1⟩ := of_bind h
    cases h1
    rfl
  | _ =>
    obtain ⟨⟨t, _⟩, he, h1⟩ := of_bind h
    cases h1
    obtain ⟨hparts, -, -⟩ := (of_checkExpr he).2
    cases hparts <;> rfl

section
variable {A : Env → Node → Node → Prop} {Q : Env → Node → Prop}

theorem stmtTyped_assign_iff (hA : ∀ o a e, A o a e ↔ Accepts o a e ∧ Q o a)
    {target value : List Node} :
    StmtTyped A o r (.assign target value) ↔ (∃ n', checkStmt o r (.assign target value) = .ok n') ∧
        ∀ p ∈ targets o (.assign target value), Q p.1 p.2 := by
  rw [checkStmt, chainRule_iff, targets]
  constructor
  · intro h
    cases h with
    | assign hparts h =>
      obtain ⟨t, u, _, he, _⟩ := ((hA ..).mp h).1
      rw [hparts]
      exact ⟨⟨cons_ne_nil _ _, _, _, _, rfl, he, by simp,
        by simpa using ((hA ..).mp h).1⟩, by simpa using ((hA ..).mp h).2⟩
    | multiAssign hparts hmany he ht hall =>
      rw [hparts]
      refine ⟨⟨ne_nil_of_length_pos (Nat.zero_lt_of_lt hmany), _, _, _, rfl, he, fun _ => ht,
        fun place hplace => ?_⟩, fun p hp => ?_⟩
      · obtain ⟨a, as, rfl, h⟩ := hall place hplace
        exact ⟨a, as, rfl, ((hA ..).mp h).1⟩
      · obtain ⟨place, hplace, hp⟩ := mem_flatMap.mp hp
        obtain ⟨a, as, rfl, h⟩ := hall place hplace
        obtain rfl := by simpa using hp
        exact ((hA ..).mp h).2
    | expr he => cases he
  · rintro ⟨⟨hne, e, _, t, hvalue, he, hmany, hall⟩, hproper⟩
    have hall' : ∀ place ∈ (assignmentParts [.assign target value]).1,
        ∃ a as, place = a :: as ∧ A o a e := by
      intro place hplace
      obtain ⟨a, as, rfl, haccepts⟩ := hall place hplace
      exact ⟨a, as, rfl, (hA ..).mpr ⟨haccepts, hproper (o, a)
        (mem_flatMap.mpr ⟨_, hplace, by simp⟩)⟩⟩
    by_cases hlength : 1 < (assignmentParts [.assign target value]).1.length
    · exact .multiAssign (Prod.ext rfl hvalue) hlength he (hmany hlength) hall'
    obtain ⟨place, hplace⟩ := length_eq_one_iff.mp
      (Nat.le_antisymm (Nat.le_of_not_lt hlength) (length_pos_iff.mpr hne))
    obtain ⟨a, as, rfl, h⟩ := hall' place (by simp [hplace])
    exact .assign (Prod.ext hplace hvalue) h

mutual

theorem stmtTyped_iff (hA : ∀ o a e, A o a e ↔ Accepts o a e ∧ Q o a) {o : Env} {r : SourceType}
    (n : Node) : StmtTyped A o r n ↔
      (∃ n', checkStmt o r n = .ok n') ∧ ∀ p ∈ targets o n, Q p.1 p.2 := by
  cases n with
  | funcDef f _ _ body =>
    rw [checkStmt, targets]
    constructor
    · intro h
      cases h with
      | funcDef hf hbody =>
        obtain ⟨⟨body', hbody⟩, hproper⟩ := (bodyTyped_iff hA body).mp hbody
        rw [hf]
        exact ⟨⟨_, bind_eq_ok_iff.mpr ⟨_, functionInfo_ok_iff.mpr hf,
          bind_eq_ok_iff.mpr ⟨_, hbody, rfl⟩⟩⟩, hproper⟩
      | expr he => cases he
    · rintro ⟨⟨n', h⟩, hproper⟩
      obtain ⟨_, body', hf, hbody, -⟩ := of_bind₂ h
      have hf := functionInfo_ok_iff.mp hf
      rw [hf] at hproper
      exact .funcDef hf ((bodyTyped_iff hA body).mpr ⟨⟨body', hbody⟩, hproper⟩)
  | varDef declared _ =>
    simp only [targets]
    constructor
    · intro h
      cases h with
      | varInit hx he hassign =>
        obtain ⟨l, hl⟩ := checkPlace_iff.mpr ⟨_, _, rfl, he⟩
        rw [checkStmt, exists_bind_pure_eq_ok_iff]
        exact ⟨⟨l, initRule_ok_iff.mpr ⟨_, _, hx, hl, hassign⟩⟩, nofun⟩
      | expr he => cases he
    · rintro ⟨⟨n', h⟩, -⟩
      obtain _ | ⟨d, _⟩ := declared
      · simp [checkStmt] at h
      cases d with
      | typedVar x _ =>
        rw [checkStmt] at h
        obtain ⟨l, hl, -⟩ := of_bind h
        obtain ⟨t, u, hx, hl, hassign⟩ := initRule_ok_iff.mp hl
        obtain ⟨e, es, rfl, he⟩ := checkPlace_iff.mp ⟨l, hl⟩
        exact .varInit hx he hassign
      | _ => simp [checkStmt] at h
  | assign _ value => exact stmtTyped_assign_iff hA
  | passStmt | globalDecl | nonlocalDecl =>
    exact iff_of_true (by constructor) ⟨⟨_, by rw [checkStmt]⟩, by simp [targets]⟩
  | returnStmt value =>
    simp only [targets]
    constructor
    · intro h
      cases h with
      | returnValue he hassign =>
        obtain ⟨l, hl⟩ := checkPlace_iff.mpr ⟨_, _, rfl, he⟩
        rw [checkStmt, exists_bind_pure_eq_ok_iff]
        exact ⟨⟨l, returnValueRule_ok_iff.mpr ⟨_, hl, hassign⟩⟩, nofun⟩
      | returnNone hassign =>
        rw [checkStmt, exists_bind_pure_eq_ok_iff]
        exact ⟨⟨(), requireAssignable_ok_iff.mpr hassign⟩, nofun⟩
      | expr he => cases he
    · rintro ⟨⟨n', h⟩, -⟩
      obtain _ | ⟨e, _ | ⟨_, es⟩⟩ := value
      · rw [checkStmt] at h
        obtain ⟨_, hassign, -⟩ := of_bind h
        exact .returnNone (requireAssignable_ok_iff.mp hassign)
      · rw [checkStmt] at h
        obtain ⟨l, hl, -⟩ := of_bind h
        obtain ⟨t, hl, hassign⟩ := returnValueRule_ok_iff.mp hl
        obtain ⟨e, es, ⟨⟩, he⟩ := checkPlace_iff.mp ⟨l, hl⟩
        exact .returnValue he hassign
      · simp [checkStmt] at h
  | ifStmt cond yes no =>
    rw [checkStmt, targets, forall_mem_append]
    have hno : (no ≠ [] → BodyTyped A o r no) ↔ (∃ b,
        (if no.isEmpty then none else some (checkBody o r no)).getD (.ok []) = .ok b) ∧
        ∀ p ∈ targetsAll o no, Q p.1 p.2 := by
      cases no with
      | nil =>
        rw [targetsAll]
        exact ⟨fun _ => ⟨⟨_, rfl⟩, nofun⟩, fun _ h => absurd rfl h⟩
      | cons n ns =>
        exact ⟨fun h => (bodyTyped_iff hA (n :: ns)).mp (h (cons_ne_nil _ _)),
          fun h _ => (bodyTyped_iff hA (n :: ns)).mpr h⟩
    simp only [exists_bind_pure_eq_ok_iff, Prod.exists, ifRule_ok_iff,
      exists_and_left, exists_and_right, checkPlace_iff]
    constructor
    · intro h
      cases h with
      | ifElse hc hyes hrest =>
        obtain ⟨hyes, hproper⟩ := (bodyTyped_iff hA yes).mp hyes
        obtain ⟨hrest, hproper'⟩ := hno.mp hrest
        exact ⟨⟨⟨_, ⟨_, rfl⟩, hc⟩, hyes, hrest⟩, hproper, hproper'⟩
      | expr he => cases he
    · rintro ⟨⟨⟨e, ⟨es, rfl⟩, hc⟩, hyes, hrest⟩, hproper, hproper'⟩
      exact .ifElse hc ((bodyTyped_iff hA yes).mpr ⟨hyes, hproper⟩) (hno.mpr ⟨hrest, hproper'⟩)
  | whileStmt cond body =>
    rw [checkStmt, targets]
    simp only [exists_bind_pure_eq_ok_iff, Prod.exists, whileRule_ok_iff,
      exists_and_left, exists_and_right, checkPlace_iff, and_assoc, ← bodyTyped_iff hA body]
    constructor
    · intro h
      cases h with
      | whileLoop hc hbody => exact ⟨⟨_, ⟨_, rfl⟩, hc⟩, hbody⟩
      | expr he => cases he
    · rintro ⟨⟨e, ⟨es, rfl⟩, hc⟩, hbody⟩
      exact .whileLoop hc hbody
  | forStmt x _ body =>
    rw [checkStmt, targets]
    simp only [exists_bind_pure_eq_ok_iff, Prod.exists, forRule_ok_iff,
      exists_and_left, exists_and_right, and_assoc, ← bodyTyped_iff hA body]
    constructor
    · intro h
      cases h with
      | forLoop he helem hx hassign hbody =>
        obtain ⟨l, hl⟩ := checkPlace_iff.mpr ⟨_, _, rfl, he⟩
        exact ⟨⟨l, _, hl, _, helem, _, hx, hassign⟩, hbody⟩
      | expr he => cases he
    · rintro ⟨⟨l, t, hl, _, helem, u, hx, hassign⟩, hbody⟩
      obtain ⟨e, es, rfl, he⟩ := checkPlace_iff.mp ⟨l, hl⟩
      exact .forLoop he helem hx hassign hbody
  | _ =>
    simp only [checkStmt, targets, exists_bind_pure_eq_ok_iff]
    constructor
    · intro h
      cases h with
      | expr he => exact ⟨he.checkExpr.imp' _ fun _ h => h, nofun⟩
    · rintro ⟨⟨_, he⟩, -⟩
      exact .expr (of_checkExpr he).1

theorem bodyTyped_iff (hA : ∀ o a e, A o a e ↔ Accepts o a e ∧ Q o a) {o : Env} {r : SourceType}
    (ns : List Node) : BodyTyped A o r ns ↔
      (∃ ns', checkBody o r ns = .ok ns') ∧ ∀ p ∈ targetsAll o ns, Q p.1 p.2 := by
  cases ns with
  | nil =>
    rw [checkBody]
    exact ⟨nofun, fun ⟨⟨_, h⟩, _⟩ => nomatch h⟩
  | cons n ns =>
    rw [targetsAll, forall_mem_append]
    constructor
    · intro h
      cases h with
      | last hn =>
        obtain ⟨⟨n', hn⟩, hproper⟩ := (stmtTyped_iff hA n).mp hn
        rw [checkBody, targetsAll]
        exact ⟨⟨_, bind_eq_ok_iff.mpr ⟨_, hn, rfl⟩⟩, hproper, nofun⟩
      | cons hn hns =>
        obtain ⟨⟨n', hn⟩, hproper⟩ := (stmtTyped_iff hA n).mp hn
        obtain ⟨⟨ns', hns⟩, hproper'⟩ := (bodyTyped_iff hA ns).mp hns
        cases ns with
        | nil => cases hns
        | cons m ns =>
          rw [checkBody]
          exact ⟨⟨_, bind_eq_ok_iff.mpr ⟨_, hn, bind_eq_ok_iff.mpr ⟨_, hns, rfl⟩⟩⟩, hproper,
            hproper'⟩
    · rintro ⟨⟨l, h⟩, hproper, hproper'⟩
      obtain ⟨n', ns', rfl, hn, hns⟩ := of_checkBody h
      have hn := (stmtTyped_iff hA n).mpr ⟨⟨n', hn⟩, hproper⟩
      obtain ⟨rfl, -⟩ | hns := hns
      · exact .last hn
      · exact .cons hn ((bodyTyped_iff hA ns).mpr ⟨⟨ns', hns⟩, hproper'⟩)

end

end

/-- A target is one that the rules know: a variable, or an element of a list. -/
def Proper (o : Env) : Node → Prop
  | .name .. => True
  | .index (a :: _) _ _ => ∃ t, Typed o a (.list t)
  | _ => False

theorem assigns_iff (o : Env) (a e : Node) : Assigns o a e ↔ Accepts o a e ∧ Proper o a := by
  constructor
  · intro h
    cases h with
    | name hx he hassign => exact ⟨⟨_, _, hx, he, hassign⟩, trivial⟩
    | element ha hb he hassign => exact ⟨⟨_, _, .index ha hb (.list _), he, hassign⟩, _, ha⟩
  · rintro ⟨⟨t, u, ha, he, hassign⟩, hproper⟩
    cases ha with
    | read hx ht => exact .name (.read hx ht) he hassign
    | index ha hb hselects =>
      obtain ⟨_, ha'⟩ := hproper
      cases ha.unique ha'
      cases hselects
      exact .element ha hb he hassign
    | _ => exact hproper.elim

/-- The checker finds a type for an expression exactly if it can be derived; the type is unique, and
every part of the expression carries its own. It accepts a sequence of statements exactly if the
rules derive it whenever all targets of assignments in an accepted sequence are variables and elements
of lists, and only then. -/
theorem check_iff_derivable (o : Env) (r : SourceType) (e : Node) (ns : List Node) :
    (∀ t, (∃ e', checkExpr o e = .ok (t, e')) ↔ Typed o e t) ∧
    (∀ t u, Typed o e t → Typed o e u → t = u) ∧
    (∀ t e', checkExpr o e = .ok (t, e') → Annotates o e e') ∧
    (((∃ ns', checkBody o r ns = .ok ns') ↔ BodyTyped Assigns o r ns) ↔
      ((∃ ns', checkBody o r ns = .ok ns') → ∀ p ∈ targetsAll o ns, Proper p.1 p.2)) := by
  refine ⟨fun t => checkExpr_iff, fun t u => Typed.unique, fun t e' h => (of_checkExpr h).2, ?_⟩
  rw [bodyTyped_iff assigns_iff]
  tauto

/-- The checker accepts an assignment to an element of a string, for which there is no rule. -/
theorem stringElement_not_derivable :
    let o : Env := [("s", .value .str)]
    let ns : List Node := [.assign [.index [.name "s" none] [.literal (.word 0) none] none]
      [.literal (.str "x") none]]
    (∃ ns', checkBody o .bottom ns = .ok ns') ∧ ¬BodyTyped Assigns o .bottom ns := by
  intro o ns
  have hparts : assignmentParts ns = ([[.index [.name "s" none] [.literal (.word 0) none] none]],
      [.literal (.str "x") none]) := by
    simp [ns, assignmentParts]
  have htarget : Typed o (.index [.name "s" none] [.literal (.word 0) none] none) .str :=
    .index (.read rfl rfl) (.literal (.word 0) none) .str
  have haccepts : BodyTyped Accepts o .bottom ns :=
    .last (.assign hparts ⟨.str, .str, htarget, .literal (.str "x") none, rfl⟩)
  refine ⟨((bodyTyped_iff (Q := fun _ _ => True) (by simp) ns).mp haccepts).1, fun h => ?_⟩
  have hproper := ((bodyTyped_iff assigns_iff ns).mp h).2
  simp only [targetsAll, targets, ns, hparts] at hproper
  obtain ⟨t, ht⟩ := hproper _ List.mem_cons_self
  cases ht with
  | read hx _ => cases hx

end Practicum.Choco.Typing
