import Practicum.Choco.Analysis
import Practicum.Proofs.Choco.Functions
import Practicum.Proofs.Choco.Judgements

/-!
# Two editions of the typing rules

The second and the third edition differ in their reports, and in what they accept in calls with too
few arguments, in identities, concatenations of lists, returns and loops. Where both apply the same
conditions they accept the same programs with the same types.
-/

namespace Practicum.Choco

open Typing List Option Node

/-! ## Results -/

section
variable {α β ε : Type}

theorem toOption_bind (x : Except ε α) (f : α → Except ε β) :
    (x >>= f).toOption = x.toOption.bind fun a => (f a).toOption := by
  cases x <;> rfl

theorem toOption_map (f : α → β) (x : Except ε α) : (x.map f).toOption = x.toOption.map f := by
  cases x <;> rfl

theorem toOption_functorMap (f : α → β) (x : Except ε α) : (f <$> x).toOption = x.toOption.map f :=
  toOption_map f x

theorem toOption_pure (a : α) : (pure a : Except ε α).toOption = some a :=
  rfl

theorem toOption_throw (e : ε) : (throw e : Except ε α).toOption = none :=
  rfl

theorem toOption_ok (a : α) : (Except.ok a : Except ε α).toOption = some a :=
  rfl

theorem toOption_error (e : ε) : (Except.error e : Except ε α).toOption = none :=
  rfl

theorem toOption_ite {p : Prop} [Decidable p] (x y : Except ε α) :
    (if p then x else y).toOption = if p then x.toOption else y.toOption :=
  apply_ite ..

theorem toOption_eq_some_iff {x : Except ε α} {a : α} : x.toOption = some a ↔ x = .ok a := by
  cases x <;> simp [Except.toOption]

end

attribute [local simp] toOption_bind toOption_map toOption_functorMap toOption_pure toOption_throw
  toOption_ok toOption_error toOption_ite

attribute [local simp] EarlyTyping.checkStmt checkStmt

variable {o : Env} {e1 e2 e1' e2' : Judgement} {op : String} {place es : List Node}

/-! ## Rules -/

/-- The operands of an operator are accepted by both editions, with the same type, or by neither. -/
def SameRule (op : String) (t u : SourceType) : Prop :=
  (op = "is" → ((lacksIdentity t ∨ lacksIdentity u) ↔
    (t ≠ u ∧ ¬(t.isList ∧ u.isList)) ∧ u ≠ .none)) ∧
  (op = "+" → ∀ t' u', t = .list t' → u = .list u' → t.join u = .list (t'.join u'))

attribute [local simp] Judgement.ofType Judgement.ofList sameRule EarlyTyping.sameRule
  Option.bind_map Function.comp_def

theorem toOption_elemType (t : SourceType) : (elemType t).toOption =
    match t with | .list u => some u | _ => none := by
  cases t <;> rfl

theorem binaryRule_congr (h1 : e1.toOption = e1'.toOption) (h2 : e2.toOption = e2'.toOption)
    (hsame : ∀ t l u r, e1'.toOption = some (t, l) → e2'.toOption = some (u, r) → SameRule op t u) :
    (EarlyTyping.binaryRule e1 op e2).toOption = (binaryRule e1' op e2').toOption := by
  simp [EarlyTyping.binaryRule, binaryRule, logicRule, isRule, EarlyTyping.isRule, arithRule,
    strConcatRule, listConcatRule, EarlyTyping.listConcatRule, intCompareRule, boolCompareRule,
    strCompareRule, EarlyTyping.invalidOperation, toOption_elemType, h1, h2]
  generalize e1'.toOption = p at *
  generalize e2'.toOption = q at *
  rcases p with _ | ⟨t, l⟩
  · simp
  rcases q with _ | ⟨u, r⟩
  · simp
  obtain ⟨his, hplus⟩ := hsame t l u r rfl rfl
  by_cases hop : op = "is"
  · subst hop
    have his := his rfl
    simp only [not_and_or, Bool.not_eq_true] at his
    simp [arithmetic, orderings, his]
  cases t with
  | list _ =>
    cases u <;> simp [SourceType.isList, hop]
    split_ifs with _ h
    · rw [hplus h _ _ rfl rfl]
    · rfl
    · rfl
  | _ => simp [SourceType.isList, hop] <;> split_ifs <;> rfl

theorem unaryRule_congr (h : e1.toOption = e1'.toOption) :
    (EarlyTyping.unaryRule op e1).toOption = (unaryRule op e1').toOption := by
  simp [EarlyTyping.unaryRule, unaryRule, negateRule, notRule, h]

theorem indexRule_congr (h1 : e1.toOption = e1'.toOption) (h2 : e2.toOption = e2'.toOption) :
    (EarlyTyping.indexRule e1 e2).toOption = (indexRule e1' e2').toOption := by
  simp only [EarlyTyping.indexRule, indexRule, toOption_bind, h1]
  refine bind_congr fun ⟨t, l⟩ ht => ?_
  cases t <;> simp [strSelectRule, listSelectRule, h1, h2, ht, toOption_elemType, SourceType.isList]

theorem condRule_congr {e0 e0' : Judgement} (h0 : e0.toOption = e0'.toOption)
    (h1 : e1.toOption = e1'.toOption) (h2 : e2.toOption = e2'.toOption) :
    (condRule e1 e0 e2).toOption = (condRule e1' e0' e2').toOption := by
  simp [condRule, h0, h1, h2]

section
variable (h : ∀ e ∈ es, (EarlyTyping.checkExpr o e).toOption = (checkExpr o e).toOption)
include h

theorem checkAll_toOption : (((EarlyTyping.checkAll o es).mapM id).map fun typed =>
      (typed.map Prod.fst, typed.flatMap Prod.snd)).toOption = (checkAll o es).toOption := by
  induction es with
  | nil => rfl
  | cons e es ih =>
    rw [forall_mem_cons] at h
    rw [EarlyTyping.checkAll, checkAll]
    have ih := ih h.2
    simp [h.1, ← ih]

theorem argsRule_toOption {inputs : List SourceType} (hlength : inputs.length ≤ es.length) :
    (EarlyTyping.argsRule (EarlyTyping.checkAll o es) inputs).toOption = (do
      let (ts, es) ← checkAll o es
      if ts.length ≠ inputs.length then throw (.argumentCount inputs.length ts.length)
      (ts.zip inputs).forM fun (found, expected) => requireAssignable found expected
      return es : Check (List Node)).toOption := by
  induction es generalizing inputs with
  | nil =>
    cases length_eq_zero_iff.mp (Nat.le_zero.mp hlength)
    rfl
  | cons e es ih =>
    rw [forall_mem_cons] at h
    rw [EarlyTyping.checkAll, EarlyTyping.argsRule, checkAll]
    cases inputs with
    | nil => simp [h.1]
    | cons _ _ =>
      have ih := ih h.2 (Nat.le_of_succ_le_succ hlength)
      simp [h.1] at ih ⊢
      simp only [ih]
      cases (checkExpr o e).toOption with
      | none => rfl
      | some p =>
        cases (checkAll o es).toOption with
        | none => simp
        | some q =>
          simp only [bind_some]
          split_ifs <;> simp

end

/-! ## Expressions -/

def TypedIn (o : Env) (place : List Node) (t : SourceType) : Prop :=
  ∃ place', checkPlace o place = .ok (t, place')

/-- The editions apply the same rule to an expression, whatever its parts are. -/
def AlikeHere (o : Env) : Node → Prop
  | .binary op a b _ => ∀ t u, TypedIn o a t → TypedIn o b u → SameRule op t u
  | .call f es _ => ∀ info, o.lookup f = some (.function info) → info.inputs.length ≤ es.length
  | _ => True

/-- The editions apply the same rules to an expression and to all its parts. -/
def AlikeExpr (o : Env) (e : Node) : Prop :=
  ∀ n ∈ e.walk, AlikeHere o n

theorem AlikeExpr.child {e c : Node} (h : AlikeExpr o e) (hc : c ∈ e.children) : AlikeExpr o c :=
  fun n hn => h n (walk_eq e ▸ mem_cons_of_mem _ (mem_flatMap.mpr ⟨c, hc, hn⟩))

theorem agree_place
    (h : ∀ e ∈ place, (EarlyTyping.checkExpr o e).toOption = (checkExpr o e).toOption) :
    (EarlyTyping.checkPlace o place).toOption = (checkPlace o place).toOption := by
  cases place with
  | nil => rfl
  | cons e _ => simp [EarlyTyping.checkPlace, checkPlace, h e mem_cons_self]

/-- The second and the third edition find the same types in an expression. -/
theorem agree_expr (e : Node) (h : AlikeExpr o e) :
    (EarlyTyping.checkExpr o e).toOption = (checkExpr o e).toOption := by
  induction e using childrenInduction with
  | h e ih =>
    have hall : ∀ es ∈ e.places, ∀ c ∈ es,
        (EarlyTyping.checkExpr o c).toOption = (checkExpr o c).toOption := fun es hes c hc =>
      have hchild := mem_flatten.mpr ⟨es, hes, hc⟩
      ih c hchild (h.child hchild)
    have hplace (place : List Node) (hmem : place ∈ e.places) := agree_place (hall place hmem)
    have hhere := h e (walk_eq e ▸ mem_cons_self)
    cases e with
    | unary op a hint =>
      simp [EarlyTyping.checkExpr, checkExpr, unaryRule_congr (hplace a (by simp [places]))]
    | binary op a b hint =>
      rw [EarlyTyping.checkExpr, checkExpr, toOption_bind, toOption_bind, binaryRule_congr
        (hplace a (by simp [places])) (hplace b (by simp [places]))]
      intro t l u r ht hu
      exact hhere t u ⟨l, toOption_eq_some_iff.mp ht⟩ ⟨r, toOption_eq_some_iff.mp hu⟩
    | ifExpr c a b hint =>
      simp [EarlyTyping.checkExpr, checkExpr, condRule_congr (hplace c (by simp [places]))
        (hplace a (by simp [places])) (hplace b (by simp [places]))]
    | index a b hint =>
      simp [EarlyTyping.checkExpr, checkExpr, indexRule_congr (hplace a (by simp [places]))
        (hplace b (by simp [places]))]
    | listExpr es hint =>
      have hes := checkAll_toOption (hall es (by simp [places]))
      cases es with
      | nil => rfl
      | cons e es =>
        simp [EarlyTyping.checkExpr, checkExpr, EarlyTyping.checkAll, ← hes, bind_assoc]
    | call f es hint =>
      simp [EarlyTyping.checkExpr, checkExpr, EarlyTyping.callee, invokeRule, Env.entry]
      cases hlookup : o.lookup f with
      | none => simp
      | some entry =>
        cases entry with
        | value t => simp
        | function info =>
          simp [argsRule_toOption (hall es (by simp [places])) (hhere info hlookup), bind_assoc]
          refine bind_congr fun a _ => ?_
          split_ifs <;> simp
    | _ => simp [EarlyTyping.checkExpr, checkExpr]

/-! ## Assignments -/

/-- The value on the right of an assignment, which may be an assignment itself. -/
def EarlyTyping.valueRule (o : Env) : List Node → Judgement
  | .assign target value :: rest => do
    let (t, n) ← assignRule o (.assign target value)
    return (t, n :: rest)
  | place => checkPlace o place

theorem EarlyTyping.assignRule_eq {target value : List Node} (h : isTarget target = true) :
    assignRule o (.assign target value) = do
      let (t1, l) ← checkPlace o target
      let (t2, r) ← valueRule o value
      requireAssignable t2 t1 return (t2, .assign l r) := by
  rw [assignRule.eq_def]
  simp [h]
  unfold valueRule
  split <;> simp

/-- The editions apply the same rules to the sides of a chain of assignments. -/
def AlikeChain (o : Env) : List Node → Prop
  | .assign target value :: _ =>
    EarlyTyping.isTarget target = true ∧ (∀ e ∈ target, AlikeExpr o e) ∧ AlikeChain o value
  | place => ∀ e ∈ place, AlikeExpr o e

def assignAll (targets : List Judgement) (value : Judgement) : Check (List (List Node)) :=
  targets.mapM fun target => do return (← assignRule target value).1

theorem assignAll_cons {target value : Judgement} {targets : List Judgement} :
    (assignAll (target :: targets) value).toOption =
      (assignRule target value).toOption.bind fun p =>
        (assignAll targets value).toOption.map (p.1 :: ·) := by
  simp [assignAll]

theorem valueRule_toOption (h : AlikeChain o place) :
    (EarlyTyping.valueRule o place).toOption = (do
      let (t, v) ← (chainPremises o place).2
      let ls ← assignAll (chainPremises o place).1 (chainPremises o place).2
      return (t, refillChain place ls v)).toOption := by
  fun_induction AlikeChain o place with
  | case1 target value _ ih =>
    obtain ⟨htarget, hparts, hvalue⟩ := h
    have hparts := agree_place fun e he => agree_expr e (hparts e he)
    rw [EarlyTyping.valueRule, EarlyTyping.assignRule_eq htarget, chainPremises]
    simp [ih hvalue, hparts, assignAll_cons, assignRule]
    cases (checkPlace o target).toOption <;> cases (chainPremises o value).2.toOption <;>
      cases (assignAll (chainPremises o value).1 (chainPremises o value).2).toOption <;>
      simp [refillChain, map_eq_bind, bind_assoc]
  | case2 place hne =>
    have hvalue : EarlyTyping.valueRule o place = EarlyTyping.checkPlace o place := by
      unfold EarlyTyping.valueRule
      split
      · exact absurd rfl (hne _ _ _)
      · rfl
    have hpremises : chainPremises o place = ([], checkPlace o place) := by
      unfold chainPremises
      split
      · exact absurd rfl (hne _ _ _)
      · rfl
    rw [hvalue, hpremises, agree_place fun e he => agree_expr e (h e he)]
    cases checkPlace o place <;> simp [assignAll, refillChain]

theorem chainRule_toOption {target value : List Node} (h : AlikeChain o [.assign target value])
    (hnone : 1 < (chainPremises o [.assign target value]).1.length →
      ∀ v, (chainPremises o [.assign target value]).2.toOption ≠ some (.list .none, v)) :
    (EarlyTyping.assignRule o (.assign target value)).toOption.map Prod.snd =
      (chainRule o (.assign target value)).toOption := by
  have hvalue := congrArg (Option.map fun p => p.2.headD (.assign target value))
    (valueRule_toOption h)
  simp [EarlyTyping.valueRule] at hvalue
  rw [chainRule, hvalue]
  rw [chainPremises] at hnone ⊢
  cases htargets : (chainPremises o value).1 with
  | nil =>
    simp [htargets, assignAll, assignRule]
    cases (chainPremises o value).2.toOption <;> cases (checkPlace o target).toOption <;> simp
  | cons _ _ =>
    simp [htargets, multiAssignRule, assignAll] at hnone ⊢
    refine bind_congr fun p hv => ?_
    obtain ⟨t, v⟩ := p
    have ht : t ≠ .list .none := fun ht => hnone v (ht ▸ hv)
    simp [ht, map_eq_bind]

/-! ## Statements -/

mutual

/-- The editions apply the same rules to a statement. In the second edition a function returns
`r₂`, in the third edition `r₃`. -/
def AlikeStmt (o : Env) (r₂ r₃ : SourceType) : Node → Prop
  | .funcDef f _ returnType body => ∀ info, o.lookup f = some (.function info) →
    ∃ r, typeOfPlace returnType = .ok r ∧ AlikeBody (o.enter info) r info.output body
  | .varDef declared initial => (∀ e ∈ initial, AlikeExpr o e) ∧
    ∀ x type ds, declared = .typedVar x type :: ds → ∃ t, typeOfPlace type = .ok t
  | .assign target value => AlikeChain o [.assign target value] ∧
    (1 < (chainPremises o [.assign target value]).1.length →
      ∀ v, (chainPremises o [.assign target value]).2.toOption ≠ some (.list .none, v))
  | .returnStmt value => value.length ≤ 1 ∧ (∀ e ∈ value, AlikeExpr o e) ∧
    ∀ t, (if value.isEmpty then t = .none else TypedIn o value t) → (t = r₂ ↔ t.assignable r₃)
  | .ifStmt c a b => (∀ e ∈ c, AlikeExpr o e) ∧ AlikeBody o r₂ r₃ a ∧ AlikeBody o r₂ r₃ b
  | .whileStmt c b => (∀ e ∈ c, AlikeExpr o e) ∧ AlikeBody o r₂ r₃ b
  | .forStmt x e b => (∀ e' ∈ e, AlikeExpr o e') ∧ AlikeBody o r₂ r₃ b ∧
    ∀ t elem u, TypedIn o e t → Selects t elem → o.lookup x = some (.value u) →
      (u = elem ↔ elem.assignable u)
  | .globalDecl x => ∃ entry, o.lookup x = some entry
  | .nonlocalDecl x => ∃ entry, o.lookup x = some entry
  | .passStmt => True
  | n => AlikeExpr o n

def AlikeBody (o : Env) (r₂ r₃ : SourceType) : List Node → Prop
  | [] => True
  | n :: ns => AlikeStmt o r₂ r₃ n ∧ AlikeBody o r₂ r₃ ns

end

theorem loopVariable_congr {x : String} {elem : SourceType}
    (h : ∀ u, o.lookup x = some (.value u) → (u = elem ↔ elem.assignable u)) :
    (EarlyTyping.requireEntry o x elem).toOption = (do
      requireAssignable elem (← o.variable x) : Check Unit).toOption := by
  simp [EarlyTyping.requireEntry, Env.variable, Env.entry]
  cases hlookup : o.lookup x with
  | none => simp
  | some entry =>
    cases entry with
    | value u => simp [requireAssignable, h u hlookup]
    | function _ => simp

mutual

/-- The second and the third edition accept the same statements, and find the same types in them. -/
theorem agree_stmt {o : Env} {r2 r3 : SourceType} (n : Node) (h : AlikeStmt o r2 r3 n) :
    (EarlyTyping.checkStmt o r2 n).toOption.map Prod.snd = (checkStmt o r3 n).toOption := by
  cases n with
  | funcDef f _ _ body =>
    rw [AlikeStmt] at h
    simp [EarlyTyping.functionInfo, functionInfo, Env.entry]
    cases hlookup : o.lookup f with
    | none => simp
    | some entry =>
      cases entry with
      | value t => simp
      | function info =>
        obtain ⟨r, hr, hbody⟩ := h info hlookup
        simp [hr, agree_body body hbody]
  | varDef declared _ =>
    rw [AlikeStmt] at h
    obtain ⟨hinitial, htype⟩ := h
    have hplace := agree_place fun e he => agree_expr e (hinitial e he)
    cases declared with
    | nil => rfl
    | cons d ds =>
      cases d with
      | typedVar x type =>
        obtain ⟨t, ht⟩ := htype x type ds rfl
        simp [ht, EarlyTyping.initRule, initRule, hplace]
      | _ => rfl
  | assign _ value =>
    rw [AlikeStmt] at h
    simp [← chainRule_toOption h.1 h.2]
  | returnStmt value =>
    rw [AlikeStmt] at h
    obtain ⟨hlength, hvalue, hreturn⟩ := h
    have hplace := agree_place fun e he => agree_expr e (hvalue e he)
    obtain _ | ⟨e, _ | ⟨_, _⟩⟩ := value
    · simp [EarlyTyping.returnRule, returnRule, requireType, requireAssignable, hreturn .none rfl]
    · simp [EarlyTyping.returnRule, returnValueRule, hplace, requireType, requireAssignable]
      refine bind_congr fun (t, place) ht => ?_
      simp [hreturn t ⟨place, toOption_eq_some_iff.mp ht⟩]
    · simp at hlength
  | ifStmt c a b =>
    rw [AlikeStmt] at h
    have hplace := agree_place fun e he => agree_expr e (h.1 e he)
    cases b <;> simp [ifRule, hplace, agree_body a h.2.1, agree_body _ h.2.2]
  | whileStmt c b =>
    rw [AlikeStmt] at h
    have hplace := agree_place fun e he => agree_expr e (h.1 e he)
    simp [whileRule, hplace, agree_body b h.2]
  | forStmt x e b =>
    rw [AlikeStmt] at h
    obtain ⟨he, hb, hvariable⟩ := h
    have hplace := agree_place fun e he' => agree_expr e (he e he')
    simp [EarlyTyping.forRule, forRule, hplace]
    refine bind_congr fun (t, place) ht => ?_
    have hvariable {elem : SourceType} (helem : Selects t elem) :=
      loopVariable_congr fun u => hvariable t elem u ⟨place, toOption_eq_some_iff.mp ht⟩ helem
    cases t with
    | str =>
      simp [SourceType.isList, EarlyTyping.forStrRule, forStrRule, hplace, ht, hvariable .str,
        agree_body b hb, Option.bind_assoc]
    | list elem =>
      simp [SourceType.isList, EarlyTyping.forListRule, forListRule, hplace, ht, elemType,
        hvariable (.list elem), agree_body b hb, Option.bind_assoc]
    | _ => simp [SourceType.isList, EarlyTyping.forStrRule, hplace, ht]
  | globalDecl x | nonlocalDecl x =>
    rw [AlikeStmt] at h
    obtain ⟨entry, hentry⟩ := h
    simp [EarlyTyping.outerRule, hentry]
  | passStmt => rfl
  | _ =>
    simp only [AlikeStmt] at h
    simp [agree_expr _ h]

theorem agree_body {o : Env} {r2 r3 : SourceType} (ns : List Node) (h : AlikeBody o r2 r3 ns) :
    (EarlyTyping.checkBody o r2 ns).toOption = (checkBody o r3 ns).toOption := by
  match ns with
  | [] => rfl
  | [n] =>
    rw [AlikeBody] at h
    simp [EarlyTyping.checkBody, checkBody, ← agree_stmt n h.1]
  | n :: m :: rest =>
    rw [AlikeBody] at h
    simp [EarlyTyping.checkBody, checkBody, ← agree_stmt n h.1, agree_body (m :: rest) h.2]

end

/-! ## Programs -/

/-- The editions apply the same rules to a program, with the names that it declares. -/
def AlikeProgram (ns : List Node) : Prop :=
  ∀ o defs stmts rest, buildEnv ns = .ok o → ns = .program defs stmts :: rest →
    AlikeBody o .bottom .bottom defs ∧ AlikeBody o .bottom .bottom stmts

theorem agree_program {ns : List Node} (h : AlikeProgram ns) :
    (EarlyTyping.checkProgram ns).toOption = (checkProgram ns).toOption := by
  rw [EarlyTyping.checkProgram, checkProgram, toOption_bind, toOption_bind]
  refine bind_congr fun o ho => ?_
  cases ns with
  | nil => rfl
  | cons n rest =>
    cases n with
    | program defs stmts =>
      obtain ⟨hdefs, hstmts⟩ := h o defs stmts rest (toOption_eq_some_iff.mp ho) rfl
      cases defs <;> cases stmts <;> simp [agree_body _ hdefs, agree_body _ hstmts]
    | _ => rfl

/-- The second and the third edition accept the same programs, and find the same types in them,
where they apply the same rules. -/
theorem editions_agree {ns : List Node} (h : AlikeProgram ns) (ns' : List Node) :
    checkTypes .second ns = .ok ns' ↔ checkTypes .third ns = .ok ns' := by
  rw [checkTypes, checkTypes, if_pos rfl, if_neg nofun, ← toOption_eq_some_iff,
    ← toOption_eq_some_iff, agree_program h]

def sumPrinted : List Node :=
  [.program [.varDef [.typedVar "x" [.typeName "int"]] [.literal (.int 1 32) none]]
    [.call "print" [.binary "+" [.name "x" none] [.literal (.int 2 32) none] none] none]]

theorem buildEnv_sumPrinted : buildEnv sumPrinted = .ok (("x", .value .int) :: Env.initial) := by
  simp [sumPrinted, buildEnv, Declared.collect, children, places]
  rfl

theorem editions_agree_sumPrinted : AlikeProgram sumPrinted ∧ ∀ ns',
    checkTypes .second sumPrinted = .ok ns' ↔ checkTypes .third sumPrinted = .ok ns' := by
  have halike : AlikeProgram sumPrinted := by
    rintro o defs stmts rest ho ⟨⟩
    cases buildEnv_sumPrinted.symm.trans ho
    simp [AlikeBody, AlikeStmt, AlikeExpr, Node.walk, Node.walkAll, AlikeHere, SameRule]
    refine ⟨?_, ?_, ?_⟩
    · rintro _ _ _ - rfl -
      exact ⟨.int, rfl⟩
    · rintro _ ⟨⟩
      exact Nat.le_refl 1
    · rintro _ _ ⟨_, ⟨⟩⟩ - _ _ ⟨⟩
  exact ⟨halike, editions_agree halike⟩

/-- The second edition accepts a call without the argument that the function asks for. -/
theorem missingArgument_accepted :
    let ns : List Node := [.program [] [.call "print" [] none]]
    (∃ ns', checkTypes .second ns = .ok ns') ∧ ¬∃ ns', checkTypes .third ns = .ok ns' := by
  have henv : buildEnv [.program [] [.call "print" [] none]] = .ok Env.initial := by
    simp [buildEnv, Declared.collect, Node.children, Node.places]
    rfl
  constructor
  · rw [checkTypes, if_pos rfl, EarlyTyping.checkProgram, henv]
    exact ⟨_, rfl⟩
  · rintro ⟨ns', h⟩
    have hthird : Edition.third ≠ .second := by decide
    rw [checkTypes, if_neg hthird, checkProgram, henv] at h
    cases h

end Practicum.Choco
