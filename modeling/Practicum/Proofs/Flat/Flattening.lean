import Practicum.Proofs.Choco.Derivations
import Practicum.Proofs.Flat.Rules
import Practicum.Proofs.Flat.Tidy

/-!
# Flattening of programs that have types

What type checking has found out about a tree, flattening passes on to the operations that it makes:
the value of an expression has the nature of its type, and every function that is called is one of
the functions that the environment knows.
-/

namespace Practicum.Flat

open Choco IR Typing List Nature Node

variable {K : String → Prop} {L : Ledger} {n0 : Nat} {o : Env} {r t : SourceType}
  {scope : Scope}
variable {n s s' : Nat} {ns : List Node} {x : Op} {e : Node} {f op : String}

/-- An environment knows functions of a kind only, and nobody computes with what `print` and `input`
return. -/
def Grants (K : String → Prop) (o : Env) : Prop :=
  ∀ f info, o.lookup f = some (.function info) →
    K f ∧ (f = "print" ∨ f = "input" → Nature.ofType info.output ≠ .integer)

theorem Grants.enter (h : Grants K o) (info : FunctionInfo) : Grants K (o.enter info) := by
  intro f info' hlookup
  refine h f info' ?_
  rw [Env.enter, lookup_append] at hlookup
  refine (Option.or_eq_some_iff.mp hlookup).elim (fun hinner => ?_) And.right
  have hmem := mem_of_lookup_eq_some hinner
  rw [mem_reverse, mem_map] at hmem
  obtain ⟨p, -, hp⟩ := hmem
  cases hp

theorem suits_unary (h : Inverts op t) : Suits (.unary op) [.ofType t] [.ofType t] := by
  cases h <;> exact forall_mem_singleton.mpr rfl

theorem suits_binary {t1 t2 : SourceType} (h : Combines op t1 t2 t) :
    Suits (.binary op) [.ofType t1, .ofType t2] [.ofType t] := by
  have hlogic {u1 u2 : SourceType} (hop : ¬arithmetic.contains op = true) :
      Suits (.binary op) [.ofType u1, .ofType u2] [.ofType .bool] := by
    rw [Suits, if_neg hop]
    exact forall_mem_singleton.mpr rfl
  cases h with
  | arith hop =>
    rw [Suits, if_pos (contains_iff_mem.mpr hop)]
    exact ⟨.integer, by decide, by simp [ofType], by simp [ofType]⟩
  | strConcat | listConcat =>
    exact ⟨.foreign, by decide, by simp [ofType], by simp [ofType]⟩
  | intCompare hop | boolCompare hop | strCompare hop =>
    exact hlogic (by fin_cases hop <;> decide)
  | and | or | is => exact hlogic (by decide)

theorem chain_of_isExpr (h : e.isExpr = true) :
    chain scope e = { value := loaded (expr scope e), targets := [] } := by
  cases e with
  | literal | name | unary | binary | ifExpr | listExpr | index | call => rw [chain]; nofun
  | _ => cases h

theorem makes_stray {n : Node} (h : expr scope n = throw .notAnExpression) :
    Always L n0 (Works K) (do return (← expr scope n).ops) := by
  rw [h]
  intro L1 s hs ops s' hrun
  cases hrun

theorem makes_operand {place : List Node} (h : Always L n0 (Denotes K (.ofType t)) (expr scope e)) :
    Always L n0 (Evaluates K (.ofType t)) (value scope (e :: place)) := by
  rw [value]
  exact makes_loaded h

section
variable (ho : Grants K o) (hscope : Located n0 scope)
include ho hscope

set_option linter.unusedSectionVars false in
mutual

theorem makes_typed {e e' : Node} {t : SourceType} (ht : Typed o e t) (he : Annotates o e e') :
    Always L n0 (Denotes K (.ofType t)) (expr scope e') := by
  obtain ⟨hparts, -, -⟩ := he
  cases ht with
  | literal v hint =>
    cases hparts
    rw [withHint, expr, ofType_literalType]
    exact (makes_literalRule v).denotes
  | read _ _ =>
    cases hparts
    rw [withHint, expr]
    exact makes_nameRule hscope
  | unary ht hop =>
    cases hparts with
    | unary he =>
      rw [withHint, expr]
      exact (makes_unaryRule (makes_operand (makes_typed ht he)) (suits_unary hop)).denotes
  | binary ht1 ht2 hop =>
    cases hparts with
    | binary ha hb =>
      rw [withHint, expr]
      exact (makes_binaryRule (makes_operand (makes_typed ht1 ha)) (makes_operand (makes_typed ht2 hb))
        (suits_binary hop)).denotes
  | cond ht0 ht1 ht2 =>
    cases hparts with
    | cond hc ha hb =>
      obtain ⟨hadmits1, hadmits2⟩ := admits_join _ _
      rw [withHint, expr]
      exact (makes_choiceRule (makes_operand (makes_typed ht0 hc)).denotes.leaves
        (makes_operand (makes_typed ht1 ha)) (makes_operand (makes_typed ht2 hb))
        hadmits1 hadmits2).denotes
  | index ht1 ht2 _ =>
    cases hparts with
    | index ha hb =>
      rw [withHint, expr]
      exact makes_indexRule (makes_operand (makes_typed ht1 ha)).denotes.leaves
        (makes_operand (makes_typed ht2 hb)).denotes.leaves
  | nil hint =>
    cases hparts with
    | listExpr hes =>
      cases hes
      rw [withHint, expr, values]
      exact (makes_listRule fun _ _ _ => Makes.pure (forall_mem_nil _)).denotes
  | display hts =>
    cases hparts with
    | listExpr hes =>
      rw [withHint, expr]
      exact (makes_listRule (makes_all hts hes)).denotes
  | invoke hts hf _ _ =>
    cases hparts with
    | call hes =>
      obtain ⟨hgranted, hforeign⟩ := ho _ _ hf
      rw [withHint, expr]
      exact (makes_callRule (makes_all hts hes) hgranted hforeign).denotes

theorem makes_all {es es' : List Node} {ts : List SourceType} (hts : TypedAll o es ts)
    (hes : AnnotatesAll o es es') : Always L n0 (LeavesAll K) (values scope es') := by
  cases hts with
  | nil =>
    cases hes
    rw [values]
    exact fun _ _ _ => Makes.pure nofun
  | cons ht hts =>
    cases hes with
    | cons he hes =>
      intro L1 s hs
      rw [values]
      refine (makes_loaded (makes_typed ht he)).denotes.leaves.andThen hs fun _ _ c h2 hc => ?_
      refine (makes_all hts hes).andThen (hs.trans h2) fun _ _ _ h3 hcs => Makes.pure ?_
      exact forall_mem_cons.mpr ⟨hc.mono h3, hcs⟩

end

theorem makes_expr {e' : Node} (h : checkExpr o e = .ok (t, e')) :
    Always L n0 (Denotes K (.ofType t)) (expr scope e') := by
  obtain ⟨ht, he⟩ := of_checkExpr h
  exact makes_typed ho hscope ht he

theorem makes_place {place place' : List Node} (h : checkPlace o place = .ok (t, place')) :
    Always L n0 (Evaluates K (.ofType t)) (value scope place') := by
  obtain ⟨e, _, e', rfl, he, rfl⟩ := of_checkPlace h
  exact makes_operand (makes_expr ho hscope he)

/-! ## Statements -/

theorem makes_exprStmt {e' : Node} (h : checkExpr o e = .ok (t, e')) :
    Always L n0 (Works K) (stmt scope e') := by
  have hexpr := makes_expr (L := L) ho hscope h
  obtain ⟨ht, ⟨hparts, -, -⟩⟩ := of_checkExpr h
  cases hparts with
  | call hes =>
    cases ht with
    | invoke hts hf _ _ =>
      rw [withHint, stmt]
      exact makes_callStmtRule (makes_all ho hscope hts hes) (ho _ _ hf).1
  | _ =>
    simp only [withHint, stmt]
    intro L1 s hs
    exact hexpr.andThen hs fun _ _ _ _ hr => Makes.pure hr.works

theorem chained_refill (place : List Node) {ls : List (List Node)} {r : List Node}
    (hls : Holds t (chainPremises o place).1 ls) (hr : (chainPremises o place).2 = .ok (t, r)) :
    Chained K L n0 (chainAt scope (refillChain place ls r)) := by
  fun_induction chainPremises o place generalizing ls with
  | case1 place value rest targets v heq ih =>
    rw [heq] at ih
    cases hls with
    | cons hplace hrest =>
      obtain ⟨u, hplace, -⟩ := hplace
      obtain ⟨e, _, e', rfl, he, rfl⟩ := of_checkPlace hplace
      have hchained := ih hrest hr
      refine ⟨hchained.value, forall_mem_cons.mpr ⟨?_, hchained.targets⟩⟩
      exact (makes_expr ho hscope he).leaves
  | case2 place hplace =>
    cases hls
    obtain ⟨e, rest, e', rfl, he, rfl⟩ := of_checkPlace hr
    have hrefill : refillChain (e :: rest) [] (e' :: rest) = e' :: rest := by
      rw [refillChain]
      nofun
    rw [hrefill, chainAt, chain_of_isExpr (of_checkExpr he).2.isExpr]
    exact ⟨(makes_loaded (makes_expr ho hscope he)).denotes.leaves, nofun⟩

theorem makes_chain {target value : List Node}
    {n' : Node} (h : chainRule o (.assign target value) = .ok n') :
    Always L n0 (Works K) (stmt scope n') := by
  obtain ⟨t, _, r, hr, hls, -, -, rfl⟩ := chainRule_ok_iff.mp h
  have hchained := chained_refill (L := L) ho hscope _ hls hr
  rw [chainPremises] at hls
  cases hls with
  | cons _ _ =>
    exact makes_assignRule hchained

set_option linter.unusedSectionVars false in
mutual

theorem makes_stmt {n n' : Node}
    (h : checkStmt o r n = .ok n') : Always L n0 (Works K) (stmt scope n') := by
  cases n with
  | funcDef =>
    obtain ⟨_, _, rfl, -⟩ := of_funcDef h
    simp only [stmt]
    exact makes_stray (by simp only [expr])
  | varDef =>
    obtain ⟨_, t, rfl, -⟩ := of_varDef h
    simp only [stmt]
    exact makes_stray (by simp only [expr])
  | nonlocalDecl x =>
    rw [checkStmt] at h
    cases h
    simp only [stmt]
    exact makes_stray (by simp only [expr])
  | globalDecl | passStmt =>
    rw [checkStmt] at h
    cases h
    rw [stmt]
    exact fun _ _ _ => Makes.pure Each.nil
  | assign _ value =>
    rw [checkStmt] at h
    exact makes_chain ho hscope h
  | returnStmt value =>
    obtain _ | ⟨e, _ | ⟨e', _⟩⟩ := value
    · rw [checkStmt] at h
      obtain ⟨_, -, h1⟩ := of_bind h
      cases h1
      rw [stmt]
      exact makes_returnRule fun hne => absurd rfl hne
    · rw [checkStmt] at h
      obtain ⟨e', he, h1⟩ := of_bind h
      cases h1
      obtain ⟨t, he, -⟩ := returnValueRule_ok_iff.mp he
      rw [stmt]
      exact makes_returnRule fun _ => (makes_place ho hscope he).denotes.leaves
    · simp [checkStmt] at h
  | ifStmt cond _ _ =>
    rw [checkStmt] at h
    obtain ⟨⟨c, _, _⟩, hrule, h1⟩ := of_bind h
    cases h1
    obtain ⟨hc, hyes, hno⟩ := ifRule_ok_iff.mp hrule
    rw [stmt]
    refine makes_branchRule (makes_place ho hscope hc).denotes.leaves (makes_stmts hyes) ?_
    split at hno
    · cases hno
      rw [stmts]
      exact fun _ _ _ => Makes.pure Each.nil
    · exact makes_stmts hno
  | whileStmt cond body =>
    rw [checkStmt] at h
    obtain ⟨⟨c, b⟩, hrule, h1⟩ := of_bind h
    cases h1
    obtain ⟨hc, hbody⟩ := whileRule_ok_iff.mp hrule
    rw [stmt]
    exact makes_loopRule (makes_place ho hscope hc) (makes_stmts hbody)
  | forStmt x _ body =>
    rw [checkStmt] at h
    obtain ⟨⟨c, b⟩, hrule, h1⟩ := of_bind h
    cases h1
    obtain ⟨⟨t, -, -, hc, -⟩, hbody⟩ := forRule_ok_iff.mp hrule
    rw [stmt]
    exact makes_forRule hscope (makes_place ho hscope hc).denotes.leaves (makes_stmts hbody)
  | _ =>
    simp only [checkStmt] at h
    obtain ⟨⟨t, e'⟩, he, h1⟩ := of_bind h
    cases h1
    exact makes_exprStmt ho hscope he

theorem makes_stmts {ns ns' : List Node}
    (h : checkBody o r ns = .ok ns') : Always L n0 (Works K) (stmts scope ns') := by
  cases ns with
  | nil =>
    rw [checkBody] at h
    cases h
  | cons n ns =>
    obtain ⟨_, rest, rfl, hn, hrest⟩ := of_checkBody h
    have hstmts : Always L n0 (Works K) (stmts scope rest) := by
      obtain ⟨-, rfl⟩ | hrest := hrest
      · rw [stmts]
        exact fun _ _ _ => Makes.pure Each.nil
      · exact makes_stmts hrest
    intro L1 s hs
    rw [stmts]
    refine (makes_stmt hn).andThen hs fun _ _ _ h2 hops => ?_
    refine hstmts.andThen (hs.trans h2) fun _ _ _ h3 hops' => Makes.pure ?_
    exact (hops.mono h3).append hops'

end

end

/-! ## Definitions -/

theorem makes_stmtItem {n : Node} (hdef : n.isDefinition = false) (hscope : Located n0 scope)
    (hstmt : Always L n0 (Works K) (stmt scope n)) : Always L n0 (Introduces K) (item scope n) := by
  have hitem : item scope n = do return (scope, ← stmt scope n) := by
    cases n with
    | funcDef | varDef => cases hdef
    | _ => rw [item] <;> nofun
  intro L1 s hs
  rw [hitem]
  exact hstmt.andThen hs fun _ _ _ h2 hops => Makes.pure ⟨hscope.mono (hs.trans h2).le, hops⟩

mutual

theorem makes_item {n n' : Node} {L : Ledger} {n0 : Nat} {o : Env} {r : SourceType}
    {scope : Scope} (ho : Grants K o) (hscope : Located n0 scope) (h : checkStmt o r n = .ok n') :
    Always L n0 (Introduces K) (item scope n') := by
  cases n with
  | funcDef f _ _ _ =>
    obtain ⟨info, body', rfl, hbody⟩ := of_funcDef h
    have hfunction (L' : Ledger) (n' : Nat) (inner : Scope) (_ : L.Extends n0 L' n')
        (hinner : Located n' inner) : Always L' n' (Works K) (items inner body') :=
      makes_items (ho.enter info) hinner hbody
    intro L1 s hs
    rw [item]
    refine (makes_funcDefRule hscope hfunction).andThen hs fun _ _ _ h2 ho' => ?_
    exact Makes.pure ⟨hscope.mono (hs.trans h2).le, ho'⟩
  | varDef _ _ =>
    obtain ⟨_, t, rfl, hinitial⟩ := of_varDef h
    rw [item]
    exact makes_varDefRule hscope (makes_place ho hscope hinitial).denotes.leaves
  | _ =>
    exact makes_stmtItem (isDefinition_of_checkStmt h) hscope (makes_stmt ho hscope h)

theorem makes_items {ns ns' : List Node} {L : Ledger} {n0 : Nat} {o : Env} {r : SourceType}
    {scope : Scope} (ho : Grants K o) (hscope : Located n0 scope)
    (h : checkBody o r ns = .ok ns') : Always L n0 (Works K) (items scope ns') := by
  cases ns with
  | nil =>
    rw [checkBody] at h
    cases h
  | cons n ns =>
    obtain ⟨_, rest, rfl, hn, hrest⟩ := of_checkBody h
    intro L1 s hs
    rw [items]
    refine (makes_item ho hscope hn).andThen hs fun L2 s2 p _ hp => ?_
    have hitems : Always L2 s2 (Works K) (items p.1 rest) := by
      obtain ⟨-, rfl⟩ | hrest := hrest
      · rw [items]
        exact fun _ _ _ => Makes.pure Each.nil
      · exact makes_items ho hp.1 hrest
    refine hitems.andThen (.refl _ _) fun _ _ _ h3 hops => Makes.pure ?_
    exact (hp.2.mono h3).append hops

end

theorem makes_definitions (ho : Grants K o) (h : ∀ n' ∈ ns, ∃ n, checkStmt o r n = .ok n')
    {L : Ledger} {n0 : Nat} {scope : Scope} (hscope : Located n0 scope) :
    Always L n0 (Introduces K) (definitions scope ns) := by
  induction ns generalizing L n0 scope with
  | nil =>
    intro L1 s hs
    exact Makes.pure ⟨hscope.mono hs.le, Each.nil⟩
  | cons n' ns ih =>
    obtain ⟨⟨n, hn⟩, hns⟩ := forall_mem_cons.mp h
    intro L1 s hs
    refine (makes_item ho hscope hn).andThen hs fun _ _ p _ hp => ?_
    refine (ih hns hp.1).andThen (.refl _ _) fun _ _ q h3 hq => Makes.pure ⟨hq.1, ?_⟩
    exact (hp.2.mono h3).append hq.2

structure Checked (o : Env) (defs stmts : List Node) : Prop where
  defs : ∀ n' ∈ defs, ∃ n, checkStmt o .bottom n = .ok n'
  stmts : stmts = [] ∨ ∃ ns, checkBody o .bottom ns = .ok stmts

variable {defs body : List Node}

theorem makes_program (ho : Grants K o) (h : Checked o defs body) :
    Always L 0 (Works K) (program defs body) := by
  have hempty : Located 0 {} := forall_mem_singleton.mpr nofun
  have hdefs (p : Node → Bool) : ∀ n' ∈ defs.filter p, ∃ n, checkStmt o .bottom n = .ok n' :=
    fun n' hn' => h.defs n' (mem_of_mem_filter hn')
  intro L1 s hs
  refine (makes_definitions ho (hdefs isVarDef) hempty).andThen hs fun _ _ p _ hp => ?_
  refine (makes_definitions ho (hdefs isFuncDef) hp.1).andThen (.refl _ _) fun L3 s3 q h3 hq => ?_
  have hstmts : Always L3 s3 (Works K) (stmts p.1 body) := by
    obtain hnil | ⟨_, hns⟩ := h.stmts
    · rw [hnil, stmts]
      exact fun _ _ _ => Makes.pure Each.nil
    · exact makes_stmts ho (hp.1.mono h3.le) hns
  refine hstmts.andThen (.refl _ _) fun _ _ _ h4 hops => Makes.pure ?_
  exact ((hp.2.mono (h3.trans h4)).append (hq.2.mono h4)).append hops

/-! ## Functions of a program -/

def function? (o : Op) : Option String :=
  match o.code with
  | .flat (.funcDef f _) => some f
  | _ => none

theorem function?_of_funcDefRule {func : String} {body : Scope → Flatten (List Op)}
    (h : (funcDefRule scope func params returnType body).run s = .ok (x, s')) :
    function? x = some func := by
  obtain ⟨_, _, _, _, -, -, h2⟩ := of_run_bind₂ h
  obtain ⟨_, _, _, _, -, -, h4⟩ := of_run_bind₂ h2
  obtain ⟨_, _, -, h5⟩ := of_run_bind h4
  cases h5
  rfl

theorem function?_of_definitions {q : Scope × List Op}
    (h : (definitions scope ns).run s = .ok (q, s'))
    (hf : .funcDef f params returnType body ∈ ns) : ∃ x ∈ q.2, function? x = some f := by
  induction ns generalizing scope s s' q with
  | nil => cases hf
  | cons n ns ih =>
    obtain ⟨⟨_, _⟩, _, ⟨_, _⟩, _, hitem, hrest, h2⟩ := of_run_bind₂ h
    cases h2
    obtain rfl | hf := mem_cons.mp hf
    · rw [item] at hitem
      obtain ⟨x, _, hx, h3⟩ := of_run_bind hitem
      cases h3
      exact ⟨x, mem_cons_self, function?_of_funcDefRule hx⟩
    · obtain ⟨x, hx, hfunction⟩ := ih hrest hf
      exact ⟨x, mem_append_right _ hx, hfunction⟩

theorem function?_of_program {ops : List Op}
    (h : (program defs body).run s = .ok (ops, s')) {b : List Node}
    (hf : .funcDef f params returnType b ∈ defs) : ∃ x ∈ ops, function? x = some f := by
  obtain ⟨⟨_, _⟩, _, ⟨_, _⟩, _, -, hfuncs, h2⟩ := of_run_bind₂ h
  obtain ⟨_, _, -, h3⟩ := of_run_bind h2
  cases h3
  obtain ⟨x, hx, hfunction⟩ := function?_of_definitions hfuncs (mem_filter.mpr ⟨hf, rfl⟩)
  exact ⟨x, mem_append_left _ (mem_append_right _ hx), hfunction⟩

/-- The numbers of the main function and of the functions in its body, with their names. -/
def functionOf (main : Op) (i : Nat) : Option String :=
  ((main :: main.regionOps 0).find? fun x => x.id == i).bind function?

theorem mem_of_functionOf {i : Nat} (h : functionOf main i = some f) :
    ∃ x ∈ main :: main.regionOps 0, x.id = i ∧ function? x = some f := by
  obtain ⟨x, hfind, hf⟩ := Option.bind_eq_some_iff.mp h
  have hid := find?_some hfind
  exact ⟨x, mem_of_find?_eq_some hfind, beq_iff_eq.mp hid, hf⟩

section
variable (h : Works K L n [main])
include h

theorem regular_of_mem (hx : x ∈ main :: main.regionOps 0) : Regular (fun _ => K) L n x := by
  obtain rfl | hx := mem_cons.mp hx
  · exact h.of_mem mem_cons_self
  · exact (h.regionOps 0).of_mem hx

theorem functionOf_id (hx : x ∈ main :: main.regionOps 0) : functionOf main x.id = function? x := by
  have hsome : ((main :: main.regionOps 0).find? fun y => y.id == x.id).isSome = true :=
    find?_isSome.mpr ⟨x, hx, beq_self_eq_true _⟩
  obtain ⟨y, hy⟩ := Option.isSome_iff_exists.mp hsome
  have hid := find?_some hy
  rw [beq_iff_eq] at hid
  have hcode : y.code = x.code := by
    rw [(regular_of_mem h (mem_of_find?_eq_some hy)).code, (regular_of_mem h hx).code, hid]
  rw [functionOf, hy, Option.bind_some, function?, function?, hcode]

theorem recorded_of_functionOf {i : Nat}
    (hf : functionOf main i = some f) : i < n ∧ ∃ result, L.code i = .funcDef f result := by
  obtain ⟨x, hx, rfl, hfunction⟩ := mem_of_functionOf hf
  have hregular := regular_of_mem h hx
  refine ⟨hregular.below, ?_⟩
  rw [function?, hregular.code] at hfunction
  split at hfunction
  next g result hcode =>
    cases hfunction
    exact ⟨result, Opcode.flat.inj hcode⟩
  · cases hfunction

theorem housed_functionOf (hmain : function? main = some "_main") :
    Housed (fun x f => functionOf main x.id = some f) (Named (functionOf main)) [main] := by
  have hstands (x : Op) (hx : x ∈ main :: main.regionOps 0) (f : String)
      (hf : function? x = some f) : functionOf main x.id = some f :=
    (functionOf_id h hx).trans hf
  refine ⟨main, rfl, hstands main mem_cons_self _ hmain, ?_⟩
  rintro f ⟨i, hi⟩
  obtain ⟨x, hx, rfl, hf⟩ := mem_of_functionOf hi
  obtain rfl | hx := mem_cons.mp hx
  · exact .inl (Option.some.inj (hf.symm.trans hmain))
  · exact .inr ⟨x, hx, hi⟩

end

/-- The flat form of a program that has types is tidy, and the functions of the program stand in
it. -/
theorem exists_tidy_ofTree (ho : Grants K o) (h : Checked o defs body) {rest : List Node}
    {m : Module} (hflat : ofTree (.program defs body :: rest) = .ok m) :
    ∃ funcs L, Tidy funcs K [] (fun _ => K) L m ∧ m.remnants = [] ∧
      ∀ f params returnType b, .funcDef f params returnType b ∈ defs → Named funcs f := by
  obtain ⟨⟨main, next⟩, hrun, hm⟩ := of_bind hflat
  cases hm
  have hmakes : Makes ⟨fun _ => .unknown, fun _ => .yield⟩ 0 (fun L n x => Works K L n [x])
      (do step (.funcDef "_main" .none) [] [.plain (← program defs body)] : Flatten Op) :=
    (makes_program ho h _ 0 (.refl _ _)).bind fun _ _ _ _ hops => makes_function hops
  obtain ⟨L, k, _, -, hworks⟩ := hmakes main next hrun
  obtain ⟨_, s, hprogram, hmain⟩ := of_run_bind hrun
  cases hmain
  refine ⟨functionOf _, L, ⟨⟨hworks, nofun, nofun⟩, fun _ _ => id,
    fun i f => recorded_of_functionOf hworks, housed_functionOf hworks rfl, nofun⟩, rfl,
    fun f params returnType b hf => ?_⟩
  obtain ⟨x, hx, hfunction⟩ := function?_of_program hprogram hf
  exact ⟨x.id, (functionOf_id hworks (mem_cons_of_mem _ hx)).trans hfunction⟩

end Practicum.Flat
