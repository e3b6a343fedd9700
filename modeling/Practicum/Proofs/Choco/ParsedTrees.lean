import Practicum.Choco.Parser.Report
import Practicum.Proofs.Choco.Functions
import Practicum.Proofs.Choco.Reading

/-!
# Parsed trees are in order

Every tree that the later editions parse is in order, and no block of it is empty. A block is not
empty because the lexer never ends a block that it has just begun, and the body of a function
because its end is refused before its first statement.
-/

namespace Practicum.Choco

open Parser Node List

variable {n : Node}

namespace Node

/-- The blocks of a node in which a statement must stand. The other lists of statements that are
judged, an alternative and the two parts of a program, are judged only if they are not empty. -/
def blocks : Node → List (List Node)
  | .funcDef _ _ _ body => [body.dropWhile isDeclaration]
  | .ifStmt _ body _ => [body]
  | .whileStmt _ body => [body]
  | .forStmt _ _ body => [body]
  | _ => []

/-- A tree in order, without empty blocks. -/
def Whole (n : Node) : Prop :=
  ∀ m ∈ n.walk, m.verifyHere = .ok () ∧ ∀ b ∈ m.blocks, b ≠ []

def Formed (p : Node → Bool) (n : Node) : Prop :=
  p n = true ∧ n.Whole

variable {p : Node → Bool}

theorem Formed.intro (hsort : p n = true)
    (h : n.verifyHere = .ok () ∧ (∀ b ∈ n.blocks, b ≠ []) ∧ ∀ c ∈ n.children, c.Whole) :
    Formed p n := by
  obtain ⟨hhere, hblocks, hchildren⟩ := h
  refine ⟨hsort, fun m hm => ?_⟩
  rw [walk_eq] at hm
  obtain rfl | hm := mem_cons.mp hm
  · exact ⟨hhere, hblocks⟩
  · obtain ⟨c, hc, hm⟩ := mem_flatMap.mp hm
    exact hchildren c hc m hm

theorem isExpr_of_isLiteral (h : n.isLiteral = true) : n.isExpr = true := by
  cases n <;> first | rfl | cases h

theorem isAssigned_of_isExpr (h : n.isExpr = true) : n.isAssigned = true := by
  cases n <;> first | rfl | cases h

theorem isStmt_of_isAssigned (h : n.isAssigned = true) : n.isStmt = true := by
  cases n <;> first | rfl | cases h

theorem isDeclaration_of_isStmt (h : n.isStmt = true) : n.isDeclaration = false := by
  cases n <;> first | rfl | cases h

end Node

variable {kind : TokenKind} {cause : SyntaxCause} {s : Scanner}

namespace Standard

variable {α β : Type} {Q : α → Prop} {f : β → Parser α}

theorem error_ne_ok (l : Lexer) (r : α × Lexer) : (error cause : Parser α) l ≠ .ok r := by
  intro h
  obtain ⟨_, _, _, _, _, _, h⟩ := of_run_bind₂ h
  obtain ⟨_, _, _, h⟩ := of_run_bind h
  cases h

theorem returns_error_bind : Returns (error cause >>= f) Q :=
  .bind (R := fun _ => False) (.fails error_ne_ok) nofun

theorem leads_expect : Leads (expect kind) s fun t s' => s.next = .ok (t, s') ∧ t.kind = kind := by
  refine .bind .check ?_
  rintro c _ ⟨rfl, t, s1, hnext, rfl⟩
  split
  next hkind =>
    refine Leads.advance.mono fun t' s' hnext' => ⟨hnext', ?_⟩
    cases hnext.symm.trans hnext'
    simpa using hkind
  · exact .fails error_ne_ok

end Standard

theorem Parser.Returns.expect {α : Type} {Q : α → Prop} {kind : TokenKind} {f : Token → Parser α}
    (hf : ∀ t, Returns (f t) Q) : Returns (Standard.expect kind >>= f) Q :=
  .bind (R := fun _ => True) (fun _ hs => Standard.leads_expect.mono fun _ _ h =>
    ⟨(Scanner.advances_of_next hs h.1).ready, trivial⟩) fun t _ => hf t

namespace Standard

attribute [local simp] Formed verifyHere require_ok_iff requireAll_ok_iff seq_eq_ok_iff
  isSingle blocks children places unaryOperators

variable {fuel : Nat}

theorem returns_literal : Returns literal (Formed isLiteral) := by
  refine .ite_advance (fun t _ _ => .pure ?_) (.fails error_ne_ok)
  unfold Token.literal
  split <;> exact .intro rfl (by simp [Node.integer])

section
variable {expr operand : Parser Node} (he : Returns expr (Formed isExpr))
include he

theorem returns_argRest : Returns (argRest expr fuel) fun es => ∀ e ∈ es, Formed isExpr e := by
  refine .fuel rfl fun fuel ih => ?_
  exact .ite .check (.expect fun _ => .cons he ih) (.pure nofun)

theorem returns_args : Returns (args expr fuel) fun es => ∀ e ∈ es, Formed isExpr e :=
  .ite .checkAny (.cons he (returns_argRest he)) (.pure nofun)

theorem returns_brackets : Returns (brackets expr fuel) fun es => ∀ e ∈ es, Formed isExpr e := by
  refine .fuel rfl fun fuel ih => ?_
  exact .ite .check (.expect fun _ => .bind he fun e he => .expect fun _ => .bind ih fun es hes =>
    .pure (forall_mem_cons.mpr ⟨he, hes⟩)) (.pure nofun)

theorem returns_primary (ho : Returns operand (Formed isExpr)) :
    Returns (primary expr operand fuel) (Formed isExpr) := by
  refine .ite .check (.expect fun x => .ite .check ?_ (.pure (.intro rfl (by simp)))) (.ite .check ?_
    (.ite .check ?_ (.ite .check ?_ ?_)))
  iterate 2
    · exact .expect fun _ => .bind (returns_args he) fun es hes =>
        .ite .checkAny returns_error_bind (.expect fun _ => .pure (.intro rfl (by simp_all)))
  · exact .expect fun _ => .bind he fun e he => .expect fun _ => .pure he
  · exact .expect fun _ => .bind ho fun e he => .pure (.intro rfl (by simp_all))
  · exact returns_literal.mono fun n h => ⟨isExpr_of_isLiteral h.1, h.2⟩

theorem returns_cexpr : Returns (cexpr expr fuel) (Formed isExpr) := by
  refine .fuel rfl fun fuel ih => ?_
  refine .bind (returns_primary he ih) fun e he' => .bind (returns_brackets he) fun es hes =>
    .pure ?_
  induction es generalizing e with
  | nil => exact he'
  | cons i es ih => exact ih _ (.intro rfl (by simp_all)) (by simp_all)

theorem returns_chain {kinds : List TokenKind} (hkinds : Denote kinds binaryOperators)
    {lhs : Node} (hlhs : Formed isExpr lhs) :
    Returns (chain kinds expr fuel lhs) (Formed isExpr) := by
  induction fuel generalizing lhs with
  | zero => exact .throw
  | succ fuel ih =>
    refine .ite_advance (fun t ht hspelled => .bind he fun r hr => ih ?_) (.pure hlhs)
    have hop := hspelled.mem ht hkinds
    exact .intro rfl (by simp_all)

theorem returns_term : Returns (term expr fuel) (Formed isExpr) :=
  .bind (returns_cexpr he) fun _ => returns_chain (returns_cexpr he) (by decide)

theorem returns_arith : Returns (arith expr fuel) (Formed isExpr) :=
  .bind (returns_term he) fun _ => returns_chain (returns_term he) (by decide)

theorem returns_comparison : Returns (comparison expr fuel) (Formed isExpr) := by
  refine .bind (returns_arith he) fun l hl => .ite_advance (fun t ht hspelled =>
    .bind (returns_arith he) fun r hr => .ite .checkAny returns_error_bind (.pure ?_)) (.pure hl)
  have hop : t.spelling ∈ binaryOperators := hspelled.mem ht (by decide)
  exact .intro rfl (by simp_all)

theorem returns_notExpr : Returns (notExpr expr fuel) (Formed isExpr) := by
  refine .fuel rfl fun fuel ih => ?_
  exact .ite .check (.expect fun _ => .bind ih fun e he => .pure (.intro rfl (by simp_all)))
    (returns_comparison he)

theorem returns_andExpr : Returns (andExpr expr fuel) (Formed isExpr) :=
  .bind (returns_notExpr he) fun _ => returns_chain (returns_notExpr he) (by decide)

theorem returns_orExpr : Returns (orExpr expr fuel) (Formed isExpr) :=
  .bind (returns_andExpr he) fun _ => returns_chain (returns_andExpr he) (by decide)

end

theorem returns_expr (fuel : Nat) : Returns (expr fuel) (Formed isExpr) := by
  refine .fuel rfl fun fuel ih => ?_
  exact .bind (returns_orExpr ih) fun l hl => .ite .check (.expect fun _ => .bind ih fun c hc =>
    .expect fun _ => .bind ih fun r hr => .pure (.intro rfl (by simp_all))) (.pure hl)

/-! ## Statements -/

theorem leads_forbid : Leads (forbid kind cause) s fun _ s' =>
    s' = s ∧ ∀ t s'', s.next = .ok (t, s'') → t.kind ≠ kind := by
  refine .bind .check ?_
  rintro c _ ⟨rfl, t, s1, hnext, rfl⟩
  split
  · exact .fails error_ne_ok
  next hkind =>
    refine .pure ⟨rfl, fun t' s' hnext' => ?_⟩
    cases hnext.symm.trans hnext'
    simpa using hkind

theorem returns_forbid : Returns (forbid kind cause) fun _ => True :=
  fun _ hs => leads_forbid.mono fun _ _ h => ⟨h.1 ▸ hs, trivial⟩

theorem returns_assignExpr : Returns (assignExpr fuel) (Formed isAssigned) := by
  refine .fuel rfl fun fuel ih => ?_
  exact .bind (returns_expr fuel) fun l hl => .bind returns_forbid fun _ _ =>
    .bind returns_forbid fun _ _ => .ite .check (.expect fun _ => .bind ih fun r hr =>
    .pure (.intro rfl (by simp_all))) (.pure ⟨isAssigned_of_isExpr hl.1, hl.2⟩)

theorem returns_simpleStmt : Returns (simpleStmt fuel) (Formed isStmt) :=
  .ite .check (.expect fun _ => .pure (.intro rfl (by simp))) (.ite .check (.expect fun _ =>
    .ite .checkAny (.bind (returns_expr fuel) fun _ he => .pure (.intro rfl (by simp_all)))
      (.pure (.intro rfl (by simp))))
    (returns_assignExpr.mono fun _ h => ⟨isStmt_of_isAssigned h.1, h.2⟩))

theorem returns_condition : Returns (condition fuel) (Formed isExpr) :=
  .bind (returns_expr fuel) fun _ he => .expect fun _ => .pure he

theorem leads_atStmt : Leads atStmt s fun _ s' => s' = s := by
  refine .bind .checkAny ?_
  rintro c s' ⟨rfl, -⟩
  split
  · exact .pure rfl
  · exact Leads.checkAny.mono fun _ _ h => h.1

section
variable {stmt : Parser Node} (hstmt : Returns stmt (Formed isStmt))
include hstmt

/-- Statements, and if there is none the parser has not moved. -/
theorem leads_stmtSeq (hs : s.Ready) : Leads (stmtSeq stmt fuel) s fun ss s' =>
    s'.Ready ∧ (∀ n ∈ ss, Formed isStmt n) ∧ (ss = [] → s' = s) := by
  refine .bind leads_forbid ?_
  rintro _ s1 ⟨rfl, -⟩
  induction fuel generalizing s1 with
  | zero => exact .fails (throw_ne_ok _)
  | succ fuel ih =>
    refine .bind leads_atStmt ?_
    rintro c s0 rfl
    split
    · refine .bind (hstmt s0 hs) fun n s1 ⟨hs1, hn⟩ => .bind leads_forbid fun _ _ ⟨h2, _⟩ =>
        .bind leads_forbid fun _ _ ⟨h3, _⟩ => ?_
      subst h2 h3
      exact .bind (ih _ hs1) fun ss s' ⟨hs', hss, _⟩ =>
        .pure ⟨hs', forall_mem_cons.mpr ⟨hn, hss⟩, nofun⟩
    · exact .pure ⟨hs, nofun, fun _ => rfl⟩

/-- The statements before the end of a block, if the block does not end at once. -/
theorem leads_body {α : Type} (hs : s.Ready) (hne : ∀ t s', s.next = .ok (t, s') → t.kind ≠ .dedent)
    {f : List Node → Parser α} {P : α → Scanner → Prop} (hf : ∀ ss s', s'.Ready →
      (∀ n ∈ ss, Formed isStmt n) → ss ≠ [] → Leads (f ss) s' P) :
    Leads (do let ss ← stmtSeq stmt fuel; let _ ← expect .dedent; f ss) s P := by
  refine .bind (leads_stmtSeq hstmt hs) fun ss s2 ⟨hs2, hss, hempty⟩ => ?_
  refine .bind leads_expect fun t s3 ⟨hnext, ht⟩ =>
    hf ss s3 (Scanner.advances_of_next hs2 hnext).ready hss fun hnil => ?_
  rw [hempty hnil] at hnext
  exact hne t s3 hnext ht

theorem returns_block :
    Returns (block stmt fuel) fun ss => (∀ n ∈ ss, Formed isStmt n) ∧ ss ≠ [] := by
  refine .expect fun _ => .bind .check fun c _ => ?_
  cases c with
  | false => exact returns_error_bind
  | true =>
    refine fun s hs => .bind leads_expect fun t s1 ⟨hnext, ht⟩ => ?_
    exact leads_body hstmt (Scanner.advances_of_next hs hnext).ready
      (fun _ _ => Scanner.kind_ne_dedent_of_indent hs hnext ht)
      fun ss s' hs' hss hne => .pure ⟨hs', hss, hne⟩

theorem returns_alternatives :
    Returns (alternatives stmt fuel) fun ss => ∀ n ∈ ss, Formed isStmt n := by
  refine .fuel rfl fun fuel ih => ?_
  exact .ite .check (.expect fun _ => .bind returns_condition fun c hc =>
    .bind (returns_block hstmt) fun b hb => .bind ih fun ss hss =>
    .pure (forall_mem_singleton.mpr (.intro rfl (by simp_all [or_imp])))) (.ite .check (.expect
      fun _ => .expect fun _ => (returns_block hstmt).mono fun _ h => h.1) (.pure nofun))

end

theorem returns_stmt (fuel : Nat) : Returns (stmt fuel) (Formed isStmt) := by
  refine .fuel rfl fun fuel ih => ?_
  refine .ite .check ?_ (.ite .check ?_ (.ite .check ?_ ?_))
  · exact .expect fun _ => .bind returns_condition fun c hc => .bind (returns_block ih)
      fun b hb => .bind (returns_alternatives ih) fun ss hss =>
      .pure (.intro rfl (by simp_all [or_imp]))
  · exact .expect fun _ => .bind returns_condition fun c hc => .bind (returns_block ih)
      fun b hb => .pure (.intro rfl (by simp_all))
  · exact .expect fun _ => .expect fun _ => .expect fun _ => .bind (returns_expr fuel)
      fun c hc => .expect fun _ => .bind (returns_block ih) fun b hb =>
      .pure (.intro rfl (by simp_all))
  · exact .bind returns_simpleStmt fun _ h => .expect fun _ => .pure h

/-! ## Definitions -/

theorem returns_type : Returns (type fuel) (Formed isType) := by
  refine .fuel rfl fun fuel ih => ?_
  refine .ite_advance (fun t ht hspelled => .pure ?_) (.ite .check (.expect fun _ =>
    .bind ih fun t ht => .expect fun _ => .pure (.intro rfl (by simp_all))) (.fails error_ne_ok))
  have hname : t.spelling ∈ typeNames := hspelled.mem ht (by decide)
  exact .intro rfl (by simp_all)

theorem returns_typedVar : Returns (typedVar fuel) (Formed isTypedVar) :=
  .expect fun _ => .expect fun _ => .bind returns_type fun _ ht => .pure (.intro rfl (by simp_all))

/-- The definition of a variable is a declaration, too. -/
theorem returns_varDef :
    Returns (varDef fuel) fun n => n.isDeclaration = true ∧ Formed isDefinition n :=
  .bind returns_typedVar fun _ hx => .expect fun _ => .bind returns_literal fun _ hv =>
    .expect fun _ => .pure ⟨rfl, .intro rfl (by simp_all)⟩

theorem returns_paramRest : Returns (paramRest fuel) fun ps => ∀ p ∈ ps, Formed isTypedVar p := by
  refine .fuel rfl fun fuel ih => ?_
  exact .ite .check (.expect fun _ => .cons returns_typedVar ih) (.pure nofun)

theorem returns_declarations :
    Returns (declarations fuel) fun ds => ∀ d ∈ ds, Formed isDeclaration d := by
  refine .fuel rfl fun fuel ih => ?_
  exact .ite .checkRun (.cons (returns_varDef.mono fun _ h => ⟨h.1, h.2.2⟩) ih)
    (.ite .check (.cons (.expect fun _ => .expect fun _ => .expect fun _ =>
      .pure (.intro rfl (by simp))) ih) (.ite .check (.cons (.expect fun _ =>
        .expect fun _ => .expect fun _ => .pure (.intro rfl (by simp))) ih) (.pure nofun)))

theorem dropWhile_declarations {ds ss : List Node} (hds : ∀ d ∈ ds, d.isDeclaration = true)
    (hss : ∀ n ∈ ss, n.isStmt = true) : (ds ++ ss).dropWhile isDeclaration = ss := by
  rw [dropWhile_append_of_pos hds]
  cases ss with
  | nil => rfl
  | cons n ss => simp [isDeclaration_of_isStmt (hss n mem_cons_self)]

theorem returns_function : Returns (function fuel) (Formed isDefinition) := by
  refine .expect fun _ => .expect fun x => .expect fun _ =>
    .ite_join (P := fun ps => ∀ p ∈ ps, Formed isTypedVar p) .check
    (fun hrest => .bind returns_typedVar fun p hp => .bind returns_paramRest fun ps hps =>
      .bind (.pure (forall_mem_cons.mpr ⟨hp, hps⟩)) hrest)
    (fun hrest => .bind (.pure nofun) hrest) fun ps hps => .ite .checkAny returns_error_bind ?_
  refine .expect fun _ => .ite_join (P := Formed isType) .check
    (fun hrest => .expect fun _ => .bind returns_type hrest)
    (fun hrest => .bind (.pure (.intro rfl (by simp [typeNames]))) hrest) fun t ht =>
    .expect fun _ => .expect fun _ => .bind .check fun c _ => ?_
  cases c with
  | false => exact returns_error_bind
  | true =>
    refine .expect fun _ => .bind returns_declarations fun ds hds => .bind returns_forbid
      fun _ _ => fun s hs => .bind leads_forbid ?_
    rintro _ s' ⟨rfl, hdedent⟩
    refine leads_body (returns_stmt fuel) hs hdedent fun ss s' hs' hss hne => .pure ⟨hs', ?_⟩
    have hdrop := dropWhile_declarations (fun d hd => (hds d hd).1) fun n hn => (hss n hn).1
    refine .intro rfl ?_
    simp only [verifyHere, blocks, hdrop]
    simp_all [or_imp, forall_and]

theorem returns_defSeq : Returns (defSeq fuel) fun ds => ∀ d ∈ ds, Formed isDefinition d := by
  refine .fuel rfl fun fuel ih => ?_
  exact .ite .check .throw (.ite .check (.cons returns_function ih)
    (.ite .checkRun (.cons (returns_varDef.mono fun _ h => h.2) ih) (.pure nofun)))

theorem returns_program : Returns (program fuel) (Formed fun n => n matches .program ..) :=
  .bind returns_forbid fun _ _ => .bind returns_defSeq fun ds hds => .bind returns_forbid
    fun _ _ => .bind (fun _ hs => (leads_stmtSeq (returns_stmt fuel) hs).mono fun _ _ h =>
      ⟨h.1, h.2.1⟩) fun ss hss =>
    .expect fun _ => .pure (.intro rfl (by simp_all [or_imp]))

end Standard

variable {edition : Edition}

theorem formed_of_parseProgram {source : String} (he : edition ≠ .first)
    (h : parseProgram edition source = .ok n) : Formed (fun n => n matches .program ..) n := by
  have h : Parser.parse Standard.program source = .ok n := by
    cases edition with
    | first => exact absurd rfl he
    | second | third => exact h
  obtain ⟨⟨m, l⟩, hrun, rfl⟩ := map_eq_ok_iff.mp h
  obtain ⟨_, _, -, hm⟩ := Standard.returns_program (Scanner.ofString source) (.inr (.inl rfl))
    (Lexer.ofString source) m l .nil hrun
  exact hm

/-- A parsed program is in order: every place of its tree is filled as it must be, a function has a
statement behind its declarations, and no branch or loop is empty. -/
theorem parsed_orderly (source : String) (he : edition ≠ .first)
    (h : parseProgram edition source = .ok n) :
    verifyAll [n] = .ok () ∧ ∀ m ∈ n.walk, ∀ b ∈ m.blocks, b ≠ [] := by
  have hn := (formed_of_parseProgram he h).2
  refine ⟨forM_eq_ok_iff.mpr fun m hm => (hn m ?_).1, fun m hm => (hn m hm).2⟩
  rwa [walkAll_eq_flatMap, flatMap_singleton] at hm

def countdownSource : String :=
  "def f(n: int):\n  global m\n  while n > 0:\n    n = m = n - 1\nm: int = 3\nf(m)\n"

theorem parsed_orderly_countdown : ∃ n, parseProgram .third countdownSource = .ok n ∧
    verifyAll [n] = .ok () ∧ (∀ m ∈ n.walk, ∀ b ∈ m.blocks, b ≠ []) ∧
      (n.walk.flatMap blocks).length = 2 := by
  have hparse : (parseProgram .third countdownSource).toOption.any fun n =>
      (n.walk.flatMap blocks).length == 2 := by
    decide +kernel
  cases hn : parseProgram .third countdownSource with
  | error e =>
    rw [hn] at hparse
    cases hparse
  | ok n =>
    rw [hn] at hparse
    obtain ⟨hverify, hblocks⟩ := parsed_orderly countdownSource (by decide) hn
    exact ⟨n, rfl, hverify, hblocks, by simpa [Except.toOption] using hparse⟩

end Practicum.Choco
