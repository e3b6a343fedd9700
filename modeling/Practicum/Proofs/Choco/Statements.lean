import Practicum.Proofs.Choco.Expressions
import Practicum.Proofs.Runs

/-!
# Reading statements and definitions back

The parser reads statements back from the tokens of their lines and of their layout. A conditional
statement goes on with the alternatives that follow it; so what stands next is never an alternative.
-/

namespace Practicum.Choco

open Parser Standard List Node IsStmt

/-! ## The tokens of expressions -/

variable {x w : String} {es : List Node}

theorem isWord_of_all {c : Char} {cs : List Char} (hx : x.toList = c :: cs)
    (hc : c.isAlpha ∨ c = '_') (hcs : (cs.all fun d => d.isAlphanum || d == '_') = true) :
    IsWord x :=
  ⟨c, cs, hx, hc, fun d hd => by simpa using all_eq_true.mp hcs d hd⟩

theorem isWord_of_mem_keywords (h : w ∈ keywords.map Prod.fst) : IsWord w := by
  simp only [keywords, map_cons, map_nil, mem_cons, not_mem_nil, or_false] at h
  rcases h with rfl | rfl | rfl | rfl | rfl | rfl | rfl | rfl | rfl | rfl | rfl | rfl | rfl | rfl |
    rfl | rfl | rfl | rfl | rfl | rfl | rfl | rfl | rfl
  all_goals exact isWord_of_all rfl (by decide) (by decide)

theorem writable_keyword (h : w ∈ keywords.map Prod.fst := by decide) : (Lexeme.word w).Writable :=
  .word (isWord_of_mem_keywords h)

/-- A token that can be written and is no colon. -/
def Inline (x : Lexeme) : Prop :=
  x.Writable ∧ x.kind ≠ .colon

theorem inline_of_isName (h : IsName x) : Inline (.word x) :=
  ⟨.word h.1, by rw [kind_word_of_isName h]; decide⟩

theorem inline_keyword (h : w ∈ keywords.map Prod.fst) (hkind : (Lexeme.word w).kind ≠ .colon) :
    Inline (.word w) :=
  ⟨writable_keyword h, hkind⟩

theorem inline_sign {x : Lexeme}
    (h : x ∈ [Lexeme.lparen, .rparen, .lbracket, .rbracket, .comma, .minus, .assign, .arrow]) :
    Inline x := by
  simp only [mem_cons, not_mem_nil, or_false] at h
  rcases h with rfl | rfl | rfl | rfl | rfl | rfl | rfl | rfl
  all_goals exact ⟨.sign (by decide), by decide⟩

theorem inline_literal {v : Literal} (h : IsLiteral v) : Inline (.literal v) := by
  refine ⟨?_, fun hcolon => absurd (hcolon ▸ kind_literal_mem v) (by decide)⟩
  match v, h with
  | .none, _ | .bool true, _ | .bool false, _ => exact writable_keyword
  | .int n _, ⟨_, hn, hlt⟩ =>
    have hlt : n.toNat < 10 ^ Text.maxDecimalDigits := by
      have hcast : ((10 ^ Text.maxDecimalDigits : Nat) : Int) = 10 ^ Text.maxDecimalDigits :=
        Int.natCast_pow 10 _
      omega
    exact .number hlt
  | .str s, h => exact .text h

theorem inline_operator {op : String} (h : op ∈ operators) :
    Inline ⟨operatorKind op, .word op⟩ := by
  have hkind : ∀ op ∈ operators, operatorKind op ≠ .colon := by decide
  refine ⟨?_, hkind op h⟩
  by_cases hword : op ∈ ["or", "and", "is"]
  · have heq : ∀ op ∈ ["or", "and", "is"], operatorKind op = wordKind op := by decide
    have hmem : ∀ op ∈ ["or", "and", "is"], op ∈ keywords.map Prod.fst := by decide
    rw [heq op hword]
    exact writable_keyword (hmem op hword)
  · have hsign : ∀ op ∈ operators, op ∉ ["or", "and", "is"] → (op, operatorKind op) ∈ signs := by
      decide
    exact .sign (hsign op h hword)

theorem inline_tokensAt
    {level : Nat} {e : Node} (h : ∀ x ∈ e.tokens, Inline x) : ∀ x ∈ e.tokensAt level, Inline x := by
  rw [tokensAt, enclosed]
  split
  · exact forall_mem_between (inline_sign (by simp)) h (inline_sign (by simp))
  · exact h

theorem inline_tokensOfRest (h : ∀ e ∈ es, ∀ x ∈ e.tokens, Inline x) :
    ∀ x ∈ tokensOfRest es, Inline x := by
  induction es with
  | nil => exact forall_mem_nil _
  | cons e es ih =>
    obtain ⟨he, hes⟩ := forall_mem_cons.1 h
    exact forall_mem_cons.2 ⟨inline_sign (by simp), forall_mem_append.2 ⟨he, ih hes⟩⟩

theorem inline_tokensOfAll (h : ∀ e ∈ es, ∀ x ∈ e.tokens, Inline x) :
    ∀ x ∈ tokensOfAll es, Inline x := by
  cases es with
  | nil => exact forall_mem_nil _
  | cons e es =>
    obtain ⟨he, hes⟩ := forall_mem_cons.1 h
    exact forall_mem_append.2 ⟨he, inline_tokensOfRest hes⟩

theorem IsExpr.inline {e : Node} (h : IsExpr e) : ∀ x ∈ e.tokens, Inline x := by
  induction h with
  | literal h =>
    exact forall_mem_singleton.2 (inline_literal h)
  | name h =>
    exact forall_mem_singleton.2 (inline_of_isName h)
  | @not e h ih =>
    exact forall_mem_cons.2 ⟨inline_keyword (by decide) (by decide), inline_tokensAt ih⟩
  | @minus e h ih =>
    rw [tokens]
    · exact forall_mem_cons.2 ⟨inline_sign (by simp), inline_tokensAt ih⟩
    · decide
  | binary hop _ _ ihl ihr =>
    exact forall_mem_append.2 ⟨inline_tokensAt ihl,
      forall_mem_cons.2 ⟨inline_operator hop, inline_tokensAt ihr⟩⟩
  | ifExpr _ _ _ ihc iha ihb =>
    refine forall_mem_append.2 ⟨inline_tokensAt iha, forall_mem_cons.2 ⟨?_, ?_⟩⟩
    · exact inline_keyword (by decide) (by decide)
    · exact forall_mem_append.2 ⟨ihc,
        forall_mem_cons.2 ⟨inline_keyword (by decide) (by decide), ihb⟩⟩
  | listExpr hes ih =>
    exact forall_mem_between (inline_sign (by simp)) (inline_tokensOfAll ih) (inline_sign (by simp))
  | call hf hes ih =>
    exact forall_mem_cons.2 ⟨inline_of_isName hf,
      forall_mem_between (inline_sign (by simp)) (inline_tokensOfAll ih) (inline_sign (by simp))⟩
  | index _ _ ihv ihi =>
    exact forall_mem_append.2 ⟨inline_tokensAt ihv,
      forall_mem_between (inline_sign (by simp)) ihi (inline_sign (by simp))⟩

/-! ## Lines -/

section
variable {s e : Node} {ss body : List Node} {ts ts' rest : List Lexeme} {bound fuel : Nat}

theorem IsExpr.lineTokens_eq (h : IsExpr e) : e.lineTokens = e.tokens := by
  cases h <;> rfl

theorem IsExpr.hasBlocks_eq (h : IsExpr e) : e.hasBlocks = false := by
  cases h <;> rfl

theorem IsAssignment.hasBlocks_eq (h : IsAssignment s) : s.hasBlocks = false := by
  cases h with
  | value h => exact h.hasBlocks_eq
  | assign => rfl

theorem IsAssignment.beginsAt (h : IsAssignment s) : BeginsAt 0 s.lineTokens := by
  cases h with
  | value h =>
    rw [h.lineTokens_eq]
    exact s.tokensAt_zero ▸ h.beginsAt.tokensAt
  | @assign t v ht _ =>
    have hbegins : BeginsAt 0 t.tokens := t.tokensAt_zero ▸ ht.beginsAt.tokensAt
    exact hbegins.append (fun h => h) _

theorem IsAssignment.inline (h : IsAssignment s) : ∀ x ∈ s.lineTokens, Inline x := by
  induction h with
  | value h =>
    rw [h.lineTokens_eq]
    exact h.inline
  | assign ht _ ih =>
    exact forall_mem_append.2 ⟨ht.inline, forall_mem_cons.2 ⟨inline_sign (by simp), ih⟩⟩

theorem Parses.expr (h : IsExpr e) (hfuel : e.tokens.length + 3 ≤ fuel)
    (hends : Ends (continuations 0) rest) : Parses (expr fuel) (e.tokens ++ rest) e rest :=
  h.reads.readsAt_zero.expr hfuel hends

theorem Parses.assignExpr (h : IsAssignment s) (hfuel : s.lineTokens.length + 4 ≤ fuel) :
    Parses (assignExpr fuel) (s.lineTokens ++ .newline :: rest) s (.newline :: rest) := by
  induction h generalizing fuel with
  | value h =>
    rw [h.lineTokens_eq] at hfuel ⊢
    obtain ⟨fuel, rfl⟩ := exists_succ_of_lt hfuel
    refine .bind (.expr h (by omega) (.cons rfl)) ?_
    refine .bind (.forbid (.cons rfl)) (.bind (.forbid (.cons rfl)) ?_)
    exact .absent (.cons rfl) .pure
  | @assign t v ht _ ih =>
    rw [lineTokens] at hfuel ⊢
    simp only [length_append, length_cons] at hfuel
    obtain ⟨fuel, rfl⟩ := exists_succ_of_lt hfuel
    rw [append_assoc]
    refine .bind (.expr ht (by omega) (.cons rfl)) ?_
    refine .bind (.forbid (.cons rfl)) (.bind (.forbid (.cons rfl)) ?_)
    refine .consumed rfl ?_
    exact .bind (ih (by omega)) .pure

theorem Parses.simpleStmt
    (h : IsStmt s) (hs : s.hasBlocks = false) (hfuel : s.lineTokens.length + 4 ≤ fuel) :
    Parses (Standard.simpleStmt fuel) (s.lineTokens ++ .newline :: rest) s (.newline :: rest) := by
  cases h with
  | pass =>
    exact .consumed rfl .pure
  | returnNone =>
    refine .passed nofun (.taken rfl ?_)
    exact .token rfl (.ite_false (.atExpr_ends (.cons rfl)) .pure)
  | @returnValue e he =>
    rw [lineTokens] at hfuel ⊢
    rw [length_cons] at hfuel
    refine .passed nofun (.taken rfl ?_)
    refine .token rfl (.ite_true (.atExpr_pos (he.beginsAt.append (fun h => h) _)) ?_)
    exact .bind (.expr he (by omega) (.cons rfl)) .pure
  | assignment h =>
    obtain ⟨x, _, heq, hx, -⟩ := h.beginsAt
    have hkind : ∀ kind ∉ beginnings, x.kind ≠ kind := fun kind hkind hx' => hkind (hx' ▸ hx)
    have hparse : Parses (Standard.assignExpr fuel) (s.lineTokens ++ .newline :: rest) s
        (.newline :: rest) := .assignExpr h hfuel
    rw [heq] at hparse ⊢
    refine .passed (hkind _ (by decide)) ?_
    exact .passed (hkind _ (by decide)) hparse
  | ifStmt | whileStmt | forStmt => exact absurd hs (by simp [hasBlocks])

/-! ## Blocks -/

def stmtBeginnings : List TokenKind :=
  beginnings ++ [.kwIf, .kwWhile, .kwFor, .kwPass, .kwReturn]

def afterBlock : List TokenKind :=
  .indent :: .assign :: .kwElif :: .kwElse :: stmtBeginnings

theorem Parses.atStmt_pos {x : Lexeme} (h : x.kind ∈ stmtBeginnings) :
    Parses atStmt (x :: ts) true (x :: ts) := by
  by_cases hx : x.kind ∈ beginnings
  · exact .ite_true (.checkAny_pos hx) .pure
  · exact .ite_false (.checkAny_ends hx) (.checkAny_pos ((mem_append.1 h).resolve_left hx))

theorem IsStmt.not_assignment (h : s.hasBlocks = true) : ¬IsAssignment s :=
  fun ha => absurd (ha.hasBlocks_eq ▸ h) (by decide)

theorem IsStmt.of_ifStmt {c : Node} (h : IsStmt (.ifStmt [c] body ss)) :
    IsExpr c ∧ (∀ s ∈ body, IsStmt s) ∧ ∀ s ∈ ss, IsStmt s := by
  cases h with
  | assignment h => exact absurd h (not_assignment rfl)
  | ifStmt hc _ hbody hrest => exact ⟨hc, hbody, hrest⟩

theorem IsStmt.of_whileStmt {c : Node} (h : IsStmt (.whileStmt [c] body)) :
    IsExpr c ∧ ∀ s ∈ body, IsStmt s := by
  cases h with
  | assignment h => exact absurd h (not_assignment rfl)
  | whileStmt hc _ hbody => exact ⟨hc, hbody⟩

theorem IsStmt.of_forStmt (h : IsStmt (.forStmt x [e] body)) :
    IsName x ∧ IsExpr e ∧ ∀ s ∈ body, IsStmt s := by
  cases h with
  | assignment h => exact absurd h (not_assignment rfl)
  | forStmt hx he _ hbody => exact ⟨hx, he, hbody⟩

theorem IsStmt.not_funcDef {f : String} {ps : List Node} {t : Node} :
    ¬IsStmt (.funcDef f ps [t] body) := by
  intro h
  cases h with
  | assignment h => exact not_assignment rfl h

theorem IsStmt.lineTokens_begins (hs : IsStmt s) (hblocks : s.hasBlocks = false) :
    ∃ x xs, s.lineTokens = x :: xs ∧ x.kind ∈ TokenKind.kwPass :: .kwReturn :: beginnings := by
  cases hs with
  | pass | returnNone | returnValue => exact ⟨_, _, rfl, by decide⟩
  | assignment h =>
    obtain ⟨x, xs, heq, hx, -⟩ := h.beginsAt
    exact ⟨x, xs, heq, mem_cons_of_mem _ (mem_cons_of_mem _ hx)⟩
  | ifStmt | whileStmt | forStmt => exact absurd hblocks (by simp [hasBlocks])

theorem Spells.begins (h : Spells (.stmt s) ts) (hs : IsStmt s) :
    ∃ x xs, ts = x :: xs ∧ x.kind ∈ stmtBeginnings := by
  cases h with
  | line hblocks =>
    obtain ⟨x, xs, heq, hx⟩ := hs.lineTokens_begins hblocks
    exact ⟨x, xs ++ [.newline], by rw [heq]; rfl, (by decide : _ ⊆ stmtBeginnings) hx⟩
  | ifStmt | whileStmt | forStmt => exact ⟨_, _, rfl, by decide⟩
  | funcDef => exact absurd hs not_funcDef

theorem Spells.ends {kinds : List TokenKind} (h : Spells (.block ss) ts) (hss : ∀ s ∈ ss, IsStmt s)
    (hkinds : ∀ kind ∈ kinds, kind ∉ stmtBeginnings) (hends : Ends kinds rest) :
    Ends kinds (ts ++ rest) := by
  cases h with
  | nil => exact hends
  | cons hs _ =>
    obtain ⟨x, _, rfl, hx⟩ := hs.begins (hss _ (by simp))
    exact fun hmem => hkinds _ hmem hx

/-- A part of a program is read back from these tokens. -/
def ReadsPart : Part → List Lexeme → Prop
  | .stmt s, ts => IsStmt s → ∀ (fuel : Nat) (rest : List Lexeme), ts.length + 4 ≤ fuel →
    Ends [.kwElif, .kwElse] rest → Parses (stmt fuel) (ts ++ rest) s rest
  | .block ss, ts => (∀ s ∈ ss, IsStmt s) → ∀ (bound fuel : Nat) (rest : List Lexeme),
    ts.length + 4 ≤ bound → ts.length < fuel → Ends afterBlock rest →
      Parses (stmts (stmt bound) fuel) (ts ++ rest) ss rest
  | .otherwise ss, ts => (∀ s ∈ ss, IsStmt s) → ∀ (bound fuel : Nat) (rest : List Lexeme),
    ts.length + 4 ≤ bound → ts.length + 4 ≤ fuel → Ends [.kwElif, .kwElse] rest →
      Parses (alternatives (stmt bound) fuel) (ts ++ rest) ss rest

theorem Parses.condition (h : IsExpr e) (hfuel : e.tokens.length + 3 ≤ fuel := by omega) :
    Parses (condition fuel) (e.tokens ++ .colon :: rest) e rest :=
  .bind (.expr h hfuel (.cons rfl)) (.token rfl .pure)

theorem Parses.stmtSeq
    (hspells : Spells (.block ss) ts) (h : ReadsPart (.block ss) ts) (hss : ∀ s ∈ ss, IsStmt s)
    (hfuel : ts.length + 4 ≤ bound ∧ ts.length < fuel) (hends : Ends afterBlock rest) :
    Parses (stmtSeq (stmt bound) fuel) (ts ++ rest) ss rest := by
  have hassign : Ends [.assign] (ts ++ rest) := hspells.ends hss (by decide) (hends.sub rfl)
  exact .bind (.forbid (hassign.sub rfl)) (h hss bound fuel rest hfuel.1 hfuel.2 hends)

theorem Parses.block (hspells : Spells (.block ss) ts) (h : ReadsPart (.block ss) ts)
    (hss : ∀ s ∈ ss, IsStmt s) (hfuel : ts.length + 4 ≤ bound ∧ ts.length < fuel := by omega) :
    Parses (block (stmt bound) fuel) (indented ts ++ rest) ss rest := by
  rw [indented, cons_append, cons_append, append_assoc]
  refine .token rfl (.bind (.check_pos rfl) (.token rfl ?_))
  exact .bind (.stmtSeq hspells h hss hfuel (.cons rfl)) (.token rfl .pure)

/-- The parser reads every statement and every block back from its tokens. -/
theorem Spells.reads {p : Part} (h : Spells p ts) : ReadsPart p ts := by
  induction h with
  | @line s hblocks =>
    intro hs fuel rest hfuel _
    simp only [length_append, length_cons, length_nil] at hfuel
    obtain ⟨fuel, rfl⟩ := exists_succ_of_lt hfuel
    obtain ⟨x, xs, heq, hx⟩ := hs.lineTokens_begins hblocks
    have hkind : ∀ kind ∉ TokenKind.kwPass :: .kwReturn :: beginnings, x.kind ≠ kind :=
      fun kind hkind hx' => hkind (hx' ▸ hx)
    have hline : Parses (simpleStmt fuel) (s.lineTokens ++ .newline :: rest) s (.newline :: rest) :=
      .simpleStmt hs hblocks (by omega)
    rw [append_assoc]
    rw [heq] at hline ⊢
    refine .passed (hkind _ (by decide)) ?_
    refine .passed (hkind _ (by decide)) ?_
    refine .passed (hkind _ (by decide)) ?_
    exact .bind hline (.token rfl .pure)
  | @ifStmt c body rest' ts ts' hne hbody hrest ihbody ihrest =>
    intro hs fuel rest hfuel hends
    obtain ⟨hc, hbody', hrest'⟩ := hs.of_ifStmt
    simp only [indented, length_append, length_cons, length_nil] at hfuel
    obtain ⟨fuel, rfl⟩ := exists_succ_of_lt hfuel
    rw [cons_append, append_assoc, cons_append, append_assoc]
    refine .consumed rfl ?_
    refine .bind (.condition hc) ?_
    refine .bind (.block hbody ihbody hbody') ?_
    exact .bind (ihrest hrest' fuel fuel rest (by omega) (by omega) hends) .pure
  | @whileStmt c body ts hne hbody ihbody =>
    intro hs fuel rest hfuel hends
    obtain ⟨hc, hbody'⟩ := hs.of_whileStmt
    simp only [indented, length_append, length_cons, length_nil] at hfuel
    obtain ⟨fuel, rfl⟩ := exists_succ_of_lt hfuel
    rw [stmt, cons_append, append_assoc, cons_append]
    refine .passed (by decide) (.taken rfl ?_)
    refine .token rfl (.bind (.condition hc) ?_)
    exact .bind (.block hbody ihbody hbody') .pure
  | @forStmt x e body ts hne hbody ihbody =>
    intro hs fuel rest hfuel hends
    obtain ⟨hx, he, hbody'⟩ := hs.of_forStmt
    simp only [indented, length_append, length_cons, length_nil] at hfuel
    obtain ⟨fuel, rfl⟩ := exists_succ_of_lt hfuel
    rw [stmt, cons_append, cons_append, cons_append, append_assoc]
    refine .passed (by decide) (.passed (by decide) ?_)
    refine .consumed rfl ?_
    refine .expect (kind_word_of_isName hx) fun t ht => .token rfl ?_
    refine .bind (.expr he (by omega) (.cons rfl)) (.token rfl ?_)
    rw [spelling_of_lexeme ht]
    exact .bind (.block hbody ihbody hbody') .pure
  | funcDef => exact fun hs => absurd hs not_funcDef
  | nothing =>
    intro _ bound fuel rest _ hfuel hends
    obtain ⟨fuel, rfl⟩ := exists_succ_of_lt hfuel
    exact .absent (hends.sub rfl) (.absent (hends.sub rfl) .pure)
  | @elseBlock ss ts hne hrest ihrest =>
    intro hss bound fuel rest hbound hfuel hends
    simp only [indented, length_append, length_cons] at hbound hfuel
    obtain ⟨fuel, rfl⟩ := exists_succ_of_lt hfuel
    refine .passed (by decide) (.taken rfl ?_)
    refine .token rfl (.token rfl ?_)
    exact .block hrest ihrest hss
  | @elifBlock c body rest' ts ts' hne hbody hrest ihbody ihrest =>
    intro hss bound fuel rest hbound hfuel hends
    obtain ⟨hc, hbody', hrest'⟩ := (hss _ (mem_singleton.2 rfl)).of_ifStmt
    simp only [indented, length_append, length_cons, length_nil] at hbound hfuel
    obtain ⟨fuel, rfl⟩ := exists_succ_of_lt hfuel
    rw [alternatives, cons_append, append_assoc, cons_append, append_assoc]
    refine .consumed rfl ?_
    refine .bind (.condition hc) ?_
    refine .bind (.block hbody ihbody hbody') ?_
    exact .bind (ihrest hrest' bound fuel rest (by omega) (by omega) hends) .pure
  | nil =>
    intro _ bound fuel rest _ hfuel hends
    obtain ⟨fuel, rfl⟩ := exists_succ_of_lt hfuel
    exact .ite_false (.ite_false (.checkAny_ends (hends.sub rfl)) (.checkAny_ends (hends.sub rfl))) .pure
  | @cons s ss ts ts' hs hss ihs ihss =>
    intro hall bound fuel rest hbound hfuel hends
    obtain ⟨fuel, rfl⟩ := exists_succ_of_lt hfuel
    have hrest : ∀ s ∈ ss, IsStmt s := fun s hs => hall s (by simp [hs])
    have hnext : Ends [.kwElif, .kwElse, .indent, .assign] (ts' ++ rest) :=
      hss.ends hrest (by decide) (hends.sub rfl)
    obtain ⟨x, xs, heq, hx⟩ := hs.begins (hall s (by simp))
    have hstmt := ihs (hall s (by simp)) bound (ts' ++ rest)
    simp only [length_append] at hbound hfuel
    rw [heq] at hstmt hbound hfuel ⊢
    rw [length_cons] at hbound hfuel
    rw [stmts, append_assoc, cons_append]
    refine .ite_true (.atStmt_pos hx) ?_
    refine .bind (hstmt (by simp; omega) (hnext.sub rfl)) ?_
    refine .bind (.forbid (hnext.sub rfl)) (.bind (.forbid (hnext.sub rfl)) ?_)
    exact .bind (ihss hrest bound fuel rest (by omega) (by omega) hends) .pure

end

end Practicum.Choco
