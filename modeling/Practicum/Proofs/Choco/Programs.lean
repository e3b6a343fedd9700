import Practicum.Proofs.Choco.Statements

/-!
# Reading definitions and programs back

A definition of a variable begins with a name and a colon, which no statement does. So the parser
finds the end of the definitions of a program, and of the declarations of a function, by looking at
two tokens.
-/

namespace Practicum.Choco

open Parser Standard List

/-! ## Types and typed names -/

section
variable {t d : Node} {ps ds ss body : List Node} {ts ts' rest : List Lexeme} {fuel : Nat}

theorem Parses.type (h : IsType t) (hfuel : t.typeTokens.length ≤ fuel) :
    Parses (type fuel) (t.typeTokens ++ rest) t rest := by
  induction h generalizing fuel rest with
  | @name x hx =>
    have hkind : ∀ x ∈ ["object", "int", "bool", "str"],
        (Lexeme.word x).kind ∈ [TokenKind.object, .int, .bool, .str] := by decide
    obtain ⟨fuel, rfl⟩ := Nat.exists_eq_add_of_le' hfuel
    refine .ite_true (.checkAny_pos (hkind x hx)) (.advance fun t ht => ?_)
    rw [spelling_of_lexeme ht]
    exact .pure
  | list h ih =>
    rw [Node.typeTokens] at hfuel ⊢
    simp only [length_append, length_cons, length_nil] at hfuel
    obtain ⟨fuel, rfl⟩ := exists_succ_of_lt hfuel
    rw [cons_append, append_assoc]
    refine .ite_false (.checkAny_ends (.cons rfl)) ?_
    refine .consumed rfl ?_
    exact .bind (ih (by omega)) (.token rfl .pure)

theorem Parses.typedVar (h : IsTypedVar d) (hfuel : d.typedTokens.length ≤ fuel) :
    Parses (typedVar fuel) (d.typedTokens ++ rest) d rest := by
  cases h with
  | mk hx ht =>
    simp only [Node.typedTokens, length_cons] at hfuel
    rw [Node.typedTokens, typedVar]
    refine .expect (kind_word_of_isName hx) fun t ht' => .token rfl ?_
    rw [spelling_of_lexeme ht']
    exact .bind (.type ht (by omega)) .pure

theorem Parses.paramRest (h : ∀ p ∈ ps, IsTypedVar p)
    (hfuel : (ps.flatMap fun p => .comma :: p.typedTokens).length < fuel)
    (hends : Ends [.comma] rest) :
    Parses (paramRest fuel) ((ps.flatMap fun p => .comma :: p.typedTokens) ++ rest) ps rest := by
  induction ps generalizing fuel with
  | nil =>
    obtain ⟨fuel, rfl⟩ := exists_succ_of_lt hfuel
    exact .absent (hends.sub rfl) .pure
  | cons p ps ih =>
    obtain ⟨fuel, rfl⟩ := exists_succ_of_lt hfuel
    rw [flatMap_cons] at hfuel ⊢
    rw [cons_append, length_cons, length_append] at hfuel
    rw [append_assoc]
    refine .consumed rfl ?_
    refine .bind (.typedVar (h p (by simp)) (by omega)) ?_
    exact .bind (ih (fun p hp => h p (by simp [hp])) (by omega)) .pure

theorem paramTokens_cons (p : Node) (ps : List Node) :
    paramTokens (p :: ps) = p.typedTokens ++ ps.flatMap fun p => .comma :: p.typedTokens := by
  induction ps generalizing p with
  | nil => simp [paramTokens]
  | cons q ps ih =>
    rw [paramTokens, ih]
    · rfl
    · simp

/-! ## Declarations -/

/-- There are two tokens, and they are no name with a colon. -/
def Undeclared (ts : List Lexeme) : Prop :=
  ∃ x y xs, ts = x :: y :: xs ∧ ¬(x.kind = .identifier ∧ y.kind = .colon)

theorem Parses.checkRun_undeclared (h : Undeclared ts) :
    Parses (checkRun [.identifier, .colon]) ts false ts := by
  obtain ⟨x, y, _, rfl, hxy⟩ := h
  have hfalse : (x.kind == .identifier && y.kind == .colon) = false := by
    simpa using hxy
  rw [← hfalse]
  exact .checkRun_two

theorem Parses.checkRun_declared {x y : Lexeme} (hx : x.kind = .identifier) (hy : y.kind = .colon) :
    Parses (checkRun [.identifier, .colon]) (x :: y :: ts) true (x :: y :: ts) := by
  have htrue : (x.kind == .identifier && y.kind == .colon) = true := by simp [hx, hy]
  rw [← htrue]
  exact .checkRun_two

theorem Spells.undeclared {s : Node} (h : Spells (.stmt s) ts) (hs : IsStmt s) :
    Undeclared (ts ++ rest) := by
  cases h with
  | line hblocks =>
    rw [append_assoc]
    have hcons : ∀ x xs, s.lineTokens = x :: xs →
        (x.kind = .identifier → ∀ y ∈ xs, y.kind ≠ .colon) →
          Undeclared (s.lineTokens ++ .newline :: rest) := by
      intro x xs heq hxs
      rw [heq]
      cases xs with
      | nil => exact ⟨x, .newline, rest, rfl, fun h => absurd h.2 (by decide)⟩
      | cons y xs => exact ⟨x, y, xs ++ .newline :: rest, rfl, fun h => hxs h.1 y (by simp) h.2⟩
    cases hs with
    | pass | returnNone | returnValue => exact hcons _ _ rfl (fun h => absurd h (by decide))
    | assignment h =>
      obtain ⟨x, xs, heq, -⟩ := h.beginsAt
      exact hcons x xs heq fun _ y hy => (h.inline y (by simp [heq, hy])).2
    | ifStmt | whileStmt | forStmt => exact absurd hblocks (by simp [Node.hasBlocks])
  | @ifStmt c body _ ts _ =>
    obtain ⟨x, xs, heq, -⟩ := hs.of_ifStmt.1.beginsAt
    exact ⟨.word "if", x, _, by rw [heq]; rfl, fun h => absurd h.1 (by decide)⟩
  | @whileStmt c body ts =>
    obtain ⟨x, xs, heq, -⟩ := hs.of_whileStmt.1.beginsAt
    exact ⟨.word "while", x, _, by rw [heq]; rfl, fun h => absurd h.1 (by decide)⟩
  | forStmt => exact ⟨.word "for", _, _, rfl, fun h => absurd h.1 (by decide)⟩
  | funcDef => exact absurd hs IsStmt.not_funcDef

theorem Spells.undeclared_block (h : Spells (.block ss) ts) (hss : ∀ s ∈ ss, IsStmt s)
    (hrest : ss = [] → Undeclared rest) : Undeclared (ts ++ rest) := by
  cases h with
  | nil => exact hrest rfl
  | cons hs =>
    rw [append_assoc]
    exact hs.undeclared (hss _ (by simp))

theorem Spells.of_append (h : Spells (.block (ds ++ ss)) ts) :
    ∃ ts1 ts2, ts = ts1 ++ ts2 ∧ Spells (.block ds) ts1 ∧ Spells (.block ss) ts2 := by
  induction ds generalizing ts with
  | nil => exact ⟨[], ts, rfl, .nil, h⟩
  | cons d ds ih =>
    cases h with
    | cons hd hds =>
      obtain ⟨ts1, ts2, rfl, h1, h2⟩ := ih hds
      exact ⟨_, ts2, (append_assoc _ _ _).symm, .cons hd h1, h2⟩

theorem Spells.length_pos {s : Node} (h : Spells (.stmt s) ts) : 0 < ts.length := by
  cases h <;> simp [functionTokens]

theorem Spells.declared (hspells : Spells (.stmt d) ts) (h : IsVarDef d) :
    ∃ x y xs, ts = x :: y :: xs ∧ x.kind = .identifier ∧ y.kind = .colon := by
  cases h with
  | mk hx _ =>
    cases hspells with
    | line =>
      cases hx with
      | mk hx => exact ⟨_, _, _, rfl, kind_word_of_isName hx, rfl⟩

theorem Parses.varDef (hspells : Spells (.stmt d) ts) (h : IsVarDef d) (hfuel : ts.length ≤ fuel) :
    Parses (varDef fuel) (ts ++ rest) d rest := by
  cases h with
  | mk hx hv =>
    cases hspells with
    | line =>
      rw [Node.lineTokens] at hfuel ⊢
      simp only [length_append, length_cons, length_nil] at hfuel
      rw [append_assoc, append_assoc]
      refine .bind (.typedVar hx (by omega)) (.token rfl ?_)
      exact .bind (.literal hv) (.token rfl .pure)

theorem Parses.nameLine {x : String} (hx : IsName x) (f : String → Node) :
    Parses (Standard.expect .identifier >>= fun t => Standard.expect .newline >>= fun _ =>
      pure (f t.spelling)) (.word x :: .newline :: rest) (f x) rest := by
  refine .expect (kind_word_of_isName hx) fun t ht => ?_
  rw [spelling_of_lexeme ht]
  exact .token rfl .pure

theorem Parses.declarations
    (h : Spells (.block ds) ts) (hds : ∀ d ∈ ds, IsDeclaration d) (hfuel : ts.length < fuel)
    (hrest : Undeclared rest) (hends : Ends [.kwGlobal, .kwNonlocal] rest) :
    Parses (Standard.declarations fuel) (ts ++ rest) ds rest := by
  induction ds generalizing ts fuel with
  | nil =>
    cases h
    obtain ⟨fuel, rfl⟩ := exists_succ_of_lt hfuel
    refine .ite_false (.checkRun_undeclared hrest) ?_
    exact .absent (hends.sub rfl) (.absent (hends.sub rfl) .pure)
  | cons d ds ih =>
    obtain ⟨fuel, rfl⟩ := exists_succ_of_lt hfuel
    cases h with
    | @cons _ _ ts ts' hd hds' =>
      rw [length_append] at hfuel
      have hmore : ∀ k, ts'.length < k →
          Parses (Standard.declarations k) (ts' ++ rest) ds rest := fun k hk =>
        ih hds' (fun d hd => hds d (by simp [hd])) hk
      have hpos := hd.length_pos
      rw [append_assoc]
      cases hds d (by simp) with
      | varDef h =>
        have hvar : Parses (Standard.varDef fuel) (ts ++ (ts' ++ rest)) d (ts' ++ rest) :=
          .varDef hd h (by omega)
        obtain ⟨x, y, _, rfl, hx, hy⟩ := hd.declared h
        exact .ite_true (.checkRun_declared hx hy) (.bind hvar (.bind (hmore fuel (by omega)) .pure))
      | globalDecl hx =>
        cases hd
        refine .ite_false (.checkRun_undeclared ⟨_, _, _, rfl, fun h => absurd h.1 (by decide)⟩) ?_
        refine .taken rfl ?_
        exact .bind (.token rfl (.nameLine hx .globalDecl)) (.bind (hmore fuel (by omega)) .pure)
      | nonlocalDecl hx =>
        cases hd
        refine .ite_false (.checkRun_undeclared ⟨_, _, _, rfl, fun h => absurd h.1 (by decide)⟩) ?_
        refine .passed nofun (.taken rfl ?_)
        exact .bind (.token rfl (.nameLine hx .nonlocalDecl)) (.bind (hmore fuel (by omega)) .pure)

/-! ## Functions -/

theorem resultTokens_eq (h : IsType t) : resultTokens t = .arrow :: t.typeTokens := by
  cases h with
  | @name x hx =>
    have hne : x ≠ "<None>" := fun h => absurd (h ▸ hx) (by decide)
    rw [resultTokens]
    simpa using hne
  | list => rfl

theorem Parses.params {α : Type} {a : α} {f : List Node → Parser α} (h : ∀ p ∈ ps, IsTypedVar p)
    (hfuel : (paramTokens ps).length < fuel) (hf : Parses (f ps) (.rparen :: ts) a rest) :
    Parses (Parser.check .identifier >>= fun b => if b = true then
        Standard.typedVar fuel >>= fun p => Standard.paramRest fuel >>= fun ps =>
          pure (p :: ps) >>= fun ps => f ps
      else pure [] >>= fun ps => f ps) (paramTokens ps ++ .rparen :: ts) a rest := by
  cases ps with
  | nil => exact .absent (.cons rfl) (.bind .pure hf)
  | cons p ps =>
    rw [paramTokens_cons] at hfuel ⊢
    rw [length_append] at hfuel
    rw [append_assoc]
    have hcheck : ∀ ts, Parses (Parser.check .identifier) (p.typedTokens ++ ts) true
        (p.typedTokens ++ ts) := by
      intro ts
      cases h p (by simp) with
      | mk hx => exact .check_pos (kind_word_of_isName hx)
    refine .ite_true (hcheck _) (.bind (.typedVar (h p (by simp)) (by omega)) ?_)
    refine .bind (.paramRest (fun p hp => h p (by simp [hp])) (by omega) (.cons rfl)) ?_
    exact .bind .pure hf

theorem Parses.result {α : Type} {a : α} {f : Node → Parser α}
    (h : t = .typeName "<None>" ∨ IsType t) (hfuel : (resultTokens t).length ≤ fuel)
    (hf : Parses (f t) (.colon :: ts) a rest) :
    Parses (Parser.check .arrow >>= fun b => if b = true then
        Standard.expect .arrow >>= fun _ => Standard.type fuel >>= fun t => f t
      else pure (.typeName "<None>") >>= fun t => f t) (resultTokens t ++ .colon :: ts) a rest := by
  rcases h with rfl | h
  · exact .passed nofun (.bind .pure hf)
  rw [resultTokens_eq h] at hfuel ⊢
  rw [length_cons] at hfuel
  refine .consumed rfl ?_
  exact .bind (.type h (by omega)) hf

theorem Spells.begins_def (hspells : Spells (.stmt d) ts) (h : IsFunction d) :
    ∃ xs, ts = .word "def" :: xs := by
  cases h with
  | mk =>
    cases hspells with
    | line hblocks => exact absurd hblocks (by simp [Node.hasBlocks])
    | funcDef => exact ⟨_, rfl⟩

theorem Parses.function (h : IsFunction d) (hspells : Spells (.stmt d) ts)
    (hfuel : ts.length + 4 ≤ fuel) : Parses (Standard.function fuel) (ts ++ rest) d rest := by
  cases h with
  | @mk f _ _ _ t hf hps ht hdecls hne hbody =>
    cases hspells with
    | line hblocks => exact absurd hblocks (by simp [Node.hasBlocks])
    | @funcDef _ _ _ _ ts _ hblock =>
      obtain ⟨_, ts2, rfl, hts1, hts2⟩ := hblock.of_append
      have hbegin : Ends [.kwGlobal, .kwNonlocal, .indent, .dedent]
          (ts2 ++ Lexeme.dedent :: rest) := by
        cases hts2 with
        | nil => exact absurd rfl hne
        | cons hs _ =>
          obtain ⟨x, _, rfl, hx⟩ := hs.begins (hbody _ (by simp))
          intro hmem
          exact absurd hx ((by decide : ∀ k ∈ [TokenKind.kwGlobal, .kwNonlocal, .indent, .dedent],
            k ∉ stmtBeginnings) _ hmem)
      simp only [functionTokens, indented, length_append, length_cons, length_nil] at hfuel
      simp only [functionTokens, indented, cons_append, append_assoc, nil_append]
      rw [Standard.function]
      refine .token rfl (.expect (kind_word_of_isName hf) fun t ht' => ?_)
      rw [spelling_of_lexeme ht']
      refine .token rfl (.params hps (by omega) ?_)
      refine .ite_false (.atExpr_ends (.cons rfl)) (.token rfl ?_)
      refine .result ht (by omega) (.token rfl (.token rfl ?_))
      refine .bind (.check_pos rfl) (.token rfl ?_)
      refine .bind (.declarations hts1 hdecls (by omega)
        (hts2.undeclared_block hbody fun h => absurd h hne) (hbegin.sub rfl)) ?_
      refine .bind (.forbid (hbegin.sub rfl)) (.bind (.forbid (hbegin.sub rfl)) ?_)
      exact .bind (.stmtSeq hts2 hts2.reads hbody (by omega) (.cons rfl)) (.token rfl .pure)

/-! ## Programs -/

theorem Parses.defSeq (h : Spells (.block ds) ts) (hds : ∀ d ∈ ds, IsVarDef d ∨ IsFunction d)
    (hfuel : ts.length + 5 ≤ fuel) (hrest : Undeclared rest)
    (hends : Ends [.kwClass, .kwDef] rest) : Parses (Standard.defSeq fuel) (ts ++ rest) ds rest := by
  induction ds generalizing ts fuel with
  | nil =>
    cases h
    obtain ⟨fuel, rfl⟩ := exists_succ_of_lt hfuel
    refine .absent (hends.sub rfl) (.absent (hends.sub rfl) ?_)
    exact .ite_false (.checkRun_undeclared hrest) .pure
  | cons d ds ih =>
    obtain ⟨fuel, rfl⟩ := exists_succ_of_lt hfuel
    cases h with
    | @cons _ _ ts ts' hd hds' =>
      rw [length_append] at hfuel
      have hpos := hd.length_pos
      have hmore : Parses (Standard.defSeq fuel) (ts' ++ rest) ds rest :=
        ih hds' (fun d hd => hds d (by simp [hd])) (by omega)
      rw [append_assoc]
      rcases hds d (by simp) with h | h
      · have hvar : Parses (Standard.varDef fuel) (ts ++ (ts' ++ rest)) d (ts' ++ rest) :=
          .varDef hd h (by omega)
        obtain ⟨x, y, xs, rfl, hx, hy⟩ := hd.declared h
        refine .passed (by simp [hx]) (.passed (by simp [hx]) ?_)
        exact .ite_true (.checkRun_declared hx hy) (.bind hvar (.bind hmore .pure))
      · have hfun : Parses (Standard.function fuel) (ts ++ (ts' ++ rest)) d (ts' ++ rest) :=
          .function h hd (by omega)
        obtain ⟨xs, rfl⟩ := hd.begins_def h
        refine .passed nofun (.taken rfl ?_)
        exact .bind hfun (.bind hmore .pure)

/-- A program, up to the end of the file. The end is looked at twice where a definition might
stand. -/
theorem Parses.program
    (hspells : Spells (.block (ds ++ ss)) ts) (hds : ∀ d ∈ ds, IsVarDef d ∨ IsFunction d)
    (hss : ∀ s ∈ ss, IsStmt s) (hfuel : ts.length + 5 ≤ fuel) :
    Parses (program fuel) (ts ++ [.eof, .eof]) (.program ds ss) [.eof] := by
  obtain ⟨ts1, ts2, rfl, hts1, hts2⟩ := hspells.of_append
  rw [length_append] at hfuel
  have hbegin : Ends [.kwClass, .kwDef, .indent] (ts2 ++ [.eof, .eof]) :=
    hts2.ends hss (by decide) (.cons rfl)
  have hundeclared : Undeclared (ts2 ++ [.eof, .eof]) :=
    hts2.undeclared_block hss fun _ => ⟨_, _, _, rfl, fun h => absurd h.1 (by decide)⟩
  have hindent : Ends [.indent] (ts1 ++ (ts2 ++ [.eof, .eof])) := by
    cases hts1 with
    | nil => exact hbegin.sub rfl
    | @cons d ds ts _ hd =>
      rcases hds d (by simp) with h | h
      · obtain ⟨x, y, xs, rfl, hx, -⟩ := hd.declared h
        exact .cons (by simp [hx])
      · obtain ⟨xs, rfl⟩ := hd.begins_def h
        exact .cons rfl
  rw [append_assoc]
  refine .bind (.forbid (hindent.sub rfl)) ?_
  refine .bind (.defSeq hts1 hds (by omega) hundeclared (hbegin.sub rfl)) ?_
  refine .bind (.forbid (hbegin.sub rfl)) ?_
  refine .bind (.stmtSeq hts2 hts2.reads hss (by omega) (.cons rfl)) ?_
  exact .token rfl .pure

end

end Practicum.Choco
