import Practicum.Choco.Parser.Report
import Practicum.Proofs.Choco.Programs

/-!
# The round trip of programs

Every program can be written as a text, and whichever text it is written as, the later editions
read it back. The one limit is on integers: their digits are read up to a fixed number only, so a
program with a longer one is written as a text that is refused.
-/

namespace Practicum.Choco

open List Scanner Node Nat

/-! ## The lines of a program can be read -/

/-- What can stand in a block: a statement, a declaration or a function. -/
def IsWritten (s : Node) : Prop :=
  IsStmt s ∨ IsDeclaration s ∨ IsFunction s

def Part.IsWritten : Part → Prop
  | .stmt s => Choco.IsWritten s
  | .block ss => ∀ s ∈ ss, Choco.IsWritten s
  | .otherwise ss => ∀ s ∈ ss, IsStmt s

section
variable {s t d e p : Node} {ss ps : List Node} {m : Nat} {lines : List Line} {text : String}

theorem writable_colon : Lexeme.colon.Writable :=
  .sign (by decide)

theorem readable_header (ts : List Lexeme) (hts : ∀ x ∈ ts, x.Writable) (he : IsExpr e) :
    Line.Readable ⟨m, ts ++ (e.tokens ++ [.colon])⟩ := by
  refine ⟨by simp, forall_mem_append.2 ⟨hts, forall_mem_append.2 ⟨?_, ?_⟩⟩⟩
  · exact fun x hx => (he.inline x hx).1
  · exact forall_mem_singleton.2 writable_colon

theorem IsType.writable (h : IsType t) : ∀ x ∈ t.typeTokens, x.Writable := by
  induction h with
  | @name x hx =>
    have hmem : ∀ x ∈ ["object", "int", "bool", "str"], x ∈ keywords.map Prod.fst := by decide
    exact forall_mem_singleton.2 (writable_keyword (hmem x hx))
  | list h ih =>
    exact forall_mem_between (.sign (by decide)) ih (.sign (by decide))

theorem IsTypedVar.writable (h : IsTypedVar d) : ∀ x ∈ d.typedTokens, x.Writable := by
  cases h with
  | mk hx ht =>
    exact forall_mem_cons.2 ⟨.word hx.1, forall_mem_cons.2 ⟨writable_colon, ht.writable⟩⟩

theorem writable_paramTokens (h : ∀ p ∈ ps, IsTypedVar p) : ∀ x ∈ paramTokens ps, x.Writable := by
  cases ps with
  | nil => simp [paramTokens]
  | cons p ps =>
    rw [paramTokens_cons]
    refine forall_mem_append.2 ⟨(h p (by simp)).writable, fun x hx => ?_⟩
    obtain ⟨q, hq, hx⟩ := mem_flatMap.1 hx
    rcases mem_cons.1 hx with rfl | hx
    · exact .sign (by decide)
    · exact (h q (by simp [hq])).writable x hx

theorem writable_resultTokens (h : t = .typeName "<None>" ∨ IsType t) :
    ∀ x ∈ resultTokens t, x.Writable := by
  rcases h with rfl | h
  · simp [resultTokens]
  · rw [resultTokens_eq h]
    exact forall_mem_cons.2 ⟨.sign (by decide), h.writable⟩

theorem readable_function {f : String} (hf : IsName f) (hps : ∀ p ∈ ps, IsTypedVar p)
    (ht : t = .typeName "<None>" ∨ IsType t) : Line.Readable ⟨m, functionTokens f ps t⟩ := by
  refine ⟨by simp [functionTokens], ?_⟩
  refine forall_mem_cons.2 ⟨writable_keyword, forall_mem_cons.2
    ⟨.word hf.1, forall_mem_cons.2 ⟨.sign (by decide), forall_mem_append.2
      ⟨writable_paramTokens hps, forall_mem_cons.2 ⟨.sign (by decide),
        forall_mem_append.2 ⟨writable_resultTokens ht, ?_⟩⟩⟩⟩⟩⟩
  exact forall_mem_singleton.2 writable_colon

theorem IsWritten.readable (h : IsWritten s) (hs : s.hasBlocks = false) :
    Line.Readable ⟨m, s.lineTokens⟩ := by
  rcases h with h | h | h
  · cases h with
    | pass | returnNone =>
      exact ⟨by simp [lineTokens], forall_mem_singleton.2 writable_keyword⟩
    | returnValue he =>
      refine ⟨by simp [lineTokens], forall_mem_cons.2 ⟨writable_keyword, ?_⟩⟩
      exact fun x hx => (he.inline x hx).1
    | assignment h => exact ⟨h.beginsAt.ne_nil, fun x hx => (h.inline x hx).1⟩
    | ifStmt | whileStmt | forStmt => exact absurd hs (by simp [hasBlocks])
  · cases h with
    | varDef h =>
      cases h with
      | mk hx hv =>
        refine ⟨by simp [lineTokens], forall_mem_append.2 ⟨hx.writable, ?_⟩⟩
        exact forall_mem_pair (.sign (by decide)) (inline_literal hv).1
    | globalDecl hx | nonlocalDecl hx =>
      exact ⟨by simp [lineTokens], forall_mem_pair writable_keyword (.word hx.1)⟩
  · cases h with
    | mk => exact absurd hs (by simp [hasBlocks])

theorem IsWritten.of_hasBlocks (h : IsWritten s) (hs : s.hasBlocks = true) :
    IsStmt s ∨ IsFunction s := by
  rcases h with h | h | h
  · exact .inl h
  · cases h with
    | varDef h =>
      cases h with
      | mk => exact absurd hs (by simp [hasBlocks])
    | globalDecl | nonlocalDecl => exact absurd hs (by simp [hasBlocks])
  · exact .inr h

theorem Writes.readable {p : Part} (h : Writes m p lines) (hp : p.IsWritten) :
    ∀ l ∈ lines, l.Readable := by
  induction h with
  | line hs => exact forall_mem_singleton.2 (IsWritten.readable hp hs)
  | ifStmt _ _ _ _ ihbody ihrest =>
    obtain ⟨hc, hbody, hrest⟩ := ((hp.of_hasBlocks rfl).resolve_right nofun).of_ifStmt
    refine forall_mem_cons.2 ⟨readable_header [.word "if"] ?_ hc, ?_⟩
    · exact forall_mem_singleton.2 writable_keyword
    · exact forall_mem_append.2 ⟨ihbody fun s hs => .inl (hbody s hs), ihrest hrest⟩
  | whileStmt _ _ _ ihbody =>
    obtain ⟨hc, hbody⟩ := ((hp.of_hasBlocks rfl).resolve_right nofun).of_whileStmt
    refine forall_mem_cons.2 ⟨readable_header [.word "while"] ?_ hc, ?_⟩
    · exact forall_mem_singleton.2 writable_keyword
    · exact ihbody fun s hs => .inl (hbody s hs)
  | @forStmt m k x e _ _ _ _ _ ihbody =>
    obtain ⟨hx, he, hbody⟩ := ((hp.of_hasBlocks rfl).resolve_right nofun).of_forStmt
    refine forall_mem_cons.2 ⟨readable_header [.word "for", .word x, .word "in"] ?_ he, ?_⟩
    · exact forall_mem_cons.2
        ⟨writable_keyword, forall_mem_pair (.word hx.1) writable_keyword⟩
    · exact ihbody fun s hs => .inl (hbody s hs)
  | funcDef _ _ _ ihbody =>
    cases (hp.of_hasBlocks rfl).resolve_left IsStmt.not_funcDef with
    | mk hf hps ht hdecls _ hbody =>
      refine forall_mem_cons.2 ⟨readable_function hf hps ht, ihbody fun s hs => ?_⟩
      rcases mem_append.1 hs with hs | hs
      · exact .inr (.inl (hdecls s hs))
      · exact .inl (hbody s hs)
  | nothing => simp
  | elseBlock _ _ _ ihrest =>
    refine forall_mem_cons.2 ⟨⟨by simp, ?_⟩, ihrest fun s hs => .inl (hp s hs)⟩
    exact forall_mem_pair writable_keyword writable_colon
  | elifBlock _ _ _ _ ihbody ihrest =>
    obtain ⟨hc, hbody, hrest⟩ := (hp _ (mem_singleton.2 rfl)).of_ifStmt
    refine forall_mem_cons.2 ⟨readable_header [.word "elif"] ?_ hc, ?_⟩
    · exact forall_mem_singleton.2 writable_keyword
    · exact forall_mem_append.2 ⟨ihbody fun s hs => .inl (hbody s hs), ihrest hrest⟩
  | nil => simp
  | cons _ _ ihs ihss =>
    exact forall_mem_append.2 ⟨ihs (hp _ (by simp)), ihss fun s hs => hp s (by simp [hs])⟩

/-! ## Every program can be written -/

theorem exists_writes_block (h : ∀ s ∈ ss, ∀ m, ∃ lines, Writes m (.stmt s) lines) (m : Nat) :
    ∃ lines, Writes m (.block ss) lines := by
  induction ss with
  | nil => exact ⟨[], .nil⟩
  | cons s ss ih =>
    obtain ⟨ls, hls⟩ := h s (by simp) m
    obtain ⟨ls', hls'⟩ := ih fun s hs => h s (by simp [hs])
    exact ⟨ls ++ ls', .cons hls hls'⟩

theorem IsStmt.exists_writes (h : IsStmt s) (m : Nat) : ∃ lines, Writes m (.stmt s) lines := by
  induction h generalizing m with
  | pass | returnNone | returnValue => exact ⟨_, .line rfl⟩
  | assignment h => exact ⟨_, .line h.hasBlocks_eq⟩
  | @ifStmt c _ rest hc hne hbody _ ihbody ihrest =>
    obtain ⟨ls, hls⟩ := exists_writes_block ihbody (m + 1)
    by_cases hempty : rest = []
    · subst hempty
      exact ⟨_, .ifStmt (lt_succ_self m) hne hls .nothing⟩
    · obtain ⟨_, hls'⟩ := exists_writes_block ihrest (m + 1)
      have helse := Writes.elseBlock (lt_succ_self m) hempty hls'
      exact ⟨_, .ifStmt (lt_succ_self m) hne hls helse⟩
  | whileStmt hc hne hbody ihbody =>
    obtain ⟨ls, hls⟩ := exists_writes_block ihbody (m + 1)
    exact ⟨_, .whileStmt (lt_succ_self m) hne hls⟩
  | forStmt _ _ hne hbody ihbody =>
    obtain ⟨ls, hls⟩ := exists_writes_block ihbody (m + 1)
    exact ⟨_, .forStmt (lt_succ_self m) hne hls⟩

theorem IsDeclaration.exists_writes (h : IsDeclaration d) (m : Nat) :
    ∃ lines, Writes m (.stmt d) lines := by
  cases h with
  | varDef h =>
    cases h with
    | mk => exact ⟨_, .line rfl⟩
  | globalDecl => exact ⟨_, .line rfl⟩
  | nonlocalDecl => exact ⟨_, .line rfl⟩

theorem IsFunction.exists_writes (h : IsFunction d) (m : Nat) :
    ∃ lines, Writes m (.stmt d) lines := by
  cases h with
  | @mk f _ decls body t _ _ _ hdecls hne hbody =>
    have hall : ∀ s ∈ decls ++ body, ∀ m, ∃ lines, Writes m (.stmt s) lines := by
      intro s hs
      rcases mem_append.1 hs with hs | hs
      · exact (hdecls s hs).exists_writes
      · exact (hbody s hs).exists_writes
    obtain ⟨_, hls⟩ := exists_writes_block hall (m + 1)
    exact ⟨_, .funcDef (lt_succ_self m) (by simp [hne]) hls⟩

theorem IsWritten.exists_writes (h : IsWritten s) (m : Nat) :
    ∃ lines, Writes m (.stmt s) lines := by
  rcases h with h | h | h
  iterate 3
    · exact h.exists_writes m

theorem IsProgram.isWritten {defs stmts : List Node} (h : IsProgram (.program defs stmts)) :
    ∀ s ∈ defs ++ stmts, IsWritten s := by
  cases h with
  | mk hdefs hstmts =>
    intro s hs
    rcases mem_append.1 hs with hs | hs
    · exact .inr ((hdefs s hs).imp_left .varDef)
    · exact .inl (hstmts s hs)

theorem IsProgram.exists_rendering (hp : IsProgram p) : ∃ text, Rendering p text := by
  cases p with
  | program defs stmts =>
    obtain ⟨lines, hlines⟩ := exists_writes_block (fun s hs => (hp.isWritten s hs).exists_writes) 0
    exact ⟨_, defs, stmts, lines, rfl, hlines, rfl⟩
  | _ => exact nomatch hp

/-! ## Reading a text -/

theorem Lexes.yields {ts : List Lexeme} (h : Lexes 0 lines ts) :
    (Lexer.ofString (String.ofList (lines.flatMap Line.text))).Yields (ts ++ [.eof, .eof]) := by
  have heof : Resumes [] [0] [Lexeme.eof, .eof] :=
    .cons (fun _ hs => scan_end_eof hs) (.cons (fun _ hs => scan_end_eof hs) fun _ _ => .nil)
  have hresumes : Resumes (lines ++ []) [0] (ts ++ [.eof, .eof]) :=
    h.resumes [] [] _ (by simp) (by simp) heof
  rw [append_nil] at hresumes
  have hat : (ofString (String.ofList (lines.flatMap Line.text))).At
      (lines.flatMap Line.text) (beforeLine false 0 [0]) := ⟨String.toList_ofList, rfl⟩
  exact ⟨_, rfl, hresumes.streams _ hat.start.look⟩

theorem parseProgram_of_ne_first {edition : Edition} (he : edition ≠ .first) (text : String) :
    parseProgram edition text = Parser.parse Standard.program text := by
  cases edition with
  | first => exact absurd rfl he
  | second => rfl
  | third => rfl

/-- Every text in which a program is written is read as this program by the later editions, and
every program is written in some text. -/
theorem parseProgram_rendering {edition : Edition} (he : edition ≠ .first) (hp : IsProgram p) :
    (∃ text, Rendering p text) ∧ ∀ text, Rendering p text → parseProgram edition text = .ok p := by
  refine ⟨hp.exists_rendering, ?_⟩
  rintro text ⟨defs, stmts, lines, rfl, hwrites, rfl⟩
  obtain ⟨ts, hspells, hlexes⟩ := hwrites.lexes (hwrites.readable hp.isWritten)
  cases hp with
  | mk hdefs hstmts =>
    have hfuel : ts.length + 5 ≤ 4 * (String.ofList (lines.flatMap Line.text)).length + 8 := by
      have := hlexes.length_le
      rw [String.length_ofList, length_flatMap]
      omega
    obtain ⟨l, hparse, -⟩ := Parses.program hspells hdefs hstmts hfuel _ hlexes.yields
    rw [parseProgram_of_ne_first he, Parser.parse]
    show Prod.fst <$> Standard.program _ _ = _
    rw [hparse]
    rfl

end

/-- A conditional statement without alternatives that assigns a number, and the text with a margin
of two. -/
theorem parseProgram_rendering_conditional :
    parseProgram .third "if not a :\n  b = - 1\n" = .ok (.program []
      [.ifStmt [.unary "not" [.name "a" none] none]
        [.assign [.name "b" none] [.unary "-" [.literal (.int 1 32) none] none]] []]) := by
  have ha : IsName "a" := ⟨⟨'a', [], rfl, by decide, by simp⟩, rfl⟩
  have hb : IsName "b" := ⟨⟨'b', [], rfl, by decide, by simp⟩, rfl⟩
  have hone : IsLiteral (.int 1 32) := ⟨rfl, by decide, by decide +kernel⟩
  have hbody : IsStmt (.assign [.name "b" none] [.unary "-" [.literal (.int 1 32) none] none]) :=
    .assignment (.assign (.name hb) (.value (.minus (.literal hone))))
  refine (parseProgram_rendering (by decide) (.mk (by simp) ?_)).2 _
    ⟨_, _, _, rfl, .cons (.ifStmt (by decide : 0 < 2) (by simp) (.cons (.line rfl) .nil) .nothing)
      .nil, rfl⟩
  exact forall_mem_singleton.2
    (.ifStmt (.not (.name ha)) (by simp) (forall_mem_singleton.2 hbody) (by simp))

/-! ## Numbers that are too long -/

def numberProgram (n : Nat) : Node :=
  .program [] [.literal (.int n 32) none]

def numberText (n : Nat) : String :=
  String.ofList (toDigits 10 n ++ ['\n'])

theorem rendering_numberProgram (n : Nat) : Rendering (numberProgram n) (numberText n) := by
  refine ⟨[], _, _, rfl, .cons (.line rfl) .nil, ?_⟩
  simp [numberText, Line.text, lineTokens, tokens, Lexeme.literal, spaced, Lexeme.spelling]

theorem program_of_next_error {fuel : Nat} {text : String} {e : LexError}
    (h : (ofString text).next = .error e) :
    Standard.program fuel (Lexer.ofString text) = .error (.lexical e) := by
  have hlook : Parser.look (Lexer.ofString text) = .error (.lexical e) := by
    rw [Parser.look]
    simp only [Lexer.ofString, h]
  show (((Parser.look (Lexer.ofString text) >>= _) >>= _) >>= _) = _
  rw [hlook]
  rfl

theorem parseProgram_numberText
    {edition : Edition} (he : edition ≠ .first) {n : Nat} (hn : 10 ^ Text.maxDecimalDigits ≤ n) :
    parseProgram edition (numberText n) =
      .error (.lexical (.notANumber (String.ofList (toDigits 10 n)))) := by
  obtain ⟨c, cs, hlist, hc, hlexeme⟩ := lexeme_digits n (.inr rfl)
  have hrefused : ∀ (s : Scanner) (r : List Char) (l : Layout), s.At (c :: (cs ++ '\n' :: r)) l →
      s.lexeme c = .error (.notANumber (String.ofList (toDigits 10 n))) := by
    intro s r l h
    obtain ⟨t, -, heq⟩ := hlexeme s r l h
    rw [heq, readDecimal?_toDigits_of_le hn]
  have hat : (ofString (numberText n)).At (c :: (cs ++ '\n' :: [])) (beforeLine false 0 [0]) := by
    refine ⟨?_, rfl⟩
    rw [ofString, numberText, String.toList_ofList, hlist]
    rfl
  have hnext : (ofString (numberText n)).next =
      .error (.notANumber (String.ofList (toDigits 10 n))) := by
    have hat := hat.start.look
    rw [Scanner.next, scan_of_begins hc hat, beforeLine, if_pos rfl]
    simp only [lineStart, hat.2]
    exact hrefused _ _ _ ⟨hat.1, rfl⟩
  rw [parseProgram_of_ne_first he]
  show Prod.fst <$> Standard.program _ _ = _
  rw [program_of_next_error hnext]
  rfl

/-- The least number that is too long. -/
theorem parseProgram_tooLong : Rendering (numberProgram (10 ^ Text.maxDecimalDigits))
        (numberText (10 ^ Text.maxDecimalDigits)) ∧
      parseProgram .third (numberText (10 ^ Text.maxDecimalDigits)) ≠
        .ok (numberProgram (10 ^ Text.maxDecimalDigits)) := by
  refine ⟨rendering_numberProgram _, ?_⟩
  rw [parseProgram_numberText (by decide) (Nat.le_refl _)]
  exact nofun

end Practicum.Choco
