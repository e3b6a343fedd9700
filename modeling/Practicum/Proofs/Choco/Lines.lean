import Mathlib.Data.List.Infix
import Practicum.Choco.Token.Lexer
import Practicum.Proofs.Choco.Writing
import Practicum.Proofs.Runs

/-!
# Logical lines

The tokens of a source are those of its logical lines, one after the other. A line begins with an
indent or with any number of dedents, goes on with at least one ordinary token and ends with a
newline; after the last line only dedents and the end of the file are left. The open levels always
rise from zero, and there is one more of them than there are indents that no dedent has closed.
-/

namespace Practicum.Choco

open Text List

/-! ## The shape of a sequence of tokens -/

def TokenKind.Ordinary (k : TokenKind) : Prop :=
  k ≠ .eof ∧ k ≠ .newline ∧ k ≠ .indent ∧ k ≠ .dedent
  deriving Decidable

/-- What can stand before the first ordinary token of a line. -/
def IsOpening (ks : List TokenKind) : Prop :=
  ks = [.indent] ∨ ∃ n, ks = List.replicate n .dedent

def IsLineBody (ks : List TokenKind) : Prop :=
  ks ≠ [] ∧ ∀ k ∈ ks, k.Ordinary

def IsLine (ks : List TokenKind) : Prop :=
  ∃ opening body, IsOpening opening ∧ IsLineBody body ∧ ks = opening ++ body ++ [.newline]

def AreLines (ks : List TokenKind) : Prop :=
  ∃ lines : List (List TokenKind), (∀ l ∈ lines, IsLine l) ∧ ks = lines.flatten

/-- The kinds of the tokens of a source: lines, then only dedents and the end of the file. -/
def IsSource (ks : List TokenKind) : Prop :=
  ∃ lines n, AreLines lines ∧ ks = lines ++ List.replicate n .dedent ++ [.eof]

/-- Levels, innermost first, that rise strictly from zero. -/
def Rising (levels : List Nat) : Prop :=
  levels.reverse.head? = some 0 ∧ levels.reverse.Pairwise (· < ·)

variable {ks : List TokenKind}

theorem AreLines.append_line {l : List TokenKind} (h : AreLines ks) (hl : IsLine l) :
    AreLines (ks ++ l) := by
  obtain ⟨lines, hlines, rfl⟩ := h
  refine ⟨lines ++ [l], forall_mem_append.mpr ⟨hlines, ?_⟩, by simp⟩
  exact fun k hk => mem_singleton.mp hk ▸ hl

/-- The innermost level is the greatest. -/
theorem rising_cons {l : Nat} {ls : List Nat} :
    Rising (l :: ls) ↔ ls = [] ∧ l = 0 ∨ Rising ls ∧ ∀ k ∈ ls, k < l := by
  cases ls with
  | nil => simp [Rising]
  | cons => simp [Rising, pairwise_append, and_assoc, and_left_comm, imp_and, forall_and]

namespace Rising

variable {levels : List Nat} {n : Nat}

variable (h : Rising levels)
include h

theorem ne_nil : levels ≠ [] := by
  rintro rfl
  cases h.1

theorem le_head (hn : n ∈ levels) : n ≤ levels.headD 0 := by
  obtain ⟨l, ls, rfl⟩ := exists_cons_of_ne_nil h.ne_nil
  obtain rfl | hn := mem_cons.mp hn
  · exact Nat.le_refl _
  obtain ⟨rfl, -⟩ | ⟨-, hlt⟩ := rising_cons.mp h
  · cases hn
  · exact Nat.le_of_lt (hlt n hn)

theorem push (hn : levels.headD 0 < n) : Rising (n :: levels) :=
  rising_cons.mpr (.inr ⟨h, fun _ hk => Nat.lt_of_le_of_lt (h.le_head hk) hn⟩)

theorem pop (hpos : 0 < levels.headD 0) : Rising levels.tail := by
  obtain ⟨l, ls, rfl⟩ := exists_cons_of_ne_nil h.ne_nil
  obtain ⟨-, rfl⟩ | ⟨hls, -⟩ := rising_cons.mp h
  · exact absurd hpos (Nat.lt_irrefl 0)
  · exact hls

theorem eq_singleton (hzero : levels.headD 0 = 0) : levels = [0] := by
  obtain ⟨l, ls, rfl⟩ := exists_cons_of_ne_nil h.ne_nil
  obtain rfl : l = 0 := hzero
  obtain ⟨rfl, -⟩ | ⟨hls, hlt⟩ := rising_cons.mp h
  · rfl
  · obtain ⟨k, _, rfl⟩ := exists_cons_of_ne_nil hls.ne_nil
    exact absurd (hlt k mem_cons_self) (Nat.not_lt_zero k)

end Rising

/-! ## What a token does to the layout -/

namespace Scanner

/-- The next character begins a token. -/
def Poised (s : Scanner) : Prop :=
  ∃ c cs, s.rest = c :: cs ∧ isBlank c = false ∧ c ≠ '#'

/-- What the next token can be, and what it does to the layout. -/
inductive Advances (s s' : Scanner) : TokenKind → Prop where
  | newline (begun : s.layout.logical = true) (through : ¬s.Poised)
    (ended : s'.layout.logical = false) (next : s'.layout.newLine = true ∨ s'.rest = [])
    (levels : s'.layout.levels = s.layout.levels) : Advances s s' .newline
  | close (outside : s.layout.logical = false) (inner : 0 < s.layout.level)
    (spent : s'.rest = []) (outside' : s'.layout.logical = false)
    (levels : s'.layout.levels = s.layout.levels.tail) : Advances s s' .dedent
  | eof (outside : s.layout.logical = false) (outermost : s.layout.level = 0)
    (spent : s'.rest = []) (outside' : s'.layout.logical = false)
    (levels : s'.layout.levels = s.layout.levels) : Advances s s' .eof
  | indent (more : s.rest ≠ []) (fresh : s.layout.newLine = true)
    (fresh' : s'.layout.newLine = true) (begun : s'.layout.logical = true) (poised : s'.Poised)
    (margin : s.Poised → s'.layout.indent = s.layout.indent)
    (deeper : s.layout.level < s'.layout.indent)
    (levels : s'.layout.levels = s'.layout.indent :: s.layout.levels) : Advances s s' .indent
  | dedent (more : s.rest ≠ []) (fresh : s.layout.newLine = true)
    (fresh' : s'.layout.newLine = true) (begun : s'.layout.logical = true) (poised : s'.Poised)
    (margin : s.Poised → s'.layout.indent = s.layout.indent)
    (further : s'.layout.indent < s.layout.level)
    (known : s'.layout.indent ∈ s.layout.levels)
    (levels : s'.layout.levels = s.layout.levels.tail) : Advances s s' .dedent
  /-- A token inside a line, or the first one of a line at the open level. -/
  | ordinary {k : TokenKind} (more : s.rest ≠ []) (ordinary : k.Ordinary)
    (inside : s'.layout.newLine = false) (begun : s'.layout.logical = true)
    (levels : s'.layout.levels = s.layout.levels) : Advances s s' k

@[simp] theorem layout_start (s : Scanner) : s.start.layout = s.layout := rfl

@[simp] theorem layout_look (s : Scanner) : s.look.layout = s.layout := by
  unfold look
  split
  · rfl
  · split <;> rfl

@[simp] theorem layout_take (s : Scanner) : s.take.layout = s.layout := by
  unfold take
  split <;> rfl

@[simp] theorem layout_takeWhile (p : Char → Bool) (s : Scanner) :
    (s.takeWhile p).2.layout = s.layout := by
  fun_induction takeWhile p s with
  | case1 => simp
  | case2 s c cs h hp ds t heq ih =>
    rw [heq] at ih
    simpa using ih
  | case3 => simp

@[simp] theorem layout_passComment (s : Scanner) : s.passComment.layout = s.layout := by
  simp [passComment]

variable {c : Char} {text : List Char}

theorem of_consed {x : Except LexError (List Char × Scanner)} {t : Scanner}
    (h : (do let (text, t) ← x; pure (c :: text, t)) = Except.ok (text, t)) :
    ∃ text, x = .ok (text, t) := by
  obtain ⟨⟨text', _⟩, hx, h⟩ := of_bind h
  cases h
  exact ⟨text', hx⟩

theorem layout_stringBody {s t : Scanner} (h : s.stringBody = .ok (text, t)) :
    t.layout = s.layout := by
  fun_induction stringBody s generalizing text t with
  | case2 =>
    cases h
    simp
  | case1 | case3 | case9 => cases h
  | _ =>
    rename_i ih
    obtain ⟨_, h⟩ := of_consed h
    simpa using ih h

/-- The token begun at a place: it is spelled as its kind is, and the layout is left as it is. -/
def Plain (s : Scanner) (result : Token × Scanner) : Prop :=
  (result.1.kind ∈ [.identifier, .integer, .string] ∨
    (result.1.spelling, result.1.kind) ∈ signs ++ keywords) ∧ result.2.layout = s.layout

variable {s t : Scanner} {r : Token × Scanner}

theorem Plain.ordinary (h : s.Plain r) : r.1.kind.Ordinary := by
  have hfree : ∀ k ∈ [TokenKind.identifier, .integer, .string], k.Ordinary := by decide
  have hspelled : ∀ entry ∈ signs ++ keywords, entry.2.Ordinary := by decide
  exact h.1.elim (hfree _) (hspelled _)

theorem plain_word (hlayout : t.layout = s.layout) {kind : TokenKind} {spelling : String}
    (h : (spelling, kind) ∈ signs ++ keywords) : s.Plain (s.word t kind spelling) :=
  ⟨.inr h, hlayout⟩

theorem plain_of_lexeme (h : s.lexeme c = .ok r) : s.Plain r := by
  unfold lexeme at h
  split at h
  case h_2 | h_6 | h_8 | h_9 =>
    cases h
    rw [symbol]
    split
    iterate 2
      · exact plain_word (by simp) (by decide)
  case h_5 | h_7 =>
    rw [doubled] at h
    split at h
    · cases h
      exact plain_word (by simp) (by decide)
    · cases h
  case h_16 =>
    obtain ⟨⟨text, t⟩, hbody, h⟩ := of_bind h
    cases h
    exact ⟨.inl (by simp [token]), by simpa using layout_stringBody hbody⟩
  case h_17 =>
    split at h
    · cases h
      refine ⟨?_, by simp [word]⟩
      generalize String.ofList _ = name
      show wordKind name ∈ _ ∨ (name, wordKind name) ∈ signs ++ keywords
      rw [wordKind]
      cases hname : keywords.lookup name with
      | none => exact .inl (by decide)
      | some k => exact .inr (mem_append_right _ (mem_of_lookup_eq_some hname))
    split at h
    · dsimp only at h
      split at h
      · cases h
        exact ⟨.inl (by simp [token]), by simp⟩
      · cases h
    · cases h
  all_goals
    cases h
    exact plain_word (layout_take s) (by decide)

variable {s' : Scanner} {k : TokenKind} {tok : Token}

theorem level_congr (h : s'.layout.levels = s.layout.levels) : s'.layout.level = s.layout.level := by
  rw [Layout.level, h, Layout.level]

theorem Advances.of_skipped (h : Advances t s' k)
    (hs : s.Poised → t.Poised ∧ t.layout.indent = s.layout.indent)
    (hrest : s.rest = [] → t.rest = []) (hnew : t.layout.newLine = true → s.layout.newLine = true)
    (hlogical : t.layout.logical = s.layout.logical) (hlevels : t.layout.levels = s.layout.levels) :
    Advances s s' k := by
  have hlevel := level_congr hlevels
  cases h with
  | newline begun through ended next levels =>
    exact .newline (hlogical ▸ begun) (through ∘ fun h => (hs h).1) ended next (hlevels ▸ levels)
  | close outside inner spent outside' levels =>
    exact .close (hlogical ▸ outside) (hlevel ▸ inner) spent outside' (hlevels ▸ levels)
  | eof outside outermost spent outside' levels =>
    exact .eof (hlogical ▸ outside) (hlevel ▸ outermost) spent outside' (hlevels ▸ levels)
  | indent more fresh fresh' begun poised margin deeper levels =>
    exact .indent (more ∘ hrest) (hnew fresh) fresh' begun poised
      (fun h => (margin (hs h).1).trans (hs h).2) (hlevel ▸ deeper) (hlevels ▸ levels)
  | dedent more fresh fresh' begun poised margin further known levels =>
    exact .dedent (more ∘ hrest) (hnew fresh) fresh' begun poised
      (fun h => (margin (hs h).1).trans (hs h).2) (hlevel ▸ further) (hlevels ▸ known)
      (hlevels ▸ levels)
  | ordinary more ordinary inside begun levels =>
    exact .ordinary (more ∘ hrest) ordinary inside begun (hlevels ▸ levels)

theorem Poised.rest_ne_nil (h : s.Poised) : s.rest ≠ [] := by
  obtain ⟨c, cs, hrest, -⟩ := h
  rw [hrest]
  exact cons_ne_nil c cs

theorem advances_atEnd (hrest : s.rest = []) : Advances s s.atEnd.2 s.atEnd.1.kind := by
  rw [atEnd]
  split
  next h => exact .newline h (fun hs => hs.rest_ne_nil hrest) rfl (.inr hrest) rfl
  next h =>
    have hlogical : s.layout.logical = false := by simpa using h
    split
    next hlevel => exact .close hlogical hlevel hrest hlogical rfl
    next hlevel => exact .eof hlogical (by omega) hrest hlogical rfl

theorem advances_of_lineStart (hnew : s.layout.newLine = true) (hs : s.Poised)
    (h : s.lineStart c = .ok (tok, s')) : Advances s s' tok.kind := by
  unfold lineStart at h
  dsimp only at h
  split at h
  next hdeeper =>
    cases h
    exact .indent hs.rest_ne_nil hnew hnew rfl hs (fun _ => rfl) hdeeper rfl
  split at h
  next hfurther =>
    split at h
    next hknown =>
      cases h
      exact .dedent hs.rest_ne_nil hnew hnew rfl hs (fun _ => rfl) hfurther hknown rfl
    · cases h
  · have hplain := plain_of_lexeme h
    refine .ordinary hs.rest_ne_nil hplain.ordinary ?_ ?_ ?_
    all_goals rw [hplain.2]

theorem not_poised_of_blank {cs : List Char} (hrest : s.rest = c :: cs)
    (hc : isBlank c = true ∨ c = '#') : ¬s.Poised := by
  rintro ⟨d, _, hd, hblank, hmark⟩
  rw [hrest] at hd
  cases hd
  rw [hblank] at hc
  exact hc.elim Bool.false_ne_true hmark

/-- A scanner that stands in a line, before a line or at the end. -/
def Ready (s : Scanner) : Prop :=
  s.rest = [] ∨ s.layout.newLine = true ∨ s.layout.logical = true

theorem layout_passBlank (hlogical : (c = '\n' || c = '\r') = true →
      s.layout.logical = false) (hs : s.layout.newLine = true ∨ s.layout.logical = true) :
    (s.passBlank c).layout.newLine = s.layout.newLine ∧
      (s.passBlank c).layout.logical = s.layout.logical ∧
      (s.passBlank c).layout.levels = s.layout.levels := by
  unfold passBlank
  split
  next hc =>
    have hl := hlogical hc
    have hn : s.layout.newLine = true := hs.resolve_right (by simp [hl])
    exact ⟨hn.symm, hl.symm, rfl⟩
  split
  · exact ⟨rfl, rfl, rfl⟩
  split
  · exact ⟨rfl, rfl, rfl⟩
  · exact ⟨rfl, rfl, rfl⟩

theorem advances_of_scan (hs : s.Ready) (h : s.scan = .ok (tok, s')) : Advances s s' tok.kind := by
  fun_induction scan s with
  | case1 s hrest =>
    have hend := advances_atEnd hrest
    rwa [Except.ok.inj h] at hend
  | case2 s c cs hrest hblank hend t =>
    obtain ⟨rfl, rfl⟩ := Prod.mk.inj (Except.ok.inj h)
    have hlogical : s.layout.logical = true := (Bool.and_eq_true_iff.mp hend).2
    have hlayout : t.layout = s.nextLine.layout := layout_take _
    refine .newline hlogical (not_poised_of_blank hrest (.inl hblank)) ?_ (.inl ?_) ?_
    all_goals
      rw [hlayout]
      rfl
  | case3 s c cs hrest hblank hend ih =>
    -- a blank that ends no line
    have hstate : s.layout.newLine = true ∨ s.layout.logical = true :=
      hs.resolve_left (by simp [hrest])
    obtain ⟨hnew, hlogical, hlevels⟩ := layout_passBlank (s := s) (c := c)
      (fun hc => by simpa [hc] using hend) hstate
    refine (ih (.inr ?_) h).of_skipped
      (absurd · (not_poised_of_blank hrest (.inl hblank))) (by simp [hrest]) ?_ ?_ ?_
    · simpa [hnew, hlogical] using hstate
    · simp [hnew]
    · simp [hlogical]
    · simp [hlevels]
  | case4 s cs hrest hblank ih =>
    -- a comment
    have hstate : s.layout.newLine = true ∨ s.layout.logical = true :=
      hs.resolve_left (by simp [hrest])
    refine (ih (.inr ?_) h).of_skipped
      (absurd · (not_poised_of_blank hrest (.inr rfl))) (by simp [hrest]) ?_ ?_ ?_
    · simpa using hstate
    · simp
    · simp
    · simp
  | case5 s c cs hrest hblank hmark hnew =>
    exact advances_of_lineStart hnew ⟨c, cs, hrest, by simpa using hblank, hmark⟩ h
  | case6 s c cs hrest hblank hmark hnew =>
    have hnew : s.layout.newLine = false := by simpa using hnew
    have hlogical : s.layout.logical = true :=
      (hs.resolve_left (by simp [hrest])).resolve_left (by simp [hnew])
    have hplain := plain_of_lexeme h
    have hlayout : s'.layout = s.layout := hplain.2
    refine .ordinary (by simp [hrest]) hplain.ordinary ?_ ?_ ?_
    · rw [hlayout, hnew]
    · rw [hlayout, hlogical]
    · rw [hlayout]

theorem advances_of_next (hs : s.Ready) (h : s.next = .ok (tok, s')) : Advances s s' tok.kind := by
  have hscan : Advances s.start.look s' tok.kind := advances_of_scan (by simpa [Ready] using hs) h
  refine hscan.of_skipped (fun hpoised => ⟨by simpa [Poised] using hpoised, ?_⟩) ?_ ?_ ?_ ?_
  all_goals simp

/-! ## What a token adds to the lines -/

/-- Where a scanner stands after it has given tokens of these kinds. -/
inductive Laid (s : Scanner) : List TokenKind → Prop where
  | between {ks : List TokenKind} (lines : AreLines ks) (fresh : s.layout.newLine = true)
    (outside : s.layout.logical = false) : Laid s ks
  /-- At the beginning of a line whose first ordinary token is still to come. -/
  | margin {ks opening : List TokenKind} (lines : AreLines ks) (opens : IsOpening opening)
    (fresh : s.layout.newLine = true) (begun : s.layout.logical = true) (poised : s.Poised)
    (known : s.layout.indent ∈ s.layout.levels)
    (level : opening = [.indent] → s.layout.level = s.layout.indent) : Laid s (ks ++ opening)
  | inside {ks opening body : List TokenKind} (lines : AreLines ks) (opens : IsOpening opening)
    (ordinary : IsLineBody body) (inside : s.layout.newLine = false)
    (begun : s.layout.logical = true) : Laid s (ks ++ opening ++ body)
  | spent {ks : List TokenKind} (n : Nat) (lines : AreLines ks) (spent : s.rest = [])
    (outside : s.layout.logical = false) : Laid s (ks ++ List.replicate n .dedent)
  | ended {ks : List TokenKind} (n : Nat) (source : IsSource ks) (spent : s.rest = [])
    (outside : s.layout.logical = false) (outermost : s.layout.level = 0) :
    Laid s (ks ++ List.replicate n .eof)

variable {ks : List TokenKind}

theorem Laid.ready (h : s.Laid ks) : s.Ready := by
  cases h with
  | between _ fresh _ => exact .inr (.inl fresh)
  | margin _ _ fresh => exact .inr (.inl fresh)
  | inside _ _ _ _ begun => exact .inr (.inr begun)
  | spent _ _ spent _ => exact .inl spent
  | ended _ _ spent _ _ => exact .inl spent

theorem laid_newline {opening body : List TokenKind} (hks : AreLines ks) (hopen : IsOpening opening)
    (hbody : IsLineBody body) (hnext : s'.layout.newLine = true ∨ s'.rest = [])
    (houtside : s'.layout.logical = false) : s'.Laid (ks ++ opening ++ body ++ [.newline]) := by
  have hlines : AreLines (ks ++ opening ++ body ++ [.newline]) := by
    have := hks.append_line ⟨opening, body, hopen, hbody, rfl⟩
    simpa using this
  obtain hnew | hspent := hnext
  · exact .between hlines hnew houtside
  · simpa using Laid.spent 0 hlines hspent houtside

theorem Laid.of_spent (n : Nat) (hks : AreLines ks) (hspent : s.rest = [])
    (houtside : s.layout.logical = false) (h : Advances s s' k) :
    s'.Laid (ks ++ List.replicate n .dedent ++ [k]) := by
  cases h with
  | newline begun => simp [houtside] at begun
  | indent more | dedent more | ordinary more => exact absurd hspent more
  | close _ _ spent outside' _ =>
    rw [append_assoc, ← replicate_succ']
    exact .spent (n + 1) hks spent outside'
  | eof _ outermost spent outside' levels =>
    have hsource : IsSource (ks ++ List.replicate n .dedent ++ [.eof]) := ⟨ks, n, hks, rfl⟩
    simpa using Laid.ended 0 hsource spent outside' ((level_congr levels).trans outermost)

theorem laid_ordinary {opening : List TokenKind} (hks : AreLines ks) (hopen : IsOpening opening)
    (hk : k.Ordinary) (hinside : s'.layout.newLine = false) (hbegun : s'.layout.logical = true) :
    s'.Laid (ks ++ opening ++ [k]) :=
  .inside hks hopen ⟨cons_ne_nil _ _, fun _ hx => mem_singleton.mp hx ▸ hk⟩ hinside hbegun

theorem laid_dedent {n : Nat} (hks : AreLines ks) (hfresh : s'.layout.newLine = true)
    (hbegun : s'.layout.logical = true) (hpoised : s'.Poised)
    (hfurther : s'.layout.indent < s.layout.level) (hknown : s'.layout.indent ∈ s.layout.levels)
    (hlevels : s'.layout.levels = s.layout.levels.tail) :
    s'.Laid (ks ++ List.replicate n .dedent ++ [.dedent]) := by
  rw [append_assoc, ← replicate_succ']
  refine .margin hks (.inr ⟨n + 1, rfl⟩) hfresh hbegun hpoised ?_ ?_
  · -- the level of the line is not the innermost one
    rw [hlevels]
    rw [Layout.level] at hfurther
    cases hl : s.layout.levels with
    | nil => simp [hl] at hknown
    | cons l _ =>
      rw [hl] at hknown hfurther
      exact (mem_cons.mp hknown).resolve_left (Nat.ne_of_lt hfurther)
  · rw [replicate_succ]
    nofun

theorem Laid.advance (hlaid : s.Laid ks) (hlevels : Rising s.layout.levels)
    (h : Advances s s' k) : s'.Laid (ks ++ [k]) := by
  cases hlaid with
  | between lines fresh outside =>
    cases h with
    | newline begun => simp [outside] at begun
    | close _ _ spent outside' _ => exact .spent 1 lines spent outside'
    | eof _ outermost spent outside' levels =>
      have hsource : IsSource (ks ++ [.eof]) := ⟨ks, 0, lines, by simp⟩
      simpa using Laid.ended 0 hsource spent outside' ((level_congr levels).trans outermost)
    | indent _ _ fresh' begun poised _ _ levels =>
      refine .margin lines (.inl rfl) fresh' begun poised ?_ fun _ => ?_
      · rw [levels]
        exact mem_cons_self
      · rw [Layout.level, levels]
        rfl
    | dedent _ _ fresh' begun poised _ further known levels =>
      simpa using laid_dedent (n := 0) lines fresh' begun poised further known levels
    | ordinary _ ordinary inside begun _ =>
      simpa using laid_ordinary lines (.inr ⟨0, rfl⟩) ordinary inside begun
  | @margin ks opening lines opens fresh begun poised known level =>
    cases h with
    | newline _ through => exact absurd poised through
    | close outside => simp [begun] at outside
    | eof outside => simp [begun] at outside
    | indent _ _ _ _ _ margin deeper _ =>
      -- the level of the line is an open one
      rw [margin poised] at deeper
      exact absurd (hlevels.le_head known) (Nat.not_le_of_lt deeper)
    | dedent _ _ fresh' begun' poised' margin further known' levels =>
      obtain hindent | ⟨n, rfl⟩ := opens
      · rw [margin poised, level hindent] at further
        exact absurd further (Nat.lt_irrefl _)
      · exact laid_dedent lines fresh' begun' poised' further known' levels
    | ordinary _ ordinary inside begun' _ =>
      exact laid_ordinary lines opens ordinary inside begun'
  | @inside ks opening body lines opens ordinary inside begun =>
    cases h with
    | newline _ _ ended next _ => exact laid_newline lines opens ordinary next ended
    | close outside => simp [begun] at outside
    | eof outside => simp [begun] at outside
    | indent _ fresh => simp [inside] at fresh
    | dedent _ fresh => simp [inside] at fresh
    | ordinary _ ordinary' inside' begun' _ =>
      rw [append_assoc _ body]
      refine .inside lines opens ⟨by simp, forall_mem_append.mpr ⟨ordinary.2, ?_⟩⟩ inside' begun'
      exact fun _ hx => mem_singleton.mp hx ▸ ordinary'
  | spent n lines spent outside => exact Laid.of_spent n lines spent outside h
  | @ended ks n source spent outside outermost =>
    cases h with
    | newline begun => simp [outside] at begun
    | close _ inner => simp [outermost] at inner
    | eof _ _ spent' outside' levels =>
      rw [append_assoc, ← replicate_succ']
      exact .ended (n + 1) source spent' outside' ((level_congr levels).trans outermost)
    | indent more | dedent more | ordinary more => exact absurd spent more

/-- The open levels after tokens of these kinds. -/
structure Levelled (s : Scanner) (ks : List TokenKind) : Prop where
  rising : Rising s.layout.levels
  count : s.layout.levels.length + ks.count .dedent = ks.count .indent + 1

theorem Levelled.le (h : s.Levelled ks) : ks.count .dedent ≤ ks.count .indent := by
  have hlength := length_pos_iff.mpr h.rising.ne_nil
  have := h.count
  omega

theorem Levelled.pop (h : s.Levelled ks) (hpos : 0 < s.layout.level)
    (hlevels : s'.layout.levels = s.layout.levels.tail) : s'.Levelled (ks ++ [.dedent]) := by
  refine ⟨hlevels ▸ h.rising.pop hpos, ?_⟩
  have hlength := length_pos_iff.mpr h.rising.ne_nil
  have hcount := h.count
  simp [hlevels]
  omega

theorem Levelled.advance (hlevelled : s.Levelled ks) (h : Advances s s' k) :
    s'.Levelled (ks ++ [k]) := by
  obtain ⟨hrising, hcount⟩ := hlevelled
  cases h with
  | newline _ _ _ _ levels | eof _ _ _ _ levels =>
    exact ⟨levels ▸ hrising, by simpa [levels] using hcount⟩
  | close _ inner _ _ levels => exact Levelled.pop ⟨hrising, hcount⟩ inner levels
  | dedent _ _ _ _ _ _ further _ levels =>
    exact Levelled.pop ⟨hrising, hcount⟩ (Nat.zero_lt_of_lt further) levels
  | indent _ _ _ _ _ _ deeper levels =>
    refine ⟨levels ▸ hrising.push deeper, ?_⟩
    simp [levels]
    omega
  | ordinary _ ordinary _ _ levels =>
    refine ⟨levels ▸ hrising, ?_⟩
    obtain ⟨-, -, hindent, hdedent⟩ := ordinary
    simpa [levels, hindent, hdedent] using hcount

end Scanner

/-! ## Runs of the lexer -/

namespace Lexer

/-- The tokens that a lexer gives when they are consumed one after the other. -/
inductive Consumes (l : Lexer) : List Token → Lexer → Prop where
  | nothing : Consumes l [] l
  | more {ts : List Token} {t : Token} {l' l'' : Lexer} (before : Consumes l ts l')
    (next : l'.consume = .ok (t, l'')) : Consumes l (ts ++ [t]) l''

variable {l : Lexer} {ts : List Token} {source : String}

theorem Consumes.laid (h : (ofString source).Consumes ts l) :
    l.ahead = [] ∧ l.scanner.Laid (ts.map Token.kind) ∧ l.scanner.Levelled (ts.map Token.kind) := by
  induction h with
  | nothing =>
    refine ⟨rfl, .between ⟨[], nofun, rfl⟩ rfl rfl, ⟨rfl, ?_⟩, rfl⟩
    exact pairwise_singleton _ _
  | @more ts t _ _ _ next ih =>
    obtain ⟨hahead, hlaid, hlevelled⟩ := ih
    rw [consume, hahead] at next
    obtain ⟨⟨_, s⟩, hnext, next⟩ := of_bind next
    cases next
    have hadvances := Scanner.advances_of_next hlaid.ready hnext
    rw [map_append]
    exact ⟨rfl, hlaid.advance hlevelled.rising hadvances, hlevelled.advance hadvances⟩

theorem Consumes.of_isPrefix {us : List Token} (h : (ofString source).Consumes ts l)
    (hus : us <+: ts) : ∃ l', (ofString source).Consumes us l' := by
  induction h with
  | nothing =>
    rw [prefix_nil.mp hus]
    exact ⟨_, .nothing⟩
  | more before next ih =>
    obtain rfl | hus := prefix_concat_iff.mp hus
    · exact ⟨_, before.more next⟩
    · exact ih hus

theorem Consumes.tokens {l0 : Lexer} {before : List Token} (h : l0.Consumes before l) {fuel : Nat}
    (hts : l.tokens fuel = (ts, none)) : ∃ l', l0.Consumes (before ++ ts) l' := by
  induction fuel generalizing l before ts with
  | zero =>
    cases hts
    exact ⟨l, by simpa using h⟩
  | succ fuel ih =>
    rw [Lexer.tokens] at hts
    split at hts
    · cases hts
    next t l' hconsume =>
      split at hts
      · cases hts
        exact ⟨l', h.more hconsume⟩
      · generalize hrest : l'.tokens fuel = rest at hts
        obtain ⟨_, e⟩ := rest
        cases hts
        obtain ⟨l'', h'⟩ := ih (h.more hconsume) hrest
        exact ⟨l'', by simpa using h'⟩

theorem eof_notMem_opening (h : IsOpening ks) : .eof ∉ ks := by
  obtain rfl | ⟨n, rfl⟩ := h
  · decide
  · exact fun hmem => absurd (eq_of_mem_replicate hmem) (by decide)

theorem eof_notMem_lines (h : AreLines ks) : .eof ∉ ks := by
  obtain ⟨_, hlines, rfl⟩ := h
  intro hmem
  obtain ⟨line, hline, hmem⟩ := mem_flatten.mp hmem
  obtain ⟨_, _, hopen, hbody, rfl⟩ := hlines line hline
  simp only [mem_append, mem_singleton] at hmem
  obtain (hmem | hmem) | hmem := hmem
  · exact eof_notMem_opening hopen hmem
  · exact (hbody.2 _ hmem).1 rfl
  · cases hmem

/-- The end of the file is given when all lines have been given. -/
theorem isSource_of_laid {s : Scanner} (h : s.Laid (ks ++ [.eof])) (hfirst : .eof ∉ ks) :
    IsSource (ks ++ [.eof]) ∧ s.layout.level = 0 := by
  have hmem : TokenKind.eof ∈ ks ++ [.eof] := by simp
  generalize hall : ks ++ [.eof] = all at h hmem ⊢
  cases h with
  | between lines => exact absurd hmem (eof_notMem_lines lines)
  | margin lines opens =>
    exact absurd hmem (not_mem_append (eof_notMem_lines lines) (eof_notMem_opening opens))
  | inside lines opens ordinary =>
    have hbody := fun hmem => (ordinary.2 _ hmem).1 rfl
    exact absurd hmem (not_mem_append
      (not_mem_append (eof_notMem_lines lines) (eof_notMem_opening opens)) hbody)
  | spent n lines =>
    exact absurd hmem (not_mem_append (eof_notMem_lines lines) (eof_notMem_opening (.inr ⟨n, rfl⟩)))
  | ended n source _ _ outermost =>
    cases n with
    | zero => exact ⟨by simpa using source, outermost⟩
    | succ n =>
      -- the end of the file would have been given before
      obtain ⟨lines, m, -, rfl⟩ := source
      rw [replicate_succ', ← append_assoc] at hall
      have hks := append_inj_left' hall rfl
      rw [hks] at hfirst
      simp at hfirst

/-- Whatever has been consumed of a source, the open levels rise from zero and no more of them were
closed than opened. The end of the file comes after whole lines, and then all levels are closed. -/
theorem consumed_in_lines (source : String) {ts : List Token} {l : Lexer}
    (h : (ofString source).Consumes ts l) :
    Rising l.scanner.layout.levels ∧ (∀ us, us <+: ts →
        (us.map Token.kind).count .dedent ≤ (us.map Token.kind).count .indent) ∧
      ∀ us t, ts = us ++ [t] → t.kind = .eof → (∀ u ∈ us, u.kind ≠ .eof) →
        IsSource (ts.map Token.kind) ∧
          (ts.map Token.kind).count .dedent = (ts.map Token.kind).count .indent ∧
          l.scanner.layout.levels = [0] := by
  obtain ⟨-, hlaid, hlevelled⟩ := h.laid
  refine ⟨hlevelled.rising, fun us hus => ?_, fun us t hts ht hus => ?_⟩
  · obtain ⟨l', h'⟩ := h.of_isPrefix hus
    exact h'.laid.2.2.le
  · rw [hts, map_append, map_singleton, ht] at hlaid hlevelled ⊢
    obtain ⟨hsource, hlevel⟩ := isSource_of_laid hlaid fun hmem => by
      obtain ⟨u, hu, hkind⟩ := mem_map.mp hmem
      exact hus u hu hkind
    have hlevels := hlevelled.rising.eq_singleton hlevel
    refine ⟨hsource, ?_, hlevels⟩
    have hcount := hlevelled.count
    rw [hlevels, length_singleton] at hcount
    omega

def nestedSource : String :=
  "if a:\n\tif b:\n\t\tc\n  # d\n\r\n\te\nf"

theorem consumed_in_lines_nested :
    ∃ ts l, (ofString nestedSource).Consumes ts l ∧ IsSource (ts.map Token.kind) ∧
      (ts.map Token.kind).count .indent = 2 ∧ l.scanner.layout.levels = [0] := by
  have htokens : (tokenize nestedSource).2 = none ∧ (tokenize nestedSource).1.map Token.kind =
        [.kwIf, .identifier, .colon, .newline, .indent, .kwIf, .identifier, .colon, .newline,
          .indent, .identifier, .newline, .dedent, .identifier, .newline, .dedent, .identifier,
          .newline] ++ [.eof] := by
    decide +kernel
  obtain ⟨hnone, hkinds⟩ := htokens
  generalize htokenize : tokenize nestedSource = result at hnone hkinds
  obtain ⟨ts, e⟩ := result
  obtain rfl : e = none := hnone
  have hkinds : ts.map Token.kind = _ := hkinds
  obtain ⟨l, h⟩ := (Consumes.nothing (l := ofString nestedSource)).tokens htokenize
  rw [nil_append] at h
  obtain ⟨us, vs, hts, hus, hvs⟩ := map_eq_append_iff.mp hkinds
  obtain ⟨t, rfl⟩ := length_eq_one_iff.mp (by simpa using congrArg List.length hvs : vs.length = 1)
  obtain ⟨-, -, hend⟩ := consumed_in_lines _ h
  obtain ⟨hsource, -, hlevels⟩ := hend us t hts (by simpa using hvs) fun u hu hkind => by
    have hmem := mem_map_of_mem (f := Token.kind) hu
    rw [hus, hkind] at hmem
    exact absurd hmem (by decide)
  refine ⟨ts, l, h, hsource, ?_, hlevels⟩
  rw [hkinds]
  decide

end Lexer

end Practicum.Choco
