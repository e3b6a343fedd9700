import Practicum.Proofs.Choco.Scanning

/-!
# Reading lines back

The scanner gives back the tokens of the lines of a program. Between the lines stand the tokens of
the layout: a line that is indented deeper than the line above it begins a block, and a line that
goes back to an outer margin ends the blocks that are deeper.
-/

namespace Practicum.Choco

open Text List Scanner

/-- The tokens that a scanner gives one after the other, if it has looked at its next character. -/
inductive Scanner.Scans : Scanner → List Lexeme → Prop where
  | nil {s : Scanner} : Scans s []
  | cons {s s' : Scanner} {t : Token} {xs : List Lexeme} (hscan : s.scan = .ok (t, s'))
    (hrest : Scans s'.start.look xs) : Scans s (t.lexeme :: xs)

variable {levels : List Nat} {xs : List Lexeme} {r : List Char}

/-- Every scanner with these characters left and this layout gives these tokens. -/
def Streams (rest : List Char) (layout : Layout) (xs : List Lexeme) : Prop :=
  ∀ s : Scanner, s.At rest layout → s.Scans xs

theorem Streams.cons {r' : List Char} {l l' : Layout} {x : Lexeme}
    (hscan : ∀ s : Scanner, s.At r l → Gives s.scan x r' l') (hrest : Streams r' l' xs) :
    Streams r l (x :: xs) := by
  intro s hs
  obtain ⟨t, _, hs', rfl, hat⟩ := hscan s hs
  exact .cons hs' (hrest _ hat.start.look)

/-- The layout before the first token of a line, of which some blanks have been taken. -/
def beforeLine (logical : Bool) (indent : Nat) (levels : List Nat) : Layout :=
  { newLine := true, logical, indent, levels }

def insideLine (indent : Nat) (levels : List Nat) : Layout :=
  { newLine := false, logical := true, indent, levels }

/-! ## One step of the scanner -/

variable {m : Nat} {ls : List Nat}

namespace Scanner

variable {s : Scanner} {c d : Char} {l : Layout}

theorem scan_cons (h : s.At (c :: r) l) : s.scan = if isBlank c then
        if (c = '\n' || c = '\r') && l.logical then
          .ok (s.nextLine.take.newlineToken s.tip.column, s.nextLine.take)
        else (s.passBlank c).take.start.look.scan else if c = '#' then s.passComment.scan
      else if l.newLine then s.lineStart c else s.lexeme c := by
  rw [scan, ← h.2]
  split
  next hrest => simp [h.1] at hrest
  next c' cs hrest =>
    obtain ⟨rfl, -⟩ : c = c' ∧ r = cs := by simpa [h.1] using hrest
    rfl

theorem scan_of_begins (hc : Begins c) (h : s.At (c :: r) l) :
    s.scan = if l.newLine then s.lineStart c else s.lexeme c := by
  have hblank : ¬isBlank c = true := by simp [isBlank_eq_false hc.1.1 hc.1.2]
  rw [scan_cons h, if_neg hblank, if_neg hc.2]

theorem scan_blank (h : s.At (' ' :: r) l) : s.scan = (s.passBlank ' ').take.start.look.scan :=
  scan_cons h

theorem scan_newline (h : s.At ('\n' :: r) l) (hl : l.logical = true) :
    Gives s.scan .newline r (beforeLine false 0 l.levels) := by
  rw [scan_cons h, if_pos (by decide), if_pos (by simp [hl])]
  refine ⟨_, _, rfl, rfl, ?_⟩
  have hnext : s.nextLine.At ('\n' :: r) (beforeLine false 0 l.levels) :=
    ⟨h.1, by simp [nextLine, beforeLine, h.2]⟩
  exact hnext.take

theorem scan_margin {m i : Nat} (h : s.At (List.replicate m ' ' ++ r) (beforeLine false i levels)) :
    ∃ s' : Scanner, s.scan = s'.scan ∧ s'.At r (beforeLine false (i + m) levels) := by
  induction m generalizing s i with
  | zero => exact ⟨s, rfl, h⟩
  | succ m ih =>
    have hpass : (s.passBlank ' ').At (' ' :: (List.replicate m ' ' ++ r))
        (beforeLine false (i + 1) levels) := by
      refine ⟨(rest_passBlank s ' ').trans h.1, ?_⟩
      simp [passBlank, h.2, beforeLine]
    obtain ⟨s', hscan, hat⟩ := ih hpass.take.start.look
    refine ⟨s', (scan_blank h).trans hscan, ?_⟩
    rwa [Nat.add_right_comm] at hat

variable {x : Lexeme} {b : Bool}

theorem scan_inside (hx : x.Writable) (hd : d = ' ' ∨ d = '\n')
    (h : s.At (' ' :: (x.spelling ++ d :: r)) (insideLine m ls)) :
    Gives s.scan x (d :: r) (insideLine m ls) := by
  obtain ⟨c, _, hspelling, hc, hgives⟩ := hx.exists_cons hd
  rw [hspelling] at h
  have hat := (h.passBlank rfl).take.start.look
  rw [scan_blank h, scan_of_begins hc hat]
  exact hgives _ _ _ hat

theorem scan_same (hx : x.Writable) (hd : d = ' ' ∨ d = '\n')
    (h : s.At (x.spelling ++ d :: r) (beforeLine b m (m :: ls))) :
    Gives s.scan x (d :: r) (insideLine m (m :: ls)) := by
  obtain ⟨c, _, hspelling, hc, hgives⟩ := hx.exists_cons hd
  rw [hspelling] at h
  rw [scan_of_begins hc h]
  simp only [lineStart, h.2, beforeLine, Layout.level, headD_cons, Nat.lt_irrefl, if_false]
  refine hgives _ _ _ ⟨h.1, ?_⟩
  simp [insideLine]

theorem scan_deeper
    {k : Nat} (hc : Begins c) (hk : m < k) (h : s.At (c :: r) (beforeLine b k (m :: ls))) :
    Gives s.scan .indent (c :: r) (beforeLine true k (k :: m :: ls)) := by
  rw [scan_of_begins hc h]
  simp only [lineStart, h.2, beforeLine, Layout.level, headD_cons, if_pos hk]
  exact ⟨_, _, rfl, rfl, h.1, rfl⟩

theorem scan_outer {k : Nat} (hc : Begins c) (hk : k < m) (hmem : k ∈ ls)
    (h : s.At (c :: r) (beforeLine b k (m :: ls))) :
    Gives s.scan .dedent (c :: r) (beforeLine true k ls) := by
  have hmem' : k ∈ m :: ls := mem_cons_of_mem m hmem
  rw [scan_of_begins hc h]
  simp only [lineStart, h.2, beforeLine, Layout.level, headD_cons, if_neg (Nat.lt_asymm hk),
    if_pos hk, if_pos hmem']
  exact ⟨_, _, rfl, rfl, h.1, rfl⟩

theorem scan_end (h : s.At [] l) : s.scan = .ok s.atEnd := by
  rw [scan]
  split
  · rfl
  next hrest =>
    rw [h.1] at hrest
    cases hrest

theorem scan_end_dedent (hm : 0 < m) (h : s.At [] (beforeLine false 0 (m :: ls))) :
    Gives s.scan .dedent [] (beforeLine false 0 ls) := by
  rw [scan_end h]
  simp only [atEnd, h.2, beforeLine, Layout.level, headD_cons, if_pos hm, Bool.false_eq_true,
    if_false]
  exact ⟨_, _, rfl, rfl, h.1, rfl⟩

theorem scan_end_eof (h : s.At [] (beforeLine false 0 [0])) :
    Gives s.scan .eof [] (beforeLine false 0 [0]) := by
  rw [scan_end h]
  simp only [atEnd, h.2, beforeLine, Layout.level, headD_cons, Nat.lt_irrefl, Bool.false_eq_true,
    if_false]
  exact ⟨_, _, rfl, rfl, h⟩

end Scanner

/-! ## Lines -/

def Line.Readable (l : Line) : Prop :=
  l.tokens ≠ [] ∧ ∀ x ∈ l.tokens, x.Writable

/-- The tokens that are read from a number of lines on, of which the first may have lost its
margin. -/
def Resumes (more : List Line) (levels : List Nat) (xs : List Lexeme) : Prop :=
  match more with
  | [] => Streams [] (beforeLine false 0 levels) xs
  | l :: ls =>
    ∀ b, Streams (spaced l.tokens ++ ls.flatMap Line.text) (beforeLine b l.margin levels) xs

theorem Resumes.streams {more : List Line} (h : Resumes more levels xs) :
    Streams (more.flatMap Line.text) (beforeLine false 0 levels) xs := by
  cases more with
  | nil => exact h
  | cons l _ =>
    intro s hs
    rw [flatMap_cons, Line.text, append_assoc] at hs
    obtain ⟨s', hscan, hat⟩ := scan_margin hs
    rw [Nat.zero_add] at hat
    cases h false s' hat with
    | nil => exact .nil
    | cons hfirst hrest => exact .cons (hscan.trans hfirst) hrest

variable {ts : List Lexeme}

section
variable {more : List Line} {l : Line}

theorem streams_newline (h : Streams r (beforeLine false 0 ls) ts) :
    Streams ('\n' :: r) (insideLine m ls) (.newline :: ts) :=
  .cons (fun _ hs => scan_newline hs rfl) h

theorem streams_spaced (hne : xs ≠ []) (hxs : ∀ x ∈ xs, x.Writable)
    (h : Streams r (beforeLine false 0 ls) ts) :
    Streams (' ' :: (spaced xs ++ r)) (insideLine m ls) (xs ++ .newline :: ts) := by
  fun_induction spaced xs with
  | case1 => exact absurd rfl hne
  | case2 x =>
    rw [append_assoc]
    exact .cons (fun _ hs => scan_inside (hxs x (by simp)) (.inr rfl) hs) (streams_newline h)
  | case3 x xs hcons ih =>
    have hrest := ih (fun hnil => hcons hnil) fun y hy => hxs y (by simp [hy])
    rw [append_assoc]
    exact .cons (fun _ hs => scan_inside (hxs x (by simp)) (.inl rfl) hs) hrest

theorem Resumes.line (hl : l.Readable) (hm : l.margin = m) (h : Resumes more (m :: ls) ts) :
    Resumes (l :: more) (m :: ls) (l.tokens ++ .newline :: ts) := by
  obtain ⟨hne, hxs⟩ := hl
  intro b
  subst hm
  generalize l.tokens = xs at hne hxs
  match xs, hne with
  | [x], _ =>
    rw [spaced, append_assoc]
    exact .cons (fun _ hs => scan_same (hxs x (by simp)) (.inr rfl) hs) (streams_newline h.streams)
  | x :: y :: xs, _ =>
    have hne : y :: xs ≠ [] := by simp
    have hrest := streams_spaced (m := l.margin) hne
      (fun z hz => hxs z (mem_cons_of_mem x hz)) h.streams
    rw [spaced, append_assoc]
    exact .cons (fun _ hs => scan_same (hxs x (by simp)) (.inl rfl) hs) hrest
    simp

theorem Line.Readable.exists_begins (hl : l.Readable) :
    ∃ c cs, spaced l.tokens = c :: cs ∧ Begins c := by
  obtain ⟨hne, hxs⟩ := hl
  obtain ⟨x, xs, heq⟩ := exists_cons_of_ne_nil hne
  have hspaced : ∃ cs, spaced (x :: xs) = x.spelling ++ cs := by
    cases xs <;> exact ⟨_, rfl⟩
  obtain ⟨cs', hspaced⟩ := hspaced
  obtain ⟨c, cs, hspelling, hc, -⟩ := (hxs x (by simp [heq])).exists_cons (.inr rfl)
  exact ⟨c, cs ++ cs', by rw [heq, hspaced, hspelling]; rfl, hc⟩

theorem Resumes.indent
    (hl : l.Readable) (hk : m < l.margin) (h : Resumes (l :: more) (l.margin :: m :: ls) ts) :
    Resumes (l :: more) (m :: ls) (.indent :: ts) := by
  obtain ⟨c, _, hspaced, hc⟩ := hl.exists_begins
  intro b
  have h := h true
  rw [hspaced] at h ⊢
  exact .cons (fun _ hs => scan_deeper hc hk hs) h

theorem Resumes.dedent (hmore : ∀ l ∈ more.head?, l.Readable ∧ l.margin ∈ ls ∧ l.margin < m)
    (hm : 0 < m) (h : Resumes more ls ts) : Resumes more (m :: ls) (.dedent :: ts) := by
  cases more with
  | nil => exact .cons (fun _ hs => scan_end_dedent hm hs) h
  | cons l more =>
    obtain ⟨hl, hmem, hlt⟩ := hmore l rfl
    obtain ⟨c, _, hspaced, hc⟩ := hl.exists_begins
    intro b
    have h := h true
    rw [hspaced] at h ⊢
    exact .cons (fun _ hs => scan_outer hc hlt hmem hs) h

end

/-! ## Parts of programs -/

def indented (tokens : List Lexeme) : List Lexeme :=
  .newline :: .indent :: (tokens ++ [.dedent])

/-- The tokens that a part is read as, with those of the layout. -/
inductive Spells : Part → List Lexeme → Prop where
  | line {s : Node} (h : s.hasBlocks = false) : Spells (.stmt s) (s.lineTokens ++ [.newline])
  | ifStmt {c : Node} {body rest : List Node} {ts ts' : List Lexeme} (hne : body ≠ [])
    (hbody : Spells (.block body) ts) (hrest : Spells (.otherwise rest) ts') :
    Spells (.stmt (.ifStmt [c] body rest))
      (.word "if" :: (c.tokens ++ .colon :: (indented ts ++ ts')))
  | whileStmt {c : Node} {body : List Node} {ts : List Lexeme} (hne : body ≠ [])
    (hbody : Spells (.block body) ts) :
    Spells (.stmt (.whileStmt [c] body)) (.word "while" :: (c.tokens ++ .colon :: indented ts))
  | forStmt {x : String} {e : Node} {body : List Node} {ts : List Lexeme} (hne : body ≠ [])
    (hbody : Spells (.block body) ts) :
    Spells (.stmt (.forStmt x [e] body))
      (.word "for" :: .word x :: .word "in" :: (e.tokens ++ .colon :: indented ts))
  | funcDef {f : String} {ps body : List Node} {t : Node} {ts : List Lexeme} (hne : body ≠ [])
    (hbody : Spells (.block body) ts) :
    Spells (.stmt (.funcDef f ps [t] body)) (functionTokens f ps t ++ indented ts)
  | nothing : Spells (.otherwise []) []
  | elseBlock {rest : List Node} {ts : List Lexeme} (hne : rest ≠ [])
    (hrest : Spells (.block rest) ts) :
    Spells (.otherwise rest) (.word "else" :: .colon :: indented ts)
  | elifBlock {c : Node} {body rest : List Node} {ts ts' : List Lexeme} (hne : body ≠ [])
    (hbody : Spells (.block body) ts) (hrest : Spells (.otherwise rest) ts') :
    Spells (.otherwise [.ifStmt [c] body rest])
      (.word "elif" :: (c.tokens ++ .colon :: (indented ts ++ ts')))
  | nil : Spells (.block []) []
  | cons {s : Node} {ss : List Node} {ts ts' : List Lexeme} (hs : Spells (.stmt s) ts)
    (hss : Spells (.block ss) ts') : Spells (.block (s :: ss)) (ts ++ ts')

/-- Lines that are read as these tokens, in whatever blocks they stand and whatever follows them at
an open margin. There are not many more tokens than characters. -/
structure Lexes (m : Nat) (lines : List Line) (ts : List Lexeme) : Prop where
  readable : ∀ l ∈ lines, l.Readable
  margin : ∀ l ∈ lines.head?, l.margin = m
  resumes : ∀ (ls : List Nat) (more : List Line) (xs : List Lexeme), (∀ k ∈ ls, k < m) →
    (∀ l ∈ more.head?, l.Readable ∧ l.margin ∈ m :: ls) → Resumes more (m :: ls) xs →
      Resumes (lines ++ more) (m :: ls) (ts ++ xs)
  length_le : ts.length ≤ 2 * (lines.map fun l => l.text.length).sum

theorem Line.Readable.length_text {l : Line} (hl : l.Readable) :
    2 * l.tokens.length ≤ l.text.length := by
  have hspaced : ∀ xs : List Lexeme, (∀ x ∈ xs, x.Writable) →
      2 * xs.length ≤ (spaced xs).length := by
    intro xs hxs
    fun_induction spaced xs with
    | case1 => simp
    | case2 x =>
      obtain ⟨c, cs, hspelling, -⟩ := (hxs x (by simp)).exists_cons (.inr rfl)
      simp [hspelling]
    | case3 x xs _ ih =>
      obtain ⟨c, cs, hspelling, -⟩ := (hxs x (by simp)).exists_cons (.inr rfl)
      have := ih fun y hy => hxs y (by simp [hy])
      simp only [hspelling, length_cons, length_append]
      omega
  have := hspaced l.tokens hl.2
  simp only [Line.text, length_append, length_replicate]
  omega

section
variable {k : Nat} {lines lines' : List Line} {ts' header : List Lexeme} {p : Part}

theorem Writes.ne_nil (h : Writes m p lines) (hp : p ≠ .block []) (hp' : p ≠ .otherwise []) :
    lines ≠ [] := by
  induction h with
  | nothing => exact absurd rfl hp'
  | nil => exact absurd rfl hp
  | cons _ _ ihs => simp [ihs (by simp) (by simp)]
  | _ => simp

theorem Lexes.nil : Lexes m [] [] where
  readable := nofun
  margin := nofun
  resumes _ _ _ _ _ h := h
  length_le := by simp

theorem Lexes.line (hheader : Line.Readable ⟨m, header⟩) :
    Lexes m [⟨m, header⟩] (header ++ [.newline]) where
  readable := forall_mem_singleton.mpr hheader
  margin := by simp
  resumes ls more xs _ _ hxs := by simpa using hxs.line hheader rfl
  length_le := by
    have hlen : 2 * header.length ≤ _ := hheader.length_text
    have hpos : 0 < header.length := length_pos_iff.2 hheader.1
    simp only [length_append, length_singleton, map_singleton, sum_singleton]
    omega

theorem Lexes.append (h : Lexes m lines ts) (h' : Lexes m lines' ts') :
    Lexes m (lines ++ lines') (ts ++ ts') where
  readable := forall_mem_append.mpr ⟨h.readable, h'.readable⟩
  margin := by
    cases lines with
    | nil => exact h'.margin
    | cons => exact h.margin
  resumes := by
    intro ls more xs hls hmore hxs
    rw [append_assoc, append_assoc]
    refine h.resumes ls (lines' ++ more) (ts' ++ xs) hls ?_ (h'.resumes ls more xs hls hmore hxs)
    cases lines' with
    | nil => exact hmore
    | cons l lines' =>
      intro l' hl'
      obtain rfl : l = l' := by simpa using hl'
      exact ⟨h'.readable l (by simp), by simp [h'.margin l rfl]⟩
  length_le := by
    have := h.length_le
    have := h'.length_le
    simp only [length_append, map_append, sum_append]
    omega

theorem Lexes.block (hk : m < k) (hheader : Line.Readable ⟨m, header⟩) (hne : lines ≠ [])
    (h : Lexes k lines ts) : Lexes m (⟨m, header⟩ :: lines) (header ++ indented ts) where
  readable := forall_mem_cons.mpr ⟨hheader, h.readable⟩
  margin := by simp
  resumes := by
    intro ls more xs hls hmore hxs
    have hdedent : Resumes more (k :: m :: ls) (.dedent :: xs) := by
      refine hxs.dedent (fun l hl => ?_) (Nat.zero_lt_of_lt hk)
      obtain ⟨hl, hmem⟩ := hmore l hl
      refine ⟨hl, hmem, ?_⟩
      rcases mem_cons.1 hmem with heq | hmem
      · exact heq ▸ hk
      · exact Nat.lt_trans (hls _ hmem) hk
    have hbody : Resumes (lines ++ more) (k :: m :: ls) (ts ++ .dedent :: xs) := by
      refine h.resumes (m :: ls) more (.dedent :: xs) (fun j hj => ?_) (fun l hl => ?_) hdedent
      · rcases mem_cons.1 hj with rfl | hj
        · exact hk
        · exact Nat.lt_trans (hls _ hj) hk
      · obtain ⟨hl, hmem⟩ := hmore l hl
        exact ⟨hl, mem_cons_of_mem k hmem⟩
    obtain ⟨l, lines, rfl⟩ := exists_cons_of_ne_nil hne
    obtain rfl : l.margin = k := h.margin l rfl
    have hline := Resumes.line hheader rfl (hbody.indent (h.readable l (by simp)) hk)
    simpa [indented] using hline
  length_le := by
    have hlen : 2 * header.length ≤ _ := hheader.length_text
    have hpos : 0 < header.length := length_pos_iff.2 hheader.1
    have := h.length_le
    simp only [indented, length_append, length_cons, length_nil, map_cons, sum_cons]
    omega

theorem Writes.under {body : List Node} (hbody : Writes k (.block body) lines) (hne : body ≠ [])
    (hk : m < k) (hheader : Line.Readable ⟨m, header⟩) (h : Lexes k lines ts) :
    Lexes m (⟨m, header⟩ :: lines) (header ++ indented ts) :=
  h.block hk hheader (hbody.ne_nil (by simpa using hne) (by simp))

theorem Writes.lexes (h : Writes m p lines) (hread : ∀ l ∈ lines, l.Readable) :
    ∃ ts, Spells p ts ∧ Lexes m lines ts := by
  induction h with
  | line hs => exact ⟨_, .line hs, .line (hread _ (by simp))⟩
  | ifStmt hk hne hbody _ ihbody ihrest =>
    rw [forall_mem_cons, forall_mem_append] at hread
    obtain ⟨ts, hts, hlex⟩ := ihbody hread.2.1
    obtain ⟨ts', hts', hlex'⟩ := ihrest hread.2.2
    refine ⟨_, .ifStmt hne hts hts', ?_⟩
    simpa using (hbody.under hne hk hread.1 hlex).append hlex'
  | whileStmt hk hne hbody ihbody =>
    rw [forall_mem_cons] at hread
    obtain ⟨ts, hts, hlex⟩ := ihbody hread.2
    exact ⟨_, .whileStmt hne hts, by simpa using hbody.under hne hk hread.1 hlex⟩
  | forStmt hk hne hbody ihbody =>
    rw [forall_mem_cons] at hread
    obtain ⟨ts, hts, hlex⟩ := ihbody hread.2
    exact ⟨_, .forStmt hne hts, by simpa using hbody.under hne hk hread.1 hlex⟩
  | funcDef hk hne hbody ihbody =>
    rw [forall_mem_cons] at hread
    obtain ⟨ts, hts, hlex⟩ := ihbody hread.2
    exact ⟨_, .funcDef hne hts, hbody.under hne hk hread.1 hlex⟩
  | nothing => exact ⟨_, .nothing, .nil⟩
  | elseBlock hk hne hrest ihrest =>
    rw [forall_mem_cons] at hread
    obtain ⟨ts, hts, hlex⟩ := ihrest hread.2
    exact ⟨_, .elseBlock hne hts, hrest.under hne hk hread.1 hlex⟩
  | elifBlock hk hne hbody _ ihbody ihrest =>
    rw [forall_mem_cons, forall_mem_append] at hread
    obtain ⟨ts, hts, hlex⟩ := ihbody hread.2.1
    obtain ⟨ts', hts', hlex'⟩ := ihrest hread.2.2
    refine ⟨_, .elifBlock hne hts hts', ?_⟩
    simpa using (hbody.under hne hk hread.1 hlex).append hlex'
  | nil => exact ⟨_, .nil, .nil⟩
  | cons _ _ ihs ihss =>
    rw [forall_mem_append] at hread
    obtain ⟨ts, hts, hlex⟩ := ihs hread.1
    obtain ⟨ts', hts', hlex'⟩ := ihss hread.2
    exact ⟨_, .cons hts hts', hlex.append hlex'⟩

end

end Practicum.Choco
