import Practicum.Choco.Token.Lexer
import Practicum.Proofs.Choco.Writing

/-!
# Reading tokens back

The scanner gives back the tokens that a line was written with. What it reads depends on the
characters that are left and on the layout only, so the places that it keeps are left out of the
statements.
-/

namespace Practicum.Choco

open Text List Scanner Nat

variable {s : Scanner} {c : Char} {r : List Char} {l : Layout}

namespace Scanner

def At (s : Scanner) (rest : List Char) (layout : Layout) : Prop :=
  s.rest = rest ∧ s.layout = layout

theorem At.look (h : s.At r l) : s.look.At r l := by
  refine ⟨(rest_look s).trans h.1, ?_⟩
  rw [← h.2]
  unfold Scanner.look
  split
  · rfl
  · split <;> rfl

theorem At.take (h : s.At (c :: r) l) : s.take.At r l := by
  refine ⟨by rw [rest_take, h.1]; rfl, ?_⟩
  rw [← h.2]
  unfold Scanner.take
  split <;> rfl

theorem At.start (h : s.At r l) : s.start.At r l := h

theorem At.passBlank (h : s.At r l) (hl : l.newLine = false) : (s.passBlank ' ').At r l := by
  obtain ⟨hr, rfl⟩ := h
  simp [passBlank, hl, At, hr]

theorem At.takeWhile {p : Char → Bool} {w : List Char} (hw : ∀ c ∈ w, p c = true)
    (hr : ∀ c, r.head? = some c → p c = false) (h : s.At (w ++ r) l) :
    (s.takeWhile p).1 = w ∧ (s.takeWhile p).2.At r l := by
  induction w generalizing s with
  | nil =>
    rw [takeWhile]
    split
    · exact ⟨rfl, h.look⟩
    next c cs hrest =>
      have hc : p c = false := hr c (by rw [← nil_append r, ← h.1, hrest]; rfl)
      rw [if_neg (by simp [hc])]
      exact ⟨rfl, h.look⟩
  | cons c w ih =>
    have hc : p c = true := hw c (by simp)
    obtain ⟨hfst, hsnd⟩ := ih (fun d hd => hw d (by simp [hd])) h.look.take
    rw [takeWhile]
    split
    next hrest => simp [h.1] at hrest
    next d cs hrest =>
      obtain ⟨rfl, -⟩ : c = d ∧ w ++ r = cs := by simpa [h.1] using hrest
      rw [if_pos hc]
      exact ⟨congrArg (c :: ·) hfst, hsnd⟩

end Scanner

/-- A result of the scanner: this token, with these characters left and this layout. -/
def Gives (result : Except LexError (Token × Scanner)) (x : Lexeme) (rest : List Char)
    (layout : Layout) : Prop :=
  ∃ t s, result = .ok (t, s) ∧ t.lexeme = x ∧ s.At rest layout

/-! ## Classes of characters -/

theorem isBlank_eq_false (h : 33 ≤ c.toNat) (h' : c.toNat ≤ 126) : isBlank c = false := by
  simp only [isBlank, inRanges, blankRanges]
  simp
  omega

theorem toNat_of_isAlpha (h : c.isAlpha = true) :
    65 ≤ c.toNat ∧ c.toNat ≤ 90 ∨ 97 ≤ c.toNat ∧ c.toNat ≤ 122 := by
  have h : (decide (c.val ≥ 65 ∧ c.val ≤ 90) || (c.val ≥ 97 && c.val ≤ 122)) = true := h
  simp only [Bool.or_eq_true, Bool.and_eq_true, decide_eq_true_eq, ge_iff_le,
    UInt32.le_iff_toNat_le] at h
  exact h

theorem toNat_of_isDigit (h : c.isDigit = true) : 48 ≤ c.toNat ∧ c.toNat ≤ 57 := by
  simp only [Char.isDigit, Bool.and_eq_true, decide_eq_true_eq, ge_iff_le,
    UInt32.le_iff_toNat_le] at h
  exact h

def Begins (c : Char) : Prop :=
  (33 ≤ c.toNat ∧ c.toNat ≤ 126) ∧ c ≠ '#'

/-! ## Signs -/

namespace Scanner

variable {d second : Char} {cs : List Char} {n : Nat} {kind : TokenKind}

theorem symbol_first {first both : TokenKind × String} (h : s.At (c :: d :: r) l)
    (hd : d ≠ second) :
    Gives (.ok (s.symbol first second both)) ⟨first.1, .word first.2⟩ (d :: r) l := by
  have hne : ¬s.take.look.rest.head? = some second := by
    rw [h.take.look.1]
    simpa using hd
  rw [symbol, if_neg hne]
  exact ⟨_, _, rfl, rfl, h.take.look⟩

theorem symbol_both {first both : TokenKind × String} (h : s.At (c :: second :: r) l) :
    Gives (.ok (s.symbol first second both)) ⟨both.1, .word both.2⟩ r l := by
  have heq : s.take.look.rest.head? = some second := by
    rw [h.take.look.1]
    rfl
  rw [symbol, if_pos heq]
  exact ⟨_, _, rfl, rfl, h.take.look.take⟩

theorem doubled_gives {first : Char} (h : s.At (c :: second :: r) l) :
    Gives (s.doubled first second kind) ⟨kind, .word (String.ofList [first, second])⟩ r l := by
  have heq : s.take.look.rest.head? = some second := by
    rw [h.take.look.1]
    rfl
  rw [doubled, if_pos heq]
  exact ⟨_, _, rfl, rfl, h.take.look.take⟩

/-- Some characters are read as a token, up to the character that follows them. -/
abbrev ReadsAs (cs : List Char) (d : Char) (x : Lexeme) : Prop :=
  ∃ c rest, cs = c :: rest ∧ Begins c ∧ ∀ (s : Scanner) (r : List Char) (l : Layout),
    s.At (c :: (rest ++ d :: r)) l → Gives (s.lexeme c) x (d :: r) l

theorem lexeme_sign {spelling : String} (hmem : (spelling, kind) ∈ signs)
    (hd : d = ' ' ∨ d = '\n') : ReadsAs spelling.toList d ⟨kind, .word spelling⟩ := by
  have hgt : d ≠ '>' := by rcases hd with rfl | rfl <;> decide
  have heq : d ≠ '=' := by rcases hd with rfl | rfl <;> decide
  simp only [signs, mem_cons, Prod.mk.injEq, not_mem_nil, or_false] at hmem
  rcases hmem with ⟨rfl, rfl⟩ | ⟨rfl, rfl⟩ | ⟨rfl, rfl⟩ | ⟨rfl, rfl⟩ | ⟨rfl, rfl⟩ | ⟨rfl, rfl⟩ |
    ⟨rfl, rfl⟩ | ⟨rfl, rfl⟩ | ⟨rfl, rfl⟩ | ⟨rfl, rfl⟩ | ⟨rfl, rfl⟩ | ⟨rfl, rfl⟩ | ⟨rfl, rfl⟩ |
    ⟨rfl, rfl⟩ | ⟨rfl, rfl⟩ | ⟨rfl, rfl⟩ | ⟨rfl, rfl⟩ | ⟨rfl, rfl⟩ | ⟨rfl, rfl⟩
  all_goals refine ⟨_, _, rfl, ⟨by decide, by decide⟩, fun s r l h => ?_⟩
  case inr.inl => exact symbol_first h hgt
  all_goals first
    | exact ⟨_, _, rfl, rfl, h.take⟩
    | exact symbol_both h
    | exact doubled_gives h
    | exact symbol_first h heq

/-! ## Words -/

theorem lexeme_of_letter (hc : c.isAlpha = true ∨ c = '_') : s.lexeme c =
      let (cs, t) := s.take.takeWhile fun d => isAlphanumeric d || d == '_'
      .ok (s.word t (wordKind (String.ofList (c :: cs))) (String.ofList (c :: cs))) := by
  have hletter : (isLetter c || decide (c = '_')) = true := by
    rcases hc with hc | rfl
    · simp [isLetter, hc]
    · simp
  unfold lexeme
  split
  case h_17 => rw [if_pos hletter]
  all_goals exact absurd hc (by decide)

theorem lexeme_word {w : String} (hw : IsWord w) (hd : d = ' ' ∨ d = '\n') :
    ReadsAs w.toList d (.word w) := by
  obtain ⟨c, cs, hlist, hc, hcs⟩ := hw
  refine ⟨c, cs, hlist, ⟨?_, ?_⟩, fun s r l h => ?_⟩
  · rcases hc with hc | rfl
    · have := toNat_of_isAlpha hc
      omega
    · decide
  · rintro rfl
    exact absurd hc (by decide)
  · have hword : ∀ e ∈ cs, (isAlphanumeric e || e == '_') = true := by
      intro e he
      rcases hcs e he with h | rfl
      · rcases Bool.or_eq_true _ _ ▸ h with h | h
        · simp [isAlphanumeric, isLetter, h]
        · simp [isAlphanumeric, isNumeral, h]
      · simp
    have hstop : ∀ e, (d :: r).head? = some e → (isAlphanumeric e || e == '_') = false := by
      rintro e he
      obtain rfl : d = e := by simpa using he
      rcases hd with rfl | rfl <;> decide
    obtain ⟨hfst, hsnd⟩ := h.take.takeWhile hword hstop
    rw [lexeme_of_letter hc]
    refine ⟨_, _, rfl, ?_, hsnd⟩
    have hname : String.ofList (c :: cs) = w := by rw [← hlist, String.ofList_toList]
    simp only [token, Token.lexeme, hfst, hname, Lexeme.word]

/-! ## Numbers -/

theorem digitValue?_of_isDigit (hc : c.isDigit = true) :
    digitValue? c = some (c.toNat - '0'.toNat) := by
  have hrange := toNat_of_isDigit hc
  have hfind : (decimalZeros.find? fun zero => zero ≤ c.toNat && c.toNat < zero + 10) = some 48 := by
    simp [decimalZeros, hrange.1, lt_succ_of_le hrange.2]
  rw [digitValue?, hfind]
  rfl

theorem mapM_digitValue? (hcs : ∀ c ∈ cs, c.isDigit = true) :
    cs.mapM digitValue? = some (cs.map fun c => c.toNat - '0'.toNat) := by
  induction cs with
  | nil => rfl
  | cons c cs ih =>
    rw [mapM_cons, digitValue?_of_isDigit (hcs c (by simp)), ih fun d hd => hcs d (by simp [hd])]
    rfl

theorem readDecimal?_toDigits (hn : n < 10 ^ maxDecimalDigits) :
    readDecimal? (toDigits 10 n) = some n := by
  have hdigits : ∀ c ∈ toDigits 10 n, c.isDigit = true := fun c hc =>
    isDigit_of_mem_toDigits (by decide) (by decide) hc
  have hlen : (toDigits 10 n).length ≤ maxDecimalDigits :=
    (length_toDigits_le_iff (by decide) (by decide)).2 hn
  rw [readDecimal?, if_neg (by simp; omega), mapM_digitValue? hdigits, Option.map_some, foldl_map, ←
    ofDigitChars_eq_foldl, ofDigitChars_ten_toDigits]

theorem readDecimal?_toDigits_of_le (hn : 10 ^ maxDecimalDigits ≤ n) :
    readDecimal? (Nat.toDigits 10 n) = none := by
  have hlen : maxDecimalDigits < (Nat.toDigits 10 n).length := by
    rw [← Nat.not_le, Nat.length_toDigits_le_iff (by decide) (by decide)]
    omega
  rw [readDecimal?, if_pos (by simp [hlen])]

theorem lexeme_of_digit (hc : c.isDigit = true) : s.lexeme c =
      let (cs, t) := s.take.takeWhile isNumeral
      match readDecimal? (c :: cs) with
      | some n => .ok (s.token t .integer (.number n), t)
      | none => .error (.notANumber (String.ofList (c :: cs))) := by
  have hrange := toNat_of_isDigit hc
  have hletter : ¬(isLetter c || decide (c = '_')) = true := by
    have hne : c ≠ '_' := by rintro rfl; exact absurd hc (by decide)
    have halpha : c.isAlpha = false := by
      rw [Bool.eq_false_iff]
      intro h
      have := toNat_of_isAlpha h
      omega
    simp [isLetter, hne, halpha]
    omega
  have hdigit : isDigit c = true := by simp [isDigit, hc]
  unfold lexeme
  split
  case h_17 =>
    exact (if_neg hletter).trans (if_pos hdigit)
  all_goals exact absurd hc (by decide)

theorem lexeme_digits (n : Nat) (hd : d = ' ' ∨ d = '\n') :
    ∃ c cs, toDigits 10 n = c :: cs ∧ Begins c ∧
      ∀ (s : Scanner) (r : List Char) (l : Layout), s.At (c :: (cs ++ d :: r)) l →
        ∃ t : Scanner, t.At (d :: r) l ∧ s.lexeme c = match readDecimal? (toDigits 10 n) with
          | some n => .ok (s.token t .integer (.number n), t)
          | none => .error (.notANumber (String.ofList (toDigits 10 n))) := by
  have hdigits : ∀ c ∈ toDigits 10 n, c.isDigit = true := fun c hc =>
    isDigit_of_mem_toDigits (by decide) (by decide) hc
  obtain ⟨c, cs, hlist⟩ := exists_cons_of_ne_nil (toDigits_ne_nil (n := n) (b := 10))
  have hc : c.isDigit = true := hdigits c (by rw [hlist]; simp)
  refine ⟨c, cs, hlist, ⟨?_, ?_⟩, fun s r l h => ?_⟩
  · have := toNat_of_isDigit hc
    omega
  · rintro rfl
    exact absurd hc (by decide)
  · have hnumeral : ∀ e ∈ cs, isNumeral e = true := by
      intro e he
      simp [isNumeral, hdigits e (by rw [hlist]; simp [he])]
    have hstop : ∀ e, (d :: r).head? = some e → isNumeral e = false := by
      rintro e he
      obtain rfl : d = e := by simpa using he
      rcases hd with rfl | rfl <;> decide
    obtain ⟨hfst, hsnd⟩ := h.take.takeWhile hnumeral hstop
    refine ⟨_, hsnd, ?_⟩
    rw [lexeme_of_digit hc]
    simp only [hfst, ← hlist]

theorem lexeme_number (hn : n < 10 ^ maxDecimalDigits) (hd : d = ' ' ∨ d = '\n') :
    ReadsAs (toDigits 10 n) d ⟨.integer, .number n⟩ := by
  obtain ⟨c, cs, hlist, hc, hlexeme⟩ := lexeme_digits n hd
  refine ⟨c, cs, hlist, hc, fun s r l h => ?_⟩
  obtain ⟨t, ht, heq⟩ := hlexeme s r l h
  rw [heq, readDecimal?_toDigits hn]
  exact ⟨_, _, rfl, rfl, ht⟩

/-! ## Strings -/

theorem stringBody_quote (h : s.At ('"' :: r) l) : s.stringBody = .ok ([], s.look.take) := by
  rw [stringBody]
  split
  next hrest => simp [h.1] at hrest
  next c cs hrest =>
    obtain ⟨rfl, rfl⟩ : '"' = c ∧ r = cs := by simpa [h.1] using hrest
    rfl

theorem stringBody_plain (h : s.At (c :: r) l) (hquote : c ≠ '"') (hslash : c ≠ '\\')
    (hmin : 32 ≤ c.toNat) (hmax : c.toNat ≤ 126) :
    s.stringBody = do
      let (text, t) ← s.look.take.stringBody
      return (c :: text, t) := by
  rw [stringBody]
  split
  next hrest => simp [h.1] at hrest
  next e cs hrest =>
    obtain ⟨rfl, rfl⟩ : c = e ∧ r = cs := by simpa [h.1] using hrest
    have hprintable : ¬(c.toNat < 32 || 126 < c.toNat) = true := by
      simp
      omega
    rw [if_neg hquote, if_neg hprintable, if_pos hslash]

theorem stringBody_escape {e : Char} (h : s.At ('\\' :: e :: r) l)
    (hescape : (e, c) ∈ [('n', '\n'), ('t', '\t'), ('"', '"'), ('\\', '\\')]) :
    s.stringBody = do
      let (text, t) ← s.look.take.look.take.stringBody
      return (c :: text, t) := by
  rw [stringBody]
  split
  next hrest => simp [h.1] at hrest
  next e' cs hrest =>
    obtain ⟨rfl, rfl⟩ : '\\' = e' ∧ e :: r = cs := by simpa [h.1] using hrest
    simp only [mem_cons, Prod.mk.injEq, not_mem_nil, or_false] at hescape
    rcases hescape with ⟨rfl, rfl⟩ | ⟨rfl, rfl⟩ | ⟨rfl, rfl⟩ | ⟨rfl, rfl⟩ <;> rfl

theorem stringBody_escaped (hcs : ∀ c ∈ cs, 32 ≤ c.toNat ∧ c.toNat ≤ 126 ∨ c = '\n' ∨ c = '\t')
    (h : s.At (cs.flatMap escapeChar ++ '"' :: r) l) :
    ∃ t, s.stringBody = .ok (cs, t) ∧ t.At r l := by
  induction cs generalizing s with
  | nil => exact ⟨_, stringBody_quote h, h.look.take⟩
  | cons c cs ih =>
    have ih {s' : Scanner} := ih (s := s') fun d hd => hcs d (by simp [hd])
    have hc := hcs c (by simp)
    by_cases hspecial : c = '\\' ∨ c = '\t' ∨ c = '\n' ∨ c = '"'
    · obtain ⟨e, he, hescape⟩ : ∃ e, (e, c) ∈ [('n', '\n'), ('t', '\t'), ('"', '"'), ('\\', '\\')] ∧
            escapeChar c = ['\\', e] := by
        rcases hspecial with rfl | rfl | rfl | rfl <;> exact ⟨_, by decide, rfl⟩
      rw [flatMap_cons, hescape] at h
      obtain ⟨t, hbody, ht⟩ := ih h.look.take.look.take
      exact ⟨t, by rw [stringBody_escape h he, hbody]; rfl, ht⟩
    · simp only [not_or] at hspecial
      obtain ⟨hslash, htab, hline, hquote⟩ := hspecial
      have hrange : 32 ≤ c.toNat ∧ c.toNat ≤ 126 := by
        rcases hc with hc | hc | hc
        · exact hc
        · exact absurd hc hline
        · exact absurd hc htab
      have hplain : escapeChar c = [c] := by
        have hreturn : c ≠ '\r' := by
          rintro rfl
          exact absurd hrange (by decide)
        simp [escapeChar]
      rw [flatMap_cons, hplain] at h
      obtain ⟨t, hbody, ht⟩ := ih h.look.take
      exact ⟨t, by rw [stringBody_plain h hquote hslash hrange.1 hrange.2, hbody]; rfl, ht⟩

theorem lexeme_string {text : String}
    (htext : ∀ c ∈ text.toList, 32 ≤ c.toNat ∧ c.toNat ≤ 126 ∨ c = '\n' ∨ c = '\t')
    (h : s.At ('"' :: ((escape text).toList ++ ['"'] ++ r)) l) :
    Gives (s.lexeme '"') ⟨.string, .text text⟩ r l := by
  have htake := h.take
  rw [escape, String.toList_ofList, append_assoc] at htake
  obtain ⟨t, hbody, ht⟩ := stringBody_escaped htext htake
  refine ⟨s.token t .string (.text (String.ofList text.toList)), t, ?_, ?_, ht⟩
  · simp only [lexeme, hbody]
    rfl
  · rw [String.ofList_toList]
    rfl

end Scanner

/-! ## Tokens that can be written -/

/-- The tokens that are read back as they were written. -/
inductive Lexeme.Writable : Lexeme → Prop where
  | sign {spelling : String} {kind : TokenKind} (h : (spelling, kind) ∈ signs) :
    Writable ⟨kind, .word spelling⟩
  | word {w : String} (h : IsWord w) : Writable (.word w)
  | number {n : Nat} (h : n < 10 ^ maxDecimalDigits) : Writable ⟨.integer, .number n⟩
  | text {s : String}
    (h : ∀ c ∈ s.toList, 32 ≤ c.toNat ∧ c.toNat ≤ 126 ∨ c = '\n' ∨ c = '\t') :
    Writable ⟨.string, .text s⟩

/-- A token is read up to the blank or the end of the line that follows it. -/
theorem Lexeme.Writable.exists_cons {x : Lexeme} (hx : x.Writable) {d : Char}
    (hd : d = ' ' ∨ d = '\n') : ReadsAs x.spelling d x := by
  cases hx with
  | sign h => exact lexeme_sign h hd
  | word h => exact lexeme_word h hd
  | number h => exact lexeme_number h hd
  | text h =>
    exact ⟨'"', _, rfl, ⟨by decide, by decide⟩, fun s r l hs => Scanner.lexeme_string h hs⟩

end Practicum.Choco
