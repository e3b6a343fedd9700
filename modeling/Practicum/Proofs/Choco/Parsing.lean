import Practicum.Choco.Parser.Standard
import Practicum.Proofs.Choco.Layout

/-!
# Parsers on streams of tokens

What a parser does depends on the tokens that its lexer yields and not on how many of them have
been looked at. `Parses p ts a rest` says that `p` reads the value `a` from the tokens `ts` and
leaves `rest`; there is one rule for each step that parsers are made of.
-/

namespace Practicum.Choco

open List

theorem exists_succ_of_lt {n fuel : Nat} (h : n < fuel) : ∃ k, fuel = k + 1 :=
  Nat.exists_eq_add_of_le' (Nat.zero_lt_of_lt h)

/-- The tokens that a lexer gives: those looked at, and then those of its scanner. -/
def Lexer.Yields (l : Lexer) (ts : List Lexeme) : Prop :=
  ∃ rest, ts = l.ahead.map Token.lexeme ++ rest ∧ l.scanner.start.look.Scans rest

namespace Lexer

variable {l : Lexer} {x y : Lexeme} {ts : List Lexeme}

theorem Yields.cases_cons (h : l.Yields (x :: ts)) :
    (∃ t rest, l.ahead = t :: rest ∧ t.lexeme = x ∧ Yields { l with ahead := rest } ts) ∨
      ∃ t s, l.ahead = [] ∧ t.lexeme = x ∧ l.scanner.next = .ok (t, s) ∧ s.start.look.Scans ts := by
  obtain ⟨rest, hts, hscans⟩ := h
  cases hahead : l.ahead with
  | cons t ahead =>
    rw [hahead, map_cons, cons_append, List.cons.injEq] at hts
    exact .inl ⟨t, ahead, rfl, hts.1.symm, rest, hts.2, hscans⟩
  | nil =>
    rw [hahead] at hts
    subst hts
    cases hscans with
    | @cons _ s t _ hscan hrest => exact .inr ⟨t, s, rfl, rfl, hscan, hrest⟩

theorem Yields.consume (h : l.Yields (x :: ts)) :
    ∃ t l', l.consume = .ok (t, l') ∧ t.lexeme = x ∧ l'.Yields ts := by
  rcases h.cases_cons with ⟨t, _, hahead, hx, hrest⟩ | ⟨t, s, hahead, hx, hnext, hrest⟩
  · exact ⟨t, _, by rw [Lexer.consume, hahead], hx, hrest⟩
  refine ⟨t, { scanner := s }, ?_, hx, ts, rfl, hrest⟩
  rw [Lexer.consume, hahead]
  rw [hnext]
  rfl

theorem Yields.extend {k : Nat} (h : l.Yields ts) (hk : l.ahead.length + k ≤ ts.length) :
    ∃ l', l.extend k = .ok l' ∧ l'.Yields ts ∧ l'.ahead.length = l.ahead.length + k := by
  induction k generalizing l with
  | zero => exact ⟨l, rfl, h, rfl⟩
  | succ k ih =>
    obtain ⟨_, rfl, hscans⟩ := h
    cases hscans with
    | nil =>
      simp only [append_nil, length_map] at hk
      omega
    | @cons _ s t xs hscan hrest =>
      have hscan : l.scanner.next = .ok (t, s) := hscan
      have hyields : Yields { scanner := s, ahead := l.ahead ++ [t] }
          (l.ahead.map Token.lexeme ++ t.lexeme :: xs) := ⟨xs, by simp, hrest⟩
      obtain ⟨l', hextend, hl', hlength⟩ := ih hyields (by simp at hk ⊢; omega)
      refine ⟨l', ?_, hl', by simp at hlength; omega⟩
      rw [Lexer.extend, hscan]
      exact hextend

theorem Yields.peek_two (h : l.Yields (x :: y :: ts)) :
    ∃ t u l', l.peek 2 = .ok ([t, u], l') ∧ t.lexeme = x ∧ u.lexeme = y ∧
      l'.Yields (x :: y :: ts) := by
  have hextend : ∃ l', l.extend (2 - l.ahead.length) = .ok l' ∧ l'.Yields (x :: y :: ts) ∧
      2 ≤ l'.ahead.length := by
    by_cases hle : l.ahead.length ≤ 2
    · obtain ⟨l', hl', hyields, hlength⟩ := h.extend (k := 2 - l.ahead.length) (by simp; omega)
      exact ⟨l', hl', hyields, by omega⟩
    · rw [Nat.sub_eq_zero_of_le (by omega)]
      exact ⟨l, rfl, h, by omega⟩
  obtain ⟨l', hl', hyields, hlength⟩ := hextend
  obtain ⟨t, u, ahead, hahead⟩ : ∃ t u ahead, l'.ahead = t :: u :: ahead := by
    match l'.ahead, hlength with
    | t :: u :: ahead, _ => exact ⟨t, u, ahead, rfl⟩
  have hpeek : l.peek 2 = .ok ([t, u], l') := by
    have : l.peek 2 = (l.extend (2 - l.ahead.length)).bind fun l => .ok (l.ahead.take 2, l) := rfl
    rw [this, hl', Except.bind, hahead]
    rfl
  obtain ⟨_, hts, -⟩ := id hyields
  simp only [hahead, map_cons, cons_append, List.cons.injEq] at hts
  exact ⟨t, u, l', hpeek, hts.1.symm, hts.2.1.symm, hyields⟩

end Lexer

/-- From these tokens, a parser reads this value and leaves these tokens. -/
def Parses {α : Type} (p : Parser α) (ts : List Lexeme) (a : α) (rest : List Lexeme) : Prop :=
  ∀ l : Lexer, l.Yields ts → ∃ l' : Lexer, p l = .ok (a, l') ∧ l'.Yields rest

/-- There is a next token, and it is none of these. -/
def Ends (kinds : List TokenKind) : List Lexeme → Prop
  | [] => False
  | x :: _ => x.kind ∉ kinds

theorem Ends.cons {kinds : List TokenKind} {x : Lexeme} {ts : List Lexeme}
    (h : decide (x.kind ∉ kinds) = true) : Ends kinds (x :: ts) :=
  show x.kind ∉ kinds from of_decide_eq_true h

theorem Ends.mono {kinds kinds' : List TokenKind} {ts : List Lexeme} (h : Ends kinds' ts)
    (hk : kinds ⊆ kinds') : Ends kinds ts := by
  cases ts with
  | nil => exact h
  | cons x ts => exact fun hx => h (hk hx)

theorem Ends.sub {kinds kinds' : List TokenKind} {ts : List Lexeme} (h : Ends kinds' ts)
    (hk : decide (kinds ⊆ kinds') = true) : Ends kinds ts :=
  h.mono (of_decide_eq_true hk)

namespace Parses

open Parser Standard

section
variable {α β : Type} {p : Parser α} {f : α → Parser β} {a : α} {b : β}
  {ts ts' rest : List Lexeme} {x y : Lexeme} {kind : TokenKind} {kinds : List TokenKind}
  {cause : SyntaxCause} {q : Parser Bool}

protected theorem pure : Parses (pure a) ts a ts :=
  fun l hl => ⟨l, rfl, hl⟩

protected theorem bind (hp : Parses p ts a ts') (hf : Parses (f a) ts' b rest) :
    Parses (p >>= f) ts b rest := by
  intro l hl
  obtain ⟨l', hl', hyields⟩ := hp l hl
  obtain ⟨l'', hl'', hyields'⟩ := hf l' hyields
  refine ⟨l'', ?_, hyields'⟩
  show (p l >>= _) = _
  rw [hl']
  exact hl''

theorem ite_true {p' : Parser α} (hq : Parses q ts true ts') (h : Parses p ts' a rest) :
    Parses (q >>= fun b => if b = true then p else p') ts a rest :=
  .bind hq h

theorem ite_false {p' : Parser α} (hq : Parses q ts false ts') (h : Parses p' ts' a rest) :
    Parses (q >>= fun b => if b = true then p else p') ts a rest :=
  .bind hq h

theorem look {f : Token → Parser α}
    (h : ∀ t : Token, t.lexeme = x → Parses (f t) (x :: ts) a rest) :
    Parses (Parser.look >>= f) (x :: ts) a rest := by
  intro l hl
  rcases hl.cases_cons with ⟨t, ahead, hahead, hx, -⟩ | ⟨t, s, hahead, hx, hnext, hrest⟩
  · obtain ⟨l', hl', hyields⟩ := h t hx l hl
    refine ⟨l', ?_, hyields⟩
    rw [← hl']
    show (Parser.look l >>= _) = _
    rw [Parser.look, hahead]
    rfl
  · have hyields : Lexer.Yields { scanner := s, ahead := [t] } (x :: ts) :=
      ⟨ts, by rw [← hx]; rfl, hrest⟩
    obtain ⟨l', hl', hyields⟩ := h t hx _ hyields
    refine ⟨l', ?_, hyields⟩
    rw [← hl']
    show (Parser.look l >>= _) = _
    rw [Parser.look, hahead]
    simp only [hnext]
    rfl

theorem advance {f : Token → Parser α} (h : ∀ t : Token, t.lexeme = x → Parses (f t) ts a rest) :
    Parses (Parser.advance >>= f) (x :: ts) a rest := by
  intro l hl
  obtain ⟨t, l', hconsume, hx, hyields⟩ := hl.consume
  obtain ⟨l'', hl'', hyields'⟩ := h t hx l' hyields
  refine ⟨l'', ?_, hyields'⟩
  rw [← hl'']
  show (Parser.advance l >>= _) = _
  rw [Parser.advance, hconsume]
  rfl

theorem check (kind : TokenKind) :
    Parses (Parser.check kind) (x :: ts) (x.kind == kind) (x :: ts) :=
  look fun t ht => by
    subst ht
    exact .pure

theorem check_pos (h : x.kind = kind) : Parses (Parser.check kind) (x :: ts) true (x :: ts) := by
  rw [← beq_iff_eq.2 h]
  exact check kind

theorem check_neg (h : x.kind ≠ kind) : Parses (Parser.check kind) (x :: ts) false (x :: ts) := by
  rw [← beq_eq_false_iff_ne.2 h]
  exact check kind

theorem check_ends (h : Ends [kind] ts) : Parses (Parser.check kind) ts false ts := by
  cases ts with
  | nil => exact h.elim
  | cons x ts => exact check_neg fun hx => h (mem_singleton.mpr hx)

theorem checkAny_pos (h : x.kind ∈ kinds) :
    Parses (Parser.checkAny kinds) (x :: ts) true (x :: ts) :=
  look fun t ht => by
    subst ht
    have : kinds.contains t.kind = true := contains_iff_mem.2 h
    rw [this]
    exact .pure

theorem checkAny_ends (h : Ends kinds ts) : Parses (Parser.checkAny kinds) ts false ts := by
  cases ts with
  | nil => exact h.elim
  | cons x ts =>
    refine look fun t ht => ?_
    subst ht
    have : kinds.contains t.kind = false := Bool.eq_false_iff.2 (mt contains_iff_mem.1 h)
    rw [this]
    exact .pure

theorem checkRun_two {k k' : TokenKind} :
    Parses (checkRun [k, k']) (x :: y :: ts) (x.kind == k && y.kind == k') (x :: y :: ts) := by
  intro l hl
  obtain ⟨t, u, l', hpeek, rfl, rfl, hyields⟩ := hl.peek_two
  refine ⟨l', ?_, hyields⟩
  show (lookAhead 2 l >>= _) = _
  rw [lookAhead, hpeek]
  show Except.ok _ = _
  simp [Token.lexeme]

theorem expect {f : Token → Parser α} (hx : x.kind = kind)
    (h : ∀ t : Token, t.lexeme = x → Parses (f t) ts a rest) :
    Parses (Standard.expect kind >>= f) (x :: ts) a rest := by
  intro l hl
  obtain ⟨l', hl', hyields⟩ := check_pos hx l hl
  obtain ⟨l'', hl'', hyields'⟩ := advance h l' hyields
  refine ⟨l'', ?_, hyields'⟩
  rw [← hl'']
  show ((Parser.check kind l >>= _) >>= _) = _
  rw [hl']
  rfl

/-- A token that the tree has no trace of. -/
theorem token (hx : x.kind = kind) (h : Parses p ts a rest) :
    Parses (Standard.expect kind >>= fun _ => p) (x :: ts) a rest :=
  expect hx fun _ _ => h

section
variable {p p' : Parser α}

theorem taken (hx : x.kind = kind) (h : Parses p (x :: ts) a rest) :
    Parses (Parser.check kind >>= fun b => if b = true then p else p') (x :: ts) a rest :=
  ite_true (check_pos hx) h

/-- The token that was asked for, of which the tree has no trace. -/
theorem consumed (hx : x.kind = kind) (h : Parses p ts a rest) :
    Parses (Parser.check kind >>= fun b => if b = true then Standard.expect kind >>= fun _ => p
      else p') (x :: ts) a rest :=
  taken hx (token hx h)

theorem passed (hx : x.kind ≠ kind) (h : Parses p' (x :: ts) a rest) :
    Parses (Parser.check kind >>= fun b => if b = true then p else p') (x :: ts) a rest :=
  ite_false (check_neg hx) h

theorem absent (hends : Ends [kind] ts) (h : Parses p' ts a rest) :
    Parses (Parser.check kind >>= fun b => if b = true then p else p') ts a rest :=
  ite_false (check_ends hends) h

end

theorem forbid (h : Ends [kind] ts) : Parses (Standard.forbid kind cause) ts () ts :=
  absent h .pure

end

end Parses

end Practicum.Choco
