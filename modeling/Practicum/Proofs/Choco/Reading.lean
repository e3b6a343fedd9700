import Practicum.Choco.Parser.Standard
import Practicum.Proofs.Choco.Lines

/-!
# Parsers seen from the scanner

A lexer that has looked ahead stands where its scanner was before it looked. So a parser leads from
one place of the scanner to another, whatever it has looked at: `Leads p s Q` says that `p`, begun at
the place `s`, gives a result and a place of which `Q` holds, if it gives a result at all.
-/

namespace Practicum.Choco

/-- The kinds whose tokens are not all spelled alike. -/
def freeKinds : List TokenKind :=
  [.eof, .newline, .indent, .dedent, .identifier, .integer, .string]

/-- Signs and reserved words are spelled as their kinds are. -/
def Token.Spelled (t : Token) : Prop :=
  t.kind ∈ freeKinds ∨ (t.spelling, t.kind) ∈ signs ++ keywords

/-- Tokens of these kinds are spelled as one of these words. -/
def Denote (kinds : List TokenKind) (words : List String) : Prop :=
  (∀ k ∈ kinds, k ∉ freeKinds) ∧ ∀ entry ∈ signs ++ keywords, entry.2 ∈ kinds → entry.1 ∈ words
  deriving Decidable

variable {t : Token}

theorem Token.Spelled.mem {kinds : List TokenKind} {words : List String} (h : t.Spelled)
    (hk : t.kind ∈ kinds) (hkinds : Denote kinds words) : t.spelling ∈ words :=
  h.elim (fun hfree => absurd hfree (hkinds.1 _ hk)) fun hmem => hkinds.2 _ hmem hk

variable {s : Scanner}

namespace Scanner

/-- The tokens that a scanner gives one after the other, up to another place. -/
inductive Passes : Scanner → List Token → Scanner → Prop where
  | nil {s : Scanner} : Passes s [] s
  | cons {s s' s'' : Scanner} {t : Token} {ts : List Token} (next : s.next = .ok (t, s'))
    (rest : Passes s' ts s'') : Passes s (t :: ts) s''

theorem Passes.concat {s s' s'' : Scanner} {ts : List Token} (h : Passes s ts s')
    (hnext : s'.next = .ok (t, s'')) : Passes s (ts ++ [t]) s'' := by
  induction h with
  | nil => exact .cons hnext .nil
  | cons next _ ih => exact .cons next (ih hnext)

theorem Advances.ready {s s' : Scanner} {k : TokenKind} (h : Advances s s' k) : s'.Ready := by
  cases h with
  | newline _ _ _ next => exact next.elim (fun h => .inr (.inl h)) .inl
  | close _ _ spent => exact .inl spent
  | eof _ _ spent => exact .inl spent
  | indent _ _ fresh' => exact .inr (.inl fresh')
  | dedent _ _ fresh' => exact .inr (.inl fresh')
  | ordinary _ _ _ begun => exact .inr (.inr begun)

/-- A block that is begun is not ended at once. -/
theorem kind_ne_dedent_of_indent {s s' s'' : Scanner} {t' : Token} (hs : s.Ready)
    (h : s.next = .ok (t, s')) (ht : t.kind = .indent) (h' : s'.next = .ok (t', s'')) :
    t'.kind ≠ .dedent := by
  have hfirst := advances_of_next hs h
  have hsecond := advances_of_next hfirst.ready h'
  intro ht'
  rw [ht] at hfirst
  rw [ht'] at hsecond
  cases hfirst with
  | ordinary _ ordinary => exact ordinary.2.2.1 rfl
  | indent _ _ _ begun poised _ _ levels =>
    have hlevel : s'.layout.level = s'.layout.indent := by
      rw [Layout.level, levels]
      rfl
    cases hsecond with
    | ordinary _ ordinary => exact ordinary.2.2.2 rfl
    | close outside =>
      rw [begun] at outside
      cases outside
    | dedent _ _ _ _ _ margin further =>
      rw [margin poised, hlevel] at further
      exact Nat.lt_irrefl _ further

theorem Plain.spelled {r : Token × Scanner} (h : s.Plain r) : r.1.Spelled :=
  h.1.imp_left fun hfree => List.mem_append_right [.eof, .newline, .indent, .dedent] hfree

theorem spelled_of_scan {tok : Token} {s' : Scanner} (h : s.scan = .ok (tok, s')) :
    tok.Spelled := by
  fun_induction scan s with
  | case1 s =>
    obtain rfl : s.atEnd.1 = tok := congrArg Prod.fst (Except.ok.inj h)
    unfold atEnd
    split
    · exact .inl (by simp [newlineToken, freeKinds])
    split
    iterate 2
      · exact .inl (by simp [token, freeKinds])
  | case2 =>
    obtain ⟨rfl, -⟩ := Prod.mk.inj (Except.ok.inj h)
    exact .inl (by simp [newlineToken, freeKinds])
  | case3 _ _ _ _ _ _ ih => exact ih h
  | case4 _ _ _ _ ih => exact ih h
  | case5 s c =>
    unfold lineStart at h
    dsimp only at h
    split at h
    · cases h
      exact .inl (by simp [freeKinds])
    split at h
    · split at h
      · cases h
        exact .inl (by simp [token, freeKinds])
      · cases h
    · exact (plain_of_lexeme h).spelled
  | case6 => exact (plain_of_lexeme h).spelled

end Scanner

/-- A lexer that has looked ahead from this place of its scanner. -/
def Lexer.From (l : Lexer) (s : Scanner) : Prop :=
  s.Passes l.ahead l.scanner

namespace Lexer

variable {l l' : Lexer} {k : Nat}

theorem From.consume (h : l.From s) (hl : l.consume = .ok (t, l')) :
    ∃ s', s.next = .ok (t, s') ∧ l'.From s' := by
  unfold From at h
  rw [Lexer.consume] at hl
  generalize hahead : l.ahead = ahead at h hl
  cases h with
  | nil =>
    obtain ⟨⟨t', s'⟩, hnext, hl⟩ := of_bind hl
    cases hl
    exact ⟨s', hnext, .nil⟩
  | cons next rest =>
    cases hl
    exact ⟨_, next, rest⟩

theorem From.extend (h : l.From s) (hl : l.extend k = .ok l') : l'.From s := by
  induction k generalizing l with
  | zero =>
    cases hl
    exact h
  | succ k ih =>
    obtain ⟨⟨t, s'⟩, hnext, hl⟩ := of_bind hl
    exact ih (l := { scanner := s', ahead := l.ahead ++ [t] }) (h.concat hnext) hl

end Lexer

namespace Parser

variable {α β : Type} {p : Parser α} {f : α → Parser β} {Q R : α → Scanner → Prop}
  {P : β → Scanner → Prop} {kinds : List TokenKind} {kind : TokenKind}

theorem throw_ne_ok (e : ParseError) (l : Lexer) (r : α × Lexer) :
    (throw e : Parser α) l ≠ .ok r := by
  intro h
  cases h

/-- What a parser gives from a place of the scanner, if it gives anything. -/
def Leads (p : Parser α) (s : Scanner) (Q : α → Scanner → Prop) : Prop :=
  ∀ l a l', l.From s → p l = .ok (a, l') → ∃ s', l'.From s' ∧ Q a s'

namespace Leads

theorem mono (h : Leads p s R) (hQ : ∀ a s', R a s' → Q a s') : Leads p s Q := by
  intro l a l' hl hp
  obtain ⟨s', hl', hR⟩ := h l a l' hl hp
  exact ⟨s', hl', hQ a s' hR⟩

theorem fails (h : ∀ l r, p l ≠ .ok r) : Leads p s Q :=
  fun l a l' _ hp => absurd hp (h l (a, l'))

protected theorem pure {a : α} (h : Q a s) : Leads (pure a) s Q := by
  rintro l _ _ hl ⟨⟩
  exact ⟨s, hl, h⟩

protected theorem bind (hp : Leads p s R) (hf : ∀ a s', R a s' → Leads (f a) s' P) :
    Leads (p >>= f) s P := by
  intro l b l'' hl h
  obtain ⟨⟨a, l'⟩, ha, h⟩ := of_bind (x := p l) h
  obtain ⟨s', hl', hR⟩ := hp l a l' hl ha
  exact hf a s' hR l' b l'' hl' h

theorem look : Leads look s fun t s' => s' = s ∧ ∃ s'', s.next = .ok (t, s'') := by
  intro l t l' hl h
  unfold Parser.look at h
  split at h
  next t' ts hahead =>
    cases h
    refine ⟨s, hl, rfl, ?_⟩
    rw [Lexer.From, hahead] at hl
    cases hl with
    | cons next _ => exact ⟨_, next⟩
  next hahead =>
    split at h
    next t' s' hnext =>
      cases h
      rw [Lexer.From, hahead] at hl
      cases hl
      exact ⟨_, .cons hnext .nil, rfl, s', hnext⟩
    · cases h

theorem lookAhead {k : Nat} : Leads (lookAhead k) s fun _ s' => s' = s := by
  intro l ts l' hl h
  unfold Parser.lookAhead at h
  split at h
  next r hpeek =>
    cases h
    obtain ⟨l1, hextend, hpeek⟩ := of_bind hpeek
    cases hpeek
    exact ⟨s, hl.extend hextend, rfl⟩
  · cases h

theorem advance : Leads advance s fun t s' => s.next = .ok (t, s') := by
  intro l t l' hl h
  unfold Parser.advance at h
  split at h
  next r hconsume =>
    cases h
    obtain ⟨s', hnext, hl'⟩ := hl.consume hconsume
    exact ⟨s', hl', hnext⟩
  · cases h

theorem check : Leads (check kind) s fun b s' =>
    s' = s ∧ ∃ t s'', s.next = .ok (t, s'') ∧ b = (t.kind == kind) :=
  .bind look fun t _ ⟨hs, s'', hnext⟩ => .pure ⟨hs, t, s'', hs ▸ hnext, rfl⟩

theorem checkAny : Leads (checkAny kinds) s fun b s' =>
    s' = s ∧ ∃ t s'', s.next = .ok (t, s'') ∧ b = kinds.contains t.kind :=
  .bind look fun t _ ⟨hs, s'', hnext⟩ => .pure ⟨hs, t, s'', hs ▸ hnext, rfl⟩

end Leads

/-- What a parser gives from any place, if it gives anything. -/
def Returns (p : Parser α) (Q : α → Prop) : Prop :=
  ∀ s : Scanner, s.Ready → Leads p s fun a s' => s'.Ready ∧ Q a

namespace Returns

variable {Q R : α → Prop} {P : β → Prop} {q : Parser α} {b : Parser Bool}

theorem fails (h : ∀ l r, p l ≠ .ok r) : Returns p Q :=
  fun _ _ => .fails h

protected theorem throw {e : ParseError} : Returns (throw e : Parser α) Q :=
  .fails (throw_ne_ok e)

/-- A rule with a bound on its depth fails at the bound. -/
protected theorem fuel {p : Nat → Parser α} {n : Nat} (hzero : p 0 = tooDeep)
    (hsucc : ∀ n, Returns (p n) Q → Returns (p (n + 1)) Q) : Returns (p n) Q := by
  induction n with
  | zero => exact hzero ▸ .throw
  | succ n ih => exact hsucc n ih

protected theorem pure {a : α} (h : Q a) : Returns (pure a) Q :=
  fun _ hs => .pure ⟨hs, h⟩

protected theorem bind (hp : Returns p R) (hf : ∀ a, R a → Returns (f a) P) : Returns (p >>= f) P :=
  fun s hs => .bind (hp s hs) fun a s' ⟨hs', ha⟩ => hf a ha s' hs'

theorem mono (h : Returns p R) (hQ : ∀ a, R a → Q a) : Returns p Q :=
  fun s hs => (h s hs).mono fun a _ h => ⟨h.1, hQ a h.2⟩

theorem cons {q : Parser (List α)} (hp : Returns p Q) (hq : Returns q fun as => ∀ a ∈ as, Q a) :
    Returns (do let a ← p; return a :: (← q)) fun as => ∀ a ∈ as, Q a :=
  .bind hp fun _ ha => .bind hq fun _ has => .pure (List.forall_mem_cons.mpr ⟨ha, has⟩)

theorem ite (hb : Returns b fun _ => True) (hp : Returns p Q) (hq : Returns q Q) :
    Returns (b >>= fun c => if c = true then p else q) Q :=
  .bind hb fun c _ => by cases c <;> assumption

/-- Two ways that go on with one value. -/
theorem ite_join {f : β → Parser α} (hb : Returns b fun _ => True)
    (hp : (∀ a, P a → Returns (f a) Q) → Returns p Q)
    (hq : (∀ a, P a → Returns (f a) Q) → Returns q Q) (hf : ∀ a, P a → Returns (f a) Q) :
    Returns (b >>= fun c => if c = true then p else q) Q :=
  .ite hb (hp hf) (hq hf)

theorem check : Returns (check kind) fun _ => True :=
  fun _ hs => Leads.check.mono fun _ _ h => ⟨h.1 ▸ hs, trivial⟩

theorem checkAny : Returns (checkAny kinds) fun _ => True :=
  fun _ hs => Leads.checkAny.mono fun _ _ h => ⟨h.1 ▸ hs, trivial⟩

theorem checkRun {ks : List TokenKind} : Returns (checkRun ks) fun _ => True :=
  .bind (R := fun _ => True) (fun _ hs => Leads.lookAhead.mono fun _ _ h => ⟨h ▸ hs, trivial⟩)
    fun _ _ => by
      split
      · exact .bind (R := fun _ => False) .throw nofun
      · exact .pure trivial

/-- A token of one of these kinds is taken, or there is none. -/
theorem ite_advance {f : Token → Parser α} (hf : ∀ t : Token, t.kind ∈ kinds → t.Spelled →
      Returns (f t) Q) (hq : Returns q Q) :
    Returns (Parser.checkAny kinds >>= fun c => if c = true then advance >>= f else q) Q := by
  refine fun s hs => .bind .checkAny ?_
  rintro c s' ⟨rfl, t, s1, hnext, rfl⟩
  split
  next hmem =>
    refine .bind .advance fun t' s2 hnext' => ?_
    cases hnext.symm.trans hnext'
    exact hf t (by simpa using hmem) (Scanner.spelled_of_scan hnext) _
      (Scanner.advances_of_next hs hnext).ready
  · exact hq s' hs

end Returns

end Parser

end Practicum.Choco
