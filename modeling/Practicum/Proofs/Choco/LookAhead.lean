import Practicum.Proofs.Choco.Lines

/-!
# Looking ahead

Whatever is consumed from a lexer and whatever is looked at, the tokens are those that its scanner
gives one after the other. A source that can be read to its end has such a sequence without end:
after the end of the file, every token is the end of the file.
-/

namespace Practicum.Choco

namespace Lexer

inductive Request where
  | consume
  | peek (k : Nat)
  deriving DecidableEq, Repr

/-- The tokens that answer a request, and the lexer after it. -/
def answer (l : Lexer) : Request → Except LexError (List Token × Lexer)
  | .consume => do
    let (t, l) ← l.consume
    return ([t], l)
  | .peek k => l.peek k

def answers (l : Lexer) : List Request → Except LexError (List (List Token))
  | [] => .ok []
  | r :: script => do
    let (ts, l) ← l.answer r
    return ts :: (← l.answers script)

/-- The token that a lexer gives if this many tokens are consumed before it. -/
def nth (l : Lexer) : Nat → Except LexError Token
  | 0 => Prod.fst <$> l.consume
  | n + 1 => do
    let (_, l) ← l.consume
    l.nth n

/-- The answers that a sequence of tokens asks for, of which `i` have been consumed. -/
def answersOf (σ : Nat → Token) (i : Nat) : List Request → List (List Token)
  | [] => []
  | .consume :: script => [σ i] :: answersOf σ (i + 1) script
  | .peek k :: script => (List.range' i k).map σ :: answersOf σ i script

/-- Scanners that give the tokens of a sequence, one after the other. -/
def Chained (S : Nat → Scanner) (σ : Nat → Token) : Prop :=
  ∀ n, (S n).next = .ok (σ n, S (n + 1))

/-- The lexer that has given `i` tokens of a sequence and has looked at `k` more. -/
def view (S : Nat → Scanner) (σ : Nat → Token) (i k : Nat) : Lexer :=
  { scanner := S (i + k), ahead := (List.range' i k).map σ }

variable {S : Nat → Scanner} {σ : Nat → Token} {i k j n : Nat}

section
variable (h : Chained S σ)
include h

theorem Chained.consume (i k : Nat) :
    (view S σ i k).consume = .ok (σ i, view S σ (i + 1) (k - 1)) := by
  cases k with
  | zero =>
    show ((S i).next >>= _) = _
    rw [h i]
    rfl
  | succ k =>
    have hscanner : S (i + (k + 1)) = S (i + 1 + k) := congrArg S (by omega)
    simp [Lexer.consume, view, List.range'_succ, hscanner]

theorem Chained.extend (i k j : Nat) : (view S σ i k).extend j = .ok (view S σ i (k + j)) := by
  induction j generalizing k with
  | zero => rfl
  | succ j ih =>
    have hnext : (view S σ i k).scanner.next = .ok (σ (i + k), S (i + (k + 1))) := h (i + k)
    have hahead : ({ scanner := S (i + (k + 1)), ahead := (view S σ i k).ahead ++ [σ (i + k)] } :
        Lexer) = view S σ i (k + 1) := by
      simp [view, List.range'_concat]
    rw [Lexer.extend, hnext]
    show ({ scanner := S (i + (k + 1)), ahead := _ } : Lexer).extend j = _
    rw [hahead, ih, Nat.add_right_comm, Nat.add_assoc]

theorem Chained.peek (i k n : Nat) :
    ∃ k', (view S σ i k).peek n = .ok ((List.range' i n).map σ, view S σ i k') := by
  refine ⟨k + (max n 1 - k), ?_⟩
  have hlength : (view S σ i k).ahead.length = k := by simp [view]
  have htake : (view S σ i (k + (max n 1 - k))).ahead.take n = (List.range' i n).map σ := by
    rw [view, ← List.map_take, List.take_range'_of_length_ge (by omega)]
  rw [Lexer.peek, hlength, h.extend]
  show Except.ok _ = _
  rw [htake]

theorem Chained.answers (i k : Nat) (script : List Request) :
    (view S σ i k).answers script = .ok (answersOf σ i script) := by
  induction script generalizing i k with
  | nil => rfl
  | cons r script ih =>
    rw [Lexer.answers]
    cases r with
    | consume =>
      rw [answer, h.consume]
      show (do return [σ i] :: (← (view S σ (i + 1) (k - 1)).answers script)) = _
      rw [ih]
      rfl
    | peek n =>
      obtain ⟨k', hpeek⟩ := h.peek i k n
      rw [answer, hpeek]
      show (do return (List.range' i n).map σ :: (← (view S σ i k').answers script)) = _
      rw [ih]
      rfl

theorem Chained.nth (i n : Nat) : (view S σ i 0).nth n = .ok (σ (i + n)) := by
  induction n generalizing i with
  | zero =>
    rw [Lexer.nth, h.consume]
    rfl
  | succ n ih =>
    rw [Lexer.nth, h.consume]
    show (view S σ (i + 1) 0).nth n = _
    rw [ih, Nat.add_right_comm, Nat.add_assoc]

end

/-! ## The sequence of a source -/

end Lexer

namespace Scanner

/-- Nothing is left to read and no block is open. -/
def Spent (s : Scanner) : Prop :=
  s.rest = [] ∧ s.layout.logical = false ∧ s.layout.level = 0

theorem Spent.next {s : Scanner} (h : s.Spent) :
    ∃ t s', s.next = .ok (t, s') ∧ t.kind = .eof ∧ s'.Spent := by
  obtain ⟨hrest, hlogical, hlevel⟩ := h
  have hscan : s.start.look.scan = .ok s.start.look.atEnd := by
    rw [scan]
    split
    · rfl
    next hcons => simp [hrest] at hcons
  have hend : s.start.look.atEnd = (s.start.look.token s.start.look .eof .absent, s.start.look) := by
    simp [atEnd, hlogical, hlevel]
  refine ⟨_, _, hscan.trans (congrArg _ hend), rfl, ?_⟩
  simpa [Spent] using ⟨hrest, hlogical, hlevel⟩

theorem Advances.spent {s s' : Scanner} {k : TokenKind} (h : Advances s s' k) (hk : k = .eof) :
    s'.Spent := by
  cases h with
  | eof _ outermost spent outside' levels =>
    refine ⟨spent, outside', ?_⟩
    rw [Layout.level, levels]
    exact outermost
  | ordinary _ ordinary => exact absurd hk ordinary.1
  | _ => cases hk

/-- The scanner after its next token. -/
def onward (s : Scanner) : Scanner :=
  match s.next with
  | .ok (_, s') => s'
  | .error _ => s

theorem onward_eq {s s' : Scanner} {t : Token} (h : s.next = .ok (t, s')) : s.onward = s' := by
  rw [onward, h]

end Scanner

namespace Lexer

open Scanner

variable {ts : List Token} {l : Lexer} {source : String}

section
variable (h : (ofString source).Consumes ts l)
include h

theorem Consumes.scanners : l = { scanner := onward^[ts.length] (ofString source).scanner } ∧
      ∀ i t, ts[i]? = some t → (onward^[i] (ofString source).scanner).next =
        .ok (t, onward^[i + 1] (ofString source).scanner) := by
  induction h with
  | nothing => exact ⟨rfl, fun i t ht => by simp at ht⟩
  | @more ts t _ _ _ next ih =>
    obtain ⟨rfl, ih⟩ := ih
    obtain ⟨⟨_, s⟩, hnext, next⟩ := of_bind next
    cases next
    have honward : onward^[ts.length + 1] (ofString source).scanner = s := by
      rw [Function.iterate_succ_apply']
      exact onward_eq hnext
    refine ⟨by simp [honward], fun i u hu => ?_⟩
    obtain hi | rfl | hi := Nat.lt_trichotomy i ts.length
    · exact ih i u (by rwa [List.getElem?_append_left hi] at hu)
    · obtain rfl : t = u := by simpa using hu
      rw [honward]
      exact hnext
    · rw [List.getElem?_eq_none (by simp; omega)] at hu
      cases hu

theorem Consumes.spent (hlast : ts.getLast?.map Token.kind = some .eof) (n : Nat) :
    (onward^[ts.length + n] (ofString source).scanner).Spent := by
  induction n with
  | zero =>
    obtain ⟨t, hlast, ht⟩ := Option.map_eq_some_iff.mp hlast
    obtain ⟨us, rfl⟩ := List.getLast?_eq_some_iff.mp hlast
    obtain ⟨_, h'⟩ := h.of_isPrefix (List.prefix_append us [t])
    have hready := h'.laid.2.1.ready
    rw [h'.scanners.1] at hready
    simpa using (advances_of_next hready (h.scanners.2 us.length t (by simp))).spent ht
  | succ n ih =>
    obtain ⟨_, _, hnext, -, hs⟩ := ih.next
    rw [← Nat.add_assoc, Function.iterate_succ_apply', onward_eq hnext]
    exact hs

/-- A source that is read to its end has a sequence of tokens: those that are consumed up to the
end of the file, and then the end of the file for ever. -/
theorem Consumes.exists_chained (hlast : ts.getLast?.map Token.kind = some .eof) :
    ∃ S σ, S 0 = (ofString source).scanner ∧ Chained S σ ∧
      (∀ i t, ts[i]? = some t → σ i = t) ∧ ∀ i, ts.length ≤ i → (σ i).kind = .eof := by
  have hnext : ∀ n, ∃ t, (onward^[n] (ofString source).scanner).next =
      .ok (t, onward^[n + 1] (ofString source).scanner) ∧ (ts.length ≤ n → t.kind = .eof) := by
    intro n
    obtain hn | hn := Nat.lt_or_ge n ts.length
    · exact ⟨ts[n], h.scanners.2 n _ (List.getElem?_eq_getElem hn), fun _ => by omega⟩
    obtain ⟨m, rfl⟩ := Nat.exists_eq_add_of_le hn
    obtain ⟨t, s, hs, ht, -⟩ := (h.spent hlast m).next
    refine ⟨t, ?_, fun _ => ht⟩
    rw [Function.iterate_succ_apply', onward_eq hs]
    exact hs
  choose σ hσ hend using hnext
  refine ⟨_, σ, rfl, hσ, fun i t ht => ?_, hend⟩
  have heq := (hσ i).symm.trans (h.scanners.2 i t ht)
  exact (Prod.mk.inj (Except.ok.inj heq)).1

end

/-- Whatever is consumed of a source and whatever is looked at between, the answers are cut out of
one sequence: the tokens that are consumed when nothing is looked at. -/
theorem answers_eq_answersOf (source : String) {ts : List Token} {l : Lexer}
    (h : (ofString source).Consumes ts l) (hlast : ts.getLast?.map Token.kind = some .eof) :
    ∃ σ : Nat → Token, (∀ n, (ofString source).nth n = .ok (σ n)) ∧
      (∀ i t, ts[i]? = some t → σ i = t) ∧ (∀ i, ts.length ≤ i → (σ i).kind = .eof) ∧
      ∀ script, (ofString source).answers script = .ok (answersOf σ 0 script) := by
  obtain ⟨S, σ, hS, hchained, hσ, hend⟩ := h.exists_chained hlast
  have hview : ofString source = view S σ 0 0 := by
    rw [view, hS]
    rfl
  refine ⟨σ, fun n => ?_, hσ, hend, fun script => ?_⟩
  · rw [hview, hchained.nth, Nat.zero_add]
  · rw [hview, hchained.answers]

/-- Two tokens are looked at before one of them is consumed, and then three, past the end. -/
theorem answers_eq_answersOf_short :
    ∃ σ : Nat → Token, (∀ n, (ofString "x").nth n = .ok (σ n)) ∧ (σ 3).kind = .eof ∧
      (ofString "x").answers [.peek 2, .consume, .peek 3] =
        .ok [[σ 0, σ 1], [σ 0], [σ 1, σ 2, σ 3]] := by
  have htokens : (tokenize "x").2 = none ∧ (tokenize "x").1.length = 3 ∧
      (tokenize "x").1.getLast?.map Token.kind = some .eof := by
    decide +kernel
  obtain ⟨hnone, hlength, hlast⟩ := htokens
  obtain ⟨l, h⟩ := (Consumes.nothing (l := ofString "x")).tokens (Prod.ext rfl hnone)
  obtain ⟨σ, hσ, -, hend, hanswers⟩ := answers_eq_answersOf "x" h hlast
  exact ⟨σ, hσ, hend 3 hlength.le, hanswers _⟩

end Lexer

end Practicum.Choco
