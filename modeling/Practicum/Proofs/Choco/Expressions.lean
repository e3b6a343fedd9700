import Practicum.Proofs.Choco.Parsing

/-!
# Reading expressions back

The parser reads an expression back from its tokens, at every level of the grammar. From its own
level it is read at every level that binds less tight, and, in parentheses, at the levels that bind
tighter.

Operators that associate to the left and indices are read by loops. `Joins` and `Extends` say how
such a loop goes on when it has read an expression, whatever comes next.
-/

namespace Practicum.Choco

open Parser Standard List Node IsExpr

/-! ## Single tokens -/

theorem kind_word_of_isName {x : String} (h : IsName x) : (Lexeme.word x).kind = .identifier := by
  simp [Lexeme.word, wordKind, h.2]

theorem spelling_of_lexeme {t : Token} {kind : TokenKind} {x : String}
    (h : t.lexeme = ⟨kind, .word x⟩) : t.spelling = x := by
  have : t.value = .word x := congrArg Lexeme.value h
  rw [Token.spelling, this]

def literalKinds : List TokenKind :=
  [.none, .true, .false, .integer, .string]

theorem kind_literal_mem (v : Literal) : (Lexeme.literal v).kind ∈ literalKinds := by
  match v with
  | .none => decide
  | .bool true => decide
  | .bool false => decide
  | .int _ _ => simp [Lexeme.literal, literalKinds]
  | .str _ => simp [Lexeme.literal, literalKinds]

variable {v : Literal} {rest : List Lexeme} {level level' : Nat}

theorem literal_of_lexeme {t : Token} (hv : IsLiteral v) (h : t.lexeme = .literal v) :
    t.literal = .literal v none := by
  obtain ⟨hkind, hvalue⟩ : t.kind = (Lexeme.literal v).kind ∧ t.value = (Lexeme.literal v).value :=
    ⟨congrArg Lexeme.kind h, congrArg Lexeme.value h⟩
  match v, hv with
  | .none, _ => simp [Token.literal, hkind, show (Lexeme.literal .none).kind = .none from rfl]
  | .bool true, _ =>
    simp [Token.literal, hkind, show (Lexeme.literal (.bool true)).kind = .true from rfl]
  | .bool false, _ =>
    simp [Token.literal, hkind, show (Lexeme.literal (.bool false)).kind = .false from rfl]
  | .int n _, ⟨rfl, hn, _⟩ =>
    have : ((n.toNat : Nat) : Int) = n := Int.toNat_of_nonneg hn
    simp [Token.literal, hkind, hvalue, Lexeme.literal, integer, this]
  | .str s, _ => simp [Token.literal, Token.spelling, hkind, hvalue, Lexeme.literal]

theorem Parses.literal (hv : IsLiteral v) :
    Parses Standard.literal (.literal v :: rest) (.literal v none) rest := by
  refine .ite_true (.checkAny_pos (kind_literal_mem v)) (.advance fun t ht => ?_)
  rw [literal_of_lexeme hv ht]
  exact .pure

/-! ## Levels of the grammar -/

/-- The parser of a level, with bounds for whole expressions and for this one. -/
def levelParser (bound fuel : Nat) : Nat → Parser Node
  | 0 => expr fuel
  | 1 => orExpr (expr bound) fuel
  | 2 => andExpr (expr bound) fuel
  | 3 => notExpr (expr bound) fuel
  | 4 => comparison (expr bound) fuel
  | 5 => arith (expr bound) fuel
  | 6 => term (expr bound) fuel
  | _ => cexpr (expr bound) fuel

def joiners : Nat → List TokenKind
  | 1 => [.or]
  | 2 => [.and]
  | 5 => [.plus, .minus]
  | 6 => [.times, .floorDiv, .modulo]
  | _ => []

def leftLevels : List Nat :=
  [1, 2, 5, 6]

/-- The tokens that continue an expression, with the tightest level at which they do. -/
def continuing : List (TokenKind × Nat) :=
  [(.kwIf, 0), (.or, 1), (.and, 2), (.eq, 4), (.ne, 4), (.lt, 4), (.le, 4), (.gt, 4), (.ge, 4),
   (.is, 4), (.plus, 5), (.minus, 5), (.times, 6), (.floorDiv, 6), (.modulo, 6), (.lbracket, 8),
   (.lparen, 8)]

/-- The tokens that cannot follow an expression of a level, since they would continue it. -/
def continuations (level : Nat) : List TokenKind :=
  (continuing.filter fun p => level ≤ p.2).map Prod.fst

/-- How much more than the number of tokens a level needs as its bound. -/
def slack (level : Nat) : Nat :=
  if level = 0 then 3 else if level ≤ 3 then 2 else 1

theorem continuations_subset (h : level ≤ level') : continuations level' ⊆ continuations level := by
  intro kind hkind
  obtain ⟨p, hp, rfl⟩ := mem_map.1 hkind
  obtain ⟨hp, hlevel⟩ := mem_filter.1 hp
  have hlevel : level' ≤ p.2 := of_decide_eq_true hlevel
  exact mem_map.2 ⟨p, mem_filter.2 ⟨hp, decide_eq_true (Nat.le_trans h hlevel)⟩, rfl⟩

theorem slack_le (h : level ≤ level') : slack level' ≤ slack level := by
  simp only [slack]
  grind

theorem slack_pos (level : Nat) : 0 < slack level := by
  simp only [slack]
  grind

theorem joiners_subset (h : level ∈ leftLevels) : joiners level ⊆ continuations level := by
  revert level
  decide

theorem leftLevels_lt (h : level ∈ leftLevels) : level < 8 := by
  revert level
  decide

theorem levelParser_eq_chain (h : level ∈ leftLevels) (bound fuel : Nat) :
    levelParser bound fuel level = (levelParser bound fuel (level + 1) >>=
      chain (joiners level) (levelParser bound fuel (level + 1)) fuel) := by
  simp only [leftLevels, mem_cons, not_mem_nil, or_false] at h
  rcases h with rfl | rfl | rfl | rfl <;> rfl

/-- At a level, an expression is read from these tokens, whatever follows that does not
continue it. -/
def ReadsAt (level : Nat) (e : Node) (ts : List Lexeme) : Prop :=
  ∀ (bound fuel : Nat) (rest : List Lexeme), ts.length + slack level ≤ fuel → fuel ≤ bound →
    Ends (continuations level) rest → Parses (levelParser bound fuel level) (ts ++ rest) e rest

/-- The loop of a level goes on with an expression when it has read these tokens. -/
def Joins (level : Nat) (e : Node) (ts : List Lexeme) : Prop :=
  ∀ (bound fuel c : Nat) (x : Node) (rest rest' : List Lexeme),
    ts.length + slack level ≤ fuel → fuel ≤ bound → Ends (continuations (level + 1)) rest →
    (∀ k, c ≤ k →
      Parses (chain (joiners level) (levelParser bound fuel (level + 1)) k e) rest x rest') →
    ∀ k, c + ts.length ≤ k → Parses (levelParser bound fuel (level + 1) >>=
      chain (joiners level) (levelParser bound fuel (level + 1)) k) (ts ++ rest) x rest'

variable {e l r : Node} {ts : List Lexeme} {op : String}

section
variable {ts' : List Lexeme}

theorem ReadsAt.expr {fuel : Nat} (h : ReadsAt 0 e ts) (hfuel : ts.length + 3 ≤ fuel)
    (hends : Ends (continuations 0) rest) : Parses (Standard.expr fuel) (ts ++ rest) e rest :=
  h fuel fuel rest hfuel (Nat.le_refl fuel) hends

theorem ReadsAt.joins (h : ReadsAt (level + 1) e ts) : Joins level e ts := by
  intro bound fuel c x rest rest' hfuel hbound hends hchain k hk
  have := slack_le (Nat.le_add_right level 1)
  exact .bind (h bound fuel rest (by omega) hbound hends) (hchain k (by omega))

theorem Joins.binary
    (hop : operatorKind op ∈ joiners level) (hends : operatorKind op ∉ continuations (level + 1))
    (hl : Joins level l ts) (hr : ReadsAt (level + 1) r ts') :
    Joins level (.binary op [l] [r] none) (ts ++ ⟨operatorKind op, .word op⟩ :: ts') := by
  intro bound fuel c x rest rest' hfuel hbound hrest hchain k hk
  simp only [length_append, length_cons] at hfuel hk
  have hslack := slack_le (Nat.le_add_right level 1)
  have hnext : Ends (continuations (level + 1)) (⟨operatorKind op, .word op⟩ :: (ts' ++ rest)) :=
    hends
  rw [append_assoc]
  refine hl bound fuel (c + 1) x _ rest' (by omega) hbound hnext (fun k hk => ?_) k (by omega)
  obtain ⟨k, rfl⟩ := exists_succ_of_lt hk
  refine .ite_true (.checkAny_pos hop) (.advance fun t ht => ?_)
  refine .bind (hr bound fuel rest (by omega) hbound hrest) ?_
  rw [spelling_of_lexeme ht]
  exact hchain k (by omega)

theorem Joins.readsAt (hlevel : level ∈ leftLevels) (h : Joins level e ts) :
    ReadsAt level e ts := by
  intro bound fuel rest hfuel hbound hends
  have hslack := slack_pos level
  rw [levelParser_eq_chain hlevel]
  refine h bound fuel 1 e rest rest hfuel hbound (hends.mono (continuations_subset (by omega)))
    (fun k hk => ?_) fuel (by omega)
  obtain ⟨k, rfl⟩ := Nat.exists_eq_add_of_le' hk
  exact .ite_false (.checkAny_ends (hends.mono (joiners_subset hlevel))) .pure

theorem ReadsAt.lower_succ (hlevel : level < 8) (hnot : level = 3 → ∀ x ∈ ts.head?, x.kind ≠ .not)
    (hne : ts ≠ []) (h : ReadsAt (level + 1) e ts) : ReadsAt level e ts := by
  by_cases hleft : level ∈ leftLevels
  · exact h.joins.readsAt hleft
  intro bound fuel rest hfuel hbound hends
  have hends' := hends.mono (continuations_subset (Nat.le_add_right level 1))
  have hparse := fun bound fuel hfuel hbound => h bound fuel rest hfuel hbound hends'
  obtain rfl | rfl | rfl | rfl : level = 0 ∨ level = 3 ∨ level = 4 ∨ level = 7 := by
    simp only [leftLevels, mem_cons, not_mem_nil, or_false] at hleft
    omega
  · obtain ⟨fuel, rfl⟩ := exists_succ_of_lt hfuel
    have hslack : slack 0 = slack (0 + 1) + 1 := rfl
    exact .bind (hparse fuel fuel (by omega) (Nat.le_refl fuel)) (.absent (hends.sub rfl) .pure)
  · obtain ⟨fuel, rfl⟩ := exists_succ_of_lt hfuel
    obtain ⟨x, ts, rfl⟩ := exists_cons_of_ne_nil hne
    have hslack : slack 3 = slack (3 + 1) + 1 := rfl
    exact .passed (hnot rfl x rfl) (hparse bound fuel (by omega) (by omega))
  · rw [levelParser, comparison]
    exact .bind (hparse bound fuel hfuel hbound) (.ite_false (.checkAny_ends (hends.sub rfl)) .pure)
  · exact hparse bound fuel hfuel hbound

theorem ReadsAt.lower (hle : level ≤ level') (hlevel : level' ≤ 8)
    (hnot : 4 ≤ level' → ∀ x ∈ ts.head?, x.kind ≠ .not) (hne : ts ≠ []) (h : ReadsAt level' e ts) :
    ReadsAt level e ts := by
  induction hle with
  | refl => exact h
  | @step level' hle ih =>
    have hlower := h.lower_succ (by omega) (fun _ => hnot (by omega)) hne
    exact ih (by omega) (fun _ => hnot (by omega)) hlower

/-! ## Indices -/

/-- The loop over indices goes on with an expression when it has read these tokens. -/
def Extends (e : Node) (ts : List Lexeme) : Prop :=
  ∀ (bound fuel c : Nat) (indices : List Node) (rest rest' : List Lexeme),
    ts.length ≤ fuel → fuel < bound → Ends [.lparen] rest →
    (∀ k, c ≤ k → Parses (brackets (expr bound) k) rest indices rest') →
    ∀ k, c + ts.length ≤ k + 1 →
      Parses (primary (expr bound) (cexpr (expr bound) fuel) fuel >>= fun v =>
        brackets (expr bound) k >>= fun is => pure (indexed v is)) (ts ++ rest)
          (indexed e indices) rest'

theorem Extends.of_primary (hne : ts ≠ [])
    (h : ∀ (bound fuel : Nat) (rest : List Lexeme), ts.length ≤ fuel → fuel < bound →
      Ends [.lparen] rest →
        Parses (primary (expr bound) (cexpr (expr bound) fuel) fuel) (ts ++ rest) e rest) :
    Extends e ts := by
  intro bound fuel c indices rest rest' hfuel hbound hends hbrackets k hk
  have hpos := length_pos_iff.2 hne
  exact .bind (h bound fuel rest hfuel hbound hends) (.bind (hbrackets k (by omega)) .pure)

theorem Extends.index {v i : Node} (hv : Extends v ts) (hi : ReadsAt 0 i ts') :
    Extends (.index [v] [i] none) (ts ++ .lbracket :: (ts' ++ [.rbracket])) := by
  intro bound fuel c indices rest rest' hfuel hbound hends hbrackets k hk
  simp only [length_append, length_cons, length_nil] at hfuel hk
  have hstep : ∀ k, c + 1 ≤ k → Parses (brackets (expr bound) k)
      (.lbracket :: (ts' ++ .rbracket :: rest)) (i :: indices) rest' := by
    intro k hk
    obtain ⟨k, rfl⟩ := exists_succ_of_lt hk
    refine .consumed rfl ?_
    refine .bind (hi.expr (by omega) (.cons rfl)) ?_
    exact .token rfl (.bind (hbrackets k (by omega)) .pure)
  rw [append_assoc, cons_append, append_assoc]
  exact hv bound fuel (c + 1) (i :: indices) _ rest' (by omega) hbound (.cons rfl) hstep k (by omega)

theorem Extends.readsAt (h : Extends e ts) : ReadsAt 8 e ts := by
  intro bound fuel rest hfuel hbound hends
  have hslack : slack 8 = 1 := rfl
  obtain ⟨fuel, rfl⟩ := exists_succ_of_lt hfuel
  refine h bound fuel 1 [] rest rest (by omega) (by omega) (hends.sub rfl)
    (fun k hk => ?_) fuel (by omega)
  obtain ⟨k, rfl⟩ := Nat.exists_eq_add_of_le' hk
  exact .absent (hends.sub rfl) .pure

theorem ReadsAt.extends_paren (h : ReadsAt 0 e ts) : Extends e (.lparen :: (ts ++ [.rparen])) := by
  refine .of_primary nofun fun bound _ rest hfuel _ _ => ?_
  simp only [length_append, length_cons, length_nil] at hfuel
  rw [cons_append, append_assoc]
  refine .passed nofun (.passed nofun ?_)
  refine .consumed rfl ?_
  exact .bind (h.expr (by omega) (.cons rfl)) (.token rfl .pure)

end

/-! ## Whole expressions -/

def beginnings : List TokenKind :=
  [.identifier, .true, .false, .lparen, .none, .string, .integer, .minus, .not, .lbracket]

/-- A row of tokens that begins like an expression; only those of the looser levels begin with a
negation. -/
def BeginsAt (level : Nat) (ts : List Lexeme) : Prop :=
  ∃ x xs, ts = x :: xs ∧ x.kind ∈ beginnings ∧ (4 ≤ level → x.kind ≠ .not)

theorem BeginsAt.ne_nil (h : BeginsAt level ts) : ts ≠ [] := by
  obtain ⟨x, _, rfl, -⟩ := h
  simp

theorem BeginsAt.head_ne_not (h : BeginsAt level ts) (hlevel : 4 ≤ level) :
    ∀ x ∈ ts.head?, x.kind ≠ .not := by
  obtain ⟨x, _, rfl, -, hnot⟩ := h
  rintro y ⟨⟩
  exact hnot hlevel

theorem BeginsAt.append (h : BeginsAt level ts) (hle : 4 ≤ level' → 4 ≤ level)
    (ts' : List Lexeme) : BeginsAt level' (ts ++ ts') := by
  obtain ⟨x, xs, rfl, hx, hnot⟩ := h
  exact ⟨x, xs ++ ts', rfl, hx, fun h => hnot (hle h)⟩

theorem BeginsAt.tokensAt (h : BeginsAt e.level e.tokens) : BeginsAt level (e.tokensAt level) := by
  rw [Node.tokensAt, enclosed]
  split
  · exact ⟨.lparen, _, rfl, by decide, fun _ => by decide⟩
  · obtain ⟨x, xs, heq, hx, hnot⟩ := h
    exact ⟨x, xs, heq, hx, fun h => hnot (by omega)⟩

theorem IsExpr.beginsAt (h : IsExpr e) : BeginsAt e.level e.tokens := by
  induction h with
  | @literal v =>
    have hmem := kind_literal_mem v
    refine ⟨_, _, rfl, ?_, fun _ hnot => ?_⟩
    · exact (show literalKinds ⊆ beginnings by decide) hmem
    · exact absurd (hnot ▸ hmem) (by decide)
  | name h =>
    exact ⟨_, _, rfl, by rw [kind_word_of_isName h]; decide, fun _ => by
      rw [kind_word_of_isName h]; decide⟩
  | not =>
    exact ⟨_, _, rfl, by decide, fun h => absurd h (by simp [level])⟩
  | minus =>
    rw [tokens]
    · exact ⟨_, _, rfl, by decide, fun _ => by decide⟩
    · decide
  | @binary op l r _ _ _ ihl _ =>
    refine (ihl.tokensAt : BeginsAt (leftLevel op) _).append (fun h => ?_) _
    simp only [level, leftLevel] at h ⊢
    split <;> omega
  | ifExpr _ _ _ _ iha _ =>
    exact (iha.tokensAt : BeginsAt 1 _).append (fun h => absurd h (by simp [level])) _
  | listExpr =>
    exact ⟨_, _, rfl, by decide, fun _ => by decide⟩
  | call hf =>
    exact ⟨_, _, rfl, by rw [kind_word_of_isName hf]; decide, fun _ => by
      rw [kind_word_of_isName hf]; decide⟩
  | index _ _ ihv _ =>
    exact (ihv.tokensAt : BeginsAt 8 _).append (fun _ => by decide) _

/-- An expression is read back at every level, and by the loops. -/
structure Reads (e : Node) : Prop where
  readsAt : ∀ level ≤ 8, ReadsAt level e (e.tokensAt level)
  joins : ∀ level ∈ leftLevels, Joins level e (e.tokensAt level)
  extending : Extends e (e.tokensAt 8)

section
variable {c a b : Node} {es : List Node} {x f : String}

theorem Node.tokensAt_zero (e : Node) : e.tokensAt 0 = e.tokens := by
  simp [tokensAt, enclosed]

theorem Reads.readsAt_zero (h : Reads e) : ReadsAt 0 e e.tokens :=
  e.tokensAt_zero ▸ h.readsAt 0 (Nat.zero_le 8)

theorem Reads.of_level (hbegins : BeginsAt e.level e.tokens) (hlevel : e.level ≤ 8)
    (hown : ReadsAt e.level e e.tokens) (hjoins : e.level ∈ leftLevels → Joins e.level e e.tokens)
    (hextends : e.level = 8 → Extends e e.tokens) : Reads e := by
  have hlower : ∀ level ≤ e.level, ReadsAt level e e.tokens := fun level hle =>
    hown.lower hle hlevel hbegins.head_ne_not hbegins.ne_nil
  have hparen : Extends e (.lparen :: (e.tokens ++ [.rparen])) :=
    (hlower 0 (Nat.zero_le _)).extends_paren
  have hreads : ∀ level ≤ 8, ReadsAt level e (e.tokensAt level) := by
    intro level hle
    rw [tokensAt, enclosed]
    split
    · refine hparen.readsAt.lower hle (Nat.le_refl 8) (fun _ => ?_) (by simp)
      rintro x ⟨⟩
      decide
    · exact hlower level (by omega)
  refine ⟨hreads, fun level hleft => ?_, ?_⟩
  · by_cases heq : e.level = level
    · subst heq
      rw [tokensAt, enclosed, if_neg (Nat.lt_irrefl _)]
      exact hjoins hleft
    · -- An operand of the loop is written in the same way one level further up.
      have hsame : e.tokensAt level = e.tokensAt (level + 1) := by
        simp only [tokensAt, enclosed]
        split <;> split <;> first | rfl | omega
      rw [hsame]
      exact (hreads (level + 1) (leftLevels_lt hleft)).joins
  · rw [tokensAt, enclosed]
    split
    · exact hparen
    · exact hextends (by omega)

theorem Reads.of_readsAt (level : Nat) (hbegins : BeginsAt e.level e.tokens)
    (hown : ReadsAt level e e.tokens) (heq : e.level = level)
    (hlevel : level ≤ 8 ∧ level ∉ leftLevels ∧ level ≠ 8 := by decide) : Reads e := by
  subst heq
  exact .of_level hbegins hlevel.1 hown (fun hleft => absurd hleft hlevel.2.1)
    fun h8 => absurd h8 hlevel.2.2

theorem Reads.of_extends (hbegins : BeginsAt e.level e.tokens) (hlevel : e.level = 8)
    (h : Extends e e.tokens) : Reads e := by
  refine .of_level hbegins (Nat.le_of_eq hlevel) ?_ (fun hleft => ?_) (fun _ => h)
  · rw [hlevel]
    exact h.readsAt
  · rw [hlevel] at hleft
    exact absurd hleft (by decide)

def afterArgs : List TokenKind :=
  .comma :: (beginnings ++ continuations 0)

theorem Ends.tokensOfRest (h : Ends afterArgs rest) :
    Ends (continuations 0) (tokensOfRest es ++ rest) := by
  cases es with
  | nil => exact h.sub rfl
  | cons => exact .cons rfl

theorem Parses.argRest {bound k : Nat} (h : ∀ e ∈ es, Reads e)
    (hbound : (tokensOfRest es).length + 2 ≤ bound) (hk : (tokensOfRest es).length < k)
    (hends : Ends afterArgs rest) :
    Parses (Standard.argRest (expr bound) k) (tokensOfRest es ++ rest) es rest := by
  induction es generalizing k with
  | nil =>
    obtain ⟨k, rfl⟩ := exists_succ_of_lt hk
    exact .absent (hends.sub rfl) .pure
  | cons e es ih =>
    obtain ⟨k, rfl⟩ := exists_succ_of_lt hk
    rw [tokensOfRest] at hbound hk ⊢
    simp only [length_cons, length_append] at hbound hk
    rw [cons_append, append_assoc]
    refine .consumed rfl ?_
    refine .bind ((h e (by simp)).readsAt_zero.expr (by omega) hends.tokensOfRest) ?_
    exact .bind (ih (fun e he => h e (by simp [he])) (by omega) (by omega)) .pure

theorem Parses.atExpr_pos (h : BeginsAt level ts) : Parses atExpr ts true ts := by
  obtain ⟨x, _, rfl, hx, -⟩ := h
  exact .checkAny_pos hx

theorem Parses.atExpr_ends (h : Ends beginnings ts) : Parses atExpr ts false ts :=
  .checkAny_ends h

theorem Parses.args {bound k : Nat} (hes : ∀ e ∈ es, IsExpr e) (h : ∀ e ∈ es, Reads e)
    (hk : (tokensOfAll es).length + 3 ≤ bound ∧ (tokensOfAll es).length < k)
    (hends : Ends afterArgs rest) :
    Parses (Standard.args (expr bound) k) (tokensOfAll es ++ rest) es rest := by
  cases es with
  | nil =>
    exact .ite_false (.atExpr_ends (hends.sub rfl)) .pure
  | cons e es =>
    rw [tokensOfAll] at hk ⊢
    simp only [length_append] at hk
    have hbegins := ((hes e (by simp)).beginsAt.append (fun h => h)
      (tokensOfRest es ++ rest) : BeginsAt e.level _)
    rw [append_assoc]
    refine .ite_true (.atExpr_pos hbegins) ?_
    refine .bind ((h e (by simp)).readsAt_zero.expr (by omega) hends.tokensOfRest) ?_
    exact .bind (.argRest (fun e he => h e (by simp [he])) (by omega) (by omega) hends) .pure

/-! ### The cases of the syntax -/

theorem Extends.literal {lit : Literal} (hlit : IsLiteral lit) :
    Extends (.literal lit none) [.literal lit] := by
  refine .of_primary nofun fun _ _ _ _ _ _ => ?_
  have hkind : ∀ kind, kind ∉ literalKinds → (Lexeme.literal lit).kind ≠ kind :=
    fun kind hkind heq => hkind (heq ▸ kind_literal_mem lit)
  refine .passed (hkind _ (by decide)) ?_
  refine .passed (hkind _ (by decide)) ?_
  refine .passed (hkind _ (by decide)) ?_
  exact .passed (hkind _ (by decide)) (.literal hlit)

theorem Extends.name (hx : IsName x) : Extends (.name x none) [.word x] := by
  refine .of_primary nofun fun _ _ _ _ _ hends => ?_
  have hkind := kind_word_of_isName hx
  refine .taken hkind (.expect hkind fun t ht => ?_)
  rw [spelling_of_lexeme ht]
  exact .absent (hends.sub rfl) .pure

theorem Extends.call (hf : IsName f) (hes : ∀ e ∈ es, IsExpr e) (h : ∀ e ∈ es, Reads e) :
    Extends (.call f es none) (.word f :: .lparen :: (tokensOfAll es ++ [.rparen])) := by
  refine .of_primary nofun fun _ _ rest hfuel _ _ => ?_
  simp only [length_append, length_cons, length_nil] at hfuel
  have hkind := kind_word_of_isName hf
  rw [cons_append, cons_append, append_assoc]
  refine .taken hkind (.expect hkind fun t ht => ?_)
  rw [spelling_of_lexeme ht]
  refine .consumed rfl ?_
  refine .bind (.args hes h (by omega) (.cons rfl)) ?_
  exact .ite_false (.atExpr_ends (.cons rfl)) (.token rfl .pure)

theorem Extends.listExpr (hes : ∀ e ∈ es, IsExpr e) (h : ∀ e ∈ es, Reads e) :
    Extends (.listExpr es none) (.lbracket :: (tokensOfAll es ++ [.rbracket])) := by
  refine .of_primary nofun fun _ _ rest hfuel _ _ => ?_
  simp only [length_append, length_cons, length_nil] at hfuel
  rw [cons_append, append_assoc]
  refine .passed nofun (.taken rfl ?_)
  refine .token rfl (.bind (.args hes h (by omega) (.cons rfl)) ?_)
  exact .ite_false (.atExpr_ends (.cons rfl)) (.token rfl .pure)

theorem ReadsAt.minus (h : Reads e) : ReadsAt 7 (.unary "-" [e] none) (.minus :: e.tokensAt 7) := by
  intro bound fuel rest hfuel hbound hends
  rw [length_cons] at hfuel
  obtain ⟨fuel, rfl⟩ := Nat.exists_eq_add_of_le' (Nat.le_trans (Nat.le_add_left 2 _) hfuel)
  refine .bind (show Parses _ _ (.unary "-" [e] none) rest from ?_) ?_
  · refine .passed nofun (.passed nofun ?_)
    refine .passed nofun (.taken rfl ?_)
    refine .token rfl (.bind ?_ .pure)
    exact h.readsAt 7 (by omega) bound (fuel + 1) rest (by omega) (by omega) hends
  · refine .bind (show Parses _ rest [] rest from ?_) .pure
    exact .absent (hends.sub rfl) .pure

theorem ReadsAt.not (h : Reads e) :
    ReadsAt 3 (.unary "not" [e] none) (.word "not" :: e.tokensAt 3) := by
  intro bound fuel rest hfuel hbound hends
  rw [length_cons] at hfuel
  obtain ⟨fuel, rfl⟩ := exists_succ_of_lt hfuel
  refine .taken rfl (.token rfl (.bind ?_ .pure))
  exact h.readsAt 3 (by omega) bound fuel rest (by omega) (by omega) hends

theorem ReadsAt.comparison (hop : operatorKind op ∈ comparisons) (hl : Reads l) (hr : Reads r) :
    ReadsAt 4 (.binary op [l] [r] none)
      (l.tokensAt 5 ++ ⟨operatorKind op, .word op⟩ :: r.tokensAt 5) := by
  intro bound fuel rest hfuel hbound hends
  have hslack : slack 4 = 1 ∧ slack 5 = 1 := ⟨rfl, rfl⟩
  simp only [length_append, length_cons] at hfuel
  have hnext : Ends (continuations 5) (⟨operatorKind op, .word op⟩ :: (r.tokensAt 5 ++ rest)) :=
    fun hmem => absurd hop ((by decide : ∀ k ∈ continuations 5, k ∉ comparisons) _ hmem)
  rw [append_assoc]
  refine .bind (hl.readsAt 5 (by omega) bound fuel _ (by omega) hbound hnext) ?_
  refine .ite_true (.checkAny_pos hop) (.advance fun t ht => ?_)
  refine .bind (hr.readsAt 5 (by omega) bound fuel rest (by omega) hbound
    (hends.mono (continuations_subset (by omega)))) ?_
  rw [spelling_of_lexeme ht]
  exact .ite_false (.checkAny_ends (hends.sub rfl)) .pure

theorem ReadsAt.ifExpr (hc : Reads c) (ha : Reads a) (hb : Reads b) :
    ReadsAt 0 (.ifExpr [c] [a] [b] none)
      (a.tokensAt 1 ++ .word "if" :: (c.tokens ++ .word "else" :: b.tokens)) := by
  intro bound fuel rest hfuel hbound hends
  have hslack : slack 0 = 3 ∧ slack 1 = 2 := ⟨rfl, rfl⟩
  simp only [length_append, length_cons] at hfuel
  obtain ⟨fuel, rfl⟩ := exists_succ_of_lt hfuel
  rw [append_assoc, cons_append, append_assoc]
  refine .bind (ha.readsAt 1 (by omega) fuel fuel _ (by omega) (Nat.le_refl fuel) (.cons rfl)) ?_
  refine .consumed rfl ?_
  refine .bind (hc.readsAt_zero.expr (by omega) (.cons rfl)) ?_
  exact .token rfl (.bind (hb.readsAt_zero.expr (by omega) hends) .pure)

theorem operatorLevel_cases (hop : op ∈ operators) :
    operatorLevel op = 4 ∧ operatorKind op ∈ comparisons ∨
      operatorLevel op ∈ leftLevels ∧ operatorKind op ∈ joiners (operatorLevel op) ∧
        operatorKind op ∉ continuations (operatorLevel op + 1) := by
  revert op
  decide

theorem Reads.binary (hop : op ∈ operators) (hl : Reads l) (hr : Reads r)
    (hbegins : BeginsAt (operatorLevel op) (Node.binary op [l] [r] none).tokens) :
    Reads (.binary op [l] [r] none) := by
  have htokens : (Node.binary op [l] [r] none).tokens =
      l.tokensAt (leftLevel op) ++ ⟨operatorKind op, .word op⟩ :: r.tokensAt (rightLevel op) := by
    rfl
  rcases operatorLevel_cases hop with ⟨hlevel, hkind⟩ | ⟨hleft, hkind, hends⟩
  · have hown : ReadsAt (operatorLevel op) (.binary op [l] [r] none)
        (Node.binary op [l] [r] none).tokens := by
      rw [htokens, leftLevel, rightLevel, hlevel]
      exact .comparison hkind hl hr
    exact .of_readsAt 4 hbegins (hlevel ▸ hown) hlevel
  · have hlt := leftLevels_lt hleft
    have hne : operatorLevel op ≠ 4 := fun h4 => absurd (h4 ▸ hleft) (by decide)
    have hjoins : Joins (operatorLevel op) (.binary op [l] [r] none)
        (Node.binary op [l] [r] none).tokens := by
      rw [htokens, leftLevel, if_neg hne]
      exact (hl.joins _ hleft).binary hkind hends (hr.readsAt _ hlt)
    exact .of_level hbegins (Nat.le_of_lt hlt) (hjoins.readsAt hleft) (fun _ => hjoins)
      (fun h8 => absurd h8 (Nat.ne_of_lt hlt))

/-- The parser reads every expression back from its tokens. -/
theorem IsExpr.reads (h : IsExpr e) : Reads e := by
  induction h with
  | literal hv => exact .of_extends (literal hv).beginsAt rfl (.literal hv)
  | name hx => exact .of_extends (name hx).beginsAt rfl (.name hx)
  | not he ih =>
    refine .of_readsAt 3 (not he).beginsAt ?_ (by simp [level])
    rw [tokens]
    exact .not ih
  | minus he ih =>
    refine .of_readsAt 7 (minus he).beginsAt ?_ (by simp [level])
    rw [tokens]
    · exact .minus ih
    · decide
  | binary hop hl hr ihl ihr => exact .binary hop ihl ihr (binary hop hl hr).beginsAt
  | ifExpr hc ha hb ihc iha ihb =>
    refine .of_readsAt 0 (ifExpr hc ha hb).beginsAt ?_ (by simp [level])
    rw [tokens]
    exact .ifExpr ihc iha ihb
  | listExpr hes ih =>
    refine .of_extends (listExpr hes).beginsAt rfl ?_
    exact .listExpr hes ih
  | call hf hes ih =>
    refine .of_extends (call hf hes).beginsAt rfl ?_
    exact .call hf hes ih
  | index hv hi ihv ihi =>
    refine .of_extends (index hv hi).beginsAt rfl ?_
    exact ihv.extending.index ihi.readsAt_zero

end

end Practicum.Choco
