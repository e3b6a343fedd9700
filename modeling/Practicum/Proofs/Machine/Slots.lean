import Practicum.Proofs.Machine.Execution
import Practicum.Proofs.Machine.Linking

/-!
# Values in slots

A function keeps its values in the slots of its frame. All that a run of the operations knows is
found in the slots, and memory outside the slots is what the operations see.
-/

namespace Practicum.Machine

open IR Riscv Assembly Option Register Memory Access

namespace Access

/-- The address of the slot of a value: in the own frame if it has a slot there, and in the frame of
main if not. -/
def address? (a : Access) (sp tp : Word) (id : Nat) : Option Word :=
  match a.own.slots.idxOf? id with
  | some pos => some (sp + wordOf (4 * pos))
  | none => (a.main.bind fun f => f.slots.idxOf? id).map fun pos : Nat => tp + wordOf (4 * pos)

def top (a : Access) : Nat :=
  4 * (a.own.slots.length + a.own.allocs.length)

/-- The bytes of slots and of the return address. -/
def reserves (a : Access) (sp tp b : Word) : Bool :=
  decide (Covers sp (4 * a.own.slots.length) b) || (decide (Covers (sp + wordOf a.top) 4 b) ||
      a.main.any fun f => decide (Covers tp (4 * f.slots.length) b))

structure Fits (a : Access) : Prop where
  slots : encodable a.own.slotBytes
  memory : encodable a.own.allocBytes
  allocs : ∀ id ∈ a.own.allocs, encodable (a.own.allocOffset id)
  main : ∀ f, a.main = some f → ∀ pos < f.slots.length, encodable (4 * pos)

/-- The own frame is not over the slots of main. -/
def Apart (a : Access) (sp tp : Word) : Prop :=
  ∀ f, a.main = some f → ∀ b, Covers sp (a.top + 4) b → ¬Covers tp (4 * f.slots.length) b

end Access

theorem wordOf_four_mul (n : Nat) : wordOf (4 * n) = BitVec.ofNat 32 (4 * n) := by
  rfl

theorem encodable_iff {n : Int} : encodable n ↔ -2048 ≤ n ∧ n < 2048 := by
  simp [Riscv.encodable]

theorem eq_of_slotOffset {pos : Nat} {offset : Int} (h : slotOffset pos = .ok offset) :
    offset = 4 * pos := by
  unfold slotOffset at h
  split at h <;> cases h
  rfl

section
variable {a : Access} {sp tp ra : Word} {values : Values} {m : Memory} {c : Core}

namespace Access.Fits

theorem four_mul_slots_lt (h : a.Fits) : 4 * a.own.slots.length < 2048 := by
  have := (encodable_iff.mp h.slots).2
  unfold Frame.slotBytes at this
  omega

theorem top_lt (h : a.Fits) : a.top < 4096 := by
  have := h.four_mul_slots_lt
  have := (encodable_iff.mp h.memory).2
  unfold Frame.allocBytes at this
  unfold top
  omega

theorem four_mul_main_le (h : a.Fits) {f : Frame} (hf : a.main = some f) :
    4 * f.slots.length ≤ 2048 := by
  cases hn : f.slots.length with
  | zero => omega
  | succ n =>
    have := (encodable_iff.mp (h.main f hf n (by omega))).2
    omega

end Access.Fits

variable {id pos k : Nat} {b x base : Word} {q : Register} {xs : List Nat}

theorem lt_of_idxOf? {x : Nat} (h : xs.idxOf? x = some pos) : pos < xs.length :=
  (List.idxOf?_eq_some_iff.mp h).1

theorem eq_of_idxOf? {x y : Nat} (hx : xs.idxOf? x = some pos) (hy : xs.idxOf? y = some pos) :
    x = y := by
  obtain ⟨_, hx, -⟩ := List.idxOf?_eq_some_iff.mp hx
  obtain ⟨_, hy, -⟩ := List.idxOf?_eq_some_iff.mp hy
  rw [← hx, hy]

theorem address?_cases (h : a.address? sp tp id = some x) :
    (∃ pos, a.own.slots.idxOf? id = some pos ∧ x = sp + BitVec.ofNat 32 (4 * pos)) ∨
      ∃ f pos, a.main = some f ∧ f.slots.idxOf? id = some pos ∧
        x = tp + BitVec.ofNat 32 (4 * pos) := by
  unfold address? at h
  split at h
  next pos hpos =>
    cases h
    exact .inl ⟨pos, hpos, by rw [wordOf_four_mul]⟩
  · obtain ⟨pos, hpos, rfl⟩ := map_eq_some_iff.mp h
    obtain ⟨f, hf, hpos⟩ := bind_eq_some_iff.mp hpos
    exact .inr ⟨f, pos, hf, hpos, by rw [wordOf_four_mul]⟩

theorem covers_slot_iff (h : 4 * pos + 4 ≤ 2 ^ 32) : Covers (base + BitVec.ofNat 32 (4 * pos)) 4 b ↔
      4 * pos ≤ (b - base).toNat ∧ (b - base).toNat < 4 * pos + 4 :=
  covers_add_iff h

theorem covers_of_slot {n : Nat} (hpos : pos < n) (hn : 4 * n ≤ 4096)
    (h : Covers (base + BitVec.ofNat 32 (4 * pos)) 4 b) : Covers base (4 * n) b := by
  rw [covers_slot_iff (by omega)] at h
  unfold Covers
  omega

theorem reserves_of_address? (hfits : a.Fits)
    (hx : a.address? sp tp id = some x) (hb : Covers x 4 b) : a.reserves sp tp b = true := by
  have htop := hfits.four_mul_slots_lt
  obtain ⟨pos, hpos, rfl⟩ | ⟨f, pos, hf, hpos, rfl⟩ := address?_cases hx
  · have := covers_of_slot (lt_of_idxOf? hpos) (by omega) hb
    simp [reserves, this]
  · have hmain := hfits.four_mul_main_le hf
    have := covers_of_slot (lt_of_idxOf? hpos) (by omega) hb
    simp [reserves, hf, this]

theorem covers_top_iff (hfits : a.Fits) :
    Covers (sp + wordOf a.top) 4 b ↔ a.top ≤ (b - sp).toNat ∧ (b - sp).toNat < a.top + 4 := by
  have := hfits.top_lt
  exact covers_add_iff (by omega)

theorem not_covers_top (hfits : a.Fits) (hapart : a.Apart sp tp)
    (hx : a.address? sp tp id = some x) (hb : Covers x 4 b) : ¬Covers (sp + wordOf a.top) 4 b := by
  have hslots := hfits.four_mul_slots_lt
  rw [covers_top_iff hfits]
  obtain ⟨pos, hpos, rfl⟩ | ⟨f, pos, hf, hpos, rfl⟩ := address?_cases hx
  · have := lt_of_idxOf? hpos
    rw [covers_slot_iff (by omega)] at hb
    unfold top
    omega
  · have hmain := hfits.four_mul_main_le hf
    have hb := covers_of_slot (lt_of_idxOf? hpos) (by omega) hb
    intro h
    refine hapart f hf b ?_ hb
    unfold Covers
    omega

theorem not_covers_of_ne (hfits : a.Fits) (hapart : a.Apart sp tp) {r : Nat}
    (hr : a.own.slots.idxOf? r = some pos) (hx : a.address? sp tp id = some x) (hne : id ≠ r)
    (hb : Covers x 4 b) : ¬Covers (sp + BitVec.ofNat 32 (4 * pos)) 4 b := by
  have hslots := hfits.four_mul_slots_lt
  have hpos := lt_of_idxOf? hr
  obtain ⟨pos', hpos', rfl⟩ | ⟨f, pos', hf, hpos', rfl⟩ := address?_cases hx
  · have := lt_of_idxOf? hpos'
    have hpos_ne : pos ≠ pos' := fun h => hne (eq_of_idxOf? hpos' (h ▸ hr))
    rw [covers_slot_iff (by omega)] at hb ⊢
    omega
  · have hmain := hfits.four_mul_main_le hf
    have hb := covers_of_slot (lt_of_idxOf? hpos') (by omega) hb
    rw [covers_slot_iff (by omega)]
    intro h
    refine hapart f hf b ?_ hb
    unfold Covers top
    omega

/-! ## Arguments -/

theorem ne_of_argument? (h : argument? k = some q) : .zero ≠ q ∧ .sp ≠ q ∧ .tp ≠ q := by
  unfold argument? at h
  split at h
  · cases h
    simp [zero, sp, tp, Fin.ext_iff]
    omega
  · cases h

theorem argument?_injective {j : Nat} (hj : argument? j = some q)
    (hk : argument? k = some q) : j = k := by
  unfold argument? at hj hk
  split at hj
  · split at hk
    · simpa using hj.trans hk.symm
    · cases hk
  · cases hj

/-- Words stand in the registers of the arguments from a position on. -/
def InRegisters (k : Nat) (words : List Word) (c : Core) : Prop :=
  ∀ j w, words[j]? = some w → ∃ q, argument? (k + j) = some q ∧ c.get q = w

def Values.bind (values : Values) (args : List Val) (words : List Word) : Values :=
  (args.zip words).foldl (fun values entry => values.set entry.1.id entry.2) values

/-! ## Registers and slots -/

/-- The registers and the memory hold what a run of the operations knows: the stack pointers are in
place, every value is in its slot, memory outside the slots is what the operations see, and the
return address is kept. -/
structure Mirrors (a : Access) (sp tp ra : Word) (values : Values) (m : Memory) (c : Core) :
    Prop where
  ownPointer : c.get .sp = sp
  mainPointer : c.get .tp = tp
  held : ∀ id w x, values id = some w → a.address? sp tp id = some x → c.memory.word x = w
  shared : ∀ b, a.reserves sp tp b = false → c.memory b = m b
  saved : c.memory.word (sp + wordOf a.top) = ra

namespace Mirrors

theorem set (h : Mirrors a sp tp ra values m c) {r : Register} (w : Word)
    (hsp : .sp ≠ r := by decide) (htp : .tp ≠ r := by decide) :
    Mirrors a sp tp ra values m (c.set r w) where
  ownPointer := (Core.get_set_of_ne hsp).trans h.ownPointer
  mainPointer := (Core.get_set_of_ne htp).trans h.mainPointer
  held := h.held
  shared := h.shared
  saved := h.saved

variable {rs : Register} {ls : List Line} {vs : List Val} {words : List Word}

variable (hfits : a.Fits) (h : Mirrors a sp tp ra values m c)
include hfits h

theorem fetch {v : Val} {rd : Register}
    {l : Line} {w : Word} (hl : a.fetch (some v) rd = .ok l) (hv : values v.id = some w) :
    l.move? c = some (c.set rd w) := by
  have hslots := hfits.four_mul_slots_lt
  unfold Access.fetch at hl
  simp only [bind_some] at hl
  split at hl
  next pos hpos =>
    obtain ⟨_, hoffset, hl⟩ := of_bind hl
    cases eq_of_slotOffset hoffset
    cases hl
    have haddress : a.address? sp tp v.id = some (sp + wordOf (4 * pos)) := by
      rw [Access.address?, hpos]
    have hword := h.held v.id w _ hv haddress
    have := lt_of_idxOf? hpos
    have hencodable : encodable (4 * pos) := encodable_iff.mpr (by omega)
    rw [move?_lw hencodable, h.ownPointer, hword]
  next hnone =>
    split at hl
    next pos hpos =>
      obtain ⟨f, hf, hpos⟩ := bind_eq_some_iff.mp hpos
      obtain ⟨_, hoffset, hl⟩ := of_bind hl
      cases eq_of_slotOffset hoffset
      cases hl
      have haddress : a.address? sp tp v.id = some (tp + wordOf (4 * pos)) := by
        rw [Access.address?, hnone]
        simp [hf, hpos]
      have hword := h.held v.id w _ hv haddress
      have hencodable := hfits.main f hf pos (lt_of_idxOf? hpos)
      rw [move?_lw hencodable, h.mainPointer, hword]
    · cases hl

theorem store {w : Word} {n : Nat} (hfree : ∀ b, Covers x n b → a.reserves sp tp b = false) :
    Mirrors a sp tp ra values (m.write x n w) { c with memory := c.memory.write x n w } := by
  refine ⟨h.ownPointer, h.mainPointer, fun id w' y hw' hy => ?_, fun b hb => ?_, ?_⟩
  · rw [← h.held id w' y hw' hy]
    refine word_congr fun b hb => write_of_not_covers fun hcovers => ?_
    have := hfree b hcovers
    rw [reserves_of_address? hfits hy hb] at this
    cases this
  · simp only [write]
    rw [h.shared b hb]
  · rw [← h.saved]
    refine word_congr fun b hb => write_of_not_covers fun hcovers => ?_
    have := hfree b hcovers
    simp [reserves, hb] at this

theorem fetchArgs (hls : a.fetchArgs k vs = .ok ls) (hwords : vs.mapM (fun v => values v.id) = some words) :
    ∃ c', Carries ls c c' ∧ Mirrors a sp tp ra values m c' ∧ InRegisters k words c' ∧
      ∀ q, (∀ j, k ≤ j → j < k + words.length → argument? j ≠ some q) → c'.get q = c.get q := by
  induction vs generalizing k ls words c with
  | nil =>
    cases hls
    cases hwords
    exact ⟨c, .nil c, h, fun j w hw => by simp at hw, fun q _ => rfl⟩
  | cons v vs ih =>
    obtain ⟨w, words, hw, hrest, rfl⟩ := Env.of_mapM_cons hwords
    unfold fetchArgs at hls
    split at hls
    next r hr =>
      obtain ⟨l, ls, hl, hls', hls⟩ := of_bind₂ hls
      cases hls
      obtain ⟨hzero, hsp, htp⟩ := ne_of_argument? hr
      obtain ⟨c', hcarries, hmirrors, hin, hkept⟩ := ih (h.set w hsp htp) hls' hrest
      have hlater : ∀ j, k + 1 ≤ j → j < k + 1 + words.length → argument? j ≠ some r := by
        intro j hj _ hjr
        have := argument?_injective hjr hr
        omega
      refine ⟨c', .cons (h.fetch hfits hl hw) hcarries, hmirrors, ?_, ?_⟩
      · intro j w' hw'
        cases j with
        | zero =>
          cases hw'
          exact ⟨r, hr, (hkept r hlater).trans (Core.get_set_self hzero.symm)⟩
        | succ j =>
          obtain ⟨q, hq, hget⟩ := hin j w' hw'
          exact ⟨q, by rw [← hq]; congr 1; omega, hget⟩
      · intro q hq
        have hne : q ≠ r := fun heq => hq k le_rfl (by simp) (heq ▸ hr)
        have hrest : ∀ j, k + 1 ≤ j → j < k + 1 + words.length → argument? j ≠ some q :=
          fun j hj _ => hq j (by omega) (by rw [List.length_cons]; omega)
        rw [hkept q hrest, Core.get_set_of_ne hne]
    · cases hls

variable (hapart : a.Apart sp tp)
include hapart

theorem write (hpos : a.own.slots.idxOf? id = some pos) (w : Word) :
    Mirrors a sp tp ra (values.set id w) m
      { c with memory := c.memory.write (sp + wordOf (4 * pos)) 4 w } := by
  have haddress : a.address? sp tp id = some (sp + wordOf (4 * pos)) := by
    rw [address?, hpos]
  refine ⟨h.ownPointer, h.mainPointer, fun id' w' x hw' hx => ?_, fun b hb => ?_, ?_⟩
  · unfold Env.set at hw'
    split at hw'
    next heq =>
      cases hw'
      rw [heq, haddress] at hx
      cases hx
      exact word_write
    next hne =>
      rw [← h.held id' w' x hw' hx]
      refine word_congr fun b hb => write_of_not_covers ?_
      exact not_covers_of_ne hfits hapart hpos hx hne hb
  · rw [← h.shared b hb]
    refine write_of_not_covers fun hcovers => ?_
    rw [reserves_of_address? hfits haddress hcovers] at hb
    cases hb
  · rw [← h.saved]
    refine word_congr fun b hb => write_of_not_covers fun hcovers => ?_
    exact not_covers_top hfits hapart haddress hcovers hb

theorem spill {v : Val} {l : Line} (hl : a.spill rs v = .ok l) :
    ∃ c', l.move? c = some c' ∧ Mirrors a sp tp ra (values.set v.id (c.get rs)) m c' ∧
      c'.regs = c.regs := by
  have hslots := hfits.four_mul_slots_lt
  unfold Access.spill at hl
  split at hl
  next pos hpos =>
    obtain ⟨_, hoffset, hl⟩ := of_bind hl
    cases eq_of_slotOffset hoffset
    cases hl
    have := lt_of_idxOf? hpos
    have hencodable : encodable (4 * pos) := encodable_iff.mpr (by omega)
    refine ⟨_, ?_, h.write hfits hapart hpos (c.get rs), rfl⟩
    rw [move?_sw hencodable, h.ownPointer]
  · cases hl

theorem spills {results : List Val} {values' : Values} (hls : results.mapM (a.spill rs) = .ok ls)
    (hvalues : values.define? results (some (c.get rs)) = some values') :
    ∃ c', Carries ls c c' ∧ Mirrors a sp tp ra values' m c' := by
  obtain ⟨rfl, rfl⟩ | ⟨r, w, rfl, hw, rfl⟩ := Env.define?_cases hvalues
  · cases hls
    exact ⟨c, .nil c, h⟩
  · cases hw
    obtain ⟨l, hl, hls⟩ := of_bind (List.mapM_cons (m := Except Fault) ▸ hls)
    cases hls
    obtain ⟨c', hmove, hmirrors, -⟩ := h.spill hfits hapart hl
    exact ⟨c', .single hmove, hmirrors⟩

theorem spillArgs (hls : a.spillArgs k vs = .ok ls) (hlength : words.length = vs.length)
    (hwords : InRegisters k words c) :
    ∃ c', Carries ls c c' ∧ Mirrors a sp tp ra (values.bind vs words) m c' := by
  induction vs generalizing k ls words c values with
  | nil =>
    cases hls
    exact ⟨c, .nil c, h⟩
  | cons v vs ih =>
    obtain ⟨w, words, rfl⟩ := List.exists_cons_of_length_eq_add_one hlength
    unfold spillArgs at hls
    split at hls
    next r hr =>
      obtain ⟨l, ls, hl, hls', hls⟩ := of_bind₂ hls
      cases hls
      obtain ⟨q, hq, hw⟩ := hwords 0 w rfl
      obtain rfl : q = r := Option.some.inj (hq.symm.trans hr)
      obtain ⟨c1, hmove, hmirrors, hregs⟩ := h.spill hfits hapart hl
      rw [hw] at hmirrors
      have hrest : InRegisters (k + 1) words c1 := by
        intro j w' hw'
        obtain ⟨q, hq, hget⟩ := hwords (j + 1) w' hw'
        refine ⟨q, by rw [← hq]; congr 1; omega, ?_⟩
        rw [← hget, Core.get, Core.get, hregs]
      obtain ⟨c', hcarries, hmirrors⟩ := ih hmirrors hls' (by simpa using hlength) hrest
      exact ⟨c', .cons hmove hcarries, hmirrors⟩
    · cases hls

end Mirrors

end

end Practicum.Machine
