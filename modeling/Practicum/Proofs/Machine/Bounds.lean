import Practicum.Proofs.Machine.Hiding

/-!
# Bounds of lists and strings

The code for an element of a list or a string first looks whether the position lies in it. The
position is compared by the number that follows it, so the test misses the largest of all words: the
number that follows that one is negative.
-/

namespace Practicum.Machine

open IR Riscv Flat

def OutOfBounds (i : Word) (length : Nat) : Prop :=
  i.toInt < 0 ∨ (length : Int) ≤ i.toInt

instance (i : Word) (length : Nat) : Decidable (OutOfBounds i length) :=
  inferInstanceAs (Decidable (_ ∨ _))

/-- The code for an element of a list or of a string. -/
inductive Indexes (v i : Val) : Emit Code → Prop where
  | list : Indexes v i (getAddress v i)
  | string : Indexes v i (indexString v i)

/-- The place of the address of the element among the values that the code defines. -/
def addressValue (n : Nat) : Val :=
  ⟨n + 20, .register⟩

/-- What the code is for: its value is the address, or it goes on with the element there. -/
def UsesAddress (c : Code) (address : Val) : Prop :=
  c.value = some address ∨ ∃ o, c.ops[12]? = some o ∧ o.machine? = some (.load .lw (word 0)) ∧
    o.operands = [address]

theorem Indexes.checks {v i : Val} {e : Emit Code} (h : Indexes v i e) (n : Nat) :
    UsesAddress (e.run n).1 (addressValue n) ∧
      ∃ notes rest, (e.run n).1.ops = ((elementAddress v i notes).run n).1.1 ++ rest := by
  cases h with
  | list => exact ⟨.inl rfl, {}, [], (List.append_nil _).symm⟩
  | string => exact ⟨.inr ⟨_, rfl, rfl, rfl⟩, _, _, rfl⟩

theorem tested_iff {i : Word} {length : Nat} (h : length < 2 ^ 29) :
    (i.slt 0 || (BitVec.ofNat 32 length).slt (i + 1)) = true ↔
      OutOfBounds i length ∧ i.toInt ≠ 2 ^ 31 - 1 := by
  have hlength : (BitVec.ofNat 32 length).toInt = length := by
    rw [BitVec.toInt_ofNat', Int.bmod_def]
    omega
  have hi : i.toInt < 2 ^ 31 := by simpa using BitVec.toInt_lt (x := i)
  have hi' : -2 ^ 31 ≤ i.toInt := by simpa using BitVec.le_toInt i
  have hnext : (i + 1).toInt = if i.toInt = 2 ^ 31 - 1 then -2 ^ 31 else i.toInt + 1 := by
    rw [BitVec.toInt_add, show (1 : Word).toInt = 1 from rfl, Int.bmod_def]
    split <;> omega
  rw [Bool.or_eq_true, BitVec.slt_iff_toInt_lt, BitVec.slt_iff_toInt_lt, hlength, hnext,
    show (0 : Word).toInt = 0 from rfl, OutOfBounds]
  split <;> omega

section
variable {ω : Type} {E : Surroundings ω} {s : Store ω} {base i : Word} {length : Nat}

theorem run_element (hbase : base ≠ 0) (hfree : E.free base 4)
    (hlength : s.memory.word base = BitVec.ofNat 32 length) (hlt : length < 2 ^ 29) :
    ∃ trace, (Act.element E base i).run s = if OutOfBounds i length ∧ i.toInt ≠ 2 ^ 31 - 1 then
        .error (.failed "_list_index_oob" { s with trace })
      else .ok (base + 4 * (i + 1), { s with trace }) := by
  refine ⟨s.trace ++ [.load .lw base (s.memory.word base)], ?_⟩
  rw [Act.element, if_neg hbase, StateT.run_bind]
  have hread : (Act.read E base).run s = .ok (BitVec.ofNat 32 length,
      { s with trace := s.trace ++ [.load .lw base (s.memory.word base)] }) := by
    rw [← hlength]
    exact if_pos hfree
  rw [hread]
  by_cases htest : OutOfBounds i length ∧ i.toInt ≠ 2 ^ 31 - 1
  · have hor := (tested_iff hlt).mpr htest
    rw [if_pos htest]
    exact congrArg (fun x : Act ω Word => x.run _) (if_pos hor)
  · have hor := mt (tested_iff hlt).mp htest
    rw [if_neg htest, BitVec.mul_comm]
    exact congrArg (fun x : Act ω Word => x.run _) (if_neg hor)

/-- For a list or a string of known length the code leads to the label for a position out of bounds
exactly if the position is out of bounds and not the largest of all words. Otherwise it goes on
behind the tests, with the address of the element, and neither way does it change memory. -/
theorem leaves_iff_out_of_bounds {v iv : Val} {e : Emit Code} (he : Indexes v iv e)
    {exit : String} {body : List Op} {k n : Nat} {values : Values}
    (hfits : E.fits 0 ∧ E.fits 1) (hexit : exit ≠ "_list_index_oob")
    (hlabel : labelIndex? body "_list_index_oob" = none)
    (hstands : StandsAt body k (e.run n).1.ops) (hv : values v.id = some base)
    (hi : values iv.id = some i) (hnv : v.id < n) (hni : iv.id < n) (hbase : base ≠ 0)
    (hfree : E.free base 4) (hlength : s.memory.word base = BitVec.ofNat 32 length)
    (hlt : length < 2 ^ 29) :
    UsesAddress (e.run n).1 (addressValue n) ∧ ∃ j place values' trace,
      Goes E exit body k (k + 12) j (stateOf (.at k) values s)
        (stateOf place values' { s with trace }) ∧
      ((OutOfBounds i length ∧ i.toInt ≠ 2 ^ 31 - 1) ∧ place = .outside "_list_index_oob" ∨
        (¬OutOfBounds i length ∨ i.toInt = 2 ^ 31 - 1) ∧ place = .at (k + 12) ∧
          values' (addressValue n).id = some (base + 4 * (i + 1))) := by
  obtain ⟨huses, notes, rest, hops⟩ := he.checks n
  refine ⟨huses, ?_⟩
  rw [hops] at hstands
  obtain ⟨trace, hrun⟩ := run_element (i := i) hbase hfree hlength hlt
  have hrow : Performs E (((elementAddress v iv notes).run n).1.1 ++ []) values s
      (Act.element E base i >>= pure) (fun w values' => values' (n + 20) = some w)
      fun _ => True :=
    performs_element [] notes hfits hv hi (.inl hnv) (.inl hni) (fun _ _ => trivial)
      fun _ _ _ hw _ _ => .done hw
  rw [bind_pure, List.append_nil, Performs, hrun] at hrow
  by_cases htest : OutOfBounds i length ∧ i.toInt ≠ 2 ^ 31 - 1
  · rw [if_pos htest] at hrow
    obtain ⟨values', hrow, -⟩ := hrow
    have hplace : behind? exit body "_list_index_oob" = some (.outside "_list_index_oob") := by
      simp [behind?, hlabel, hexit.symm]
    obtain ⟨j, hgoes, -⟩ := goes_of_runRow hstands.left hrow hplace
    exact ⟨j, _, values', trace, hgoes, .inl ⟨htest, rfl⟩⟩
  · rw [if_neg htest] at hrow
    obtain ⟨values', hrow, haddress⟩ := hrow
    obtain ⟨j, hgoes, -⟩ := goes_of_runRow hstands.left hrow (show _ = some (.at (k + 12)) from rfl)
    exact ⟨j, _, values', trace, hgoes, .inr ⟨by tauto, rfl, haddress⟩⟩

end

namespace Three

/-- Surroundings in which nothing is reserved and nothing is served. -/
def around : Surroundings Unit where
  slot _ := 0
  reserved _ := false
  fits := encodable
  serve _ _ _ _ := none

def store : Store Unit where
  memory := Memory.write (fun _ => 0) 4096 4 3
  world := ()
  trace := []

def list : Val := ⟨0, .register⟩

def position : Val := ⟨1, .register⟩

def values (i : Word) : Values :=
  (Env.set (fun _ => none) 0 4096).set 1 i

def code : List Op :=
  ((getAddress list position).run 2).1.ops

theorem leaves_iff_out_of_bounds_third : OutOfBounds 3 3 ∧
    UsesAddress ((getAddress list position).run 2).1 (addressValue 2) ∧ ∃ j place values' trace,
      Goes around "" code 0 12 j (stateOf (.at 0) (values 3) store)
        (stateOf place values' { store with trace }) ∧
      ((OutOfBounds 3 3 ∧ (3 : Word).toInt ≠ 2 ^ 31 - 1) ∧ place = .outside "_list_index_oob" ∨
        (¬OutOfBounds 3 3 ∨ (3 : Word).toInt = 2 ^ 31 - 1) ∧ place = .at 12 ∧
          values' 22 = some (4096 + 4 * (3 + 1))) :=
  ⟨by decide, leaves_iff_out_of_bounds .list ⟨rfl, rfl⟩ (by decide) (by decide)
    ⟨[], [], (List.append_nil _).symm, rfl⟩ rfl rfl (by decide) (by decide) (by decide) (by decide)
    (by decide) (by decide)⟩

/-- The largest of all words is out of bounds, and yet the code goes on, to the address of the
length. -/
theorem largest_accepted : OutOfBounds (2 ^ 31 - 1) 3 ∧ store.memory.word 4096 = 3 ∧
    ∃ values' s' j, Goes around "" code 0 12 j (stateOf (.at 0) (values (2 ^ 31 - 1)) store)
      (stateOf (.at 12) values' s') ∧ values' 22 = some 4096 := by
  refine ⟨by decide, by decide, ?_⟩
  have hrow : ∃ values' s', runRow? around code (values (2 ^ 31 - 1)) store =
      some (.on values' s') ∧ values' 22 = some 4096 := ⟨_, _, rfl, by decide⟩
  obtain ⟨values', s', hrow, haddress⟩ := hrow
  have hstands : StandsAt code 0 code := ⟨[], [], (List.append_nil _).symm, rfl⟩
  obtain ⟨j, hgoes, -⟩ := goes_of_runRow hstands hrow (show _ = some (.at 12) from rfl)
  exact ⟨values', s', j, hgoes, haddress⟩

end Three

end Practicum.Machine
