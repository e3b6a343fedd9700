import Practicum.Net.Bytes
import Practicum.Text.Characters

/-!
# Networks

A network is the set of the addresses of a family whose leading bits are given. It is written as
those bits, read as a number, so that every value of the type is a network in normal form. The zone
of its lowest address is kept with it.
-/

namespace Practicum.Net

/-!
## Addresses

An Internet address is a number of 32 bits, or of 128 bits in the second family, where it may also
name a zone, the link on which it is meant.
-/

inductive Family where
  | v4
  | v6
  deriving DecidableEq, Repr

def Family.bits : Family → Nat
  | .v4 => 32
  | .v6 => 128

structure Address where
  family : Family
  value : Nat
  zone : Option String
  value_lt : value < Nat.pow 2 family.bits
  zone_v4 : family = .v4 → zone = none
  deriving DecidableEq, Repr

namespace Address

def ofNat (family : Family) (n : Nat) : Address :=
  ⟨family, n % Nat.pow 2 family.bits, none, Nat.mod_lt _ (Nat.two_pow_pos _), fun _ => rfl⟩

def inZone (zone : Option String) (n : Nat) : Address :=
  ⟨.v6, n % Nat.pow 2 Family.v6.bits, zone, Nat.mod_lt _ (Nat.two_pow_pos _), nofun⟩

instance : Inhabited Address := ⟨ofNat .v4 0⟩

def ofBytes (bytes : Bytes) : Address :=
  ofNat .v4 bytes.toNat

def toBytes (a : Address) : Bytes :=
  Bytes.ofNat (a.family.bits / 8) a.value

end Address

structure Network where
  family : Family
  length : Nat
  lead : Nat
  zone : Option String
  length_le : length ≤ family.bits
  lead_lt : lead < Nat.pow 2 length
  zone_v4 : family = .v4 → zone = none
  deriving Repr

namespace Network

instance : DecidableEq Network := fun m n =>
  decidable_of_iff
    (m.family = n.family ∧ m.length = n.length ∧ m.lead = n.lead ∧ m.zone = n.zone)
    ⟨fun h => by
      cases m
      cases n
      obtain ⟨rfl, rfl, rfl, rfl⟩ := h
      rfl,
    fun h => by
      subst h
      exact ⟨rfl, rfl, rfl, rfl⟩⟩

def hostBits (n : Network) : Nat :=
  n.family.bits - n.length

theorem first_lt (n : Network) : n.lead * Nat.pow 2 n.hostBits < Nat.pow 2 n.family.bits := by
  simp only [Nat.pow_eq]
  have h : n.length + n.hostBits = n.family.bits := Nat.add_sub_of_le n.length_le
  rw [← h, Nat.pow_add]
  exact Nat.mul_lt_mul_of_pos_right n.lead_lt (Nat.two_pow_pos _)

def first (n : Network) : Address :=
  ⟨n.family, n.lead * Nat.pow 2 n.hostBits, n.zone, n.first_lt, n.zone_v4⟩

def contains (n : Network) (a : Address) : Bool :=
  n.family = a.family && a.value / Nat.pow 2 n.hostBits = n.lead

theorem lead_around_lt (a : Address) (length : Nat) (h : length ≤ a.family.bits) :
    a.value / Nat.pow 2 (a.family.bits - length) < Nat.pow 2 length := by
  simp only [Nat.pow_eq]
  rw [Nat.div_lt_iff_lt_mul (Nat.two_pow_pos _), ← Nat.pow_add, Nat.add_sub_of_le h]
  exact a.value_lt

/-- The zone of an address, if it is the lowest one of its network. -/
def zoneAround (a : Address) (length : Nat) : Option String :=
  if a.value % Nat.pow 2 (a.family.bits - length) = 0 then a.zone else none

theorem zoneAround_v4 (a : Address) (length : Nat) (h : a.family = .v4) :
    zoneAround a length = none := by
  unfold zoneAround
  split
  · exact a.zone_v4 h
  · rfl

def around (a : Address) (length : Nat) (h : length ≤ a.family.bits) : Network :=
  { family := a.family
    length
    lead := a.value / Nat.pow 2 (a.family.bits - length)
    zone := zoneAround a length
    length_le := h
    lead_lt := lead_around_lt a length h
    zone_v4 := zoneAround_v4 a length }

def only (a : Address) : Network :=
  around a a.family.bits (Nat.le_refl _)

/-- The network with one leading bit fewer, in no zone; the network of all addresses stays. -/
def widen (n : Network) : Network :=
  if h : n.length = 0 then n
  else
    { family := n.family
      length := n.length - 1
      lead := n.lead / 2
      zone := none
      zone_v4 := fun _ => rfl
      length_le := Nat.le_trans (Nat.sub_le _ _) n.length_le
      lead_lt := by
        have hpow : ∀ k, k ≠ 0 → Nat.pow 2 k = Nat.pow 2 (k - 1) * 2 := by
          intro k hk
          cases k with
          | zero => exact absurd rfl hk
          | succ k => rfl
        have hlead := n.lead_lt
        rw [hpow n.length h] at hlead
        omega }

theorem length_widen (n : Network) : n.widen.length = n.length - 1 := by
  unfold widen
  split <;> simp_all

@[simp]
theorem contains_around (a : Address) (length : Nat) (h : length ≤ a.family.bits) :
    (around a length h).contains a = true := by
  simp [contains, around, hostBits]

end Network

/-!
## Addresses and networks as text

An address of the second family is written without its longest run of two or more zero groups, the
first one of equals. A network is its lowest address, a slash and the number of leading bits, or an
address that marks them.
-/

def groups (width : Nat) : Nat → Nat → List Nat
  | 0, _ => []
  | count + 1, n => groups width count (n / Nat.pow 2 width) ++ [n % Nat.pow 2 width]

def ofGroups (width : Nat) (gs : List Nat) : Nat :=
  gs.foldl (fun n g => n * Nat.pow 2 width + g) 0

def longestZeroRun (gs : List Nat) : Nat × Nat :=
  let longer (best : Nat × Nat) (start : Nat) : Nat × Nat :=
    let length := ((gs.drop start).takeWhile (· == 0)).length
    if best.2 < length then (start, length) else best
  (List.range gs.length).foldl longer (0, 0)

namespace Address

def groupsText (gs : List Nat) : String :=
  let written (part : List Nat) : String := ":".intercalate (part.map (Text.hex 1))
  let (start, length) := longestZeroRun gs
  if 2 ≤ length then written (gs.take start) ++ "::" ++ written (gs.drop (start + length))
  else written gs

def text (a : Address) : String :=
  match a.family with
  | .v4 => ".".intercalate ((groups 8 4 a.value).map toString)
  | .v6 => groupsText (groups 16 8 a.value) ++ (a.zone.map ("%" ++ ·)).getD ""

def readOctet? (s : String) : Option Nat :=
  if s.isEmpty || !s.all Char.isDigit || (2 ≤ s.length && s.front = '0') then none
  else
    match s.toNat? with
    | some n => if n ≤ 255 then some n else none
    | none => none

def readOctets? (s : String) : Option Nat :=
  let parts := s.splitOn "."
  if parts.length = 4 then (parts.mapM readOctet?).map (ofGroups 8) else none

def hexDigit? (c : Char) : Option Nat :=
  if c.isDigit then some (c.toNat - '0'.toNat)
  else if 'a' ≤ c && c ≤ 'f' then some (c.toNat - 'a'.toNat + 10)
  else if 'A' ≤ c && c ≤ 'F' then some (c.toNat - 'A'.toNat + 10)
  else none

def readGroup? (s : String) : Option Nat :=
  if s.isEmpty || 4 < s.length then none else (s.toList.mapM hexDigit?).map (ofGroups 4)

/-- The parts of a text between colons. A last part with points holds four bytes and stands for
two groups. -/
def colonParts? (s : String) : Option (List String) :=
  let parts := s.splitOn ":"
  match parts.getLast? with
  | some last =>
    if last.contains '.' then
      (readOctets? last).map fun n =>
        parts.dropLast ++ [Text.hex 1 (n / 0x10000), Text.hex 1 (n % 0x10000)]
    else some parts
  | none => none

def readGroups? (s : String) : Option Nat := do
  let parts ← colonParts? s
  guard (3 ≤ parts.length && parts.length ≤ 9)
  let gaps := (List.range parts.length).filter fun i =>
    1 ≤ i && i + 1 < parts.length && parts[i]? = some ""
  match gaps with
  | [] =>
    guard (parts.length = 8)
    (parts.mapM readGroup?).map (ofGroups 16)
  | [gap] =>
    let high := parts.take gap
    let low := parts.drop (gap + 1)
    let high := if high = [""] then [] else high
    let low := if low = [""] then [] else low
    guard (high.length + low.length ≤ 7)
    let high ← high.mapM readGroup?
    let low ← low.mapM readGroup?
    return ofGroups 16 (high ++ List.replicate (8 - (high.length + low.length)) 0 ++ low)
  | _ => none

def readInZone? (s : String) : Option Address :=
  match s.splitOn "%" with
  | [groups] => (readGroups? groups).map (inZone none)
  | [groups, zone] =>
    if zone.isEmpty || zone.contains '/' then none else (readGroups? groups).map (inZone zone)
  | _ => none

def read? (s : String) : Option Address :=
  match readOctets? s with
  | some n => some (ofNat .v4 n)
  | none => readInZone? s

end Address

namespace Network

def text (n : Network) : String :=
  n.first.text ++ "/" ++ toString n.length

def leadingOnes (length : Nat) : Nat :=
  Nat.pow 2 32 - Nat.pow 2 (32 - length)

/-- The number of leading bits that an address of the first family marks: those that are ones, or
else those that are zeros. -/
def maskLength? (mask : Nat) : Option Nat :=
  let lengths := List.range 33
  (lengths.find? fun k => mask = leadingOnes k).or
    (lengths.find? fun k => mask = Nat.pow 2 32 - 1 - leadingOnes k)

def readLength? (family : Family) (s : String) : Option Nat :=
  if !s.isEmpty && s.all Char.isDigit then s.toNat?
  else
    match family with
    | .v4 => (Address.readOctets? s).bind maskLength?
    | .v6 => none

/-- Reads a network. The address before the slash has to be its lowest one. -/
def read? (s : String) : Option Network :=
  match s.splitOn "/" with
  | [a, length] => do
    let a ← Address.read? a
    let length ← readLength? a.family length
    if h : length ≤ a.family.bits then
      let n := around a length h
      if n.first = a then return n else none
    else none
  | _ => none

end Network

end Practicum.Net
