import Practicum.Text.Characters

/-!
# Decimals

A number with a fixed number of decimal places is the nearest one of its grid; a half goes to the
even neighbour.
-/

namespace Practicum.Decimal

/-! ## Binary floating point numbers -/

inductive Binary where
  | finite (negative : Bool) (mantissa : Nat) (exponent : Int)
  | infinite (negative : Bool)
  | nan
  deriving DecidableEq, Repr

namespace Binary

def leastNormal : Nat := 0x10000000000000

def ofBits (bits : Nat) : Binary :=
  let negative := bits / (2048 * leastNormal) % 2 = 1
  let exponent : Nat := bits / leastNormal % 2048
  let fraction := bits % leastNormal
  if exponent = 2047 then if fraction = 0 then infinite negative else nan
  else if exponent = 0 then finite negative fraction (-1074)
  else finite negative (leastNormal + fraction) ((exponent : Int) - 1075)

def ofFloat (x : Float) : Binary :=
  ofBits x.toBits.toNat

def fraction (mantissa : Nat) (exponent : Int) : Nat × Nat :=
  if 0 ≤ exponent then (mantissa * Nat.pow 2 exponent.toNat, 1)
  else (mantissa, Nat.pow 2 (-exponent).toNat)

def toRat? : Binary → Option Rat
  | finite negative mantissa exponent =>
    let (num, den) := fraction mantissa exponent
    some (mkRat (if negative then -(num : Int) else num) den)
  | _ => none

end Binary

def roundDiv (num den : Nat) : Nat :=
  let q := num / den
  let r := num % den
  if 2 * r < den || (2 * r = den && q % 2 = 0) then q else q + 1

def padded (width n : Nat) : String :=
  let digits := toString n
  String.ofList (List.replicate (width - digits.length) '0') ++ digits

def fixed (places : Nat) (negative : Bool) (num den : Nat) : String :=
  let n := roundDiv (num * Nat.pow 10 places) den
  let whole := toString (n / Nat.pow 10 places)
  let text := if places = 0 then whole else whole ++ "." ++ padded places (n % Nat.pow 10 places)
  if negative then "-" ++ text else text

def Binary.fixed (places : Nat) : Binary → String
  | finite negative mantissa exponent =>
    let (num, den) := fraction mantissa exponent
    Decimal.fixed places negative num den
  | infinite negative => if negative then "-inf" else "inf"
  | nan => "nan"

/-! ## Significant digits -/

def nearestFloat? (n : Nat) : Option Nat :=
  let unit := Nat.pow 2 (Nat.log2 n + 1 - 53)
  let m := roundDiv n unit * unit
  if m < Nat.pow 2 1024 then some m else none

def significant (count n : Nat) : String × Nat :=
  let exponent := (toString n).length - 1
  if exponent < count then (toString n ++ String.ofList (List.replicate (count - 1 - exponent) '0'), exponent)
  else
    let d := roundDiv n (Nat.pow 10 (exponent + 1 - count))
    if d < Nat.pow 10 count then (toString d, exponent)
    else (toString (d / 10), exponent + 1)

def pointed (keepPoint : Bool) (whole places : List Char) : String :=
  if places.isEmpty && !keepPoint then String.ofList whole
  else String.ofList (whole ++ '.' :: places)

def wholeFixed (keepPoint : Bool) (places n : Nat) : String :=
  pointed keepPoint (toString n).toList (List.replicate places '0')

def exponentText (e : Nat) : String :=
  "e+" ++ padded 2 e

def scientific (keepPoint : Bool) (places n : Nat) : String :=
  let (digits, e) := significant (places + 1) n
  pointed keepPoint (digits.toList.take 1) (digits.toList.drop 1) ++ exponentText e

def withoutZeros (ds : List Char) : List Char :=
  (ds.reverse.dropWhile (· == '0')).reverse

/-- A whole number with at most `count` significant digits, without an exponent if that is below
`count`. Zeros at the end of its places are dropped, unless the point is to be kept. -/
def general (keepPoint : Bool) (count n : Nat) : String :=
  let (digits, e) := significant (max count 1) n
  let before := if e < max count 1 then e + 1 else 1
  let places := digits.toList.drop before
  let text := pointed keepPoint (digits.toList.take before)
    (if keepPoint then places else withoutZeros places)
  if e < max count 1 then text else text ++ exponentText e

/-!
## Shortest decimals

A floating point number is written with the fewest digits that read back to it. The reals that
round to `m * 2 ^ q` form an interval around it, with its ends if and only if `m` is even.
-/

structure Scaled where
  digits : Nat
  exponent : Int
  deriving DecidableEq, Repr

def scaledBy (base n : Nat) (exponent : Int) : Nat × Nat :=
  if 0 ≤ exponent then (n * Nat.pow base exponent.toNat, 1)
  else (n, Nat.pow base (-exponent).toNat)

def fractionLe (a b : Nat × Nat) : Bool :=
  a.1 * b.2 ≤ b.1 * a.2

/-- Whether a decimal rounds to `m * 2 ^ q`. Below the smallest mantissa the gap to the next
smaller number is half as wide. -/
def readsBack (m : Nat) (q : Int) (d : Scaled) : Bool :=
  let x := scaledBy 10 (4 * d.digits) d.exponent
  let low := scaledBy 2 (4 * m - (if m = Binary.leastNormal && -1074 < q then 1 else 2)) q
  let high := scaledBy 2 (4 * m + 2) q
  if m % 2 = 0 then fractionLe low x && fractionLe x high
  else !fractionLe x low && !fractionLe high x

def leadingExponent (num den : Nat) : Int :=
  let length (n : Nat) : Int := (Nat.toDigits 10 n).length
  if den ≤ num then length (num / den) - 1
  else
    let below := length (den / num)
    if den ≤ num * Nat.pow 10 (below - 1).toNat then -(below - 1) else -below

def neighbours (num den : Nat) (exponent : Int) : List Scaled :=
  let (num, den) :=
    if 0 ≤ exponent then (num, den * Nat.pow 10 exponent.toNat)
    else (num * Nat.pow 10 (-exponent).toNat, den)
  let floor := num / den
  let near := roundDiv num den
  let far := if near = floor then floor + 1 else floor
  [⟨near, exponent⟩, ⟨far, exponent⟩]

def shortest (m : Nat) (q : Int) : Scaled :=
  let (num, den) := Binary.fraction m q
  let lead := leadingExponent num den
  let found := (List.range 17).findSome? fun (n : Nat) =>
    (neighbours num den (lead - n)).find? (readsBack m q)
  found.getD ⟨roundDiv (num * Nat.pow 10 (16 - lead).toNat) den, lead - 16⟩

def Scaled.strip (d : Scaled) : Scaled :=
  let digits := Nat.toDigits 10 d.digits
  let zeros := (digits.reverse.takeWhile (· = '0')).length
  ⟨d.digits / Nat.pow 10 zeros, d.exponent + zeros⟩

/-- The text of a decimal: positional if the exponent of its leading digit lies from -4 to 15, with
at least one digit behind the point; otherwise with an exponent of at least two digits. -/
def Scaled.text (d : Scaled) : String :=
  let d := d.strip
  let digits := Nat.toDigits 10 d.digits
  let lead := d.exponent + digits.length - 1
  let zeros (n : Int) : List Char := List.replicate n.toNat '0'
  let chars :=
    if lead < -4 ∨ 16 ≤ lead then
      let point := if digits.length = 1 then [] else '.' :: digits.drop 1
      let sign := if lead < 0 then '-' else '+'
      digits.take 1 ++ point ++ ['e', sign] ++ (padded 2 lead.natAbs).toList
    else if lead < 0 then '0' :: '.' :: zeros (-lead - 1) ++ digits
    else if 0 ≤ d.exponent then digits ++ zeros d.exponent ++ ['.', '0']
    else digits.take (lead + 1).toNat ++ '.' :: digits.drop (lead + 1).toNat
  String.ofList chars

def Binary.text : Binary → String
  | finite negative mantissa exponent =>
    let magnitude := if mantissa = 0 then "0.0" else (shortest mantissa exponent).text
    if negative then "-" ++ magnitude else magnitude
  | infinite negative => if negative then "-inf" else "inf"
  | nan => "nan"

/-!
## Reading

A decimal has digits with or without a point, and an optional exponent; single underscores may
divide its digits. There are also names for infinity and for what is no number.
-/

open Text

def spanDigits (cs : List Char) : List Char × List Char :=
  cs.span fun c => (digitValue? c).isSome || c = '_'

def digits? (cs : List Char) : Option (List Nat) := do
  (← joinDigits? cs).mapM digitValue?

def exponent? : List Char → Option Int
  | [] => some 0
  | c :: rest => do
    guard (c = 'e' || c = 'E')
    let (negative, cs) := splitSign rest
    let digits ← digits? cs
    guard !digits.isEmpty
    let n : Nat := digits.foldl (fun n d => 10 * n + d) 0
    return if negative then -(n : Int) else n

def ofScaled (mantissa : Nat) (exponent : Int) : Float :=
  let length : Int := (Nat.toDigits 10 mantissa).length
  if mantissa = 0 then 0
  else if 400 < exponent + length then 1 / 0
  else if exponent + length < -400 then 0
  else if 0 ≤ exponent then Float.ofScientific mantissa false exponent.toNat
  else Float.ofScientific mantissa true (-exponent).toNat

def readMagnitude? (cs : List Char) : Option Float := do
  let name := String.ofList (cs.map Char.toLower)
  if name = "inf" || name = "infinity" then return 1 / 0
  if name = "nan" then return 0 / 0
  let (whole, rest) := spanDigits cs
  let (fraction, rest) :=
    match rest with
    | '.' :: rest => spanDigits rest
    | rest => ([], rest)
  let whole ← digits? whole
  let fraction ← digits? fraction
  guard !(whole.isEmpty && fraction.isEmpty)
  let exponent ← exponent? rest
  let mantissa := (whole ++ fraction).foldl (fun n d => 10 * n + d) 0
  return ofScaled mantissa (exponent - fraction.length)

def read? (s : String) : Option Float := do
  let (negative, cs) := splitSign (trimBlanks s.toList)
  let x ← readMagnitude? cs
  return if negative then -x else x

end Practicum.Decimal
