import Practicum.Decimal
import Practicum.Fault

/-!
# Templates

A template is a text with a place for a value. A place begins with a percent sign; flags, a width,
a precision and the letter of a form follow. Two percent signs stand for one. The value must be
used exactly once: as what is written in the place, or as its width or precision.
-/

namespace Practicum.Text

structure Filling where
  text? : Option String := none
  number? : Option Int := none
  shown : String
  quoted : String

namespace Template

structure Place where
  left : Bool := false
  sign : Bool := false
  blank : Bool := false
  alternate : Bool := false
  zero : Bool := false
  width : Nat := 0
  precision : Option Nat := none

def Place.withFlag (p : Place) : Char → Place
  | '-' => { p with left := true }
  | '+' => { p with sign := true }
  | ' ' => { p with blank := true }
  | '#' => { p with alternate := true }
  | '0' => { p with zero := true }
  | _ => p

structure Progress where
  rest : List Char
  used : Bool := false

abbrev Step := StateT Progress (Except Fault)

def next : Step Char := do
  match (← get).rest with
  | [] => throw .badValue
  | c :: cs =>
    modify fun s => { s with rest := cs }
    return c

def nextWhile (p : Char → Bool) : Step (List Char) := do
  let (taken, rest) := (← get).rest.span p
  modify fun s => { s with rest }
  return taken

def nextIs (c : Char) : Step Bool := do
  match (← get).rest with
  | d :: cs =>
    if d = c then
      modify fun s => { s with rest := cs }
      return true
    else return false
  | [] => return false

def use (f : Filling) : Step Filling := do
  if (← get).used then throw .wrongKind
  modify fun s => { s with used := true }
  return f

/-- A number of a place below a bound: the value itself where a star stands, or else digits. -/
def measure? (f : Filling) (bound : Nat) : Step (Option Int) := do
  if ← nextIs '*' then
    match (← use f).number? with
    | none => throw .wrongKind
    | some n =>
      if -(bound : Int) ≤ n && n < bound then return some n else throw .overflow
  else
    match ← nextWhile Char.isDigit with
    | [] => return none
    | ds =>
      let n := ds.foldl (fun n d => 10 * n + (d.toNat - 48)) 0
      if n < bound then return some n else throw .badValue

def place (f : Filling) : Step Place := do
  if (← get).rest.head? = some '(' then throw .wrongKind
  let flags ← nextWhile fun c => c = '-' || c = '+' || c = ' ' || c = '#' || c = '0'
  let p := flags.foldl Place.withFlag {}
  let p ← match ← measure? f 0x8000000000000000 with
    | none => pure p
    | some w => pure { p with width := w.natAbs, left := p.left || w < 0 }
  let p ← if ← nextIs '.' then
      pure { p with precision := some ((← measure? f 0x80000000).getD 0).toNat }
    else pure p
  match (← get).rest with
  | 'h' :: cs | 'l' :: cs | 'L' :: cs => modify fun s => { s with rest := cs }
  | _ => pure ()
  return p

def fill (c : Char) (count : Nat) : String :=
  String.ofList (List.replicate count c)

def Place.justify (p : Place) (text : String) : String :=
  let room := fill ' ' (p.width - text.length)
  if p.left then text ++ room else room ++ text

/-- A number in the width of a place: its sign, the mark of its base and its digits. -/
def Place.justifyNumber (p : Place) (negative : Bool) (mark digits : String) : String :=
  let front := (if negative then "-" else if p.sign then "+" else if p.blank then " " else "") ++ mark
  if p.zero && !p.left then
    front ++ fill '0' (p.width - front.length - digits.length) ++ digits
  else p.justify (front ++ digits)

def Place.cut (p : Place) (text : String) : String :=
  match p.precision with
  | none => text
  | some k => String.ofList (text.toList.take k)

/-- A whole number in a base, with at least as many digits as the precision of a place says. -/
def Place.whole (p : Place) (base : Nat) (mark : String) (n : Int) : String :=
  let digits := String.ofList (Nat.toDigits base n.natAbs)
  p.justifyNumber (n < 0) (if p.alternate then mark else "")
    (fill '0' (p.precision.getD 0 - digits.length) ++ digits)

def asciiOnly (quoted : String) : String :=
  String.join (quoted.toList.map fun c => if c.toNat < 128 then c.toString else escaped c)

def charOf (f : Filling) : Except Fault String :=
  match f.text?, f.number? with
  | some s, _ => if s.length = 1 then .ok s else .error .wrongKind
  | none, some n =>
    if 0 ≤ n && n < 0x110000 then .ok (Char.ofNat n.toNat).toString else .error .overflow
  | none, none => .error .wrongKind

def Place.write (p : Place) (f : Filling) (letter : Char) : Except Fault String :=
  let number (g : Int → Except Fault String) : Except Fault String :=
    match f.number? with
    | some n => g n
    | none => .error .wrongKind
  let float (g : Nat → String) : Except Fault String := number fun n =>
    match Decimal.nearestFloat? n.natAbs with
    | some m => .ok (p.justifyNumber (n < 0) "" (g m))
    | none => .error .overflow
  let places := p.precision.getD 6
  match letter with
  | 's' => .ok (p.justify (p.cut f.shown))
  | 'r' => .ok (p.justify (p.cut f.quoted))
  | 'a' => .ok (p.justify (p.cut (asciiOnly f.quoted)))
  | 'd' | 'i' | 'u' => number fun n => .ok ({ p with alternate := false }.whole 10 "" n)
  | 'o' => number fun n => .ok (p.whole 8 "0o" n)
  | 'x' => number fun n => .ok (p.whole 16 "0x" n)
  | 'X' => number fun n => .ok (p.whole 16 "0x" n).toUpper
  | 'f' | 'F' => float (Decimal.wholeFixed p.alternate places)
  | 'e' => float (Decimal.scientific p.alternate places)
  | 'E' => float fun n => (Decimal.scientific p.alternate places n).toUpper
  | 'g' => float (Decimal.general p.alternate places)
  | 'G' => float fun n => (Decimal.general p.alternate places n).toUpper
  | 'c' => do return p.justify (← charOf f)
  | _ => .error .badValue

/-- Fill the places of a template, of which at most `count` characters are looked at one by one. -/
def fillPlaces (f : Filling) : Nat → Step String
  | 0 => return ""
  | count + 1 => do
    let plain ← nextWhile (· != '%')
    if ← nextIs '%' then
      let written ← if ← nextIs '%' then pure "%" else do
        let p ← place f
        let letter ← next
        let f ← use f
        p.write f letter
      return String.ofList plain ++ written ++ (← fillPlaces f count)
    else return String.ofList plain

end Template

def fillTemplate (template : String) (f : Filling) : Except Fault String := do
  let (text, s) ← (Template.fillPlaces f (template.length + 1)).run { rest := template.toList }
  if s.used then .ok text else .error .wrongKind

end Practicum.Text
