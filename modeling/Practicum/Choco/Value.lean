import Practicum.Text.Template

/-!
# Values

The values that a compiler computes with in advance. Truth values count as the integers zero and
one wherever a number is expected.
-/

namespace Practicum.Choco

inductive Value where
  | none
  | bool (b : Bool)
  | int (n : Int)
  | str (s : String)
  deriving DecidableEq, Repr

namespace Value

def number? : Value → Option Int
  | .bool b => some (if b then 1 else 0)
  | .int n => some n
  | _ => Option.none

def truthy : Value → Bool
  | .none => false
  | .bool b => b
  | .int n => n != 0
  | .str s => s != ""

def equal (a b : Value) : Bool :=
  match a.number?, b.number? with
  | some m, some n => m == n
  | _, _ => a == b

/-- Whether two values that were made separately are one and the same: small integers and strings
of at most one Latin character are, other numbers and strings are not. -/
def identical : Value → Value → Bool
  | .none, .none => true
  | .bool a, .bool b => a == b
  | .int a, .int b => a == b && -5 ≤ a && a ≤ 256
  | .str a, .str b => a == b && (a == "" || (a.length == 1 && a.toList.all fun c => c.toNat < 256))
  | _, _ => false

def compareBy (ints : Int → Int → Bool) (strs : String → String → Bool) (a b : Value) :
    Except Fault Value :=
  match a, b with
  | .str s, .str t => .ok (.bool (strs s t))
  | _, _ =>
    match a.number?, b.number? with
    | some m, some n => .ok (.bool (ints m n))
    | _, _ => .error .wrongKind

def arith (f : Int → Int → Except Fault Int) (a b : Value) : Except Fault Value :=
  match a.number?, b.number? with
  | some m, some n => (f m n).map .int
  | _, _ => .error .wrongKind

def repeated (s : String) (n : Int) : Value :=
  .str (String.join (List.replicate n.toNat s))

def add (a b : Value) : Except Fault Value :=
  match a, b with
  | .str s, .str t => .ok (.str (s ++ t))
  | _, _ => arith (fun m n => .ok (m + n)) a b

def mul (a b : Value) : Except Fault Value :=
  match a, b with
  | .str s, _ =>
    match b.number? with
    | some n => .ok (repeated s n)
    | Option.none => .error .wrongKind
  | _, .str t =>
    match a.number? with
    | some n => .ok (repeated t n)
    | Option.none => .error .wrongKind
  | _, _ => arith (fun m n => .ok (m * n)) a b

def floorDiv (a b : Value) : Except Fault Value :=
  arith (fun m n => if n = 0 then .error .divisionByZero else .ok (m.fdiv n)) a b

def filling : Value → Text.Filling
  | .none => { shown := "None", quoted := "None" }
  | .bool b =>
    let shown := if b then "True" else "False"
    { number? := some (if b then 1 else 0), shown, quoted := shown }
  | .int n => { number? := some n, shown := toString n, quoted := toString n }
  | .str s => { text? := some s, shown := s, quoted := Text.quote s }

/-- Remainder of numbers, with the sign of the divisor; a string is a template for the other
value. -/
def modulo (a b : Value) : Except Fault Value :=
  match a with
  | .str s => (Text.fillTemplate s b.filling).map .str
  | _ => arith (fun m n => if n = 0 then .error .divisionByZero else .ok (m.fmod n)) a b

def binary (op : String) (a b : Value) : Except Fault Value :=
  match op with
  | "+" => add a b
  | "-" => arith (fun m n => .ok (m - n)) a b
  | "*" => mul a b
  | "//" => floorDiv a b
  | "%" => modulo a b
  | "==" => .ok (.bool (equal a b))
  | "!=" => .ok (.bool (!equal a b))
  | "<" => compareBy (fun m n => m < n) (fun s t => s < t) a b
  | ">" => compareBy (fun m n => n < m) (fun s t => t < s) a b
  | "<=" => compareBy (fun m n => m ≤ n) (fun s t => !(t < s)) a b
  | ">=" => compareBy (fun m n => n ≤ m) (fun s t => !(s < t)) a b
  | "is" => .ok (.bool (identical a b))
  | "and" => .ok (if a.truthy then b else a)
  | "or" => .ok (if a.truthy then a else b)
  | _ => .error .badValue

end Value

end Practicum.Choco
