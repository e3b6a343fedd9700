import Practicum.Proofs.Flat.Evaluation
import Practicum.Proofs.Machine.Execution

/-!
# Flat operations on words

What the operations of the flat level without control flow do when values are words of the machine.
A truth value is zero or one and the absent value is zero; a list or a string is the address of its
length, which its elements follow.
-/

namespace Practicum.Flat

open IR Riscv Machine

structure Store (ω : Type) where
  memory : Memory
  world : ω
  trace : List Event

/-- Why an operation gives nothing: it ends at a label for failures, or it has no meaning. -/
inductive Stop (ω : Type) where
  | failed (label : String) (s : Store ω)
  | stuck

abbrev Act (ω : Type) := StateT (Store ω) (Except (Stop ω))

def truth? (w : Word) : Option Bool :=
  if w = 0 then some false else if w = 1 then some true else none

namespace Act

variable {ω : Type} (E : Surroundings ω)

def stuck {α : Type} : Act ω α :=
  throw .stuck

def fail {α : Type} (label : String) : Act ω α :=
  fun s => .error (.failed label s)

def read (a : Word) : Act ω Word := fun s =>
  if E.free a 4 then
    .ok (s.memory.word a, { s with trace := s.trace ++ [.load .lw a (s.memory.word a)] })
  else .error .stuck

def write (a w : Word) : Act ω Unit := fun s =>
  if E.free a 4 then
    .ok ((), { s with memory := s.memory.write a 4 w, trace := s.trace ++ [.store .sw a w] })
  else .error .stuck

def call (func : String) (args : List Word) : Act ω Word := fun s =>
  match E.serve (.call func) args s.memory s.world with
  | some (w, memory, world) =>
    .ok (w, { memory, world, trace := s.trace ++ [.ask (.call func) args w] })
  | none => .error .stuck

/-- Store words one after the other, from the given position of a block on. -/
def fill (a : Word) : Nat → List Word → Act ω Unit
  | _, [] => return ()
  | k, w :: ws => do
    write E (a + wordOf (4 * (k + 1))) w
    fill a (k + 1) ws

/-- A new block on the heap with the given words, their number first. -/
def block (ws : List Word) : Act ω Word := do
  let a ← call E "_malloc" [wordOf (ws.length * 4 + 4)]
  write E a (wordOf ws.length)
  fill E a 0 ws
  return a

def length (v : Word) : Act ω Word :=
  if v = 0 then fail "_error_len_none" else read E v

def element (v i : Word) : Act ω Word :=
  if v = 0 then fail "_list_index_none"
  else do
    let n ← read E v
    if i.slt 0 || n.slt (i + 1) then fail "_list_index_oob" else return v + (i + 1) * 4

/-- The address of a slot that holds a new string of the character at a position. -/
def character (slot v i : Word) : Act ω Word := do
  let a ← element E v i
  let c ← read E a
  let s ← call E "_malloc" [8]
  write E s 1
  write E (s + 4) c
  write E slot s
  return slot

def binary (op : String) (a b : Word) : Act ω Word :=
  match op with
  | "+" => return a + b
  | "-" => return a - b
  | "*" => return a * b
  | "//" => if b = 0 then fail "_error_div_zero" else return a.sdiv b
  | "%" => if b = 0 then fail "_error_div_zero" else return a.srem b
  | "<" => return truthWord (a.slt b)
  | ">" => return truthWord (b.slt a)
  | "<=" => return truthWord (!b.slt a)
  | ">=" => return truthWord (!a.slt b)
  | "==" => return truthWord (a == b)
  | "!=" => return truthWord (a != b)
  | "is" => return truthWord (a == b)
  | _ => stuck

def unary (op : String) (v : Word) : Act ω Word :=
  match op with
  | "not" =>
    match truth? v with
    | some b => return truthWord !b
    | none => stuck
  | "-" => return -v
  | _ => stuck

def literal : Choco.Literal → Act ω Word
  | .int n _ => return wordOf n
  | .bool b => return truthWord b
  | .none => return 0
  | .str s => block E (s.toList.map fun c => wordOf c.toNat)

/-- What an operation does with the words of its operands and with the memory on the stack that it
asks for. -/
def operate (code : FlatCode) (slot : Word) (args : List Word) : Act ω (Option Word) :=
  match code, args with
  | .literal v, [] => some <$> literal E v
  | .call "len", [v] => some <$> length E v
  | .call "len", _ => stuck
  | .call func, args => some <$> call E func args
  | .unary op, [v] => some <$> unary op v
  | .binary op, [a, b] => some <$> binary op a b
  | .list, elems => some <$> block E elems
  | .alloc _, [] => return some slot
  | .load, [a] => some <$> read E a
  | .store, [a, w] => do
    write E a w
    return none
  | .getAddress, [v, i] => some <$> element E v i
  | .indexString, [v, i] => some <$> character E slot v i
  | _, _ => stuck

def answer (x : Act ω (Option Word)) (s : Store ω) : Answer Word (Store ω) String :=
  match x.run s with
  | .ok (v, s) => .value v s
  | .error (.failed label s) => .failed label s
  | .error .stuck => .stuck

end Act

/-- The meaning of operations on words, with the memory on the stack that each of them asks for; a
failure is known by its label. -/
def wordMeaning {ω : Type} (E : Surroundings ω) (slot : Nat → Word) :
    Meaning Word (Store ω) String where
  truth? := truth?
  operate code id args _ s := (Act.operate E code (slot id) args).answer s

end Practicum.Flat
