import Practicum.Fault
import Practicum.Text.Characters

/-!
# Registers

The thirty-two integer registers. The eighth has two names, of which `fp` is the one written.
-/

namespace Practicum.Riscv

open Text

structure Register where
  index : Fin 32
  deriving DecidableEq, Repr

inductive RegisterError where
  | emptyName
  | unknownName (name : String)
  | notANumber (name : String)
  | noSuchIndex (index : Int)
  deriving DecidableEq, Repr

def RegisterError.fault : RegisterError → Fault
  | .emptyName => .outOfRange
  | .unknownName _ => .broken ""
  | .notANumber _ => .badValue
  | .noSuchIndex _ => .broken ""

namespace Register

def conventionalNames : List (String × Fin 32) :=
  [("zero", 0), ("ra", 1), ("sp", 2), ("gp", 3), ("tp", 4), ("t0", 5), ("t1", 6), ("t2", 7),
   ("fp", 8), ("s0", 8), ("s1", 9), ("a0", 10), ("a1", 11), ("a2", 12), ("a3", 13), ("a4", 14),
   ("a5", 15), ("a6", 16), ("a7", 17), ("s2", 18), ("s3", 19), ("s4", 20), ("s5", 21), ("s6", 22),
   ("s7", 23), ("s8", 24), ("s9", 25), ("s10", 26), ("s11", 27), ("t3", 28), ("t4", 29),
   ("t5", 30), ("t6", 31)]

def ofIndex (index : Int) : Except RegisterError Register :=
  if h : 0 ≤ index ∧ index < 32 then .ok ⟨⟨index.toNat, by omega⟩⟩
  else .error (.noSuchIndex index)

def ofName (name : String) : Except RegisterError Register :=
  match conventionalNames.lookup name with
  | some index => .ok ⟨index⟩
  | none =>
    match name.toList with
    | [] => .error .emptyName
    | 'x' :: digits =>
      if digits.isEmpty || !digits.all isNumeral then .error (.unknownName name)
      else
        match readDecimal? digits with
        | some n => ofIndex n
        | none => .error (.notANumber name)
    | _ => .error (.unknownName name)

def name (r : Register) : String :=
  ((conventionalNames.find? fun entry => entry.2 == r.index).map Prod.fst).getD ""

def zero : Register := ⟨0⟩

def ra : Register := ⟨1⟩

def sp : Register := ⟨2⟩

def tp : Register := ⟨4⟩

def t0 : Register := ⟨5⟩

def t1 : Register := ⟨6⟩

def t2 : Register := ⟨7⟩

def t3 : Register := ⟨28⟩

def t4 : Register := ⟨29⟩

def t5 : Register := ⟨30⟩

def t6 : Register := ⟨31⟩

def a0 : Register := ⟨10⟩

@[inherit_doc a0] def a1 : Register := ⟨11⟩

@[inherit_doc a0] def a2 : Register := ⟨12⟩

@[inherit_doc a0] def a7 : Register := ⟨17⟩

def argument? (k : Nat) : Option Register :=
  if h : k < 8 then some ⟨⟨10 + k, by omega⟩⟩ else none

end Register

end Practicum.Riscv
