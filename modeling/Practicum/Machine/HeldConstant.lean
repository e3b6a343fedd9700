import Practicum.IR.Op

/-!
# The constant at hand

A constant that has been loaded last is held: asking for it again gives the instruction that loaded
it.
-/

namespace Practicum.Machine

open IR

structure HeldConstant where
  value : Option Int := none
  deriving DecidableEq, Repr

namespace HeldConstant

def nothing : HeldConstant := {}

def load (held : HeldConstant) (n : Int) : HeldConstant × Bool :=
  ({ value := some n }, held.value ≠ some n)

def code? (held : HeldConstant) : Option MachineCode :=
  held.value.map fun n => .constant .li { value := n, width := 32 }

end HeldConstant

end Practicum.Machine
