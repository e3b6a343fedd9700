import Practicum.IR.Outline

/-! # Written attributes -/

namespace Practicum.IR

open Riscv (Register)

inductive WrittenAttr where
  | bool
  | label
  | register
  deriving DecidableEq, Repr

inductive AttrTextError where
  | notABool
  | noRegister
  | badRegister (e : Riscv.RegisterError)

def AttrTextError.fault : AttrTextError → Fault
  | .notABool => .refused "Expected True or False literal"
  | .noRegister => .refused "Expected a register name"
  | .badRegister e => e.fault

namespace WrittenAttr

def read (text : String) : WrittenAttr → Except AttrTextError Attr
  | .bool =>
    if text = "True" then .ok (.bool true)
    else if text = "False" then .ok (.bool false)
    else .error .notABool
  | .label => .ok (.label text)
  | .register =>
    if text.isEmpty then .error .noRegister
    else
      match Register.ofName text with
      | .ok r => .ok (.reg r)
      | .error e => .error (.badRegister e)

end WrittenAttr

def Attr.written? : Attr → Option String
  | .bool b => some (if b then "True" else "False")
  | .label name => some name
  | .reg r => some r.name
  | _ => Option.none

end Practicum.IR
