import Practicum.IR.Outline

/-!
# Literals

The values that can be written in a program. An integer carries the width of the word it is
meant for.
-/

namespace Practicum.Choco

open IR (Attr Ty)

inductive Literal where
  | none
  | bool (b : Bool)
  | int (value : Int) (width : Nat)
  | str (s : String)
  deriving DecidableEq, Repr

namespace Literal

def toAttr : Literal → Attr
  | .none => .none
  | .bool b => .bool b
  | .int value width => .int value width
  | .str s => .text s

def ofAttr? : Attr → Option Literal
  | .none => some .none
  | .bool b => some (.bool b)
  | .int value width => some (.int value width)
  | .text s => some (.str s)
  | _ => Option.none

def type : Literal → Ty
  | .none => .none
  | .bool _ => .bool
  | .int .. => .int
  | .str _ => .str

def text : Literal → String
  | .none => "NoneAttr([])"
  | .bool true => "BoolAttr(True)"
  | .bool false => "BoolAttr(False)"
  | .int value width => toString value ++ ":i" ++ toString width
  | .str s => "\"" ++ s ++ "\""

def word (n : Int) : Literal :=
  .int n 32

end Literal

end Practicum.Choco
