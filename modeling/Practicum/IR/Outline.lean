import Practicum.Riscv.Register

/-!
# Outlines

An `Outline` is the uniform picture of an operation: a name, attributes, the names of its operands
and results, and the blocks nested in it.
-/

namespace Practicum.IR

/-! ## Types of the intermediate representation -/

inductive Ty where
  | named (name : String)
  | list (elem : Ty)
  | memory (content : Ty)
  | register
  deriving DecidableEq, Repr

namespace Ty

def int : Ty := .named "int"

def bool : Ty := .named "bool"

def str : Ty := .named "str"

def none : Ty := .named "<None>"

def empty : Ty := .named "<Empty>"

def object : Ty := .named "object"

def text : Ty → String
  | .named name => name
  | .list elem => "[" ++ elem.text ++ "]"
  | .memory content => "mem(" ++ content.text ++ ")"
  | .register => "reg"

def display : Ty → String
  | .named name => "NamedType([\"" ++ name ++ "\"])"
  | .list elem => "ListType([" ++ elem.display ++ "])"
  | .memory content => "MemlocType([" ++ content.display ++ "])"
  | .register => "RegisterType([])"

def ofChars (cs : List Char) : Ty :=
  match cs with
  | '[' :: rest => .list (ofChars rest.dropLast)
  | 'm' :: 'e' :: 'm' :: '(' :: rest => .memory (ofChars rest.dropLast)
  | ['r', 'e', 'g'] => .register
  | _ => .named (String.ofList cs)
termination_by cs.length
decreasing_by
  · simp only [List.length_dropLast, List.length_cons]
    omega
  · simp only [List.length_dropLast, List.length_cons]
    omega

def ofText (s : String) : Ty :=
  ofChars s.toList

end Ty

open Riscv (Register)

inductive Attr where
  | text (s : String)
  | int (value : Int) (width : Nat)
  | bool (b : Bool)
  | none
  | reg (r : Register)
  | label (name : String)
  | type (t : Ty)
  deriving DecidableEq, Repr

mutual

inductive Outline where
  | mk (name : String) (attrs : List (String × Attr)) (operands : List String)
      (results : List (String × Ty)) (regions : List OutlineBlock)
  deriving Repr, BEq

inductive OutlineBlock where
  | mk (args : List (String × Ty)) (ops : List Outline)
  deriving Repr, BEq

end

instance : Inhabited Outline :=
  ⟨.mk "" [] [] [] []⟩

namespace Outline

def name : Outline → String
  | .mk n .. => n

def attrs : Outline → List (String × Attr)
  | .mk _ a .. => a

def attr? (o : Outline) (key : String) : Option Attr :=
  o.attrs.lookup key

def attrText (o : Outline) (key : String) : String :=
  match o.attr? key with
  | some (.text s) => s
  | _ => ""

end Outline

end Practicum.IR
