import Practicum.Fault
import Practicum.Table

/-!
# Steps of a drawing

A chart is described by the steps that draw it, in order.
-/

namespace Practicum.Chart

inductive Value where
  | whole (n : Int)
  | real (x : Float)
  | text (s : String)
  | flag (b : Bool)
  | list (items : List Value)
  | record (fields : List (String × Value))
  deriving Repr, Inhabited

abbrev Options := List (String × Value)

inductive Step where
  | call (name : String) (arguments : List Value) (options : Options)
  | assign (name key : String) (value : Value)
  deriving Repr

structure Picture where
  outcome : Outcome
  steps : List Step := []
  files : Table String String := []
  deriving Repr

def Picture.failing (fault : Fault) : Picture :=
  { outcome := Outcome.failing "" fault }

namespace Step

def openFigure : List Step :=
  [call "figure" [] [], call "fig.add_subplot" [.whole 1, .whole 1, .whole 1] []]

def nameY (s : String) : Step := call "ax.set_ylabel" [.text s] []

def nameX (s : String) : Step := call "ax.set_xlabel" [.text s] []

def title (s : String) : Step := call "ax.set_title" [.text s] []

def saveAndClose (file : String) : List Step :=
  [call "savefig" [.text file] [("bbox_inches", .text "tight")], call "close" [] []]

end Step

def kilobytes (bytes : Int) : Value :=
  .real (Float.ofInt bytes / 1000)

def dump (entries : List (String × Int)) : String :=
  "\x7b" ++ ", ".intercalate (entries.map fun (k, n) => k ++ ": " ++ toString n) ++ "\x7d"

end Practicum.Chart
