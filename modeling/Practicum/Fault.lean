/-!
# Faults

A `Fault` says how a computation ends when it gives no result. Parts of the library with causes of
their own have types for them, each with a `fault`.
-/

namespace Practicum

inductive Fault where
  | noSuchPart
  | wrongKind
  | badValue
  | outOfRange
  | unknownKey
  | divisionByZero
  | unassigned
  | unknownName
  /-- A number is too large for the field it is written to. -/
  | fieldOverflow
  /-- A number is too large to be computed with. -/
  | overflow
  | tooDeep
  | exhausted
  /-- An expectation of the program on its own data is not met. -/
  | broken (message : String)
  /-- A case that the program does not handle. -/
  | unsupported (message : String)
  /-- A source program without a meaning. -/
  | meaningless (message : String)
  /-- A program in the intermediate representation that does not obey its rules. -/
  | illFormed (message : String)
  /-- A text that is not an address. -/
  | badAddress (message : String)
  | refused (message : String)
  | timeout (message : String)
  | missingFile (message : String)
  | notFolder (message : String)
  | isFolder (message : String)
  /-- A source text that is not grammatical: row and column count from zero. -/
  | ungrammatical (row column : Int) (message : String)
  /-- The program exits by itself, after printing a text. -/
  | exit (code : Int) (printed : String)
  deriving DecidableEq, Repr

structure Outcome where
  printed : String
  fault : Option Fault := none
  deriving DecidableEq, Repr

/-- The outcome of a command that printed a text and then met a fault. What the fault itself
prints comes last. -/
def Outcome.failing (printed : String) (fault : Fault) : Outcome :=
  match fault with
  | .exit code last => { printed := printed ++ last, fault := some (.exit code "") }
  | f => { printed, fault := some f }

end Practicum
