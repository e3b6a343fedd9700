import Practicum.Fault
import Practicum.Table
import Practicum.Text.Characters

/-!
# Folders

A folder holds files under paths. A path is followed name by name: an empty name and a dot stay
where they are, two dots go up, and every name but the last must lead to a folder.
-/

namespace Practicum

structure Folder (α : Type) where
  files : Table String α
  kept : List (List String) := []

inductive PathError where
  | missing
  | notFolder
  | isFolder
  | unusable
  deriving DecidableEq, Repr

def PathError.fault (path : String) : PathError → Fault
  | missing => .missingFile ("[Errno 2] No such file or directory: " ++ Text.quote path)
  | notFolder => .notFolder ("[Errno 20] Not a directory: " ++ Text.quote path)
  | isFolder => .isFolder ("[Errno 21] Is a directory: " ++ Text.quote path)
  | unusable => .badValue

namespace Folder

variable {α : Type}

def pathOf (names : List String) : String :=
  "/".intercalate names

def hasFolder (f : Folder α) (names : List String) : Bool :=
  names = [] || f.kept.contains names || f.files.keys.any fun path =>
    let along := path.splitOn "/"
    names.isPrefixOf along && names.length < along.length

def file? (f : Folder α) (names : List String) : Option α :=
  f.files.get? (pathOf names)

def follow (f : Folder α) (here : List String) : List String → Except PathError (List String)
  | [] => .ok here
  | name :: rest =>
    if f.hasFolder here then
      if name = "" || name = "." then f.follow here rest
      else if name = ".." then
        if here = [] then .error .missing else f.follow here.dropLast rest
      else f.follow (here ++ [name]) rest
    else if (f.file? here).isSome then .error .notFolder
    else .error .missing

/-- The names from the top to the end of a written path; no path from the root of all folders leads
here. -/
def locate (f : Folder α) (here : List String) (path : String) : Except PathError (List String) :=
  if path.contains '\x00' then .error .unusable
  else if path = "" || path.startsWith "/" then .error .missing
  else f.follow here (path.splitOn "/")

def read (f : Folder α) (here : List String) (path : String) : Except PathError α := do
  let names ← f.locate here path
  if f.hasFolder names then .error .isFolder
  else
    match f.file? names with
    | some a => .ok a
    | none => .error .missing

def place (f : Folder α) (here : List String) (path : String) : Except PathError String := do
  let names ← f.locate here path
  if f.hasFolder names || path.endsWith "/" then .error .isFolder
  else if f.hasFolder names.dropLast then .ok (pathOf names)
  else if (f.file? names.dropLast).isSome then .error .notFolder
  else .error .missing

end Folder

end Practicum
