/-!
# Words of a command

A command is split at blanks. A single quote makes everything up to the next one part of a word; a
double quote does so too, but inside it a backslash still guards a double quote or a backslash.
Elsewhere a backslash guards any character.
-/

namespace Practicum.Text.ShellWord

inductive Place where
  | plain
  | single
  | double
  /-- After a backslash; `inside` tells whether it stood between double quotes. -/
  | guarded (inside : Bool)
  deriving DecidableEq, Repr

def isGap (c : Char) : Bool :=
  c = ' ' || c = '\t' || c = '\r' || c = '\n'

/-- Reads the characters of a command. `word` holds the word so far in reverse, if one has begun. -/
def readWords : Place → Option (List Char) → List Char → Option (List (List Char))
  | .plain, word, [] => some (word.map List.reverse).toList
  | _, _, [] => none
  | .plain, word, c :: cs =>
    if isGap c then (readWords .plain none cs).map ((word.map List.reverse).toList ++ ·)
    else if c = '\'' then readWords .single (some (word.getD [])) cs
    else if c = '"' then readWords .double (some (word.getD [])) cs
    else if c = '\\' then readWords (.guarded false) word cs
    else readWords .plain (some (c :: word.getD [])) cs
  | .single, word, c :: cs =>
    if c = '\'' then readWords .plain word cs
    else readWords .single (some (c :: word.getD [])) cs
  | .double, word, c :: cs =>
    if c = '"' then readWords .plain word cs
    else if c = '\\' then readWords (.guarded true) word cs
    else readWords .double (some (c :: word.getD [])) cs
  | .guarded inside, word, c :: cs =>
    if inside then
      let kept := if c = '\\' || c = '"' then [c] else [c, '\\']
      readWords .double (some (kept ++ word.getD [])) cs
    else readWords .plain (some (c :: word.getD [])) cs

/-- The words of a command, if its quotes are closed and its last backslash guards something. -/
def split? (s : String) : Option (List String) :=
  (readWords .plain none s.toList).map (·.map String.ofList)

end Practicum.Text.ShellWord
