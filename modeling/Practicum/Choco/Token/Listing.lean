import Practicum.Choco.Parser.Report

/-! # Listing the tokens of a file -/

namespace Practicum.Choco

def listTokens (edition : Edition) (file : String) : Outcome :=
  let (tokens, e?) := tokenize (Text.normalizeNewlines file)
  let printed := String.join (tokens.map fun t => t.display edition ++ "\n")
  match e? with
  | none => { printed }
  | some e => .failing printed e.fault

end Practicum.Choco
