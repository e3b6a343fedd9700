import Practicum.Choco.Typing.Env

/-! # Types in attributes -/

namespace Practicum

def IR.Attr.display : IR.Attr → String
  | .text s => "\"" ++ s ++ "\""
  | .int value width => toString value ++ ":i" ++ toString width
  | .bool b => "BoolAttr(" ++ (if b then "True" else "False") ++ ")"
  | .none => "NoneAttr([])"
  | .reg r => "RegisterAttr(" ++ r.name ++ ")"
  | .label name => "LabelAttr(" ++ name ++ ")"
  | .type t => t.display

namespace Choco

def SourceType.ofAttr : IR.Attr → Check SourceType
  | .type t => SourceType.ofTy t
  | a => .error (.notAType a.display)

def FunctionInfo.ofParams (inputs : List SourceType) (output : SourceType) (params : List String) :
    Check FunctionInfo :=
  if inputs.length ≠ params.length then .error .parameterCount
  else .ok { inputs, output, params }

end Choco

end Practicum
