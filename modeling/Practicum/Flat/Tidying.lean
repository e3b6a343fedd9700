import Practicum.IR.Editing

/-!
# Tidying up

The steps that make a program of the flat level smaller or simpler, apart from folding.
-/

/-!
## Loops over elements

A loop over the elements of a list or a string becomes a loop that counts: a new variable holds the
position, the condition compares it with the length, and the body starts by fetching the element.
-/

namespace Practicum.Flat.ForLoop

open Choco (Literal)
open IR Editing

def step (code : FlatCode) (operands : List Val) (regions : List Block := []) :
    Editing Unit Op :=
  Op.make (.flat code) operands [] regions

def compute (code : FlatCode) (operands : List Val) (type : Ty) : Editing Unit (Op × Val) :=
  Op.makeValue (.flat code) operands type

def contentOf (t : Ty) : Editing Unit Ty :=
  match t with
  | .memory content => return content
  | _ => throw .noSuchPart

def condition (position iterable : Val) : Editing Unit Block := do
  let (len, n) ← compute (.call "len") [iterable] .int
  let (load, i) ← compute .load [position] .int
  let (compare, more) ← compute (.binary "<") [i, n] .bool
  return .plain [len, load, compare, ← step .yield [more]]

def fetch (x position iterable : Val) : Editing Unit (List Op) := do
  let (load, i) ← compute .load [position] .int
  if iterable.type = .str then
    let (address, a) ← compute .getAddress [iterable, i] (.memory .str)
    let (read, c) ← compute .load [a] .str
    let (wrap, s) ← compute .list [c] .str
    return [load, address, read, wrap, ← step .store [x, s]]
  else
    let (address, a) ← compute .getAddress [iterable, i] x.type
    let (read, e) ← compute .load [a] (← contentOf x.type)
    return [load, address, read, ← step .store [x, e]]

def advance (position : Val) : Editing Unit (List Op) := do
  let (literal, one) ← compute (.literal (.word 1)) [] .int
  let (load, i) ← compute .load [position] .int
  let (sum, next) ← compute (.binary "+") [i, one] .int
  return [load, literal, sum, ← step .store [position, next]]

def pattern (o : Op) : Editing Unit Unit := do
  if o.flat? == some .forEach then
    match o.operands with
    | x :: iterable :: _ =>
      let (alloc, position) ← compute (.alloc .int) [] (.memory .int)
      let (literal, zero) ← compute (.literal (.word 0)) [] .int
      let start ← step .store [position, zero]
      let cond ← condition position iterable
      let header ← fetch x position iterable
      let footer ← advance position
      let body := Block.plain (header ++ o.regionOps 0 ++ footer)
      let loop ← step .loop [] [cond, body]
      replaceLeaving (o.withRegions []) o [alloc, literal, start, loop] []
    | _ => throw (.broken "")

def run (m : Module) : Except Fault Module :=
  apply (round pattern .forward) () m

end Practicum.Flat.ForLoop

/-!
## Dead code

Operations whose value nobody reads are taken out, unless they have an effect, and so are stores
to variables that are never loaded.
-/

namespace Practicum.Flat.UnusedStore

open IR Editing

def isElementAddress (o : Op) : Bool :=
  o.flat? == some .getAddress || o.flat? == some .indexString

def loadedNext : List Op → Bool
  | [] => false
  | o :: os =>
    if o.flat? == some .store then false
    else o.flat? == some .load || loadedNext os

def pattern (o : Op) : Editing Unit Unit := do
  if o.flat? == some .store then
    match o.operands with
    | [] => throw .noSuchPart
    | location :: _ =>
      if isElementAddress (← definition location) then return
      let later := (← readers location).dropWhile fun r => r.id != o.id
      if !later.isEmpty && !loadedNext later.tail then erase o

def run (m : Module) : Except Fault Module :=
  apply (exhaust pattern .backward) () m

end Practicum.Flat.UnusedStore

namespace Practicum.Flat.DeadCode

open IR Editing

def unread (o : Op) : Editing Unit Bool := do
  match o.results with
  | [] => return false
  | v :: _ => return (← readers v).isEmpty

def storePattern (o : Op) : Editing Unit Unit := do
  match o.operands with
  | [] => throw .noSuchPart
  | location :: _ =>
    if UnusedStore.isElementAddress (← definition location) then return
    if (← readers location).all fun r => r.flat? == some .store then erase o

/-- Take out an operation that does nothing. Calls, conditional expressions and lazy operators may
have an effect, and a division may fail. -/
def pattern (o : Op) : Editing Unit Unit := do
  match o.flat? with
  | some .store => storePattern o
  | some (.call _) => return
  | some .choice => return
  | some (.lazyBinary _) => return
  | some (.binary "//") => return
  | _ => if ← unread o then erase o

def run (m : Module) : Except Fault Module :=
  apply (exhaust pattern .backward) () m

end Practicum.Flat.DeadCode

/-! ## Shared literals -/

namespace Practicum.Flat.SharedLiterals

open Choco (Literal)
open IR Editing

abbrev Table := List (Literal × Op)

/-- Note the first operation for a literal, and let that one stand for all further ones. -/
def pattern (o : Op) : Editing Table Unit := do
  match o.flat? with
  | some (.literal v) =>
    match (← remembered).lookup v with
    | some known => replace o [] ((known.results.take 1).map some)
    | none => remember fun table => table ++ [(v, o)]
  | _ => return ()

def prepend (func new : Op) : Editing Table Unit := do
  match ((← get).program.find? func.id).map Op.regions with
  | some (Block.mk args (first :: rest) :: more) =>
    modify fun d =>
      let body : List Block := .mk args (new :: first :: rest) :: more
      { d with program := d.program.splice fun o =>
          if o.id == func.id then some [o.withRegions body] else none }
  | _ => throw .badValue

def hoist (main : Op) (entry : Literal × Op) : Editing Table Unit := do
  let new ← entry.2.copy
  substitute (entry.2.results.zip new.results)
  modify fun d =>
    let program := d.program.splice fun o => if o.id == entry.2.id then some [] else none
    { d with program := { program with remnants := entry.2 :: program.remnants } }
  prepend main new

def isMain (o : Op) : Bool :=
  match o.flat? with
  | some (.funcDef func _) => func == "_main"
  | _ => false

/-- Share the literals of a program. The table of an earlier run is kept: its literals are made
again, and stand for the same literals of this run. -/
def run (table : Table) (m : Module) : Except Fault (Module × Table) :=
  match (m.ops.filter isMain).getLast? with
  | some main => do
    let editing : Editing Table Unit := do
      exhaust pattern .forward
      (← remembered).forM (hoist main)
    let (_, d) ← editing.run { program := m, memo := table }
    return (d.program, d.memo)
  | none => .error (.refused "No main function found")

end Practicum.Flat.SharedLiterals

/-! ## Calls of the run-time library -/

namespace Practicum.Flat.LibraryCalls

open IR Editing

def printer? (t : Ty) : Option String :=
  if t = .bool then some "_print_bool"
  else if t = .int then some "_print_int"
  else if t = .str then some "_print_str"
  else none

def isSequence : Ty → Bool
  | .list _ => true
  | t => t == .str

def call (func : String) (operands : List Val) (types : List Ty) : Editing Unit Op :=
  Op.make (.flat (.call func)) operands types

def callPattern (func : String) (o : Op) : Editing Unit Unit := do
  if func = "input" then
    replaceByLast o [← call "_input" [] [.str]]
  else if func = "print" then
    match o.operands with
    | [] => throw .outOfRange
    | v :: _ =>
      match printer? v.type with
      | some printer => replaceByLast o [← call printer o.operands []]
      | none => throw (.refused
          "Type Error: Cannot print an object of type different than bool, int, or str")

def resultTypes (o : Op) : List Ty :=
  (o.results.take 1).map Val.type

def binaryPattern (op : String) (o : Op) : Editing Unit Unit := do
  let onStrings := (o.operands.head?.map Val.type) == some Ty.str
  if op = "+" && (resultTypes o).any isSequence then
    replaceByLast o [← call "_list_concat" o.operands (resultTypes o)]
  else if op = "==" && onStrings then
    replaceByLast o [← call "_str_eq" o.operands (resultTypes o)]
  else if op = "!=" && onStrings then
    let equal ← call "_str_eq" o.operands (resultTypes o)
    let unequal ← Op.make (.flat (.unary "not")) equal.results (resultTypes o)
    replaceByLast o [equal, unequal]

def pattern (o : Op) : Editing Unit Unit :=
  match o.flat? with
  | some (.call func) => callPattern func o
  | some (.binary op) => binaryPattern op o
  | _ => return ()

def run (m : Module) : Except Fault Module :=
  apply (round pattern .forward) () m

end Practicum.Flat.LibraryCalls
