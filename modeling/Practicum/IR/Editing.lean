import Practicum.IR.Op

/-!
# Changing programs

An `Editing` changes a program step by step. A pattern looks at one operation and may put others
in its place; `exhaust` offers every operation to a pattern, round after round, until a round
changes nothing. An operation that a round takes out is not offered any more, but the operations
nested in it still are.
-/

namespace Practicum.IR

class Fresh (m : Type → Type) where
  fresh : m Nat

def Op.make {m : Type → Type} [Monad m] [Fresh m] (code : Opcode) (operands : List Val)
    (types : List Ty) (regions : List Block := []) : m Op := do
  let results ← types.mapM fun type => do return ({ id := ← Fresh.fresh, type } : Val)
  return .mk (← Fresh.fresh) code operands results regions

def Op.makeValue {m : Type → Type} [Monad m] [Fresh m] (code : Opcode) (operands : List Val)
    (type : Ty) (regions : List Block := []) : m (Op × Val) := do
  let v : Val := { id := ← Fresh.fresh, type }
  return (.mk (← Fresh.fresh) code operands [v] regions, v)

namespace Op

variable {m : Type → Type} [Monad m] [Fresh m]

mutual

def copyWith (rename : Val → Val) : Op → m Op
  | .mk _ code operands results regions => do
    let regions ← copyRegionsWith rename regions
    return .mk (← Fresh.fresh) code (operands.map rename) (results.map rename) regions

def copyAllWith (rename : Val → Val) : List Op → m (List Op)
  | [] => return []
  | o :: os => do
    let o ← copyWith rename o
    return o :: (← copyAllWith rename os)

def copyRegionsWith (rename : Val → Val) : List Block → m (List Block)
  | [] => return []
  | .mk args ops :: bs => do
    let ops ← copyAllWith rename ops
    return .mk (args.map rename) ops :: (← copyRegionsWith rename bs)

end

def copy (o : Op) : m Op := do
  let renamed ← o.defined.mapM fun v => do
    return (v.id, ({ id := ← Fresh.fresh, type := v.type } : Val))
  copyWith (fun v => (renamed.lookup v.id).getD v) o

end Op

structure Draft (σ : Type) where
  program : Module
  changed : Bool := false
  memo : σ

abbrev Editing (σ : Type) := StateT (Draft σ) (Except Fault)

namespace Editing

variable {σ : Type}

instance : Fresh (Editing σ) where
  fresh := modifyGet fun d =>
    (d.program.next, { d with program := { d.program with next := d.program.next + 1 } })

def remembered : Editing σ σ :=
  return (← get).memo

def remember (f : σ → σ) : Editing σ Unit :=
  modify fun d => { d with memo := f d.memo }

/-- The operation that defines a value; it fails for the arguments of blocks. -/
def definition (v : Val) : Editing σ Op := do
  match (← get).program.definition? v with
  | some o => return o
  | none => throw .noSuchPart

def readers (v : Val) : Editing σ (List Op) :=
  return (← get).program.readers v

def substitute (changes : List (Val × Val)) : Editing σ Unit :=
  modify fun d =>
    let change (v : Val) : Val :=
      ((changes.find? fun c => c.1.id == v.id).map Prod.snd).getD v
    if changes.isEmpty then d else { d with program := d.program.mapOperands change }

/-- Put operations in the place of an operation. What is left of the old operation is given with
it: the blocks that the new operations took over are gone from it. Whoever reads a result of the
old operation reads the value given for it, if there is one. -/
def replaceLeaving (husk old : Op) (new : List Op) (values : List (Option Val)) :
    Editing σ Unit := do
  modify fun d =>
    let program := d.program.splice fun o => if o.id == old.id then some new else none
    { d with program := { program with remnants := husk :: program.remnants }, changed := true }
  substitute ((old.results.zip values).filterMap fun (r, v) => v.map fun v => (r, v))

def replace (old : Op) (new : List Op) (values : List (Option Val)) : Editing σ Unit :=
  replaceLeaving old old new values

/-- Put operations in the place of an operation. Whoever read its results reads those of the last
new operation. -/
def replaceByLast (old : Op) (new : List Op) : Editing σ Unit :=
  replace old new (((new.getLast?.map Op.results).getD []).map some)

def erase (old : Op) : Editing σ Unit :=
  replace old [] []

def offer (pattern : Op → Editing σ Unit) (id : Nat) : Editing σ Unit := do
  match (← get).program.find? id with
  | some o => pattern o
  | none => return ()

inductive Direction where
  | forward
  | backward
  deriving DecidableEq, Repr

def round (pattern : Op → Editing σ Unit) (direction : Direction) : Editing σ Unit := do
  modify fun d => { d with changed := false }
  let ids := (← get).program.walk.map Op.id
  match direction with
  | .forward => ids.forM (offer pattern)
  | .backward => ids.reverse.forM (offer pattern)

def exhaustWithin (pattern : Op → Editing σ Unit) (direction : Direction) :
    Nat → Editing σ Unit
  | 0 => return ()
  | n + 1 => do
    round pattern direction
    if (← get).changed then exhaustWithin pattern direction n

def maxRounds : Nat := 50

def exhaust (pattern : Op → Editing σ Unit) (direction : Direction) : Editing σ Unit :=
  exhaustWithin pattern direction maxRounds

def apply (editing : Editing σ Unit) (memo : σ) (m : Module) : Except Fault Module :=
  (fun (_, d) => d.program) <$> editing.run { program := m, memo }

end Editing

end Practicum.IR
