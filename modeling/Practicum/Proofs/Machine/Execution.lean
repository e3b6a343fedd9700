import Practicum.Proofs.IR.Env
import Practicum.Proofs.Riscv.Execution

/-!
# Running operations of the machine level

The operations of a function run one after the other; between them stand labels, to which branches
and jumps lead. An operation that touches a reserved byte has no meaning here, and no more has one
that speaks of distances in the code.
-/

namespace Practicum.Machine

open IR Riscv Option

inductive Event where
  | load (op : LoadOp) (a w : Word)
  | store (op : StoreOp) (a w : Word)
  | ask (r : Asking) (args : List Word) (w : Word)
  deriving DecidableEq, Repr

structure Surroundings (ω : Type) where
  /-- The addresses of the memory on the stack, by the operations that ask for it. -/
  slot : Nat → Word
  /-- The bytes that the operations do not get at. -/
  reserved : Word → Bool
  fits : Int → Bool
  /-- The answer to a request, with the memory and the world after it. -/
  serve : Asking → List Word → Memory → ω → Option (Word × Memory × ω)

def Surroundings.free {ω : Type} (E : Surroundings ω) (a : Word) (n : Nat) : Bool :=
  (List.range n).all fun i => !E.reserved (a + BitVec.ofNat 32 i)

theorem Surroundings.not_reserved_of_free {ω : Type} {E : Surroundings ω} {a b : Word} {n : Nat}
    (h : E.free a n) (hb : Covers a n b) : E.reserved b = false := by
  have hmem : (b - a).toNat ∈ List.range n := List.mem_range.mpr hb
  have hfree := List.all_eq_true.mp h _ hmem
  rwa [BitVec.ofNat_toNat, BitVec.setWidth_eq, BitVec.add_comm, BitVec.sub_add_cancel,
    Bool.not_eq_true'] at hfree

inductive Course where
  | on
  | jump (label : String)
  | leave (w : Word)
  deriving DecidableEq, Repr

/-- What an operation does: the word that it computes, what becomes of memory and the world, what
is seen of it, and where it leads. -/
structure Effect (ω : Type) where
  value : Option Word
  memory : Memory
  world : ω
  events : List Event
  course : Course

namespace Effect

variable {ω : Type}

def pure (w : Word) (m : Memory) (world : ω) : Effect ω :=
  { value := some w, memory := m, world, events := [], course := .on }

def go (course : Course) (m : Memory) (world : ω) : Effect ω :=
  { value := none, memory := m, world, events := [], course }

def ask? (E : Surroundings ω) (r : Asking) (args : List Word) (m : Memory) (world : ω) :
    Option (Effect ω) :=
  (E.serve r args m world).map fun (w, m', world') =>
    { value := some w, memory := m', world := world', events := [.ask r args w], course := .on }

/-- The effect of an operation on the words of its operands. A system call has its number before
its arguments, of which there are seven at most. -/
def of? (E : Surroundings ω) (code : MachineCode) (id : Nat) (args : List Word) (m : Memory)
    (world : ω) : Option (Effect ω) :=
  match code, args with
  | .load op offset, [a] =>
    let address := a + wordOf offset.value
    if E.fits offset.value && E.free address op.width then
      let w := op.read m address
      some { pure w m world with events := [.load op address w] }
    else none
  | .store op offset, [w, a] =>
    let address := a + wordOf offset.value
    if E.fits offset.value && E.free address op.width then
      some { go .on (m.write address op.width w) world with events := [.store op address w] }
    else none
  | .immediate op n, [a] =>
    if E.fits n.value then some (pure (op.eval a n.value) m world) else none
  | .register op, [a, b] => some (pure (op.eval a b) m world)
  | .constant op n, [] => (op.eval? n.value).map fun w => pure w m world
  | .branch op (.label name), [a, b] =>
    some (go (if op.holds a b then .jump name else .on) m world)
  | .jump (.label name), [] => some (go (.jump name) m world)
  | .ecall, number :: rest =>
    if rest.length < 8 then
      (ask? E .system (number :: rest) m world).map fun e => { e with value := none }
    else none
  | .ebreak, [] => (ask? E .pause [] m world).map fun e => { e with value := none }
  | .call func, args => ask? E (.call func) args m world
  | .label _, [] => some (go .on m world)
  | .alloc, [] => some (pure (E.slot id) m world)
  | .func _, [] => some (go .on m world)
  | .ret, [w] => some (go (.leave w) m world)
  | _, _ => none

end Effect

abbrev Values := Env Word

def labelIndex? (ops : List Op) (name : String) : Option Nat :=
  ops.findIdx? fun o => o.machine? == some (.label name)

/-- The place behind a label, which defines no value; the label at the end of a function stands
behind all operations. -/
def behind? (exit : String) (ops : List Op) (name : String) : Option Spot :=
  match labelIndex? ops name with
  | some k => if ops[k]?.all fun o => o.results.isEmpty then some (.at (k + 1)) else none
  | none => some (if name = exit then .at ops.length else .outside name)

structure State (ω : Type) where
  place : Spot
  values : Values
  memory : Memory
  world : ω
  trace : List Event

namespace State

variable {ω : Type}

/-- Where a run goes on after an operation. A function is left by the label at its end, so no
operation may place that label. -/
def next? (exit : String) (ops : List Op) (k : Nat) : Course → Option Spot
  | .on => some (.at (k + 1))
  | .jump name => behind? exit ops name
  | .leave w => if labelIndex? ops exit = none then some (.returned w) else none

def step? (E : Surroundings ω) (exit : String) (ops : List Op) (s : State ω) : Option (State ω) :=
  match s.place with
  | .at k =>
    match ops[k]? with
    | some o => do
      let code ← o.machine?
      let args ← o.operands.mapM fun v => s.values v.id
      let e ← Effect.of? E code o.id args s.memory s.world
      let values ← s.values.define? o.results e.value
      let place ← next? exit ops k e.course
      return { place, values, memory := e.memory, world := e.world, trace := s.trace ++ e.events }
    | none => none
  | _ => none

def after? (E : Surroundings ω) (exit : String) (ops : List Op) : Nat → State ω → Option (State ω)
  | 0, s => some s
  | n + 1, s => (after? E exit ops n s).bind (step? E exit ops)

theorem step?_eq_some_iff {E : Surroundings ω} {exit : String} {ops : List Op} {s s' : State ω} :
    s.step? E exit ops = some s' ↔
      ∃ k o code args e values place, s.place = .at k ∧ ops[k]? = some o ∧
        o.machine? = some code ∧ o.operands.mapM (fun v => s.values v.id) = some args ∧
        Effect.of? E code o.id args s.memory s.world = some e ∧
        s.values.define? o.results e.value = some values ∧ next? exit ops k e.course = some place ∧
        s' = { place, values, memory := e.memory, world := e.world,
               trace := s.trace ++ e.events } := by
  unfold step?
  constructor
  · intro h
    split at h
    next k hplace =>
      split at h
      next o ho =>
        simp only [bind_eq_bind, bind_eq_some_iff, pure_def, Option.some.injEq] at h
        obtain ⟨code, hcode, args, hargs, e, he, values, hvalues, place, hnext, rfl⟩ := h
        exact ⟨k, o, code, args, e, values, place, hplace, ho, hcode, hargs, he, hvalues, hnext,
          rfl⟩
      · cases h
    · cases h
  · rintro ⟨k, o, code, args, e, values, place, hplace, ho, hcode, hargs, he, hvalues, hnext, rfl⟩
    simp [hplace, ho, hcode, hargs, he, hvalues, hnext]

end State

end Practicum.Machine
