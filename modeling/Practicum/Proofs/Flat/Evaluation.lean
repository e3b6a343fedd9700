import Practicum.Proofs.IR.Env

/-!
# Structured evaluation

The operations of the flat level run one after the other, and control flow follows their nesting.
What the operations without blocks do is left open. A loop gives up after a number of turns, so
that evaluation is a function.
-/

namespace Practicum.Flat

open IR

/-- What one operation without control flow gives: a value, if it has one, or a failure. -/
inductive Answer (V S F : Type) where
  | value (v : Option V) (s : S)
  | failed (why : F) (s : S)
  | starved (s : S)
  | stuck

/-- Where the evaluation of operations ends: behind them, by returning from the function, by a
failure, or by giving up a loop. -/
inductive Ending (V F : Type) where
  | behind
  | returned (v : V)
  | failed (why : F)
  | starved

/-- How the evaluation of operations ends, with the values and the state at its end. It is stuck
where an operation has no meaning. -/
inductive Outcome (V S F : Type) where
  | ended (how : Ending V F) (env : Env V) (s : S)
  | stuck

/-- What values mean as truth values, and what the operations without control flow do with the
values of their operands, in a state. -/
structure Meaning (V S F : Type) where
  truth? : V → Option Bool
  operate : FlatCode → Nat → List V → Env V → S → Answer V S F

variable {V S F : Type}

def Outcome.andThen (o : Outcome V S F) (next : Env V → S → Outcome V S F) : Outcome V S F :=
  match o with
  | .ended .behind env s => next env s
  | _ => o

def conclude (env : Env V) (results : List Val) (v : Option V) (s : S) : Outcome V S F :=
  match env.define? results v with
  | some env' => .ended .behind env' s
  | none => .stuck

/-- The evaluation of a block, and the value that it ends with. -/
structure Region (V S F : Type) where
  run : Env V → S → Outcome V S F
  value : Option Nat

def Region.valued (r : Region V S F) (env : Env V) (s : S)
    (next : V → Env V → S → Outcome V S F) : Outcome V S F :=
  (r.run env s).andThen fun env s =>
    match r.value.bind env with
    | some v => next v env s
    | none => .stuck

def yieldOf (ops : List Op) : Option Val :=
  ops.getLast?.bind fun o =>
    match o.flat?, o.operands with
    | some .yield, v :: _ => some v
    | _, _ => none

/-- The truth value of the first operand that settles a lazy operator. -/
def settling? : String → Option Bool
  | "and" => some false
  | "or" => some true
  | _ => none

namespace Meaning

variable (M : Meaning V S F)

def test (v : Option V) (next : Bool → Outcome V S F) : Outcome V S F :=
  match v.bind M.truth? with
  | some b => next b
  | none => .stuck

/-- Run a body as long as a condition holds, for a number of turns at most. -/
def repeated (cond body : Region V S F) : Nat → Env V → S → Outcome V S F
  | 0, env, s => .ended .starved env s
  | n + 1, env, s =>
    cond.valued env s fun v env s =>
      M.test (some v) fun b =>
        if b then (body.run env s).andThen (repeated cond body n)
        else .ended .behind env s

def lazily (op : String) (lhs rhs : Region V S F) (results : List Val) (env : Env V) (s : S) :
    Outcome V S F :=
  match settling? op with
  | some stop =>
    lhs.valued env s fun v env s =>
      M.test (some v) fun b =>
        if b = stop then conclude env results (some v) s
        else rhs.valued env s fun v env s => conclude env results (some v) s
  | none => .stuck

def straight (code : FlatCode) (id : Nat) (operands results : List Val) (env : Env V) (s : S) :
    Outcome V S F :=
  match operands.mapM fun v => env v.id with
  | some args =>
    match M.operate code id args env s with
    | .value v s => conclude env results v s
    | .failed why s => .ended (.failed why) env s
    | .starved s => .ended .starved env s
    | .stuck => .stuck
  | none => .stuck

/-- The evaluation of an operation whose blocks can be evaluated, with the number of turns after
which a loop is given up. -/
def perform (n id : Nat) (code : Opcode) (operands results : List Val)
    (regions : List (Region V S F)) (env : Env V) (s : S) : Outcome V S F :=
  match code, regions with
  | .flat .branch, yes :: no :: _ =>
    M.test (operands.head?.bind fun v => env v.id) fun b => (if b then yes else no).run env s
  | .flat .choice, yes :: no :: _ =>
    M.test (operands.head?.bind fun v => env v.id) fun b =>
      (if b then yes else no).valued env s fun v env s => conclude env results (some v) s
  | .flat (.lazyBinary op), lhs :: rhs :: _ => M.lazily op lhs rhs results env s
  | .flat .loop, cond :: body :: _ => M.repeated cond body n env s
  | .flat .ret, _ =>
    match operands.mapM fun v => env v.id with
    | some [v] => .ended (.returned v) env s
    | _ => .stuck
  | .flat .yield, _ => .ended .behind env s
  | .flat (.funcDef ..), _ => .ended .behind env s
  | .flat code, _ => M.straight code id operands results env s
  | _, _ => .stuck

mutual

def evalOps (n : Nat) : List Op → Env V → S → Outcome V S F
  | [] => .ended .behind
  | o :: os => fun env s => (evalOp n o env s).andThen (evalOps n os)

def evalOp (n : Nat) : Op → Env V → S → Outcome V S F
  | .mk id code operands results regions =>
    M.perform n id code operands results (evalRegions n regions)

def evalRegions (n : Nat) : List Block → List (Region V S F)
  | [] => []
  | .mk _ ops :: bs => { run := evalOps n ops, value := (yieldOf ops).map Val.id } :: evalRegions n bs

end

end Meaning

end Practicum.Flat
