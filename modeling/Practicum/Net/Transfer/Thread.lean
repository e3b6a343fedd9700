import Practicum.Fault
import Practicum.Net.Bytes

/-!
# Threads of a sender

A sender with a window runs three threads on one state: one sends the next packet, one listens for
acknowledgements, one sends again what is overdue. Each of them repeats a step, under a lock, until
the sender has finished. A schedule says which thread runs, for how many steps, and at what time.
-/

namespace Practicum.Net.Transfer

/-!
## Pieces and packets of a file

A file travels in pieces of a fixed size. Each piece is packed behind a header of three bytes: the
piece's number in two bytes, and a mark that is set on the last piece.

There are two ways of cutting a file. `pieces` reads piece after piece until nothing is left, so
that an empty file has none; `chunks` computes the number of pieces first, and the last one is
whatever remains, so that an empty file has one empty piece.
-/

inductive TransferError where
  | numberTooLarge
  | noMark
  | noSlot
  | unknownPacket
  | noSize
  | silence
  deriving DecidableEq, Repr

def TransferError.fault : TransferError → Fault
  | numberTooLarge => .overflow
  | noMark => .outOfRange
  | noSlot => .outOfRange
  | unknownPacket => .outOfRange
  | noSize => .divisionByZero
  | silence => .timeout "timed out"

abbrev Piece := Bytes × Bool

def pieceSize : Nat := 1024

def pieces (size : Nat) (file : Bytes) : List Piece :=
  if h : file = [] ∨ size = 0 then []
  else (file.take size, (file.drop size).isEmpty) :: pieces size (file.drop size)
termination_by file.length
decreasing_by
  have hfile : file ≠ [] := fun hf => h (Or.inl hf)
  have hsize : size ≠ 0 := fun hs => h (Or.inr hs)
  have hlength := List.length_pos_iff.mpr hfile
  simp only [List.length_drop]
  omega

/-- The bytes from a position on; a negative position counts from the end. -/
def dropFrom (position : Int) (file : Bytes) : Bytes :=
  if 0 ≤ position then file.drop position.toNat else file.drop (file.length + position).toNat

def fullChunks (size : Int) (length : Nat) : Int :=
  let count := (length : Int).fdiv size
  if count * size = length then count - 1 else count

def chunks (size : Int) (file : Bytes) : Except TransferError (List Piece) :=
  if size = 0 then .error .noSize
  else
    let count := fullChunks size file.length
    let full := (List.range count.toNat).map fun i =>
      (file.slice (i * size.toNat) (i * size.toNat + size.toNat), false)
    .ok (full ++ [(dropFrom (count * size) file, true)])

def frame (number mark : Nat) (data : Bytes) : Bytes :=
  Bytes.ofNat 2 number ++ Bytes.ofNat 1 mark ++ data

def encode (number mark : Int) (data : Bytes) : Except TransferError Bytes :=
  if 0 ≤ number ∧ number < 65536 ∧ 0 ≤ mark ∧ mark < 256 then
    .ok (frame number.toNat mark.toNat data)
  else .error .numberTooLarge

def Piece.mark (p : Piece) : Nat :=
  if p.2 then 1 else 0

def Piece.packet (number : Nat) (p : Piece) : Except TransferError Bytes :=
  encode number (Piece.mark p) p.1

def packetsFrom (number : Nat) : List Piece → Except TransferError (List Bytes)
  | [] => .ok []
  | p :: rest => do
    let packet ← Piece.packet number p
    return packet :: (← packetsFrom (number + 1) rest)

def filePackets (file : Bytes) : Except TransferError (List Bytes) := do
  packetsFrom 0 (← chunks pieceSize file)

def numberOf (packet : Bytes) : Nat :=
  Bytes.toNat (packet.take 2)

def markOf (packet : Bytes) : Except TransferError Nat :=
  match packet[2]? with
  | some mark => .ok mark.toNat
  | none => .error .noMark

def dataOf (packet : Bytes) : Bytes :=
  packet.drop 3

def ackBytes (number : Nat) : Bytes :=
  Bytes.ofNat 2 number

structure Reaction (σ : Type) where
  state : σ
  sent : List Bytes := []
  printed : String := ""

/-!
## Timers

Times are counted in milliseconds. A timer is overdue when more time has passed than its limit;
the comparison is made in seconds, as floating point numbers. One second before the time zero is
kept for a timer that does not run.
-/

def seconds (ms : Int) : Float :=
  Float.ofInt ms / 1000

def stopped : Int := -1000

def startTimer (now : Int) : Option Int :=
  if now = stopped then none else some now

def overdue (now since limit : Int) : Bool :=
  seconds limit < seconds now - seconds since

/-- A thread that was watched: the state it left, the numbers of the packets it sent, whether it
came to its end, and the error that stopped it. -/
structure Watched (σ : Type) where
  state : σ
  sent : List Nat := []
  ended : Bool := false
  error : Option TransferError := none
  deriving Repr

def watch {σ : Type} (finished : σ → Bool) (step : σ → σ × List Nat) : Nat → σ → Watched σ
  | steps, s =>
    if finished s then { state := s, ended := true }
    else
      match steps with
      | 0 => { state := s }
      | steps + 1 =>
        let (s, sent) := step s
        let rest := watch finished step steps s
        { rest with sent := sent ++ rest.sent }

structure Threads (σ : Type) where
  finished : σ → Bool
  sendNext : Int → σ → σ × List Nat
  resend : Int → σ → σ × List Nat
  listen : Int → List (Option Nat) → σ → Watched σ

inductive Turn where
  | send (steps : Nat)
  | resend (steps : Nat)
  | listen (answers : List (Option Nat))
  | clock (now : Int)
  deriving DecidableEq, Repr

inductive Ending where
  | returned
  | waiting
  | timeSet
  | failed (e : TransferError)
  deriving DecidableEq, Repr

/-- What an entry of a schedule does: the state it leaves, the packets it sends, and its end. -/
structure Observation (σ : Type) where
  state : σ
  sent : List Nat
  ending : Ending
  deriving Repr

def Watched.observation {σ : Type} (w : Watched σ) : Observation σ :=
  let ending := match w.error with
    | some e => .failed e
    | none => if w.ended then .returned else .waiting
  { state := w.state, sent := w.sent, ending }

def Threads.run {σ : Type} (t : Threads σ) (now : Int) (s : σ) : List Turn → List (Observation σ)
  | [] => []
  | .clock now :: turns => { state := s, sent := [], ending := .timeSet } :: t.run now s turns
  | turn :: turns =>
    let w := match turn with
      | .send steps => watch t.finished (t.sendNext now) steps s
      | .resend steps => watch t.finished (t.resend now) steps s
      | .listen answers => t.listen now answers s
      | .clock _ => { state := s }
    w.observation :: t.run now w.state turns

end Practicum.Net.Transfer
