import Practicum.Net.Transfer.Thread

/-!
# Selective repeat

Every packet has a timer and an acknowledgement of its own. The receiver keeps the packets of its
window in slots until those before them have arrived. The sender stops when its last packet is
acknowledged.
-/

namespace Practicum.Net.Transfer.SelectiveRepeat

structure Flight where
  acked : Bool := false
  timer : Option Int := none
  deriving DecidableEq, Repr

/-- The time since when the timer of a packet runs; one before the time zero does not run. -/
def Flight.since? (f : Flight) : Option Int :=
  f.timer.filter (0 ≤ ·)

structure Sender where
  window : Int
  limit : Int
  packets : List Flight
  base : Nat := 0
  next : Nat := 0
  deriving DecidableEq, Repr

namespace Sender

def start (window limit : Int) (count : Nat) : Sender :=
  { window, limit, packets := List.replicate count {} }

def finished (s : Sender) : Bool :=
  (s.packets.getLast?.map Flight.acked).getD true

def sendNext (now : Int) (s : Sender) : Sender × List Nat :=
  if (s.next : Int) < min (s.base + s.window) s.packets.length then
    let started (f : Flight) : Flight :=
      if f.since?.isNone then { f with timer := some now } else f
    ({ s with next := s.next + 1, packets := s.packets.modify s.next started }, [s.next])
  else (s, [])

/-- Hears an acknowledgement. The window moves on to the first packet that is not acknowledged,
unless the last packet is. -/
def acknowledge (number : Nat) (s : Sender) : Except TransferError Sender :=
  if number < s.packets.length then
    let packets := s.packets.set number { acked := true, timer := none }
    let s := { s with packets }
    if s.finished then .ok s
    else .ok { s with base := s.base + (packets.drop s.base).findIdx (fun f => !f.acked) }
  else .error .unknownPacket

/-- The packets whose timers are looked at: those of the window. An end before the first packet
counts from the end. -/
def watched (s : Sender) : List Nat :=
  let stop := s.base + s.window
  let stop := if stop < 0 then stop + s.packets.length else stop
  (List.range s.packets.length).filter fun i => s.base ≤ i && (i : Int) < stop

def due (now : Int) (s : Sender) (i : Nat) : Bool :=
  match s.packets[i]? with
  | some f => !f.acked && f.since?.any fun since => overdue now since s.limit
  | none => false

def resend (now : Int) (s : Sender) : Sender × List Nat :=
  let again := s.watched.filter (s.due now)
  let restart (packets : List Flight) (i : Nat) : List Flight :=
    packets.modify i fun f => { f with timer := some now }
  ({ s with packets := again.foldl restart s.packets }, again)

/-- Listens for acknowledgements. Silence stops the listener, and so does an acknowledgement for
a packet that does not exist. -/
def listen : List (Option Nat) → Sender → Watched Sender
  | answers, s =>
    if s.finished then { state := s, ended := true }
    else
      match answers with
      | [] => { state := s }
      | none :: _ => { state := s, ended := true }
      | some number :: rest =>
        match s.acknowledge number with
        | .ok s => listen rest s
        | .error e => { state := s, error := some e }

def threads : Threads Sender :=
  { finished, sendNext, resend, listen := fun _ => listen }

end Sender

structure Receiver where
  base : Nat := 0
  /-- The packets of the window that have arrived; the others are empty. -/
  slots : List Bytes
  written : Bytes := []
  ended : Bool := false
  deriving DecidableEq, Repr

namespace Receiver

def start (window : Int) : Receiver :=
  { slots := List.replicate window.toNat [] }

def inWindow (r : Receiver) (number : Nat) : Bool :=
  r.base ≤ number && number < r.base + r.slots.length

def deliver (r : Receiver) : Except TransferError (Reaction Receiver) :=
  if r.slots.isEmpty then .error .noSlot
  else
    let ready := r.slots.takeWhile (· ≠ [])
    let state : Receiver :=
      { base := r.base + ready.length
        slots := r.slots.drop ready.length ++ List.replicate ready.length []
        written := r.written ++ (ready.map dataOf).flatten
        ended := r.ended || ready.any fun packet => (packet[2]?.getD 0) ≠ 0 }
    let lines := (List.range ready.length).map fun i =>
      "received " ++ toString (r.base + i + 1) ++ " KB\n"
    .ok { state, printed := String.join lines }

/-- Takes a packet. Packets before and in the window are acknowledged; a datagram without a full
header is ignored. -/
def take (r : Receiver) (packet : Bytes) : Except TransferError (Reaction Receiver) := do
  if packet.length < 3 then return { state := r }
  else
    let number := numberOf packet
    let inside := r.inWindow number
    let sent := if number < r.base || inside then [ackBytes number] else []
    let r := if inside then { r with slots := r.slots.set (number - r.base) packet } else r
    return { ← r.deliver with sent }

end Receiver

end Practicum.Net.Transfer.SelectiveRepeat
