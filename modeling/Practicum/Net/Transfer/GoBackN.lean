import Practicum.Net.Transfer.Thread

/-!
# Go back N

The sender keeps a window of packets in flight and one timer for all of them; when the timer is
overdue it sends the whole window again. An acknowledgement stands for all packets up to its
number. The receiver accepts packets in order only.
-/

namespace Practicum.Net.Transfer.GoBackN

structure Sender where
  count : Nat
  window : Int
  limit : Int
  base : Nat := 0
  next : Nat := 0
  timer : Option Int := none
  deriving DecidableEq, Repr

namespace Sender

def start (window limit : Int) (count : Nat) : Sender :=
  { count, window, limit }

def finished (s : Sender) : Bool :=
  s.count ≤ s.base

def sendNext (now : Int) (s : Sender) : Sender × List Nat :=
  if (s.next : Int) < min (s.base + s.window) s.count then
    let timer := if s.base = s.next && s.timer.isNone then startTimer now else s.timer
    ({ s with next := s.next + 1, timer }, [s.next])
  else (s, [])

def acknowledge (now : Int) (number : Nat) (s : Sender) : Sender :=
  let base := number + 1
  let timer :=
    if base = s.next then none else if s.timer.isNone then startTimer now else s.timer
  { s with base, timer }

def resend (now : Int) (s : Sender) : Sender × List Nat :=
  match s.timer with
  | some since =>
    if overdue now since s.limit then
      ({ s with timer := startTimer now }, (List.range (s.next - s.base)).map (s.base + ·))
    else (s, [])
  | none => (s, [])

def listen (now : Int) : List (Option Nat) → Sender → Watched Sender
  | answers, s =>
    if s.finished then { state := s, ended := true }
    else
      match answers with
      | [] => { state := s }
      | none :: rest => listen now rest s
      | some number :: rest => listen now rest (s.acknowledge now number)

def threads : Threads Sender :=
  { finished, sendNext, resend, listen }

end Sender

structure Receiver where
  expected : Nat := 0
  confirmed : Nat := 0
  written : Bytes := []
  ended : Bool := false
  deriving DecidableEq, Repr

namespace Receiver

/-- Takes a packet. Any packet but the expected one is answered by the last acknowledgement. -/
def take (r : Receiver) (packet : Bytes) : Except TransferError (Reaction Receiver) := do
  let mark ← markOf packet
  if numberOf packet ≠ r.expected then
    return { state := r, sent := [ackBytes r.confirmed] }
  else
    return {
      state :=
        { expected := r.expected + 1
          confirmed := r.expected
          written := r.written ++ dataOf packet
          ended := mark = 1 }
      sent := [ackBytes r.expected]
      printed := "received " ++ toString (r.expected + 1) ++ " KB\n" }

/-- The acknowledgements after the end, fifty in all, each for a packet beyond the last one. -/
def farewell (r : Receiver) : Except TransferError (List Bytes) :=
  let number := r.expected + 1
  if number < 65536 then .ok (List.replicate 50 (ackBytes number)) else .error .numberTooLarge

end Receiver

end Practicum.Net.Transfer.GoBackN
