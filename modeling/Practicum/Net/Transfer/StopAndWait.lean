import Practicum.Net.Transfer.Thread

/-!
# Stop and wait

The sender numbers its packets by a single bit. It sends a packet again until its bit is
acknowledged, and only then goes on to the next one. The receiver accepts a packet with the bit
that it expects, and answers any other one by the opposite bit.
-/

namespace Practicum.Net.Transfer.StopAndWait

def bitNumber (bit : Bool) : Nat :=
  if bit then 1 else 0

/-- What the sender knows: the pieces that are not acknowledged yet, and the bit of the first. -/
structure Sender where
  pending : List Piece
  bit : Bool := false
  retransmissions : Nat := 0
  deriving DecidableEq, Repr

namespace Sender

def start (file : Bytes) : Sender :=
  { pending := pieces pieceSize file }

def current? (s : Sender) : Option Bytes :=
  s.pending.head?.map fun p => frame (bitNumber s.bit) (Piece.mark p) p.1

def finished (s : Sender) : Bool :=
  s.pending.isEmpty

def hear (s : Sender) (answer : Option Nat) : Sender × List Bytes :=
  let s :=
    if answer = some (bitNumber s.bit) then { s with pending := s.pending.tail, bit := !s.bit }
    else { s with retransmissions := s.retransmissions + 1 }
  (s, s.current?.toList)

end Sender

structure Receiver where
  expected : Bool := false
  accepted : Nat := 0
  written : Bytes := []
  ended : Bool := false
  deriving DecidableEq, Repr

namespace Receiver

/-- Takes a packet. The mark counts whether or not the packet is accepted. -/
def take (r : Receiver) (packet : Bytes) : Except TransferError (Reaction Receiver) := do
  let mark ← markOf packet
  let r := { r with ended := mark = 1 }
  if numberOf packet ≠ bitNumber r.expected then
    return { state := r, sent := [ackBytes (bitNumber !r.expected)] }
  else
    return {
      state :=
        { r with
          expected := !r.expected
          accepted := r.accepted + 1
          written := r.written ++ dataOf packet }
      sent := [ackBytes (bitNumber r.expected)]
      printed := "pkt " ++ toString (bitNumber r.expected) ++ ": received "
        ++ toString r.accepted ++ " KB\n" }

def farewell (r : Receiver) : List Bytes :=
  (List.range 50).map fun i => ackBytes (bitNumber (r.expected ^^ (i % 2 = 0)))

end Receiver

end Practicum.Net.Transfer.StopAndWait
