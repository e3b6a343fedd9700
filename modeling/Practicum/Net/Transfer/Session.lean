import Practicum.Decimal
import Practicum.Folder
import Practicum.Net.Transfer.GoBackN
import Practicum.Net.Transfer.SelectiveRepeat
import Practicum.Net.Transfer.StopAndWait

/-!
# Transfer sessions

The senders and receivers as commands. A session is what one run of such a command does. The
datagrams that reach it are given as a list; a command that needs more than there are keeps waiting.
-/

/-!
## Transfer without acknowledgements

The sender sends each packet once. The receiver writes every packet whose number it has not seen
yet, in the order of arrival, and stops at the first packet that is marked as the last.
-/

namespace Practicum.Net.Transfer.Unconfirmed

structure Receiver where
  seen : List Nat := []
  written : Bytes := []
  ended : Bool := false
  deriving DecidableEq, Repr

def Receiver.take (r : Receiver) (packet : Bytes) : Except TransferError (Reaction Receiver) := do
  let number := numberOf packet
  let mark ← markOf packet
  let r := { r with ended := mark ≠ 0 }
  let line := "pkt " ++ toString number ++ ": "
  if number ∈ r.seen then return { state := r, printed := line ++ "skipped\n" }
  else
    return {
      state := { r with seen := r.seen ++ [number], written := r.written ++ dataOf packet }
      printed := line ++ "received " ++ toString packet.length ++ " bytes\n" }

/-- A packet that cannot be built ends the sending. -/
def sendBefore (later : List Bytes × Option TransferError) :
    Except TransferError Bytes → List Bytes × Option TransferError
  | .ok packet => (packet :: later.1, later.2)
  | .error e => ([], some e)

def sendAll (number : Nat) : List Piece → List Bytes × Option TransferError
  | [] => ([], none)
  | p :: rest => sendBefore (sendAll (number + 1) rest) (Piece.packet number p)

end Practicum.Net.Transfer.Unconfirmed

namespace Practicum.Net.Transfer

inductive SocketCall where
  | bind (host : String) (port : Int)
  | setTimeout (ms : Int)
  | close
  deriving DecidableEq, Repr

structure Outgoing where
  data : Bytes
  host : String
  port : Int
  deriving DecidableEq, Repr

structure Session where
  printed : String := ""
  sent : List Outgoing := []
  calls : List SocketCall := []
  naps : Nat := 0
  /-- The file that the command opened for writing, if it did, with what it wrote. -/
  written : Option (String × Bytes) := none
  waiting : Bool := false
  fault : Option Fault := none
  deriving DecidableEq, Repr

namespace Session

def usage (text : String) : Session :=
  { printed := "Usage: python3 " ++ text ++ "\n", fault := some (.exit 1 "") }

def failing (fault : Fault) : Session :=
  { fault := some fault }

def closed (s : Session) : Session :=
  { s with calls := s.calls ++ [.close] }

def print (text : String) (s : Session) : Session :=
  { s with printed := s.printed ++ text }

end Session

def rate (places : Nat) (file : Bytes) : String :=
  Decimal.fixed places false file.length 1024

def argument (text : String) : Except Fault Int :=
  match Text.readInteger? text with
  | some n => .ok n
  | none => .error .badValue

def fetch (files : Folder Bytes) (path : String) : Except Fault Bytes :=
  (files.read [] path).mapError (PathError.fault path)

def orFailing (s : Except Fault Session) : Session :=
  match s with
  | .ok s => s
  | .error f => Session.failing f

/-! ## Receivers -/

structure Served (σ : Type) where
  state : σ
  sent : List Bytes := []
  printed : String := ""
  rest : List (Option Bytes) := []
  waiting : Bool := false
  fault : Option Fault := none

/-- Serves datagrams, each cut to the size of a packet, until the receiver has ended. -/
def serve {σ : Type} (take : σ → Bytes → Except TransferError (Reaction σ)) (ended : σ → Bool) :
    List (Option Bytes) → σ → Served σ
  | inbox, s =>
    if ended s then { state := s, rest := inbox }
    else
      match inbox with
      | [] => { state := s, waiting := true }
      | none :: _ => { state := s, fault := some TransferError.silence.fault }
      | some packet :: inbox =>
        match take s (packet.take 1027) with
        | .error e => { state := s, fault := some e.fault }
        | .ok r =>
          let later := serve take ended inbox r.state
          { later with sent := r.sent ++ later.sent, printed := r.printed ++ later.printed }

def answering (data : List Bytes) : List Outgoing :=
  data.map fun d => { data := d, host := "peer", port := 9 }

/-- The session of a receiver, which opens its file and then serves datagrams. It goes on with
`finish` if its loop comes to an end. -/
def Served.session {σ : Type} (s : Served σ) (files : Folder Bytes) (port : Int) (path : String)
    (written : σ → Bytes) (finish : Session → Session) : Session :=
  let opening : Session :=
    { printed := "Setting up socket ...\nListening on port: " ++ toString port ++ " ...\n"
      calls := [.bind "localhost" port] }
  match files.place [] path with
  | .error e => { opening with fault := some (e.fault path) }
  | .ok name =>
    let looped :=
      { opening with
        printed := opening.printed ++ s.printed
        sent := answering s.sent
        written := some (name, written s.state)
        waiting := s.waiting
        fault := s.fault }
    if s.waiting || s.fault.isSome then looped else finish looped

def sayFarewell (acks : List Bytes) (s : Session) : Session :=
  { s with sent := s.sent ++ answering acks, naps := s.naps + acks.length }

/-- Answers late packets by their own numbers until nothing came five times. -/
def linger : Nat → List (Option Bytes) → List Bytes × Bool
  | 0, _ => ([], false)
  | _, [] => ([], true)
  | n + 1, none :: inbox => linger n inbox
  | n + 1, some packet :: inbox =>
    let (sent, waiting) := linger (n + 1) inbox
    (packet.take 2 :: sent, waiting)

def receiverUsage : Session :=
  .usage "Receiver.py1 <Port> <Filename>"

/-! ## Senders -/

structure Exchanged where
  sender : StopAndWait.Sender
  sent : List Bytes := []
  waiting : Bool := false

/-- Hears answers, each cut to two bytes, until all packets are acknowledged. -/
def exchange : List (Option Bytes) → StopAndWait.Sender → Exchanged
  | inbox, s =>
    if s.finished then { sender := s }
    else
      match inbox with
      | [] => { sender := s, waiting := true }
      | answer :: inbox =>
        let (s, sent) := s.hear (answer.map fun data => Bytes.toNat (data.take 2))
        let later := exchange inbox s
        { later with sent := sent ++ later.sent }

def sending (host : String) (port : Int) (data : List Bytes) : List Outgoing :=
  data.map fun d => { data := d, host, port }

/-! ## Commands -/

inductive Protocol where
  | unconfirmed
  | stopAndWait
  | goBackN
  | selectiveRepeat
  deriving DecidableEq, Repr

def Protocol.receive (p : Protocol) (args : List String) (files : Folder Bytes)
    (inbox : List (Option Bytes)) : Session :=
  match p, args with
  | .unconfirmed, [port, path] => orFailing do
    let port ← argument port
    let served := serve Unconfirmed.Receiver.take (·.ended) inbox {}
    return served.session files port path (·.written) Session.closed
  | .stopAndWait, [port, path] => orFailing do
    let port ← argument port
    let served := serve StopAndWait.Receiver.take (·.ended) inbox {}
    return served.session files port path (·.written) fun s =>
      ((sayFarewell served.state.farewell s).print "\nDone!\n").closed
  | .goBackN, [port, path] => orFailing do
    let port ← argument port
    let served := serve GoBackN.Receiver.take (·.ended) inbox {}
    return served.session files port path (·.written) fun s =>
      match served.state.farewell with
      | .ok acks => ((sayFarewell acks s).print "Done!\n").closed
      | .error e => { s with fault := some e.fault }
  | .selectiveRepeat, [port, path, window] => orFailing do
    let port ← argument port
    let window ← argument window
    let served := serve SelectiveRepeat.Receiver.take (·.ended) inbox (.start window)
    return served.session files port path (·.written) fun s =>
      let (late, waiting) := linger 5 served.rest
      let s := { s with
        calls := s.calls ++ [SocketCall.setTimeout 1000]
        sent := s.sent ++ answering late }
      if waiting then { s with waiting }
      else (s.print "\nData written successfully!\n").closed
  | _, _ => receiverUsage

def sendOnce (host port path : String) (files : Folder Bytes) : Except Fault Session := do
  let port ← argument port
  let s : Session := { printed := "Setting up socket ...\nReading file ...\n" }
  match fetch files path with
  | .error f => return { s with fault := some f }
  | .ok file =>
    let (packets, error) := Unconfirmed.sendAll 0 (pieces pieceSize file)
    let line (packet : Bytes) (i : Nat) : String :=
      "\rpkt " ++ toString i ++ ": sent " ++ toString packet.length ++ " bytes"
    let s :=
      { s with
        sent := sending host port packets
        naps := packets.length
        printed := s.printed ++ String.join (packets.zipIdx.map fun (packet, i) => line packet i) }
    match error with
    | some e => return { s with fault := some e.fault }
    | none => return (s.closed).print "\nDone!\n"

def sendAndWait (host port path limit : String) (files : Folder Bytes) (inbox : List (Option Bytes)) :
    Except Fault Session := do
  let port ← argument port
  let limit ← argument limit
  let file ← fetch files path
  let start := StopAndWait.Sender.start file
  let done := exchange inbox start
  let s : Session :=
    { calls := [.setTimeout limit]
      sent := sending host port (start.current?.toList ++ done.sent)
      waiting := done.waiting }
  if done.waiting then return s
  else
    let retransmissions := toString done.sender.retransmissions
    return (s.print (retransmissions ++ "    " ++ rate 2 file ++ "\n")).closed

structure WindowArgs where
  packets : List Bytes
  limit : Int
  window : Int
  file : Bytes

def windowArgs (port path limit window : String) (files : Folder Bytes) : Except Fault WindowArgs := do
  let _ ← argument port
  let limit ← argument limit
  let window ← argument window
  let file ← fetch files path
  let packets ← (filePackets file).mapError TransferError.fault
  return { packets, limit, window, file }

/-- The command that sends a file. The threads of a sender with a window are started and run on
their own, so that its session has only the report. -/
def Protocol.send (p : Protocol) (args : List String) (files : Folder Bytes)
    (inbox : List (Option Bytes)) : Session :=
  match p, args with
  | .unconfirmed, [host, port, path] => orFailing (sendOnce host port path files)
  | .unconfirmed, _ => .usage "Sender1.py <RemoteHost> <Port> <Filename>"
  | .stopAndWait, [host, port, path, limit] =>
    orFailing (sendAndWait host port path limit files inbox)
  | .stopAndWait, _ => .usage "Sender2.py <RemoteHost> <Port> <Filename> <RetryTimeout>"
  | p, [_, port, path, limit, window] => orFailing do
    let a ← windowArgs port path limit window files
    let places := if p = .goBackN then 2 else 6
    let s : Session := { printed := rate places a.file ++ "\n" }
    return s.closed
  | _, _ =>
    .usage "Sender3.py <RemoteHost> <Port> <Filename> <RetryTimeout> <WindowSize>"

end Practicum.Net.Transfer
