import Practicum.Net.Packet

/-! # Messages to a switch -/

namespace Practicum.Net.Switch

inductive Field where
  | inPort
  | ethSource
  | ethTarget
  | ethType
  | ipProtocol
  | ipv4Source
  | ipv4Target
  | tcpSource
  | tcpTarget
  | other (name : String)
  deriving DecidableEq, Repr

namespace Field

def known : List (Field × String) :=
  [(inPort, "in_port"), (ethSource, "eth_src"), (ethTarget, "eth_dst"), (ethType, "eth_type"),
   (ipProtocol, "ip_proto"), (ipv4Source, "ipv4_src"), (ipv4Target, "ipv4_dst"),
   (tcpSource, "tcp_src"), (tcpTarget, "tcp_dst")]

def name (f : Field) : String :=
  match f with
  | other name => name
  | f => (known.lookup f).getD ""

def ofName (name : String) : Field :=
  match known.find? (·.2 = name) with
  | some (f, _) => f
  | none => other name

end Field

inductive FieldValue where
  | number (n : Int)
  | mac (m : WrittenMac)
  | address (a : Address)
  | text (s : String)
  | absent
  deriving DecidableEq, Repr

namespace FieldValue

open Packet

def asNumber : FieldValue → Except WriteError Int
  | number n => .ok n
  | _ => .error .tooLarge

def asAddress : FieldValue → Except WriteError Address
  | address a => .ok a
  | number n =>
    if 0 ≤ n ∧ n < 0x100000000 then .ok (.ofNat .v4 n.toNat) else .error (.badAddress (toString n))
  | mac m => .error (.badAddress m.text)
  | text s => .error (.badAddress s)
  | absent => .error .noAddress

end FieldValue

inductive Action where
  | output (port : Int)
  | set (field : Field) (value : FieldValue)
  deriving DecidableEq, Repr

abbrev Match := List (Field × FieldValue)

def noBuffer : Int := 4294967295

def floodPort : Int := 4294967291

def controllerPort : Int := 4294967293

inductive RuleCommand where
  | add
  | delete
  deriving DecidableEq, Repr

def RuleCommand.code : RuleCommand → Int
  | add => 0
  | delete => 3

structure RuleChange where
  command : RuleCommand := .add
  priority : Int := 32768
  buffer : Int := noBuffer
  idleTimeout : Int := 0
  report : Bool := false
  fields : Match
  actions : List Action := []
  deriving DecidableEq, Repr

inductive Message where
  | packetOut (buffer inPort : Int) (actions : List Action) (data : Option Bytes)
  | rule (change : RuleChange)
  deriving DecidableEq, Repr

inductive SwitchError where
  | noEthernet
  | noArp
  | unwritable (cause : Packet.WriteError)
  | badKey
  | shortKey
  deriving DecidableEq, Repr

def SwitchError.fault : SwitchError → Fault
  | noEthernet => .outOfRange
  | noArp => .outOfRange
  | unwritable cause => cause.fault
  | badKey => .badValue
  | shortKey => .outOfRange

end Practicum.Net.Switch
