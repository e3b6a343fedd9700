import Practicum.Net.Switch.Message
import Practicum.Table

/-!
# What a gateway does

How a gateway handles the events of its switch. A packet that may pass is sent on
by the gateway itself; at the same time a rule is installed by which the switch itself passes the
packets that follow.
-/

namespace Practicum.Net.Switch

/-!
## Gateways

A gateway lets the hosts of an inner network share one public address. Its table gives
each connection from inside a public port. An entry expires when the switch reports that one of its
rules is gone; an expired entry is revived by a packet from inside, or gives its port to the next
new connection.
-/

structure Connection where
  privateIp : FieldValue
  privatePort : FieldValue
  remoteIp : FieldValue
  remotePort : FieldValue
  deriving DecidableEq, Repr

structure Entry where
  publicPort : Int
  expired : Bool := false
  privateIp : FieldValue
  privatePort : FieldValue
  inPort : Int
  deriving DecidableEq, Repr

structure Gateway where
  hosts : Table Address WrittenMac
  publicIp : FieldValue
  innerMac : WrittenMac
  outerMac : WrittenMac
  capacity : Int := 65000
  nextPort : Int := 1
  timeout : Int := 10
  table : Table Connection Entry := []
  deriving DecidableEq, Repr

def outerPort : Int := 1

/-- The key of a look-up: a connection, or values of another number. -/
inductive Key where
  | connection (c : Connection)
  | other (parts : List FieldValue)
  deriving DecidableEq, Repr

namespace Key

def ofParts : List FieldValue → Key
  | [privateIp, privatePort, remoteIp, remotePort] =>
    connection { privateIp, privatePort, remoteIp, remotePort }
  | parts => other parts

def port? : Key → Option FieldValue
  | connection c => some c.remotePort
  | other parts => parts[3]?

end Key

namespace Gateway

def ipv4 (a b c d : Nat) : Address :=
  Address.ofNat .v4 (((a * 256 + b) * 256 + c) * 256 + d)

def initial : Gateway :=
  { hosts :=
      [(ipv4 10 0 1 100, .ofMac ⟨1⟩), (ipv4 10 0 2 100, .ofMac ⟨2⟩), (ipv4 10 0 2 101, .ofMac ⟨3⟩)]
    publicIp := .address (ipv4 10 0 1 2)
    innerMac := .ofMac ⟨0x10⟩
    outerMac := .ofMac ⟨0x20⟩ }

def macOf (t : Gateway) (host : Address) (default : Mac) : WrittenMac :=
  (t.hosts.get? host).getD (.ofMac default)

def findPublic? (t : Gateway) (port : FieldValue) : Option (Connection × Entry) :=
  t.table.find? fun (_, e) => .number e.publicPort = port && !e.expired

def mark (c : Connection) (expired : Bool) (t : Gateway) : Gateway :=
  { t with table := t.table.update c fun e => { e with expired } }

def revive (t : Gateway) (c : Connection) : Gateway × Option Entry :=
  match t.table.get? c with
  | some e => (t.mark c false, some { e with expired := false })
  | none => (t, none)

def lookUp (t : Gateway) (key : Key) (fromOutside : Bool) :
    Except SwitchError (Gateway × Option Entry × Option Connection) :=
  if fromOutside then
    match key.port? with
    | some port =>
      let found := t.findPublic? port
      .ok (t, found.map Prod.snd, found.map Prod.fst)
    | none => if t.table.isEmpty then .ok (t, none, none) else .error .shortKey
  else
    match key with
    | .connection c =>
      let (t, e) := t.revive c
      .ok (t, e, some c)
    | .other _ => .ok (t, none, none)

def takeExpired : Table Connection Entry → Option Entry × Table Connection Entry
  | [] => (none, [])
  | (c, e) :: rest =>
    if e.expired then (some e, rest)
    else
      let (found, rest) := takeExpired rest
      (found, (c, e) :: rest)

def freshPort (t : Gateway) (expired : Option Entry) : Int × Int :=
  match expired with
  | some e => if 0 ≤ e.publicPort then (e.publicPort, t.nextPort) else (t.nextPort, t.nextPort % 65535 + 1)
  | none => (t.nextPort, t.nextPort % 65535 + 1)

/-- Makes an entry for a new connection. The first expired entry is taken out; if the table is
still full there is no new entry. -/
def connect (t : Gateway) (c : Connection) (inPort : Int) : Gateway × Option Entry :=
  let (expired, table) := takeExpired t.table
  let t := { t with table }
  if t.capacity ≤ (table.length : Int) then (t, none)
  else
    let (publicPort, nextPort) := t.freshPort expired
    let e : Entry := { publicPort, privateIp := c.privateIp, privatePort := c.privatePort, inPort }
    ({ t with table := table.put c e, nextPort }, some e)

/-- Makes an entry for a key. There is none for what comes from outside. -/
def addEntry (t : Gateway) (key : Key) (inPort : Int) :
    Except SwitchError (Gateway × Option Entry) :=
  if inPort = outerPort then .ok (t, none)
  else
    match key with
    | .connection c => .ok (t.connect c inPort)
    | .other _ => .error .badKey

end Gateway

open Packet

inductive Warning where
  | notTcp
  | notIpv4
  | unknownInbound
  | unknownFlow
  deriving DecidableEq, Repr

def Warning.text : Warning → String
  | notTcp => "WARN: Not TCP, dropping ..."
  | notIpv4 => "WARN: No IPv4 header, dropping ..."
  | unknownInbound => "WARN: No entry found, dropping inbound connection ..."
  | unknownFlow => "WARN: Exception while marking flow expired."

structure Handled (σ : Type) where
  state : σ
  sent : List Message := []
  warnings : List Warning := []
  error : Option SwitchError := none
  deriving DecidableEq, Repr

def sendOut (port : Int) (data : Bytes) : Message :=
  .packetOut noBuffer controllerPort [.output port] (some data)

structure RuleOptions where
  buffer : Option Int := none
  delete : Bool := false
  timeout : Int := 0
  deriving DecidableEq, Repr

def ruleMessage (priority : Int) (fields : Match) (actions : List Action) (o : RuleOptions) :
    Message :=
  if o.delete then .rule { command := .delete, fields }
  else
    .rule
      { priority, fields, actions
        buffer := o.buffer.getD noBuffer
        idleTimeout := o.timeout
        report := true }

structure FlowEnd where
  inPort : Option FieldValue := none
  ipv4Source : Option FieldValue := none
  tcpSource : Option FieldValue := none
  ipv4Target : Option FieldValue := none
  tcpTarget : Option FieldValue := none
  deriving DecidableEq, Repr

def FlowEnd.connection? (f : FlowEnd) : Option Connection := do
  return ⟨← f.ipv4Source, ← f.tcpSource, ← f.ipv4Target, ← f.tcpTarget⟩

namespace Gateway

def features (t : Gateway) : Handled Gateway :=
  { state := t, sent := [ruleMessage 0 [] [.output controllerPort] {}] }

def endedConnection? (t : Gateway) (f : FlowEnd) : Option Connection := do
  if (← f.inPort) = .number outerPort then
    let (c, _) ← t.findPublic? (← f.tcpTarget)
    return c
  else
    let c ← f.connection?
    let _ ← t.table.get? c
    return c

def flowRemoved (t : Gateway) (f : FlowEnd) : Handled Gateway :=
  match t.endedConnection? f with
  | some c => { state := t.mark c true }
  | none => { state := t, warnings := [.unknownFlow] }

def sideMac (t : Gateway) (inPort : Int) : WrittenMac :=
  if inPort = outerPort then t.outerMac else t.innerMac

def arpReply (t : Gateway) (inPort : Int) (e : Ethernet) (a : Arp) : Except WriteError Bytes := do
  let envelope : Envelope :=
    { target := .ofMac e.source, source := t.sideMac inPort, type := e.type }
  let header ← envelope.ethernet
  return header.write <| Arp.write
    { opcode := 2
      sourceMac := header.source
      sourceIp := a.targetIp
      targetMac := a.sourceMac
      targetIp := a.sourceIp }

def reset (t : Gateway) (e : Ethernet) (ip : Ipv4) (tcp : Tcp) : Except WriteError Bytes :=
  writeSegment { target := .ofMac e.source, source := t.innerMac, type := e.type }
    { protocol := ip.protocol, source := ip.target, target := ip.source }
    { sourcePort := tcp.targetPort, targetPort := tcp.sourcePort, flags := 4 }

/-- A passage of a packet: its new headers, the port it is sent to, and the rule for the
packets that follow. -/
structure Passage where
  envelope : Envelope
  ip : Ipv4
  tcp : Tcp
  port : Int
  fields : Match
  actions : List Action
  deriving DecidableEq, Repr

def outbound (t : Gateway) (inPort : Int) (e : Ethernet) (ip : Ipv4) (tcp : Tcp)
    (entry : Entry) : Except WriteError Passage := do
  let target := t.macOf ip.target e.target
  return {
    envelope := { target, source := t.outerMac, type := e.type }
    ip := { ip with source := ← t.publicIp.asAddress }
    tcp := { tcp with sourcePort := entry.publicPort }
    port := outerPort
    fields :=
      [(.ethType, .number typeIpv4), (.ipProtocol, .number protocolTcp),
       (.ipv4Source, .address ip.source), (.tcpSource, .number tcp.sourcePort),
       (.ipv4Target, .address ip.target), (.tcpTarget, .number tcp.targetPort),
       (.inPort, .number inPort)]
    actions :=
      [.set .ethSource (.mac t.outerMac), .set .ethTarget (.mac target),
       .set .ipv4Source t.publicIp, .set .tcpSource (.number entry.publicPort),
       .output outerPort] }

def inbound (t : Gateway) (inPort : Int) (e : Ethernet) (ip : Ipv4) (tcp : Tcp)
    (entry : Entry) : Except WriteError Passage := do
  let privatePort ← entry.privatePort.asNumber
  let privateIp ← entry.privateIp.asAddress
  let target := t.macOf privateIp e.target
  return {
    envelope := { target, source := t.innerMac, type := e.type }
    ip := { ip with target := privateIp }
    tcp := { tcp with targetPort := privatePort }
    port := entry.inPort
    fields :=
      [(.ethType, .number typeIpv4), (.ipProtocol, .number protocolTcp),
       (.ipv4Target, t.publicIp), (.tcpTarget, .number entry.publicPort),
       (.inPort, .number inPort)]
    actions :=
      [.set .ethSource (.mac t.innerMac), .set .ethTarget (.mac target),
       .set .ipv4Target entry.privateIp, .set .tcpTarget entry.privatePort,
       .output entry.inPort] }

def Passage.messages (timeout : Int) (r : Passage) : Except WriteError (List Message) := do
  let data ← writeSegment r.envelope r.ip r.tcp
  return [sendOut r.port data, ruleMessage 1 r.fields r.actions { timeout }]

def send (t : Gateway) (messages : Except WriteError (List Message)) : Handled Gateway :=
  match messages with
  | .ok sent => { state := t, sent }
  | .error cause => { state := t, error := some (.unwritable cause) }

def dispatch (t : Gateway) (passage : Except WriteError Passage) : Handled Gateway :=
  t.send (passage.bind (Passage.messages t.timeout))

def refuse (t : Gateway) (inPort : Int) (e : Ethernet) (ip : Ipv4) (tcp : Tcp) :
    Handled Gateway :=
  t.send ((t.reset e ip tcp).map fun data => [sendOut inPort data])

def connectionOf (ip : Ipv4) (tcp : Tcp) : Connection :=
  { privateIp := .address ip.source
    privatePort := .number tcp.sourcePort
    remoteIp := .address ip.target
    remotePort := .number tcp.targetPort }

def entryFor (t : Gateway) (c : Connection) (inPort : Int) : Gateway × Option Entry :=
  match t.revive c with
  | (t, some e) => (t, some e)
  | (t, none) => t.connect c inPort

def passThrough (t : Gateway) (inPort : Int) (e : Ethernet) (ip : Ipv4) (tcp : Tcp) :
    Handled Gateway :=
  if inPort = outerPort then
    match t.findPublic? (.number tcp.targetPort) with
    | some (_, entry) => t.dispatch (t.inbound inPort e ip tcp entry)
    | none => { state := t, warnings := [.unknownInbound] }
  else
    match t.entryFor (connectionOf ip tcp) inPort with
    | (t, some entry) => t.dispatch (t.outbound inPort e ip tcp entry)
    | (t, none) => t.refuse inPort e ip tcp

def packetIn (t : Gateway) (inPort : Int) (data : Bytes) : Handled Gateway :=
  match Frame.read? data with
  | none => { state := t, error := some .noEthernet }
  | some f =>
    if f.ethernet.type = typeArp then
      match f.arp with
      | none => { state := t, error := some .noArp }
      | some a =>
        if a.opcode = 1 then
          t.send ((t.arpReply inPort f.ethernet a).map fun data => [sendOut inPort data])
        else { state := t }
    else
      match f.tcp, f.ip with
      | none, _ => { state := t, warnings := [.notTcp] }
      | some _, none => { state := t, warnings := [.notIpv4] }
      | some tcp, some ip => t.passThrough inPort f.ethernet ip tcp

end Gateway

end Practicum.Net.Switch
