import Practicum.Decimal
import Practicum.Net.Switch.Message
import Practicum.Table

/-! # Learning switches -/

namespace Practicum.Net.Switch

abbrev Learned := Table Int (Table Mac Int)

namespace Learned

def switchName (id : Int) : String :=
  if id < 0 then "-" ++ Decimal.padded 15 id.natAbs else Decimal.padded 16 id.natAbs

def hosts (l : Learned) (switch : Int) : Table Mac Int :=
  (l.get? switch).getD []

def learn (l : Learned) (switch : Int) (host : Mac) (port : Int) : Learned :=
  l.put switch ((l.hosts switch).put host port)

def portFor (l : Learned) (switch : Int) (host : Mac) : Int :=
  ((l.hosts switch).get? host).getD floodPort

def features : List Message :=
  [.rule { priority := 0, fields := [], actions := [.output controllerPort] }]

def forward (l : Learned) (switch inPort buffer : Int) (source target : Mac) (data : Bytes) :
    List Message :=
  let port := l.portFor switch target
  let actions := [Action.output port]
  let out := Message.packetOut buffer inPort actions (if buffer = noBuffer then some data else none)
  if port = floodPort then [out]
  else
    let fields : Match :=
      [(.inPort, .number inPort), (.ethTarget, .mac (.ofMac target)),
       (.ethSource, .mac (.ofMac source))]
    let rule := Message.rule { priority := 1, buffer, fields, actions }
    if buffer = noBuffer then [rule, out] else [rule]

def packetIn (l : Learned) (switch inPort : Int) (data : Bytes) (buffer : Int) :
    Except SwitchError (Learned × List Message) :=
  match Packet.Frame.read? data with
  | none => .error .noEthernet
  | some f =>
    let l := l.learn switch f.ethernet.source inPort
    .ok (l, l.forward switch inPort buffer f.ethernet.source f.ethernet.target data)

end Learned

end Practicum.Net.Switch
