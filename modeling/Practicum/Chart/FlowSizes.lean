import Practicum.Chart.Step
import Practicum.Net.Capture.Packet

/-! # Chart of flow sizes -/

namespace Practicum.Chart.FlowSizes

open Net.Capture

def shown : Nat := 100

def largest (count : Nat) (xs : List Int) : List Int :=
  let sorted := xs.mergeSort
  sorted.drop (sorted.length - count)

def steps (name : String) (flows : Flows) : List Step :=
  let sizes := (largest shown flows.table.values).map kilobytes
  Step.openFigure
    ++ [.call "ax.hist" [.list sizes] [("bins", .whole 50), ("log", .flag true)],
        .nameY "# of flows", .nameX "Data sent [KB]",
        .title s!"Top {shown} TCP flow size distribution."]
    ++ Step.saveAndClose (name ++ ".flow.pdf")

def connectionText (c : Connection) : String :=
  s!"({c.source}, {c.target}, {c.sourcePort}, {c.targetPort})"

def draw (name : String) : Except CaptureError Flows → Picture
  | .error e => Picture.failing e.fault
  | .ok flows =>
    { outcome := { printed := "" }
      steps := steps name flows
      files := [(name ++ ".flow.data",
        dump (flows.table.map fun (c, n) => (connectionText c, n)))] }

end Practicum.Chart.FlowSizes
