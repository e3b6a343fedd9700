import Practicum.Chart.Step
import Practicum.Net.Capture.Sources

/-! # Chart of sources -/

namespace Practicum.Chart.SourceShares

open Net.Capture

def number (x : Float) : String :=
  (Decimal.Binary.ofFloat x).text

def title (total : Nat) : String :=
  let percent := number (Sources.ratio * 100)
  let threshold := number (Float.ofNat total * Sources.ratio / 1000)
  "IPv4 sources sending " ++ percent ++ " % (" ++ threshold ++ "KB) or more traffic."

def steps (name : String) (sources : Sources) : List Step :=
  let report := sources.report
  let ticks := Value.list ((List.range report.length).map fun (i : Nat) => Value.whole i)
  let labels := Value.list (report.map fun (n, _) => Value.text n.text)
  let bytes := Value.list (report.values.map kilobytes)
  [.assign "rcParams[]" "font.size" (.whole 8)]
    ++ Step.openFigure
    ++ [.call "ax.grid" [] [("which", .text "major"), ("axis", .text "y")],
        .call "ax.tick_params" [] [("axis", .text "both"), ("which", .text "major")],
        .call "ax.set_xticks" [ticks] [],
        .call "ax.set_xticklabels" [labels]
          [("rotation", .whole 45), ("rotation_mode", .text "default"),
           ("horizontalalignment", .text "right")],
        .nameY "Total bytes [KB]",
        .call "ax.bar" [ticks, bytes] [("zorder", .whole 2)],
        .title (title sources.total)]
    ++ Step.saveAndClose (name ++ ".aggr.pdf")

def draw (name : String) : Except Fault Sources → Picture
  | .error f => Picture.failing f
  | .ok sources =>
    { outcome := { printed := "" }
      steps := steps name sources
      files := [(name ++ ".aggr.data",
        dump (sources.report.map fun (n, bytes) => (Text.quote n.text, bytes)))] }

end Practicum.Chart.SourceShares
