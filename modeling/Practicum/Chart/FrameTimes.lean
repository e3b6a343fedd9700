import Practicum.Chart.Step
import Practicum.Decimal
import Practicum.Folder

/-! # Chart of frame times -/

namespace Practicum.Chart.FrameTimes

def gap : Nat := 30

structure Curve where
  frames : List Nat
  times : List Float
  deriving Repr

def isSeparator (c : Char) : Bool :=
  c = ' ' || (9 ≤ c.toNat && c.toNat ≤ 13)

/-- The rate that a line of a log reports, which is its second word; `some none` for a line without
a rate. -/
def rate? (line : String) : Option (Option Float) :=
  if line.contains "FPS" then
    match (line.toList.splitBy fun a b => isSeparator a == isSeparator b).filter
        (fun word => !word.all isSeparator) with
    | _ :: word :: _ =>
      if word.all fun c => c.toNat < 128 && !Text.isBlank c then
        (Decimal.read? (String.ofList word)).map fun x => some x.abs
      else none
    | _ => none
  else some none

def rates? (log : String) : Option (List Float) := do
  let lines ← ((Text.normalizeNewlines log).splitOn "\n").mapM rate?
  return lines.filterMap id

def groupTimes (rates : List Float) : List Float :=
  if gap ≤ rates.length then
    let mean := (rates.take gap).foldl (· + ·) 0 / Float.ofNat gap
    1000 / mean :: groupTimes (rates.drop gap)
  else []
termination_by rates.length
decreasing_by
  have : gap = 30 := rfl
  simp only [List.length_drop]
  omega

def Curve.ofRates (rates : List Float) : Curve :=
  let times :=
    match groupTimes rates with
    | [] => List.replicate 100 0
    | times => times
  { frames := (List.range times.length).map (gap * ·), times }

def Curve.ofLog? (log : String) : Option Curve :=
  (rates? log).map ofRates

def greatest : List Float → Float
  | [] => 0
  | x :: xs => xs.foldl (fun m y => if m < y then y else m) x

namespace Curve

def lastFrame (c : Curve) : Nat :=
  c.frames.getLastD 0

def height (c : Curve) : Float :=
  let m := greatest c.times
  m + m * 0.1

def step (c : Curve) (colour label : String) : Step :=
  .call "ax.plot" [.list (c.frames.map fun (n : Nat) => .whole n), .list (c.times.map .real)]
    [("c", .text colour), ("lw", .whole 2), ("label", .text label)]

end Curve

def curves (optimized base : Curve) : List Step :=
  let width := min optimized.lastFrame base.lastFrame
  let height := greatest [optimized.height, base.height]
  let bare : Options := [("size", .whole 0)]
  [.call "rcParams.update" [.record [("font.size", .whole 16)]] [],
   .call "figure" [] [("figsize", .list [.whole 8, .whole 6])],
   .call "subplot" [.whole 111] [],
   base.step "black" "Base",
   optimized.step "red" "Optimized",
   .call "ax.set_xlim" [.whole 0, .whole width] [],
   .call "ax.set_ylim" [.whole 0, .real height] [],
   .call "ax.xaxis.set_tick_params" [] bare,
   .call "ax.yaxis.set_tick_params" [] bare,
   .nameX "Frame Count",
   .nameY "Frame Generation Time / ms"]

def scene? (path : String) : Option String :=
  (((path.splitOn "-").headD "").splitOn "/")[1]?

def finish (scene : String) : List Step :=
  [.title ("Frame Generation Time for " ++ scene ++ " scene"),
   .call "ax.grid" []
     [("which", .text "major"), ("linestyle", .text "-."), ("linewidth", .text "0.5"),
      ("color", .text "grey")],
   .call "ax.legend" [] []]

def usage : String :=
  "Usage: python3 fps-visualise.py <file-optimized> <file-unoptimized>\n"

def readLogs? (files : Table String String) : List String → Option (String × Curve × Curve)
  | optimized :: base :: _ => do
    let folder : Folder String := { files }
    let log (path : String) : Option Curve := do
      Curve.ofLog? (← (folder.read [] path).toOption)
    return (optimized, ← log optimized, ← log base)
  | _ => none

def draw (files : Table String String) (arguments : List String) : Picture :=
  match readLogs? files arguments with
  | none => Picture.failing (.exit 1 usage)
  | some (path, optimized, base) =>
    let begun := curves optimized base
    let cut (steps : List Step) : Picture :=
      { outcome := { printed := "", fault := some .outOfRange }, steps }
    match scene? path, arguments[2]? with
    | none, _ => cut begun
    | some scene, none => cut (begun ++ finish scene)
    | some scene, some file =>
      { outcome := { printed := "" }
        steps := begun ++ finish scene ++ [.call "savefig" [.text file] []] }

end Practicum.Chart.FrameTimes
