import Practicum.Decimal
import Practicum.Folder
import Practicum.Text.ShellWord

/-!
# Experiments

An experiment prints, starts other programs, waits, and reads and writes files. The workbench notes
these requests in order and answers a measurement from a given list of outputs.
-/

namespace Practicum.Experiment

inductive Request where
  | command (line : String)
  | measure (words : List String)
  | start (line : String)
  | sleep (seconds : Nat)
  deriving DecidableEq, Repr

inductive Value where
  | absent
  | flag (b : Bool)
  | whole (n : Int)
  | real (x : Float)
  | text (s : String)
  deriving Repr

namespace Value

def written : Value → String
  | absent => "None"
  | flag b => if b then "True" else "False"
  | whole n => toString n
  | real x => (Decimal.Binary.ofFloat x).text
  | text s => s

def report : Value → String
  | real x => (Decimal.Binary.ofFloat x).fixed 6
  | v => v.written

def number? : Value → Option Float
  | flag b => some (if b then 1 else 0)
  | whole n => some (Float.ofInt n)
  | real x => some x
  | _ => none

end Value

/-- The surroundings of an experiment. Files have their paths from the root of the workbench; the
experiment runs in the folder `work`. -/
structure Workbench where
  printed : String := ""
  requests : List Request := []
  files : Table String String := []
  outputs : List String := []
  deriving Repr

abbrev Trial := ExceptT Fault (StateM Workbench)

def Workbench.folder (w : Workbench) : Folder String :=
  { files := w.files, kept := [["work"]] }

namespace Trial

def say (line : String) : Trial Unit :=
  modify fun w => { w with printed := w.printed ++ line ++ "\n" }

def request (r : Request) : Trial Unit :=
  modify fun w => { w with requests := w.requests ++ [r] }

def measure (words : List String) : Trial String := do
  request (.measure words)
  let output := (← get).outputs.headD ""
  modify fun w => { w with outputs := w.outputs.tail }
  return output

def fetch (path : String) : Trial String := do
  match (← get).folder.read ["work"] path with
  | .ok text => return Text.normalizeNewlines text
  | .error e => throw (e.fault path)

def change (path : String) (f : String → String) : Trial Unit := do
  let w ← get
  match w.folder.place ["work"] path with
  | .ok name => set { w with files := w.files.put name (f ((w.files.get? name).getD "")) }
  | .error e => throw (e.fault path)

def store (path text : String) : Trial Unit :=
  change path fun _ => text

def append (path text : String) : Trial Unit :=
  change path (· ++ text)

end Trial

/-! ## Sweeps -/

structure Sweep where
  command : String
  settings : List Nat
  deriving DecidableEq, Repr

namespace Sweep

def timeouts : Sweep := ⟨"./question1.sh", [5, 10, 15, 20, 25, 30, 40, 50, 75, 100]⟩

def windows : Sweep := ⟨"./question3.sh", [1, 2, 4, 8, 16, 32, 64, 128, 256]⟩

def selectiveWindows : Sweep := ⟨"./question5.sh", [1, 2, 4, 8, 16, 32]⟩

def run (s : Sweep) : Trial Unit :=
  s.settings.forM fun n => do
    Trial.say s!"Testing {n}"
    Trial.request (.command s!"{s.command} {n}")

end Sweep

/-! ## Scenes -/

namespace Scenes

def test (scene : String) : Trial Unit :=
  Trial.request (.command ("./test.sh " ++ scene))

def nameOf (file : String) : String :=
  (file.splitOn "-").headD ""

def inFolder (listing : List String) : List String :=
  ((listing.filter fun file => file.contains "scene").map nameOf).filter
    (fun name => !name.contains '.') |>.eraseDups

def runAll (listing : List String) : Trial Unit :=
  (inFolder listing).forM fun name => do
    Trial.say ("scene " ++ name)
    test name

def truncate? (x : Float) : Option Int :=
  match Decimal.Binary.ofFloat x with
  | .finite negative m q =>
    let (num, den) := Decimal.Binary.fraction m q
    let n : Int := (num / den : Nat)
    some (if negative then -n else n)
  | _ => none

def edge (size : Value) : Trial Int :=
  match size.number? with
  | none => throw .wrongKind
  | some x =>
    match Decimal.Binary.ofFloat x.cbrt, truncate? x.cbrt with
    | _, some n => return n
    | .nan, none => throw .badValue
    | _, none => throw .overflow

def box (x y z : Nat) : String :=
  let place (n : Nat) : String := toString (30 * n) ++ ".000000"
  "box_tri.mesh\t250.0\t0   " ++ place x ++ " " ++ place y ++ " " ++ place z
    ++ " \t0.1 1.0 1.0 1.0\n"

def cube (edge : Int) : String :=
  let side := List.range edge.toNat
  let boxes := side.flatMap fun x => side.flatMap fun y => side.map fun z => box x y z
  toString (edge * edge * edge) ++ "\n" ++ String.join boxes

def cubeName (edge : Int) : String :=
  "stress_" ++ toString (edge * edge * edge)

def writeCube (size : Value) : Trial Unit := do
  let n ← edge size
  Trial.store ("../data/" ++ cubeName n ++ "-scene.txt") (cube n)

def testCube (size : Value) : Trial Unit := do
  Trial.say ("scene " ++ size.written)
  writeCube size
  test (cubeName (← edge size))

def runCubes : Trial Unit :=
  [100, 1000, 5000, 10000].forM fun (n : Int) => testCube (.whole n)

end Scenes

/-! ## Throughput -/

namespace Throughput

open Text

def rateHere? (cs : List Char) : Option Float := do
  let isDigit (c : Char) : Bool := (digitValue? c).isSome
  let (whole, rest) := cs.span isDigit
  guard !whole.isEmpty
  match rest with
  | '.' :: rest =>
    let (fraction, rest) := rest.span isDigit
    guard !fraction.isEmpty
    let (blanks, rest) := rest.span isBlank
    guard !blanks.isEmpty
    guard ("KBytes/sec".toList.isPrefixOf rest)
    Decimal.read? (String.ofList (whole ++ '.' :: fraction))
  | _ => none

def rate? : List Char → Option Float
  | [] => none
  | c :: cs =>
    match rateHere? (c :: cs) with
    | some x => some x
    | none => rate? cs

def noRate : Int := -10000

def startServer : Trial Unit := do
  Trial.say "Starting iperf server..."
  Trial.request (.start "sudo iperf -s -P 1")
  Trial.request (.sleep 1)

def measure (window : String) : Trial Value := do
  Trial.say s!"Running iperf with TCP, MSS=1024 and window size={window}..."
  let command := "iperf -f K -c localhost -M 1024 -F ../../test.jpg -t 20 -w " ++ window
  Trial.say ("Running " ++ command)
  match ShellWord.split? command with
  | none => throw .badValue
  | some words =>
    match rate? (← Trial.measure words).toList with
    | some x => return .real x
    | none =>
      Trial.say s!"No throughput data found for window size {window}"
      return .whole noRate

def save (window throughput : String) : Trial Unit :=
  Trial.append "throughput_results.txt"
    s!"Window Size: {window}, Throughput: {throughput} KBps\n"

def windows : List String := ["1KB", "2KB", "4KB", "8KB", "16KB", "32KB"]

def sum (window : String) (start : Float) : Nat → Trial Float
  | 0 => return start
  | count + 1 => do
    startServer
    let x := (← measure window).number?.getD 0
    sum window (start + x) count

def run : Trial Unit := do
  Trial.say "starting experiments"
  windows.forM fun window => do
    Trial.say "next window size"
    let mean := (← sum window 0 3) / 3
    if 0 < mean then
      let shown := (Value.real mean).written
      save window shown
      Trial.say s!"Throughput for window size {window}: {shown} KBps"
  Trial.say "Experiment completed. Throughput results saved to throughput_results.txt."

end Throughput

/-!
## Means of columns

A file holds rows of numbers; the mean of each column is printed with two decimals.

The sum of many floating point numbers is taken pairwise: a long list is halved, and a list of at
most 128 numbers is added up in eight lanes, so that rounding errors grow slowly.
-/

namespace ColumnMeans

def sumInOrder (start : Float) (xs : List Float) : Float :=
  xs.foldl (· + ·) start

def addLanes (lanes : List Float) (xs : List Float) : List Float × List Float :=
  if 8 ≤ xs.length then
    addLanes (List.zipWith (· + ·) lanes (xs.take 8)) (xs.drop 8)
  else (lanes, xs)
termination_by xs.length
decreasing_by
  simp only [List.length_drop]
  omega

def joinLanes : List Float → Float
  | [a, b, c, d, e, f, g, h] => ((a + b) + (c + d)) + ((e + f) + (g + h))
  | xs => sumInOrder 0 xs

def pairwiseSum (xs : List Float) : Float :=
  if xs.length < 8 then sumInOrder (-0.0) xs
  else if xs.length ≤ 128 then
    let (lanes, rest) := addLanes (xs.take 8) (xs.drop 8)
    sumInOrder (joinLanes lanes) rest
  else
    let half := xs.length / 2 - xs.length / 2 % 8
    pairwiseSum (xs.take half) + pairwiseSum (xs.drop half)
termination_by xs.length
decreasing_by
  · simp only [List.length_take]
    omega
  · simp only [List.length_drop]
    omega

def mean (xs : List Float) : Float :=
  pairwiseSum xs / Float.ofNat xs.length

def words (line : String) : List String :=
  let blanks := line.toList.splitBy fun a b => Text.isBlank a == Text.isBlank b
  (blanks.filter fun word => !word.all Text.isBlank).map String.ofList

def lines (text : String) : List String :=
  match (text.splitOn "\n").reverse with
  | "" :: rest => rest.reverse
  | all => all.reverse

def sameLength (rows : List (List Float)) : Bool :=
  rows.all fun row => row.length = (rows.headD []).length

def columns (rows : List (List Float)) : List (List Float) :=
  (List.range (rows.headD []).length).map fun i => rows.map fun row => row.getD i 0

def run (arguments : List String) : Trial Unit := do
  if arguments.length ≠ 1 then Trial.say "Usage: average.py <file>"
  match arguments with
  | [] => throw .outOfRange
  | path :: _ =>
    match (lines (← Trial.fetch path)).mapM fun line => (words line).mapM Decimal.read? with
    | none => throw .badValue
    | some rows =>
      if sameLength rows then
        (columns rows).forM fun column =>
          Trial.say ((Decimal.Binary.ofFloat (mean column)).fixed 2)
      else throw .badValue

end ColumnMeans

/-! ## Scripts -/

inductive Script where
  | sweep (s : Sweep)
  | throughput
  | columnMeans
  | folder (listing : List String)
  | cubes
  deriving DecidableEq, Repr

namespace Script

def run (arguments : List String) : Script → Trial Unit
  | sweep s => s.run
  | throughput => Throughput.run
  | columnMeans => ColumnMeans.run arguments
  | folder listing => Scenes.runAll listing
  | cubes => Scenes.runCubes

def load (arguments : List String) : Script → Trial Unit
  | throughput => return
  | s => s.run arguments

inductive Part where
  | measure
  | save
  | throughput
  | writeCube
  | testCube
  deriving DecidableEq, Repr

def Part.call : Part → List Value → Trial Value
  | measure, [window] => Throughput.measure window.written
  | save, [window, x] => (fun _ => .absent) <$> Throughput.save window.written x.written
  | throughput, [] => (fun _ => .absent) <$> Throughput.run
  | writeCube, [size] => (fun _ => .absent) <$> Scenes.writeCube size
  | testCube, [size] => (fun _ => .absent) <$> Scenes.testCube size
  | _, _ => throw .wrongKind

/-- Loads an experiment and calls a part of it, if there is such a part; its result is printed.
What loading did to the workbench is undone. -/
def call (s : Script) (arguments : List String) (part : Option Part) (values : List Value) :
    Trial Unit := do
  let before ← get
  let loaded ← (try s.load arguments; pure none catch f => pure (some f) : Trial (Option Fault))
  set before
  match loaded, part with
  | some f, _ => throw f
  | none, some part => Trial.say (← part.call values).report
  | none, none => throw .noSuchPart

end Script

def Trial.outcome (t : Trial Unit) (w : Workbench) : Outcome × Workbench :=
  match t.run.run w with
  | (.ok (), w) => ({ printed := w.printed }, w)
  | (.error f, w) => (Outcome.failing w.printed f, w)

end Practicum.Experiment
