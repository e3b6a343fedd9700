import Practicum.Text.Characters

/-!
# Names in snake case

The parts of a name that begin with capitals are written in lower case, divided by underscores.
-/

namespace Practicum.Text

/-!
## Lower case

The map from a character to its lower-case form. Beyond ASCII it is given by runs `(first, extent,
step, shift)`: every `step`-th code point from `first` to `first + extent` moves by `shift`.
-/

/-!
## Characters without a part in letter case

Where the case of a letter depends on its neighbours, these characters are passed over.
-/

def caseIgnorableRuns : List Nat :=
  [39,1,6,1,11,1,35,1,1,1,71,1,4,1,1,1,4,1,2,2,503,192,4,2,4,1,9,2,1,1,251,7,207,1,5,1,49,45,1,1,1,
   2,1,2,1,1,44,1,11,6,10,11,1,1,35,1,10,21,16,1,101,8,1,10,1,4,33,1,1,1,30,27,91,11,58,11,4,1,2,1,
   24,24,43,3,44,1,7,2,6,8,41,58,55,1,1,1,4,8,4,1,3,7,10,2,13,1,15,1,58,1,4,4,8,1,20,2,26,1,2,2,57,
   1,4,2,4,2,2,3,3,1,30,2,3,1,11,2,57,1,4,5,1,2,4,1,20,2,22,6,1,1,58,1,2,1,1,4,8,1,7,2,11,2,30,1,61,
   1,12,1,50,1,3,1,55,1,1,3,5,3,1,4,7,2,11,2,29,1,58,1,2,1,6,1,5,2,20,2,28,2,57,2,4,4,8,1,20,2,29,1,
   72,1,7,3,1,1,90,1,2,7,11,9,98,1,2,9,9,1,1,6,74,2,27,1,1,1,1,1,55,14,1,5,1,2,5,11,1,36,9,1,102,4,
   1,6,1,2,2,2,25,2,4,3,16,4,13,1,2,2,6,1,15,1,94,1,608,3,946,3,29,2,30,2,30,2,64,2,1,7,8,1,2,11,3,
   1,5,1,45,5,51,1,65,2,34,1,118,3,4,2,9,1,6,3,219,2,2,1,58,1,1,7,1,1,1,1,2,8,6,10,2,1,39,1,8,31,49,
   4,48,1,1,5,1,1,5,1,40,9,12,2,32,4,2,2,1,3,56,1,1,2,3,1,1,3,58,8,2,2,64,6,82,3,1,13,1,7,4,1,6,1,3,
   2,50,63,13,1,34,101,445,1,1,3,11,3,13,3,13,3,13,2,12,5,8,2,10,1,2,1,2,5,49,5,1,10,1,1,13,1,16,13,
   51,33,2955,2,113,3,125,1,15,1,96,32,47,1,469,1,36,4,3,5,5,1,93,6,93,3,28438,1,1250,6,270,1,98,4,
   1,10,1,1,28,4,80,2,14,34,78,1,23,3,103,3,3,2,8,1,3,1,4,1,25,2,5,1,151,2,26,18,13,1,38,8,25,11,46,
   3,48,1,2,4,2,2,17,1,21,2,66,6,2,2,2,2,12,1,8,1,35,1,11,1,51,1,1,3,2,2,5,2,1,1,27,1,14,2,5,2,1,1,
   100,5,9,3,121,1,2,1,4,1,20272,1,147,17,573,16,3,1,12,16,34,1,2,1,169,1,7,1,6,1,11,1,35,1,1,1,47,
   1,45,2,67,1,21,3,513,1,226,1,149,5,1029,6,1,42,1,9,582,3,1,2,5,4,40,3,4,1,165,2,573,4,387,2,153,
   11,49,4,123,1,54,15,41,1,2,2,10,3,49,4,2,2,2,1,4,1,10,1,50,3,36,5,1,8,62,1,12,2,52,9,10,4,2,1,95,
   3,2,1,1,2,6,1,160,1,3,8,21,2,57,2,3,1,37,7,3,5,195,8,2,3,1,1,23,1,84,6,1,1,4,2,1,2,238,4,6,2,1,2,
   27,2,85,8,2,1,1,2,106,1,1,1,2,6,1,1,101,3,2,4,1,5,259,9,1,2,256,2,1,1,4,1,144,4,2,2,4,1,32,10,40,
   6,2,4,8,1,9,6,2,3,46,13,1,2,406,7,1,6,1,1,82,22,2,7,1,2,1,2,122,6,3,1,1,2,1,7,1,1,72,2,3,1,1,1,
   347,2,5435,9,14007,5,59,7,9,4,1035,1,63,17,64,2,1,2,16395,4,1,7,1,2,3230,2,1,4,4700,46,2,23,544,
   3,9,16,2,7,30,4,148,3,1979,55,4,50,8,1,14,1,22,5,1,15,1360,7,1,17,2,7,1,2,1,5,261,14,368,1,61,4,
   1504,7,109,8,2735,5,789505,1,30,96,128,240]

def isCaseIgnorable (c : Char) : Bool :=
  inRuns caseIgnorableRuns c.toNat

/-! ## Cased characters -/

def casedRuns : List Nat :=
  [65,26,6,26,47,1,10,1,4,1,5,23,1,31,1,195,1,4,4,208,1,27,192,4,2,2,3,3,1,1,6,1,1,3,1,1,1,20,1,83,
   1,139,8,166,1,38,9,41,2839,38,1,1,5,1,2,43,2,3,672,86,2,6,2178,9,7,43,2,3,64,44,63,13,1,34,101,
   278,2,6,2,38,2,6,2,8,1,1,1,1,1,1,1,31,2,53,1,7,1,1,3,3,1,7,3,4,2,6,4,13,5,3,1,7,261,1,4,1,2,10,1,
   1,3,5,6,1,1,1,1,1,1,4,1,6,4,1,2,4,5,5,4,1,17,32,3,2,817,52,1814,124,2,103,6,4,3,2,12,38,1,1,5,1,
   30994,46,18,28,134,78,1,23,3,4,1,59,5,2,1,1,1,5,27,2,3,1,821,43,5,9,7,80,20288,7,12,5,1033,26,6,
   26,1189,80,96,36,4,36,116,11,1,15,1,7,1,2,1,11,1,15,1,7,1,2,1731,51,13,51,2989,64,21856,64,25984,
   85,1,71,1,2,2,1,2,2,2,4,1,12,1,1,1,7,1,65,1,4,2,8,1,7,1,28,1,4,1,5,1,1,3,7,1,340,2,25,1,25,1,31,
   1,25,1,31,1,25,1,31,1,25,1,31,1,25,1,8,1844,10,1,20,2529,68,2028,26,6,26,6,26]

def isCased (c : Char) : Bool :=
  inRuns casedRuns c.toNat

def lowerRuns : List (Nat × Nat × Nat × Int) :=
  [(192,22,1,32),(216,6,1,32),(256,46,2,1),(306,4,2,1),(313,14,2,1),(330,44,2,1),(376,0,1,-121),
   (377,4,2,1),(385,0,1,210),(386,2,2,1),(390,0,1,206),(391,0,1,1),(393,1,1,205),(395,0,1,1),
   (398,0,1,79),(399,0,1,202),(400,0,1,203),(401,0,1,1),(403,0,1,205),(404,0,1,207),(406,0,1,211),
   (407,0,1,209),(408,0,1,1),(412,0,1,211),(413,0,1,213),(415,0,1,214),(416,4,2,1),(422,0,1,218),
   (423,0,1,1),(425,0,1,218),(428,0,1,1),(430,0,1,218),(431,0,1,1),(433,1,1,217),(435,2,2,1),
   (439,0,1,219),(440,0,1,1),(444,0,1,1),(452,0,1,2),(453,0,1,1),(455,0,1,2),(456,0,1,1),
   (458,0,1,2),(459,16,2,1),(478,16,2,1),(497,0,1,2),(498,2,2,1),(502,0,1,-97),(503,0,1,-56),
   (504,38,2,1),(544,0,1,-130),(546,16,2,1),(570,0,1,10795),(571,0,1,1),(573,0,1,-163),
   (574,0,1,10792),(577,0,1,1),(579,0,1,-195),(580,0,1,69),(581,0,1,71),(582,8,2,1),(880,2,2,1),
   (886,0,1,1),(895,0,1,116),(902,0,1,38),(904,2,1,37),(908,0,1,64),(910,1,1,63),(913,16,1,32),
   (931,8,1,32),(975,0,1,8),(984,22,2,1),(1012,0,1,-60),(1015,0,1,1),(1017,0,1,-7),(1018,0,1,1),
   (1021,2,1,-130),(1024,15,1,80),(1040,31,1,32),(1120,32,2,1),(1162,52,2,1),(1216,0,1,15),
   (1217,12,2,1),(1232,94,2,1),(1329,37,1,48),(4256,37,1,7264),(4295,0,1,7264),(4301,0,1,7264),
   (5024,79,1,38864),(5104,5,1,8),(7312,42,1,-3008),(7357,2,1,-3008),(7680,148,2,1),
   (7838,0,1,-7615),(7840,94,2,1),(7944,7,1,-8),(7960,5,1,-8),(7976,7,1,-8),(7992,7,1,-8),
   (8008,5,1,-8),(8025,6,2,-8),(8040,7,1,-8),(8072,7,1,-8),(8088,7,1,-8),(8104,7,1,-8),
   (8120,1,1,-8),(8122,1,1,-74),(8124,0,1,-9),(8136,3,1,-86),(8140,0,1,-9),(8152,1,1,-8),
   (8154,1,1,-100),(8168,1,1,-8),(8170,1,1,-112),(8172,0,1,-7),(8184,1,1,-128),(8186,1,1,-126),
   (8188,0,1,-9),(8486,0,1,-7517),(8490,0,1,-8383),(8491,0,1,-8262),(8498,0,1,28),(8544,15,1,16),
   (8579,0,1,1),(9398,25,1,26),(11264,47,1,48),(11360,0,1,1),(11362,0,1,-10743),(11363,0,1,-3814),
   (11364,0,1,-10727),(11367,4,2,1),(11373,0,1,-10780),(11374,0,1,-10749),(11375,0,1,-10783),
   (11376,0,1,-10782),(11378,0,1,1),(11381,0,1,1),(11390,1,1,-10815),(11392,98,2,1),(11499,2,2,1),
   (11506,0,1,1),(42560,44,2,1),(42624,26,2,1),(42786,12,2,1),(42802,60,2,1),(42873,2,2,1),
   (42877,0,1,-35332),(42878,8,2,1),(42891,0,1,1),(42893,0,1,-42280),(42896,2,2,1),(42902,18,2,1),
   (42922,0,1,-42308),(42923,0,1,-42319),(42924,0,1,-42315),(42925,0,1,-42305),(42926,0,1,-42308),
   (42928,0,1,-42258),(42929,0,1,-42282),(42930,0,1,-42261),(42931,0,1,928),(42932,14,2,1),
   (42948,0,1,-48),(42949,0,1,-42307),(42950,0,1,-35384),(42951,2,2,1),(42960,0,1,1),(42966,2,2,1),
   (42997,0,1,1),(65313,25,1,32),(66560,39,1,40),(66736,35,1,40),(66928,10,1,39),(66940,14,1,39),
   (66956,6,1,39),(66964,1,1,39),(68736,50,1,64),(71840,31,1,32),(93760,31,1,32),(125184,33,1,34)]

def lowerChar (c : Char) : List Char :=
  if c.toNat < 128 then [c.toLower]
  else if c.toNat = 0x130 then [Char.ofNat 0x69, Char.ofNat 0x307]
  else
    match lowerRuns.find? fun (first, extent, step, _) =>
        first ≤ c.toNat && c.toNat ≤ first + extent && (c.toNat - first) % step == 0 with
    | some (_, _, _, shift) => [Char.ofNat (c.toNat + shift).toNat]
    | none => [c]

def meetsCased (cs : List Char) : Bool :=
  (cs.dropWhile isCaseIgnorable).head?.any isCased

/-- The lower-case form of a capital sigma. At the end of a word, which is where a cased character
comes before it and none after it, it has a tail. What comes before is given backwards. -/
def lowerSigma (before after : List Char) : Char :=
  if meetsCased before && !meetsCased after then 'ς' else 'σ'

def lowerAfter (before : List Char) : List Char → List Char
  | [] => []
  | c :: after =>
    (if c = 'Σ' then [lowerSigma before after] else lowerChar c) ++ lowerAfter (c :: before) after

def lower (s : String) : String :=
  String.ofList (lowerAfter [] s.toList)

def markCapitals (cs : List Char) : List Char :=
  cs.flatMap fun c => if c.isUpper then ['_', c] else [c]

def snakeCase (name : String) : String :=
  match name.toList with
  | [] => ""
  | c :: cs => lower (String.ofList (c :: markCapitals cs))

end Practicum.Text
