import ArtNetGen.Spec
import Mathlib.Data.Nat.Sqrt

/-!
`Netlist::initialize`, which lays out the grid and fills it with unconnected
nodes, and `Netlist::setPrimaryIO`, which turns some of them into ports.
-/

namespace Artnetgen

/-- The conversion of a floating-point value to `int`. -/
def truncInt (q : ℚ) : ℤ := if 0 ≤ q then ⌊q⌋ else ⌈q⌉

def ceilSqrt (n : ℕ) : ℕ :=
  if Nat.sqrt n * Nat.sqrt n = n then Nat.sqrt n else Nat.sqrt n + 1

/-- The growth of the grid until it has `totalBinCnt` bins. Every turn adds at
least one bin, so `totalBinCnt` turns are enough. -/
def growLayout (totalBinCnt : ℕ) : ℕ → ℕ × ℕ → ℕ × ℕ
  | 0, dim => dim
  | fuel + 1, (x, y) =>
      if x * y < totalBinCnt then
        growLayout totalBinCnt fuel (if x > y then (x, y + 1) else (x + 1, y))
      else (x, y)

namespace Netlist

def placeNode (nl : Netlist) (b : BinId) (j : NodeId) : Option Netlist :=
  ((nl.setType j .combinational).setName j ("c" ++ toString j)).addNode b j

/-- The nodes of bin `i` in the block placement: `avgNodeCnt` consecutive ones,
as far as there are nodes. -/
def blockOf (avgNodeCnt : ℕ) (initCellCnt : ℕ) (i : BinId) : List NodeId :=
  List.range' (avgNodeCnt * i) (min (avgNodeCnt * (i + 1)) initCellCnt - avgNodeCnt * i)

def placeBlock (avgNodeCnt : ℕ) (initCellCnt : ℕ) (nl : Netlist) (i : BinId) :
    Option Netlist := do
  let b ← nl.getBin (i % nl.layoutDimX) (i / nl.layoutDimX)
  (blockOf avgNodeCnt initCellCnt i).foldlM (fun nl j => nl.placeNode b j) nl

/-- `Netlist::initialize`. The square root of a negative count is no number. -/
def initializeNetlist (ang : ArtNetGen) : Option Netlist := do
  if ang.instanceCnt < 0 then none else
  let instanceCnt := ang.instanceCnt
  let totalBinCnt := ceilSqrt instanceCnt.toNat
  let (layoutDimX, layoutDimY) := growLayout totalBinCnt totalBinCnt (1, 1)
  let initCellCnt := truncInt
    (8 / 10 * instanceCnt - 2 / 10 * (1 - ang.combRatio) * instanceCnt)
  let binCnt := layoutDimX * layoutDimY
  let avgNodeCnt := ⌈(initCellCnt : ℚ) / binCnt⌉
  let maxEdgeLength : ℤ := layoutDimX + layoutDimY
  let fiDist ← Distribution.init {} 0 ang.maxFanin initCellCnt ang.fanIns
  let foDist ← Distribution.init {} 0 ang.maxFanout initCellCnt ang.fanOuts
  let bboxDist ← Distribution.init {} 0 maxEdgeLength initCellCnt ang.netBboxes
  let totEdgeCnt := ⌈(initCellCnt : ℚ) * (← fiDist.targetAvg)⌉
  let edgeDist ← Distribution.init {} 0 maxEdgeLength totEdgeCnt ang.edges
  let emptyBin ← Bin.init {} fiDist.xMax foDist.xMax
  let nl : Netlist :=
    { layoutDimX, layoutDimY
      size := initCellCnt.toNat
      bin := fun i => { emptyBin with x := i % layoutDimX, y := i / layoutDimX }
      fiDist, foDist, bboxDist, edgeDist }
  (List.range binCnt).foldlM (placeBlock avgNodeCnt.toNat initCellCnt.toNat) nl

/-- The candidates of one bin, until the list of pins is long enough. A pin
count that is negative is compared as a huge unsigned number. -/
def takeCandidates (type : NodeType) (pinCnt : ℤ) :
    List NodeId → Netlist × List NodeId → (Netlist × List NodeId) × Bool
  | [], s => (s, false)
  | node :: rest, (nl, pins) =>
      let s := (nl.setType node type, pins ++ [node])
      if 0 ≤ pinCnt ∧ pinCnt ≤ (pins ++ [node]).length then (s, true)
      else takeCandidates type pinCnt rest s

/-- The walk over the bins at the given coordinates; running out of bins is the
"too large" exit. -/
def takePins (index : Bin → Option (List NodeId)) (type : NodeType) (pinCnt : ℤ) :
    List (ℕ × ℕ) → Netlist × List NodeId → Option (Netlist × List NodeId)
  | [], _ => none
  | (x, y) :: rest, (nl, pins) => do
      let b ← nl.getBin x y
      let candidates ← index (nl.bin b)
      match takeCandidates type pinCnt candidates (nl, pins) with
      | (s, true) => some s
      | (s, false) => takePins index type pinCnt rest s

def nameAll (stem : String) (pins : List NodeId) (nl : Netlist) : Netlist :=
  pins.zipIdx.foldl (fun nl (pin, i) => nl.setName pin (stem ++ toString i)) nl

/-- `Netlist::setPrimaryIO`: inputs along the bottom row from the left, outputs
down the last column from the top. -/
def setPrimaryIO (nl : Netlist) (ang : ArtNetGen) : Option Netlist := do
  let bottom := (List.range nl.layoutDimX).map fun x => (x, 0)
  let (nl, primIns) ← takePins (fun b => b.fi2Nodes 0) .primaryIn ang.inputPinCnt
    bottom (nl, nl.primIns)
  let last := (List.range nl.layoutDimY).reverse.map fun y => (nl.layoutDimX - 1, y)
  let (nl, primOuts) ← takePins (fun b => b.fo2Nodes 0) .primaryOut ang.outputPinCnt
    last (nl, nl.primOuts)
  return nameAll "out" primOuts (nameAll "in" primIns { nl with primIns, primOuts })

end Netlist

end Artnetgen
