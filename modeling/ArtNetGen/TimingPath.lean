import ArtNetGen.Rewiring
import ArtNetGen.TopologicalSort
import ArtNetGen.DistMatching
import Mathlib.Data.List.Sort

/-!
`Netlist::timingPathConstruction_v1`. Gates that lie too deep become registers;
then pairs of neighbouring registers are merged, in front and then behind, as
long as there are too many of them; last, a register for which the library has
no cell becomes a gate with a new register behind it. The outcomes of
`std::random_shuffle`, and the order in which `std::sort` leaves equal elements,
are inputs.
-/

namespace Artnetgen

def ArtNetGen.targetMaxOrder (ang : ArtNetGen) : ℤ := ⌈ang.avgTopoOrder⌉ + 2

namespace Netlist

/-! ## The cutting loop -/

def cutNode (topoOrder : NodeId → ℤ) (targetMaxOrder : ℤ) (s : Netlist × Bool) (n : NodeId) :
    Netlist × Bool :=
  if topoOrder n = targetMaxOrder ∧ s.1.type n = .combinational then
    (s.1.setType n .sequential, true)
  else s

/-- One turn: the netlist and whether it was updated. -/
def cutTurn (nl : Netlist) (targetMaxOrder : ℤ) : Option (Netlist × Bool) := do
  let topoOrder ← nl.topologicalSort
  return nl.nodes.foldl (cutNode topoOrder targetMaxOrder) (nl, false)

/-- The loop, ended after `fuel` turns. -/
def cut (targetMaxOrder : ℤ) : ℕ → Netlist → Option Netlist
  | 0, _ => none
  | fuel + 1, nl => do
      let (nl, updated) ← nl.cutTurn targetMaxOrder
      if updated then cut targetMaxOrder fuel nl else return nl

def numOf (nl : Netlist) (type : NodeType) : ℕ := nl.nodes.countP fun v => decide (nl.type v = type)

/-- `Netlist::getCombinationalRatio`. It is no number if there are neither gates
nor registers. -/
def getCombinationalRatio (nl : Netlist) : Option ℚ :=
  let numCombNodes := nl.numOf .combinational
  let numSequNodes := nl.numOf .sequential
  if numSequNodes + numCombNodes = 0 then none
  else some (numCombNodes / (numSequNodes + numCombNodes : ℕ))

/-! ## The merge passes -/

/-- `createMergeNode` and the change of types that follows it. -/
def mergePair (nl : Netlist) (n1 n2 : NodeId) (front : Bool) : Option (Netlist × NodeId) := do
  let (nl, n3) ← nl.createMergeNode n1 n2 front
  return ((nl.setType n1 .combinational).setType n2 .combinational, n3)

/-- The index of a node's bin in `targets`. -/
def targetIdx (nl : Netlist) (v : NodeId) : Option BinId :=
  let id := nl.x v + nl.y v * nl.layoutDimX
  if id < nl.numBins then some id else none

end Netlist

/-- `targets[idx].erase(find(..))`; there is no erasing of `end()`. -/
def eraseTarget (targets : BinId → List NodeId) (idx : BinId) (v : NodeId) :
    Option (BinId → List NodeId) :=
  if v ∈ targets idx then some (Function.update targets idx ((targets idx).erase v)) else none

/-- The outcomes of one pass: the order in which the bins are visited at each
edge length, and how ties are sorted at each visit. -/
structure Pass where
  idx : ℕ → Shuffle
  ties : ℕ → BinId → Shuffle

/-- The local variables of the passes with the netlist they work on. -/
structure Fitting where
  netlist : Netlist
  targets : BinId → List NodeId := fun _ => []
  numCombNodes : ℤ := 0
  numSequNodes : ℤ := 0
  currentRatio : ℚ := 0

namespace Fitting

def count (s : Fitting) (node : NodeId) : Option Fitting :=
  match s.netlist.type node with
  | .sequential => do
      let id ← s.netlist.targetIdx node
      return { s with
        targets := Function.update s.targets id (s.targets id ++ [node])
        numSequNodes := s.numSequNodes + 1 }
  | .combinational => some { s with numCombNodes := s.numCombNodes + 1 }
  | _ => some s

def start (nl : Netlist) : Option Fitting := do
  let s ← nl.nodes.foldlM count { netlist := nl }
  return { s with currentRatio := s.numCombNodes / (s.numCombNodes + s.numSequNodes : ℤ) }

/-- The registers in the bins around bin `id`. -/
def window (s : Fitting) (edgeLength id : ℕ) : List NodeId :=
  let nl := s.netlist
  let cx := id % nl.layoutDimX
  let cy := id / nl.layoutDimX
  let lx := cx - edgeLength
  let ly := cy - edgeLength
  let ux := min (cx + edgeLength) (nl.layoutDimX - 1)
  let uy := min (cy + edgeLength) (nl.layoutDimY - 1)
  (List.range' lx (ux + 1 - lx)).flatMap fun (x : ℕ) =>
    (List.range' ly (uy + 1 - ly)).flatMap fun (y : ℕ) => s.targets (x + y * nl.layoutDimX)

def sortBy (key : NodeId → ℕ) (candidates : List NodeId) : List NodeId :=
  candidates.insertionSort fun left right => key left ≤ key right

/-- The first two neighbours in the order of fan-ins that fit. -/
def frontPair (nl : Netlist) (candidates : List NodeId) : Option (NodeId × NodeId) :=
  (candidates.zip candidates.tail).find? fun (n1, n2) =>
    let totFanins := (nl.node n1).numFanins + (nl.node n2).numFanins
    let totFanouts := (nl.node n1).numFanouts + (nl.node n2).numFanouts
    decide ((totFanins : ℤ) ≤ nl.fiDist.xMax ∧ (totFanouts : ℤ) < nl.foDist.xMax)

/-- The loop over the neighbours in the order of fan-outs ends with its first
turn. -/
def backPair (nl : Netlist) (candidates : List NodeId) : Option (NodeId × NodeId) :=
  (candidates.zip candidates.tail).head?.filter fun (n1, n2) =>
    let totFanouts := (nl.node n1).numFanouts + (nl.node n2).numFanouts
    decide ((totFanouts : ℤ) < nl.foDist.xMax)

/-- The pair to be merged at a visit. -/
def pick (s : Fitting) (front : Bool) (c : Pass) (edgeLength : ℕ) (id : BinId) :
    Option (NodeId × NodeId) :=
  let nl := s.netlist
  let candidates := (c.ties edgeLength id).val (s.window edgeLength id)
  if front then frontPair nl (sortBy (fun v => (nl.node v).numFanins) candidates)
  else backPair nl (sortBy (fun v => (nl.node v).numFanouts) candidates)

def merge (s : Fitting) (n1 n2 : NodeId) (front : Bool) : Option Fitting := do
  let (nl, n3) ← s.netlist.mergePair n1 n2 front
  let idx1 ← nl.targetIdx n1
  let idx2 ← nl.targetIdx n2
  let idx3 ← nl.targetIdx n3
  let targets ← eraseTarget s.targets idx1 n1
  let targets ← eraseTarget targets idx2 n2
  let numCombNodes := s.numCombNodes + 2
  let numSequNodes := s.numSequNodes - 1
  return {
    netlist := nl
    targets := Function.update targets idx3 (targets idx3 ++ [n3])
    numCombNodes, numSequNodes
    currentRatio :=
      (numCombNodes + numSequNodes : ℤ) / (numCombNodes + 2 * numSequNodes : ℤ) }

/-- One visit. Once the ratio is reached both loops are left by `break`, so all
later visits do nothing. -/
def visit (front : Bool) (combRatio : ℚ) (c : Pass) (s : Fitting) (v : ℕ × BinId) :
    Option Fitting :=
  if s.currentRatio ≥ combRatio then some s
  else
    match s.pick front c v.1 v.2 with
    | none => some s
    | some (n1, n2) => s.merge n1 n2 front

/-- All visits of a pass in their order. -/
def visits (nl : Netlist) (c : Pass) : List (ℕ × BinId) :=
  let maxLen := ⌈(2 / 10 : ℚ) * (nl.layoutDimX + nl.layoutDimY)⌉
  (List.range (max 3 maxLen).toNat).flatMap fun edgeLength =>
    ((c.idx edgeLength).val nl.bins).map fun id => (edgeLength, id)

def pass (s : Fitting) (front : Bool) (combRatio : ℚ) (c : Pass) : Option Fitting :=
  (visits s.netlist c).foldlM (visit front combRatio c) s

end Fitting

namespace Netlist

/-! ## The splitting loop -/

def hasMaster (nl : Netlist) (numFanins : ℕ) (isSequential : Bool) : Option Bool :=
  let masters := if isSequential then nl.fi2SequMasters else nl.fi2CombMasters
  (masters[numFanins]?).map fun masters => decide (masters.length > 0)

/-- A register becomes a gate with a new register behind it. -/
def splitNode (nl : Netlist) (node : NodeId) : Option Netlist :=
  (nl.setType node .combinational).insertSequentialNode node false

end Netlist

/-- The loop over `nodes_`, which it extends. -/
structure Splitting where
  netlist : Netlist
  i : ℕ := 0

namespace Splitting

def turn (s : Splitting) : Option Splitting :=
  let nl := s.netlist
  if s.i < nl.size then
    if nl.type s.i = .sequential then do
      if ← nl.hasMaster (nl.node s.i).numFanins true then return { s with i := s.i + 1 }
      else return { netlist := ← nl.splitNode s.i, i := s.i + 1 }
    else some { s with i := s.i + 1 }
  else some s

def turns (n : ℕ) (s : Splitting) : Option Splitting :=
  (List.range n).foldlM (fun s _ => s.turn) s

/-- The loop is left. -/
def Ended (s : Splitting) : Prop := s.netlist.size ≤ s.i

end Splitting

/-- A run of `timingPathConstruction_v1` on `nl` up to its last loop: the outcomes
it depends on, and the states between its phases. -/
structure MergeRun (ang : ArtNetGen) (nl : Netlist) where
  fuel : ℕ
  front : Pass
  back : Pass
  cutNetlist : Netlist
  atFront : Fitting
  atBack : Fitting
  fitted : Fitting
  cut : nl.cut ang.targetMaxOrder fuel = some cutNetlist
  start : Fitting.start cutNetlist = some atFront
  frontPass : atFront.pass true ang.combRatio front = some atBack
  backPass : atBack.pass false ang.combRatio back = some fitted

/-- The run with the given outcomes, if the cutting ends in time. -/
def MergeRun.carryOut (ang : ArtNetGen) (nl : Netlist) (fuel : ℕ) (front back : Pass) :
    Option (MergeRun ang nl) :=
  match cut : nl.cut ang.targetMaxOrder fuel with
  | none => none
  | some cutNetlist =>
  match start : Fitting.start cutNetlist with
  | none => none
  | some atFront =>
  match frontPass : atFront.pass true ang.combRatio front with
  | none => none
  | some atBack =>
  match backPass : atBack.pass false ang.combRatio back with
  | none => none
  | some fitted =>
      some ⟨fuel, front, back, cutNetlist, atFront, atBack, fitted, cut, start, frontPass, backPass⟩

/-- A run to its end. -/
structure PathRun (ang : ArtNetGen) (nl : Netlist) extends MergeRun ang nl where
  turns : ℕ
  split : Splitting
  splitting : Splitting.turns turns { netlist := fitted.netlist } = some split
  ended : split.Ended

/-- The run with the given outcomes, if its last loop ends in time. -/
def PathRun.carryOut (ang : ArtNetGen) (nl : Netlist) (fuel turns : ℕ) (front back : Pass) :
    Option (PathRun ang nl) :=
  (MergeRun.carryOut ang nl fuel front back).bind fun run =>
    match splitting : Splitting.turns turns { netlist := run.fitted.netlist } with
    | none => none
    | some split =>
        if ended : split.netlist.size ≤ split.i then some ⟨run, turns, split, splitting, ended⟩
        else none

/-- `timingPathConstruction_v1` can return `nl'` when it is called on `nl`. -/
def Netlist.timingPathConstruction_v1 (ang : ArtNetGen) (nl nl' : Netlist) : Prop :=
  ∃ run : PathRun ang nl, run.split.netlist = nl'

end Artnetgen
