import ArtNetGen.Initialize
import Mathlib.Data.List.MinMax

/-!
`Netlist::distMatching`: edges are added one at a time, each the best pair found
at a randomly drawn edge length, until the edge count of the spec is reached.
Whatever `rand` and `std::random_shuffle` may return is an input, one record per
turn of the loop, so the runs of the machine are all the runs of the source.
Node addresses are an arbitrary injection into the numbers.
-/

namespace Artnetgen

/-- One outcome of a shuffle: some rearrangement of whatever it is given. -/
abbrev Shuffle := {f : List ℕ → List ℕ // ∀ l, (f l).Perm l}

structure Gain where
  value : ℤ
  n1 : NodeId
  n2 : NodeId
  deriving DecidableEq

/-- The random outcomes of one turn. A bin pair is visited at most once in a
turn, so its shuffles are named by the loop variables around them. -/
structure Turn where
  rand : ℕ
  srcBins : Shuffle
  sinkBins : BinId → Shuffle
  srcs : (srcBin sinkBin : BinId) → (fo : ℕ) → Shuffle
  sinks : (srcBin sinkBin : BinId) → (fo fi : ℕ) → Shuffle

namespace Distribution

/-- How much closer to its targets the table gets when one item leaves entry
`x1` for entry `x2`. -/
def deltaErr (d : Distribution) (x1 x2 : ℕ) : Option ℤ := do
  let delta1 ← d.delta x1
  let delta2 ← d.delta x2
  let currErr := |delta1| + |delta2|
  let nextErr := |delta1 - 1| + |delta2 + 1|
  return currErr - nextErr

end Distribution

namespace Netlist

def bboxGain (nl : Netlist) (bbox1 bbox2 : ℕ) : Option ℤ := nl.bboxDist.deltaErr bbox1 bbox2

def fanoutGain (nl : Netlist) (fo1 fo2 : ℕ) : Option ℤ := do
  let deltaErr ← nl.foDist.deltaErr fo1 fo2
  let reward := if fo1 = 0 then 16 else 0
  return deltaErr + reward

def faninGain (nl : Netlist) (fi1 fi2 : ℕ) : Option ℤ := do
  let deltaErr ← nl.fiDist.deltaErr fi1 fi2
  let reward := if fi1 = 0 then 16 else 0
  return deltaErr + reward

/-- The bins of the grid at distance `edgeLength` above and to the right of
`srcBin`, before their shuffle. -/
def getSinkBins (nl : Netlist) (srcBin : BinId) (edgeLength : ℕ) : Option (List BinId) :=
  (List.range (edgeLength + 1)).foldlM (fun sinkBins dx =>
    let dy := edgeLength - dx
    let x := (nl.bin srcBin).x + dx
    let y := (nl.bin srcBin).y + dy
    if x ≥ nl.layoutDimX ∨ y ≥ nl.layoutDimY then some sinkBins
    else (nl.getBin x y).map fun sinkBin => sinkBins ++ [sinkBin]) []

/-- The gain of growing the source's net to reach `sinkBin`; a net that already
reaches it gains nothing. -/
def localBboxG (nl : Netlist) (candiSrc : NodeId) (sinkBin : BinId) : Option ℤ :=
  let n := nl.node candiSrc
  let x := (nl.bin sinkBin).x
  let y := (nl.bin sinkBin).y
  let bbox1 := n.bboxSize
  let bbox2 := (max n.ux x - min n.lx x) + (max n.uy y - min n.ly y)
  if bbox1 < bbox2 then nl.bboxGain bbox1 bbox2 else some 0

/-- The first candidate with the largest bounding-box gain. `none` in the
result is the `bboxG` of -INT_MAX that no candidate has raised. -/
def localMaxSrc (nl : Netlist) (sinkBin : BinId) (candiSrcs : List NodeId) :
    Option (Option (ℤ × NodeId)) :=
  candiSrcs.foldlM (fun best candiSrc =>
    if nl.type candiSrc = .primaryOut then some best
    else (nl.localBboxG candiSrc sinkBin).map fun localBboxG =>
      if best.all fun b => b.1 < localBboxG then some (localBboxG, candiSrc) else best) none

variable (addr : NodeId ↪ ℕ)

/-- The exceptions for candidate sinks. A port takes a single source, whatever
it is connected to and wherever it lies. -/
def mayConnect (nl : Netlist) (srcBin sinkBin : BinId) (src candiSink : NodeId) : Bool :=
  match nl.type candiSink with
  | .primaryIn => false
  | .primaryOut => !decide ((nl.node candiSink).numFanins ≥ 1)
  | _ => !(decide (srcBin = sinkBin ∧ addr candiSink ≤ addr src)) &&
      !(nl.node src).hasConnection candiSink

/-- Each legal candidate overwrites the one before it. -/
def lastSink (nl : Netlist) (srcBin sinkBin : BinId) (src : NodeId)
    (candiSinks : List NodeId) : Option NodeId :=
  (candiSinks.filter (nl.mayConnect addr srcBin sinkBin src)).getLast?

/-- `getMaxGain`; `none` in the result is the value -INT_MAX, which no sum of
three gains comes near. -/
def getMaxGain (nl : Netlist) (c : Turn) (srcBin sinkBin : BinId) : Option (Option Gain) :=
  (List.range nl.foDist.xMax.toNat).foldlM (fun maxG fo => do
    let candiSrcs ← (nl.bin srcBin).fo2Nodes fo
    if candiSrcs = [] then return maxG
    let foG ← nl.fanoutGain fo (fo + 1)
    let localMax ← nl.localMaxSrc sinkBin ((c.srcs srcBin sinkBin fo).val candiSrcs)
    match localMax with
    | none => return maxG
    | some (bboxG, localMaxSrcNode) =>
        (List.range nl.fiDist.xMax.toNat).foldlM (fun maxG fi => do
          let candiSinks ← (nl.bin sinkBin).fi2Nodes fi
          if candiSinks = [] then return maxG
          let fiG ← nl.faninGain fi (fi + 1)
          let totG := fiG + foG + bboxG
          if maxG.all fun (g : Gain) => g.value < totG then
            match nl.lastSink addr srcBin sinkBin localMaxSrcNode
                ((c.sinks srcBin sinkBin fo fi).val candiSinks) with
            | some sinkNode => return some ⟨totG, localMaxSrcNode, sinkNode⟩
            | none => return maxG
          else return maxG) maxG) none

end Netlist

/-- `if(maxG.value() < localMaxG.value()) maxG = localMaxG`. -/
def Gain.larger : Option Gain → Option Gain → Option Gain
  | maxG, none => maxG
  | none, some g => some g
  | some m, some g => if m.value < g.value then some g else some m

/-- The local variables of `distMatching` with the netlist it works on. -/
structure Matching where
  netlist : Netlist
  tarEdgeCnt : ℤ
  curEdgeCnt : ℤ := 0
  srcBins : List BinId
  edgeSampling : List ℕ

namespace Matching

/-- The state on entry. The sampling vector is shuffled, but every draw from it
is random anyway. -/
def start (nl : Netlist) : Option Matching := do
  let edgeSampling ← nl.edgeDist.samplingVector
  return { netlist := nl, tarEdgeCnt := nl.edgeDist.totalCnt, srcBins := nl.bins, edgeSampling }

variable (addr : NodeId ↪ ℕ)

/-- The best pair at the given edge length, over all bin pairs. -/
def maxGain (s : Matching) (c : Turn) (edgeLength : ℕ) : Option (Option Gain) :=
  (c.srcBins.val s.srcBins).foldlM (fun maxG srcBin => do
    let sinkBins ← s.netlist.getSinkBins srcBin edgeLength
    ((c.sinkBins srcBin).val sinkBins).foldlM (fun maxG sinkBin => do
      let localMaxG ← s.netlist.getMaxGain addr c srcBin sinkBin
      return Gain.larger maxG localMaxG) maxG) none

/-- One turn of the loop. Drawing from an empty sampling vector divides by
zero. -/
def turn (s : Matching) (c : Turn) : Option Matching := do
  let edgeLength ← s.edgeSampling[c.rand % s.edgeSampling.length]?
  match ← s.maxGain addr c edgeLength with
  | none => return { s with srcBins := c.srcBins.val s.srcBins }
  | some g => do
      let netlist ← s.netlist.connect g.n1 g.n2
      return { s with
        netlist
        srcBins := c.srcBins.val s.srcBins
        curEdgeCnt := s.curEdgeCnt + 1 }

/-- The loop runs while edges are missing and then stays where it is. -/
def step (s : Matching) (c : Turn) : Option Matching :=
  if s.curEdgeCnt < s.tarEdgeCnt then s.turn addr c else some s

def Returned (s : Matching) : Prop := s.tarEdgeCnt ≤ s.curEdgeCnt

/-- What `generate` does up to the loop. -/
def enter (ang : ArtNetGen) : Option Matching := do
  let nl ← Netlist.initializeNetlist ang
  let nl ← nl.setPrimaryIO ang
  start nl

/-- The states of `distMatching` on the spec `ang`, over all random outcomes. -/
def Reachable (ang : ArtNetGen) (s : Matching) : Prop :=
  ∃ s0, enter ang = some s0 ∧ ∃ turns : List Turn, turns.foldlM (step addr) s0 = some s

end Matching

end Artnetgen
