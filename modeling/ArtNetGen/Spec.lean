import ArtNetGen.Netlist

/-!
What a run is started with: the spec file as `readSpec` parses it, line by
line, and the cells `checkMasters` keeps from the libraries. A line is modelled
after its numbers have been read off the text.
-/

namespace Artnetgen

inductive SpecLine where
  | cellCount (value : ℤ)
  | combRatio (value : ℚ)
  | onlyUse (masterName : String) (ratio : ℚ)
  | fanin (value : ℕ) (target : ℤ) (ratio : ℚ)
  | fanout (value : ℕ) (target : ℤ) (ratio : ℚ)
  | window (value : ℕ) (target : ℤ) (ratio : ℚ)
  | netbbox (value : ℕ) (target : ℤ) (ratio : ℚ)
  | ipadCount (value : ℤ)
  | opadCount (value : ℤ)
  | avgGateDelay (value : ℚ)
  | avgTopoOrder (value : ℚ)
  | other

structure MasterInfo where
  master : DbMaster
  ratio : ℚ

/-- The members of class `ArtNetGen` that generation reads. -/
structure ArtNetGen where
  libs : List (List DbMaster)
  instanceCnt : ℤ := 5000
  inputPinCnt : ℤ := 20
  outputPinCnt : ℤ := 20
  avgTopoOrder : ℚ := 10
  avgGateDelay : ℚ := 1 / 10
  combRatio : ℚ := 9 / 10
  masters : List MasterInfo := []
  fiDist : Distribution := {}
  foDist : Distribution := {}
  bboxDist : Distribution := {}
  edgeDist : Distribution := {}
  fanIns : List DistributionInfo := []
  fanOuts : List DistributionInfo := []
  netBboxes : List DistributionInfo := []
  edges : List DistributionInfo := []
  maxFanin : ℤ := 0
  maxFanout : ℤ := 0

def intMin : ℤ := -2147483648

def intMax : ℤ := 2147483647

/-- The local variables of `readSpec`. -/
structure SpecLines where
  maxFi : ℤ := intMin
  maxFo : ℤ := intMin
  maxBbox : ℤ := intMin
  maxWindow : ℤ := intMin
  fanIns : List DistributionInfo := []
  fanOuts : List DistributionInfo := []
  netBboxes : List DistributionInfo := []
  windows : List DistributionInfo := []
  totInstCnt : ℤ := 0

namespace ArtNetGen

/-- `dbDatabase::findMaster` searches the libraries in order. -/
def findMaster (ang : ArtNetGen) (name : String) : Option DbMaster :=
  ang.libs.flatten.find? fun master => master.name == name

/-- One line of the spec file; an `ONLY_USE` cell that no library has ends the
program. -/
def readLine (s : ArtNetGen × SpecLines) (line : SpecLine) :
    Option (ArtNetGen × SpecLines) :=
  let (ang, v) := s
  match line with
  | .cellCount _ | .other => some (ang, v)
  | .combRatio value => some ({ ang with combRatio := value }, v)
  | .onlyUse masterName ratio => do
      let master ← ang.findMaster masterName
      return ({ ang with masters := ang.masters ++ [⟨master, ratio⟩] }, v)
  | .fanin value target ratio => some (ang, { v with
      totInstCnt := v.totInstCnt + target
      maxFi := max value v.maxFi
      fanIns := v.fanIns ++ [⟨value, target, 0, ratio⟩] })
  | .fanout value target ratio => some (ang, { v with
      maxFo := max value v.maxFo
      fanOuts := v.fanOuts ++ [⟨value, target, 0, ratio⟩] })
  | .window value target ratio => some (ang, { v with
      maxWindow := max value v.maxWindow
      windows := v.windows ++ [⟨value, target, 0, ratio⟩] })
  | .netbbox value target ratio => some (ang, { v with
      maxBbox := max value v.maxBbox
      netBboxes := v.netBboxes ++ [⟨value, target, 0, ratio⟩] })
  | .ipadCount value => some ({ ang with inputPinCnt := value }, v)
  | .opadCount value => some ({ ang with outputPinCnt := value }, v)
  | .avgGateDelay value => some ({ ang with avgGateDelay := value }, v)
  | .avgTopoOrder value => some ({ ang with avgTopoOrder := value }, v)

def readSpec (ang : ArtNetGen) (spec : List SpecLine) : Option ArtNetGen := do
  let (ang, v) ← spec.foldlM readLine (ang, {})
  let fiDist ← ang.fiDist.init 0 v.maxFi v.totInstCnt v.fanIns
  let foDist ← ang.foDist.init 0 v.maxFo v.totInstCnt v.fanOuts
  let bboxDist ← ang.bboxDist.init 0 v.maxBbox v.totInstCnt v.netBboxes
  let totalEdgeCnt := ⌈(v.totInstCnt : ℚ) * (← fiDist.targetAvg)⌉
  let edgeDist ← ang.edgeDist.init 0 v.maxWindow totalEdgeCnt v.windows
  return { ang with
    instanceCnt := v.totInstCnt
    fanIns := v.fanIns
    fanOuts := v.fanOuts
    netBboxes := v.netBboxes
    edges := v.windows
    maxFanin := v.maxFi
    maxFanout := v.maxFo
    fiDist, foDist, bboxDist, edgeDist }

end ArtNetGen

/-! ## Cells -/

/-- `getPortInfo`: terminals counted by direction and use, a terminal called
`si` or `ssb` counting as a scan input. -/
structure PortInfo where
  inputSignal : ℕ := 0
  inputClock : ℕ := 0
  inputScan : ℕ := 0
  inputReset : ℕ := 0
  outputSignal : ℕ := 0
  outputClock : ℕ := 0
  outputScan : ℕ := 0
  outputReset : ℕ := 0

def PortInfo.count (io : PortInfo) (term : DbMTerm) : PortInfo :=
  if term.name = "si" ∨ term.name = "ssb" then { io with inputScan := io.inputScan + 1 }
  else
    match term.sigType, term.ioType with
    | .signal, .input => { io with inputSignal := io.inputSignal + 1 }
    | .signal, .output => { io with outputSignal := io.outputSignal + 1 }
    | .clock, .input => { io with inputClock := io.inputClock + 1 }
    | .clock, .output => { io with outputClock := io.outputClock + 1 }
    | .reset, .input => { io with inputReset := io.inputReset + 1 }
    | .reset, .output => { io with outputReset := io.outputReset + 1 }
    | .scan, .input => { io with inputScan := io.inputScan + 1 }
    | .scan, .output => { io with outputScan := io.outputScan + 1 }
    | _, _ => io

def getPortInfo (master : DbMaster) : PortInfo := master.mTerms.foldl PortInfo.count {}

/-- Cells without an output signal and scan cells are passed over. -/
def PortInfo.supported (io : PortInfo) : Bool := io.outputSignal ≠ 0 && io.inputScan = 0

/-- The list a supported cell is filed in, by kind and number of signal
inputs. -/
def MasterInfo.isIn (sequential : Bool) (fi : ℕ) (info : MasterInfo) : Bool :=
  let io := getPortInfo info.master
  io.supported && decide (io.inputClock > 0) == sequential && io.inputSignal = fi

namespace ArtNetGen

/-- `ArtNetGen::checkMasters`: for each fan-in and kind the cells named by
`ONLY_USE`, or else every cell of the libraries with ratio 1. -/
def checkMasters (ang : ArtNetGen) : Option ArtNetGen := do
  let names := ang.libs.flatten.map (·.name)
  let total ← names.mapM fun name => (ang.findMaster name).map fun master =>
    (⟨master, 1⟩ : MasterInfo)
  let select (sequential : Bool) (x : ℕ) : List MasterInfo :=
    let only := ang.masters.filter (MasterInfo.isIn sequential x)
    if only.isEmpty then total.filter (MasterInfo.isIn sequential x) else only
  let masterInfos := (List.range' 1 ang.fiDist.xMax.toNat).flatMap fun x =>
    select false x ++ select true x
  return { ang with masters := masterInfos }

/-- `ArtNetGen::init` on the lines of the spec file. -/
def init (ang : ArtNetGen) (spec : List SpecLine) : Option ArtNetGen := do
  let ang ← ang.readSpec spec
  ang.checkMasters

/-- `ArtNetGen::setDontUse` removes the first entry of the name. -/
def setDontUse (ang : ArtNetGen) (macroName : String) : ArtNetGen :=
  { ang with masters := ang.masters.eraseP fun info => info.master.name == macroName }

end ArtNetGen

namespace Netlist

/-- One cell of `initOnlyUseMasters`; a fan-in beyond the table is undefined. -/
def fileMaster (nl : Netlist) (info : MasterInfo) : Option Netlist :=
  let io := getPortInfo info.master
  let nl := { nl with master2ratio := Function.update nl.master2ratio info.master info.ratio }
  if !io.supported then some nl
  else if io.inputClock > 0 then do
    let masters ← nl.fi2SequMasters[io.inputSignal]?
    return { nl with
      fi2SequMasters := nl.fi2SequMasters.set io.inputSignal (masters ++ [info.master]) }
  else do
    let masters ← nl.fi2CombMasters[io.inputSignal]?
    return { nl with
      fi2CombMasters := nl.fi2CombMasters.set io.inputSignal (masters ++ [info.master]) }

def initOnlyUseMasters (nl : Netlist) (ang : ArtNetGen) : Option Netlist :=
  ang.masters.foldlM fileMaster { nl with
    fi2CombMasters := List.replicate (nl.fiDist.xMax + 1).toNat []
    fi2SequMasters := List.replicate (nl.fiDist.xMax + 1).toNat [] }

end Netlist

end Artnetgen
