import ArtNetGen.Spec
import Mathlib.Data.List.Dedup

/-!
`Netlist::technologyMapping`. Cells are chosen for the gates and registers,
every node binds its neighbours to terminals, and the bindings are collected
into nets. The orders in which `unordered_map`s are walked are inputs.
-/

namespace Artnetgen

/-- One order in which an `unordered_map` is walked. -/
abbrev Iteration (α : Type) := {f : List α → List α // ∀ l, (f l).Perm l}

structure MapOrder where
  out2sinks : NodeId → Iteration String
  name2net : Iteration Net

namespace Netlist

/-! ## Cells -/

/-- `fi2SequNodes[fi]` and `fi2CombNodes[fi]`. -/
def fi2Nodes (nl : Netlist) (type : NodeType) (fi : ℕ) : List NodeId :=
  nl.nodes.filter fun v => decide (nl.type v = type ∧ (nl.node v).numFanins = fi)

/-- The node behind the clock or the reset pin. -/
def addControl (nl : Netlist) (type : NodeType) (name : String) (b : BinId) : Netlist :=
  let n := nl.size
  let nl := { nl.newNode with primIns := nl.primIns ++ [n] }
  ((nl.setName n name).setType n type).setBin n b

def setDbMaster (nl : Netlist) (v : NodeId) (master : DbMaster) : Netlist :=
  nl.modify v fun n => { n with master := some master }

end Netlist

/-- The local variables of the loop that deals the cells of a class out. -/
structure Dealing where
  netlist : Netlist
  idxIter : ℕ := 0
  currentCnt : DbMaster → ℤ := fun _ => 0

/-- The next cell whose target has not been reached. If there is none the inner
loop never ends. -/
def Dealing.deal (masters : List DbMaster) (targetCnt : DbMaster → ℤ) (s : Dealing)
    (target : NodeId) : Option Dealing :=
  let next := (masters.rotate s.idxIter).zipIdx.find? fun (master, _) =>
    decide (targetCnt master - s.currentCnt master > 0)
  next.map fun (master, k) => {
    netlist := s.netlist.setDbMaster target master
    idxIter := (s.idxIter + k + 1) % masters.length
    currentCnt := Function.update s.currentCnt master (s.currentCnt master + 1) }

namespace Netlist

/-- `master2ratio_` and `targetCnt` for the cells of one class. -/
def countTargets (nl : Netlist) (masters : List DbMaster) (numNodes : ℕ) :
    (DbMaster → ℚ) × (DbMaster → ℤ) :=
  let denominator := (masters.map nl.master2ratio).sum
  masters.foldl (fun (master2ratio, targetCnt) master =>
    let ratio := master2ratio master / denominator
    (Function.update master2ratio master ratio,
      Function.update targetCnt master ⌈ratio * numNodes⌉)) (nl.master2ratio, fun _ => 0)

/-- The nodes of one class get their cells. -/
def dealMasters (nl : Netlist) (masters : List DbMaster) (targets : List NodeId) :
    Option Netlist :=
  let counts := nl.countTargets masters targets.length
  (targets.foldlM (Dealing.deal masters counts.2)
    { netlist := { nl with master2ratio := counts.1 } }).map (·.netlist)

def dealClass (nl0 nl : Netlist) (fi : ℕ) : Option Netlist := do
  let sequMasters ← nl.fi2SequMasters[fi]?
  let nl ← nl.dealMasters sequMasters (nl0.fi2Nodes .sequential fi)
  let combMasters ← nl.fi2CombMasters[fi]?
  nl.dealMasters combMasters (nl0.fi2Nodes .combinational fi)

/-- `technologyMapping` up to the binding of terminals. A number of fan-ins
beyond the class lists is undefined. -/
def chooseCells (nl : Netlist) : Option Netlist := do
  if nl.nodes.any fun v =>
      decide ((nl.type v).IsInstance ∧ nl.fiDist.xMax < (nl.node v).numFanins) then none
  else
    let origin ← nl.getBin 0 0
    (List.range (nl.fiDist.xMax + 1).toNat).foldlM (dealClass nl)
      ((nl.addControl .clockIn "clk" origin).addControl .resetIn "rst" origin)

end Netlist

/-! ## Terminals -/

namespace Node

def collectTerm (n : Node) (term : DbMTerm) : Node :=
  match term.sigType, term.ioType with
  | .signal, .input => { n with inSigTerms := n.inSigTerms ++ [term.name] }
  | .signal, .output => { n with outSigTerms := n.outSigTerms ++ [term.name] }
  | .clock, .input => { n with inClkTerms := n.inClkTerms ++ [term.name] }
  | .reset, .input => { n with inRstTerms := n.inRstTerms ++ [term.name] }
  | _, _ => n

/-- A port has one terminal, an instance those of its cell. -/
def collectTerms (n : Node) : Option Node :=
  match n.type with
  | .primaryIn | .clockIn | .resetIn => some { n with outSigTerms := n.outSigTerms ++ ["PIN"] }
  | .primaryOut => some { n with inSigTerms := n.inSigTerms ++ ["PIN"] }
  | .combinational | .sequential => n.master.map fun master => master.mTerms.foldl collectTerm n

def bindTerm (n : Node) (neighbour : NodeId) (term : String) : Node :=
  { n with node2term := Function.update n.node2term neighbour term }

def bindSources (n : Node) : Node :=
  (n.sources.zip n.inSigTerms).foldl (fun n (source, term) => n.bindTerm source term) n

/-- The sinks are shared out among the output terminals in blocks. -/
def bindSinks (n : Node) : Node :=
  let numFanouts := (n.sinks.length + n.outSigTerms.length - 1) / n.outSigTerms.length
  n.outSigTerms.zipIdx.foldl (fun bound (term, i) =>
    let beginIdx := i * numFanouts
    let endIdx := min n.sinks.length ((i + 1) * numFanouts)
    ((n.sinks.drop beginIdx).take (endIdx - beginIdx)).foldl
      (fun bound sink => bound.bindTerm sink term) bound) n

/-- `Node::mappingTerms` before the control pins; the program ends when the
numbers of terminals do not match. -/
def mapTerms (n : Node) : Option Node := do
  let n ← n.collectTerms
  if n.inSigTerms.length ≠ n.sources.length then none
  else if n.sinks.length > 0 ∧ n.outSigTerms.length = 0 then none
  else some n.bindSources.bindSinks

end Node

namespace Netlist

def bindControl (nl : Netlist) (v control : NodeId) (term : String) : Netlist :=
  ((nl.modify v fun n => n.bindTerm control term).addSink control v).addSource v control

/-- `Node::mappingTerms`. -/
def mappingTerms (clkIn rstIn : NodeId) (nl : Netlist) (v : NodeId) : Option Netlist := do
  let n ← (nl.node v).mapTerms
  let nl := nl.modify v fun _ => n
  let nl := n.inClkTerms.foldl (fun nl term => nl.bindControl v clkIn term) nl
  return n.inRstTerms.foldl (fun nl term => nl.bindControl v rstIn term) nl

def getTerm (nl : Netlist) (v node : NodeId) : String := (nl.node v).node2term node

end Netlist

/-! ## Nets -/

/-- `Net::addTerm`: the terminal of a port goes by the name of the port. -/
def Net.addTerm (net : Net) (nl : Netlist) (v : NodeId) (termName : String) : Net :=
  { net with terms := net.terms ++ [(v, if termName = "PIN" then nl.name v else termName)] }

/-- The local variables of the loop that makes the nets. -/
structure NetMaking where
  netCnt : ℕ := 0
  name2net : List Net := []

namespace Netlist

/-- The keys of `out2sinks`. -/
def outTermNames (nl : Netlist) (source : NodeId) : List String :=
  ((nl.sinks source).map (nl.getTerm source)).dedup

def out2sinks (nl : Netlist) (source : NodeId) (outTermName : String) : List NodeId :=
  (nl.sinks source).filter fun sink => decide (nl.getTerm source sink = outTermName)

/-- The net of an input is called after the input, that of an instance after the
last output among its sinks, if there is one. -/
def netName (nl : Netlist) (netCnt : ℕ) (source : NodeId) (sinks : List NodeId) : String × ℕ :=
  match nl.type source with
  | .primaryIn | .clockIn | .resetIn => (nl.name source, netCnt)
  | _ =>
      match (sinks.filter fun sink => decide (nl.type sink = .primaryOut)).getLast? with
      | some sink => (nl.name sink, netCnt)
      | none => ("net" ++ toString netCnt, netCnt + 1)

def addNet (nl : Netlist) (source : NodeId) (s : NetMaking) (outTermName : String) :
    NetMaking :=
  let sinks := nl.out2sinks source outTermName
  let (netName, netCnt) := nl.netName s.netCnt source sinks
  let name2net :=
    if s.name2net.any fun net => net.name == netName then s.name2net
    else s.name2net ++ [Net.addTerm ⟨netName, []⟩ nl source outTermName]
  { netCnt
    name2net := name2net.map fun net =>
      if net.name = netName then
        sinks.foldl (fun net sink => net.addTerm nl sink (nl.getTerm sink source)) net
      else net }

/-- `nets_`. -/
def makeNets (nl : Netlist) (o : MapOrder) : List Net :=
  let s := nl.nodes.foldl (fun s source =>
    ((o.out2sinks source).val (nl.outTermNames source)).foldl (nl.addNet source) s) {}
  o.name2net.val s.name2net

/-- `technologyMapping`: the mapped netlist and its nets. -/
def technologyMapping (nl : Netlist) (o : MapOrder) : Option (Netlist × List Net) := do
  let chosen ← nl.chooseCells
  let mapped ← chosen.nodes.foldlM (mappingTerms nl.size (nl.size + 1)) chosen
  return (mapped, mapped.makeNets o)

end Netlist

end Artnetgen
