import ArtNetGen.Library.Adjacency
import ArtNetGen.Library.Classes
import ArtNetGen.Library.Loop
import ArtNetGen.Distribution

/-!
The netlist under construction: nodes, bins, and the histograms that describe
them. `nodes_` is a vector of pointers to nodes that are never moved or
deleted, and every new node is appended to it at once, so a pointer is modelled
by its position in `nodes_` and a `Netlist` carries the objects behind the
pointers. The same holds for bins. `none` stands for a run that leaves the
source's defined behaviour (an index out of range, an erase of `end()`) or that
the source ends by `exit`.
-/

namespace Artnetgen

abbrev NodeId := ℕ
abbrev BinId := ℕ

inductive NodeType where
  | primaryIn
  | primaryOut
  | clockIn
  | resetIn
  | combinational
  | sequential
  deriving DecidableEq

/-- The node becomes an instance of a library cell. -/
def NodeType.IsInstance (type : NodeType) : Prop :=
  type = .combinational ∨ type = .sequential

instance (type : NodeType) : Decidable type.IsInstance :=
  inferInstanceAs (Decidable (_ ∨ _))

inductive DbSigType where
  | signal
  | power
  | ground
  | clock
  | analog
  | reset
  | scan
  | tieoff
  deriving DecidableEq

inductive DbIoType where
  | input
  | output
  | inout
  | feedthru
  deriving DecidableEq

structure DbMTerm where
  name : String
  sigType : DbSigType
  ioType : DbIoType
  deriving DecidableEq

/-- A library cell. The database does not let a cell have two terminals of one
name. -/
structure DbMaster where
  name : String
  mTerms : List DbMTerm
  nodup : (mTerms.map (·.name)).Nodup
  deriving DecidableEq

/-- The terminals of a cell that has one input and one output. -/
theorem DbMaster.nodup_inOut :
    (([⟨"A", .signal, .input⟩, ⟨"Z", .signal, .output⟩] : List DbMTerm).map (·.name)).Nodup := by
  decide

/-- A node as `new Node()` leaves it, once its uninitialised members have been
set by whoever creates it. -/
structure Node where
  name : String := ""
  master : Option DbMaster := none
  inSigTerms : List String := []
  outSigTerms : List String := []
  inClkTerms : List String := []
  inRstTerms : List String := []
  node2term : NodeId → String := fun _ => ""
  type : NodeType := .combinational
  lx : ℕ := 0
  ly : ℕ := 0
  ux : ℕ := 0
  uy : ℕ := 0
  bin : BinId := 0
  sources : List NodeId := []
  sinks : List NodeId := []

namespace Node

def numFanins (n : Node) : ℕ := n.sources.length

def numFanouts (n : Node) : ℕ := n.sinks.length

def bboxSize (n : Node) : ℕ := (n.ux - n.lx) + (n.uy - n.ly)

def setBbox (n : Node) (lx ly ux uy : ℕ) : Node := { n with lx, ly, ux, uy }

def hasConnection (n : Node) (target : NodeId) : Bool := n.sinks.contains target

/-- Some source is listed twice. -/
def hasMultiPortConn (n : Node) : Bool := n.sources.any fun s => n.sources.count s > 1

/-- The node without type, cell, place and connections: its name, and what
mapping writes. -/
def strip (n : Node) : Node :=
  { n with
    master := none, type := .combinational, lx := 0, ly := 0, ux := 0, uy := 0, bin := 0
    sources := [], sinks := [] }

/-- Nothing has been mapped yet, and the name is not the one that stands for
the terminal of a port. -/
def Plain (n : Node) : Prop := n.strip = { name := n.name } ∧ n.name ≠ "PIN"

theorem plain_default : ({} : Node).Plain := ⟨rfl, by decide⟩

theorem name_of_strip {n n' : Node} (h : n'.strip = n.strip) : n'.name = n.name := by
  have hname : n'.strip.name = n.strip.name := congrArg Node.name h
  exact hname

theorem Plain.congr {n n' : Node} (h : n.Plain) (heq : n'.strip = n.strip) : n'.Plain := by
  have hname := name_of_strip heq
  exact ⟨by rw [heq, h.1, hname], hname ▸ h.2⟩

theorem Plain.rename {n n' : Node} (h : n.Plain) {name : String}
    (heq : n'.strip = { n.strip with name }) (hname : name ≠ "PIN") : n'.Plain := by
  have hname' : n'.strip.name = name := congrArg Node.name heq
  change n'.name = name at hname'
  exact ⟨by rw [heq, h.1, hname'], hname'.symm ▸ hname⟩

end Node

/-- A bin of the layout grid. `fi` is `fi2Nodes_` with the map `fi_`, `fo` is
`fo2Nodes_` with `fo_`. -/
structure Bin where
  x : ℕ := 0
  y : ℕ := 0
  nodes : List NodeId := []
  fi : ClassTable NodeId := ClassTable.empty 0
  fo : ClassTable NodeId := ClassTable.empty 0

namespace Bin

def fi2Nodes (b : Bin) (fi : ℕ) : Option (List NodeId) := b.fi.slots[fi]?

def fo2Nodes (b : Bin) (fo : ℕ) : Option (List NodeId) := b.fo.slots[fo]?

/-- `Bin::init`; a negative length throws. -/
def init (b : Bin) (maxFi maxFo : ℤ) : Option Bin :=
  if maxFi + 1 < 0 ∨ maxFo + 1 < 0 then none
  else some { b with
    fi := ClassTable.empty (maxFi + 1).toNat
    fo := ClassTable.empty (maxFo + 1).toNat }

end Bin

structure Net where
  name : String
  terms : List (NodeId × String)

structure Netlist where
  layoutDimX : ℕ
  layoutDimY : ℕ
  size : ℕ := 0
  node : NodeId → Node := fun _ => {}
  bin : BinId → Bin := fun _ => {}
  primIns : List NodeId := []
  primOuts : List NodeId := []
  fiDist : Distribution := {}
  foDist : Distribution := {}
  bboxDist : Distribution := {}
  edgeDist : Distribution := {}
  fi2SequMasters : List (List DbMaster) := []
  fi2CombMasters : List (List DbMaster) := []
  master2ratio : DbMaster → ℚ := fun _ => 0

namespace Netlist

/-- `nodes_`. -/
def nodes (nl : Netlist) : List NodeId := List.range nl.size

def numBins (nl : Netlist) : ℕ := nl.layoutDimX * nl.layoutDimY

/-- `bins_`. -/
def bins (nl : Netlist) : List BinId := List.range nl.numBins

def type (nl : Netlist) (v : NodeId) : NodeType := (nl.node v).type

def name (nl : Netlist) (v : NodeId) : String := (nl.node v).name

def sources (nl : Netlist) (v : NodeId) : List NodeId := (nl.node v).sources

def sinks (nl : Netlist) (v : NodeId) : List NodeId := (nl.node v).sinks

def binOf (nl : Netlist) (v : NodeId) : BinId := (nl.node v).bin

def x (nl : Netlist) (v : NodeId) : ℕ := (nl.bin (nl.binOf v)).x

def y (nl : Netlist) (v : NodeId) : ℕ := (nl.bin (nl.binOf v)).y

/-- The connections alone. -/
def graph (nl : Netlist) : Adjacency NodeId := ⟨nl.sources, nl.sinks⟩

def modify (nl : Netlist) (v : NodeId) (f : Node → Node) : Netlist :=
  { nl with node := Function.update nl.node v (f (nl.node v)) }

/-- `new Node()` followed by `nodes_.push_back`; the node's position is the old
size. -/
def newNode (nl : Netlist) : Netlist :=
  { nl with size := nl.size + 1, node := Function.update nl.node nl.size {} }

def setType (nl : Netlist) (v : NodeId) (type : NodeType) : Netlist :=
  nl.modify v fun n => { n with type }

def setName (nl : Netlist) (v : NodeId) (name : String) : Netlist :=
  nl.modify v fun n => { n with name }

def setBbox (nl : Netlist) (v : NodeId) (lx ly ux uy : ℕ) : Netlist :=
  nl.modify v fun n => n.setBbox lx ly ux uy

/-- Placing a node resets its bounding box to the bin. -/
def setBin (nl : Netlist) (v : NodeId) (b : BinId) : Netlist :=
  nl.modify v fun n =>
    { n with bin := b }.setBbox (nl.bin b).x (nl.bin b).y (nl.bin b).x (nl.bin b).y

def addSource (nl : Netlist) (v source : NodeId) : Netlist :=
  nl.modify v fun n => { n with sources := n.sources ++ [source] }

/-- `Node::addSink` also grows the box of the driver. -/
def addSink (nl : Netlist) (v sink : NodeId) : Netlist :=
  nl.modify v fun n =>
    { n with
      sinks := n.sinks ++ [sink]
      lx := min (nl.x sink) n.lx
      ly := min (nl.y sink) n.ly
      ux := max (nl.x sink) n.ux
      uy := max (nl.y sink) n.uy }

/-- The insertion into `sinks_` alone, as `Node::addSinks` does it. -/
def pushSink (nl : Netlist) (v sink : NodeId) : Netlist :=
  nl.modify v fun n => { n with sinks := n.sinks ++ [sink] }

def removeSource (nl : Netlist) (v target : NodeId) : Netlist :=
  nl.modify v fun n => { n with sources := n.sources.erase target }

def removeSink (nl : Netlist) (v target : NodeId) : Netlist :=
  nl.modify v fun n => { n with sinks := n.sinks.erase target }

def addSources (nl : Netlist) (v : NodeId) (sources : List NodeId) : Netlist :=
  sources.foldl (fun nl source => (nl.addSource v source).addSink source v) nl

def addSinks (nl : Netlist) (v : NodeId) (sinks : List NodeId) : Netlist :=
  sinks.foldl (fun nl sink => (nl.pushSink v sink).addSource sink v) nl

def removeAllSinks (nl : Netlist) (v : NodeId) : Netlist :=
  ((nl.sinks v).foldl (fun nl sink => nl.removeSource sink v) nl).modify v
    fun n => { n with sinks := [] }

def removeAllSources (nl : Netlist) (v : NodeId) : Netlist :=
  ((nl.sources v).foldl (fun nl source => nl.removeSink source v) nl).modify v
    fun n => { n with sources := [] }

/-- `Bin::addNode`. -/
def addNode (nl : Netlist) (b : BinId) (v : NodeId) : Option Netlist := do
  let bin := nl.bin b
  let fi ← bin.fi.insert v (nl.node v).numFanins
  let fo ← bin.fo.insert v (nl.node v).numFanouts
  let bin := { bin with nodes := bin.nodes ++ [v], fi, fo }
  return { nl with bin := Function.update nl.bin b bin }.setBin v b

/-- `Bin::update`. -/
def update (nl : Netlist) (b : BinId) (v : NodeId) : Option Netlist := do
  let bin := nl.bin b
  let fi ← bin.fi.move v (nl.node v).numFanins
  let fo ← bin.fo.move v (nl.node v).numFanouts
  return { nl with bin := Function.update nl.bin b { bin with fi, fo } }

/-- `Netlist::getBin`, which ends the program when the bin at the index does
not have the coordinates asked for. -/
def getBin (nl : Netlist) (x y : ℕ) : Option BinId :=
  let idx := x + y * nl.layoutDimX
  if idx < nl.numBins ∧ (nl.bin idx).x = x ∧ (nl.bin idx).y = y then some idx else none

/-- `Netlist::connect` up to the updates of the bins. -/
def countEdge (nl : Netlist) (src sink : NodeId) : Option Netlist := do
  let edgeLen := ((nl.x src : ℤ) - nl.x sink).natAbs + ((nl.y src : ℤ) - nl.y sink).natAbs
  let fiDist ← nl.fiDist.decr (nl.node sink).numFanins
  let foDist ← nl.foDist.decr (nl.node src).numFanouts
  let bboxDist ← nl.bboxDist.decr (nl.node src).bboxSize
  let nl := (nl.addSink src sink).addSource sink src
  let fiDist ← fiDist.incr (nl.node sink).numFanins
  let foDist ← foDist.incr (nl.node src).numFanouts
  let bboxDist ← bboxDist.incr (nl.node src).bboxSize
  let edgeDist ← nl.edgeDist.incr edgeLen
  return { nl with fiDist, foDist, bboxDist, edgeDist }

/-- `Netlist::connect`. -/
def connect (nl : Netlist) (src sink : NodeId) : Option Netlist := do
  let nl ← nl.countEdge src sink
  let nl ← nl.update (nl.binOf src) src
  nl.update (nl.binOf sink) sink

/-! What the operations read and leave alone. Every edit of a node goes through
`modify`, so the lemmas about it carry the rest. -/

theorem modify_node (nl : Netlist) (v : NodeId) (f : Node → Node) (w : NodeId) :
    (nl.modify v f).node w = if w = v then f (nl.node v) else nl.node w := by
  simp only [modify, Function.update_apply]

@[simp] theorem modify_bin (nl : Netlist) (v : NodeId) (f : Node → Node) :
    (nl.modify v f).bin = nl.bin := rfl

@[simp] theorem modify_size (nl : Netlist) (v : NodeId) (f : Node → Node) :
    (nl.modify v f).size = nl.size := rfl

theorem modify_field {β : Type} (field : Node → β) (nl : Netlist) (v : NodeId)
    (f : Node → Node) :
    (fun w => field ((nl.modify v f).node w)) =
      Function.update (fun w => field (nl.node w)) v (field (f (nl.node v))) :=
  Function.comp_update field nl.node v (f (nl.node v))

/-- A part of the nodes that `f` keeps is kept everywhere. -/
theorem modify_kept {β : Type} (field : Node → β) (nl : Netlist) (v : NodeId)
    (f : Node → Node) (h : ∀ n, field (f n) = field n) :
    (fun w => field ((nl.modify v f).node w)) = fun w => field (nl.node w) := by
  rw [modify_field, h]
  exact Function.update_eq_self v _

theorem modify_graph (nl : Netlist) (v : NodeId) (f : Node → Node) :
    (nl.modify v f).graph =
      ⟨Function.update nl.sources v (f (nl.node v)).sources,
        Function.update nl.sinks v (f (nl.node v)).sinks⟩ :=
  congrArg₂ Adjacency.mk (modify_field Node.sources nl v f) (modify_field Node.sinks nl v f)

theorem modify_type (nl : Netlist) (v : NodeId) (f : Node → Node) :
    (nl.modify v f).type = Function.update nl.type v (f (nl.node v)).type :=
  modify_field Node.type nl v f

theorem modify_binOf (nl : Netlist) (v : NodeId) (f : Node → Node) :
    (nl.modify v f).binOf = Function.update nl.binOf v (f (nl.node v)).bin :=
  modify_field Node.bin nl v f

theorem modify_strip (nl : Netlist) (v : NodeId) (f : Node → Node) (w : NodeId)
    (h : ∀ n, (f n).strip = n.strip) :
    ((nl.modify v f).node w).strip = (nl.node w).strip :=
  congrFun (nl.modify_kept Node.strip v f h) w

/-- The edit `f` does not touch the connections. -/
theorem modify_graph_kept (nl : Netlist) (v : NodeId) (f : Node → Node)
    (hsources : ∀ n, (f n).sources = n.sources) (hsinks : ∀ n, (f n).sinks = n.sinks) :
    (nl.modify v f).graph = nl.graph :=
  congrArg₂ Adjacency.mk (modify_kept Node.sources nl v f hsources)
    (modify_kept Node.sinks nl v f hsinks)

@[simp] theorem setBin_graph (nl : Netlist) (v : NodeId) (b : BinId) :
    (nl.setBin v b).graph = nl.graph := nl.modify_graph_kept v _ (fun _ => rfl) fun _ => rfl

@[simp] theorem setType_graph (nl : Netlist) (v : NodeId) (type : NodeType) :
    (nl.setType v type).graph = nl.graph :=
  nl.modify_graph_kept v _ (fun _ => rfl) fun _ => rfl

@[simp] theorem setName_graph (nl : Netlist) (v : NodeId) (name : String) :
    (nl.setName v name).graph = nl.graph :=
  nl.modify_graph_kept v _ (fun _ => rfl) fun _ => rfl

@[simp] theorem setBbox_graph (nl : Netlist) (v : NodeId) (lx ly ux uy : ℕ) :
    (nl.setBbox v lx ly ux uy).graph = nl.graph :=
  nl.modify_graph_kept v _ (fun _ => rfl) fun _ => rfl

@[simp] theorem addSource_graph (nl : Netlist) (v source : NodeId) :
    (nl.addSource v source).graph = nl.graph.addSource v source :=
  (nl.modify_graph v _).trans
    (congrArg (Adjacency.mk _) (Function.update_eq_self v nl.sinks))

@[simp] theorem addSink_graph (nl : Netlist) (v sink : NodeId) :
    (nl.addSink v sink).graph = nl.graph.addSink v sink :=
  (nl.modify_graph v _).trans
    (congrArg (Adjacency.mk · _) (Function.update_eq_self v nl.sources))

@[simp] theorem pushSink_graph (nl : Netlist) (v sink : NodeId) :
    (nl.pushSink v sink).graph = nl.graph.addSink v sink :=
  (nl.modify_graph v _).trans
    (congrArg (Adjacency.mk · _) (Function.update_eq_self v nl.sources))

@[simp] theorem removeSource_graph (nl : Netlist) (v target : NodeId) :
    (nl.removeSource v target).graph = nl.graph.removeSource v target :=
  (nl.modify_graph v _).trans
    (congrArg (Adjacency.mk _) (Function.update_eq_self v nl.sinks))

@[simp] theorem removeSink_graph (nl : Netlist) (v target : NodeId) :
    (nl.removeSink v target).graph = nl.graph.removeSink v target :=
  (nl.modify_graph v _).trans
    (congrArg (Adjacency.mk · _) (Function.update_eq_self v nl.sources))

@[simp] theorem addSource_type (nl : Netlist) (v source : NodeId) :
    (nl.addSource v source).type = nl.type := nl.modify_kept Node.type v _ fun _ => rfl

@[simp] theorem addSink_type (nl : Netlist) (v sink : NodeId) :
    (nl.addSink v sink).type = nl.type := nl.modify_kept Node.type v _ fun _ => rfl

@[simp] theorem pushSink_type (nl : Netlist) (v sink : NodeId) :
    (nl.pushSink v sink).type = nl.type := nl.modify_kept Node.type v _ fun _ => rfl

@[simp] theorem removeSource_type (nl : Netlist) (v target : NodeId) :
    (nl.removeSource v target).type = nl.type := nl.modify_kept Node.type v _ fun _ => rfl

@[simp] theorem removeSink_type (nl : Netlist) (v target : NodeId) :
    (nl.removeSink v target).type = nl.type := nl.modify_kept Node.type v _ fun _ => rfl

@[simp] theorem addSource_binOf (nl : Netlist) (v source : NodeId) :
    (nl.addSource v source).binOf = nl.binOf := nl.modify_kept Node.bin v _ fun _ => rfl

@[simp] theorem addSink_binOf (nl : Netlist) (v sink : NodeId) :
    (nl.addSink v sink).binOf = nl.binOf := nl.modify_kept Node.bin v _ fun _ => rfl

@[simp] theorem pushSink_binOf (nl : Netlist) (v sink : NodeId) :
    (nl.pushSink v sink).binOf = nl.binOf := nl.modify_kept Node.bin v _ fun _ => rfl

@[simp] theorem removeSource_binOf (nl : Netlist) (v target : NodeId) :
    (nl.removeSource v target).binOf = nl.binOf := nl.modify_kept Node.bin v _ fun _ => rfl

@[simp] theorem removeSink_binOf (nl : Netlist) (v target : NodeId) :
    (nl.removeSink v target).binOf = nl.binOf := nl.modify_kept Node.bin v _ fun _ => rfl

@[simp] theorem setBin_binOf (nl : Netlist) (v : NodeId) (b : BinId) :
    (nl.setBin v b).binOf = Function.update nl.binOf v b := nl.modify_binOf v _

@[simp] theorem setType_binOf (nl : Netlist) (v : NodeId) (type : NodeType) :
    (nl.setType v type).binOf = nl.binOf := nl.modify_kept Node.bin v _ fun _ => rfl

@[simp] theorem setBbox_binOf (nl : Netlist) (v : NodeId) (lx ly ux uy : ℕ) :
    (nl.setBbox v lx ly ux uy).binOf = nl.binOf := nl.modify_kept Node.bin v _ fun _ => rfl

@[simp] theorem setName_binOf (nl : Netlist) (v : NodeId) (name : String) :
    (nl.setName v name).binOf = nl.binOf := nl.modify_kept Node.bin v _ fun _ => rfl

@[simp] theorem setBin_type (nl : Netlist) (v : NodeId) (b : BinId) :
    (nl.setBin v b).type = nl.type := nl.modify_kept Node.type v _ fun _ => rfl

@[simp] theorem setBbox_type (nl : Netlist) (v : NodeId) (lx ly ux uy : ℕ) :
    (nl.setBbox v lx ly ux uy).type = nl.type := nl.modify_kept Node.type v _ fun _ => rfl

@[simp] theorem setName_type (nl : Netlist) (v : NodeId) (name : String) :
    (nl.setName v name).type = nl.type := nl.modify_kept Node.type v _ fun _ => rfl

@[simp] theorem setType_type (nl : Netlist) (v : NodeId) (type : NodeType) :
    (nl.setType v type).type = Function.update nl.type v type := nl.modify_type v _

@[simp] theorem setBin_strip (nl : Netlist) (v : NodeId) (b : BinId) (w : NodeId) :
    ((nl.setBin v b).node w).strip = (nl.node w).strip := nl.modify_strip v _ w fun _ => rfl

@[simp] theorem setBbox_strip (nl : Netlist) (v : NodeId) (lx ly ux uy : ℕ) (w : NodeId) :
    ((nl.setBbox v lx ly ux uy).node w).strip = (nl.node w).strip :=
  nl.modify_strip v _ w fun _ => rfl

@[simp] theorem setType_strip (nl : Netlist) (v : NodeId) (type : NodeType) (w : NodeId) :
    ((nl.setType v type).node w).strip = (nl.node w).strip :=
  nl.modify_strip v _ w fun _ => rfl

@[simp] theorem addSource_strip (nl : Netlist) (v source w : NodeId) :
    ((nl.addSource v source).node w).strip = (nl.node w).strip :=
  nl.modify_strip v _ w fun _ => rfl

@[simp] theorem addSink_strip (nl : Netlist) (v sink w : NodeId) :
    ((nl.addSink v sink).node w).strip = (nl.node w).strip :=
  nl.modify_strip v _ w fun _ => rfl

theorem newNode_node (nl : Netlist) (v : NodeId) :
    nl.newNode.node v = if v = nl.size then {} else nl.node v :=
  Function.update_apply ..

end Netlist

end Artnetgen
