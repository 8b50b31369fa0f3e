import ArtNetGen.TechMapping
import ArtNetGen.LongestPath
import ArtNetGen.Library.Edges

/-!
A placed design as the extractor reads it from the database, and
`ArtNetGen::analyzeTopologicalOrder`, which builds a graph over its instances
and signal block terminals and traverses it as `Netlist::topologicalSort` does.
A block terminal of direction `OUTPUT` is read there as the start of edges and
one of direction `INPUT` as their end.
-/

namespace Artnetgen

abbrev NetId := ℕ

/-- A pin of the instance at position `inst` of the block. -/
structure DbITerm where
  inst : ℕ
  mTerm : DbMTerm
  net : Option NetId
  deriving DecidableEq

structure DbInst where
  name : String
  master : DbMaster
  x : ℤ
  y : ℤ
  net : DbMTerm → Option NetId

def DbInst.getITerms (inst : DbInst) (i : ℕ) : List DbITerm :=
  inst.master.mTerms.map fun term => ⟨i, term, inst.net term⟩

structure DbBTerm where
  name : String
  sigType : DbSigType
  ioType : DbIoType
  net : Option NetId
  deriving DecidableEq

/-- The last two fields are the orders in which a net lists what is on it. -/
structure DbBlock where
  insts : List DbInst
  bTerms : List DbBTerm
  coreLL : ℤ × ℤ
  coreUR : ℤ × ℤ
  isSequential : DbMaster → Bool
  iTermOrder : NetId → Iteration DbITerm
  bTermOrder : NetId → Iteration (DbBTerm × NodeId)

/-- The pin is where a signal leaves its instance. -/
def DbITerm.Drives (t : DbITerm) : Prop := t.mTerm.sigType = .signal ∧ t.mTerm.ioType = .output

instance (t : DbITerm) : Decidable t.Drives := inferInstanceAs (Decidable (_ ∧ _))

namespace DbBlock

def iTerms (b : DbBlock) : List DbITerm :=
  b.insts.zipIdx.flatMap fun (inst, i) => inst.getITerms i

def netITerms (b : DbBlock) (n : NetId) : List DbITerm :=
  (b.iTermOrder n).1 (b.iTerms.filter fun t => t.net = some n)

/-! ## The graph -/

def signalBTerms (b : DbBlock) : List DbBTerm := b.bTerms.filter fun t => t.sigType = .signal

/-- Instances come first, then the block terminals for signals. -/
def numNodes (b : DbBlock) : ℕ := b.insts.length + b.signalBTerms.length

def bTermNodes (b : DbBlock) : List (DbBTerm × NodeId) := b.signalBTerms.zipIdx b.insts.length

def netBTerms (b : DbBlock) (n : NetId) : List (DbBTerm × NodeId) :=
  (b.bTermOrder n).1 (b.bTermNodes.filter fun t => t.1.net = some n)

/-- Block terminals without a direction of their own are plain nodes. -/
def nodeType (b : DbBlock) (v : NodeId) : NodeType :=
  match b.insts[v]? with
  | some inst => if b.isSequential inst.master then .sequential else .combinational
  | none =>
      match (b.signalBTerms[v - b.insts.length]?).map DbBTerm.ioType with
      | some .input => .primaryIn
      | some .output => .primaryOut
      | _ => .combinational

/-- What the net is traversed from, `drive` being the direction a block
terminal must have. -/
def starts (b : DbBlock) (drive : DbIoType) : List (NodeId × NetId) :=
  (b.iTerms.filter fun t => t.Drives).filterMap (fun t => t.net.map fun n => (t.inst, n)) ++
    (b.bTermNodes.filter fun t => t.1.ioType = drive).filterMap fun t =>
      t.1.net.map fun n => (t.2, n)

/-- What is reached on the net, pins of every use among them. -/
def loads (b : DbBlock) (load : DbIoType) (n : NetId) : List NodeId :=
  ((b.netITerms n).filter fun t => t.mTerm.ioType = .input).map (·.inst) ++
    ((b.netBTerms n).filter fun t => t.1.ioType = load).map (·.2)

def links (b : DbBlock) (drive load : DbIoType) : List (NodeId × NodeId) :=
  (b.starts drive).flatMap fun (source, n) => (b.loads load n).map fun sink => (source, sink)

def graph (b : DbBlock) (drive load : DbIoType) : Adjacency NodeId :=
  Adjacency.ofEdges (b.links drive load)

/-- A block terminal that is no signal has no node, and an edge to it is drawn
through a null pointer. -/
def strays (b : DbBlock) (drive load : DbIoType) : Bool :=
  (b.starts drive).any fun (_, n) => b.bTerms.any fun t =>
    decide (t.sigType ≠ .signal ∧ t.ioType = load ∧ t.net = some n)

/-! ## The traversal -/

def inDegree (b : DbBlock) (g : Adjacency NodeId) (v : NodeId) : ℕ :=
  match b.nodeType v with
  | .sequential | .primaryIn => 0
  | _ => (g.sources v).length

/-- `topoOrder`, as it is when the queue is empty. -/
def topoOrder (b : DbBlock) : Option (NodeId → ℤ) :=
  let g := b.graph .output .input
  if b.strays .output .input then none
  else some (Kahn.orders (List.range b.numNodes) g.sinks (b.inDegree g) fun _ => true)

def analyzeTopologicalOrder (b : DbBlock) : Option ℚ :=
  b.topoOrder.map fun order =>
    ((List.range b.numNodes).map fun v => (order v : ℚ)).sum / b.numNodes

/-! ## Depth in the design -/

/-- The design as a netlist of the generator. -/
def netlist (b : DbBlock) (drive load : DbIoType) : Netlist where
  layoutDimX := 1
  layoutDimY := 1
  size := b.numNodes
  node v :=
    { type := b.nodeType v
      sources := (b.graph drive load).sources v
      sinks := (b.graph drive load).sinks v }

/-- The netlist whose inputs drive and whose outputs are driven. -/
def generated (b : DbBlock) : Netlist := b.netlist .input .output

/-- The net carries a signal. -/
def SignalNet (b : DbBlock) (n : NetId) : Prop :=
  (∃ t ∈ b.iTerms, t.net = some n ∧ t.mTerm.sigType = .signal) ∨
    ∃ t ∈ b.bTerms, t.net = some n ∧ t.sigType = .signal

def numDrivers (b : DbBlock) (n : NetId) : ℕ :=
  (b.iTerms.countP fun t => decide (t.net = some n ∧ t.Drives)) +
    b.bTerms.countP fun t => decide (t.net = some n ∧ t.ioType = .input)

/-- One driver for each signal net, and a register on each cycle. -/
structure Timed (b : DbBlock) : Prop where
  driven : ∀ n, b.SignalNet n → b.numDrivers n = 1
  acyclic : Walks.Acyclic fun u v =>
    (u, v) ∈ b.links .input .output ∧ b.nodeType v ≠ .sequential

/-- Registers and inputs are at 0, anything else one above its deepest driver. -/
structure Depths (b : DbBlock) (order : NodeId → ℤ) : Prop where
  root : ∀ v < b.numNodes, b.nodeType v = .sequential ∨ b.nodeType v = .primaryIn →
    order v = 0
  undriven : ∀ v < b.numNodes, b.generated.sources v = [] → order v = 0
  above : ∀ v < b.numNodes, b.nodeType v ≠ .sequential → b.nodeType v ≠ .primaryIn →
    b.generated.sources v ≠ [] →
      (∃ u ∈ b.generated.sources v, order v = order u + 1) ∧
        ∀ u ∈ b.generated.sources v, order u + 1 ≤ order v

/-- An input terminal is on the net of some input pin of the instance. -/
def FedByPort (b : DbBlock) (i : ℕ) : Prop :=
  ∃ t ∈ b.iTerms, t.inst = i ∧ t.mTerm.ioType = .input ∧ t.net ≠ none ∧
    ∃ p ∈ b.bTerms, p.sigType = .signal ∧ p.ioType = .input ∧ p.net = t.net

/-- So is an output pin of some instance. -/
def FedByInst (b : DbBlock) (i : ℕ) : Prop :=
  ∃ t ∈ b.iTerms, t.inst = i ∧ t.mTerm.ioType = .input ∧ t.net ≠ none ∧
    ∃ o ∈ b.iTerms, o.Drives ∧ o.net = t.net

/-- The block terminals make no difference to depth. -/
structure PortsHidden (b : DbBlock) : Prop where
  outputs : ∀ t ∈ b.bTerms, t.sigType = .signal → t.ioType = .output → t.net = none
  inputs : ∀ i < b.insts.length, b.nodeType i ≠ .sequential → b.FedByPort i → b.FedByInst i

variable {b : DbBlock} {drive load : DbIoType} {u v : NodeId} {n : NetId}

/-! ## Edges -/

theorem inst_lt {t : DbITerm} (ht : t ∈ b.iTerms) : t.inst < b.insts.length := by
  obtain ⟨⟨inst, i⟩, hinst, hmem⟩ := List.mem_flatMap.mp ht
  obtain ⟨term, -, rfl⟩ := List.mem_map.mp hmem
  obtain ⟨hi, -⟩ := List.getElem?_eq_some_iff.mp (List.mk_mem_zipIdx_iff_getElem?.mp hinst)
  exact hi

theorem mem_bTermNodes {t : DbBTerm} :
    (t, u) ∈ b.bTermNodes ↔
      b.insts.length ≤ u ∧ b.signalBTerms[u - b.insts.length]? = some t :=
  List.mk_mem_zipIdx_iff_le_and_getElem?_sub

theorem mem_netITerms {t : DbITerm} : t ∈ b.netITerms n ↔ t ∈ b.iTerms ∧ t.net = some n := by
  unfold netITerms
  rw [((b.iTermOrder n).2 _).mem_iff]
  simp

theorem mem_netBTerms {t : DbBTerm} :
    (t, u) ∈ b.netBTerms n ↔ (t, u) ∈ b.bTermNodes ∧ t.net = some n := by
  unfold netBTerms
  rw [((b.bTermOrder n).2 _).mem_iff]
  simp

theorem mem_starts :
    (u, n) ∈ b.starts drive ↔
      (∃ t ∈ b.iTerms, t.Drives ∧ t.net = some n ∧ t.inst = u) ∨
        ∃ t, (t, u) ∈ b.bTermNodes ∧ t.ioType = drive ∧ t.net = some n := by
  unfold starts
  rw [List.mem_append]
  refine or_congr ?_ ?_
  · simp [List.mem_filterMap, and_assoc]
  · simp [List.mem_filterMap, and_assoc]

theorem mem_loads :
    v ∈ b.loads load n ↔
      (∃ t ∈ b.iTerms, t.net = some n ∧ t.mTerm.ioType = .input ∧ t.inst = v) ∨
        ∃ t, (t, v) ∈ b.bTermNodes ∧ t.net = some n ∧ t.ioType = load := by
  unfold loads
  rw [List.mem_append]
  refine or_congr ?_ ?_
  · simp [mem_netITerms, and_assoc]
  · simp [mem_netBTerms, and_assoc]

theorem mem_links :
    (u, v) ∈ b.links drive load ↔ ∃ n, (u, n) ∈ b.starts drive ∧ v ∈ b.loads load n := by
  simp [links, List.mem_flatMap]

theorem mem_sources :
    u ∈ (b.netlist drive load).sources v ↔
      ∃ n, (u, n) ∈ b.starts drive ∧ v ∈ b.loads load n :=
  Adjacency.mem_ofEdges_sources.trans mem_links

theorem lt_of_mem_bTermNodes {t : DbBTerm} (ht : (t, u) ∈ b.bTermNodes) : u < b.numNodes := by
  obtain ⟨hle, hget⟩ := mem_bTermNodes.mp ht
  obtain ⟨hlt, -⟩ := List.getElem?_eq_some_iff.mp hget
  exact (Nat.sub_lt_iff_lt_add' hle).mp hlt

theorem lt_of_start (h : (u, n) ∈ b.starts drive) : u < b.numNodes := by
  rcases mem_starts.mp h with ⟨t, ht, -, -, rfl⟩ | ⟨t, ht, -⟩
  · exact Nat.lt_of_lt_of_le (inst_lt ht) (Nat.le_add_right _ _)
  · exact lt_of_mem_bTermNodes ht

theorem lt_of_load (h : v ∈ b.loads load n) : v < b.numNodes := by
  rcases mem_loads.mp h with ⟨t, ht, -, -, rfl⟩ | ⟨t, ht, -⟩
  · exact Nat.lt_of_lt_of_le (inst_lt ht) (Nat.le_add_right _ _)
  · exact lt_of_mem_bTermNodes ht

theorem sources_lt (h : u ∈ (b.netlist drive load).sources v) : u < b.numNodes := by
  obtain ⟨n, hstart, -⟩ := mem_sources.mp h
  exact lt_of_start hstart

/-! ## Nodes -/

theorem nodeType_inst {i : ℕ} (hi : i < b.insts.length) :
    b.nodeType i = .sequential ∨ b.nodeType i = .combinational := by
  unfold nodeType
  rw [List.getElem?_eq_getElem hi]
  dsimp only
  split
  · exact Or.inl rfl
  · exact Or.inr rfl

theorem nodeType_bTerm {t : DbBTerm} (ht : (t, u) ∈ b.bTermNodes) :
    b.nodeType u = match t.ioType with
      | .input => .primaryIn
      | .output => .primaryOut
      | _ => .combinational := by
  obtain ⟨hle, hget⟩ := mem_bTermNodes.mp ht
  unfold nodeType
  rw [List.getElem?_eq_none hle, hget]
  cases hio : t.ioType <;> simp [hio]

theorem not_isControl (v : NodeId) : (b.nodeType v).isControl = false := by
  unfold nodeType
  split
  · split <;> rfl
  · split <;> rfl

theorem netlist_traversable : (b.netlist drive load).Traversable where
  mirrored := Adjacency.ofEdges_mirrored _
  fresh v hv := by
    have hge : b.numNodes ≤ v := hv
    constructor
    · apply List.eq_nil_iff_forall_not_mem.mpr
      intro u hu
      obtain ⟨n, -, hload⟩ := mem_sources.mp hu
      exact Nat.not_lt.mpr hge (lt_of_load hload)
    · apply List.eq_nil_iff_forall_not_mem.mpr
      intro w hw
      obtain ⟨n, hstart, -⟩ := mem_links.mp (Adjacency.mem_ofEdges_sinks.mp hw)
      exact Nat.not_lt.mpr hge (lt_of_start hstart)
  control u hu := by
    have hnot : (b.nodeType u).isControl = true := hu
    rw [not_isControl] at hnot
    cases hnot

/-- The traversal of the design is the one of the generator. -/
theorem netlist_topologicalSort :
    (b.netlist drive load).topologicalSort =
      some (Kahn.orders (List.range b.numNodes) (b.graph drive load).sinks
        (b.inDegree (b.graph drive load)) fun _ => true) := by
  have hsome : (b.netlist drive load).topologicalSort.isSome = true :=
    netlist_traversable.isSome_iff.mpr fun u _ hu => by
      have hnot : (b.nodeType u).isControl = true := hu
      rw [not_isControl] at hnot
      cases hnot
  obtain ⟨order, horder⟩ := Option.isSome_iff_exists.mp hsome
  have henters : (b.netlist drive load).enters = fun _ => true := by
    funext v
    have hnot : ((b.netlist drive load).type v).isControl = false := not_isControl v
    simp [Netlist.enters, hnot]
  rw [horder, Netlist.Traversable.eq_orders horder, henters]
  rfl

/-! ## Agreement -/

theorem topoOrder_eq {order : NodeId → ℤ} (h : b.topoOrder = some order) :
    b.strays .output .input = false ∧
      (b.netlist .output .input).topologicalSort = some order := by
  simp only [topoOrder] at h
  split at h
  · cases h
  · next hstrays => exact ⟨by simpa using hstrays, netlist_topologicalSort.trans h⟩

theorem Timed.not_blocked (h : b.Timed) (v : NodeId) :
    ¬ Walks.Blocked b.generated.CutEdge v := by
  refine (h.acyclic.mono fun u w hcut => ?_).not_blocked v
  exact ⟨Adjacency.mem_ofEdges_sinks.mp hcut.1, fun hseq => hcut.2 (Or.inl hseq)⟩

/-- The generator's traversal measures depth. -/
theorem Timed.depths (h : b.Timed) {order : NodeId → ℤ}
    (horder : b.generated.topologicalSort = some order) : b.Depths order where
  root _ _ hv := netlist_traversable.order_root horder (hv.imp_right Or.inl)
  undriven _ _ hv := netlist_traversable.order_root horder (Or.inr (Or.inr hv))
  above v hv hseq hin hsources :=
    netlist_traversable.order_sources horder hv (h.not_blocked v) hseq hin hsources

theorem Timed.order_nonneg (h : b.Timed) {order : NodeId → ℤ}
    (horder : b.generated.topologicalSort = some order) (hv : v < b.numNodes) : 0 ≤ order v :=
  netlist_traversable.order_nonneg horder hv (h.not_blocked v)

/-- What drives an instance besides input terminals is an instance. -/
theorem mem_sources_inst {i : ℕ} (hi : i < b.insts.length) :
    u ∈ (b.netlist drive load).sources i ↔
      ∃ t ∈ b.iTerms, t.inst = i ∧ t.mTerm.ioType = .input ∧ ∃ n, t.net = some n ∧
        (u, n) ∈ b.starts drive := by
  rw [mem_sources]
  constructor
  · rintro ⟨n, hstart, hload⟩
    rcases mem_loads.mp hload with ⟨t, ht, hn, hin, rfl⟩ | ⟨t, ht, -⟩
    · exact ⟨t, ht, rfl, hin, n, hn, hstart⟩
    · exact absurd (mem_bTermNodes.mp ht).1 (Nat.not_le.mpr hi)
  · rintro ⟨t, ht, hinst, hin, n, hn, hstart⟩
    exact ⟨n, hstart, mem_loads.mpr (Or.inl ⟨t, ht, hn, hin, hinst⟩)⟩

theorem fedByInst_iff {i : ℕ} (hi : i < b.insts.length) :
    b.FedByInst i ↔ ∃ u < b.insts.length, u ∈ (b.netlist drive load).sources i := by
  constructor
  · rintro ⟨t, ht, hinst, hin, hnet, o, ho, hdrives, honet⟩
    obtain ⟨n, hn⟩ := Option.ne_none_iff_exists'.mp hnet
    exact ⟨o.inst, inst_lt ho, (mem_sources_inst hi).mpr ⟨t, ht, hinst, hin, n, hn,
      mem_starts.mpr (Or.inl ⟨o, ho, hdrives, honet.trans hn, rfl⟩)⟩⟩
  · rintro ⟨u, hu, hmem⟩
    obtain ⟨t, ht, hinst, hin, n, hn, hstart⟩ := (mem_sources_inst hi).mp hmem
    rcases mem_starts.mp hstart with ⟨o, ho, hdrives, honet, rfl⟩ | ⟨p, hp, -⟩
    · exact ⟨t, ht, hinst, hin, hn ▸ Option.some_ne_none n, o, ho, hdrives, honet.trans hn.symm⟩
    · exact absurd (mem_bTermNodes.mp hp).1 (Nat.not_le.mpr hu)

theorem mem_signalBTerms {t : DbBTerm} :
    t ∈ b.signalBTerms ↔ ∃ u, (t, u) ∈ b.bTermNodes := by
  constructor
  · intro ht
    obtain ⟨j, hj⟩ := List.mem_iff_getElem?.mp ht
    refine ⟨b.insts.length + j, mem_bTermNodes.mpr ⟨Nat.le_add_right _ _, ?_⟩⟩
    rwa [Nat.add_sub_cancel_left]
  · rintro ⟨u, hu⟩
    exact List.mem_of_getElem? (mem_bTermNodes.mp hu).2

theorem fedByPort_iff {i : ℕ} (hi : i < b.insts.length) :
    b.FedByPort i ↔ ∃ u, b.insts.length ≤ u ∧ u ∈ b.generated.sources i := by
  constructor
  · rintro ⟨t, ht, hinst, hin, hnet, p, hp, hsig, hio, hpnet⟩
    obtain ⟨n, hn⟩ := Option.ne_none_iff_exists'.mp hnet
    obtain ⟨u, hu⟩ := mem_signalBTerms.mp (List.mem_filter.mpr ⟨hp, by simpa using hsig⟩)
    exact ⟨u, (mem_bTermNodes.mp hu).1, (mem_sources_inst hi).mpr ⟨t, ht, hinst, hin, n, hn,
      mem_starts.mpr (Or.inr ⟨p, hu, hio, hpnet.trans hn⟩)⟩⟩
  · rintro ⟨u, hu, hmem⟩
    obtain ⟨t, ht, hinst, hin, n, hn, hstart⟩ := (mem_sources_inst hi).mp hmem
    rcases mem_starts.mp hstart with ⟨o, ho, -, -, rfl⟩ | ⟨p, hp, hio, hpnet⟩
    · exact absurd (inst_lt ho) (Nat.not_lt.mpr hu)
    · obtain ⟨hmemb, hsig⟩ := List.mem_filter.mp (mem_signalBTerms.mpr ⟨u, hp⟩)
      exact ⟨t, ht, hinst, hin, hn ▸ Option.some_ne_none n, p, hmemb, by simpa using hsig, hio,
        hpnet.trans hn.symm⟩

theorem bTermNodes_unique {t t' : DbBTerm} (ht : (t, u) ∈ b.bTermNodes)
    (ht' : (t', u) ∈ b.bTermNodes) : t = t' :=
  Option.some.inj ((mem_bTermNodes.mp ht).2.symm.trans (mem_bTermNodes.mp ht').2)

theorem mem_sources_bTerm {t : DbBTerm} (ht : (t, v) ∈ b.bTermNodes) :
    u ∈ (b.netlist drive load).sources v ↔
      t.ioType = load ∧ ∃ n, t.net = some n ∧ (u, n) ∈ b.starts drive := by
  rw [mem_sources]
  constructor
  · rintro ⟨n, hstart, hload⟩
    rcases mem_loads.mp hload with ⟨p, hp, -, -, rfl⟩ | ⟨t', ht', hn, hio⟩
    · exact absurd (mem_bTermNodes.mp ht).1 (Nat.not_le.mpr (inst_lt hp))
    · obtain rfl := bTermNodes_unique ht ht'
      exact ⟨hio, n, hn, hstart⟩
  · rintro ⟨hio, n, hn, hstart⟩
    exact ⟨n, hstart, mem_loads.mpr (Or.inr ⟨t, ht, hn, hio⟩)⟩

theorem exists_bTerm (hle : b.insts.length ≤ v) (hv : v < b.numNodes) :
    ∃ t, (t, v) ∈ b.bTermNodes := by
  have hlt : v - b.insts.length < b.signalBTerms.length := (Nat.sub_lt_iff_lt_add' hle).mpr hv
  exact ⟨_, mem_bTermNodes.mpr ⟨hle, List.getElem?_eq_getElem hlt⟩⟩

theorem signal_of_node {t : DbBTerm} (ht : (t, u) ∈ b.bTermNodes) :
    t ∈ b.bTerms ∧ t.sigType = .signal := by
  obtain ⟨hmem, hsig⟩ := List.mem_filter.mp (mem_signalBTerms.mpr ⟨u, ht⟩)
  exact ⟨hmem, by simpa using hsig⟩

/-! What is lost if they do make a difference. -/

section Lost

variable {order : NodeId → ℤ}

/-- An output terminal never gets beyond 0. -/
theorem order_output (horder : (b.netlist .output .input).topologicalSort = some order)
    {t : DbBTerm} (ht : (t, u) ∈ b.bTermNodes) (hio : t.ioType = .output) : order u = 0 := by
  apply netlist_traversable.order_root horder
  right
  right
  apply List.eq_nil_iff_forall_not_mem.mpr
  intro w hw
  have hin := ((mem_sources_bTerm ht).mp hw).1
  rw [hio] at hin
  cases hin

/-- The driver of a net with an output terminal has a node, or the analysis
would have met a terminal without one. -/
theorem Timed.exists_start (h : b.Timed) (hstrays : b.strays .output .input = false)
    {t : DbBTerm} (ht : (t, u) ∈ b.bTermNodes) (hio : t.ioType = .output)
    (hn : t.net = some n) : ∃ w, (w, n) ∈ b.starts .input := by
  obtain ⟨hmem, hsig⟩ := signal_of_node ht
  have hone := h.driven n (Or.inr ⟨t, hmem, hn, hsig⟩)
  unfold numDrivers at hone
  have hor : (0 < b.iTerms.countP fun p => decide (p.net = some n ∧ p.Drives)) ∨
      0 < b.bTerms.countP fun p => decide (p.net = some n ∧ p.ioType = .input) := by
    omega
  rcases hor with hpos | hport
  · obtain ⟨p, hp, hdrives⟩ := List.countP_pos_iff.mp hpos
    obtain ⟨hpn, hpdrives⟩ := of_decide_eq_true hdrives
    exact ⟨p.inst, mem_starts.mpr (Or.inl ⟨p, hp, hpdrives, hpn, rfl⟩)⟩
  · -- A terminal that is no signal would have ended the analysis.
    obtain ⟨p, hp, hdrives⟩ := List.countP_pos_iff.mp hport
    obtain ⟨hpn, hpio⟩ := of_decide_eq_true hdrives
    have hpsig : p.sigType = .signal := by
      by_contra hother
      have hstart : (u, n) ∈ b.starts .output := mem_starts.mpr (Or.inr ⟨t, ht, hio, hn⟩)
      have hstray : b.strays .output .input = true :=
        List.any_eq_true.mpr ⟨(u, n), hstart, List.any_eq_true.mpr ⟨p, hp, by
          simp [hother, hpio, hpn]⟩⟩
      rw [hstrays] at hstray
      cases hstray
    obtain ⟨w, hw⟩ := mem_signalBTerms.mp (List.mem_filter.mpr ⟨hp, by simpa using hpsig⟩)
    exact ⟨w, mem_starts.mpr (Or.inr ⟨p, hw, hpio, hpn⟩)⟩

variable (horder : (b.netlist .output .input).topologicalSort = some order)
  (hdepths : b.Depths order) (hnonneg : ∀ v < b.numNodes, 0 ≤ order v)

include horder hdepths hnonneg

theorem Timed.outputs_hidden (h : b.Timed) (hstrays : b.strays .output .input = false)
    {t : DbBTerm} (ht : t ∈ b.bTerms) (hsig : t.sigType = .signal) (hio : t.ioType = .output) :
    t.net = none := by
  by_contra hnet
  obtain ⟨n, hn⟩ := Option.ne_none_iff_exists'.mp hnet
  obtain ⟨u, hu⟩ := mem_signalBTerms.mp (List.mem_filter.mpr ⟨ht, by simpa using hsig⟩)
  obtain ⟨w, hw⟩ := h.exists_start hstrays hu hio hn
  have hmem : w ∈ b.generated.sources u := (mem_sources_bTerm hu).mpr ⟨hio, n, hn, hw⟩
  have htype := nodeType_bTerm hu
  rw [hio] at htype
  obtain ⟨-, hall⟩ := hdepths.above u (lt_of_mem_bTermNodes hu) (by simp [htype]) (by simp [htype])
    (List.ne_nil_of_mem hmem)
  have hle := hall w hmem
  have hpos := hnonneg w (sources_lt hmem)
  rw [order_output horder hu hio] at hle
  linarith

theorem inputs_hidden
    (houtputs : ∀ t ∈ b.bTerms, t.sigType = .signal → t.ioType = .output → t.net = none) {i : ℕ}
    (hi : i < b.insts.length) (hseq : b.nodeType i ≠ .sequential) (hport : b.FedByPort i) :
    b.FedByInst i := by
  by_contra hinst
  obtain ⟨u, -, hmem⟩ := (fedByPort_iff hi).mp hport
  have hnil : (b.netlist .output .input).sources i = [] := by
    apply List.eq_nil_iff_forall_not_mem.mpr
    intro w hw
    obtain ⟨t, -, -, -, n, -, hstart⟩ := (mem_sources_inst hi).mp hw
    rcases mem_starts.mp hstart with ⟨o, ho, -, -, rfl⟩ | ⟨p, hp, hio, hpnet⟩
    · exact hinst ((fedByInst_iff hi).mpr ⟨_, inst_lt ho, hw⟩)
    · obtain ⟨hpmem, hsig⟩ := signal_of_node hp
      rw [houtputs p hpmem hsig hio] at hpnet
      cases hpnet
  have hzero : order i = 0 := netlist_traversable.order_root horder (Or.inr (Or.inr hnil))
  have hin : b.nodeType i ≠ .primaryIn := by
    rcases nodeType_inst hi with htype | htype <;> simp [htype]
  obtain ⟨-, hall⟩ := hdepths.above i (Nat.lt_of_lt_of_le hi (Nat.le_add_right _ _)) hseq hin
    (List.ne_nil_of_mem hmem)
  have hle := hall u hmem
  have hpos := hnonneg u (sources_lt hmem)
  linarith

end Lost

/-! What holds if they do not. -/

namespace PortsHidden

variable (h : b.PortsHidden)

include h

theorem start_inst (hstart : (u, n) ∈ b.starts .output) :
    ∃ t ∈ b.iTerms, t.Drives ∧ t.net = some n ∧ t.inst = u := by
  rcases mem_starts.mp hstart with hinst | ⟨t, ht, hio, hn⟩
  · exact hinst
  · obtain ⟨hmem, hsig⟩ := signal_of_node ht
    rw [h.outputs t hmem hsig hio] at hn
    cases hn

theorem not_strays (htimed : b.Timed) : b.strays .output .input = false := by
  apply List.any_eq_false.mpr
  rintro ⟨u, n⟩ hstart hany
  obtain ⟨p, hp, hstray⟩ := List.any_eq_true.mp hany
  obtain ⟨-, hio, hpn⟩ := of_decide_eq_true hstray
  obtain ⟨t, ht, hdrives, hn, -⟩ := h.start_inst hstart
  have hone := htimed.driven n (Or.inl ⟨t, ht, hn, hdrives.1⟩)
  have hpins : 0 < b.iTerms.countP fun t => decide (t.net = some n ∧ t.Drives) :=
    List.countP_pos_iff.mpr ⟨t, ht, decide_eq_true ⟨hn, hdrives⟩⟩
  have hports : 0 < b.bTerms.countP fun t => decide (t.net = some n ∧ t.ioType = .input) :=
    List.countP_pos_iff.mpr ⟨p, hp, decide_eq_true ⟨hpn, hio⟩⟩
  unfold numDrivers at hone
  omega

/-- The analysis keeps the edges between instances. -/
theorem mem_sources {i : ℕ} (hi : i < b.insts.length) :
    u ∈ (b.netlist .output .input).sources i ↔
      u < b.insts.length ∧ u ∈ b.generated.sources i := by
  constructor
  · intro hu
    obtain ⟨t, ht, hinst, hin, n, hn, hstart⟩ := (mem_sources_inst hi).mp hu
    obtain ⟨o, ho, hdrives, hon, rfl⟩ := h.start_inst hstart
    exact ⟨inst_lt ho, (mem_sources_inst hi).mpr ⟨t, ht, hinst, hin, n, hn,
      mem_starts.mpr (Or.inl ⟨o, ho, hdrives, hon, rfl⟩)⟩⟩
  · rintro ⟨hlt, hu⟩
    obtain ⟨t, ht, hinst, hin, n, hn, hstart⟩ := (mem_sources_inst hi).mp hu
    rcases mem_starts.mp hstart with hpin | ⟨p, hp, -⟩
    · exact (mem_sources_inst hi).mpr ⟨t, ht, hinst, hin, n, hn, mem_starts.mpr (Or.inl hpin)⟩
    · exact absurd (mem_bTermNodes.mp hp).1 (Nat.not_le.mpr hlt)

/-- Neither version gives a block terminal another order than 0. -/
theorem order_bTerm {order ref : NodeId → ℤ}
    (horder : (b.netlist .output .input).topologicalSort = some order)
    (href : b.generated.topologicalSort = some ref) {t : DbBTerm}
    (ht : (t, u) ∈ b.bTermNodes) : order u = 0 ∧ ref u = 0 := by
  have htype := nodeType_bTerm ht
  by_cases hin : t.ioType = .input
  · rw [hin] at htype
    exact ⟨netlist_traversable.order_root horder (Or.inr (Or.inl htype)),
      netlist_traversable.order_root href (Or.inr (Or.inl htype))⟩
  · refine ⟨netlist_traversable.order_root horder (Or.inr (Or.inr ?_)),
      netlist_traversable.order_root href (Or.inr (Or.inr ?_))⟩ <;>
    refine List.eq_nil_iff_forall_not_mem.mpr fun w hw => ?_
    · exact hin ((mem_sources_bTerm ht).mp hw).1
    · obtain ⟨hio, n, hn, -⟩ := (mem_sources_bTerm ht).mp hw
      obtain ⟨hmem, hsig⟩ := signal_of_node ht
      rw [h.outputs t hmem hsig hio] at hn
      cases hn

theorem not_blocked (htimed : b.Timed) (v : NodeId) :
    ¬ Walks.Blocked (b.netlist .output .input).CutEdge v := by
  refine (htimed.acyclic.mono fun u w hcut => ?_).not_blocked v
  have hu : u ∈ (b.netlist .output .input).sources w :=
    netlist_traversable.mirrored.mem_iff.mp hcut.1
  obtain ⟨n, -, hload⟩ := DbBlock.mem_sources.mp hu
  refine ⟨?_, fun hseq => hcut.2 (Or.inl hseq)⟩
  rcases mem_loads.mp hload with ⟨t, ht, -, -, rfl⟩ | ⟨t, ht, -, hio⟩
  · exact mem_links.mpr (DbBlock.mem_sources.mp ((h.mem_sources (inst_lt ht)).mp hu).2)
  · -- An input terminal starts paths, so no edge into it counts.
    have htype := nodeType_bTerm ht
    rw [hio] at htype
    exact absurd (Or.inr htype) hcut.2

theorem order_inst (htimed : b.Timed) {order ref : NodeId → ℤ}
    (horder : (b.netlist .output .input).topologicalSort = some order)
    (href : b.generated.topologicalSort = some ref) (k : ℕ) :
    ∀ i < b.insts.length, ref i = k → order i = ref i := by
  induction k using Nat.strongRecOn with
  | ind k ih =>
      intro i hi hk
      have hlt : i < b.numNodes := Nat.lt_of_lt_of_le hi (Nat.le_add_right _ _)
      have hdepths := htimed.depths href
      by_cases hseq : b.nodeType i = .sequential
      · rw [hdepths.root i hlt (Or.inl hseq)]
        exact netlist_traversable.order_root horder (Or.inl hseq)
      have hin : b.nodeType i ≠ .primaryIn := by
        rcases nodeType_inst hi with htype | htype <;> simp [htype]
      by_cases hnil : b.generated.sources i = []
      · rw [hdepths.undriven i hlt hnil]
        apply netlist_traversable.order_root horder
        right
        right
        apply List.eq_nil_iff_forall_not_mem.mpr
        intro w hw
        have hmem := ((h.mem_sources hi).mp hw).2
        rw [hnil] at hmem
        cases hmem
      obtain ⟨⟨m, hm, hmax⟩, hall⟩ := hdepths.above i hlt hseq hin hnil
      -- The orders below are the same, by induction.
      have hsame : ∀ u ∈ (b.netlist .output .input).sources i, order u = ref u := by
        intro u hu
        obtain ⟨hulen, humem⟩ := (h.mem_sources hi).mp hu
        have hle := hall u humem
        have hpos := htimed.order_nonneg href (sources_lt humem)
        obtain ⟨j, hj⟩ := Int.eq_ofNat_of_zero_le hpos
        refine ih j ?_ u hulen hj
        rw [hk, hj] at hle
        exact_mod_cast hle
      -- An input terminal that is deepest is no deeper than some instance.
      have hdeepest : ∃ u ∈ (b.netlist .output .input).sources i, ref i = ref u + 1 := by
        by_cases hmlen : m < b.insts.length
        · exact ⟨m, (h.mem_sources hi).mpr ⟨hmlen, hm⟩, hmax⟩
        · have hmport : b.insts.length ≤ m := Nat.not_lt.mp hmlen
          obtain ⟨t, ht⟩ := exists_bTerm hmport (sources_lt hm)
          obtain ⟨u, hulen, humem⟩ := (fedByInst_iff hi).mp
            (h.inputs i hi hseq ((fedByPort_iff hi).mpr ⟨m, hmport, hm⟩))
          have hle := hall u humem
          have hpos := htimed.order_nonneg href (sources_lt humem)
          rw [hmax, (h.order_bTerm horder href ht).2] at hle ⊢
          exact ⟨u, (h.mem_sources hi).mpr ⟨hulen, humem⟩, by linarith⟩
      obtain ⟨u, hu, huref⟩ := hdeepest
      obtain ⟨⟨w, hw, hword⟩, hle⟩ := netlist_traversable.order_sources horder hlt
        (h.not_blocked htimed i) hseq hin (List.ne_nil_of_mem hu)
      have hge := hle u hu
      have hup := hall w ((h.mem_sources hi).mp hw).2
      rw [hsame u hu] at hge
      rw [hsame w hw] at hword
      linarith

theorem order_eq (htimed : b.Timed) {order ref : NodeId → ℤ}
    (horder : (b.netlist .output .input).topologicalSort = some order)
    (href : b.generated.topologicalSort = some ref) (hv : v < b.numNodes) : order v = ref v := by
  by_cases hi : v < b.insts.length
  · obtain ⟨k, hk⟩ := Int.eq_ofNat_of_zero_le (htimed.order_nonneg href hv)
    exact h.order_inst htimed horder href k v hi hk
  · obtain ⟨t, ht⟩ := exists_bTerm (Nat.not_lt.mp hi) hv
    obtain ⟨hzero, hrefzero⟩ := h.order_bTerm horder href ht
    rw [hzero, hrefzero]

end PortsHidden

theorem Depths.congr {order ref : NodeId → ℤ} (h : b.Depths ref)
    (heq : ∀ v < b.numNodes, order v = ref v) : b.Depths order where
  root v hv htype := (heq v hv).trans (h.root v hv htype)
  undriven v hv hnil := (heq v hv).trans (h.undriven v hv hnil)
  above v hv hseq hin hsources := by
    obtain ⟨⟨u, hu, hmax⟩, hall⟩ := h.above v hv hseq hin hsources
    refine ⟨⟨u, hu, ?_⟩, fun w hw => ?_⟩
    · rw [heq v hv, heq u (sources_lt hu)]
      exact hmax
    · rw [heq v hv, heq w (sources_lt hw)]
      exact hall w hw

end DbBlock

/-- The extractor measures the depth of the design exactly when no block
terminal makes a difference to it. -/
theorem DbBlock.analyzeTopologicalOrder_iff (b : DbBlock) (h : b.Timed) :
    (∃ order ref avg, b.topoOrder = some order ∧ b.Depths order ∧
      b.generated.topologicalSort = some ref ∧ (∀ v < b.numNodes, order v = ref v) ∧
      b.analyzeTopologicalOrder = some avg ∧ b.generated.getAvgTopologicalOrder = some avg) ↔
    b.PortsHidden := by
  constructor
  · rintro ⟨order, ref, -, horder, hdepths, href, heq, -⟩
    obtain ⟨hstrays, hsort⟩ := topoOrder_eq horder
    have hnonneg : ∀ v < b.numNodes, 0 ≤ order v := fun v hv => by
      rw [heq v hv]
      exact h.order_nonneg href hv
    have houtputs : ∀ t ∈ b.bTerms, t.sigType = .signal → t.ioType = .output → t.net = none :=
      fun _ => h.outputs_hidden hsort hdepths hnonneg hstrays
    exact ⟨houtputs, fun _ => inputs_hidden hsort hdepths hnonneg houtputs⟩
  · intro hhidden
    obtain ⟨ref, href⟩ : ∃ ref, b.generated.topologicalSort = some ref :=
      ⟨_, netlist_topologicalSort⟩
    obtain ⟨order, hsort⟩ : ∃ order, (b.netlist .output .input).topologicalSort = some order :=
      ⟨_, netlist_topologicalSort⟩
    have horder : b.topoOrder = some order := by
      rw [← hsort, netlist_topologicalSort]
      simp [topoOrder, hhidden.not_strays h]
    have heq : ∀ v < b.numNodes, order v = ref v := fun v => hhidden.order_eq h hsort href
    have havg : b.analyzeTopologicalOrder =
        some (((List.range b.numNodes).map fun v => (order v : ℚ)).sum / b.numNodes) := by
      unfold analyzeTopologicalOrder
      rw [horder]
      rfl
    refine ⟨order, ref, _, horder, (h.depths href).congr heq, href, heq, havg, ?_⟩
    · unfold Netlist.getAvgTopologicalOrder
      rw [href, Option.map_some]
      have hsum : (List.range b.numNodes).map (fun v => (order v : ℚ)) =
          (List.range b.numNodes).map fun v => (ref v : ℚ) :=
        List.map_congr_left fun v hv => by rw [heq v (List.mem_range.mp hv)]
      rw [hsum]
      rfl

/-! A buffer between an input and an output. -/

def bufferCell : DbMaster where
  name := "BUF"
  mTerms := [⟨"A", .signal, .input⟩, ⟨"Z", .signal, .output⟩]
  nodup := DbMaster.nodup_inOut

def buffered : DbBlock where
  insts := [{
    name := "u1", master := bufferCell, x := 0, y := 0
    net := fun term => some (if term.name = "A" then 0 else 1) }]
  bTerms := [⟨"in", .signal, .input, some 0⟩, ⟨"out", .signal, .output, some 1⟩]
  coreLL := (0, 0)
  coreUR := (10, 10)
  isSequential _ := false
  iTermOrder _ := ⟨id, .refl⟩
  bTermOrder _ := ⟨id, .refl⟩

theorem buffered_timed : buffered.Timed where
  driven n hn := by
    have hcases : n = 0 ∨ n = 1 := by
      simpa [DbBlock.SignalNet, DbBlock.iTerms, buffered, bufferCell, DbInst.getITerms,
        eq_comm] using hn
    rcases hcases with rfl | rfl
    · rfl
    · rfl
  acyclic := by
    apply Walks.acyclic_of_rank (fun v : NodeId => if v = 1 then 0 else if v = 0 then 1 else 2)
    intro u v huv
    have hlinks : buffered.links .input .output = [(0, 2), (1, 0)] := rfl
    have hmem := huv.1
    rw [hlinks] at hmem
    simp only [List.mem_cons, Prod.mk.injEq, List.not_mem_nil, or_false] at hmem
    rcases hmem with ⟨rfl, rfl⟩ | ⟨rfl, rfl⟩
    · decide
    · decide

theorem DbBlock.analyzeTopologicalOrder_buffered :
    (∃ order ref avg, buffered.topoOrder = some order ∧ buffered.Depths order ∧
      buffered.generated.topologicalSort = some ref ∧
      (∀ v < buffered.numNodes, order v = ref v) ∧
      buffered.analyzeTopologicalOrder = some avg ∧
      buffered.generated.getAvgTopologicalOrder = some avg) ↔ buffered.PortsHidden :=
  DbBlock.analyzeTopologicalOrder_iff buffered buffered_timed

/-- Buffer and output are both one deeper than the extractor finds them. -/
theorem buffered_lost :
    buffered.Timed ∧
    buffered.topoOrder.map (fun order => [order 0, order 1, order 2]) = some [0, 0, 0] ∧
    buffered.generated.topologicalSort.map (fun order => [order 0, order 1, order 2]) =
      some [1, 0, 2] :=
  ⟨buffered_timed, by decide, by decide⟩

end Artnetgen
