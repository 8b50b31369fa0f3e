import ArtNetGen.DistMatching
import ArtNetGen.Placement

/-!
One edge added by `Netlist::connect`. Between the nodes that `getMaxGain` may
return the edge is always accepted, and every invariant of the netlist under
construction survives it.
-/

namespace Artnetgen

namespace Netlist

/-- What `getMaxGain` guarantees of the pair it returns. -/
structure Joinable (addr : NodeId ↪ ℕ) (nl : Netlist) (src snk : NodeId) : Prop where
  srcMem : src < nl.size
  snkMem : snk < nl.size
  srcType : nl.type src ≠ .primaryOut
  snkType : nl.type snk ≠ .primaryIn
  fanout : (nl.numFanouts src : ℤ) < nl.foDist.xMax
  fanin : (nl.numFanins snk : ℤ) < nl.fiDist.xMax
  right : nl.x src ≤ nl.x snk
  up : nl.y src ≤ nl.y snk
  port : nl.type snk = .primaryOut → nl.sources snk = []
  order : nl.type snk ≠ .primaryOut → nl.binOf src = nl.binOf snk → addr src < addr snk
  new : nl.type snk ≠ .primaryOut → snk ∉ nl.sinks src

/-- The netlists differ in the classes their bins file the nodes under. -/
structure Rebinned (nl nl' : Netlist) : Prop where
  tables : SameTables nl nl'
  node : nl'.node = nl.node
  coords : ∀ b, (nl'.bin b).x = (nl.bin b).x ∧ (nl'.bin b).y = (nl.bin b).y
  nodes : ∀ b, (nl'.bin b).nodes = (nl.bin b).nodes
  ports : nl'.primIns = nl.primIns ∧ nl'.primOuts = nl.primOuts

theorem Rebinned.trans {nl nl' nl'' : Netlist} (h : Rebinned nl nl')
    (h' : Rebinned nl' nl'') : Rebinned nl nl'' where
  tables := h.tables.trans h'.tables
  node := h'.node.trans h.node
  coords b := ⟨(h'.coords b).1.trans (h.coords b).1, (h'.coords b).2.trans (h.coords b).2⟩
  nodes b := (h'.nodes b).trans (h.nodes b)
  ports := ⟨h'.ports.1.trans h.ports.1, h'.ports.2.trans h.ports.2⟩

/-- A part of the nodes is read off the same way in both netlists. -/
theorem field_congr {β : Type} {nl nl' : Netlist} (h : nl'.node = nl.node) (field : Node → β) :
    (fun v => field (nl'.node v)) = fun v => field (nl.node v) := by
  rw [h]

theorem SameTables.numBins {nl nl' : Netlist} (h : SameTables nl nl') :
    nl'.numBins = nl.numBins := by
  rw [Netlist.numBins, h.layoutDimX, h.layoutDimY, Netlist.numBins]

theorem Rebinned.placed {nl nl' : Netlist} (h : Rebinned nl nl') (hp : nl.Placed) :
    nl'.Placed := by
  have hbinOf : nl'.binOf = nl.binOf := field_congr h.node Node.bin
  refine ⟨fun b hb => ?_, ?_, fun b hb => ?_⟩
  · rw [(h.coords b).1, (h.coords b).2, h.tables.layoutDimX]
    exact hp.coords b (h.tables.numBins ▸ hb)
  · rw [h.tables.size, hbinOf, h.tables.numBins]
    exact hp.inGrid
  · rw [h.nodes, h.tables.size, hbinOf]
    exact hp.members b (h.tables.numBins ▸ hb)

theorem update_rebinned {nl nl' : Netlist} {b : BinId} {v : NodeId}
    (h : nl.update b v = some nl') : Rebinned nl nl' := by
  simp only [update, Option.bind_eq_bind, Option.bind_eq_some_iff, Option.pure_def,
    Option.some.injEq] at h
  obtain ⟨fi, -, fo, -, rfl⟩ := h
  refine ⟨⟨rfl, rfl, rfl, rfl, rfl, rfl, rfl⟩, rfl, fun c => ?_, fun c => ?_, ⟨rfl, rfl⟩⟩ <;>
  by_cases hc : c = b <;> simp [hc]

/-- Updating the bin of a node brings its two keys up to date. -/
theorem update_spec {nl : Netlist} {fi fo : NodeId → ℕ} {v : NodeId} (hp : nl.Placed)
    (hi : nl.IndexedBy fi fo) (hv : v < nl.size)
    (hfi : nl.numFanins v < (nl.fiDist.xMax + 1).toNat)
    (hfo : nl.numFanouts v < (nl.foDist.xMax + 1).toNat) :
    ∃ nl', nl.update (nl.binOf v) v = some nl' ∧ Rebinned nl nl' ∧
      nl'.IndexedBy (Function.update fi v (nl.numFanins v))
        (Function.update fo v (nl.numFanouts v)) := by
  have hb := hp.inGrid v hv
  have hmem : v ∈ (nl.bin (nl.binOf v)).nodes := ((hp.members _ hb).2 v).mpr ⟨hv, rfl⟩
  have honly : ∀ b < nl.numBins, v ∈ (nl.bin b).nodes → b = nl.binOf v := fun b hb hin =>
    (((hp.members b hb).2 v).mp hin).2.symm
  obtain ⟨fi', hfi', hfiled⟩ := hi.fi.move hb hmem honly hfi
  obtain ⟨fo', hfo', hfiled'⟩ := hi.fo.move hb hmem honly hfo
  unfold numFanins at hfi'
  unfold numFanouts at hfo'
  let bin : BinId → Bin := Function.update nl.bin (nl.binOf v)
    { nl.bin (nl.binOf v) with fi := fi', fo := fo' }
  have hupdate : nl.update (nl.binOf v) v = some { nl with bin } := by
    simp [update, hfi', hfo', bin]
  refine ⟨{ nl with bin }, hupdate, update_rebinned hupdate,
    hfiled _ (fun b => ?_) fun b => ?_, hfiled' _ (fun b => ?_) fun b => ?_⟩ <;>
  by_cases hbv : b = nl.binOf v <;> simp [bin, hbv]

/-! ## The edge itself -/

/-- The insertion in the middle of `connect`, on both ends. -/
def addEdge (nl : Netlist) (src snk : NodeId) : Netlist :=
  (nl.addSink src snk).addSource snk src

@[simp] theorem addEdge_graph (nl : Netlist) (src snk : NodeId) :
    (nl.addEdge src snk).graph = (nl.graph.addSink src snk).addSource snk src := by
  unfold addEdge
  rw [addSource_graph, addSink_graph]

@[simp] theorem addEdge_type (nl : Netlist) (src snk : NodeId) :
    (nl.addEdge src snk).type = nl.type := by
  unfold addEdge
  rw [addSource_type, addSink_type]

@[simp] theorem addEdge_binOf (nl : Netlist) (src snk : NodeId) :
    (nl.addEdge src snk).binOf = nl.binOf := by
  unfold addEdge
  rw [addSource_binOf, addSink_binOf]

theorem addEdge_sinks (nl : Netlist) (src snk w : NodeId) :
    (nl.addEdge src snk).sinks w = if w = src then nl.sinks w ++ [snk] else nl.sinks w := by
  have h := congrFun (congrArg Adjacency.sinks (nl.addEdge_graph src snk)) w
  rw [Adjacency.addSource_sinks, Adjacency.addSink_sinks] at h
  exact h

theorem addEdge_sources (nl : Netlist) (src snk w : NodeId) :
    (nl.addEdge src snk).sources w =
      if w = snk then nl.sources w ++ [src] else nl.sources w := by
  have h := congrFun (congrArg Adjacency.sources (nl.addEdge_graph src snk)) w
  rw [Adjacency.addSource_sources, Adjacency.addSink_sources] at h
  exact h

theorem addEdge_numFanins (nl : Netlist) (src snk : NodeId) :
    (nl.addEdge src snk).numFanins =
      Function.update nl.numFanins snk (nl.numFanins snk + 1) := by
  funext w
  have h := congrArg List.length (nl.addEdge_sources src snk w)
  by_cases hw : w = snk
  · subst hw
    rw [if_pos rfl, List.length_append] at h
    simpa using h
  · rw [if_neg hw] at h
    simpa [hw] using h

theorem addEdge_numFanouts (nl : Netlist) (src snk : NodeId) :
    (nl.addEdge src snk).numFanouts =
      Function.update nl.numFanouts src (nl.numFanouts src + 1) := by
  funext w
  have h := congrArg List.length (nl.addEdge_sinks src snk w)
  by_cases hw : w = src
  · subst hw
    rw [if_pos rfl, List.length_append] at h
    simpa using h
  · rw [if_neg hw] at h
    simpa [hw] using h

theorem addEdge_box (nl : Netlist) (src snk w : NodeId) :
    let n := nl.node w
    let n' := (nl.addEdge src snk).node w
    n'.lx = (if w = src then min (nl.x snk) n.lx else n.lx) ∧
      n'.ly = (if w = src then min (nl.y snk) n.ly else n.ly) ∧
      n'.ux = (if w = src then max (nl.x snk) n.ux else n.ux) ∧
      n'.uy = if w = src then max (nl.y snk) n.uy else n.uy := by
  have hkept : ∀ field : Node → ℕ,
      (∀ n : Node, field { n with sources := n.sources ++ [src] } = field n) →
        field ((nl.addEdge src snk).node w) = field ((nl.addSink src snk).node w) :=
    fun field h => congrFun ((nl.addSink src snk).modify_kept field snk _ h) w
  dsimp only
  rw [hkept Node.lx fun _ => rfl, hkept Node.ly fun _ => rfl, hkept Node.ux fun _ => rfl,
    hkept Node.uy fun _ => rfl, addSink, modify_node]
  by_cases hw : w = src <;> simp [hw]

theorem addEdge_netBins (nl : Netlist) (src snk w : NodeId) :
    (nl.addEdge src snk).netBins w =
      if w = src then insert (nl.binOf snk) (nl.netBins w) else nl.netBins w := by
  simp only [netBins, addEdge_binOf, addEdge_sinks]
  by_cases hw : w = src
  · simp only [if_pos hw]
    ext b
    simp only [List.mem_append, List.mem_singleton, Set.mem_insert_iff, Set.mem_ofPred_eq]
    constructor
    · rintro (h | ⟨u, hu | rfl, rfl⟩)
      · exact Or.inr (Or.inl h)
      · exact Or.inr (Or.inr ⟨u, hu, rfl⟩)
      · exact Or.inl rfl
    · rintro (rfl | h | ⟨u, hu, rfl⟩)
      · exact Or.inr ⟨snk, Or.inr rfl, rfl⟩
      · exact Or.inl h
      · exact Or.inr ⟨u, Or.inl hu, rfl⟩
  · simp only [if_neg hw]

/-- Growing the box of the driver keeps every box a bounding box. -/
theorem addEdge_boxed {nl : Netlist} {w : NodeId} (h : nl.BoxedAt w) (src snk : NodeId) :
    (nl.addEdge src snk).BoxedAt w := by
  obtain ⟨hlx, hly, hux, huy⟩ := nl.addEdge_box src snk w
  have hbins := nl.addEdge_netBins src snk w
  by_cases hw : w = src
  · simp only [if_pos hw] at hlx hly hux huy hbins
    refine ⟨?_, ?_, ?_, ?_⟩ <;> rw [hbins, Set.image_insert_eq]
    · exact hlx ▸ h.lx.insert (nl.x snk)
    · exact hly ▸ h.ly.insert (nl.y snk)
    · exact hux ▸ h.ux.insert (nl.x snk)
    · exact huy ▸ h.uy.insert (nl.y snk)
  · simp only [if_neg hw] at hlx hly hux huy hbins
    refine ⟨?_, ?_, ?_, ?_⟩ <;> rw [hbins]
    · exact hlx ▸ h.lx
    · exact hly ▸ h.ly
    · exact hux ▸ h.ux
    · exact huy ▸ h.uy

theorem addEdge_bboxSize (nl : Netlist) (src snk : NodeId) :
    (nl.addEdge src snk).bboxSize =
      Function.update nl.bboxSize src ((nl.addEdge src snk).bboxSize src) := by
  funext w
  by_cases hw : w = src
  · subst hw
    simp
  · obtain ⟨hlx, hly, hux, huy⟩ := nl.addEdge_box src snk w
    simp only [if_neg hw] at hlx hly hux huy
    simp only [bboxSize, Node.bboxSize, hlx, hly, hux, huy, Function.update_of_ne hw]

/-- A box lies in the grid. -/
theorem BoxedAt.inGrid {nl : Netlist} {v : NodeId} (h : nl.BoxedAt v) (hp : nl.Placed)
    (hv : v < nl.size) (hsinks : ∀ w ∈ nl.sinks v, w < nl.size) :
    (nl.node v).ux < nl.layoutDimX ∧ (nl.node v).uy < nl.layoutDimY := by
  have hgrid : ∀ b ∈ nl.netBins v, b < nl.numBins := by
    rintro b (rfl | ⟨w, hw, rfl⟩)
    · exact hp.inGrid v hv
    · exact hp.inGrid w (hsinks w hw)
  obtain ⟨b, hb, hux⟩ := h.ux.1
  obtain ⟨c, hc, huy⟩ := h.uy.1
  exact ⟨hux ▸ hp.x_lt (hgrid b hb), huy ▸ hp.y_lt (hgrid c hc)⟩

/-! ## What connecting preserves -/

/-- The graph that `distMatching` builds: simple, with legal ports, running to
the right and upwards, ordered by address inside a bin, and within the largest
fan-in and fan-out. Vertices beyond the nodes are isolated. -/
structure Wired (addr : NodeId ↪ ℕ) (nl : Netlist) : Prop where
  simple : nl.graph.Simple
  fresh : ∀ v, nl.size ≤ v → nl.graph.Fresh v
  primaryIn : ∀ v, nl.type v = .primaryIn → nl.sources v = []
  primaryOut : ∀ v, nl.type v = .primaryOut → nl.sinks v = [] ∧ nl.numFanins v ≤ 1
  monotone : ∀ u, ∀ v ∈ nl.sinks u, nl.x u ≤ nl.x v ∧ nl.y u ≤ nl.y v
  order : ∀ u, ∀ v ∈ nl.sinks u, nl.type v ≠ .primaryOut → nl.binOf u = nl.binOf v →
    addr u < addr v
  fanin : ∀ v < nl.size, (nl.numFanins v : ℤ) ≤ nl.fiDist.xMax
  fanout : ∀ v < nl.size, (nl.numFanouts v : ℤ) ≤ nl.foDist.xMax

theorem Wired.sinks_lt {addr : NodeId ↪ ℕ} {nl : Netlist} (h : Wired addr nl) {u v : NodeId}
    (hv : v ∈ nl.sinks u) : v < nl.size := by
  by_contra hge
  have hsource : u ∈ nl.graph.sources v := h.simple.mirrored.mem_iff.mp hv
  rw [(h.fresh v (Nat.le_of_not_lt hge)).1] at hsource
  cases hsource

/-- The netlist after `connect`, up to the classes and counts. -/
structure Connected (nl nl' : Netlist) (src snk : NodeId) : Prop where
  node : nl'.node = (nl.addEdge src snk).node
  size : nl'.size = nl.size
  layoutDimX : nl'.layoutDimX = nl.layoutDimX
  layoutDimY : nl'.layoutDimY = nl.layoutDimY
  coords : ∀ b, (nl'.bin b).x = (nl.bin b).x ∧ (nl'.bin b).y = (nl.bin b).y
  fiDist : nl.fiDist.SameTargets nl'.fiDist
  foDist : nl.foDist.SameTargets nl'.foDist
  bboxDist : nl.bboxDist.SameTargets nl'.bboxDist
  edgeDist : nl.edgeDist.SameTargets nl'.edgeDist
  ports : nl'.primIns = nl.primIns ∧ nl'.primOuts = nl.primOuts

/-- What the tables need of a new edge. -/
structure Linkable (nl : Netlist) (src snk : NodeId) : Prop where
  srcMem : src < nl.size
  snkMem : snk < nl.size
  fanout : (nl.numFanouts src : ℤ) < nl.foDist.xMax
  fanin : (nl.numFanins snk : ℤ) < nl.fiDist.xMax
  ne : src ≠ snk

theorem Joinable.ne {addr : NodeId ↪ ℕ} {nl : Netlist} {src snk : NodeId}
    (h : Joinable addr nl src snk) : src ≠ snk := by
  rintro rfl
  exact (h.order h.srcType rfl).false

theorem Joinable.linkable {addr : NodeId ↪ ℕ} {nl : Netlist} {src snk : NodeId}
    (h : Joinable addr nl src snk) : nl.Linkable src snk :=
  ⟨h.srcMem, h.snkMem, h.fanout, h.fanin, h.ne⟩

/-- Counting an item into another entry of its table is defined, and the table
then tallies the changed values. -/
theorem tally_isDefined {d : Distribution} {items : List NodeId} {key : NodeId → ℕ}
    (h : d.Tallies items key) (hitems : items.Nodup) {v : NodeId} {b : ℕ} (hv : v ∈ items)
    (hb : b < d.info.length) :
    ∃ d1 d2, d.decr (key v) = some d1 ∧ d1.incr b = some d2 ∧ d.SameTargets d2 ∧
      d2.Tallies items (Function.update key v b) := by
  obtain ⟨d1, hd1⟩ := Distribution.addCount_isDefined (h.inRange v hv) (-1)
  have hsame1 := (Distribution.addCount_spec hd1).1
  obtain ⟨d2, hd2⟩ := Distribution.addCount_isDefined (hsame1.length ▸ hb) 1
  exact ⟨d1, d2, hd1, hd2, hsame1.trans (Distribution.addCount_spec hd2).1,
    h.move hitems hv hb hd1 hd2⟩

theorem addEdge_placed {nl : Netlist} (h : nl.Placed) (src snk : NodeId) :
    (nl.addEdge src snk).Placed := by
  refine ⟨h.coords, ?_, ?_⟩ <;> rw [addEdge_binOf]
  · exact h.inGrid
  · exact h.members

theorem addEdge_bboxSize_lt {addr : NodeId ↪ ℕ} {nl : Netlist} {src snk : NodeId}
    (hc : nl.Consistent) (hw : Wired addr nl) (hl : nl.Linkable src snk) :
    (nl.addEdge src snk).bboxSize src < nl.layoutDimX + nl.layoutDimY := by
  have hsinks : ∀ w ∈ (nl.addEdge src snk).sinks src, w < nl.size := by
    intro w hmem
    rw [addEdge_sinks, if_pos rfl, List.mem_append, List.mem_singleton] at hmem
    rcases hmem with hmem | rfl
    · exact hw.sinks_lt hmem
    · exact hl.snkMem
  have hbox := addEdge_boxed (hc.boxed src hl.srcMem) src snk
  obtain ⟨hux, huy⟩ := hbox.inGrid (addEdge_placed hc.placed src snk) hl.srcMem hsinks
  change _ < nl.layoutDimX at hux
  change _ < nl.layoutDimY at huy
  unfold bboxSize
  rw [Node.bboxSize]
  omega

/-- The Manhattan distance between the bins of two nodes. -/
def edgeLen (nl : Netlist) (src snk : NodeId) : ℕ :=
  ((nl.x src : ℤ) - nl.x snk).natAbs + ((nl.y src : ℤ) - nl.y snk).natAbs

theorem edgeLen_lt {nl : Netlist} (hp : nl.Placed) {src snk : NodeId} (hsrc : src < nl.size)
    (hsnk : snk < nl.size) : nl.edgeLen src snk < nl.layoutDimX + nl.layoutDimY := by
  have hsx : nl.x src < nl.layoutDimX := hp.x_lt (hp.inGrid src hsrc)
  have hsy : nl.y src < nl.layoutDimY := hp.y_lt (hp.inGrid src hsrc)
  have htx : nl.x snk < nl.layoutDimX := hp.x_lt (hp.inGrid snk hsnk)
  have hty : nl.y snk < nl.layoutDimY := hp.y_lt (hp.inGrid snk hsnk)
  unfold edgeLen
  omega

/-- The netlist after `countEdge`. -/
structure Counted (nl nl' : Netlist) (src snk : NodeId) : Prop where
  node : nl'.node = (nl.addEdge src snk).node
  bin : nl'.bin = nl.bin
  size : nl'.size = nl.size
  layoutDimX : nl'.layoutDimX = nl.layoutDimX
  layoutDimY : nl'.layoutDimY = nl.layoutDimY
  fiDist : nl.fiDist.SameTargets nl'.fiDist
  foDist : nl.foDist.SameTargets nl'.foDist
  bboxDist : nl.bboxDist.SameTargets nl'.bboxDist
  edgeDist : nl.edgeDist.SameTargets nl'.edgeDist
  fi : nl'.fiDist.Tallies nl.nodes (nl.addEdge src snk).numFanins
  fo : nl'.foDist.Tallies nl.nodes (nl.addEdge src snk).numFanouts
  bbox : nl'.bboxDist.Tallies nl.nodes (nl.addEdge src snk).bboxSize
  ports : nl'.primIns = nl.primIns ∧ nl'.primOuts = nl.primOuts

/-- The histograms follow an edge between nodes that may be joined. -/
theorem countEdge_isDefined {addr : NodeId ↪ ℕ} {nl : Netlist} {src snk : NodeId}
    (hc : nl.Consistent) (hw : Wired addr nl) (hl : nl.Linkable src snk) :
    ∃ nl', nl.countEdge src snk = some nl' ∧ Counted nl nl' src snk := by
  have hsrc : src ∈ nl.nodes := List.mem_range.mpr hl.srcMem
  have hsnk : snk ∈ nl.nodes := List.mem_range.mpr hl.snkMem
  have hnodup : nl.nodes.Nodup := List.nodup_range
  have hfanin := hl.fanin
  have hfanout := hl.fanout
  have hfi : (nl.addEdge src snk).numFanins snk < nl.fiDist.info.length := by
    rw [addEdge_numFanins, Function.update_self, hc.tallied.fiLength]
    omega
  have hfo : (nl.addEdge src snk).numFanouts src < nl.foDist.info.length := by
    rw [addEdge_numFanouts, Function.update_self, hc.tallied.foLength]
    omega
  have hbbox : (nl.addEdge src snk).bboxSize src < nl.bboxDist.info.length := by
    rw [hc.tallied.bboxLength]
    exact (addEdge_bboxSize_lt hc hw hl).trans (Nat.lt_succ_self _)
  have hedge : nl.edgeLen src snk < nl.edgeDist.info.length := by
    rw [hc.tallied.edgeLength]
    exact (edgeLen_lt hc.placed hl.srcMem hl.snkMem).trans (Nat.lt_succ_self _)
  obtain ⟨fi1, fi2, hfi1, hfi2, hfiSame, hfiTally⟩ :=
    tally_isDefined hc.tallied.fi hnodup hsnk hfi
  obtain ⟨fo1, fo2, hfo1, hfo2, hfoSame, hfoTally⟩ :=
    tally_isDefined hc.tallied.fo hnodup hsrc hfo
  obtain ⟨bbox1, bbox2, hbbox1, hbbox2, hbboxSame, hbboxTally⟩ :=
    tally_isDefined hc.tallied.bbox hnodup hsrc hbbox
  obtain ⟨edge2, hedge2⟩ := Distribution.addCount_isDefined hedge 1
  refine ⟨{ nl.addEdge src snk with
    fiDist := fi2, foDist := fo2, bboxDist := bbox2, edgeDist := edge2 }, ?_,
    ⟨rfl, rfl, rfl, rfl, rfl, hfiSame, hfoSame, hbboxSame,
      (Distribution.addCount_spec hedge2).1, ?_, ?_, ?_, ⟨rfl, rfl⟩⟩⟩
  · simp only [numFanins, numFanouts, bboxSize, addEdge] at hfi1 hfi2 hfo1 hfo2 hbbox1 hbbox2
    have hedge2' : ((nl.addSink src snk).addSource snk src).edgeDist.incr
        (((nl.x src : ℤ) - nl.x snk).natAbs + ((nl.y src : ℤ) - nl.y snk).natAbs) =
          some edge2 := hedge2
    simp [countEdge, addEdge, hfi1, hfi2, hfo1, hfo2, hbbox1, hbbox2, hedge2']
  · rw [addEdge_numFanins] at hfiTally ⊢
    simpa using hfiTally
  · rw [addEdge_numFanouts] at hfoTally ⊢
    simpa using hfoTally
  · rw [addEdge_bboxSize]
    exact hbboxTally

/-- The classes are still those from before the edge. -/
theorem Counted.indexed {nl nl' : Netlist} {src snk : NodeId} (h : Counted nl nl' src snk)
    (hi : nl.Indexed) : nl'.IndexedBy nl.numFanins nl.numFanouts := by
  have hnum : nl'.numBins = nl.numBins := by
    rw [numBins, h.layoutDimX, h.layoutDimY, numBins]
  refine ⟨?_, ?_⟩
  · rw [hnum, h.bin, h.fiDist.xMax]
    exact hi.fi
  · rw [hnum, h.bin, h.foDist.xMax]
    exact hi.fo

theorem Counted.placed {nl nl' : Netlist} {src snk : NodeId} (h : Counted nl nl' src snk)
    (hp : nl.Placed) : nl'.Placed := by
  have hplaced := addEdge_placed hp src snk
  have hnum : nl'.numBins = nl.numBins := by
    rw [numBins, h.layoutDimX, h.layoutDimY, numBins]
  have hbinOf : nl'.binOf = (nl.addEdge src snk).binOf := field_congr h.node Node.bin
  refine ⟨?_, ?_, ?_⟩
  · rw [hnum, h.bin, h.layoutDimX]
    exact hplaced.coords
  · rw [h.size, hbinOf, hnum]
    exact hplaced.inGrid
  · rw [hnum, h.bin, h.size, hbinOf]
    exact hplaced.members

/-- The new fan-ins and fan-outs have classes to be filed under. -/
theorem Counted.inRange {nl nl' : Netlist} {src snk : NodeId} (h : Counted nl nl' src snk)
    (ht : nl.Tallied) {v : NodeId} (hv : v < nl.size) :
    (nl.addEdge src snk).numFanins v < (nl'.fiDist.xMax + 1).toNat ∧
      (nl.addEdge src snk).numFanouts v < (nl'.foDist.xMax + 1).toNat := by
  have hfi := h.fi.inRange v (List.mem_range.mpr hv)
  have hfo := h.fo.inRange v (List.mem_range.mpr hv)
  rw [h.fiDist.length, ht.fiLength, ← h.fiDist.xMax] at hfi
  rw [h.foDist.length, ht.foLength, ← h.foDist.xMax] at hfo
  exact ⟨hfi, hfo⟩

/-- Updating the two ends one after the other brings all keys up to date. -/
theorem update_addEdge_keys (nl : Netlist) {src snk : NodeId} (hne : src ≠ snk) :
    Function.update (Function.update nl.numFanins src ((nl.addEdge src snk).numFanins src)) snk
        ((nl.addEdge src snk).numFanins snk) = (nl.addEdge src snk).numFanins ∧
      Function.update (Function.update nl.numFanouts src ((nl.addEdge src snk).numFanouts src))
        snk ((nl.addEdge src snk).numFanouts snk) = (nl.addEdge src snk).numFanouts := by
  rw [addEdge_numFanins, addEdge_numFanouts]
  constructor <;> funext w <;> by_cases hw : w = snk <;> by_cases hw' : w = src <;>
    simp [hw, hw', hne, hne.symm]

theorem Counted.tallied {nl nl2 nl' : Netlist} {src snk : NodeId} (h : Counted nl nl2 src snk)
    (hbins : Rebinned nl2 nl') (ht : nl.Tallied) : nl'.Tallied := by
  have hnode := hbins.node.trans h.node
  have hnodes : nl'.nodes = nl.nodes := congrArg List.range (hbins.tables.size.trans h.size)
  have hfi : nl'.numFanins = (nl.addEdge src snk).numFanins := field_congr hnode Node.numFanins
  have hfo : nl'.numFanouts = (nl.addEdge src snk).numFanouts :=
    field_congr hnode Node.numFanouts
  have hbbox : nl'.bboxSize = (nl.addEdge src snk).bboxSize := field_congr hnode Node.bboxSize
  have hdims : nl'.layoutDimX + nl'.layoutDimY + 1 = nl.layoutDimX + nl.layoutDimY + 1 := by
    rw [hbins.tables.layoutDimX, hbins.tables.layoutDimY, h.layoutDimX, h.layoutDimY]
  refine ⟨?_, ?_, ?_, ?_, ?_, ?_, ?_⟩
  · rw [hbins.tables.fiDist, hnodes, hfi]
    exact h.fi
  · rw [hbins.tables.foDist, hnodes, hfo]
    exact h.fo
  · rw [hbins.tables.bboxDist, hnodes, hbbox]
    exact h.bbox
  · rw [hbins.tables.fiDist, h.fiDist.length, h.fiDist.xMax, ht.fiLength]
  · rw [hbins.tables.foDist, h.foDist.length, h.foDist.xMax, ht.foLength]
  · rw [hbins.tables.bboxDist, h.bboxDist.length, hdims, ht.bboxLength]
  · rw [hbins.tables.edgeDist, h.edgeDist.length, hdims, ht.edgeLength]

theorem Connected.boxedAt {nl nl' : Netlist} {src snk v : NodeId}
    (h : Connected nl nl' src snk) (hbox : nl.BoxedAt v) : nl'.BoxedAt v := by
  have hedge := addEdge_boxed hbox src snk
  have hbins : nl'.netBins v = (nl.addEdge src snk).netBins v := by
    have hbinOf : nl'.binOf = (nl.addEdge src snk).binOf := field_congr h.node Node.bin
    have hsinks : nl'.sinks = (nl.addEdge src snk).sinks := field_congr h.node Node.sinks
    simp only [netBins, hbinOf, hsinks]
  have hx : (fun b => (nl'.bin b).x) = fun b => (nl.bin b).x := funext fun b => (h.coords b).1
  have hy : (fun b => (nl'.bin b).y) = fun b => (nl.bin b).y := funext fun b => (h.coords b).2
  refine ⟨?_, ?_, ?_, ?_⟩ <;> rw [hbins, h.node]
  · exact hx ▸ hedge.lx
  · exact hy ▸ hedge.ly
  · exact hx ▸ hedge.ux
  · exact hy ▸ hedge.uy

/-- `connect` accepts every pair that may be joined and keeps the netlist
consistent. -/
theorem connect_isDefined {addr : NodeId ↪ ℕ} {nl : Netlist} {src snk : NodeId}
    (hc : nl.Consistent) (hw : Wired addr nl) (hl : nl.Linkable src snk) :
    ∃ nl', nl.connect src snk = some nl' ∧ Connected nl nl' src snk ∧ nl'.Consistent := by
  obtain ⟨nl2, hnl2, hcount⟩ := countEdge_isDefined hc hw hl
  have hplaced2 := hcount.placed hc.placed
  have hfanins2 : nl2.numFanins = (nl.addEdge src snk).numFanins :=
    field_congr hcount.node Node.numFanins
  have hfanouts2 : nl2.numFanouts = (nl.addEdge src snk).numFanouts :=
    field_congr hcount.node Node.numFanouts
  have hsrc := hcount.inRange hc.tallied hl.srcMem
  have hsnk := hcount.inRange hc.tallied hl.snkMem
  obtain ⟨nl3, hnl3, hbins3, hindexed3⟩ := update_spec hplaced2 (hcount.indexed hc.indexed)
    (hcount.size ▸ hl.srcMem) (hfanins2 ▸ hsrc.1) (hfanouts2 ▸ hsrc.2)
  have hplaced3 := hbins3.placed hplaced2
  have hfanins3 : nl3.numFanins = (nl.addEdge src snk).numFanins :=
    (field_congr hbins3.node Node.numFanins).trans hfanins2
  have hfanouts3 : nl3.numFanouts = (nl.addEdge src snk).numFanouts :=
    (field_congr hbins3.node Node.numFanouts).trans hfanouts2
  obtain ⟨nl4, hnl4, hbins4, hindexed4⟩ := update_spec hplaced3 hindexed3
    (hbins3.tables.size ▸ hcount.size ▸ hl.snkMem)
    (hfanins3 ▸ hbins3.tables.fiDist ▸ hsnk.1) (hfanouts3 ▸ hbins3.tables.foDist ▸ hsnk.2)
  have hbins := hbins3.trans hbins4
  have hnode : nl4.node = (nl.addEdge src snk).node := hbins.node.trans hcount.node
  have hcoords : ∀ b, (nl4.bin b).x = (nl.bin b).x ∧ (nl4.bin b).y = (nl.bin b).y := by
    intro b
    rw [(hbins.coords b).1, (hbins.coords b).2, hcount.bin]
    exact ⟨rfl, rfl⟩
  have hconnected : Connected nl nl4 src snk := by
    refine ⟨hnode, hbins.tables.size.trans hcount.size,
      hbins.tables.layoutDimX.trans hcount.layoutDimX,
      hbins.tables.layoutDimY.trans hcount.layoutDimY, hcoords, ?_, ?_, ?_, ?_,
      ⟨hbins.ports.1.trans hcount.ports.1, hbins.ports.2.trans hcount.ports.2⟩⟩
    · exact hbins.tables.fiDist ▸ hcount.fiDist
    · exact hbins.tables.foDist ▸ hcount.foDist
    · exact hbins.tables.bboxDist ▸ hcount.bboxDist
    · exact hbins.tables.edgeDist ▸ hcount.edgeDist
  refine ⟨nl4, ?_, hconnected, hbins4.placed hplaced3, ?_, hcount.tallied hbins hc.tallied,
    fun v hv => hconnected.boxedAt (hc.boxed v (hconnected.size ▸ hv))⟩
  · simp only [connect, hnl2, Option.bind_eq_bind, Option.bind_some, hnl3, hnl4]
  · obtain ⟨hfi, hfo⟩ := update_addEdge_keys nl hl.ne
    rw [hfanins2, hfanouts2, hfanins3, hfanouts3, hfi, hfo] at hindexed4
    have hfanins4 : nl4.numFanins = (nl.addEdge src snk).numFanins :=
      field_congr hnode Node.numFanins
    have hfanouts4 : nl4.numFanouts = (nl.addEdge src snk).numFanouts :=
      field_congr hnode Node.numFanouts
    rwa [Indexed, hfanins4, hfanouts4]

section Wiring

variable {addr : NodeId ↪ ℕ} {nl nl' : Netlist} {src snk : NodeId}

/-- What `connect` does to the four histograms. -/
theorem connect_dists (h : nl.connect src snk = some nl') :
    (∃ fi, nl.fiDist.decr (nl.numFanins snk) = some fi ∧
        fi.incr (nl.numFanins snk + 1) = some nl'.fiDist) ∧
      (∃ fo, nl.foDist.decr (nl.numFanouts src) = some fo ∧
        fo.incr (nl.numFanouts src + 1) = some nl'.foDist) ∧
      (∃ bbox, nl.bboxDist.decr (nl.bboxSize src) = some bbox ∧
        bbox.incr ((nl.addEdge src snk).bboxSize src) = some nl'.bboxDist) ∧
      nl.edgeDist.incr (nl.edgeLen src snk) = some nl'.edgeDist := by
  simp only [connect, countEdge, Option.bind_eq_bind, Option.bind_eq_some_iff, Option.pure_def,
    Option.some.injEq] at h
  obtain ⟨nl1, ⟨fi1, hfi1, fo1, hfo1, bbox1, hbbox1, fi2, hfi2, fo2, hfo2, bbox2, hbbox2, edge2,
    hedge2, rfl⟩, nl2, hnl2, hnl'⟩ := h
  have hbins := (update_rebinned hnl2).trans (update_rebinned hnl')
  refine ⟨⟨fi1, hfi1, ?_⟩, ⟨fo1, hfo1, ?_⟩, ⟨bbox1, hbbox1, ?_⟩, ?_⟩
  · have hfanin : (nl.addEdge src snk).numFanins snk = nl.numFanins snk + 1 := by
      rw [addEdge_numFanins, Function.update_self]
    rw [hbins.tables.fiDist, ← hfanin]
    exact hfi2
  · have hfanout : (nl.addEdge src snk).numFanouts src = nl.numFanouts src + 1 := by
      rw [addEdge_numFanouts, Function.update_self]
    rw [hbins.tables.foDist, ← hfanout]
    exact hfo2
  · rw [hbins.tables.bboxDist]
    exact hbbox2
  · rw [hbins.tables.edgeDist]
    exact hedge2

theorem Connected.graph (h : Connected nl nl' src snk) :
    nl'.graph = (nl.graph.addSink src snk).addSource snk src := by
  rw [← addEdge_graph]
  exact congrArg₂ Adjacency.mk (field_congr h.node Node.sources) (field_congr h.node Node.sinks)

theorem Connected.type (h : Connected nl nl' src snk) : nl'.type = nl.type :=
  (field_congr h.node Node.type).trans (nl.addEdge_type src snk)

theorem Connected.binOf (h : Connected nl nl' src snk) : nl'.binOf = nl.binOf :=
  (field_congr h.node Node.bin).trans (nl.addEdge_binOf src snk)

theorem Connected.x (h : Connected nl nl' src snk) (v : NodeId) : nl'.x v = nl.x v := by
  rw [Netlist.x, h.binOf, (h.coords _).1, Netlist.x]

theorem Connected.y (h : Connected nl nl' src snk) (v : NodeId) : nl'.y v = nl.y v := by
  rw [Netlist.y, h.binOf, (h.coords _).2, Netlist.y]

theorem Connected.sources (h : Connected nl nl' src snk) (v : NodeId) :
    nl'.sources v = if v = snk then nl.sources v ++ [src] else nl.sources v :=
  (congrFun (field_congr h.node Node.sources) v).trans (nl.addEdge_sources src snk v)

theorem Connected.sinks (h : Connected nl nl' src snk) (v : NodeId) :
    nl'.sinks v = if v = src then nl.sinks v ++ [snk] else nl.sinks v :=
  (congrFun (field_congr h.node Node.sinks) v).trans (nl.addEdge_sinks src snk v)

theorem Connected.mem_sinks (h : Connected nl nl' src snk) {u v : NodeId}
    (hv : v ∈ nl'.sinks u) : v ∈ nl.sinks u ∨ u = src ∧ v = snk := by
  rw [h.sinks] at hv
  split at hv
  · next hu => simpa [hu] using hv
  · exact Or.inl hv

/-- The edge is new, whatever kind of sink it has. -/
theorem Joinable.not_mem (hw : Wired addr nl) (hj : Joinable addr nl src snk) :
    snk ∉ nl.sinks src := by
  by_cases htype : nl.type snk = .primaryOut
  · intro hmem
    have hsource : src ∈ nl.sources snk := hw.simple.mirrored.mem_iff.mp hmem
    rw [hj.port htype] at hsource
    cases hsource
  · exact hj.new htype

/-- The step lemma of the graph invariant. -/
theorem Connected.wired (h : Connected nl nl' src snk) (hw : Wired addr nl)
    (hj : Joinable addr nl src snk) : Wired addr nl' where
  simple := by
    rw [h.graph]
    exact hw.simple.connect hj.ne (hj.not_mem hw)
  fresh v hv := by
    rw [h.size] at hv
    have hne : v ≠ src ∧ v ≠ snk := by
      constructor <;> rintro rfl
      · exact absurd hj.srcMem (Nat.not_lt.mpr hv)
      · exact absurd hj.snkMem (Nat.not_lt.mpr hv)
    obtain ⟨hsources, hsinks⟩ := hw.fresh v hv
    exact ⟨(h.sources v).trans ((if_neg hne.2).trans hsources),
      (h.sinks v).trans ((if_neg hne.1).trans hsinks)⟩
  primaryIn v hv := by
    rw [h.type] at hv
    have hne : v ≠ snk := fun heq => hj.snkType (heq ▸ hv)
    rw [h.sources, if_neg hne]
    exact hw.primaryIn v hv
  primaryOut v hv := by
    rw [h.type] at hv
    obtain ⟨hsinks, hfanin⟩ := hw.primaryOut v hv
    have hne : v ≠ src := fun heq => hj.srcType (heq ▸ hv)
    refine ⟨by rw [h.sinks, if_neg hne, hsinks], ?_⟩
    rw [← length_sources, h.sources]
    split
    · next heq => rw [heq, hj.port (heq ▸ hv)]; simp
    · exact hfanin
  monotone u v hv := by
    rw [h.x, h.x, h.y, h.y]
    rcases h.mem_sinks hv with hv | ⟨rfl, rfl⟩
    · exact hw.monotone u v hv
    · exact ⟨hj.right, hj.up⟩
  order u v hv := by
    rw [h.type, h.binOf]
    rcases h.mem_sinks hv with hv | ⟨rfl, rfl⟩
    · exact hw.order u v hv
    · exact hj.order
  fanin v hv := by
    rw [h.size] at hv
    rw [h.fiDist.xMax, ← length_sources, h.sources]
    have hfanin := hj.fanin
    split
    · next heq =>
        rw [heq, List.length_append, length_sources, List.length_singleton]
        omega
    · exact hw.fanin v hv
  fanout v hv := by
    rw [h.size] at hv
    rw [h.foDist.xMax, ← length_sinks, h.sinks]
    have hfanout := hj.fanout
    split
    · next heq =>
        rw [heq, List.length_append, length_sinks, List.length_singleton]
        omega
    · exact hw.fanout v hv

end Wiring

end Netlist

end Artnetgen
