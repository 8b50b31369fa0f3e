import ArtNetGen.Initialize
import ArtNetGen.Library.Names
import Mathlib.Order.Bounds.Basic

/-!
Where the nodes lie and how they are counted. The invariants say that the bins
partition the nodes over the grid, that the inverted indices and the histograms
describe the graph, and that the boxes bound the nets. They hold of the netlist
that `initialize` builds, and `setPrimaryIO` does not touch what they are about.
-/

namespace Artnetgen

namespace Netlist

/-- The grid is in row order, and each bin lists exactly the nodes that point
to it. -/
structure Placed (nl : Netlist) : Prop where
  coords : ∀ b < nl.numBins,
    (nl.bin b).x = b % nl.layoutDimX ∧ (nl.bin b).y = b / nl.layoutDimX
  inGrid : ∀ v < nl.size, nl.binOf v < nl.numBins
  members : ∀ b < nl.numBins, (nl.bin b).nodes.Nodup ∧
    ∀ v, v ∈ (nl.bin b).nodes ↔ v < nl.size ∧ nl.binOf v = b

/-- One index of the bins, `table`, files the nodes of every bin under the
class `key` gives them. -/
def FiledBy (numBins : ℕ) (bin : BinId → Bin) (table : Bin → ClassTable NodeId) (max : ℤ)
    (key : NodeId → ℕ) : Prop :=
  ∀ b < numBins, (table (bin b)).Files (bin b).nodes ∧
    (table (bin b)).slots.length = (max + 1).toNat ∧
    ∀ v ∈ (bin b).nodes, (table (bin b)).recorded v = key v

/-- Both indices. Between the insertion of an edge and the updates of the bins
the keys lag behind the graph. -/
structure IndexedBy (nl : Netlist) (fi fo : NodeId → ℕ) : Prop where
  fi : FiledBy nl.numBins nl.bin Bin.fi nl.fiDist.xMax fi
  fo : FiledBy nl.numBins nl.bin Bin.fo nl.foDist.xMax fo

def numFanins (nl : Netlist) (v : NodeId) : ℕ := (nl.node v).numFanins

def numFanouts (nl : Netlist) (v : NodeId) : ℕ := (nl.node v).numFanouts

@[simp] theorem length_sources (nl : Netlist) (v : NodeId) :
    (nl.sources v).length = nl.numFanins v := rfl

@[simp] theorem length_sinks (nl : Netlist) (v : NodeId) :
    (nl.sinks v).length = nl.numFanouts v := rfl

def bboxSize (nl : Netlist) (v : NodeId) : ℕ := (nl.node v).bboxSize

def Indexed (nl : Netlist) : Prop := nl.IndexedBy nl.numFanins nl.numFanouts

/-- The three histograms count the nodes, and their tables span the values a
node can have. -/
structure Tallied (nl : Netlist) : Prop where
  fi : nl.fiDist.Tallies nl.nodes nl.numFanins
  fo : nl.foDist.Tallies nl.nodes nl.numFanouts
  bbox : nl.bboxDist.Tallies nl.nodes nl.bboxSize
  fiLength : nl.fiDist.info.length = (nl.fiDist.xMax + 1).toNat
  foLength : nl.foDist.info.length = (nl.foDist.xMax + 1).toNat
  bboxLength : nl.bboxDist.info.length = nl.layoutDimX + nl.layoutDimY + 1
  edgeLength : nl.edgeDist.info.length = nl.layoutDimX + nl.layoutDimY + 1

/-- The bins a net touches: the driver's and those of its sinks. -/
def netBins (nl : Netlist) (v : NodeId) : Set BinId :=
  insert (nl.binOf v) {b | ∃ w ∈ nl.sinks v, nl.binOf w = b}

/-- A node's box is the bounding box of its net. -/
structure BoxedAt (nl : Netlist) (v : NodeId) : Prop where
  lx : IsLeast ((fun b => (nl.bin b).x) '' nl.netBins v) (nl.node v).lx
  ly : IsLeast ((fun b => (nl.bin b).y) '' nl.netBins v) (nl.node v).ly
  ux : IsGreatest ((fun b => (nl.bin b).x) '' nl.netBins v) (nl.node v).ux
  uy : IsGreatest ((fun b => (nl.bin b).y) '' nl.netBins v) (nl.node v).uy

/-- What construction maintains about places and counts. -/
structure Consistent (nl : Netlist) : Prop where
  placed : nl.Placed
  indexed : nl.Indexed
  tallied : nl.Tallied
  boxed : ∀ v < nl.size, nl.BoxedAt v

/-! ## Bins of the grid -/

theorem Placed.x_lt {nl : Netlist} (h : nl.Placed) {b : BinId} (hb : b < nl.numBins) :
    (nl.bin b).x < nl.layoutDimX := by
  rw [(h.coords b hb).1]
  refine Nat.mod_lt _ (Nat.pos_of_ne_zero fun hzero => ?_)
  simp [numBins, hzero] at hb

theorem Placed.y_lt {nl : Netlist} (h : nl.Placed) {b : BinId} (hb : b < nl.numBins) :
    (nl.bin b).y < nl.layoutDimY := by
  rw [(h.coords b hb).2]
  exact Nat.div_lt_of_lt_mul hb

/-- A bin is its coordinates. -/
theorem Placed.index {nl : Netlist} (h : nl.Placed) {b : BinId} (hb : b < nl.numBins) :
    (nl.bin b).x + (nl.bin b).y * nl.layoutDimX = b := by
  rw [(h.coords b hb).1, (h.coords b hb).2, Nat.mul_comm]
  exact Nat.mod_add_div b nl.layoutDimX

theorem Placed.bin_injective {nl : Netlist} (h : nl.Placed) {b b' : BinId}
    (hb : b < nl.numBins) (hb' : b' < nl.numBins) (hx : (nl.bin b).x = (nl.bin b').x)
    (hy : (nl.bin b).y = (nl.bin b').y) : b = b' := by
  rw [← h.index hb, ← h.index hb', hx, hy]

/-- Coordinates on the grid belong to a bin, and `getBin` finds it. -/
theorem Placed.getBin {nl : Netlist} (h : nl.Placed) {x y : ℕ} (hx : x < nl.layoutDimX)
    (hy : y < nl.layoutDimY) :
    nl.getBin x y = some (x + y * nl.layoutDimX) ∧ x + y * nl.layoutDimX < nl.numBins ∧
      (nl.bin (x + y * nl.layoutDimX)).x = x ∧ (nl.bin (x + y * nl.layoutDimX)).y = y := by
  have hb : x + y * nl.layoutDimX < nl.numBins := by
    calc x + y * nl.layoutDimX < nl.layoutDimX + y * nl.layoutDimX := by omega
      _ = (y + 1) * nl.layoutDimX := by ring
      _ ≤ nl.layoutDimY * nl.layoutDimX := Nat.mul_le_mul_right _ hy
      _ = nl.numBins := Nat.mul_comm _ _
  obtain ⟨hcx, hcy⟩ := h.coords _ hb
  rw [Nat.add_mul_mod_self_right, Nat.mod_eq_of_lt hx] at hcx
  rw [Nat.add_mul_div_right _ _ (by omega), Nat.div_eq_of_lt hx, Nat.zero_add] at hcy
  exact ⟨by simp [Netlist.getBin, hb, hcx, hcy], hb, hcx, hcy⟩

theorem getBin_eq_some {nl : Netlist} {x y : ℕ} {b : BinId} (h : nl.getBin x y = some b) :
    b < nl.numBins ∧ (nl.bin b).x = x ∧ (nl.bin b).y = y := by
  simp only [Netlist.getBin] at h
  split at h
  · next hin =>
      simp only [Option.some.injEq] at h
      exact h ▸ hin
  · cases h

/-! ## The indices of the bins -/

section Filed

variable {numBins : ℕ} {bin bin' : BinId → Bin} {table : Bin → ClassTable NodeId} {max : ℤ}
  {key : NodeId → ℕ} {b : BinId} {v : NodeId} {t : ClassTable NodeId}

/-- A newcomer is filed in bin `b`. -/
theorem FiledBy.insert (h : FiledBy numBins bin table max key) (hnew : v ∉ (bin b).nodes)
    (ht : (table (bin b)).insert v (key v) = some t)
    (htable : ∀ c, table (bin' c) = if c = b then t else table (bin c))
    (hnodes : ∀ c, (bin' c).nodes = if c = b then (bin b).nodes ++ [v] else (bin c).nodes) :
    FiledBy numBins bin' table max key := by
  intro c hc
  obtain ⟨hfiles, hlen, hrec⟩ := h c hc
  rw [htable, hnodes]
  by_cases hcb : c = b
  · subst hcb
    obtain ⟨hfiles', hrec', hlen'⟩ := hfiles.insert hnew ht
    simp only [if_true]
    refine ⟨hfiles', hlen'.trans hlen, fun w hw => ?_⟩
    by_cases hwv : w = v
    · simp [hrec', hwv]
    · simpa [hrec', hwv] using hrec w (by simpa [hwv] using hw)
  · simp only [if_neg hcb]
    exact ⟨hfiles, hlen, hrec⟩

/-- A node of bin `b`, and of no other, is refiled under class `k`. -/
theorem FiledBy.move (h : FiledBy numBins bin table max key) (hb : b < numBins)
    (hv : v ∈ (bin b).nodes) (honly : ∀ c < numBins, v ∈ (bin c).nodes → c = b) {k : ℕ}
    (hk : k < (max + 1).toNat) :
    ∃ t, (table (bin b)).move v k = some t ∧
      ∀ bin' : BinId → Bin, (∀ c, table (bin' c) = if c = b then t else table (bin c)) →
        (∀ c, (bin' c).nodes = (bin c).nodes) →
          FiledBy numBins bin' table max (Function.update key v k) := by
  obtain ⟨hfiles, hlen, hrec⟩ := h b hb
  obtain ⟨t, ht, hfiles', hrec', hlen'⟩ := hfiles.move hv (hlen ▸ hk)
  refine ⟨t, ht, fun bin' htable hnodes c hc => ?_⟩
  rw [htable, hnodes]
  by_cases hcb : c = b
  · subst hcb
    simp only [if_true]
    refine ⟨hfiles', hlen'.trans hlen, fun w hw => ?_⟩
    by_cases hwv : w = v
    · simp [hrec', hwv]
    · simpa [hrec', hwv] using hrec w hw
  · simp only [if_neg hcb]
    obtain ⟨hfilesc, hlenc, hrecc⟩ := h c hc
    refine ⟨hfilesc, hlenc, fun w hw => ?_⟩
    have hwv : w ≠ v := fun heq => hcb (honly c hc (heq ▸ hw))
    rw [Function.update_of_ne hwv]
    exact hrecc w hw

/-- The class lists of a bin. -/
theorem FiledBy.slot (h : FiledBy numBins bin table max key) (hb : b < numBins) {k : ℕ}
    (hk : k < (max + 1).toNat) : ∃ slot, (table (bin b)).slots[k]? = some slot ∧ slot.Nodup ∧
      ∀ v, v ∈ slot ↔ v ∈ (bin b).nodes ∧ key v = k := by
  obtain ⟨hfiles, hlen, hrec⟩ := h b hb
  have hk' : k < (table (bin b)).slots.length := hlen ▸ hk
  obtain ⟨hnodup, hmem⟩ := hfiles.slot k _ (List.getElem?_eq_getElem hk')
  refine ⟨_, List.getElem?_eq_getElem hk', hnodup, fun v => (hmem v).trans ?_⟩
  exact and_congr_right fun hv => by rw [hrec v hv]

end Filed

/-! ## Initialization -/

/-- The state of `initialize` once the nodes of `placed` have their bins. -/
structure PartlyPlaced (nl : Netlist) (placed : List NodeId) : Prop where
  coords : ∀ b < nl.numBins,
    (nl.bin b).x = b % nl.layoutDimX ∧ (nl.bin b).y = b / nl.layoutDimX
  inGrid : ∀ v ∈ placed, nl.binOf v < nl.numBins
  members : ∀ b < nl.numBins, (nl.bin b).nodes.Nodup ∧
    ∀ v, v ∈ (nl.bin b).nodes ↔ v ∈ placed ∧ nl.binOf v = b
  indexed : nl.IndexedBy (fun _ => 0) (fun _ => 0)
  unconnected : ∀ v, nl.sources v = [] ∧ nl.sinks v = []
  combinational : ∀ v, nl.type v = .combinational
  boxed : ∀ v ∈ placed, (nl.node v).lx = nl.x v ∧ (nl.node v).ly = nl.y v ∧
    (nl.node v).ux = nl.x v ∧ (nl.node v).uy = nl.y v
  plain : ∀ v, (nl.node v).Plain
  noPorts : nl.primIns = [] ∧ nl.primOuts = []

/-- The grid, the number of nodes and the histograms are the same. -/
structure SameTables (nl nl' : Netlist) : Prop where
  size : nl'.size = nl.size
  layoutDimX : nl'.layoutDimX = nl.layoutDimX
  layoutDimY : nl'.layoutDimY = nl.layoutDimY
  fiDist : nl'.fiDist = nl.fiDist
  foDist : nl'.foDist = nl.foDist
  bboxDist : nl'.bboxDist = nl.bboxDist
  edgeDist : nl'.edgeDist = nl.edgeDist

theorem SameTables.refl (nl : Netlist) : SameTables nl nl := ⟨rfl, rfl, rfl, rfl, rfl, rfl, rfl⟩

theorem SameTables.trans {nl nl' nl'' : Netlist} (h : SameTables nl nl')
    (h' : SameTables nl' nl'') : SameTables nl nl'' where
  size := h'.size.trans h.size
  layoutDimX := h'.layoutDimX.trans h.layoutDimX
  layoutDimY := h'.layoutDimY.trans h.layoutDimY
  fiDist := h'.fiDist.trans h.fiDist
  foDist := h'.foDist.trans h.foDist
  bboxDist := h'.bboxDist.trans h.bboxDist
  edgeDist := h'.edgeDist.trans h.edgeDist

theorem placeNode_eq_some {nl nl' : Netlist} {b : BinId} {v : NodeId}
    (h : nl.placeNode b v = some nl') :
    ∃ fi fo, (nl.bin b).fi.insert v (nl.numFanins v) = some fi ∧
      (nl.bin b).fo.insert v (nl.numFanouts v) = some fo ∧
      nl' = { nl with
        node := Function.update nl.node v
          ({ nl.node v with
            type := .combinational, name := "c" ++ toString v, bin := b }.setBbox
              (nl.bin b).x (nl.bin b).y (nl.bin b).x (nl.bin b).y)
        bin := Function.update nl.bin b
          { nl.bin b with nodes := (nl.bin b).nodes ++ [v], fi, fo } } := by
  simp only [placeNode, addNode, Option.bind_eq_bind, Option.bind_eq_some_iff, Option.pure_def,
    Option.some.injEq] at h
  obtain ⟨fi, hfi, fo, hfo, rfl⟩ := h
  refine ⟨fi, fo, ?_, ?_, ?_⟩
  · simpa [setName, setType, modify_node, Node.numFanins, numFanins] using hfi
  · simpa [setName, setType, modify_node, Node.numFanouts, numFanouts] using hfo
  · simp [setBin, setName, setType, modify, Node.setBbox]

theorem placeNode_sameTables {nl nl' : Netlist} {b : BinId} {v : NodeId}
    (h : nl.placeNode b v = some nl') : SameTables nl nl' := by
  obtain ⟨fi, fo, -, -, rfl⟩ := placeNode_eq_some h
  exact ⟨rfl, rfl, rfl, rfl, rfl, rfl, rfl⟩

theorem placeBlocks_sameTables {nl nl' : Netlist} {bs : List BinId}
    {avgNodeCnt initCellCnt : ℕ}
    (h : bs.foldlM (placeBlock avgNodeCnt initCellCnt) nl = some nl') : SameTables nl nl' := by
  apply Loop.invariant (SameTables nl) _ (.refl nl) h
  intro i _ mid mid' hsame hblock
  simp only [placeBlock, Option.bind_eq_bind, Option.bind_eq_some_iff] at hblock
  obtain ⟨b, -, hnodes⟩ := hblock
  exact Loop.invariant (SameTables nl)
    (fun _ _ _ _ hsame hplace => hsame.trans (placeNode_sameTables hplace)) hsame hnodes

/-- One node finds its bin. -/
theorem PartlyPlaced.placeNode {nl nl' : Netlist} {placed : List NodeId} {b : BinId}
    {v : NodeId} (h : nl.PartlyPlaced placed) (hb : b < nl.numBins) (hv : v ∉ placed)
    (hplace : nl.placeNode b v = some nl') :
    nl'.PartlyPlaced (placed ++ [v]) := by
  obtain ⟨fi, fo, hfi, hfo, rfl⟩ := placeNode_eq_some hplace
  have hfi0 : nl.numFanins v = 0 := List.length_eq_zero_iff.mpr (h.unconnected v).1
  have hfo0 : nl.numFanouts v = 0 := List.length_eq_zero_iff.mpr (h.unconnected v).2
  rw [hfi0] at hfi
  rw [hfo0] at hfo
  have hnew : v ∉ (nl.bin b).nodes := fun hmem => hv (((h.members b hb).2 v).mp hmem).1
  have hx : ∀ c, (Function.update nl.bin b
      { nl.bin b with nodes := (nl.bin b).nodes ++ [v], fi, fo } c).x = (nl.bin c).x := by
    intro c
    by_cases hc : c = b <;> simp [hc]
  have hy : ∀ c, (Function.update nl.bin b
      { nl.bin b with nodes := (nl.bin b).nodes ++ [v], fi, fo } c).y = (nl.bin c).y := by
    intro c
    by_cases hc : c = b <;> simp [hc]
  refine ⟨?coords, ?inGrid, ?members, ⟨?fi, ?fo⟩, ?unconnected, ?combinational, ?boxed, ?plain,
    h.noPorts⟩
  case coords =>
    intro c hc
    simp only [hx, hy]
    exact h.coords c hc
  case inGrid =>
    intro w hw
    by_cases hwv : w = v
    · subst hwv
      simpa [binOf, Node.setBbox, numBins] using hb
    · have hwp : w ∈ placed := by simpa [hwv] using hw
      simpa [binOf, hwv, numBins] using h.inGrid w hwp
  case members =>
    intro c hc
    obtain ⟨hnodup, hmem⟩ := h.members c hc
    by_cases hcb : c = b
    · subst hcb
      refine ⟨by simpa using hnodup.append (List.nodup_singleton v) (by simpa using hnew),
        fun w => ?_⟩
      by_cases hwv : w = v <;> simp [binOf, Node.setBbox, hwv, hmem]
    · refine ⟨by simpa [hcb] using hnodup, fun w => ?_⟩
      by_cases hwv : w = v
      · subst hwv
        simp [binOf, Node.setBbox, hcb, hmem, hv, Ne.symm hcb]
      · simp [binOf, hwv, hcb, hmem]
  case fi =>
    refine h.indexed.fi.insert hnew hfi (fun c => ?_) (fun c => ?_) <;>
      by_cases hcb : c = b <;> simp [hcb]
  case fo =>
    refine h.indexed.fo.insert hnew hfo (fun c => ?_) (fun c => ?_) <;>
      by_cases hcb : c = b <;> simp [hcb]
  case unconnected =>
    intro w
    by_cases hwv : w = v <;> simpa [sources, sinks, Node.setBbox, hwv] using h.unconnected w
  case combinational =>
    intro w
    by_cases hwv : w = v
    · simp [type, Node.setBbox, hwv]
    · simpa [type, hwv] using h.combinational w
  case boxed =>
    intro w hw
    simp only [x, y, binOf, hx, hy]
    by_cases hwv : w = v
    · simp [Node.setBbox, hwv]
    · simpa [hwv, x, y, binOf] using h.boxed w (by simpa [hwv] using hw)
  case plain =>
    intro w
    dsimp only
    by_cases hwv : w = v
    · subst hwv
      rw [Function.update_self]
      exact (h.plain w).rename rfl (Names.append_ne_left (c := 'c') (d := 'P') rfl rfl (by decide) _)
    · rw [Function.update_of_ne hwv]
      exact h.plain w

/-- A list of nodes finds one bin. -/
theorem PartlyPlaced.placeNodes {nl nl' : Netlist} {placed l : List NodeId} {b : BinId}
    (h : nl.PartlyPlaced placed) (hb : b < nl.numBins) (hl : (placed ++ l).Nodup)
    (hplace : l.foldlM (fun nl j => nl.placeNode b j) nl = some nl') :
    nl'.PartlyPlaced (placed ++ l) := by
  induction l generalizing nl placed with
  | nil =>
      obtain rfl : nl = nl' := by simpa using hplace
      simpa using h
  | cons v rest ih =>
      obtain ⟨mid, hmid, hrest⟩ := Loop.foldlM_cons_eq_some.mp hplace
      have hv : v ∉ placed := fun hmem =>
        (List.disjoint_of_nodup_append hl) hmem List.mem_cons_self
      have hpart := h.placeNode hb hv hmid
      have hsame := placeNode_sameTables hmid
      have hb' : b < mid.numBins := by
        rwa [numBins, hsame.layoutDimX, hsame.layoutDimY]
      simpa using ih hpart hb' (by simpa using hl) hrest

/-- The blocks of the first bins are the first nodes. -/
theorem flatMap_blockOf (avgNodeCnt initCellCnt n : ℕ) :
    (List.range n).flatMap (blockOf avgNodeCnt initCellCnt) =
      List.range (min (avgNodeCnt * n) initCellCnt) := by
  induction n with
  | zero => simp
  | succ n ih =>
      have hmono : avgNodeCnt * n ≤ avgNodeCnt * (n + 1) := Nat.mul_le_mul_left _ (by omega)
      rw [List.range_succ, List.flatMap_append, ih, List.flatMap_singleton, blockOf]
      rcases Nat.le_total (avgNodeCnt * n) initCellCnt with hle | hle
      · rw [min_eq_left hle, List.range_eq_range', List.range_eq_range']
        have hsum : avgNodeCnt * n +
            (min (avgNodeCnt * (n + 1)) initCellCnt - avgNodeCnt * n) =
              min (avgNodeCnt * (n + 1)) initCellCnt := by omega
        have happend := List.range'_append_1 (s := 0) (m := avgNodeCnt * n)
          (n := min (avgNodeCnt * (n + 1)) initCellCnt - avgNodeCnt * n)
        rwa [Nat.zero_add, hsum] at happend
      · rw [min_eq_right hle, min_eq_right (hle.trans hmono), Nat.sub_eq_zero_of_le hle]
        simp

theorem PartlyPlaced.placeBlocks {nl nl' : Netlist} {placed : List NodeId} {bs : List BinId}
    {avgNodeCnt initCellCnt : ℕ} (h : nl.PartlyPlaced placed)
    (hl : (placed ++ bs.flatMap (blockOf avgNodeCnt initCellCnt)).Nodup)
    (hplace : bs.foldlM (placeBlock avgNodeCnt initCellCnt) nl = some nl') :
    nl'.PartlyPlaced (placed ++ bs.flatMap (blockOf avgNodeCnt initCellCnt)) := by
  induction bs generalizing nl placed with
  | nil =>
      obtain rfl : nl = nl' := by simpa using hplace
      simpa using h
  | cons i rest ih =>
      obtain ⟨mid, hmid, hrest⟩ := Loop.foldlM_cons_eq_some.mp hplace
      simp only [placeBlock, Option.bind_eq_bind, Option.bind_eq_some_iff] at hmid
      obtain ⟨b, hb, hmid⟩ := hmid
      rw [List.flatMap_cons, ← List.append_assoc] at hl ⊢
      have hpart := h.placeNodes (getBin_eq_some hb).1
        (hl.sublist (List.sublist_append_left _ _)) hmid
      exact ih hpart hl hrest

theorem growLayout_pos (totalBinCnt fuel : ℕ) {dim : ℕ × ℕ} (h : 0 < dim.1 ∧ 0 < dim.2) :
    0 < (growLayout totalBinCnt fuel dim).1 ∧ 0 < (growLayout totalBinCnt fuel dim).2 := by
  induction fuel generalizing dim with
  | zero => exact h
  | succ fuel ih =>
      simp only [growLayout]
      split
      · split
        · exact ih ⟨h.1, Nat.succ_pos _⟩
        · exact ih ⟨Nat.succ_pos _, h.2⟩
      · exact h

/-- The blocks together hold every node. -/
theorem le_blocks {initCellCnt : ℤ} {binCnt : ℕ} (hpos : 0 < binCnt) :
    initCellCnt.toNat ≤ ⌈(initCellCnt : ℚ) / binCnt⌉.toNat * binCnt := by
  have hbin : (0 : ℚ) < binCnt := by exact_mod_cast hpos
  have hceil : initCellCnt ≤ ⌈(initCellCnt : ℚ) / binCnt⌉ * binCnt := by
    have hle := (div_le_iff₀ hbin).mp (Int.le_ceil ((initCellCnt : ℚ) / binCnt))
    exact_mod_cast hle
  have hmul : ⌈(initCellCnt : ℚ) / binCnt⌉ * binCnt ≤
      (⌈(initCellCnt : ℚ) / binCnt⌉.toNat : ℤ) * binCnt :=
    mul_le_mul_of_nonneg_right (Int.self_le_toNat _) (Int.natCast_nonneg _)
  have hle : initCellCnt ≤ ((⌈(initCellCnt : ℚ) / binCnt⌉.toNat * binCnt : ℕ) : ℤ) := by
    push_cast
    exact hceil.trans hmul
  omega

/-- An isolated node's box is its bin. -/
theorem boxedAt_of_isolated {nl : Netlist} {v : NodeId} (hsinks : nl.sinks v = [])
    (hbox : (nl.node v).lx = nl.x v ∧ (nl.node v).ly = nl.y v ∧
      (nl.node v).ux = nl.x v ∧ (nl.node v).uy = nl.y v) : nl.BoxedAt v := by
  have hbins : nl.netBins v = {nl.binOf v} := by
    simp [netBins, hsinks]
  obtain ⟨hlx, hly, hux, huy⟩ := hbox
  refine ⟨?_, ?_, ?_, ?_⟩ <;> rw [hbins, Set.image_singleton]
  · exact hlx ▸ isLeast_singleton
  · exact hly ▸ isLeast_singleton
  · exact hux ▸ isGreatest_singleton
  · exact huy ▸ isGreatest_singleton

/-- With every node placed and every table fresh, initialization is done. -/
theorem PartlyPlaced.consistent {nl : Netlist} {initCellCnt : ℤ}
    (h : nl.PartlyPlaced nl.nodes) (hsize : nl.size = initCellCnt.toNat)
    (hfi : nl.fiDist.FreshTable nl.fiDist.xMax initCellCnt)
    (hfo : nl.foDist.FreshTable nl.foDist.xMax initCellCnt)
    (hbbox : nl.bboxDist.FreshTable (nl.layoutDimX + nl.layoutDimY) initCellCnt)
    (hedge : nl.edgeDist.info.length = nl.layoutDimX + nl.layoutDimY + 1) :
    nl.Consistent := by
  have hmem : ∀ v, v ∈ nl.nodes ↔ v < nl.size := fun v => List.mem_range
  have hlen : nl.nodes.length = initCellCnt.toNat := by
    unfold nodes
    rw [List.length_range, hsize]
  have hfi0 : ∀ v, nl.numFanins v = 0 := fun v =>
    List.length_eq_zero_iff.mpr (h.unconnected v).1
  have hfo0 : ∀ v, nl.numFanouts v = 0 := fun v =>
    List.length_eq_zero_iff.mpr (h.unconnected v).2
  have hbbox0 : ∀ v ∈ nl.nodes, nl.bboxSize v = 0 := by
    intro v hv
    obtain ⟨hlx, hly, hux, huy⟩ := h.boxed v hv
    unfold bboxSize
    rw [Node.bboxSize, hlx, hly, hux, huy]
    omega
  have hplaced : nl.Placed := by
    refine ⟨h.coords, fun v hv => h.inGrid v ((hmem v).mpr hv), fun b hb => ?_⟩
    simpa only [hmem] using h.members b hb
  have hindexed : nl.Indexed := by
    have hzero : nl.numFanins = (fun _ => 0) ∧ nl.numFanouts = fun _ => 0 :=
      ⟨funext hfi0, funext hfo0⟩
    unfold Indexed
    rw [hzero.1, hzero.2]
    exact h.indexed
  have hbin : ∀ v ∈ nl.nodes, nl.binOf v < nl.numBins ∧ v ∈ (nl.bin (nl.binOf v)).nodes :=
    fun v hv => ⟨h.inGrid v hv, ((h.members _ (h.inGrid v hv)).2 v).mpr ⟨hv, rfl⟩⟩
  refine ⟨hplaced, hindexed, ⟨?_, ?_, ?_, hfi.1, hfo.1, ?_, hedge⟩, ?_⟩
  · refine .of_init hfi.2 hlen (fun v _ => hfi0 v) fun v hv => ?_
    obtain ⟨hfiles, hslots, -⟩ := h.indexed.fi _ (hbin v hv).1
    have hrange := hfiles.inRange v (hbin v hv).2
    rw [hfi.1]
    omega
  · refine .of_init hfo.2 hlen (fun v _ => hfo0 v) fun v hv => ?_
    obtain ⟨hfiles, hslots, -⟩ := h.indexed.fo _ (hbin v hv).1
    have hrange := hfiles.inRange v (hbin v hv).2
    rw [hfo.1]
    omega
  · refine .of_init hbbox.2 hlen hbbox0 fun _ _ => ?_
    rw [hbbox.1]
    omega
  · rw [hbbox.1]
    omega
  · exact fun v hv => boxedAt_of_isolated (h.unconnected v).2 (h.boxed v ((hmem v).mpr hv))

/-- What `initialize` builds: a grid of unconnected nodes in a consistent
netlist. -/
structure Initialized (nl : Netlist) : Prop where
  consistent : nl.Consistent
  unconnected : ∀ v, nl.sources v = [] ∧ nl.sinks v = []
  combinational : ∀ v, nl.type v = .combinational
  posX : 0 < nl.layoutDimX
  posY : 0 < nl.layoutDimY
  edgeMax : nl.edgeDist.xMax = nl.layoutDimX + nl.layoutDimY
  edgeFirst : ∃ t, nl.edgeDist.target 0 = some t ∧ t ≤ nl.edgeDist.totalCnt
  plain : ∀ v, (nl.node v).Plain
  noPorts : nl.primIns = [] ∧ nl.primOuts = []

theorem initializeNetlist_spec {ang : ArtNetGen} {nl : Netlist}
    (h : initializeNetlist ang = some nl) : nl.Initialized := by
  simp only [initializeNetlist] at h
  split at h
  · cases h
  generalize hdim : growLayout (ceilSqrt ang.instanceCnt.toNat)
    (ceilSqrt ang.instanceCnt.toNat) (1, 1) = dim at h
  obtain ⟨hposX, hposY⟩ : 0 < dim.1 ∧ 0 < dim.2 :=
    hdim ▸ growLayout_pos _ _ ⟨Nat.one_pos, Nat.one_pos⟩
  obtain ⟨dimX, dimY⟩ := dim
  generalize truncInt (8 / 10 * (ang.instanceCnt : ℚ) -
    2 / 10 * (1 - ang.combRatio) * (ang.instanceCnt : ℚ)) = initCellCnt at h
  simp only [Option.bind_eq_bind, Option.bind_eq_some_iff] at h
  obtain ⟨fiDist, hfi, foDist, hfo, bboxDist, hbbox, avg, -, edgeDist, hedge, emptyBin, hempty,
    hplace⟩ := h
  obtain ⟨hfiMax, -, hfi⟩ := Distribution.init_spec rfl hfi
  obtain ⟨hfoMax, -, hfo⟩ := Distribution.init_spec rfl hfo
  obtain ⟨-, -, hbbox⟩ := Distribution.init_spec rfl hbbox
  obtain ⟨first, hfirst, hle⟩ := Distribution.init_target_zero rfl (by omega) hedge
  obtain ⟨hedgeMax, hedgeTotal, hedge⟩ := Distribution.init_spec rfl hedge
  simp only [Bin.init] at hempty
  split at hempty
  · cases hempty
  simp only [Option.some.injEq] at hempty
  subst hempty
  have hnodup : ([] ++ (List.range (dimX * dimY)).flatMap (blockOf
      ⌈(initCellCnt : ℚ) / (dimX * dimY : ℕ)⌉.toNat initCellCnt.toNat)).Nodup := by
    rw [List.nil_append, flatMap_blockOf]
    exact List.nodup_range
  have hsame := placeBlocks_sameTables hplace
  have hpart := PartlyPlaced.placeBlocks
    ⟨fun b _ => ⟨rfl, rfl⟩, by simp, fun b _ => by simp,
      ⟨fun b _ => ⟨ClassTable.files_empty _, by simp, by simp⟩,
        fun b _ => ⟨ClassTable.files_empty _, by simp, by simp⟩⟩,
      fun v => ⟨rfl, rfl⟩, fun v => rfl, by simp, fun _ => Node.plain_default, ⟨rfl, rfl⟩⟩
    hnodup hplace
  have hall : [] ++ (List.range (dimX * dimY)).flatMap
      (blockOf ⌈(initCellCnt : ℚ) / (dimX * dimY : ℕ)⌉.toNat initCellCnt.toNat) = nl.nodes := by
    rw [List.nil_append, flatMap_blockOf,
      min_eq_right (le_blocks (Nat.mul_pos hposX hposY)), nodes, hsame.size]
  rw [hall] at hpart
  refine ⟨hpart.consistent hsame.size ?_ ?_ ?_ ?_, hpart.unconnected, hpart.combinational,
    by rwa [hsame.layoutDimX], by rwa [hsame.layoutDimY], ?_, ?_, hpart.plain, hpart.noPorts⟩
  · rw [hsame.fiDist, hfiMax]
    exact hfi
  · rw [hsame.foDist, hfoMax]
    exact hfo
  · rw [hsame.bboxDist, hsame.layoutDimX, hsame.layoutDimY]
    exact hbbox
  · rw [hsame.edgeDist, hsame.layoutDimX, hsame.layoutDimY, hedge.1]
    change ((dimX : ℤ) + dimY + 1).toNat = dimX + dimY + 1
    omega
  · rw [hsame.edgeDist, hsame.layoutDimX, hsame.layoutDimY, hedgeMax]
  · rw [hsame.edgeDist]
    exact ⟨first, hfirst, hedgeTotal.symm ▸ hle⟩

/-! ## Primary inputs and outputs -/

/-- Types, names and the lists of ports aside, the netlists agree. -/
structure SameShape (nl nl' : Netlist) : Prop where
  tables : SameTables nl nl'
  bin : nl'.bin = nl.bin
  graph : nl'.graph = nl.graph
  place : ∀ v, (nl'.node v).bin = (nl.node v).bin
  box : ∀ v, (nl'.node v).lx = (nl.node v).lx ∧ (nl'.node v).ly = (nl.node v).ly ∧
    (nl'.node v).ux = (nl.node v).ux ∧ (nl'.node v).uy = (nl.node v).uy

theorem SameShape.refl (nl : Netlist) : SameShape nl nl :=
  ⟨.refl nl, rfl, rfl, fun _ => rfl, fun _ => ⟨rfl, rfl, rfl, rfl⟩⟩

theorem SameShape.trans {nl nl' nl'' : Netlist} (h : SameShape nl nl')
    (h' : SameShape nl' nl'') : SameShape nl nl'' where
  tables := h.tables.trans h'.tables
  bin := h'.bin.trans h.bin
  graph := h'.graph.trans h.graph
  place v := (h'.place v).trans (h.place v)
  box v := by
    obtain ⟨hlx, hly, hux, huy⟩ := h.box v
    obtain ⟨hlx', hly', hux', huy'⟩ := h'.box v
    exact ⟨hlx'.trans hlx, hly'.trans hly, hux'.trans hux, huy'.trans huy⟩

theorem sameShape_modify (nl : Netlist) (v : NodeId) (f : Node → Node)
    (hsources : ∀ n, (f n).sources = n.sources) (hsinks : ∀ n, (f n).sinks = n.sinks)
    (hplace : ∀ n, (f n).bin = n.bin)
    (hbox : ∀ n, (f n).lx = n.lx ∧ (f n).ly = n.ly ∧ (f n).ux = n.ux ∧ (f n).uy = n.uy) :
    SameShape nl (nl.modify v f) where
  tables := ⟨rfl, rfl, rfl, rfl, rfl, rfl, rfl⟩
  bin := rfl
  graph := nl.modify_graph_kept v f hsources hsinks
  place := congrFun (nl.modify_kept Node.bin v f hplace)
  box w := by
    refine ⟨congrFun (nl.modify_kept Node.lx v f fun n => (hbox n).1) w,
      congrFun (nl.modify_kept Node.ly v f fun n => (hbox n).2.1) w,
      congrFun (nl.modify_kept Node.ux v f fun n => (hbox n).2.2.1) w,
      congrFun (nl.modify_kept Node.uy v f fun n => (hbox n).2.2.2) w⟩

theorem sameShape_setType (nl : Netlist) (v : NodeId) (type : NodeType) :
    SameShape nl (nl.setType v type) :=
  sameShape_modify nl v _ (fun _ => rfl) (fun _ => rfl) (fun _ => rfl)
    fun _ => ⟨rfl, rfl, rfl, rfl⟩

theorem sameShape_setName (nl : Netlist) (v : NodeId) (name : String) :
    SameShape nl (nl.setName v name) :=
  sameShape_modify nl v _ (fun _ => rfl) (fun _ => rfl) (fun _ => rfl)
    fun _ => ⟨rfl, rfl, rfl, rfl⟩

/-- Consistency is about the shape alone. -/
theorem SameShape.consistent {nl nl' : Netlist} (h : SameShape nl nl')
    (hc : nl.Consistent) : nl'.Consistent := by
  have hbinOf : nl'.binOf = nl.binOf := funext h.place
  have hsources : nl'.sources = nl.sources := congrArg Adjacency.sources h.graph
  have hsinks : nl'.sinks = nl.sinks := congrArg Adjacency.sinks h.graph
  have hnum : nl'.numBins = nl.numBins := by
    rw [numBins, h.tables.layoutDimX, h.tables.layoutDimY, numBins]
  have hfanins : nl'.numFanins = nl.numFanins :=
    funext fun v => congrArg List.length (congrFun hsources v)
  have hfanouts : nl'.numFanouts = nl.numFanouts :=
    funext fun v => congrArg List.length (congrFun hsinks v)
  have hbbox : nl'.bboxSize = nl.bboxSize := by
    funext v
    obtain ⟨hlx, hly, hux, huy⟩ := h.box v
    simp only [bboxSize, Node.bboxSize, hlx, hly, hux, huy]
  have hnodes : nl'.nodes = nl.nodes := congrArg List.range h.tables.size
  refine ⟨⟨?_, ?_, ?_⟩, ⟨?_, ?_⟩, ⟨?_, ?_, ?_, ?_, ?_, ?_, ?_⟩, fun v hv => ?_⟩
  · rw [hnum, h.bin, h.tables.layoutDimX]
    exact hc.placed.coords
  · rw [hnum, hbinOf, h.tables.size]
    exact hc.placed.inGrid
  · rw [hnum, h.bin, hbinOf, h.tables.size]
    exact hc.placed.members
  · rw [hnum, h.bin, h.tables.fiDist, hfanins]
    exact hc.indexed.fi
  · rw [hnum, h.bin, h.tables.foDist, hfanouts]
    exact hc.indexed.fo
  · rw [h.tables.fiDist, hnodes, hfanins]
    exact hc.tallied.fi
  · rw [h.tables.foDist, hnodes, hfanouts]
    exact hc.tallied.fo
  · rw [h.tables.bboxDist, hnodes, hbbox]
    exact hc.tallied.bbox
  · rw [h.tables.fiDist]
    exact hc.tallied.fiLength
  · rw [h.tables.foDist]
    exact hc.tallied.foLength
  · rw [h.tables.bboxDist, h.tables.layoutDimX, h.tables.layoutDimY]
    exact hc.tallied.bboxLength
  · rw [h.tables.edgeDist, h.tables.layoutDimX, h.tables.layoutDimY]
    exact hc.tallied.edgeLength
  · obtain ⟨hlx, hly, hux, huy⟩ := h.box v
    have hbox := hc.boxed v (by rwa [← h.tables.size])
    have hbins : nl'.netBins v = nl.netBins v := by
      simp only [netBins, hbinOf, hsinks]
    refine ⟨?_, ?_, ?_, ?_⟩ <;> rw [hbins, h.bin]
    · exact hlx ▸ hbox.lx
    · exact hly ▸ hbox.ly
    · exact hux ▸ hbox.ux
    · exact huy ▸ hbox.uy

/-- The chosen nodes are appended to the list of pins and get the type. -/
def Takes (type : NodeType) (s s' : Netlist × List NodeId) : Prop :=
  SameShape s.1 s'.1 ∧ s'.1.primOuts = s.1.primOuts ∧
    (∀ v, (s'.1.node v).strip = (s.1.node v).strip) ∧ ∃ taken, s'.2 = s.2 ++ taken ∧
      ∀ v, s'.1.type v = if v ∈ taken then type else s.1.type v

theorem Takes.refl (type : NodeType) (s : Netlist × List NodeId) : Takes type s s :=
  ⟨.refl s.1, rfl, fun _ => rfl, [], by simp⟩

theorem Takes.trans {type : NodeType} {s s' s'' : Netlist × List NodeId}
    (h : Takes type s s') (h' : Takes type s' s'') : Takes type s s'' := by
  obtain ⟨hshape, houts, hstrip, taken, hpins, htype⟩ := h
  obtain ⟨hshape', houts', hstrip', taken', hpins', htype'⟩ := h'
  refine ⟨hshape.trans hshape', houts'.trans houts, fun v => (hstrip' v).trans (hstrip v),
    taken ++ taken', by rw [hpins', hpins, List.append_assoc], fun v => ?_⟩
  rw [htype', htype]
  by_cases hv : v ∈ taken' <;> by_cases hv' : v ∈ taken <;> simp [hv, hv']

theorem takeCandidates_takes (type : NodeType) (pinCnt : ℤ) (candidates : List NodeId)
    (s : Netlist × List NodeId) :
    Takes type s (takeCandidates type pinCnt candidates s).1 := by
  induction candidates generalizing s with
  | nil => exact .refl type s
  | cons node rest ih =>
      have hone : Takes type s (s.1.setType node type, s.2 ++ [node]) := by
        refine ⟨sameShape_setType s.1 node type, rfl, setType_strip s.1 node type, [node], rfl,
          fun v => ?_⟩
        rw [setType_type, Function.update_apply]
        simp only [List.mem_singleton]
      simp only [takeCandidates]
      split
      · exact hone
      · exact hone.trans (ih _)

theorem takePins_takes {index : Bin → Option (List NodeId)} {type : NodeType} {pinCnt : ℤ}
    {cells : List (ℕ × ℕ)} {s s' : Netlist × List NodeId}
    (h : takePins index type pinCnt cells s = some s') : Takes type s s' := by
  induction cells generalizing s with
  | nil => cases h
  | cons cell rest ih =>
      simp only [takePins, Option.bind_eq_bind, Option.bind_eq_some_iff] at h
      obtain ⟨b, -, candidates, -, h⟩ := h
      have htakes := takeCandidates_takes type pinCnt candidates s
      split at h
      · next heq =>
          rw [Prod.mk.eta] at heq
          simp only [Option.some.injEq] at h
          rw [heq] at htakes
          exact h ▸ htakes
      · next heq =>
          rw [Prod.mk.eta] at heq
          rw [heq] at htakes
          exact htakes.trans (ih h)

theorem nameAll_shape (stem : String) (pins : List NodeId) (nl : Netlist) :
    SameShape nl (nameAll stem pins nl) ∧ (nameAll stem pins nl).type = nl.type := by
  unfold nameAll
  generalize pins.zipIdx = named
  induction named generalizing nl with
  | nil => exact ⟨.refl nl, rfl⟩
  | cons pin rest ih =>
      obtain ⟨hshape, htype⟩ := ih (nl.setName pin.1 (stem ++ toString pin.2))
      exact ⟨(sameShape_setName nl _ _).trans hshape, htype.trans (setName_type nl _ _)⟩

/-- The shape stays, and a node becomes an input, an output, or neither. -/
theorem setPrimaryIO_spec {ang : ArtNetGen} {nl nl' : Netlist}
    (h : nl.setPrimaryIO ang = some nl') :
    SameShape nl nl' ∧
      ∀ v, nl'.type v = .primaryIn ∨ nl'.type v = .primaryOut ∨ nl'.type v = nl.type v := by
  simp only [ setPrimaryIO, Option.bind_eq_bind, Option.bind_eq_some_iff, Option.pure_def,
    Option.some.injEq] at h
  obtain ⟨⟨nl1, primIns⟩, hins, ⟨nl2, primOuts⟩, houts, rfl⟩ := h
  obtain ⟨hshape1, -, -, taken1, -, htype1⟩ := takePins_takes hins
  obtain ⟨hshape2, -, -, taken2, -, htype2⟩ := takePins_takes houts
  have hports : SameShape nl2 { nl2 with primIns, primOuts } :=
    ⟨⟨rfl, rfl, rfl, rfl, rfl, rfl, rfl⟩, rfl, rfl, fun _ => rfl, fun _ => ⟨rfl, rfl, rfl, rfl⟩⟩
  obtain ⟨hshape3, htype3⟩ := nameAll_shape "in" primIns { nl2 with primIns, primOuts }
  obtain ⟨hshape4, htype4⟩ := nameAll_shape "out" primOuts
    (nameAll "in" primIns { nl2 with primIns, primOuts })
  refine ⟨hshape1.trans (hshape2.trans (hports.trans (hshape3.trans hshape4))), fun v => ?_⟩
  have htype : (nameAll "out" primOuts
      (nameAll "in" primIns { nl2 with primIns, primOuts })).type v = nl2.type v := by
    rw [htype4, htype3]
    rfl
  rw [htype, htype2 v, htype1 v]
  by_cases hv2 : v ∈ taken2
  · exact Or.inr (Or.inl (if_pos hv2))
  · by_cases hv1 : v ∈ taken1 <;> simp [hv1, hv2]

end Netlist

end Artnetgen
