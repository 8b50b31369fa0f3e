import ArtNetGen.SpecFile
import ArtNetGen.Design
import ArtNetGen.Library.Tally

/-!
`ArtNetGen::writeSpec`. Every instance of a placed design is dropped into a
bucket by fan-in, fan-out and the extent of its nets, every edge by its length,
and the buckets up to the bounds of the file are written. Only the fan-out is
clamped to its bound.
-/

namespace Artnetgen

namespace DbBlock

/-- `dbInst::getLocation`. -/
def getLocation (b : DbBlock) (i : ℕ) : ℤ × ℤ :=
  ((b.insts[i]?).map fun inst => (inst.x, inst.y)).getD (0, 0)

def binSize (b : DbBlock) : ℤ :=
  ((b.coreUR.1 - b.coreLL.1) + (b.coreUR.2 - b.coreLL.2)).tdiv (specMaxBbox b.insts.length)

end DbBlock

/-- The local variables of `writeSpec` while the pins of one instance are
read. -/
structure PinScan where
  numFanins : ℕ := 0
  numFanouts : ℕ := 0
  lx : ℤ
  ly : ℤ
  ux : ℤ
  uy : ℤ
  edgelenDistribution : ℤ → ℤ
  numEdges : ℕ

/-- The local variables of `writeSpec` between two instances. -/
structure Extraction where
  faninDistribution : ℤ → ℤ := fun _ => 0
  fanoutDistribution : ℤ → ℤ := fun _ => 0
  bboxDistribution : ℤ → ℤ := fun _ => 0
  edgelenDistribution : ℤ → ℤ := fun _ => 0
  onlyUseMasters : String → ℤ := fun _ => 0
  numCombinational : ℕ := 0
  numSequential : ℕ := 0
  numEdges : ℕ := 0

namespace DbBlock

/-- `edgelen` of an edge between two places. -/
def edgelen (b : DbBlock) (source sink : ℤ × ℤ) : ℤ :=
  (|source.1 - sink.1| + |source.2 - sink.2|).tdiv b.binSize

def stretch (s : PinScan) (sink : ℤ × ℤ) : PinScan :=
  { s with
    lx := min s.lx sink.1, ly := min s.ly sink.2
    ux := max s.ux sink.1, uy := max s.uy sink.2 }

def countEdge (s : PinScan) (edgelen : ℤ) : PinScan :=
  { s with
    numFanouts := s.numFanouts + 1
    edgelenDistribution := Tally.add s.edgelenDistribution edgelen
    numEdges := s.numEdges + 1 }

/-- One pin on the net of an output pin; a second output pin there ends the
program. -/
def readNetITerm (b : DbBlock) (source : ℤ × ℤ) (iterm : DbITerm) (s : PinScan)
    (netITerm : DbITerm) : Option PinScan :=
  let sink := b.getLocation netITerm.inst
  let s := stretch s sink
  if netITerm.mTerm.ioType = .output ∧ iterm ≠ netITerm then none
  else if netITerm.mTerm.ioType = .input then some (countEdge s (b.edgelen source sink))
  else some s

def readITerm (b : DbBlock) (source : ℤ × ℤ) (s : PinScan) (iterm : DbITerm) :
    Option PinScan :=
  match iterm.net with
  | none => some s
  | some n =>
      if iterm.mTerm.sigType ≠ .signal then some s
      else if iterm.mTerm.ioType = .input then some { s with numFanins := s.numFanins + 1 }
      else if iterm.mTerm.ioType = .output then
        (b.netITerms n).foldlM (b.readNetITerm source iterm) s
      else some s

def readInst (b : DbBlock) (s : Extraction) (inst : DbInst × ℕ) : Option Extraction := do
  let source := (inst.1.x, inst.1.y)
  let scan ← (inst.1.getITerms inst.2).foldlM (b.readITerm source)
    { lx := source.1, ly := source.2, ux := source.1, uy := source.2
      edgelenDistribution := s.edgelenDistribution, numEdges := s.numEdges }
  let bboxSize := (|scan.ux - scan.lx| + |scan.uy - scan.ly|).tdiv b.binSize
  let sequential := b.isSequential inst.1.master
  return {
    faninDistribution := Tally.add s.faninDistribution scan.numFanins
    fanoutDistribution := Tally.add s.fanoutDistribution (min scan.numFanouts specMaxFanouts : ℕ)
    bboxDistribution := Tally.add s.bboxDistribution bboxSize
    edgelenDistribution := scan.edgelenDistribution
    onlyUseMasters := Tally.add s.onlyUseMasters inst.1.master.name
    numCombinational := if sequential then s.numCombinational else s.numCombinational + 1
    numSequential := if sequential then s.numSequential + 1 else s.numSequential
    numEdges := scan.numEdges }

def extract (b : DbBlock) : Option Extraction := b.insts.zipIdx.foldlM b.readInst {}

/-- The cells in use, each once. -/
def masterNames (b : DbBlock) : List String := (b.insts.map (·.master.name)).dedup

def numBTerms (b : DbBlock) (ioType : DbIoType) : ℕ :=
  b.signalBTerms.countP fun t => decide (t.ioType = ioType)

end DbBlock

/-- The lines of the file. `order` is that of the `unordered_map` of cells. -/
def Extraction.lines (s : Extraction) (ang : ArtNetGen) (b : DbBlock) (order : Iteration String)
    (avgGateDelay avgTopoOrder : ℚ) : List SpecLine :=
  let numInsts := b.insts.length
  (order.1 b.masterNames).map (fun name =>
      .onlyUse name (s.onlyUseMasters name / numInsts)) ++
    histogramLines .fanin (fun x => s.faninDistribution x) ang.specMaxFanins numInsts ++
    histogramLines .fanout (fun x => s.fanoutDistribution x) specMaxFanouts numInsts ++
    histogramLines .netbbox (fun x => s.bboxDistribution x) (specMaxBbox numInsts) numInsts ++
    histogramLines .window (fun x => s.edgelenDistribution x) (specMaxBbox numInsts) s.numEdges ++
    [.cellCount numInsts, .combRatio (s.numCombinational / numInsts),
      .ipadCount (b.numBTerms .input), .opadCount (b.numBTerms .output),
      .other, .other, .other, .other, .avgGateDelay avgGateDelay, .avgTopoOrder avgTopoOrder]

/-- `ArtNetGen::writeSpec`; the delay of the cells is computed elsewhere. -/
def ArtNetGen.writeSpec (ang : ArtNetGen) (b : DbBlock) (order : Iteration String)
    (avgGateDelay : ℚ) : Option (List SpecLine) := do
  let s ← b.extract
  let avgTopoOrder ← b.analyzeTopologicalOrder
  return s.lines ang b order avgGateDelay avgTopoOrder

/-! ## What is dropped where -/

namespace DbBlock

/-- The pins on the nets of the output pins of an instance. -/
def reached (b : DbBlock) (iterms : List DbITerm) : List DbITerm :=
  iterms.flatMap fun t =>
    match t.net with
    | some n => if t.Drives then b.netITerms n else []
    | none => []

def numFanins (iterms : List DbITerm) : ℕ :=
  iterms.countP fun t =>
    decide (t.net ≠ none ∧ t.mTerm.sigType = .signal ∧ t.mTerm.ioType = .input)

/-- Where the pins are that are reached from an instance, itself included. -/
def places (b : DbBlock) (inst : DbInst × ℕ) : List (ℤ × ℤ) :=
  (inst.1.x, inst.1.y) ::
    (b.reached (inst.1.getITerms inst.2)).map fun t => b.getLocation t.inst

/-- The instance has no more inputs in use than the file has buckets for, and
its nets extend no further than the grid has bins. -/
structure Fits (b : DbBlock) (maxFanins : ℕ) (inst : DbInst × ℕ) : Prop where
  fanins : numFanins (inst.1.getITerms inst.2) ≤ maxFanins
  extent : ∀ left ∈ b.places inst, ∀ right ∈ b.places inst, ∀ low ∈ b.places inst,
    ∀ high ∈ b.places inst, (right.1 - left.1) + (high.2 - low.2) <
      (specMaxBbox b.insts.length + 1) * b.binSize

/-- The lengths of the edges to some pins. -/
def edgelens (b : DbBlock) (source : ℤ × ℤ) (pins : List DbITerm) : List ℤ :=
  (pins.filter fun t => t.mTerm.ioType = .input).map fun t =>
    b.edgelen source (b.getLocation t.inst)

variable {b : DbBlock} {source : ℤ × ℤ}

theorem reached_cons (t : DbITerm) (rest : List DbITerm) :
    b.reached (t :: rest) = b.reached [t] ++ b.reached rest := by
  simp [reached]

theorem numFanins_cons (t : DbITerm) (rest : List DbITerm) :
    numFanins (t :: rest) = numFanins [t] + numFanins rest := by
  rw [numFanins, numFanins, numFanins, ← List.countP_append, List.singleton_append]

theorem edgelens_append (l m : List DbITerm) :
    b.edgelens source (l ++ m) = b.edgelens source l ++ b.edgelens source m := by
  rw [edgelens, List.filter_append, List.map_append]
  rfl

/-- The scan after `pins` more pins have been reached. -/
structure Reached (b : DbBlock) (source : ℤ × ℤ) (pins : List DbITerm) (s s' : PinScan) :
    Prop where
  lx : s'.lx = (pins.map fun t => (b.getLocation t.inst).1).foldl min s.lx
  ly : s'.ly = (pins.map fun t => (b.getLocation t.inst).2).foldl min s.ly
  ux : s'.ux = (pins.map fun t => (b.getLocation t.inst).1).foldl max s.ux
  uy : s'.uy = (pins.map fun t => (b.getLocation t.inst).2).foldl max s.uy
  edgelen : s'.edgelenDistribution =
    (b.edgelens source pins).foldl Tally.add s.edgelenDistribution
  numEdges : s'.numEdges = s.numEdges + (b.edgelens source pins).length

theorem Reached.nil (s : PinScan) : b.Reached source [] s s :=
  ⟨rfl, rfl, rfl, rfl, rfl, rfl⟩

theorem Reached.append {l m : List DbITerm} {s mid s' : PinScan} (h : b.Reached source l s mid)
    (h' : b.Reached source m mid s') : b.Reached source (l ++ m) s s' := by
  refine ⟨?_, ?_, ?_, ?_, ?_, ?_⟩
  · rw [List.map_append, List.foldl_append, ← h.lx, h'.lx]
  · rw [List.map_append, List.foldl_append, ← h.ly, h'.ly]
  · rw [List.map_append, List.foldl_append, ← h.ux, h'.ux]
  · rw [List.map_append, List.foldl_append, ← h.uy, h'.uy]
  · rw [edgelens_append, List.foldl_append, ← h.edgelen, h'.edgelen]
  · rw [edgelens_append, List.length_append, h'.numEdges, h.numEdges, Nat.add_assoc]

theorem readNetITerm_reached {iterm netITerm : DbITerm} {s s' : PinScan}
    (h : b.readNetITerm source iterm s netITerm = some s') :
    b.Reached source [netITerm] s s' ∧ s'.numFanins = s.numFanins := by
  simp only [readNetITerm] at h
  split at h
  · cases h
  · split at h
    · next hin =>
        obtain rfl := Option.some.inj h
        exact ⟨⟨rfl, rfl, rfl, rfl, by simp [edgelens, hin, countEdge, stretch],
          by simp [edgelens, hin, countEdge, stretch]⟩, rfl⟩
    · next hin =>
        obtain rfl := Option.some.inj h
        exact ⟨⟨rfl, rfl, rfl, rfl, by simp [edgelens, hin, stretch],
          by simp [edgelens, hin, stretch]⟩, rfl⟩

theorem foldlM_readNetITerm {iterm : DbITerm} {pins : List DbITerm} {s s' : PinScan}
    (h : pins.foldlM (b.readNetITerm source iterm) s = some s') :
    b.Reached source pins s s' ∧ s'.numFanins = s.numFanins := by
  refine Loop.relates (fun pins s s' => b.Reached source pins s s' ∧ s'.numFanins = s.numFanins)
    (fun s => ⟨.nil s, rfl⟩) (fun t rest s mid s' hmid hrest => ?_) h
  obtain ⟨hreached, hfanins⟩ := readNetITerm_reached hmid
  exact ⟨hreached.append hrest.1, hrest.2.trans hfanins⟩

theorem Reached.of_fanins (s : PinScan) (k : ℕ) :
    b.Reached source [] s { s with numFanins := k } :=
  ⟨rfl, rfl, rfl, rfl, rfl, rfl⟩

theorem readITerm_reached {iterm : DbITerm} {s s' : PinScan}
    (h : b.readITerm source s iterm = some s') :
    b.Reached source (b.reached [iterm]) s s' ∧
      s'.numFanins = s.numFanins + numFanins [iterm] := by
  simp only [readITerm] at h
  split at h
  · next hnet =>
      obtain rfl := Option.some.inj h
      have hnil : b.reached [iterm] = [] := by simp [reached, hnet]
      rw [hnil]
      exact ⟨.nil s, by simp [numFanins, hnet]⟩
  · next n hnet =>
      split at h
      · next hsig =>
          obtain rfl := Option.some.inj h
          have hnil : b.reached [iterm] = [] := by simp [reached, hnet, DbITerm.Drives, hsig]
          rw [hnil]
          exact ⟨.nil s, by simp [numFanins, hsig]⟩
      · next hsig =>
          rw [not_not] at hsig
          split at h
          · next hin =>
              obtain rfl := Option.some.inj h
              have hnil : b.reached [iterm] = [] := by simp [reached, hnet, DbITerm.Drives, hin]
              rw [hnil]
              exact ⟨.of_fanins s _, by simp [numFanins, hnet, hsig, hin]⟩
          · next hin =>
              split at h
              · next hout =>
                  have hpins : b.reached [iterm] = b.netITerms n := by
                    simp [reached, hnet, DbITerm.Drives, hsig, hout]
                  obtain ⟨hreached, hfanins⟩ := foldlM_readNetITerm h
                  rw [hpins]
                  exact ⟨hreached, by simp [numFanins, hin, hfanins]⟩
              · next hout =>
                  obtain rfl := Option.some.inj h
                  have hnil : b.reached [iterm] = [] := by
                    simp [reached, hnet, DbITerm.Drives, hout]
                  rw [hnil]
                  exact ⟨.nil s, by simp [numFanins, hin]⟩

theorem foldlM_readITerm {iterms : List DbITerm} {s s' : PinScan}
    (h : iterms.foldlM (b.readITerm source) s = some s') :
    b.Reached source (b.reached iterms) s s' ∧
      s'.numFanins = s.numFanins + numFanins iterms := by
  refine Loop.relates (fun iterms s s' => b.Reached source (b.reached iterms) s s' ∧
    s'.numFanins = s.numFanins + numFanins iterms)
    (fun s => ⟨.nil s, rfl⟩) (fun t rest s mid s' hmid hrest => ?_) h
  obtain ⟨hreached, hfanins⟩ := readITerm_reached hmid
  rw [reached_cons, numFanins_cons]
  exact ⟨hreached.append hrest.1, by rw [hrest.2, hfanins, Nat.add_assoc]⟩

/-! ## Instances -/

/-- How far the pins reached from an instance lie apart. -/
def extent (b : DbBlock) (inst : DbInst × ℕ) : ℤ :=
  let pins := b.reached (inst.1.getITerms inst.2)
  let xs := pins.map fun t => (b.getLocation t.inst).1
  let ys := pins.map fun t => (b.getLocation t.inst).2
  |xs.foldl max inst.1.x - xs.foldl min inst.1.x| + |ys.foldl max inst.1.y - ys.foldl min inst.1.y|

def bboxSize (b : DbBlock) (inst : DbInst × ℕ) : ℤ := (b.extent inst).tdiv b.binSize

def instEdgelens (b : DbBlock) (inst : DbInst × ℕ) : List ℤ :=
  b.edgelens (inst.1.x, inst.1.y) (b.reached (inst.1.getITerms inst.2))

/-- The distributions after some more instances. -/
structure Extracted (b : DbBlock) (insts : List (DbInst × ℕ)) (s s' : Extraction) : Prop where
  fanin : s'.faninDistribution =
    (insts.map fun inst => (numFanins (inst.1.getITerms inst.2) : ℤ)).foldl Tally.add
      s.faninDistribution
  fanout : ∃ fanouts : List ℤ, fanouts.length = insts.length ∧
    (∀ k ∈ fanouts, 0 ≤ k ∧ k < ((specMaxFanouts + 1 : ℕ) : ℤ)) ∧
    s'.fanoutDistribution = fanouts.foldl Tally.add s.fanoutDistribution
  bbox : s'.bboxDistribution = (insts.map b.bboxSize).foldl Tally.add s.bboxDistribution
  edgelen : s'.edgelenDistribution =
    (insts.flatMap b.instEdgelens).foldl Tally.add s.edgelenDistribution
  numEdges : s'.numEdges = s.numEdges + (insts.flatMap b.instEdgelens).length

theorem readInst_extracted {inst : DbInst × ℕ} {s s' : Extraction}
    (h : b.readInst s inst = some s') : b.Extracted [inst] s s' := by
  simp only [readInst, Option.bind_eq_bind, Option.bind_eq_some_iff, Option.pure_def,
    Option.some.injEq] at h
  obtain ⟨scan, hscan, rfl⟩ := h
  obtain ⟨hreached, hfanins⟩ := foldlM_readITerm hscan
  refine ⟨?_, ⟨[(min scan.numFanouts specMaxFanouts : ℕ)], rfl, ?_, rfl⟩, ?_, ?_, ?_⟩
  · simp [hfanins]
  · simp only [List.mem_singleton, forall_eq]
    omega
  · simp [bboxSize, extent, hreached.lx, hreached.ly, hreached.ux, hreached.uy]
  · simp [instEdgelens, hreached.edgelen]
  · simp [instEdgelens, hreached.numEdges]

theorem Extracted.cons {inst : DbInst × ℕ} {rest : List (DbInst × ℕ)} {s mid s' : Extraction}
    (h : b.Extracted [inst] s mid) (h' : b.Extracted rest mid s') :
    b.Extracted (inst :: rest) s s' := by
  obtain ⟨fanouts, hlength, hrange, hfanout⟩ := h.fanout
  obtain ⟨fanouts', hlength', hrange', hfanout'⟩ := h'.fanout
  refine ⟨?_, ⟨fanouts ++ fanouts', ?_, ?_, ?_⟩, ?_, ?_, ?_⟩
  · rw [h'.fanin, h.fanin]
    rfl
  · rw [List.length_append, hlength, hlength', List.length_cons]
    exact Nat.add_comm _ _
  · intro k hk
    exact (List.mem_append.mp hk).elim (hrange k) (hrange' k)
  · rw [hfanout', hfanout, List.foldl_append]
  · rw [h'.bbox, h.bbox]
    rfl
  · rw [h'.edgelen, h.edgelen, ← List.foldl_append]
    simp
  · rw [h'.numEdges, h.numEdges]
    simp [Nat.add_assoc]

theorem extract_extracted {s : Extraction} (h : b.extract = some s) :
    b.Extracted b.insts.zipIdx {} s :=
  Loop.relates b.Extracted (fun _ => ⟨rfl, ⟨[], rfl, nofun, rfl⟩, rfl, rfl, rfl⟩)
    (fun _ _ _ _ _ hmid hrest => (readInst_extracted hmid).cons hrest) h

/-! ## What the file keeps -/

/-- Counters that started at zero hold all keys in `0..max` exactly when there
are no others. -/
theorem kept_iff {dist : ℤ → ℤ} {keys : List ℤ} (max : ℕ)
    (h : dist = keys.foldl Tally.add fun _ => 0) :
    ((List.range (max + 1)).map fun x : ℕ => dist x).sum = keys.length ↔
      ∀ k ∈ keys, 0 ≤ k ∧ k < ((max + 1 : ℕ) : ℤ) := by
  rw [← Tally.sum_counts_eq_length_iff]
  simp [h, Tally.foldl_add]

section Extent

variable {inst : DbInst × ℕ}

theorem fst_mem_places {x : ℤ} :
    x ∈ (b.places inst).map Prod.fst ↔
      x ∈ inst.1.x :: (b.reached (inst.1.getITerms inst.2)).map fun t =>
        (b.getLocation t.inst).1 := by
  simp [places]

theorem snd_mem_places {y : ℤ} :
    y ∈ (b.places inst).map Prod.snd ↔
      y ∈ inst.1.y :: (b.reached (inst.1.getITerms inst.2)).map fun t =>
        (b.getLocation t.inst).2 := by
  simp [places]

theorem extent_eq (b : DbBlock) (inst : DbInst × ℕ) :
    b.extent inst =
      (((b.reached (inst.1.getITerms inst.2)).map fun t => (b.getLocation t.inst).1).foldl max
          inst.1.x -
        ((b.reached (inst.1.getITerms inst.2)).map fun t => (b.getLocation t.inst).1).foldl min
          inst.1.x) +
      (((b.reached (inst.1.getITerms inst.2)).map fun t => (b.getLocation t.inst).2).foldl max
          inst.1.y -
        ((b.reached (inst.1.getITerms inst.2)).map fun t => (b.getLocation t.inst).2).foldl min
          inst.1.y) := by
  have hspread : ∀ (l : List ℤ) (a : ℤ), 0 ≤ l.foldl max a - l.foldl min a := fun l a =>
    sub_nonneg.mpr ((Tally.foldl_min_le List.mem_cons_self).trans
      (Tally.le_foldl_max List.mem_cons_self))
  simp only [extent]
  rw [abs_of_nonneg (hspread _ _), abs_of_nonneg (hspread _ _)]

/-- The extent bounds the distance of any two places. -/
theorem extent_lt_iff {bound : ℤ} :
    b.extent inst < bound ↔
      ∀ left ∈ b.places inst, ∀ right ∈ b.places inst, ∀ low ∈ b.places inst,
        ∀ high ∈ b.places inst, (right.1 - left.1) + (high.2 - low.2) < bound := by
  rw [extent_eq]
  constructor
  · intro h left hleft right hright low hlow high hhigh
    have hl := Tally.foldl_min_le (fst_mem_places.mp (List.mem_map_of_mem hleft))
    have hr := Tally.le_foldl_max (fst_mem_places.mp (List.mem_map_of_mem hright))
    have hd := Tally.foldl_min_le (snd_mem_places.mp (List.mem_map_of_mem hlow))
    have hu := Tally.le_foldl_max (snd_mem_places.mp (List.mem_map_of_mem hhigh))
    linarith
  · intro h
    obtain ⟨left, hleft, hl⟩ :=
      List.mem_map.mp (fst_mem_places.mpr (Tally.foldl_min_mem _ inst.1.x))
    obtain ⟨right, hright, hr⟩ :=
      List.mem_map.mp (fst_mem_places.mpr (Tally.foldl_max_mem _ inst.1.x))
    obtain ⟨low, hlow, hd⟩ :=
      List.mem_map.mp (snd_mem_places.mpr (Tally.foldl_min_mem _ inst.1.y))
    obtain ⟨high, hhigh, hu⟩ :=
      List.mem_map.mp (snd_mem_places.mpr (Tally.foldl_max_mem _ inst.1.y))
    have hlt := h left hleft right hright low hlow high hhigh
    rwa [hl, hr, hd, hu] at hlt

theorem extent_nonneg (b : DbBlock) (inst : DbInst × ℕ) : 0 ≤ b.extent inst :=
  add_nonneg (abs_nonneg _) (abs_nonneg _)

theorem distance_le_extent {t : DbITerm} (ht : t ∈ b.reached (inst.1.getITerms inst.2)) :
    |inst.1.x - (b.getLocation t.inst).1| + |inst.1.y - (b.getLocation t.inst).2| ≤
      b.extent inst := by
  have hhere : (inst.1.x, inst.1.y) ∈ b.places inst := List.mem_cons_self
  have hthere : b.getLocation t.inst ∈ b.places inst :=
    List.mem_cons_of_mem _ (List.mem_map_of_mem ht)
  have hall := extent_lt_iff.mp (lt_add_one (b.extent inst))
  rcases abs_choice (inst.1.x - (b.getLocation t.inst).1) with hx | hx <;>
    rcases abs_choice (inst.1.y - (b.getLocation t.inst).2) with hy | hy <;> rw [hx, hy]
  · have hlt := hall _ hthere _ hhere _ hthere _ hhere
    linarith
  · have hlt := hall _ hthere _ hhere _ hhere _ hthere
    linarith
  · have hlt := hall _ hhere _ hthere _ hthere _ hhere
    linarith
  · have hlt := hall _ hhere _ hthere _ hhere _ hthere
    linarith

variable (hbin : 0 < b.binSize)

include hbin

/-- A length in bins is within the bounds of the file exactly when it is shorter
than one more bin. -/
theorem bins_lt_iff {length : ℤ} (hlength : 0 ≤ length) (max : ℕ) :
    (0 ≤ length.tdiv b.binSize ∧ length.tdiv b.binSize < ((max + 1 : ℕ) : ℤ)) ↔
      length < (max + 1) * b.binSize := by
  rw [Int.tdiv_eq_ediv_of_nonneg hlength, Int.ediv_lt_iff_lt_mul hbin,
    and_iff_right (Int.ediv_nonneg hlength hbin.le)]
  norm_cast

theorem instEdgelens_range {max : ℕ} (h : b.extent inst < (max + 1) * b.binSize) :
    ∀ k ∈ b.instEdgelens inst, 0 ≤ k ∧ k < ((max + 1 : ℕ) : ℤ) := by
  intro k hk
  obtain ⟨t, ht, rfl⟩ := List.mem_map.mp hk
  apply (bins_lt_iff hbin (add_nonneg (abs_nonneg _) (abs_nonneg _)) max).mpr
  exact (distance_le_extent (List.mem_filter.mp ht).1).trans_lt h

end Extent

end DbBlock

/-- The four histograms of the file. -/
theorem Extraction.lines_totals (s : Extraction) (ang : ArtNetGen) (b : DbBlock)
    (order : Iteration String) (avgGateDelay avgTopoOrder : ℚ) :
    let file := s.lines ang b order avgGateDelay avgTopoOrder
    let max := specMaxBbox b.insts.length
    totalOf SpecLine.faninTarget file =
      ((List.range (ang.specMaxFanins + 1)).map fun x : ℕ => s.faninDistribution x).sum ∧
    totalOf SpecLine.fanoutTarget file =
      ((List.range (specMaxFanouts + 1)).map fun x : ℕ => s.fanoutDistribution x).sum ∧
    totalOf SpecLine.netbboxTarget file =
      ((List.range (max + 1)).map fun x : ℕ => s.bboxDistribution x).sum ∧
    totalOf SpecLine.windowTarget file =
      ((List.range (max + 1)).map fun x : ℕ => s.edgelenDistribution x).sum := by
  have honly : ∀ target : SpecLine → Option ℤ, (∀ name ratio, target (.onlyUse name ratio) = none) →
      totalOf target ((order.1 b.masterNames).map fun name =>
        .onlyUse name (s.onlyUseMasters name / b.insts.length)) = 0 := fun target htarget =>
    totalOf_eq_zero fun line hline => by
      obtain ⟨name, -, rfl⟩ := List.mem_map.mp hline
      exact htarget name _
  simp only [Extraction.lines, totalOf_append]
  refine ⟨?_, ?_, ?_, ?_⟩
  · rw [honly _ fun _ _ => rfl, totalOf_histogram fun _ _ _ => rfl, totalOf_other fun _ _ _ => rfl,
      totalOf_other fun _ _ _ => rfl, totalOf_other fun _ _ _ => rfl]
    simp [totalOf_cons, SpecLine.faninTarget]
  · rw [honly _ fun _ _ => rfl, totalOf_other fun _ _ _ => rfl, totalOf_histogram fun _ _ _ => rfl,
      totalOf_other fun _ _ _ => rfl, totalOf_other fun _ _ _ => rfl]
    simp [totalOf_cons, SpecLine.fanoutTarget]
  · rw [honly _ fun _ _ => rfl, totalOf_other fun _ _ _ => rfl, totalOf_other fun _ _ _ => rfl,
      totalOf_histogram fun _ _ _ => rfl, totalOf_other fun _ _ _ => rfl]
    simp [totalOf_cons, SpecLine.netbboxTarget]
  · rw [honly _ fun _ _ => rfl, totalOf_other fun _ _ _ => rfl, totalOf_other fun _ _ _ => rfl,
      totalOf_other fun _ _ _ => rfl, totalOf_histogram fun _ _ _ => rfl]
    simp [totalOf_cons, SpecLine.windowTarget]

/-- Nothing is lost on the way into the file exactly when every instance
fits. -/
theorem ArtNetGen.writeSpec_lossless_iff (ang : ArtNetGen) (b : DbBlock)
    (order : Iteration String) (avgGateDelay : ℚ) (hbin : 0 < b.binSize) {s : Extraction}
    (hs : b.extract = some s) {file : List SpecLine}
    (h : ang.writeSpec b order avgGateDelay = some file) :
    (totalOf SpecLine.faninTarget file = b.insts.length ∧
      totalOf SpecLine.fanoutTarget file = b.insts.length ∧
      totalOf SpecLine.netbboxTarget file = b.insts.length ∧
      totalOf SpecLine.windowTarget file = s.numEdges ∧
      ∀ reader ang' : ArtNetGen, reader.readSpec file = some ang' →
        ang'.instanceCnt = b.insts.length) ↔
    ∀ inst ∈ b.insts.zipIdx, b.Fits ang.specMaxFanins inst := by
  simp only [writeSpec, hs, Option.bind_eq_bind, Option.bind_some, Option.bind_eq_some_iff,
    Option.pure_def, Option.some.injEq] at h
  obtain ⟨avgTopoOrder, -, rfl⟩ := h
  obtain ⟨hfanin, hfanout, hbbox, hwindow⟩ :=
    s.lines_totals ang b order avgGateDelay avgTopoOrder
  have hrun := DbBlock.extract_extracted hs
  obtain ⟨fanouts, hlength, hrange, hfanouts⟩ := hrun.fanout
  have hfaninKept := DbBlock.kept_iff ang.specMaxFanins hrun.fanin
  have hfanoutKept := DbBlock.kept_iff specMaxFanouts hfanouts
  have hbboxKept := DbBlock.kept_iff (specMaxBbox b.insts.length) hrun.bbox
  have hedgeKept := DbBlock.kept_iff (specMaxBbox b.insts.length) hrun.edgelen
  rw [← hfanin, List.length_map, List.length_zipIdx] at hfaninKept
  rw [← hfanout, hlength, List.length_zipIdx] at hfanoutKept
  rw [← hbbox, List.length_map, List.length_zipIdx] at hbboxKept
  rw [← hwindow] at hedgeKept
  have hnumEdges : s.numEdges = (b.insts.zipIdx.flatMap b.instEdgelens).length :=
    hrun.numEdges.trans (Nat.zero_add _)
  rw [hfaninKept, hfanoutKept, hbboxKept, hnumEdges, hedgeKept]
  have hbox : ∀ inst : DbInst × ℕ,
      (0 ≤ b.bboxSize inst ∧
        b.bboxSize inst < ((specMaxBbox b.insts.length + 1 : ℕ) : ℤ)) ↔
      b.extent inst < (specMaxBbox b.insts.length + 1) * b.binSize := fun inst =>
    DbBlock.bins_lt_iff hbin (b.extent_nonneg inst) _
  constructor
  · rintro ⟨hfanins, -, hboxes, -⟩ inst hinst
    have hcnt := (hfanins _ (List.mem_map_of_mem hinst)).2
    refine ⟨by omega, DbBlock.extent_lt_iff.mp ((hbox inst).mp ?_)⟩
    exact hboxes _ (List.mem_map_of_mem hinst)
  · intro hfits
    have hextent : ∀ inst ∈ b.insts.zipIdx,
        b.extent inst < (specMaxBbox b.insts.length + 1) * b.binSize := fun inst hinst =>
      DbBlock.extent_lt_iff.mpr (hfits inst hinst).extent
    have hfanins : ∀ k ∈ b.insts.zipIdx.map fun inst =>
        (DbBlock.numFanins (inst.1.getITerms inst.2) : ℤ),
          0 ≤ k ∧ k < ((ang.specMaxFanins + 1 : ℕ) : ℤ) := by
      intro k hk
      obtain ⟨inst, hinst, rfl⟩ := List.mem_map.mp hk
      have hle := (hfits inst hinst).fanins
      omega
    refine ⟨hfanins, hrange, ?_, ?_, fun reader ang' hread => ?_⟩
    · intro k hk
      obtain ⟨inst, hinst, rfl⟩ := List.mem_map.mp hk
      exact (hbox inst).mpr (hextent inst hinst)
    · intro k hk
      obtain ⟨inst, hinst, hmem⟩ := List.mem_flatMap.mp hk
      exact DbBlock.instEdgelens_range hbin (hextent inst hinst) k hmem
    · rw [(readSpec_members hread).1]
      exact hfaninKept.mpr hfanins

/-! A buffer, and a gate with seven inputs in use. -/

def keepOrder : Iteration String := ⟨id, .refl⟩

def bufferLib : ArtNetGen where
  libs := [[bufferCell]]

theorem ArtNetGen.writeSpec_lossless_buffered :
    ∃ s file, buffered.extract = some s ∧
      bufferLib.writeSpec buffered keepOrder (1 / 10) = some file ∧
      ((totalOf SpecLine.faninTarget file = buffered.insts.length ∧
        totalOf SpecLine.fanoutTarget file = buffered.insts.length ∧
        totalOf SpecLine.netbboxTarget file = buffered.insts.length ∧
        totalOf SpecLine.windowTarget file = s.numEdges ∧
        ∀ reader ang' : ArtNetGen, reader.readSpec file = some ang' →
          ang'.instanceCnt = buffered.insts.length) ↔
      ∀ inst ∈ buffered.insts.zipIdx, buffered.Fits bufferLib.specMaxFanins inst) := by
  have hextract : buffered.extract.isSome = true := by decide
  have hwritten : (bufferLib.writeSpec buffered keepOrder (1 / 10)).isSome = true := by decide
  obtain ⟨s, hs⟩ := Option.isSome_iff_exists.mp hextract
  obtain ⟨file, hfile⟩ := Option.isSome_iff_exists.mp hwritten
  exact ⟨s, file, hs, hfile, ArtNetGen.writeSpec_lossless_iff bufferLib buffered keepOrder (1 / 10)
    (by decide) hs hfile⟩

def wideCell : DbMaster where
  name := "AND7"
  mTerms := [⟨"A1", .signal, .input⟩, ⟨"A2", .signal, .input⟩, ⟨"A3", .signal, .input⟩,
    ⟨"A4", .signal, .input⟩, ⟨"A5", .signal, .input⟩, ⟨"A6", .signal, .input⟩,
    ⟨"A7", .signal, .input⟩, ⟨"Z", .signal, .output⟩]
  nodup := by decide

def wide : DbBlock where
  insts := [{
    name := "u1", master := wideCell, x := 0, y := 0
    net := fun term => some (if term.name = "Z" then 1 else 0) }]
  bTerms := [⟨"in", .signal, .input, some 0⟩, ⟨"out", .signal, .output, some 1⟩]
  coreLL := (0, 0)
  coreUR := (10, 10)
  isSequential _ := false
  iTermOrder := buffered.iTermOrder
  bTermOrder := buffered.bTermOrder

def wideLib : ArtNetGen where
  libs := [[wideCell]]

/-- No bucket of the file holds the instance. -/
theorem wide_lost :
    0 < wide.binSize ∧ wide.insts.length = 1 ∧
    (wideLib.writeSpec wide keepOrder (1 / 10)).map (totalOf SpecLine.faninTarget) = some 0 :=
  ⟨by decide, rfl, by decide⟩

end Artnetgen
