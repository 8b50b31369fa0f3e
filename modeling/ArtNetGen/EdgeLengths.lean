import ArtNetGen.Budget
import ArtNetGen.Library.Counts
import ArtNetGen.Sampling
import Mathlib.Algebra.BigOperators.Group.Finset.Sigma
import Mathlib.Algebra.BigOperators.Ring.Finset

/-!
What the histogram of edge lengths counts. `Distribution::init` files all items
in bucket 0. A node leaves its old bucket when it is counted anew, but `connect`
only ever adds to this histogram, so the edges that were asked for stay in
bucket 0 beside the edges that are there.
-/

namespace Artnetgen

namespace Netlist

variable {nl nl' : Netlist} {src snk : NodeId}

/-- The number of edges of length `l`, with multiplicity. -/
def edgesAt (nl : Netlist) (l : ℕ) : ℕ :=
  ∑ u ∈ Finset.range nl.size, (nl.sinks u).countP fun v => nl.edgeLen u v = l

/-- Every edge is counted at its length. -/
theorem sum_edgesAt {n : ℕ} (h : ∀ u < nl.size, ∀ v ∈ nl.sinks u, nl.edgeLen u v < n) :
    ∑ l ∈ Finset.range n, nl.edgesAt l = nl.edgeCnt := by
  unfold edgesAt edgeCnt
  rw [Finset.sum_comm]
  apply Finset.sum_congr rfl
  intro u hu
  rw [Counts.sum_countP (h u (Finset.mem_range.mp hu)), length_sinks]

theorem edgesAt_eq_zero {l : ℕ} (h : ∀ u < nl.size, ∀ v ∈ nl.sinks u, nl.edgeLen u v ≠ l) :
    nl.edgesAt l = 0 := by
  apply Finset.sum_eq_zero
  intro u hu
  apply List.countP_eq_zero.mpr
  intro v hv
  simpa using h u (Finset.mem_range.mp hu) v hv

theorem Connected.edgeLen (h : Connected nl nl' src snk) : nl'.edgeLen = nl.edgeLen := by
  funext u v
  unfold Netlist.edgeLen
  rw [h.x, h.x, h.y, h.y]

/-- One edge more, at the length of the new edge. -/
theorem Connected.edgesAt (h : Connected nl nl' src snk) (hsrc : src < nl.size) (l : ℕ) :
    nl'.edgesAt l = nl.edgesAt l + if nl.edgeLen src snk = l then 1 else 0 := by
  have hone : ∀ u, ((nl'.sinks u).countP fun v => nl'.edgeLen u v = l) =
      ((nl.sinks u).countP fun v => nl.edgeLen u v = l) +
        if src = u then (if nl.edgeLen src snk = l then 1 else 0) else 0 := by
    intro u
    rw [h.sinks, h.edgeLen]
    by_cases hu : u = src
    · subst hu
      rw [if_pos rfl, if_pos rfl, List.countP_append, List.countP_singleton]
      simp only [decide_eq_true_eq]
    · rw [if_neg hu, if_neg (Ne.symm hu), Nat.add_zero]
  have hmem : src ∈ Finset.range nl.size := Finset.mem_range.mpr hsrc
  unfold Netlist.edgesAt
  simp only [hone, h.size]
  rw [Finset.sum_add_distrib, Finset.sum_ite_eq, if_pos hmem]

/-- At first all edges that are asked for have length 0. -/
theorem initializeNetlist_edgeDist {ang : ArtNetGen} (h : initializeNetlist ang = some nl) :
    nl.edgeDist.Complete ∧ ∃ max, nl.edgeDist.FreshTable max nl.edgeDist.totalCnt := by
  simp only [initializeNetlist] at h
  split at h
  · cases h
  simp only [Option.bind_eq_bind, Option.bind_eq_some_iff] at h
  obtain ⟨fiDist, -, foDist, -, bboxDist, -, avg, -, edgeDist, hedge, emptyBin, -, hplace⟩ := h
  obtain ⟨-, htotal, hfresh⟩ := Distribution.init_spec rfl hedge
  have hsame : nl.edgeDist = edgeDist := (placeBlocks_sameTables hplace).edgeDist
  rw [hsame, htotal]
  exact ⟨Distribution.init_complete hedge, _, hfresh⟩

end Netlist

namespace Matching

variable {addr : NodeId ↪ ℕ}

/-- A step connects two nodes that the tables have room for, or leaves the
netlist alone. -/
theorem Inv.step_connects {s s' : Matching} {c : Turn} (h : s.Inv addr)
    (hstep : s.step addr c = some s') :
    s'.tarEdgeCnt = s.tarEdgeCnt ∧ (s'.netlist = s.netlist ∨
      ∃ src snk, s.netlist.Linkable src snk ∧ s.netlist.connect src snk = some s'.netlist) := by
  unfold Matching.step at hstep
  split at hstep
  · simp only [Matching.turn, Option.bind_eq_bind, Option.bind_eq_some_iff] at hstep
    obtain ⟨edgeLength, -, best, hbest, hrest⟩ := hstep
    cases best with
    | none =>
        obtain rfl := Option.some.inj hrest
        exact ⟨rfl, Or.inl rfl⟩
    | some g =>
        obtain ⟨nl, hnl, hnext⟩ := Option.bind_eq_some_iff.mp hrest
        obtain rfl := Option.some.inj hnext
        obtain ⟨cs, hcs, hspec⟩ := h.candidates c edgeLength
        rw [maxGain_eq, hcs, Option.map_some, Option.some.injEq] at hbest
        obtain ⟨heligible, -⟩ := hspec g (List.argmax_eq_some_iff.mp hbest).1
        exact ⟨rfl, Or.inr ⟨g.n1, g.n2, heligible.joinable.linkable, hnl⟩⟩
  · obtain rfl := Option.some.inj hstep
    exact ⟨rfl, Or.inl rfl⟩

theorem Inv.step_sameTargets {s s' : Matching} {c : Turn} (h : s.Inv addr)
    (hstep : s.step addr c = some s') :
    s.netlist.edgeDist.SameTargets s'.netlist.edgeDist := by
  rcases (h.step_connects hstep).2 with hsame | ⟨src, snk, -, hconnect⟩
  · rw [hsame]
    exact .refl s.netlist.edgeDist
  · exact (Distribution.addCount_spec (Netlist.connect_dists hconnect).2.2.2).1

/-- Every edge fits into the table. -/
theorem Inv.edgeLen_lt {s : Matching} (h : s.Inv addr) {u v : NodeId}
    (hu : u < s.netlist.size) (hv : v ∈ s.netlist.sinks u) :
    s.netlist.edgeLen u v < s.netlist.edgeDist.info.length := by
  rw [h.consistent.tallied.edgeLength]
  exact (Netlist.edgeLen_lt h.consistent.placed hu (h.wired.sinks_lt hv)).trans
    (Nat.lt_succ_self _)

/-- The counts of the histogram, added up. -/
def countedEdges (s : Matching) : ℤ :=
  ∑ l ∈ Finset.range s.netlist.edgeDist.info.length, (s.netlist.edgeDist.count l).getD 0

/-- The histogram counts the edges of the graph by their lengths; a length that
has no bucket counts as none. -/
structure EdgesCounted (s : Matching) : Prop where
  count : ∀ l, (s.netlist.edgeDist.count l).getD 0 = s.netlist.edgesAt l
  sum : s.countedEdges = s.curEdgeCnt
  returned : s.Returned → s.countedEdges = s.netlist.edgeDist.totalCnt

/-- What the histogram says instead. -/
structure EdgesShifted (addr : NodeId ↪ ℕ) (tarEdgeCnt : ℤ) (s : Matching) : Prop where
  counting : s.Counting addr
  target : s.tarEdgeCnt = tarEdgeCnt
  count : ∀ l < s.netlist.edgeDist.info.length, s.netlist.edgeDist.count l =
    some (s.netlist.edgesAt l + if l = 0 then tarEdgeCnt else 0)

theorem EdgesShifted.step {s s' : Matching} {c : Turn} {tarEdgeCnt : ℤ}
    (h : s.EdgesShifted addr tarEdgeCnt) (hstep : s.step addr c = some s') :
    s'.EdgesShifted addr tarEdgeCnt := by
  have hinv := h.counting.inv
  obtain ⟨htarget, hnetlist⟩ := hinv.step_connects hstep
  refine ⟨h.counting.step hstep, htarget.trans h.target, ?_⟩
  rcases hnetlist with hsame | ⟨src, snk, hlinkable, hconnect⟩
  · rw [hsame]
    exact h.count
  · obtain ⟨nl, hnl, hconnected, -⟩ :=
      Netlist.connect_isDefined hinv.consistent hinv.wired hlinkable
    obtain rfl := Option.some.inj (hnl.symm.trans hconnect)
    obtain ⟨-, -, -, hincr⟩ := Netlist.connect_dists hconnect
    obtain ⟨hsame, hcount⟩ := Distribution.addCount_spec hincr
    intro l hl
    rw [hsame.length] at hl
    rw [hcount, h.count l hl, Option.map_some, hconnected.edgesAt hlinkable.srcMem]
    simp only [eq_comm (a := l)]
    rw [Nat.cast_add, Nat.cast_ite, Nat.cast_one, Nat.cast_zero]
    apply congrArg some
    split <;> omega

theorem enter_edgesShifted {ang : ArtNetGen} {s : Matching} (h : enter ang = some s) :
    s.EdgesShifted addr s.tarEdgeCnt := by
  have hcounting : s.Counting addr := enter_counting h
  obtain ⟨nl, hnl, hinit, hshape, -, -, -, htarget, hcur, -⟩ := enter_spec h
  obtain ⟨-, max, -, hfresh⟩ := Netlist.initializeNetlist_edgeDist hnl
  refine ⟨hcounting, rfl, ?_⟩
  intro l hl
  have hnone : s.netlist.edgesAt l = 0 := by
    apply Netlist.edgesAt_eq_zero
    intro u _ v hv
    have hsinks := (congrFun (congrArg Adjacency.sinks hshape.graph) u).trans
      (hinit.unconnected u).2
    rw [show s.netlist.sinks u = [] from hsinks] at hv
    cases hv
  have hpos : 0 ≤ s.tarEdgeCnt := hcur ▸ hcounting.bound
  rw [htarget] at hpos ⊢
  rw [hshape.tables.edgeDist] at hl hpos ⊢
  rw [hfresh l hl, hnone, max_eq_left hpos]
  simp

theorem EdgesShifted.pos {s : Matching} {tarEdgeCnt : ℤ} (h : s.EdgesShifted addr tarEdgeCnt) :
    0 < s.netlist.edgeDist.info.length := by
  rw [h.counting.inv.consistent.tallied.edgeLength]
  exact Nat.succ_pos _

/-- The edges asked for and the edges that are there are added up. -/
theorem EdgesShifted.sum {s : Matching} {tarEdgeCnt : ℤ} (h : s.EdgesShifted addr tarEdgeCnt) :
    s.countedEdges = s.curEdgeCnt + tarEdgeCnt := by
  have hall : ∑ l ∈ Finset.range s.netlist.edgeDist.info.length, s.netlist.edgesAt l =
      s.netlist.edgeCnt :=
    Netlist.sum_edgesAt fun u hu v hv => h.counting.inv.edgeLen_lt hu hv
  have hcount : s.countedEdges = ∑ l ∈ Finset.range s.netlist.edgeDist.info.length,
      ((s.netlist.edgesAt l : ℤ) + if l = 0 then tarEdgeCnt else 0) := by
    apply Finset.sum_congr rfl
    intro l hl
    rw [h.count l (Finset.mem_range.mp hl), Option.getD_some]
  rw [hcount, Finset.sum_add_distrib, Finset.sum_ite_eq', if_pos (Finset.mem_range.mpr h.pos),
    ← Nat.cast_sum, hall, h.counting.edges]

theorem run_edgesShifted {ang : ArtNetGen} {s0 s : Matching} {turns : List Turn}
    (henter : enter ang = some s0) (hrun : turns.foldlM (Matching.step addr) s0 = some s) :
    s.EdgesShifted addr s0.tarEdgeCnt :=
  Loop.invariant (EdgesShifted addr s0.tarEdgeCnt) (fun _ _ _ _ h hstep => h.step hstep)
    (enter_edgesShifted henter) hrun

/-- Without edges to ask for there is nothing in bucket 0 that should not be
there. -/
theorem EdgesShifted.edgesCounted {s : Matching} (h : s.EdgesShifted addr 0) :
    s.EdgesCounted := by
  have hsum : s.countedEdges = s.curEdgeCnt := by
    rw [h.sum, add_zero]
  refine ⟨?_, hsum, ?_⟩
  · intro l
    by_cases hl : l < s.netlist.edgeDist.info.length
    · rw [h.count l hl, ite_self, add_zero, Option.getD_some]
    · have hnone : s.netlist.edgesAt l = 0 := by
        apply Netlist.edgesAt_eq_zero
        intro u hu v hv heq
        exact hl (heq ▸ h.counting.inv.edgeLen_lt hu hv)
      unfold Distribution.count
      rw [List.getElem?_eq_none (Nat.le_of_not_lt hl), hnone]
      rfl
  · intro hreturned
    have hdone : s.curEdgeCnt = s.tarEdgeCnt := le_antisymm h.counting.bound hreturned
    rw [hsum, hdone, h.counting.target]

/-- In every state of every run the histogram counts the edges of the graph
exactly when no edges were asked for: bucket 0 counts these as well. -/
theorem edgesCounted_iff (addr : NodeId ↪ ℕ) (ang : ArtNetGen) (s0 s : Matching)
    (turns : List Turn) (henter : enter ang = some s0)
    (hrun : turns.foldlM (Matching.step addr) s0 = some s) :
    s.EdgesCounted ↔ s0.tarEdgeCnt = 0 := by
  have h : s.EdgesShifted addr s0.tarEdgeCnt := run_edgesShifted henter hrun
  constructor
  · intro hcounted
    have hsum := hcounted.sum
    rw [h.sum] at hsum
    omega
  · intro hzero
    rw [hzero] at h
    exact h.edgesCounted

/-- Nodes without fan-in ask for no edges. -/
def bareSpec : List SpecLine :=
  [.fanin 0 3 1, .fanout 0 3 1,
    .window 0 1 1, .window 1 0 0, .window 2 0 0, .window 3 0 0,
    .netbbox 0 1 1, .netbbox 1 0 0, .netbbox 2 0 0, .netbbox 3 0 0,
    .combRatio 1, .ipadCount 1, .opadCount 1]

def bareAng : ArtNetGen := (ArtNetGen.init { libs := [] } bareSpec).get (by decide +kernel)

def bareStart : Matching := (enter bareAng).get (by decide +kernel)

theorem edgesCounted_iff_bare : bareStart.EdgesCounted :=
  (edgesCounted_iff (.refl ℕ) bareAng bareStart bareStart [] (Option.some_get _).symm rfl).mpr
    (by decide +kernel)

/-- Of the two edges one has length 0, but the two that were asked for are
counted there as well. -/
theorem smallEnd_miscounts : enter smallAng = some smallStart ∧
    smallTurns.foldlM (Matching.step (.refl ℕ)) smallStart = some smallEnd ∧
    smallEnd.netlist.edgeDist.count 0 = some 3 ∧ smallEnd.netlist.edgesAt 0 = 1 ∧
    ¬ smallEnd.EdgesCounted := by
  have hcount : smallEnd.netlist.edgeDist.count 0 = some 3 := by decide +kernel
  have hedges : smallEnd.netlist.edgesAt 0 = 1 := by decide +kernel
  refine ⟨(Option.some_get _).symm, (Option.some_get _).symm, hcount, hedges, ?_⟩
  intro hcounted
  have hzero := hcounted.count 0
  rw [hcount, hedges] at hzero
  cases hzero

/-! ## Drawing from the histogram -/

/-- Length 0 is never below its target. -/
theorem EdgesShifted.deficit_zero {s : Matching} {tarEdgeCnt t : ℤ}
    (h : s.EdgesShifted addr tarEdgeCnt) (ht : s.netlist.edgeDist.target 0 = some t)
    (hle : t ≤ tarEdgeCnt) : s.netlist.edgeDist.deficit 0 = 0 := by
  have hcount := h.count 0 h.pos
  unfold Distribution.count at hcount
  unfold Distribution.target at ht
  obtain ⟨info, hinfo, hinfoCount⟩ := Option.map_eq_some_iff.mp hcount
  rw [hinfo, Option.map_some, Option.some.injEq] at ht
  unfold Distribution.deficit
  rw [hinfo, Option.map_some, Option.getD_some, hinfoCount, ht, if_pos rfl]
  omega

/-- The draw by `sample` that `distMatching` has in a comment would not choose
lengths in proportion in any state. -/
theorem edgeDist_not_proportional (addr : NodeId ↪ ℕ) {ang : ArtNetGen} {s0 s : Matching}
    {turns : List Turn} (henter : enter ang = some s0)
    (hrun : turns.foldlM (Matching.step addr) s0 = some s) :
    s.netlist.edgeDist.Complete ∧ ¬ s.netlist.edgeDist.Proportional := by
  obtain ⟨nl, hnl, hinit, hshape, -, -, -, htarget, -⟩ := enter_spec henter
  have hsame : s.Inv addr ∧ s0.netlist.edgeDist.SameTargets s.netlist.edgeDist :=
    Loop.invariant (fun s => s.Inv addr ∧ s0.netlist.edgeDist.SameTargets s.netlist.edgeDist)
      (fun _ _ _ _ h hstep => ⟨h.1.step hstep, h.2.trans (h.1.step_sameTargets hstep)⟩)
      ⟨enter_inv henter, .refl s0.netlist.edgeDist⟩ hrun
  have hcomplete : s0.netlist.edgeDist.Complete := by
    rw [hshape.tables.edgeDist]
    exact (Netlist.initializeNetlist_edgeDist hnl).1
  constructor
  · exact hsame.2.complete hcomplete
  · rintro ⟨b, hb, hpos, -, hnever⟩
    obtain ⟨t, ht, hle⟩ := hinit.edgeFirst
    rw [← hshape.tables.edgeDist] at ht hle
    rw [← htarget] at hle
    rw [← hsame.2.target 0] at ht
    have hzero := (run_edgesShifted henter hrun).deficit_zero ht hle
    exact hnever 0 hzero 0 (Distribution.sample_zero hb hpos)

end Matching

end Artnetgen
