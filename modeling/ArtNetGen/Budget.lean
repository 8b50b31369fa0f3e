import ArtNetGen.Progress
import Mathlib.Algebra.BigOperators.Group.Finset.Piecewise

/-!
What `distMatching` has connected when it returns. The number of edges is
settled by the loop condition. That no node is left without a source is not:
each edge feeds at most one starving node, so the missing edges must never
become fewer than the starving nodes.
-/

namespace Artnetgen

namespace Netlist

/-- The number of edges, with multiplicity. -/
def edgeCnt (nl : Netlist) : ℕ := ∑ v ∈ Finset.range nl.size, nl.numFanouts v

/-- The nodes that need a source and have none. -/
def starving (nl : Netlist) : Finset NodeId :=
  (Finset.range nl.size).filter fun v => nl.type v ≠ .primaryIn ∧ nl.sources v = []

variable {addr : NodeId ↪ ℕ} {nl nl' : Netlist} {src snk : NodeId}

theorem Connected.edgeCnt (h : Connected nl nl' src snk) (hsrc : src < nl.size) :
    nl'.edgeCnt = nl.edgeCnt + 1 := by
  have hfanouts : nl'.numFanouts = Function.update nl.numFanouts src (nl.numFanouts src + 1) :=
    (field_congr h.node Node.numFanouts).trans (nl.addEdge_numFanouts src snk)
  have hmem : src ∈ Finset.range nl.size := Finset.mem_range.mpr hsrc
  rw [Netlist.edgeCnt, Netlist.edgeCnt, h.size, hfanouts, Finset.sum_update_of_mem hmem,
    ← Finset.add_sum_erase _ _ hmem, Finset.sdiff_singleton_eq_erase]
  omega

/-- An edge feeds its sink and nobody else. -/
theorem Connected.starving (h : Connected nl nl' src snk) :
    nl'.starving = nl.starving.erase snk := by
  ext v
  simp only [Netlist.starving, Finset.mem_filter, Finset.mem_erase, h.size, h.type, h.sources]
  by_cases hv : v = snk <;> simp [hv]

end Netlist

namespace Matching

variable {addr : NodeId ↪ ℕ}

/-- The graph has as many edges as asked for, every output has its source and
no gate is without one. -/
def Fed (s : Matching) : Prop :=
  (s.netlist.edgeCnt : ℤ) = s.netlist.edgeDist.totalCnt ∧
    (∀ v < s.netlist.size, s.netlist.type v = .primaryOut →
      (s.netlist.sources v).length = 1) ∧
    ∀ v < s.netlist.size, s.netlist.type v = .combinational → s.netlist.sources v ≠ []

/-- If as many edges are missing as nodes are starving, the best candidate of
the turn has a starving sink. -/
def Feeds (addr : NodeId ↪ ℕ) (s : Matching) (c : Turn) : Prop :=
  s.curEdgeCnt < s.tarEdgeCnt →
    s.tarEdgeCnt - s.curEdgeCnt = s.netlist.starving.card →
      ∀ edgeLength cs g, s.edgeSampling[c.rand % s.edgeSampling.length]? = some edgeLength →
        s.candidates addr c edgeLength = some cs → cs.argmax Gain.value = some g →
          s.netlist.sources g.n2 = []

/-- There are at least as many missing edges as starving nodes. -/
def Affordable (s : Matching) : Prop :=
  (s.netlist.starving.card : ℤ) ≤ s.tarEdgeCnt - s.curEdgeCnt

/-- The counters of the loop against the graph. -/
structure Counting (addr : NodeId ↪ ℕ) (s : Matching) : Prop where
  inv : s.Inv addr
  edges : (s.netlist.edgeCnt : ℤ) = s.curEdgeCnt
  target : s.tarEdgeCnt = s.netlist.edgeDist.totalCnt
  bound : s.curEdgeCnt ≤ s.tarEdgeCnt

theorem Counting.step {s s' : Matching} {c : Turn} (h : s.Counting addr)
    (hstep : s.step addr c = some s') : s'.Counting addr := by
  have hinv := h.inv.step hstep
  rcases h.inv.step_cases hstep with ⟨-, rfl⟩ | ⟨hlt, hturned⟩
  · exact h
  · cases hturned with
    | retry => exact ⟨hinv, h.edges, h.target, h.bound⟩
    | connect hdraw hcs hbest heligible hat hconnected hconsistent =>
        refine ⟨hinv, ?_, ?_, ?_⟩
        · dsimp only
          rw [hconnected.edgeCnt heligible.joinable.srcMem, ← h.edges]
          push_cast
          rfl
        · exact h.target.trans hconnected.edgeDist.totalCnt.symm
        · exact hlt

/-- On return, being fed and having had enough edges are the same. -/
theorem Counting.fed_iff {s : Matching} (h : s.Counting addr) (hreturned : s.Returned) :
    s.Fed ↔ s.Affordable := by
  have hbound := h.bound
  have hdone : s.curEdgeCnt = s.tarEdgeCnt := le_antisymm hbound hreturned
  have hedges : (s.netlist.edgeCnt : ℤ) = s.netlist.edgeDist.totalCnt := by
    rw [h.edges, hdone, h.target]
  have haffordable : s.Affordable ↔ s.netlist.starving = ∅ := by
    unfold Affordable
    rw [hdone, sub_self, ← Finset.card_eq_zero]
    omega
  rw [haffordable]
  constructor
  · rintro ⟨-, hports, hgates⟩
    apply Finset.eq_empty_of_forall_notMem
    intro v hv
    obtain ⟨hlt, htype, hempty⟩ := by
      simpa only [Netlist.starving, Finset.mem_filter, Finset.mem_range] using hv
    rcases h.inv.types v with hin | hout | hcomb
    · exact htype hin
    · have hone := hports v hlt hout
      rw [hempty] at hone
      cases hone
    · exact hgates v hlt hcomb hempty
  · intro hnone
    have hfed : ∀ v < s.netlist.size, s.netlist.type v ≠ .primaryIn →
        s.netlist.sources v ≠ [] := by
      intro v hlt htype hempty
      have hv : v ∈ s.netlist.starving := by
        simp only [Netlist.starving, Finset.mem_filter, Finset.mem_range]
        exact ⟨hlt, htype, hempty⟩
      rw [hnone] at hv
      cases hv
    refine ⟨hedges, fun v hlt htype => ?_, fun v hlt htype => ?_⟩
    · have hle := (h.inv.wired.primaryOut v htype).2
      have hpos := List.length_pos_iff.mpr (hfed v hlt (by rw [htype]; decide))
      rw [← Netlist.length_sources] at hle
      omega
    · exact hfed v hlt (by rw [htype]; decide)

theorem enter_counting {ang : ArtNetGen} {s : Matching} (h : enter ang = some s) :
    s.Counting addr := by
  obtain ⟨nl, -, hinit, hshape, -, -, hsampling, htar, hcur, -⟩ := enter_spec h
  have hedges : s.netlist.edgeCnt = 0 := by
    apply Finset.sum_eq_zero
    intro v _
    rw [← Netlist.length_sinks, List.length_eq_zero_iff]
    exact (congrFun (congrArg Adjacency.sinks hshape.graph) v).trans (hinit.unconnected v).2
  have hbound : 0 ≤ s.netlist.edgeDist.totalCnt := by
    obtain ⟨t, ht, hle⟩ := hinit.edgeFirst
    rw [← hshape.tables.edgeDist] at ht hle
    refine (Distribution.target_nonneg_of_samplingVector hsampling ?_ ht).trans hle
    rw [hshape.tables.edgeDist, hinit.edgeMax]
    omega
  refine ⟨enter_inv h, ?_, htar, ?_⟩
  · rw [hedges, hcur]
    rfl
  · rw [hcur, htar]
    exact hbound

end Matching

end Artnetgen
