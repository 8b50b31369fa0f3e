import ArtNetGen.Completion
import ArtNetGen.LongestPath

/-!
`Netlist::summaryDesign`, which checks the ports of the mapped netlist and
reports on it. Mapping adds two nodes that are not connected at their inputs and
leaves the topological orders as they were.
-/

namespace Artnetgen

namespace Netlist

variable {nl nl' : Netlist}

/-- Nothing drives a control, so none gets into the queue. -/
theorem topologicalSort_isSome (clkIn : NodeId)
    (hcontrol : ∀ v < clkIn, (nl.type v).isControl = false)
    (hnew : ∀ v < nl.size, clkIn ≤ v → (nl.type v).isControl = true)
    (hsinks : ∀ u < clkIn, ∀ v ∈ nl.sinks u, v < clkIn) :
    ∃ order, nl.topologicalSort = some order := by
  have hrelax : ∀ (l : List NodeId) (n1 : NodeId) (s : Kahn.State NodeId),
      (∀ v ∈ s.queue, v < clkIn) → (∀ v ∈ l, v < clkIn) →
        ∀ v ∈ (l.foldl (Kahn.relax n1) s).queue, v < clkIn := by
    intro l n1
    induction l with
    | nil => exact fun _ hs _ => hs
    | cons n2 rest ih =>
        intro s hs hl
        obtain ⟨hn2, hrest⟩ := List.forall_mem_cons.mp hl
        apply ih _ _ hrest
        unfold Kahn.relax
        split
        · exact hs
        · split
          · intro v hv
            rcases List.mem_append.mp hv with hv | hv
            · exact hs v hv
            · exact List.mem_singleton.mp hv ▸ hn2
          · exact hs
  have hstep : ∀ i ∈ nl.nodes, ∀ s : Kahn.State NodeId, (∀ v ∈ s.queue, v < clkIn) →
      ∃ s', nl.dequeue s = some s' ∧ ∀ v ∈ s'.queue, v < clkIn := by
    intro _ _ s hs
    unfold dequeue
    cases hqueue : s.queue with
    | nil =>
        refine ⟨s, rfl, ?_⟩
        rw [hqueue]
        simp
    | cons n1 rest =>
        rw [hqueue] at hs
        obtain ⟨hn1, hrest⟩ := List.forall_mem_cons.mp hs
        refine ⟨Kahn.step nl.sinks s, ?_, ?_⟩
        · dsimp only
          rw [hcontrol n1 hn1]
          rfl
        · unfold Kahn.step
          rw [hqueue]
          exact hrelax _ n1 _ hrest (hsinks n1 hn1)
  have hstart : ∀ v ∈ (Kahn.start nl.nodes nl.inDegree fun v => !(nl.type v).isControl).queue,
      v < clkIn := by
    intro v hv
    simp only [Kahn.start, List.mem_filter, nodes, List.mem_range, Bool.and_eq_true,
      Bool.not_eq_true'] at hv
    by_contra hge
    have hin := hnew v hv.1 (Nat.not_lt.mp hge)
    rw [hv.2.2] at hin
    cases hin
  obtain ⟨s, hs, -⟩ := Loop.isDefined (fun s : Kahn.State NodeId => ∀ v ∈ s.queue, v < clkIn)
    hstep hstart
  refine ⟨s.order, ?_⟩
  rw [topologicalSort, hs]
  rfl

end Netlist

open Netlist

namespace Generation

variable {addr : NodeId ↪ ℕ} {ang : ArtNetGen} (g : Generation addr ang)

/-! ## The mapped netlist next to the finished one -/

theorem type_of_lt {v : NodeId} (hv : v < g.finished.size) :
    g.mapped.type v = g.finished.type v := by
  obtain ⟨mid, hmid, hchosen, hmapped, -⟩ := g.chosen
  obtain ⟨b, hcontrols⟩ := chooseCells_controls hmid
  rw [(hmapped.same hchosen (hchosen.prepared.lt_size hv)).1]
  exact hcontrols.type_of_lt hv

theorem type_clk : g.mapped.type g.finished.size = .clockIn := by
  obtain ⟨mid, -, hchosen, hmapped, -⟩ := g.chosen
  rw [(hmapped.same hchosen hchosen.prepared.clk_lt).1]
  exact hchosen.clk.1

theorem type_rst : g.mapped.type (g.finished.size + 1) = .resetIn := by
  obtain ⟨mid, -, hchosen, hmapped, -⟩ := g.chosen
  rw [(hmapped.same hchosen hchosen.prepared.rst_lt).1]
  exact hchosen.rst.1

/-- A node is one of the finished netlist or a control. -/
theorem node_cases {v : NodeId} (hv : v < g.mapped.size) :
    v < g.finished.size ∨ v = g.finished.size ∨ v = g.finished.size + 1 := by
  obtain ⟨mid, -, hchosen, hmapped, -⟩ := g.chosen
  exact hchosen.prepared.node_cases (hmapped.size ▸ hv)

theorem sinks_of_lt {v : NodeId} (hv : v < g.finished.size) :
    g.mapped.sinks v = g.finished.sinks v := by
  obtain ⟨mid, hmid, -, hmapped, -⟩ := g.chosen
  obtain ⟨b, hcontrols⟩ := chooseCells_controls hmid
  have hgraph := hcontrols.graph g.ready.legal.sound.fresh
  rw [hmapped.sinks hv]
  exact congrFun (congrArg Adjacency.sinks hgraph) v

theorem sources_control {v : NodeId} (hv : v = g.finished.size ∨ v = g.finished.size + 1) :
    g.mapped.sources v = [] := by
  obtain ⟨mid, -, hchosen, hmapped, -⟩ := g.chosen
  have hnone : ∀ w, g.finished.size ≤ w → (mid.node w).sources = [] :=
    fun w hw => hchosen.prepared.sources_control hw
  unfold Netlist.sources
  rcases hv with rfl | rfl
  · obtain ⟨n, hgrown, hn⟩ := hmapped.clk
    have hpins := Node.pins_of_control (Or.inl hchosen.clk.1)
    rw [hn, Node.mapped, hgrown.pins, hpins.1, hpins.2, Node.control_nil, Node.control_nil]
    obtain ⟨_, _, _, _, rfl⟩ := hgrown
    exact hnone _ le_rfl
  · obtain ⟨n, hgrown, hn⟩ := hmapped.rst
    have hpins := Node.pins_of_control (Or.inr hchosen.rst.1)
    rw [hn, Node.mapped, hgrown.pins, hpins.1, hpins.2, Node.control_nil, Node.control_nil]
    obtain ⟨_, _, _, _, rfl⟩ := hgrown
    exact hnone _ (Nat.le_succ _)

theorem numOf {t : NodeType} (ht : t ≠ .clockIn ∧ t ≠ .resetIn) :
    g.mapped.numOf t = g.finished.numOf t := by
  unfold Netlist.numOf Netlist.nodes
  rw [g.size, List.range_succ, List.range_succ, List.countP_append, List.countP_append,
    List.countP_singleton, List.countP_singleton, g.type_clk, g.type_rst]
  simp only [ht.1.symm, ht.2.symm, decide_false, Bool.false_eq_true, if_false, Nat.add_zero]
  apply List.countP_congr
  intro v hv
  rw [g.type_of_lt (List.mem_range.mp hv)]

theorem sorted : ∃ order, g.mapped.topologicalSort = some order := by
  apply topologicalSort_isSome g.finished.size
  · intro v hv
    rw [g.type_of_lt hv]
    exact g.ready.legal.noControl v
  · intro v hv hge
    rcases (g.node_cases hv).resolve_left (Nat.not_lt.mpr hge) with rfl | rfl
    · rw [g.type_clk]
      rfl
    · rw [g.type_rst]
      rfl
  · intro u hu v hv
    rw [g.sinks_of_lt hu] at hv
    exact (g.ready.legal.sortable.lt hv).2

end Generation

end Artnetgen
