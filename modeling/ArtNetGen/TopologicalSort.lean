import ArtNetGen.Netlist
import ArtNetGen.Library.Kahn
import ArtNetGen.Library.Registers

/-!
`Netlist::topologicalSort`. Registers and primary inputs are where counting
starts; the order of any other node is the length of the longest path to it
from one of these or from a node without sources.
-/

namespace Artnetgen

/-- Clock and reset get an order but are kept out of the queue. -/
def NodeType.isControl : NodeType → Bool
  | .clockIn | .resetIn => true
  | _ => false

namespace Netlist

def inDegree (nl : Netlist) (v : NodeId) : ℕ :=
  match nl.type v with
  | .sequential | .primaryIn => 0
  | _ => (nl.node v).numFanins

/-- One turn of the loop; a clock or reset at the front of the queue ends the
program. -/
def dequeue (nl : Netlist) (s : Kahn.State NodeId) : Option (Kahn.State NodeId) :=
  match s.queue with
  | [] => some s
  | n1 :: _ => if (nl.type n1).isControl then none else some (Kahn.step nl.sinks s)

/-- No node enters the queue twice, so one turn for each node empties it. -/
def topologicalSort (nl : Netlist) : Option (NodeId → ℤ) :=
  (nl.nodes.foldlM (fun s _ => nl.dequeue s)
    (Kahn.start nl.nodes nl.inDegree fun v => !(nl.type v).isControl)).map (·.order)

def getMaxTopologicalOrder (nl : Netlist) : Option ℤ :=
  nl.topologicalSort.map fun order => nl.nodes.foldl (fun m v => max m (order v)) 0

def getAvgTopologicalOrder (nl : Netlist) : Option ℚ :=
  nl.topologicalSort.map fun order => (nl.nodes.map fun v => (order v : ℚ)).sum / nl.size

/-! ## What the orders mean -/

/-- Both sides of the adjacency agree, and control signals reach registers
only. -/
structure Sortable (nl : Netlist) : Prop where
  mirrored : nl.graph.Mirrored
  fresh : ∀ v, nl.size ≤ v → nl.graph.Fresh v
  control : ∀ u, (nl.type u).isControl →
    nl.sources u = [] ∧ ∀ v ∈ nl.sinks u, nl.type v = .sequential

/-- The nodes at which paths start whatever drives them. -/
def roots (nl : Netlist) : Set NodeId := {v | nl.type v = .sequential ∨ nl.type v = .primaryIn}

/-- An edge along which the order grows. -/
def CutEdge (nl : Netlist) : NodeId → NodeId → Prop := nl.graph.Carries nl.roots

variable {nl : Netlist}

theorem inDegree_of_root {v : NodeId} (h : v ∈ nl.roots) : nl.inDegree v = 0 := by
  rcases h with h | h <;> simp only [inDegree, h]

theorem inDegree_of_not_root {v : NodeId} (h : v ∉ nl.roots) :
    nl.inDegree v = (nl.sources v).length := by
  have hseq : nl.type v ≠ .sequential := fun hv => h (Or.inl hv)
  have hin : nl.type v ≠ .primaryIn := fun hv => h (Or.inr hv)
  cases htype : nl.type v <;> simp_all [inDegree, Node.numFanins, sources]

/-- The in-degree counted from the other side. -/
theorem inDegree_eq_sum (hmirrored : nl.graph.Mirrored)
    (hlt : ∀ u v, v ∈ nl.sinks u → u < nl.size) {v : NodeId} (hnot : v ∉ nl.roots) :
    nl.inDegree v = ∑ u ∈ nl.nodes.toFinset, (nl.sinks u).count v := by
  have hsources : ∀ u ∈ (nl.sources v : Multiset NodeId), u ∈ nl.nodes.toFinset := by
    intro u hu
    rw [List.mem_toFinset, nodes, List.mem_range]
    exact hlt u v (hmirrored.mem_iff.mpr (Multiset.mem_coe.mp hu))
  calc nl.inDegree v = Multiset.card (nl.sources v : Multiset NodeId) := by
        rw [inDegree_of_not_root hnot, Multiset.coe_card]
    _ = ∑ u ∈ nl.nodes.toFinset, (nl.sources v).count u := by
        rw [← Multiset.sum_count_eq_card hsources]
        simp only [Multiset.coe_count]
    _ = ∑ u ∈ nl.nodes.toFinset, (nl.sinks u).count v :=
        Finset.sum_congr rfl fun u _ => (hmirrored u v).symm

theorem Sortable.lt (h : nl.Sortable) {u v : NodeId} (hv : v ∈ nl.sinks u) :
    u < nl.size ∧ v < nl.size := by
  constructor <;> by_contra hge
  · have hsinks : nl.sinks u = [] := (h.fresh u (Nat.not_lt.mp hge)).2
    rw [hsinks] at hv
    cases hv
  · exact (h.fresh v (Nat.not_lt.mp hge)).not_mem_sinks h.mirrored u hv

theorem Sortable.network (h : nl.Sortable) :
    Kahn.Network nl.nodes nl.sinks nl.inDegree fun v => !(nl.type v).isControl where
  nodup := List.nodup_range
  closed u _ v hv := List.mem_range.mpr (h.lt hv).2
  degree v _ hroot := inDegree_eq_sum h.mirrored (fun _ _ hv => (h.lt hv).1)
    fun hv => hroot (inDegree_of_root hv)
  unpushed u _ hpushed := by
    obtain ⟨hsources, hsinks⟩ := h.control u (by simpa using hpushed)
    refine ⟨?_, fun v hv => inDegree_of_root (Or.inl (hsinks v hv))⟩
    by_cases hu : u ∈ nl.roots
    · exact inDegree_of_root hu
    · rw [inDegree_of_not_root hu, hsources, List.length_nil]

theorem Sortable.edge_iff (h : nl.Sortable) {u v : NodeId} :
    Kahn.Edge nl.nodes nl.sinks nl.inDegree u v ↔ nl.CutEdge u v := by
  constructor
  · rintro ⟨-, hv, hdegree⟩
    exact ⟨hv, fun hroot => hdegree (inDegree_of_root hroot)⟩
  · rintro ⟨hv, hroot⟩
    refine ⟨List.mem_range.mpr (h.lt hv).1, hv, ?_⟩
    rw [inDegree_of_not_root hroot]
    exact (List.length_pos_of_mem (h.mirrored.mem_iff.mp hv)).ne'

/-- Nothing in the queue is a clock or reset, so no turn ends the program. -/
theorem dequeue_of_ready {done : List NodeId} {s : Kahn.State NodeId}
    (hs : Kahn.Ready nl.nodes nl.sinks nl.inDegree (fun v => !(nl.type v).isControl) done s) :
    nl.dequeue s = some (Kahn.step nl.sinks s) := by
  cases hqueue : s.queue with
  | nil => simp only [Netlist.dequeue, Kahn.step, hqueue]
  | cons n1 rest =>
      have hmem : n1 ∈ done ++ s.queue := by simp [hqueue]
      have hpushed : (nl.type n1).isControl = false := by
        simpa using ((hs.1.mem n1).mp hmem).2.2
      simp only [Netlist.dequeue, hqueue, hpushed, Bool.false_eq_true, if_false]

theorem Sortable.dequeues (h : nl.Sortable) (l : List NodeId) {done : List NodeId}
    {s : Kahn.State NodeId}
    (hs : Kahn.Ready nl.nodes nl.sinks nl.inDegree (fun v => !(nl.type v).isControl) done s) :
    l.foldlM (fun s _ => nl.dequeue s) s = some (Kahn.run nl.sinks l.length s) := by
  induction l generalizing done s with
  | nil => rfl
  | cons i rest ih =>
      obtain ⟨done', hready, -⟩ := Kahn.run_ready h.network 1 hs
      exact Loop.foldlM_cons_eq_some.mpr ⟨_, dequeue_of_ready hs, ih hready⟩

/-- The order computed for a node. -/
def order (nl : Netlist) : NodeId → ℤ :=
  Kahn.orders nl.nodes nl.sinks nl.inDegree fun v => !(nl.type v).isControl

theorem Sortable.topologicalSort (h : nl.Sortable) : nl.topologicalSort = some nl.order := by
  unfold Netlist.topologicalSort
  rw [h.dequeues nl.nodes (Kahn.start_ready h.network)]
  rfl

section Acyclic

variable (h : nl.Sortable) (hacyclic : Walks.Acyclic nl.CutEdge)

include h

theorem Sortable.acyclic_edge (hacyclic : Walks.Acyclic nl.CutEdge) :
    Walks.Acyclic (Kahn.Edge nl.nodes nl.sinks nl.inDegree) :=
  hacyclic.mono fun _ _ => h.edge_iff.mp

theorem Sortable.order_root {v : NodeId} (hv : v ∈ nl.roots) : nl.order v = 0 :=
  Kahn.orders_root h.network (inDegree_of_root hv)

include hacyclic

/-- On a graph without combinational cycles every node gets an order. -/
theorem Sortable.order_nonneg {v : NodeId} (hv : v < nl.size) : 0 ≤ nl.order v :=
  Kahn.orders_nonneg h.network (List.mem_range.mpr hv) ((h.acyclic_edge hacyclic).not_blocked v)

theorem Sortable.walk_le_order {k : ℕ} {u v : NodeId} (hu : u < nl.size)
    (walk : Walks.Walk nl.CutEdge k u v) : (k : ℤ) ≤ nl.order v := by
  have hv : v < nl.size := by
    cases walk with
    | nil => exact hu
    | snoc _ edge => exact (h.lt edge.1).2
  exact Kahn.walk_le_orders h.network (walk.mono fun _ _ => h.edge_iff.mpr) (List.mem_range.mpr hv)
    (h.order_nonneg hacyclic hv)

theorem Sortable.exists_walk {v : NodeId} (hv : v < nl.size) :
    ∃ u, Walks.Walk nl.CutEdge (nl.order v).toNat u v := by
  have hnonneg := h.order_nonneg hacyclic hv
  obtain ⟨u, -, walk⟩ := Kahn.exists_walk_orders h.network (nl.order v).toNat
    (List.mem_range.mpr hv) (Int.toNat_of_nonneg hnonneg).symm
  exact ⟨u, walk.mono fun _ _ => h.edge_iff.mp⟩

/-- Bounding the orders is bounding the walks. -/
theorem Sortable.order_le_iff (T : ℕ) :
    (∀ v < nl.size, nl.order v ≤ T) ↔ Walks.Bounded nl.CutEdge T := by
  constructor
  · intro hT k u v walk
    cases walk with
    | nil => exact Nat.zero_le T
    | @snoc k _ w _ inner edge =>
        have hlt := h.lt edge.1
        have hu : u < nl.size := by
          cases k with
          | zero =>
              cases inner
              exact hlt.1
          | succ k =>
              obtain ⟨_, first, -⟩ := inner.uncons
              exact (h.lt first.1).1
        have hle := h.walk_le_order hacyclic hu (inner.snoc edge)
        have hbound := hT v hlt.2
        omega
  · intro hT v hv
    obtain ⟨u, walk⟩ := h.exists_walk hacyclic hv
    have hle := hT _ u v walk
    have hnonneg := h.order_nonneg hacyclic hv
    omega

end Acyclic

theorem Sortable.getMaxTopologicalOrder (h : nl.Sortable) :
    ∃ m, nl.getMaxTopologicalOrder = some m ∧
      ∀ T : ℤ, m ≤ T ↔ 0 ≤ T ∧ ∀ v < nl.size, nl.order v ≤ T := by
  have hfold : ∀ (l : List NodeId) (m T : ℤ),
      l.foldl (fun m v => max m (nl.order v)) m ≤ T ↔ m ≤ T ∧ ∀ v ∈ l, nl.order v ≤ T := by
    intro l
    induction l with
    | nil => simp
    | cons v rest ih =>
        intro m T
        rw [List.foldl_cons, ih, max_le_iff, List.forall_mem_cons, and_assoc]
  refine ⟨_, by rw [Netlist.getMaxTopologicalOrder, h.topologicalSort]; rfl, fun T => ?_⟩
  rw [hfold]
  simp only [nodes, List.mem_range]

end Netlist

end Artnetgen
