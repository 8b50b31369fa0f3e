import ArtNetGen.TopologicalSort

/-!
`Netlist::topologicalSort` on any netlist, with cycles, parallel edges and
controls that are driven. A node on or behind a cycle keeps the order -1, any
other gets the length of the longest path to it, and no node is enqueued twice.
-/

namespace Artnetgen

namespace Netlist

variable {nl : Netlist}

/-- Both sides of the adjacency agree, the connected nodes are in `nodes_`, and
clock and reset drive registers only. -/
structure Traversable (nl : Netlist) : Prop where
  mirrored : nl.graph.Mirrored
  fresh : ∀ v, nl.size ≤ v → nl.graph.Fresh v
  control : ∀ u, (nl.type u).isControl → ∀ v ∈ nl.sinks u, nl.type v = .sequential

/-- Kept out of the queue are the controls that start with order 0. -/
def enters (nl : Netlist) (v : NodeId) : Bool := !(nl.type v).isControl || nl.inDegree v != 0

theorem start_enters :
    Kahn.start nl.nodes nl.inDegree (fun v => !(nl.type v).isControl) =
      Kahn.start nl.nodes nl.inDegree nl.enters := by
  have hqueue : nl.nodes.filter (fun v => nl.inDegree v == 0 && !(nl.type v).isControl) =
      nl.nodes.filter fun v => nl.inDegree v == 0 && nl.enters v := by
    apply List.filter_congr
    intro v _
    cases hdegree : nl.inDegree v == 0 <;> simp_all [enters]
  rw [Kahn.start, hqueue, Kahn.start]

theorem Traversable.lt (h : nl.Traversable) {u v : NodeId} (hv : v ∈ nl.sinks u) :
    u < nl.size ∧ v < nl.size := by
  constructor <;> by_contra hge
  · have hsinks : nl.sinks u = [] := (h.fresh u (Nat.not_lt.mp hge)).2
    rw [hsinks] at hv
    cases hv
  · exact (h.fresh v (Nat.not_lt.mp hge)).not_mem_sinks h.mirrored u hv

theorem Traversable.network (h : nl.Traversable) :
    Kahn.Network nl.nodes nl.sinks nl.inDegree nl.enters where
  nodup := List.nodup_range
  closed u _ v hv := List.mem_range.mpr (h.lt hv).2
  degree v _ hroot := inDegree_eq_sum h.mirrored (fun _ _ hv => (h.lt hv).1)
    fun hv => hroot (inDegree_of_root hv)
  unpushed u _ hpushed := by
    simp only [enters, Bool.or_eq_false_iff, Bool.not_eq_eq_eq_not, Bool.not_false,
      bne_eq_false_iff_eq] at hpushed
    exact ⟨hpushed.2, fun v hv => inDegree_of_root (Or.inl (h.control u hpushed.1 v hv))⟩

theorem Traversable.edge_iff (h : nl.Traversable) {u v : NodeId} :
    Kahn.Edge nl.nodes nl.sinks nl.inDegree u v ↔ nl.CutEdge u v := by
  constructor
  · rintro ⟨-, hv, hdegree⟩
    exact ⟨hv, fun hroot => hdegree (inDegree_of_root hroot)⟩
  · rintro ⟨hv, hroot⟩
    refine ⟨List.mem_range.mpr (h.lt hv).1, hv, ?_⟩
    rw [inDegree_of_not_root hroot]
    exact (List.length_pos_of_mem (h.mirrored.mem_iff.mp hv)).ne'

theorem Traversable.blocked_iff (h : nl.Traversable) {v : NodeId} :
    Walks.Blocked (Kahn.Edge nl.nodes nl.sinks nl.inDegree) v ↔ Walks.Blocked nl.CutEdge v := by
  have hedges : Kahn.Edge nl.nodes nl.sinks nl.inDegree = nl.CutEdge :=
    funext fun _ => funext fun _ => propext h.edge_iff
  rw [hedges]

/-! ## The loop, turn by turn -/

/-- The state after `k` turns. -/
def sortState (nl : Netlist) (k : ℕ) : Option (Kahn.State NodeId) :=
  (List.range k).foldlM (fun s _ => nl.dequeue s)
    (Kahn.start nl.nodes nl.inDegree fun v => !(nl.type v).isControl)

/-- The nodes that have left the queue in the first `k` turns. -/
def dequeued (nl : Netlist) (k : ℕ) : List NodeId :=
  (List.range k).flatMap fun i => ((nl.sortState i).bind fun s => s.queue.head?).toList

theorem sortState_succ (k : ℕ) : nl.sortState (k + 1) = (nl.sortState k).bind nl.dequeue := by
  unfold sortState
  rw [List.range_succ, List.foldlM_append]
  simp

theorem topologicalSort_eq : nl.topologicalSort = (nl.sortState nl.size).map (·.order) := rfl

/-- After `k` turns the traversal is in order, and nothing that left the queue
was a control. -/
theorem Traversable.ready (h : nl.Traversable) {k : ℕ} {s : Kahn.State NodeId}
    (hs : nl.sortState k = some s) :
    Kahn.Ready nl.nodes nl.sinks nl.inDegree nl.enters (nl.dequeued k) s ∧
      (∀ v ∈ nl.dequeued k, (nl.type v).isControl = false) ∧
      (s.queue = [] ∨ (nl.dequeued k).length = k) := by
  induction k generalizing s with
  | zero =>
      obtain rfl := Option.some.inj hs
      rw [start_enters]
      exact ⟨Kahn.start_ready h.network, nofun, Or.inr rfl⟩
  | succ k ih =>
      rw [sortState_succ] at hs
      obtain ⟨mid, hmid, hstep⟩ := Option.bind_eq_some_iff.mp hs
      obtain ⟨hready, hcontrol, hlength⟩ := ih hmid
      have hnext : nl.dequeued (k + 1) = nl.dequeued k ++ mid.queue.head?.toList := by
        unfold dequeued
        rw [List.range_succ, List.flatMap_append]
        simp [hmid]
      rw [hnext]
      cases hqueue : mid.queue with
      | nil =>
          obtain rfl : mid = s := by simpa [dequeue, hqueue] using hstep
          simp only [List.head?_nil, Option.toList_none, List.append_nil]
          exact ⟨hready, hcontrol, Or.inl hqueue⟩
      | cons n1 rest =>
          simp only [dequeue, hqueue] at hstep
          split at hstep
          · cases hstep
          · next hn1 =>
              obtain rfl := Option.some.inj hstep
              refine ⟨Kahn.step_ready h.network hready hqueue, ?_, Or.inr ?_⟩
              · intro v hv
                rcases List.mem_append.mp hv with hv | hv
                · exact hcontrol v hv
                · obtain rfl : v = n1 := by simpa using hv
                  simpa using hn1
              · have hlen := hlength.resolve_left (by simp [hqueue])
                simp [hlen]

/-- The loop is over after one turn for each node. -/
theorem Traversable.finished (h : nl.Traversable) {s : Kahn.State NodeId}
    (hs : nl.sortState nl.size = some s) : s.queue = [] := by
  obtain ⟨hready, -, hlength⟩ := h.ready hs
  apply hlength.elim id
  intro hlen
  have hsub : nl.dequeued nl.size ++ s.queue ⊆ nl.nodes := fun v hv =>
    ((hready.1.mem v).mp hv).1
  have hle := (hready.1.nodup.subperm hsub).length_le
  rw [List.length_append, hlen, nodes, List.length_range] at hle
  exact List.length_eq_zero_iff.mp (by omega)

/-- A turn that does not end the program is a step of the traversal. -/
theorem sortState_eq_run {k : ℕ} {s : Kahn.State NodeId} (hs : nl.sortState k = some s) :
    s = Kahn.run nl.sinks k (Kahn.start nl.nodes nl.inDegree nl.enters) := by
  induction k generalizing s with
  | zero =>
      rw [← start_enters]
      exact (Option.some.inj hs).symm
  | succ k ih =>
      rw [sortState_succ] at hs
      obtain ⟨mid, hmid, hstep⟩ := Option.bind_eq_some_iff.mp hs
      rw [Kahn.run_succ, ← ih hmid]
      cases hqueue : mid.queue with
      | nil =>
          obtain rfl : mid = s := by simpa [dequeue, hqueue] using hstep
          simp [Kahn.step, hqueue]
      | cons n1 rest =>
          simp only [dequeue, hqueue] at hstep
          split at hstep
          · cases hstep
          · exact (Option.some.inj hstep).symm

/-! ## What is returned -/

theorem Traversable.eq_orders {order : NodeId → ℤ} (horder : nl.topologicalSort = some order) :
    order = Kahn.orders nl.nodes nl.sinks nl.inDegree nl.enters := by
  rw [topologicalSort_eq, Option.map_eq_some_iff] at horder
  obtain ⟨s, hs, rfl⟩ := horder
  have hlength : nl.nodes.length = nl.size := List.length_range
  rw [sortState_eq_run hs, Kahn.orders, hlength]

/-- The program is not ended exactly when every control that is driven is
blocked. -/
theorem Traversable.isSome_iff (h : nl.Traversable) :
    nl.topologicalSort.isSome = true ↔
      ∀ u < nl.size, (nl.type u).isControl = true → nl.sources u ≠ [] →
        Walks.Blocked nl.CutEdge u := by
  have hdegree : ∀ u, (nl.type u).isControl = true → (nl.inDegree u ≠ 0 ↔ nl.sources u ≠ []) := by
    intro u hu
    have hnot : u ∉ nl.roots := by
      rintro (hroot | hroot) <;> rw [hroot] at hu <;> cases hu
    rw [inDegree_of_not_root hnot, ← List.length_pos_iff_ne_nil, Nat.pos_iff_ne_zero]
  constructor
  · intro hsome u hu hcontrol hsources
    by_contra hblocked
    rw [topologicalSort_eq, Option.isSome_map] at hsome
    obtain ⟨s, hs⟩ := Option.isSome_iff_exists.mp hsome
    obtain ⟨hready, hdequeued, -⟩ := h.ready hs
    -- It has been released, and by the end whatever was released has been dequeued.
    have hnonneg := Kahn.orders_nonneg h.network (List.mem_range.mpr hu)
      (mt h.blocked_iff.mp hblocked)
    have horder : nl.topologicalSort = some s.order := by rw [topologicalSort_eq, hs]; rfl
    rw [← Traversable.eq_orders horder] at hnonneg
    have hzero : s.inDegree u = 0 := by
      by_contra hne
      rw [hready.1.waiting u hne] at hnonneg
      omega
    have hin : u ∈ nl.dequeued nl.size ++ s.queue := (hready.1.mem u).mpr
      ⟨List.mem_range.mpr hu, hzero, by simp [enters, (hdegree u hcontrol).mpr hsources]⟩
    rw [h.finished hs, List.append_nil] at hin
    have hnot := hdequeued u hin
    rw [hcontrol] at hnot
    cases hnot
  · intro hall
    rw [topologicalSort_eq, Option.isSome_map]
    suffices hdefined : ∀ k, ∃ s, nl.sortState k = some s from
      Option.isSome_iff_exists.mpr (hdefined nl.size)
    intro k
    induction k with
    | zero => exact ⟨_, rfl⟩
    | succ k ih =>
        obtain ⟨s, hs⟩ := ih
        rw [sortState_succ, hs]
        obtain ⟨hready, -, -⟩ := h.ready hs
        cases hqueue : s.queue with
        | nil => exact ⟨s, by simp [dequeue, hqueue]⟩
        | cons n1 rest =>
            obtain ⟨hmem, hzero, henters⟩ := (hready.1.mem n1).mp (by simp [hqueue])
            have hcontrol : (nl.type n1).isControl = false := by
              by_contra hcontrol
              rw [Bool.not_eq_false] at hcontrol
              have hne : nl.inDegree n1 ≠ 0 := by simpa [enters, hcontrol] using henters
              apply hready.1.not_blocked hmem hzero
              apply h.blocked_iff.mpr
              exact hall n1 (List.mem_range.mp hmem) hcontrol ((hdegree n1 hcontrol).mp hne)
            exact ⟨Kahn.step nl.sinks s, by simp [dequeue, hqueue, hcontrol]⟩

section Orders

variable {order : NodeId → ℤ} {v : NodeId}

theorem Traversable.order_root (h : nl.Traversable) (horder : nl.topologicalSort = some order)
    (hv : nl.type v = .sequential ∨ nl.type v = .primaryIn ∨ nl.sources v = []) : order v = 0 := by
  rw [Traversable.eq_orders horder]
  apply Kahn.orders_root h.network
  rw [← or_assoc] at hv
  by_cases hroot : v ∈ nl.roots
  · exact inDegree_of_root hroot
  · rw [inDegree_of_not_root hroot, hv.resolve_left hroot, List.length_nil]

theorem Traversable.order_blocked (h : nl.Traversable) (horder : nl.topologicalSort = some order)
    (hv : v < nl.size) (hblocked : Walks.Blocked nl.CutEdge v) : order v = -1 := by
  rw [Traversable.eq_orders horder]
  exact Kahn.orders_blocked h.network (List.mem_range.mpr hv) (h.blocked_iff.mpr hblocked)

variable (h : nl.Traversable) (horder : nl.topologicalSort = some order) (hv : v < nl.size)
  (hfree : ¬ Walks.Blocked nl.CutEdge v)

include h horder hv hfree

theorem Traversable.order_nonneg : 0 ≤ order v := by
  rw [Traversable.eq_orders horder]
  exact Kahn.orders_nonneg h.network (List.mem_range.mpr hv) (mt h.blocked_iff.mp hfree)

theorem Traversable.order_longest :
    ∃ n : ℕ, order v = n ∧ (∃ u, Walks.Walk nl.CutEdge n u v) ∧
      ∀ k u, Walks.Walk nl.CutEdge k u v → k ≤ n := by
  have hnonneg := h.order_nonneg horder hv hfree
  obtain ⟨n, hn⟩ := Int.eq_ofNat_of_zero_le hnonneg
  have heq := Traversable.eq_orders horder
  rw [heq] at hn hnonneg
  obtain ⟨u, -, walk⟩ := Kahn.exists_walk_orders h.network n (List.mem_range.mpr hv) hn
  refine ⟨n, heq ▸ hn, ⟨u, walk.mono fun _ _ => h.edge_iff.mp⟩, fun k u hwalk => ?_⟩
  have hle := Kahn.walk_le_orders h.network (hwalk.mono fun _ _ => h.edge_iff.mpr)
    (List.mem_range.mpr hv) hnonneg
  omega

theorem Traversable.order_sources (hseq : nl.type v ≠ .sequential)
    (hin : nl.type v ≠ .primaryIn) (hsources : nl.sources v ≠ []) :
    (∃ u ∈ nl.sources v, order v = order u + 1) ∧ ∀ u ∈ nl.sources v, order u + 1 ≤ order v := by
  have hnot : v ∉ nl.roots := fun hroot => hroot.elim hseq hin
  have hnonneg := h.order_nonneg horder hv hfree
  have hdegree : nl.inDegree v ≠ 0 := by
    rw [inDegree_of_not_root hnot]
    exact (List.length_pos_iff_ne_nil.mpr hsources).ne'
  rw [Traversable.eq_orders horder] at hnonneg ⊢
  rcases Kahn.orders_cases h.network (List.mem_range.mpr hv) hdegree with
    ⟨hneg, -⟩ | ⟨⟨u, hedge, heq⟩, hall⟩
  · rw [hneg] at hnonneg
    cases hnonneg
  · refine ⟨⟨u, h.mirrored.mem_iff.mp hedge.2.1, heq⟩, fun w hw => (hall w ?_).2⟩
    exact h.edge_iff.mpr ⟨h.mirrored.mem_iff.mpr hw, hnot⟩

end Orders

end Netlist

/-- The returned orders are the lengths of the longest paths. -/
theorem Netlist.topologicalSort_longest (nl : Netlist) (h : nl.Traversable) :
    (nl.topologicalSort.isSome = true ↔
      ∀ u < nl.size, (nl.type u).isControl = true → nl.sources u ≠ [] →
        Walks.Blocked nl.CutEdge u) ∧
    (∀ order, nl.topologicalSort = some order → ∀ v < nl.size,
      (Walks.Blocked nl.CutEdge v → order v = -1) ∧
      (¬ Walks.Blocked nl.CutEdge v →
        (∃ n : ℕ, order v = n ∧ (∃ u, Walks.Walk nl.CutEdge n u v) ∧
          ∀ k u, Walks.Walk nl.CutEdge k u v → k ≤ n) ∧
        (nl.type v = .sequential ∨ nl.type v = .primaryIn ∨ nl.sources v = [] → order v = 0) ∧
        (nl.type v ≠ .sequential → nl.type v ≠ .primaryIn → nl.sources v ≠ [] →
          (∃ u ∈ nl.sources v, order v = order u + 1) ∧
            ∀ u ∈ nl.sources v, order u + 1 ≤ order v))) ∧
    ∀ k s, nl.sortState k = some s →
      (nl.dequeued k ++ s.queue).Nodup ∧ (k = nl.size → s.queue = []) := by
  refine ⟨h.isSome_iff, fun order horder v hv => ⟨h.order_blocked horder hv, fun hfree => ?_⟩,
    fun k s hs => ?_⟩
  · exact ⟨h.order_longest horder hv hfree, h.order_root horder,
      h.order_sources horder hv hfree⟩
  · refine ⟨(h.ready hs).1.1.nodup, fun hk => ?_⟩
    subst hk
    exact h.finished hs

/-! An input that drives one gate twice, next to two gates that drive each
other. -/

def looped : Netlist where
  layoutDimX := 1
  layoutDimY := 1
  size := 4
  node := fun
    | 0 => { type := .primaryIn, sinks := [1, 1] }
    | 1 => { sources := [0, 0] }
    | 2 => { sources := [3], sinks := [3] }
    | 3 => { sources := [2], sinks := [2] }
    | _ => {}

theorem looped_control (u : NodeId) : (looped.type u).isControl = false := by
  rcases u with _ | _ | _ | _ | u <;> rfl

theorem looped_traversable : looped.Traversable := by
  refine ⟨fun u v => ?_, fun v hv => ?_, fun u hu => ?_⟩
  · rcases u with _ | _ | _ | _ | u <;> rcases v with _ | _ | _ | _ | v <;> rfl
  · obtain ⟨k, rfl⟩ := Nat.exists_eq_add_of_le' hv
    exact ⟨rfl, rfl⟩
  · rw [looped_control] at hu
    cases hu

theorem Netlist.topologicalSort_longest_looped :
    ∃ order, looped.topologicalSort = some order ∧ order 2 = -1 := by
  obtain ⟨hsome, horders, -⟩ := Netlist.topologicalSort_longest looped looped_traversable
  obtain ⟨order, horder⟩ := Option.isSome_iff_exists.mp (hsome.mpr fun u _ hu => by
    rw [looped_control] at hu
    cases hu)
  have hforth : looped.CutEdge 2 3 := ⟨by decide, by rintro (h | h) <;> cases h⟩
  have hback : looped.CutEdge 3 2 := ⟨by decide, by rintro (h | h) <;> cases h⟩
  exact ⟨order, horder, (horders order horder 2 (by decide)).1
    ⟨2, .tail (.single hforth) hback, .refl⟩⟩

end Artnetgen
