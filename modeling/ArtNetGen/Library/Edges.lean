import ArtNetGen.Library.Adjacency

/-!
The adjacency that a list of edges builds, each edge being appended to the
sources of its head and to the sinks of its tail.
-/

namespace Adjacency

variable {α : Type*} [DecidableEq α]

/-- Both sides of one new edge. -/
def link (g : Adjacency α) (e : α × α) : Adjacency α := (g.addSource e.2 e.1).addSink e.1 e.2

def ofEdges (edges : List (α × α)) : Adjacency α :=
  edges.foldl link ⟨fun _ => [], fun _ => []⟩

theorem link_sources (g : Adjacency α) (e : α × α) (v : α) :
    (g.link e).sources v = if e.2 = v then g.sources v ++ [e.1] else g.sources v := by
  by_cases hv : e.2 = v
  · simp [link, addSource, addSink, hv]
  · simp [link, addSource, addSink, hv, Ne.symm hv]

theorem link_sinks (g : Adjacency α) (e : α × α) (u : α) :
    (g.link e).sinks u = if e.1 = u then g.sinks u ++ [e.2] else g.sinks u := by
  by_cases hu : e.1 = u
  · simp [link, addSource, addSink, hu]
  · simp [link, addSource, addSink, hu, Ne.symm hu]

theorem foldl_link_sources (edges : List (α × α)) (g : Adjacency α) (v : α) :
    (edges.foldl link g).sources v =
      g.sources v ++ (edges.filter fun e => e.2 = v).map Prod.fst := by
  induction edges generalizing g with
  | nil => simp
  | cons e rest ih =>
      rw [List.foldl_cons, ih, link_sources, List.filter_cons]
      by_cases hv : e.2 = v <;> simp [hv]

theorem foldl_link_sinks (edges : List (α × α)) (g : Adjacency α) (u : α) :
    (edges.foldl link g).sinks u =
      g.sinks u ++ (edges.filter fun e => e.1 = u).map Prod.snd := by
  induction edges generalizing g with
  | nil => simp
  | cons e rest ih =>
      rw [List.foldl_cons, ih, link_sinks, List.filter_cons]
      by_cases hu : e.1 = u <;> simp [hu]

theorem ofEdges_sources (edges : List (α × α)) (v : α) :
    (ofEdges edges).sources v = (edges.filter fun e => e.2 = v).map Prod.fst := by
  unfold ofEdges
  rw [foldl_link_sources, List.nil_append]

theorem ofEdges_sinks (edges : List (α × α)) (u : α) :
    (ofEdges edges).sinks u = (edges.filter fun e => e.1 = u).map Prod.snd := by
  unfold ofEdges
  rw [foldl_link_sinks, List.nil_append]

theorem mem_ofEdges_sources {edges : List (α × α)} {u v : α} :
    u ∈ (ofEdges edges).sources v ↔ (u, v) ∈ edges := by
  rw [ofEdges_sources]
  simp

theorem mem_ofEdges_sinks {edges : List (α × α)} {u v : α} :
    v ∈ (ofEdges edges).sinks u ↔ (u, v) ∈ edges := by
  rw [ofEdges_sinks]
  simp

/-- Both sides count the occurrences of the edge. -/
theorem ofEdges_mirrored (edges : List (α × α)) : (ofEdges edges).Mirrored := by
  intro u v
  rw [ofEdges_sinks, ofEdges_sources]
  induction edges with
  | nil => rfl
  | cons e rest ih =>
      obtain ⟨a, b⟩ := e
      rw [List.filter_cons, List.filter_cons]
      by_cases ha : a = u <;> by_cases hb : b = v <;>
        simp [ha, hb, ih]

end Adjacency
