import Mathlib.Data.List.Nodup
import Mathlib.Logic.Function.Iterate

/-!
A directed graph kept as two lists per vertex, the way pointer-based netlists
keep it: the vertices driving a vertex and the vertices it drives. The editing
operations are the one-sided and two-sided insertions and removals such code
uses. Nothing makes the two sides agree; `Mirrored` says that they do, counted
with multiplicity, and the lemmas say how every operation moves the counts.

Sources and sinks are exchanged by `flip`. Every operation on the sink side is
the flip of one on the source side, so each fact is proved once.
-/

structure Adjacency (α : Type*) where
  sources : α → List α
  sinks : α → List α

namespace Adjacency

variable {α : Type*}

def flip (g : Adjacency α) : Adjacency α := ⟨g.sinks, g.sources⟩

@[simp] theorem flip_sources (g : Adjacency α) : g.flip.sources = g.sinks := rfl
@[simp] theorem flip_sinks (g : Adjacency α) : g.flip.sinks = g.sources := rfl
@[simp] theorem flip_flip (g : Adjacency α) : g.flip.flip = g := rfl

variable [DecidableEq α]

/-- One-sided insertion: `source` becomes the last source of `node`. -/
def addSource (g : Adjacency α) (node source : α) : Adjacency α :=
  { g with sources := Function.update g.sources node (g.sources node ++ [source]) }

def addSink (g : Adjacency α) (node sink : α) : Adjacency α :=
  { g with sinks := Function.update g.sinks node (g.sinks node ++ [sink]) }

/-- One-sided removal of the first occurrence. -/
def removeSource (g : Adjacency α) (node target : α) : Adjacency α :=
  { g with sources := Function.update g.sources node ((g.sources node).erase target) }

def removeSink (g : Adjacency α) (node target : α) : Adjacency α :=
  { g with sinks := Function.update g.sinks node ((g.sinks node).erase target) }

/-- Two-sided insertion of a list of sources. -/
def addSources (g : Adjacency α) (node : α) (sources : List α) : Adjacency α :=
  sources.foldl (fun g source => (g.addSource node source).addSink source node) g

def addSinks (g : Adjacency α) (node : α) (sinks : List α) : Adjacency α :=
  sinks.foldl (fun g sink => (g.addSink node sink).addSource sink node) g

/-- Every source forgets `node` once for each time it is listed, then the list
is cleared. -/
def removeAllSources (g : Adjacency α) (node : α) : Adjacency α :=
  let g' := (g.sources node).foldl (fun g source => g.removeSink source node) g
  { g' with sources := Function.update g'.sources node [] }

def removeAllSinks (g : Adjacency α) (node : α) : Adjacency α :=
  let g' := (g.sinks node).foldl (fun g sink => g.removeSource sink node) g
  { g' with sinks := Function.update g'.sinks node [] }

/-- Insert `node` in front of all of `targets`: it takes over the sources
`collected`, drives every target, and becomes the only source of each. -/
def spliceFront (g : Adjacency α) (collected targets : List α) (node : α) : Adjacency α :=
  let g := g.addSources node collected
  let g := targets.foldl (fun g target => g.addSink node target) g
  let g := targets.foldl (fun g target => g.removeAllSources target) g
  targets.foldl (fun g target => g.addSource target node) g

/-- The mirror image: `node` takes over the sinks `collected` and becomes the
only sink of every target. -/
def spliceBack (g : Adjacency α) (collected targets : List α) (node : α) : Adjacency α :=
  let g := g.addSinks node collected
  let g := targets.foldl (fun g target => g.addSource node target) g
  let g := targets.foldl (fun g target => g.removeAllSinks target) g
  targets.foldl (fun g target => g.addSink target node) g

/-! Flipping commutes with every operation. -/

theorem flip_addSource (g : Adjacency α) (node source : α) :
    (g.addSource node source).flip = g.flip.addSink node source := rfl

theorem flip_addSink (g : Adjacency α) (node sink : α) :
    (g.addSink node sink).flip = g.flip.addSource node sink := rfl

theorem flip_removeSource (g : Adjacency α) (node target : α) :
    (g.removeSource node target).flip = g.flip.removeSink node target := rfl

omit [DecidableEq α] in
theorem flip_foldl {β : Type*} (f f' : Adjacency α → β → Adjacency α)
    (h : ∀ g x, (f g x).flip = f' g.flip x) (l : List β) (g : Adjacency α) :
    (l.foldl f g).flip = l.foldl f' g.flip := by
  induction l generalizing g with
  | nil => rfl
  | cons x rest ih => simp only [List.foldl_cons, ih, h]

theorem flip_addSinks (g : Adjacency α) (node : α) (sinks : List α) :
    (g.addSinks node sinks).flip = g.flip.addSources node sinks :=
  flip_foldl _ _ (fun g sink => by rw [flip_addSource, flip_addSink]) sinks g

theorem flip_removeAllSinks (g : Adjacency α) (node : α) :
    (g.removeAllSinks node).flip = g.flip.removeAllSources node := by
  have hfold := flip_foldl (fun g sink => g.removeSource sink node)
    (fun g source => g.removeSink source node) (fun g sink => flip_removeSource g sink node)
    (g.sinks node) g
  simp only [removeAllSinks, removeAllSources, flip_sources, ← hfold]
  rfl

theorem flip_spliceBack (g : Adjacency α) (collected targets : List α) (node : α) :
    (g.spliceBack collected targets node).flip =
      g.flip.spliceFront collected targets node := by
  simp only [spliceBack, spliceFront]
  rw [flip_foldl _ (fun g target => g.addSource target node)
      (fun g target => flip_addSink g target node),
    flip_foldl _ (fun g target => g.removeAllSources target)
      (fun g target => flip_removeAllSinks g target),
    flip_foldl _ (fun g target => g.addSink node target)
      (fun g target => flip_addSource g node target),
    flip_addSinks]

/-! What the operations do to the lists. -/

@[simp] theorem addSource_sinks (g : Adjacency α) (node source : α) :
    (g.addSource node source).sinks = g.sinks := rfl

@[simp] theorem addSink_sources (g : Adjacency α) (node sink : α) :
    (g.addSink node sink).sources = g.sources := rfl

theorem addSource_sources (g : Adjacency α) (node source v : α) :
    (g.addSource node source).sources v =
      if v = node then g.sources v ++ [source] else g.sources v := by
  by_cases h : v = node <;> simp [addSource, h]

theorem addSink_sinks (g : Adjacency α) (node sink u : α) :
    (g.addSink node sink).sinks u =
      if u = node then g.sinks u ++ [sink] else g.sinks u := by
  by_cases h : u = node <;> simp [addSink, h]

theorem addSources_sources (g : Adjacency α) (node : α) (sources : List α) (v : α) :
    (g.addSources node sources).sources v =
      if v = node then g.sources v ++ sources else g.sources v := by
  induction sources generalizing g with
  | nil => simp [addSources]
  | cons source rest ih =>
      simp only [addSources, List.foldl_cons] at ih ⊢
      rw [ih, addSink_sources, addSource_sources]
      split <;> simp

theorem addSources_sinks (g : Adjacency α) (node : α) (sources : List α) (u : α) :
    (g.addSources node sources).sinks u =
      g.sinks u ++ List.replicate (sources.count u) node := by
  induction sources generalizing g with
  | nil => simp [addSources]
  | cons source rest ih =>
      simp only [addSources, List.foldl_cons] at ih ⊢
      rw [ih, addSink_sinks, addSource_sinks]
      by_cases h : u = source
      · subst h
        rw [if_pos rfl, List.count_cons_self, List.append_assoc]
        simp [List.replicate_succ]
      · rw [if_neg h, List.count_cons_of_ne (Ne.symm h)]

theorem removeSinks_sources (g : Adjacency α) (node : α) (l : List α) :
    (l.foldl (fun g source => g.removeSink source node) g).sources = g.sources := by
  induction l generalizing g with
  | nil => rfl
  | cons source rest ih => exact (ih _).trans rfl

theorem removeSinks_sinks (g : Adjacency α) (node : α) (l : List α) (u : α) :
    (l.foldl (fun g source => g.removeSink source node) g).sinks u =
      (fun sinks => sinks.erase node)^[l.count u] (g.sinks u) := by
  induction l generalizing g with
  | nil => rfl
  | cons source rest ih =>
      simp only [List.foldl_cons]
      rw [ih]
      by_cases h : u = source
      · subst h
        rw [List.count_cons_self, Function.iterate_succ_apply]
        simp [removeSink]
      · rw [List.count_cons_of_ne (Ne.symm h)]
        simp [removeSink, h]

theorem removeAllSources_sources (g : Adjacency α) (node v : α) :
    (g.removeAllSources node).sources v = if v = node then [] else g.sources v := by
  simp only [removeAllSources, removeSinks_sources, Function.update_apply]

theorem removeAllSources_sinks (g : Adjacency α) (node u : α) :
    (g.removeAllSources node).sinks u =
      (fun sinks => sinks.erase node)^[(g.sources node).count u] (g.sinks u) :=
  removeSinks_sinks g node (g.sources node) u

theorem count_iterate_erase (l : List α) (a v : α) (n : ℕ) :
    ((fun l => l.erase a)^[n] l).count v = l.count v - if v = a then n else 0 := by
  induction n generalizing l with
  | zero => simp
  | succ n ih =>
      rw [Function.iterate_succ_apply, ih]
      by_cases h : v = a
      · subst h
        simp only [List.count_erase_self, if_true]
        omega
      · simp [h, List.count_erase_of_ne h]

/-! Splicing. `spliceFront` is described by the exact source lists and by the
multiplicities in the sink lists, which is all that mirroring needs. -/

theorem foldl_addSink_sources (g : Adjacency α) (node : α) (l : List α) :
    (l.foldl (fun g target => g.addSink node target) g).sources = g.sources := by
  induction l generalizing g with
  | nil => rfl
  | cons target rest ih => exact (ih _).trans rfl

theorem foldl_addSink_sinks (g : Adjacency α) (node : α) (l : List α) (u : α) :
    (l.foldl (fun g target => g.addSink node target) g).sinks u =
      if u = node then g.sinks u ++ l else g.sinks u := by
  induction l generalizing g with
  | nil => simp
  | cons target rest ih =>
      simp only [List.foldl_cons]
      rw [ih, addSink_sinks]
      split <;> simp

theorem foldl_addSource_sinks (g : Adjacency α) (node : α) (l : List α) :
    (l.foldl (fun g target => g.addSource target node) g).sinks = g.sinks := by
  induction l generalizing g with
  | nil => rfl
  | cons target rest ih => exact (ih _).trans rfl

theorem foldl_addSource_sources (g : Adjacency α) (node : α) (l : List α) (v : α) :
    (l.foldl (fun g target => g.addSource target node) g).sources v =
      g.sources v ++ List.replicate (l.count v) node := by
  induction l generalizing g with
  | nil => simp
  | cons target rest ih =>
      simp only [List.foldl_cons]
      rw [ih, addSource_sources]
      by_cases h : v = target
      · subst h
        rw [if_pos rfl, List.count_cons_self, List.append_assoc]
        simp [List.replicate_succ]
      · rw [if_neg h, List.count_cons_of_ne (Ne.symm h)]

theorem foldl_removeAllSources_sources (g : Adjacency α) (l : List α) (v : α) :
    (l.foldl (fun g target => g.removeAllSources target) g).sources v =
      if v ∈ l then [] else g.sources v := by
  induction l generalizing g with
  | nil => simp
  | cons target rest ih =>
      simp only [List.foldl_cons]
      rw [ih, removeAllSources_sources]
      by_cases hrest : v ∈ rest
      · simp [hrest]
      · by_cases h : v = target <;> simp [h, hrest]

/-- Distinct targets lose, at every vertex, exactly the multiplicity with which
they list that vertex as a source. -/
theorem count_foldl_removeAllSources_sinks (g : Adjacency α) (l : List α)
    (hl : l.Nodup) (u v : α) :
    ((l.foldl (fun g target => g.removeAllSources target) g).sinks u).count v =
      (g.sinks u).count v - if v ∈ l then (g.sources v).count u else 0 := by
  induction l generalizing g with
  | nil => simp
  | cons target rest ih =>
      obtain ⟨hfresh, hrest⟩ := List.nodup_cons.mp hl
      simp only [List.foldl_cons]
      rw [ih _ hrest, removeAllSources_sinks, count_iterate_erase,
        removeAllSources_sources]
      by_cases h : v = target
      · subst h
        simp [hfresh]
      · simp [h]

theorem spliceFront_sources (g : Adjacency α) (collected targets : List α)
    (node v : α) (hnode : g.sources node = []) (hl : targets.Nodup)
    (hnot : node ∉ targets) :
    (g.spliceFront collected targets node).sources v =
      if v = node then collected else if v ∈ targets then [node] else g.sources v := by
  simp only [spliceFront, foldl_addSource_sources, foldl_removeAllSources_sources,
    foldl_addSink_sources, addSources_sources]
  by_cases hv : v = node
  · subst hv
    simp [hnot, hnode, List.count_eq_zero_of_not_mem hnot]
  · by_cases hmem : v ∈ targets
    · simp [hv, hmem, List.count_eq_one_of_mem hl hmem]
    · simp [hv, hmem, List.count_eq_zero_of_not_mem hmem]

theorem count_spliceFront_sinks (g : Adjacency α) (collected targets : List α)
    (node u v : α) (hl : targets.Nodup) (hnot : node ∉ targets) :
    ((g.spliceFront collected targets node).sinks u).count v =
      (g.sinks u).count v + (if v = node then collected.count u else 0) +
          (if u = node then targets.count v else 0) -
        if v ∈ targets then (g.sources v).count u else 0 := by
  have hsources : ∀ v ∈ targets, (g.addSources node collected).sources v = g.sources v := by
    intro v hv
    have hne : v ≠ node := fun h => hnot (h ▸ hv)
    simp [addSources_sources, hne]
  simp only [spliceFront, foldl_addSource_sinks]
  rw [count_foldl_removeAllSources_sinks _ _ hl, foldl_addSink_sinks,
    foldl_addSink_sources, addSources_sinks]
  have hbefore : (List.replicate (collected.count u) node).count v =
      if v = node then collected.count u else 0 := by
    by_cases hv : v = node
    · simp [hv]
    · simp [hv, List.count_replicate, Ne.symm hv]
  have hafter : (if u = node then g.sinks u ++ List.replicate (collected.count u) node ++ targets
        else g.sinks u ++ List.replicate (collected.count u) node).count v =
      (g.sinks u).count v + (if v = node then collected.count u else 0) +
        (if u = node then targets.count v else 0) := by
    split <;> simp only [List.count_append, hbefore, Nat.add_zero]
  rw [hafter]
  by_cases hmem : v ∈ targets
  · rw [hsources v hmem]
  · simp [hmem]

/-! ## Mirrored adjacency -/

/-- Both sides list every edge equally often. -/
def Mirrored (g : Adjacency α) : Prop :=
  ∀ u v, (g.sinks u).count v = (g.sources v).count u

/-- A vertex no list mentions and whose own lists are empty. -/
def Fresh (g : Adjacency α) (node : α) : Prop :=
  g.sources node = [] ∧ g.sinks node = []

/-- Mirrored, without parallel edges and without self-loops. -/
structure Simple (g : Adjacency α) : Prop where
  mirrored : g.Mirrored
  simple : ∀ u v, (g.sinks u).count v ≤ 1
  irreflexive : ∀ u, u ∉ g.sinks u

theorem Mirrored.flip {g : Adjacency α} (h : g.Mirrored) : g.flip.Mirrored :=
  fun u v => (h v u).symm

theorem Mirrored.mem_iff {g : Adjacency α} (h : g.Mirrored) {u v : α} :
    v ∈ g.sinks u ↔ u ∈ g.sources v := by
  rw [← List.count_pos_iff, ← List.count_pos_iff, h u v]

theorem Simple.flip {g : Adjacency α} (h : g.Simple) : g.flip.Simple where
  mirrored := h.mirrored.flip
  simple u v := by
    simpa only [flip_sinks, ← h.mirrored v u] using h.simple v u
  irreflexive u hu := h.irreflexive u (h.mirrored.mem_iff.mpr hu)

theorem Simple.sinks_nodup {g : Adjacency α} (h : g.Simple) (u : α) :
    (g.sinks u).Nodup :=
  List.nodup_iff_count_le_one.mpr (h.simple u)

theorem Simple.sources_nodup {g : Adjacency α} (h : g.Simple) (v : α) :
    (g.sources v).Nodup :=
  h.flip.sinks_nodup v

omit [DecidableEq α] in
theorem Fresh.flip {g : Adjacency α} {node : α} (h : g.Fresh node) :
    g.flip.Fresh node := ⟨h.2, h.1⟩

theorem Fresh.count_sinks {g : Adjacency α} {node : α} (h : g.Fresh node)
    (hg : g.Mirrored) (u : α) : (g.sinks u).count node = 0 := by
  rw [hg u node, h.1, List.count_nil]

theorem Fresh.count_sources {g : Adjacency α} {node : α} (h : g.Fresh node)
    (hg : g.Mirrored) (v : α) : (g.sources v).count node = 0 := by
  rw [← hg node v, h.2, List.count_nil]

/-! The sink lists of a splice. -/

theorem iterate_erase_cons_of_ne {a b : α} (h : b ≠ a) (l : List α) (n : ℕ) :
    (fun l => l.erase a)^[n] (b :: l) = b :: (fun l => l.erase a)^[n] l := by
  induction n generalizing l with
  | zero => rfl
  | succ n ih =>
      rw [Function.iterate_succ_apply, Function.iterate_succ_apply,
        List.erase_cons_tail (by simpa using h), ih]

theorem iterate_erase_count (l : List α) (a : α) :
    (fun l => l.erase a)^[l.count a] l = l.filter fun b => decide (b ≠ a) := by
  induction l with
  | nil => rfl
  | cons b rest ih =>
      by_cases h : b = a
      · subst h
        rw [List.count_cons_self, Function.iterate_succ_apply, List.erase_cons_head, ih,
          List.filter_cons_of_neg (by simp)]
      · rw [List.count_cons_of_ne h, iterate_erase_cons_of_ne h, ih,
          List.filter_cons_of_pos (by simpa using h)]

/-- If every target lists `u` as often as `u` lists the target, all targets are
struck off the list. -/
theorem foldl_removeAllSources_sinks (g : Adjacency α) {l : List α} (hl : l.Nodup) {u : α}
    (hcount : ∀ t ∈ l, (g.sources t).count u = (g.sinks u).count t) :
    (l.foldl (fun g target => g.removeAllSources target) g).sinks u =
      (g.sinks u).filter fun v => decide (v ∉ l) := by
  induction l generalizing g with
  | nil => simp
  | cons target rest ih =>
      obtain ⟨hfresh, hrest⟩ := List.nodup_cons.mp hl
      have hstep : (g.removeAllSources target).sinks u =
          (g.sinks u).filter fun v => decide (v ≠ target) := by
        rw [removeAllSources_sinks, hcount target List.mem_cons_self, iterate_erase_count]
      rw [List.foldl_cons, ih _ hrest, hstep, List.filter_filter]
      · apply List.filter_congr
        intro v _
        rw [← Bool.decide_and, decide_eq_decide, List.mem_cons, not_or, and_comm]
      · intro t ht
        have hne : t ≠ target := fun heq => hfresh (heq ▸ ht)
        rw [removeAllSources_sources, if_neg hne, hstep, hcount t (List.mem_cons_of_mem _ ht),
          List.count_filter (by simpa using hne)]

theorem spliceFront_sinks {g : Adjacency α} (hg : g.Mirrored) {collected targets : List α}
    {node : α} (hfresh : g.Fresh node) (hc : collected.Nodup) (hnodec : node ∉ collected)
    (hl : targets.Nodup) (hnot : node ∉ targets) (u : α) :
    (g.spliceFront collected targets node).sinks u =
      if u = node then targets
      else if u ∈ collected then ((g.sinks u).filter fun v => decide (v ∉ targets)) ++ [node]
      else (g.sinks u).filter fun v => decide (v ∉ targets) := by
  have hnone : ∀ t ∈ targets, t ≠ node := fun t ht heq => hnot (heq ▸ ht)
  have hnew : ([node].filter fun v => decide (v ∉ targets)) = [node] := by
    simpa using hnot
  -- The lists just before the targets are taken off.
  have hbefore : (targets.foldl (fun g target => g.addSink node target)
      (g.addSources node collected)).sinks u =
      if u = node then targets
      else if u ∈ collected then g.sinks u ++ [node] else g.sinks u := by
    rw [foldl_addSink_sinks, addSources_sinks]
    by_cases hu : u = node
    · subst hu
      simp [hfresh.2, List.count_eq_zero_of_not_mem hnodec]
    · rw [if_neg hu, if_neg hu]
      split
      · next hin => rw [List.count_eq_one_of_mem hc hin, List.replicate_one]
      · next hout => rw [List.count_eq_zero_of_not_mem hout, List.replicate_zero, List.append_nil]
  have hsources : ∀ t ∈ targets, (targets.foldl (fun g target => g.addSink node target)
      (g.addSources node collected)).sources t = g.sources t := fun t ht => by
    rw [foldl_addSink_sources, addSources_sources, if_neg (hnone t ht)]
  unfold spliceFront
  rw [foldl_addSource_sinks]
  by_cases hu : u = node
  · -- No target has the new vertex as a source yet, so nothing is taken off.
    subst hu
    rw [if_pos rfl] at hbefore ⊢
    have hkept : ∀ (l : List α) (h : Adjacency α), (∀ t ∈ l, u ∉ h.sources t) →
        (l.foldl (fun g target => g.removeAllSources target) h).sinks u = h.sinks u := by
      intro l
      induction l with
      | nil => exact fun _ _ => rfl
      | cons t rest ih =>
          intro h hall
          have hzero : (h.sources t).count u = 0 :=
            List.count_eq_zero_of_not_mem (hall t List.mem_cons_self)
          rw [List.foldl_cons, ih, removeAllSources_sinks, hzero, Function.iterate_zero_apply]
          intro s hs
          rw [removeAllSources_sources]
          split
          · exact List.not_mem_nil
          · exact hall s (List.mem_cons_of_mem _ hs)
    rw [hkept, hbefore]
    intro t ht
    rw [hsources t ht]
    exact List.count_eq_zero.mp (hfresh.count_sources hg t)
  · rw [if_neg hu] at hbefore ⊢
    rw [foldl_removeAllSources_sinks _ hl, hbefore]
    · split
      · rw [List.filter_append, hnew]
      · rfl
    · intro t ht
      rw [hsources t ht, hbefore, ← hg u t]
      split
      · rw [List.count_append, List.count_singleton, if_neg (by simpa using (hnone t ht).symm),
          Nat.add_zero]
      · rfl

/-- Taking the members of one list off another. -/
theorem length_filter_add {l targets : List α} (hl : l.Nodup) (htargets : targets.Nodup) :
    (l.filter fun v => decide (v ∉ targets)).length +
      (targets.filter fun t => decide (t ∈ l)).length = l.length := by
  have hperm : (targets.filter fun t => decide (t ∈ l)).Perm
      (l.filter fun v => decide (v ∈ targets)) := by
    apply (List.perm_ext_iff_of_nodup (htargets.filter _) (hl.filter _)).mpr
    intro v
    simp [and_comm]
  have hsplit := l.length_eq_length_filter_add fun v => decide (v ∈ targets)
  rw [hperm.length_eq, Nat.add_comm, hsplit]
  simp

/-- A vertex gives up the targets among its sinks, and what is collected gets
the new vertex. -/
theorem length_spliceFront_sinks {g : Adjacency α} (h : g.Simple) {collected targets : List α}
    {node : α} (hfresh : g.Fresh node) (hc : collected.Nodup) (hnodec : node ∉ collected)
    (hl : targets.Nodup) (hnot : node ∉ targets) {u : α} (hu : u ≠ node) :
    ((g.spliceFront collected targets node).sinks u).length +
        (targets.filter fun t => decide (t ∈ g.sinks u)).length =
      (g.sinks u).length + if u ∈ collected then 1 else 0 := by
  rw [spliceFront_sinks h.mirrored hfresh hc hnodec hl hnot, if_neg hu,
    ← length_filter_add (h.sinks_nodup u) hl]
  split
  · rw [List.length_append, List.length_singleton]
    omega
  · rfl

/-- In front of one target the exchange is one for one. -/
theorem length_spliceFront_single {g : Adjacency α} (h : g.Simple) {collected : List α}
    {target node : α} (hfresh : g.Fresh node) (hc : collected.Nodup) (hnodec : node ∉ collected)
    (hnot : node ∉ [target]) {u : α} (hu : u ≠ node)
    (hcollected : u ∈ collected ↔ u ∈ g.sources target) :
    ((g.spliceFront collected [target] node).sinks u).length = (g.sinks u).length := by
  have hlength := length_spliceFront_sinks h hfresh hc hnodec (List.nodup_singleton target) hnot hu
  simp only [List.filter_singleton, h.mirrored.mem_iff, hcollected] at hlength
  by_cases hin : u ∈ g.sources target
  · simpa [hin] using hlength
  · simpa [hin] using hlength

theorem length_spliceBack_single {g : Adjacency α} (h : g.Simple) {collected : List α}
    {target node : α} (hfresh : g.Fresh node) (hc : collected.Nodup) (hnodec : node ∉ collected)
    (hnot : node ∉ [target]) {v : α} (hv : v ≠ node)
    (hcollected : v ∈ collected ↔ v ∈ g.sinks target) :
    ((g.spliceBack collected [target] node).sources v).length = (g.sources v).length := by
  have hflip := length_spliceFront_single h.flip hfresh.flip hc hnodec hnot hv hcollected
  rw [← flip_spliceBack] at hflip
  exact hflip

/-- One new edge between two distinct vertices not yet connected. -/
theorem Simple.connect {g : Adjacency α} (h : g.Simple) {source sink : α}
    (hne : source ≠ sink) (hnew : sink ∉ g.sinks source) :
    ((g.addSink source sink).addSource sink source).Simple := by
  have hsinks : ∀ u v, (((g.addSink source sink).addSource sink source).sinks u).count v =
      (g.sinks u).count v + if u = source ∧ v = sink then 1 else 0 := by
    intro u v
    rw [addSource_sinks, addSink_sinks]
    by_cases hu : u = source
    · rw [if_pos hu, List.count_append]
      by_cases hv : v = sink
      · simp [hu, hv]
      · simp [hv, Ne.symm hv]
    · simp [hu]
  have hsources : ∀ u v, (((g.addSink source sink).addSource sink source).sources v).count u =
      (g.sources v).count u + if u = source ∧ v = sink then 1 else 0 := by
    intro u v
    rw [addSource_sources, addSink_sources]
    by_cases hv : v = sink
    · rw [if_pos hv, List.count_append]
      by_cases hu : u = source
      · simp [hu, hv]
      · simp [hu, Ne.symm hu]
    · simp [hv]
  refine ⟨?_, ?_, ?_⟩
  · intro u v
    rw [hsinks, hsources, h.mirrored u v]
  · intro u v
    rw [hsinks]
    split
    · next hedge =>
        obtain ⟨rfl, rfl⟩ := hedge
        simp [List.count_eq_zero_of_not_mem hnew]
    · simpa using h.simple u v
  · intro u hu
    rw [← List.count_pos_iff, hsinks, List.count_eq_zero_of_not_mem (h.irreflexive u)] at hu
    split at hu
    · next hedge => exact hne (hedge.1.symm.trans hedge.2)
    · omega

/-- Splicing a fresh vertex in front of distinct targets keeps the graph
simple, however the targets and the collected sources overlap. -/
theorem Simple.spliceFront {g : Adjacency α} (h : g.Simple)
    {collected targets : List α} {node : α} (hfresh : g.Fresh node)
    (hc : collected.Nodup) (hnodec : node ∉ collected)
    (hl : targets.Nodup) (hnot : node ∉ targets) :
    (g.spliceFront collected targets node).Simple := by
  have hmirrored : (g.spliceFront collected targets node).Mirrored := by
    intro u v
    rw [count_spliceFront_sinks g collected targets node u v hl hnot,
      spliceFront_sources g collected targets node v hfresh.1 hl hnot, h.mirrored u v]
    by_cases hv : v = node
    · subst hv
      have hzero := hfresh.count_sinks h.mirrored u
      rw [h.mirrored u v] at hzero
      simp [hnot, hzero, List.count_eq_zero_of_not_mem hnot]
    · by_cases hmem : v ∈ targets
      · by_cases hu : u = node
        · subst hu
          simp [hv, hmem, hfresh.count_sources h.mirrored v,
            List.count_eq_one_of_mem hl hmem]
        · simp [hv, hmem, hu, Ne.symm hu]
      · by_cases hu : u = node <;>
          simp [hv, hmem, hu, List.count_eq_zero_of_not_mem hmem]
  refine ⟨hmirrored, ?_, ?_⟩
  · intro u v
    rw [hmirrored u v,
      spliceFront_sources g collected targets node v hfresh.1 hl hnot]
    split
    · exact List.nodup_iff_count_le_one.mp hc u
    · split
      · exact List.nodup_iff_count_le_one.mp (List.nodup_singleton node) u
      · exact h.mirrored u v ▸ h.simple u v
  · intro u hu
    rw [hmirrored.mem_iff,
      spliceFront_sources g collected targets node u hfresh.1 hl hnot] at hu
    split at hu
    · next heq => exact hnodec (heq ▸ hu)
    · next hne =>
        split at hu
        · exact hne (List.mem_singleton.mp hu)
        · exact h.irreflexive u (h.mirrored.mem_iff.mpr hu)

theorem Simple.spliceBack {g : Adjacency α} (h : g.Simple)
    {collected targets : List α} {node : α} (hfresh : g.Fresh node)
    (hc : collected.Nodup) (hnodec : node ∉ collected)
    (hl : targets.Nodup) (hnot : node ∉ targets) :
    (g.spliceBack collected targets node).Simple := by
  have hflip := h.flip.spliceFront hfresh.flip hc hnodec hl hnot
  rw [← flip_spliceBack] at hflip
  exact hflip.flip

theorem spliceBack_sinks (g : Adjacency α) (collected targets : List α)
    (node u : α) (hnode : g.sinks node = []) (hl : targets.Nodup)
    (hnot : node ∉ targets) :
    (g.spliceBack collected targets node).sinks u =
      if u = node then collected else if u ∈ targets then [node] else g.sinks u := by
  have hflip := spliceFront_sources g.flip collected targets node u hnode hl hnot
  rw [← flip_spliceBack] at hflip
  exact hflip

/-! The edges of a spliced graph. -/

theorem mem_spliceFront_sinks {g : Adjacency α} (h : g.Simple)
    {collected targets : List α} {node : α} (hfresh : g.Fresh node)
    (hc : collected.Nodup) (hnodec : node ∉ collected)
    (hl : targets.Nodup) (hnot : node ∉ targets) (u v : α) :
    v ∈ (g.spliceFront collected targets node).sinks u ↔
      if v = node then u ∈ collected
      else if v ∈ targets then u = node else v ∈ g.sinks u := by
  have hsimple := h.spliceFront hfresh hc hnodec hl hnot
  rw [hsimple.mirrored.mem_iff,
    spliceFront_sources g collected targets node v hfresh.1 hl hnot, h.mirrored.mem_iff]
  split
  · rfl
  · split <;> simp

theorem mem_spliceBack_sinks {g : Adjacency α} (collected targets : List α)
    {node : α} (hfresh : g.Fresh node) (hl : targets.Nodup) (hnot : node ∉ targets)
    (u v : α) :
    v ∈ (g.spliceBack collected targets node).sinks u ↔
      if u = node then v ∈ collected
      else if u ∈ targets then v = node else v ∈ g.sinks u := by
  rw [spliceBack_sinks g collected targets node u hfresh.2 hl hnot]
  split
  · rfl
  · split <;> simp

theorem Fresh.not_mem_sources {g : Adjacency α} {node : α} (h : g.Fresh node)
    (hg : g.Mirrored) (v : α) : node ∉ g.sources v :=
  List.count_eq_zero.mp (h.count_sources hg v)

theorem Fresh.not_mem_sinks {g : Adjacency α} {node : α} (h : g.Fresh node)
    (hg : g.Mirrored) (u : α) : node ∉ g.sinks u :=
  List.count_eq_zero.mp (h.count_sinks hg u)

/-- A splice leaves a vertex it does not mention fresh. -/
theorem Fresh.spliceFront {g : Adjacency α} (h : g.Simple)
    {collected targets : List α} {node v : α} (hfresh : g.Fresh node)
    (hc : collected.Nodup) (hnodec : node ∉ collected)
    (hl : targets.Nodup) (hnot : node ∉ targets) (hv : g.Fresh v)
    (hne : v ≠ node) (hvc : v ∉ collected) (hvt : v ∉ targets) :
    (g.spliceFront collected targets node).Fresh v := by
  constructor
  · rw [spliceFront_sources g collected targets node v hfresh.1 hl hnot, if_neg hne, if_neg hvt,
      hv.1]
  · rw [List.eq_nil_iff_forall_not_mem]
    intro w hw
    rw [mem_spliceFront_sinks h hfresh hc hnodec hl hnot] at hw
    split at hw
    · exact hvc hw
    · split at hw
      · exact hne hw
      · rw [hv.2] at hw
        cases hw

theorem Fresh.spliceBack {g : Adjacency α} (h : g.Simple)
    {collected targets : List α} {node v : α} (hfresh : g.Fresh node)
    (hc : collected.Nodup) (hnodec : node ∉ collected)
    (hl : targets.Nodup) (hnot : node ∉ targets) (hv : g.Fresh v)
    (hne : v ≠ node) (hvc : v ∉ collected) (hvt : v ∉ targets) :
    (g.spliceBack collected targets node).Fresh v := by
  have hflip := Fresh.spliceFront h.flip hfresh.flip hc hnodec hl hnot hv.flip hne hvc hvt
  rw [← flip_spliceBack] at hflip
  exact hflip.flip

/-! Two vertices in front of one target, the first collecting its sources for
the second. -/

/-- Insert `gate` and behind it `node` in front of `target`. -/
def gateFront (g : Adjacency α) (target gate node : α) : Adjacency α :=
  let g := ((g.addSources gate (g.sources target)).addSink gate node).addSource node gate
  ((g.addSink node target).removeAllSources target).addSource target node

theorem gateFront_sources (g : Adjacency α) {target gate node : α} (v : α)
    (hgate : g.sources gate = []) (hnode : g.sources node = []) (hne : gate ≠ node)
    (htg : target ≠ gate) (htn : target ≠ node) :
    (g.gateFront target gate node).sources v =
      if v = target then [node] else if v = node then [gate]
      else if v = gate then g.sources target else g.sources v := by
  simp only [gateFront, addSource_sources, removeAllSources_sources, addSink_sources,
    addSources_sources]
  by_cases hvt : v = target
  · simp [hvt]
  · by_cases hvn : v = node
    · simp [hvn, htn.symm, hne.symm, hnode]
    · by_cases hvg : v = gate <;> simp [hvg, hvt, hvn, hne, htg.symm, hgate]

theorem count_ite_append (p : Prop) [Decidable p] (l : List α) (a v : α) :
    (if p then l ++ [a] else l).count v = l.count v + if p ∧ v = a then 1 else 0 := by
  by_cases hp : p <;> by_cases hv : v = a
  · simp [hp, hv]
  · simp [hp, hv, Ne.symm hv]
  · simp [hp]
  · simp [hp]

theorem count_gateFront_sinks (g : Adjacency α) {target gate node : α} (u v : α)
    (htg : target ≠ gate) (htn : target ≠ node) :
    ((g.gateFront target gate node).sinks u).count v =
      (g.sinks u).count v + (if v = gate then (g.sources target).count u else 0) +
          (if u = gate ∧ v = node then 1 else 0) + (if u = node ∧ v = target then 1 else 0) -
        if v = target then (g.sources target).count u else 0 := by
  have hreplicate : (List.replicate ((g.sources target).count u) gate).count v =
      if v = gate then (g.sources target).count u else 0 := by
    by_cases hv : v = gate
    · simp [hv]
    · simp [hv, List.count_replicate, Ne.symm hv]
  have hsources : ((((g.addSources gate (g.sources target)).addSink gate node).addSource node
      gate).addSink node target).sources target = g.sources target := by
    simp [addSource_sources, addSources_sources, htg, htn]
  simp only [gateFront, addSource_sinks, removeAllSources_sinks]
  rw [count_iterate_erase, hsources]
  simp only [addSink_sinks, addSource_sinks, addSources_sinks, count_ite_append,
    List.count_append, hreplicate]

theorem Simple.of_sources {g : Adjacency α} (hmirrored : g.Mirrored)
    (hnodup : ∀ v, (g.sources v).Nodup) (hirrefl : ∀ v, v ∉ g.sources v) : g.Simple where
  mirrored := hmirrored
  simple u v := hmirrored u v ▸ List.nodup_iff_count_le_one.mp (hnodup v) u
  irreflexive u hu := hirrefl u (hmirrored.mem_iff.mp hu)

theorem Simple.not_mem_sources {g : Adjacency α} (h : g.Simple) (v : α) : v ∉ g.sources v :=
  h.flip.irreflexive v

theorem Simple.gateFront {g : Adjacency α} (h : g.Simple) {target gate node : α}
    (hgate : g.Fresh gate) (hnode : g.Fresh node) (hne : gate ≠ node)
    (htg : target ≠ gate) (htn : target ≠ node) : (g.gateFront target gate node).Simple := by
  have hsources := fun v => gateFront_sources g v hgate.1 hnode.1 hne htg htn
  refine .of_sources (fun u v => ?_) (fun v => ?_) fun v => ?_
  · rw [count_gateFront_sinks g u v htg htn, hsources, h.mirrored u v]
    by_cases hvt : v = target
    · subst hvt
      by_cases hun : u = node
      · simp [htg, htn, hun]
      · simp [htg, htn, hun, Ne.symm hun]
    · by_cases hvn : v = node
      · subst hvn
        by_cases hug : u = gate
        · simp [hvt, hne.symm, hnode.1, hug]
        · simp [hvt, hne.symm, hnode.1, hug, Ne.symm hug]
      · by_cases hvg : v = gate
        · simp [hvg, hgate.1, htg.symm, hne]
        · simp [hvt, hvn, hvg]
  · rw [hsources]
    split
    · exact List.nodup_singleton node
    · split
      · exact List.nodup_singleton gate
      · split
        · exact h.sources_nodup target
        · exact h.sources_nodup v
  · rw [hsources]
    split
    · next heq => simpa [heq] using htn
    · split
      · next heq => simpa [heq] using hne.symm
      · split
        · next heq =>
            exact heq ▸ hgate.not_mem_sources h.mirrored target
        · exact h.not_mem_sources v

theorem mem_gateFront_sinks {g : Adjacency α} (h : g.Simple) {target gate node : α}
    (hgate : g.Fresh gate) (hnode : g.Fresh node) (hne : gate ≠ node) (htg : target ≠ gate)
    (htn : target ≠ node) (u v : α) : v ∈ (g.gateFront target gate node).sinks u ↔
      if v = target then u = node else if v = node then u = gate
      else if v = gate then u ∈ g.sources target else v ∈ g.sinks u := by
  rw [(h.gateFront hgate hnode hne htg htn).mirrored.mem_iff,
    gateFront_sources g v hgate.1 hnode.1 hne htg htn, h.mirrored.mem_iff]
  split
  · exact List.mem_singleton
  · split
    · exact List.mem_singleton
    · split <;> rfl

/-- A source of the target exchanges the target for the gate. -/
theorem length_gateFront_sinks {g : Adjacency α} (h : g.Simple) {target gate node u : α}
    (hgate : g.Fresh gate) (hnode : g.Fresh node) (hne : gate ≠ node) (htg : target ≠ gate)
    (htn : target ≠ node) (hug : u ≠ gate) (hun : u ≠ node) :
    ((g.gateFront target gate node).sinks u).length = (g.sinks u).length := by
  have hnodup := (h.gateFront hgate hnode hne htg htn).sinks_nodup u
  have hmem := mem_gateFront_sinks h hgate hnode hne htg htn u
  have hgateNot := hgate.not_mem_sinks h.mirrored u
  have hnodeNot := hnode.not_mem_sinks h.mirrored u
  by_cases hin : u ∈ g.sources target
  · have hsink : target ∈ g.sinks u := h.mirrored.mem_iff.mpr hin
    have hperm : ((g.gateFront target gate node).sinks u).Perm
        (gate :: (g.sinks u).erase target) := by
      refine (List.perm_ext_iff_of_nodup hnodup (List.nodup_cons.mpr
        ⟨fun hmem => hgateNot (List.mem_of_mem_erase hmem),
          (h.sinks_nodup u).erase target⟩)).mpr fun v => ?_
      rw [hmem, List.mem_cons, (h.sinks_nodup u).mem_erase_iff]
      by_cases hvt : v = target
      · simp [hvt, hun, htg]
      · by_cases hvn : v = node
        · simp [hvn, htn.symm, hug, hne.symm, hnodeNot]
        · by_cases hvg : v = gate <;> simp [hvg, hvt, hvn, hne, htg.symm, hin]
    rw [hperm.length_eq, List.length_cons, List.length_erase_of_mem hsink]
    exact Nat.succ_pred_eq_of_pos (List.length_pos_of_mem hsink)
  · have hsink : target ∉ g.sinks u := fun hsink => hin (h.mirrored.mem_iff.mp hsink)
    refine List.Perm.length_eq ((List.perm_ext_iff_of_nodup hnodup (h.sinks_nodup u)).mpr
      fun v => ?_)
    rw [hmem]
    by_cases hvt : v = target
    · simp [hvt, hun, hsink]
    · by_cases hvn : v = node
      · simp [hvn, htn.symm, hug, hnodeNot]
      · by_cases hvg : v = gate <;> simp [hvg, hvt, hvn, hne, htg.symm, hin, hgateNot]

theorem Fresh.gateFront {g : Adjacency α} (h : g.Simple) {target gate node v : α}
    (hgate : g.Fresh gate) (hnode : g.Fresh node) (hne : gate ≠ node)
    (htg : target ≠ gate) (htn : target ≠ node) (hv : g.Fresh v)
    (hvt : v ≠ target) (hvg : v ≠ gate) (hvn : v ≠ node) :
    (g.gateFront target gate node).Fresh v := by
  have hsources := fun w => gateFront_sources g w hgate.1 hnode.1 hne htg htn
  constructor
  · rw [hsources, if_neg hvt, if_neg hvn, if_neg hvg, hv.1]
  · rw [List.eq_nil_iff_forall_not_mem]
    intro w hw
    have hnone := hv.not_mem_sources h.mirrored
    rw [(h.gateFront hgate hnode hne htg htn).mirrored.mem_iff, hsources] at hw
    split at hw
    · exact hvn (List.mem_singleton.mp hw)
    · split at hw
      · exact hvg (List.mem_singleton.mp hw)
      · split at hw
        · exact hnone target hw
        · exact hnone w hw

end Adjacency
