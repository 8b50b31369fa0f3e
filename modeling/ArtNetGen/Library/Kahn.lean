import Mathlib.Algebra.BigOperators.Group.Finset.Basic
import Mathlib.Algebra.Order.BigOperators.Group.Finset
import Mathlib.Data.Finset.Dedup
import ArtNetGen.Library.Walk

/-!
Topological ordering by a queue of vertices with no unprocessed incoming edge.
A vertex gets the order of the *last* of its predecessors to leave the queue,
plus one. Because the queue is first-in first-out, orders leave it in
nondecreasing sequence, so that last predecessor is also the deepest one and
the order is the length of a longest walk. Parallel edges are counted; vertices
on or behind a cycle are never reached and keep the order -1.

A vertex whose starting in-degree is zero is a root, whatever edges lead to it.
-/

namespace Kahn

variable {α : Type*} [DecidableEq α]

structure State (α : Type*) where
  queue : List α
  inDegree : α → ℕ
  order : α → ℤ

/-- One sink `n2` of the dequeued vertex `n1`. -/
def relax (n1 : α) (s : State α) (n2 : α) : State α :=
  if s.inDegree n2 = 0 then s
  else if s.inDegree n2 = 1 then
    { queue := s.queue ++ [n2]
      inDegree := Function.update s.inDegree n2 0
      order := Function.update s.order n2 (s.order n1 + 1) }
  else { s with inDegree := Function.update s.inDegree n2 (s.inDegree n2 - 1) }

def step (succ : α → List α) (s : State α) : State α :=
  match s.queue with
  | [] => s
  | n1 :: rest => (succ n1).foldl (relax n1) { s with queue := rest }

def run (succ : α → List α) : ℕ → State α → State α
  | 0, s => s
  | n + 1, s => run succ n (step succ s)

theorem run_succ (succ : α → List α) (n : ℕ) (s : State α) :
    run succ (n + 1) s = step succ (run succ n s) := by
  induction n generalizing s with
  | zero => rfl
  | succ n ih => exact ih (step succ s)

/-- Roots start with order 0; those for which `pushed` holds enter the queue. -/
def start (nodes : List α) (inDegree : α → ℕ) (pushed : α → Bool) : State α where
  queue := nodes.filter (fun v => inDegree v == 0 && pushed v)
  inDegree := inDegree
  order v := if inDegree v = 0 then 0 else -1

/-- What the traversal relies on: the starting in-degree of a vertex that is
not a root counts its incoming edges with multiplicity, and the roots kept out
of the queue drive roots only. -/
structure Network (nodes : List α) (succ : α → List α) (inDegree : α → ℕ)
    (pushed : α → Bool) : Prop where
  nodup : nodes.Nodup
  closed : ∀ u ∈ nodes, ∀ v ∈ succ u, v ∈ nodes
  degree : ∀ v ∈ nodes, inDegree v ≠ 0 →
    inDegree v = ∑ u ∈ nodes.toFinset, (succ u).count v
  unpushed : ∀ u ∈ nodes, pushed u = false →
    inDegree u = 0 ∧ ∀ v ∈ succ u, inDegree v = 0

/-- The edges that can carry depth: those into a vertex that is not a root. -/
def Edge (nodes : List α) (succ : α → List α) (inDegree : α → ℕ) (u v : α) : Prop :=
  u ∈ nodes ∧ v ∈ succ u ∧ inDegree v ≠ 0

section Invariant

variable (nodes : List α) (succ : α → List α) (inDegree : α → ℕ) (pushed : α → Bool)

/-- The traversal invariant. `done` lists the dequeued vertices in order and
`seen v` counts the edges into `v` examined so far. -/
structure Inv (done : List α) (seen : α → ℕ) (s : State α) : Prop where
  nodup : (done ++ s.queue).Nodup
  mem : ∀ v, v ∈ done ++ s.queue ↔ v ∈ nodes ∧ s.inDegree v = 0 ∧ pushed v = true
  count : ∀ v ∈ nodes, inDegree v ≠ 0 → s.inDegree v + seen v = inDegree v
  root : ∀ v, inDegree v = 0 → s.inDegree v = 0 ∧ s.order v = 0
  waiting : ∀ v, s.inDegree v ≠ 0 → s.order v = -1
  released : ∀ v, s.inDegree v = 0 → 0 ≤ s.order v
  sorted : (done ++ s.queue).Pairwise (fun a b => s.order a ≤ s.order b)
  depth : ∀ v ∈ nodes, inDegree v ≠ 0 → s.inDegree v = 0 →
    (∃ u ∈ done, v ∈ succ u ∧ s.order v = s.order u + 1) ∧
      ∀ u ∈ nodes, v ∈ succ u → u ∈ done ∧ s.order u + 1 ≤ s.order v

variable {nodes succ inDegree pushed}

/-- If the vertices of `done` already account for every edge into `v`, all
predecessors of `v` are among them. -/
theorem mem_done_of_sum (hnet : Network nodes succ inDegree pushed) {done : List α}
    (hsub : ∀ u ∈ done, u ∈ nodes) {v : α} (hv : v ∈ nodes) (hroot : inDegree v ≠ 0)
    (hsum : inDegree v ≤ ∑ u ∈ done.toFinset, (succ u).count v) :
    ∀ u ∈ nodes, v ∈ succ u → u ∈ done := by
  intro u hu hedge
  by_contra hnot
  have hsubset : insert u done.toFinset ⊆ nodes.toFinset := by
    intro w hw
    rcases Finset.mem_insert.mp hw with rfl | hw
    · exact List.mem_toFinset.mpr hu
    · exact List.mem_toFinset.mpr (hsub w (List.mem_toFinset.mp hw))
  have hle := Finset.sum_le_sum_of_subset (f := fun u => (succ u).count v) hsubset
  rw [Finset.sum_insert (by simpa using hnot), ← hnet.degree v hv hroot] at hle
  have hpos : 0 < (succ u).count v := List.count_pos_iff.mpr hedge
  omega

theorem sum_done_le (hnet : Network nodes succ inDegree pushed) {done : List α}
    (hsub : ∀ u ∈ done, u ∈ nodes) {v : α} (hv : v ∈ nodes) (hroot : inDegree v ≠ 0) :
    ∑ u ∈ done.toFinset, (succ u).count v ≤ inDegree v := by
  rw [hnet.degree v hv hroot]
  refine Finset.sum_le_sum_of_subset (fun u hu => ?_)
  exact List.mem_toFinset.mpr (hsub u (List.mem_toFinset.mp hu))

section Relax

variable {done : List α} {seen : α → ℕ} {s : State α} {n1 n2 : α}

/-- A released vertex can only be met again if it is a root. -/
theorem root_of_met (hnet : Network nodes succ inDegree pushed)
    (h : Inv nodes succ inDegree pushed done seen s) (hn2 : n2 ∈ nodes)
    (hseen : inDegree n2 ≠ 0 → seen n2 + 1 ≤ ∑ u ∈ done.toFinset, (succ u).count n2)
    (hzero : s.inDegree n2 = 0) : inDegree n2 = 0 := by
  by_contra hroot
  have hsub : ∀ u ∈ done, u ∈ nodes := fun u hu =>
    ((h.mem u).mp (List.mem_append_left _ hu)).1
  have hcount := h.count n2 hn2 hroot
  have hle := (hseen hroot).trans (sum_done_le hnet hsub hn2 hroot)
  omega

/-- The last edge into `n2` releases it. The queue stays within one level of `n1`,
so it is at least as deep as everything released before. -/
theorem release_inv (hnet : Network nodes succ inDegree pushed)
    (h : Inv nodes succ inDegree pushed done seen s) (hn1 : n1 ∈ done) (hn2 : n2 ∈ nodes)
    (hedge : n2 ∈ succ n1) (hlast : ∀ u ∈ done, s.order u ≤ s.order n1)
    (hlevel : ∀ v ∈ s.queue, s.order v ≤ s.order n1 + 1)
    (hseen : inDegree n2 ≠ 0 → seen n2 + 1 ≤ ∑ u ∈ done.toFinset, (succ u).count n2)
    (hroot : inDegree n2 ≠ 0) (hone : s.inDegree n2 = 1) :
    Inv nodes succ inDegree pushed done (Function.update seen n2 (seen n2 + 1))
        { queue := s.queue ++ [n2]
          inDegree := Function.update s.inDegree n2 0
          order := Function.update s.order n2 (s.order n1 + 1) } ∧
      (∀ u ∈ done, Function.update s.order n2 (s.order n1 + 1) u = s.order u) ∧
      ∀ v ∈ s.queue ++ [n2],
        Function.update s.order n2 (s.order n1 + 1) v ≤ s.order n1 + 1 := by
  have hsub : ∀ u ∈ done, u ∈ nodes := fun u hu =>
    ((h.mem u).mp (List.mem_append_left _ hu)).1
  have hcount := h.count n2 hn2 hroot
  have hzero : s.inDegree n2 ≠ 0 := by omega
  have hpreds : ∀ u ∈ nodes, n2 ∈ succ u → u ∈ done := by
    apply mem_done_of_sum hnet hsub hn2 hroot
    have := hseen hroot
    omega
  have hpushed : pushed n2 = true := by
    by_contra hpushed
    exact hroot (hnet.unpushed n2 hn2 (by simpa using hpushed)).1
  have hnew : n2 ∉ done ++ s.queue := fun hmem =>
    hzero ((h.mem n2).mp hmem).2.1
  have hne : ∀ u ∈ done ++ s.queue, u ≠ n2 := fun u hu heq => hnew (heq ▸ hu)
  have horder : ∀ u ∈ done ++ s.queue,
      Function.update s.order n2 (s.order n1 + 1) u = s.order u := fun u hu =>
    Function.update_of_ne (hne u hu) _ _
  have hdone : ∀ u ∈ done,
      Function.update s.order n2 (s.order n1 + 1) u = s.order u := fun u hu =>
    horder u (List.mem_append_left _ hu)
  refine ⟨⟨?_, ?_, ?_, ?_, ?_, ?_, ?_, ?_⟩, hdone, ?_⟩
  · rw [← List.append_assoc]
    refine h.nodup.append (List.nodup_singleton n2) ?_
    simpa using hnew
  · intro v
    rw [← List.append_assoc, List.mem_append, h.mem v]
    by_cases hv : v = n2
    · subst hv
      simp [hn2, hpushed]
    · simp [hv]
  · intro v hv hvroot
    by_cases heq : v = n2
    · subst heq
      simp only [Function.update_self]
      omega
    · simp only [Function.update_of_ne heq]
      exact h.count v hv hvroot
  · intro v hv
    have heq : v ≠ n2 := fun heq => hroot (heq ▸ hv)
    simp only [Function.update_of_ne heq]
    exact h.root v hv
  · intro v hv
    have heq : v ≠ n2 := fun heq => hv (by simp [heq])
    simp only [Function.update_of_ne heq] at hv ⊢
    exact h.waiting v hv
  · intro v hv
    by_cases heq : v = n2
    · subst heq
      have hzero1 := ((h.mem n1).mp (List.mem_append_left _ hn1)).2.1
      have hnonneg := h.released n1 hzero1
      simp only [Function.update_self]
      omega
    · simp only [Function.update_of_ne heq] at hv ⊢
      exact h.released v hv
  · rw [← List.append_assoc, List.pairwise_append]
    refine ⟨?_, List.pairwise_singleton _ _, ?_⟩
    · refine h.sorted.imp_of_mem (fun {a b} ha hb hab => ?_)
      simpa only [horder a ha, horder b hb] using hab
    · intro a ha b hb
      obtain rfl := List.mem_singleton.mp hb
      simp only [horder a ha, Function.update_self]
      rcases List.mem_append.mp ha with hd | hq
      · have := hlast a hd
        omega
      · exact hlevel a hq
  · intro v hv hvroot hvzero
    by_cases heq : v = n2
    · subst heq
      refine ⟨⟨n1, hn1, hedge, by simp [hdone n1 hn1]⟩, fun u hu hmem => ?_⟩
      have hud := hpreds u hu hmem
      refine ⟨hud, ?_⟩
      have := hlast u hud
      simp only [hdone u hud, Function.update_self]
      omega
    · simp only [Function.update_of_ne heq] at hvzero ⊢
      obtain ⟨⟨u, hu, hmem, heqo⟩, hall⟩ := h.depth v hv hvroot hvzero
      refine ⟨⟨u, hu, hmem, by rw [hdone u hu]; exact heqo⟩, fun w hw hmemw => ?_⟩
      obtain ⟨hwd, hle⟩ := hall w hw hmemw
      exact ⟨hwd, by rw [hdone w hwd]; exact hle⟩
  · intro v hv
    rcases List.mem_append.mp hv with hq | hq
    · simpa only [horder v (List.mem_append_right _ hq)] using hlevel v hq
    · obtain rfl := List.mem_singleton.mp hq
      simp

/-- Other edges into `n2` only count. -/
theorem countDown_inv (h : Inv nodes succ inDegree pushed done seen s) (hn2 : n2 ∈ nodes)
    (hroot : inDegree n2 ≠ 0) (hzero : s.inDegree n2 ≠ 0) (hone : s.inDegree n2 ≠ 1) :
    Inv nodes succ inDegree pushed done (Function.update seen n2 (seen n2 + 1))
      { s with inDegree := Function.update s.inDegree n2 (s.inDegree n2 - 1) } := by
  have hcount := h.count n2 hn2 hroot
  refine ⟨h.nodup, ?_, ?_, ?_, ?_, ?_, h.sorted, ?_⟩
  · intro v
    rw [h.mem v]
    by_cases hv : v = n2
    · subst hv
      simp only [Function.update_self]
      constructor <;> intro hmem <;> omega
    · simp [hv]
  · intro v hv hvroot
    by_cases heq : v = n2
    · subst heq
      simp only [Function.update_self]
      omega
    · simp only [Function.update_of_ne heq]
      exact h.count v hv hvroot
  · intro v hv
    have heq : v ≠ n2 := fun heq => hroot (heq ▸ hv)
    simp only [Function.update_of_ne heq]
    exact h.root v hv
  · intro v hv
    by_cases heq : v = n2
    · exact heq ▸ h.waiting n2 hzero
    · simp only [Function.update_of_ne heq] at hv
      exact h.waiting v hv
  · intro v hv
    have heq : v ≠ n2 := by
      rintro rfl
      simp only [Function.update_self] at hv
      omega
    simp only [Function.update_of_ne heq] at hv
    exact h.released v hv
  · intro v hv hvroot hvzero
    have heq : v ≠ n2 := by
      rintro rfl
      simp only [Function.update_self] at hvzero
      omega
    simp only [Function.update_of_ne heq] at hvzero
    exact h.depth v hv hvroot hvzero

/-- One examined edge `n1 → n2` of the vertex being processed. -/
theorem relax_inv (hnet : Network nodes succ inDegree pushed)
    (h : Inv nodes succ inDegree pushed done seen s)
    (hn1 : n1 ∈ done) (hn2 : n2 ∈ nodes) (hedge : n2 ∈ succ n1)
    (hlast : ∀ u ∈ done, s.order u ≤ s.order n1)
    (hlevel : ∀ v ∈ s.queue, s.order v ≤ s.order n1 + 1)
    (hseen : inDegree n2 ≠ 0 →
      seen n2 + 1 ≤ ∑ u ∈ done.toFinset, (succ u).count n2) :
    Inv nodes succ inDegree pushed done
        (Function.update seen n2 (seen n2 + 1)) (relax n1 s n2) ∧
      (∀ u ∈ done, (relax n1 s n2).order u = s.order u) ∧
      ∀ v ∈ (relax n1 s n2).queue, (relax n1 s n2).order v ≤ s.order n1 + 1 := by
  unfold relax
  by_cases hzero : s.inDegree n2 = 0
  · have hroot := root_of_met hnet h hn2 hseen hzero
    rw [if_pos hzero]
    refine ⟨{ h with count := ?_ }, fun _ _ => rfl, hlevel⟩
    intro v hv hvroot
    have hne : v ≠ n2 := fun heq => hvroot (heq ▸ hroot)
    rw [Function.update_of_ne hne]
    exact h.count v hv hvroot
  · have hroot : inDegree n2 ≠ 0 := fun hroot => hzero (h.root n2 hroot).1
    rw [if_neg hzero]
    by_cases hone : s.inDegree n2 = 1
    · rw [if_pos hone]
      exact release_inv hnet h hn1 hn2 hedge hlast hlevel hseen hroot hone
    · rw [if_neg hone]
      exact ⟨countDown_inv h hn2 hroot hzero hone, fun _ _ => rfl, hlevel⟩

end Relax

/-- All edges of the vertex being processed, one after the other. -/
theorem foldl_relax_inv (hnet : Network nodes succ inDegree pushed) {done : List α}
    {n1 : α} (hn1 : n1 ∈ done) (rest : List α) {seen : α → ℕ} {s : State α}
    (h : Inv nodes succ inDegree pushed done seen s)
    (hrest : ∀ v ∈ rest, v ∈ nodes ∧ v ∈ succ n1)
    (hlast : ∀ u ∈ done, s.order u ≤ s.order n1)
    (hlevel : ∀ v ∈ s.queue, s.order v ≤ s.order n1 + 1)
    (hseen : ∀ v, seen v + rest.count v = ∑ u ∈ done.toFinset, (succ u).count v) :
    let s' := rest.foldl (relax n1) s
    Inv nodes succ inDegree pushed done
        (fun v => ∑ u ∈ done.toFinset, (succ u).count v) s' ∧
      (∀ u ∈ done, s'.order u = s.order u) ∧
      ∀ v ∈ s'.queue, s'.order v ≤ s.order n1 + 1 := by
  induction rest generalizing seen s with
  | nil =>
      have hfun : seen = fun v => ∑ u ∈ done.toFinset, (succ u).count v := by
        funext v
        simpa using hseen v
      exact ⟨hfun ▸ h, fun _ _ => rfl, hlevel⟩
  | cons n2 rest ih =>
      obtain ⟨hn2, hedge⟩ := hrest n2 List.mem_cons_self
      have hbound : seen n2 + 1 ≤ ∑ u ∈ done.toFinset, (succ u).count n2 := by
        rw [← hseen n2, List.count_cons_self]
        omega
      obtain ⟨hinv, horder, hqueue⟩ :=
        relax_inv hnet h hn1 hn2 hedge hlast hlevel (fun _ => hbound)
      obtain ⟨hinv', horder', hqueue'⟩ := ih hinv
        (fun v hv => hrest v (List.mem_cons_of_mem _ hv))
        (fun u hu => by rw [horder u hu, horder n1 hn1]; exact hlast u hu)
        (fun v hv => by rw [horder n1 hn1]; exact hqueue v hv)
        (fun v => by
          rw [← hseen v]
          by_cases hv : v = n2
          · subst hv
            rw [Function.update_self, List.count_cons_self]
            omega
          · rw [Function.update_of_ne hv, List.count_cons_of_ne (Ne.symm hv)])
      refine ⟨hinv', fun u hu => (horder' u hu).trans (horder u hu), ?_⟩
      intro v hv
      rw [← horder n1 hn1]
      exact hqueue' v hv

/-- The invariant between two dequeuings: all edges of `done` are examined and
the queue spans at most two levels. -/
def Ready (nodes : List α) (succ : α → List α) (inDegree : α → ℕ) (pushed : α → Bool)
    (done : List α) (s : State α) : Prop :=
  Inv nodes succ inDegree pushed done
      (fun v => ∑ u ∈ done.toFinset, (succ u).count v) s ∧
    ∀ a ∈ s.queue, ∀ b ∈ s.queue, s.order b ≤ s.order a + 1

theorem start_ready (hnet : Network nodes succ inDegree pushed) :
    Ready nodes succ inDegree pushed [] (start nodes inDegree pushed) := by
  have hqueue : ∀ v ∈ (start nodes inDegree pushed).queue,
      (start nodes inDegree pushed).order v = 0 := by
    intro v hv
    have hmem := (List.mem_filter.mp hv).2
    simp only [Bool.and_eq_true, beq_iff_eq] at hmem
    simp [start, hmem.1]
  refine ⟨⟨?_, ?_, ?_, ?_, ?_, ?_, ?_, ?_⟩, ?_⟩
  · exact hnet.nodup.filter _
  · intro v
    simp [start]
  · intro v _ _
    simp [start]
  · intro v hv
    simp [start, hv]
  · intro v hv
    simp only [start] at hv ⊢
    rw [if_neg hv]
  · intro v hv
    simp only [start] at hv ⊢
    rw [if_pos hv]
  · refine List.pairwise_of_forall_mem_list (fun a ha b hb => ?_)
    rw [hqueue a ha, hqueue b hb]
  · intro v _ hroot hzero
    exact absurd hzero hroot
  · intro a ha b hb
    rw [hqueue a ha, hqueue b hb]
    omega

theorem step_ready (hnet : Network nodes succ inDegree pushed) {done rest : List α}
    {s : State α} {n1 : α} (h : Ready nodes succ inDegree pushed done s)
    (hs : s.queue = n1 :: rest) :
    Ready nodes succ inDegree pushed (done ++ [n1]) (step succ s) := by
  obtain ⟨hinv, hspan⟩ := h
  have happend : (done ++ [n1]) ++ rest = done ++ s.queue := by rw [hs]; simp
  have hn1 : n1 ∈ nodes := ((hinv.mem n1).mp (by rw [← happend]; simp)).1
  have hnodup : ((done ++ [n1]) ++ rest).Nodup := by rw [happend]; exact hinv.nodup
  have hnotdone : n1 ∉ done := by
    have := List.Nodup.of_append_left hnodup
    rw [List.nodup_append] at this
    intro hmem
    exact this.2.2 n1 hmem n1 (by simp) rfl
  have hsorted : ((done ++ [n1]) ++ rest).Pairwise
      (fun a b => s.order a ≤ s.order b) := by rw [happend]; exact hinv.sorted
  have hmid : Inv nodes succ inDegree pushed (done ++ [n1])
      (fun v => ∑ u ∈ done.toFinset, (succ u).count v) { s with queue := rest } :=
    ⟨hnodup, fun v => by rw [happend]; exact hinv.mem v, hinv.count, hinv.root,
      hinv.waiting, hinv.released, hsorted, fun v hv hroot hzero => by
        obtain ⟨⟨u, hu, hmem, heq⟩, hall⟩ := hinv.depth v hv hroot hzero
        refine ⟨⟨u, List.mem_append_left _ hu, hmem, heq⟩, fun w hw hmemw => ?_⟩
        exact ⟨List.mem_append_left _ (hall w hw hmemw).1, (hall w hw hmemw).2⟩⟩
  have hlast : ∀ u ∈ done ++ [n1], s.order u ≤ s.order n1 := by
    intro u hu
    rcases List.mem_append.mp hu with hd | hd
    · have hprefix := (List.pairwise_append.mp hsorted).1
      exact (List.pairwise_append.mp hprefix).2.2 u hd n1 (by simp)
    · rw [List.mem_singleton.mp hd]
  have hlevel : ∀ v ∈ rest, s.order v ≤ s.order n1 + 1 := fun v hv =>
    hspan n1 (by rw [hs]; simp) v (by rw [hs]; simp [hv])
  obtain ⟨hdone, horder, hqueue⟩ := foldl_relax_inv hnet (by simp) (succ n1) hmid
    (fun v hv => ⟨hnet.closed n1 hn1 v hv, hv⟩) hlast hlevel (fun v => by
      rw [List.toFinset_append, Finset.sum_union (by simpa using hnotdone)]
      simp)
  have hstep : step succ s = (succ n1).foldl (relax n1) { s with queue := rest } := by
    simp only [step, hs]
  rw [hstep]
  refine ⟨hdone, fun a ha b hb => ?_⟩
  have hlow := (List.pairwise_append.mp hdone.sorted).2.2 n1 (by simp) a ha
  rw [horder n1 (by simp)] at hlow
  have hhigh := hqueue b hb
  simp only at hlow hhigh ⊢
  omega

theorem run_ready (hnet : Network nodes succ inDegree pushed) (n : ℕ) {done : List α}
    {s : State α} (h : Ready nodes succ inDegree pushed done s) :
    ∃ done', Ready nodes succ inDegree pushed done' (run succ n s) ∧
      ((run succ n s).queue = [] ∨ done'.length = done.length + n) := by
  induction n generalizing done s with
  | zero => exact ⟨done, h, Or.inr rfl⟩
  | succ n ih =>
      cases hs : s.queue with
      | nil =>
          have hstep : step succ s = s := by simp only [step, hs]
          obtain ⟨done', hready, _⟩ := ih h
          have hidle : ∀ m, run succ m s = s := by
            intro m
            induction m with
            | zero => rfl
            | succ m ihm => rw [run, hstep, ihm]
          exact ⟨done, by rw [hidle]; exact h, Or.inl (by rw [hidle]; exact hs)⟩
      | cons n1 rest =>
          obtain ⟨done', hready, hend⟩ := ih (step_ready hnet h hs)
          refine ⟨done', hready, hend.imp id (fun hlen => ?_)⟩
          rw [hlen, List.length_append, List.length_singleton]
          omega

/-- As many dequeuings as there are vertices empty the queue. -/
theorem run_finishes (hnet : Network nodes succ inDegree pushed) :
    ∃ done, Ready nodes succ inDegree pushed done
        (run succ nodes.length (start nodes inDegree pushed)) ∧
      (run succ nodes.length (start nodes inDegree pushed)).queue = [] := by
  obtain ⟨done, hready, hend⟩ := run_ready hnet nodes.length (start_ready hnet)
  refine ⟨done, hready, hend.elim id (fun hlen => ?_)⟩
  have hsub : done ++ (run succ nodes.length (start nodes inDegree pushed)).queue ⊆ nodes :=
    fun v hv => ((hready.1.mem v).mp hv).1
  have hle := (hready.1.nodup.subperm hsub).length_le
  rw [List.length_append, hlen] at hle
  exact List.length_eq_zero_iff.mp (by simpa using hle)

omit [DecidableEq α] in
/-- Behind a released vertex everything is released, at a lower order. -/
theorem Inv.edge {done : List α} {seen : α → ℕ} {s : State α}
    (h : Inv nodes succ inDegree pushed done seen s)
    {u v : α} (hv : v ∈ nodes) (hzero : s.inDegree v = 0) (hedge : Edge nodes succ inDegree u v) :
    (u ∈ nodes ∧ s.inDegree u = 0) ∧ s.order u < s.order v := by
  obtain ⟨hu, hmem, hroot⟩ := hedge
  obtain ⟨hdone, hle⟩ := (h.depth v hv hroot hzero).2 u hu hmem
  have hreleased := ((h.mem u).mp (List.mem_append_left _ hdone)).2.1
  exact ⟨⟨hu, hreleased⟩, by omega⟩

omit [DecidableEq α] in
theorem Inv.not_blocked {done : List α} {seen : α → ℕ} {s : State α}
    (h : Inv nodes succ inDegree pushed done seen s)
    {v : α} (hv : v ∈ nodes) (hzero : s.inDegree v = 0) :
    ¬ Walks.Blocked (Edge nodes succ inDegree) v :=
  Walks.not_blocked_of_rank (s := {w | w ∈ nodes ∧ s.inDegree w = 0}) s.order
    (fun _ _ hb hedge => h.edge hb.1 hb.2 hedge) ⟨hv, hzero⟩

end Invariant

/-! ## What the orders are -/

/-- The orders the traversal leaves behind. -/
def orders (nodes : List α) (succ : α → List α) (inDegree : α → ℕ)
    (pushed : α → Bool) : α → ℤ :=
  (run succ nodes.length (start nodes inDegree pushed)).order

variable {nodes : List α} {succ : α → List α} {inDegree : α → ℕ} {pushed : α → Bool}

theorem orders_root (hnet : Network nodes succ inDegree pushed) {v : α}
    (hroot : inDegree v = 0) : orders nodes succ inDegree pushed v = 0 := by
  obtain ⟨done, hready, _⟩ := run_finishes hnet
  exact (hready.1.root v hroot).2

/-- Every vertex either is blocked behind a blocked predecessor, or lies one
level above its deepest predecessor and none of its predecessors is blocked. -/
theorem orders_cases (hnet : Network nodes succ inDegree pushed) {v : α}
    (hv : v ∈ nodes) (hroot : inDegree v ≠ 0) :
    (orders nodes succ inDegree pushed v = -1 ∧
        ∃ u, Edge nodes succ inDegree u v ∧ orders nodes succ inDegree pushed u = -1) ∨
      ((∃ u, Edge nodes succ inDegree u v ∧
          orders nodes succ inDegree pushed v = orders nodes succ inDegree pushed u + 1) ∧
        ∀ u, Edge nodes succ inDegree u v → 0 ≤ orders nodes succ inDegree pushed u ∧
          orders nodes succ inDegree pushed u + 1 ≤ orders nodes succ inDegree pushed v) := by
  obtain ⟨done, ⟨hinv, _⟩, hqueue⟩ := run_finishes hnet
  have hsub : ∀ u ∈ done, u ∈ nodes := fun u hu =>
    ((hinv.mem u).mp (List.mem_append_left _ hu)).1
  by_cases hzero : (run succ nodes.length (start nodes inDegree pushed)).inDegree v = 0
  · right
    obtain ⟨⟨u, hu, hmem, heq⟩, hall⟩ := hinv.depth v hv hroot hzero
    refine ⟨⟨u, ⟨hsub u hu, hmem, hroot⟩, heq⟩, fun w hw => ?_⟩
    obtain ⟨hwd, hle⟩ := hall w hw.1 hw.2.1
    have hwzero := ((hinv.mem w).mp (List.mem_append_left _ hwd)).2.1
    exact ⟨hinv.released w hwzero, hle⟩
  · left
    refine ⟨hinv.waiting v hzero, ?_⟩
    by_contra hnone
    have hpreds : ∀ u ∈ nodes, v ∈ succ u → u ∈ done := by
      intro u hu hmem
      have hpushed : pushed u = true := by
        by_contra hpushed
        exact hroot ((hnet.unpushed u hu (by simpa using hpushed)).2 v hmem)
      have hudeg : (run succ nodes.length (start nodes inDegree pushed)).inDegree u = 0 := by
        by_contra hudeg
        exact hnone ⟨u, ⟨hu, hmem, hroot⟩, hinv.waiting u hudeg⟩
      have hin := (hinv.mem u).mpr ⟨hu, hudeg, hpushed⟩
      rwa [hqueue, List.append_nil] at hin
    have hsum : inDegree v = ∑ u ∈ done.toFinset, (succ u).count v := by
      rw [hnet.degree v hv hroot]
      symm
      refine Finset.sum_subset (fun u hu => ?_) (fun u hu hnot => ?_)
      · exact List.mem_toFinset.mpr (hsub u (List.mem_toFinset.mp hu))
      · refine List.count_eq_zero_of_not_mem (fun hmem => hnot ?_)
        exact List.mem_toFinset.mpr (hpreds u (List.mem_toFinset.mp hu) hmem)
    have hcount := hinv.count v hv hroot
    omega

/-- The vertices on or behind a cycle keep the order -1, the others get one. -/
theorem orders_blocked (hnet : Network nodes succ inDegree pushed) {v : α} (hv : v ∈ nodes)
    (h : Walks.Blocked (Edge nodes succ inDegree) v) :
    orders nodes succ inDegree pushed v = -1 := by
  obtain ⟨done, ⟨hinv, _⟩, _⟩ := run_finishes hnet
  apply hinv.waiting v
  intro hzero
  exact hinv.not_blocked hv hzero h

theorem orders_nonneg (hnet : Network nodes succ inDegree pushed) {v : α} (hv : v ∈ nodes)
    (h : ¬ Walks.Blocked (Edge nodes succ inDegree) v) :
    0 ≤ orders nodes succ inDegree pushed v := by
  by_contra hneg
  -- The vertices with a negative order each have a predecessor of the same kind.
  refine h (Walks.blocked_of_predecessors
    (s := {w | w ∈ nodes ∧ ¬ 0 ≤ orders nodes succ inDegree pushed w})
    ((List.finite_toSet nodes).subset fun w hw => hw.1) ?_ ⟨hv, hneg⟩)
  rintro m ⟨hm, hmneg⟩
  have hroot : inDegree m ≠ 0 := by
    intro hroot
    rw [orders_root hnet hroot] at hmneg
    omega
  rcases orders_cases hnet hm hroot with ⟨_, u, hedge, hu⟩ | ⟨⟨u, hedge, _⟩, hall⟩
  · exact ⟨u, ⟨hedge.1, by rw [hu]; omega⟩, hedge⟩
  · have := hall u hedge
    omega

/-- The order bounds the length of every walk that ends in the vertex. -/
theorem walk_le_orders (hnet : Network nodes succ inDegree pushed) {k : ℕ} {u v : α}
    (hwalk : Walks.Walk (Edge nodes succ inDegree) k u v)
    (hv : v ∈ nodes) (hnonneg : 0 ≤ orders nodes succ inDegree pushed v) :
    (k : ℤ) ≤ orders nodes succ inDegree pushed v := by
  induction hwalk with
  | nil u => exact hnonneg
  | @snoc k u v w _ hedge ih =>
      rcases orders_cases hnet hv hedge.2.2 with ⟨hblocked, _⟩ | ⟨_, hall⟩
      · omega
      · obtain ⟨hpos, hle⟩ := hall v hedge
        have := ih hedge.1 hpos
        push_cast
        omega

/-- The order is attained by a walk. -/
theorem exists_walk_orders (hnet : Network nodes succ inDegree pushed) (k : ℕ) {v : α}
    (hv : v ∈ nodes) (hk : orders nodes succ inDegree pushed v = k) :
    ∃ u ∈ nodes, Walks.Walk (Edge nodes succ inDegree) k u v := by
  induction k generalizing v with
  | zero => exact ⟨v, hv, .nil v⟩
  | succ k ih =>
      have hroot : inDegree v ≠ 0 := by
        intro hroot
        rw [orders_root hnet hroot] at hk
        omega
      rcases orders_cases hnet hv hroot with ⟨hblocked, _⟩ | ⟨⟨u, hedge, heq⟩, _⟩
      · rw [hblocked] at hk
        omega
      · obtain ⟨w, hw, hwalk⟩ := ih hedge.1 (by push_cast at hk; omega)
        exact ⟨w, hw, hwalk.snoc hedge⟩

/-! ## Part of a network -/

section Part

variable {part : Set α} {succ succ' : α → List α} {a b : State α}

/-- Two traversals are the same on a part of the vertices, and neither has come to
another vertex. -/
structure Agree (part : Set α) (a b : State α) : Prop where
  queue : a.queue = b.queue
  within : ∀ v ∈ a.queue, v ∈ part
  inDegree : ∀ v ∈ part, a.inDegree v = b.inDegree v
  order : ∀ v ∈ part, a.order v = b.order v

theorem Agree.update (h : Agree part a b) (v : α) (queue : List α) (inDegree : ℕ) (order : ℤ)
    (hqueue : ∀ v ∈ queue, v ∈ part) :
    Agree part
      ⟨queue, Function.update a.inDegree v inDegree, Function.update a.order v order⟩
      ⟨queue, Function.update b.inDegree v inDegree, Function.update b.order v order⟩ := by
  refine ⟨rfl, hqueue, fun w hw => ?_, fun w hw => ?_⟩
  · simp only [Function.update_apply, h.inDegree w hw]
  · simp only [Function.update_apply, h.order w hw]

theorem Agree.relax (h : Agree part a b) {n1 n2 : α} (hn1 : n1 ∈ part) (hn2 : n2 ∈ part) :
    Agree part (relax n1 a n2) (relax n1 b n2) := by
  unfold Kahn.relax
  rw [← h.inDegree n2 hn2, ← h.order n1 hn1, ← h.queue]
  split
  · exact h
  · split
    · apply h.update n2 (a.queue ++ [n2]) 0 (a.order n1 + 1)
      intro v hv
      rcases List.mem_append.mp hv with hv | hv
      · exact h.within v hv
      · rw [List.mem_singleton.mp hv]
        exact hn2
    · refine ⟨rfl, h.within, fun w hw => ?_, h.order⟩
      simp only [Function.update_apply, h.inDegree w hw]

/-- A part from which no edge leaves is traversed on its own. -/
theorem Agree.step (h : Agree part a b) (hsucc : ∀ u ∈ part, succ u = succ' u)
    (hclosed : ∀ u ∈ part, ∀ v ∈ succ u, v ∈ part) :
    Agree part (step succ a) (step succ' b) := by
  unfold Kahn.step
  rw [← h.queue]
  cases hqueue : a.queue with
  | nil => exact h
  | cons n1 rest =>
      have hwithin := h.within
      rw [hqueue] at hwithin
      obtain ⟨hn1, hrest⟩ := List.forall_mem_cons.mp hwithin
      have hrelax : ∀ (l : List α) (a b : State α), Agree part a b → (∀ v ∈ l, v ∈ part) →
          Agree part (l.foldl (Kahn.relax n1) a) (l.foldl (Kahn.relax n1) b) := by
        intro l
        induction l with
        | nil => exact fun _ _ h _ => h
        | cons v rest ih =>
            intro a b h hl
            obtain ⟨hv, hrest⟩ := List.forall_mem_cons.mp hl
            exact ih _ _ (h.relax hn1 hv) hrest
      dsimp only
      rw [← hsucc n1 hn1]
      apply hrelax
      · exact ⟨rfl, hrest, h.inDegree, h.order⟩
      · exact hclosed n1 hn1

theorem Agree.run (h : Agree part a b) (hsucc : ∀ u ∈ part, succ u = succ' u)
    (hclosed : ∀ u ∈ part, ∀ v ∈ succ u, v ∈ part) (n : ℕ) :
    Agree part (run succ n a) (run succ' n b) := by
  induction n with
  | zero => exact h
  | succ n ih =>
      rw [run_succ, run_succ]
      exact ih.step hsucc hclosed

end Part

end Kahn
