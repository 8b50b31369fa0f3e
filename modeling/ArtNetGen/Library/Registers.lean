import ArtNetGen.Library.Adjacency
import ArtNetGen.Library.Walk
import Mathlib.Data.List.Perm.Subperm

/-!
Registers in a graph. Only the edges that do not end in a register carry depth,
so a walk along them never passes through one. The splices of a fresh register
next to old ones, which become plain vertices, keep the carrying edges acyclic;
the lemmas say exactly when they keep a bound on the depth.
-/

namespace Adjacency

open Walks

variable {α : Type*} [DecidableEq α]

def Carries (g : Adjacency α) (registers : Set α) (u v : α) : Prop :=
  v ∈ g.sinks u ∧ v ∉ registers

/-- A register is spliced next to registers that cease to be such. -/
structure Replaces (g : Adjacency α) (before after : Set α) (collected targets : List α)
    (node : α) : Prop where
  simple : g.Simple
  fresh : g.Fresh node
  collectedNodup : collected.Nodup
  notCollected : node ∉ collected
  targetsNodup : targets.Nodup
  notTarget : node ∉ targets
  registers : ∀ t ∈ targets, t ∈ before
  mem : ∀ v, v ∈ after ↔ v = node ∨ (v ∈ before ∧ v ∉ targets)

variable {g : Adjacency α} {before after : Set α} {collected targets : List α} {node : α}

/-- In front of the targets the new register is a new start for walks. -/
theorem Replaces.carries_front (h : g.Replaces before after collected targets node) (u v : α) :
    (g.spliceFront collected targets node).Carries after u v ↔
      g.Carries before u v ∨ (u = node ∧ v ∈ targets) := by
  rw [Carries, Carries, h.mem, mem_spliceFront_sinks h.simple h.fresh h.collectedNodup
    h.notCollected h.targetsNodup h.notTarget]
  have hnode : node ∉ g.sinks u := h.fresh.not_mem_sinks h.simple.mirrored u
  by_cases hv : v = node
  · subst hv
    simp [hnode, h.notTarget]
  · by_cases hmem : v ∈ targets
    · simp [hv, hmem, h.registers v hmem]
    · simp [hv, hmem]

/-- Behind the targets it takes over their edges, and the edges into the targets
begin to carry. -/
theorem Replaces.carries_back (h : g.Replaces before after collected targets node)
    (hcollected : ∀ v, v ∈ collected ↔ ∃ t ∈ targets, v ∈ g.sinks t) (u v : α) :
    (g.spliceBack collected targets node).Carries after u v ↔
      ((u = node ∧ ∃ t ∈ targets, v ∈ g.sinks t) ∨
        (u ≠ node ∧ u ∉ targets ∧ v ∈ g.sinks u)) ∧ (v ∉ before ∨ v ∈ targets) := by
  rw [Carries, h.mem, mem_spliceBack_sinks collected targets h.fresh h.targetsNodup h.notTarget,
    hcollected]
  have hnode : ∀ w, node ∉ g.sinks w := h.fresh.not_mem_sinks h.simple.mirrored
  by_cases hv : v = node
  · subst hv
    simp [hnode]
  · by_cases hu : u = node
    · subst hu
      simp [hv, h.notTarget]
      tauto
    · by_cases hmem : u ∈ targets
      · simp [hu, hmem, hv]
      · simp [hu, hmem, hv]
        tauto

theorem Replaces.acyclic_front (h : g.Replaces before after collected targets node)
    (hacyclic : Acyclic (g.Carries before)) :
    Acyclic ((g.spliceFront collected targets node).Carries after) := by
  apply hacyclic.of_inner
  rintro a b hab ⟨c, hca⟩ _
  -- Nothing leads to the new register.
  rcases (h.carries_front a b).mp hab with hold | ⟨rfl, -⟩
  · exact hold
  · exact absurd ((h.mem a).mpr (Or.inl rfl)) hca.2

theorem Replaces.acyclic_back (h : g.Replaces before after collected targets node)
    (hcollected : ∀ v, v ∈ collected ↔ ∃ t ∈ targets, v ∈ g.sinks t)
    (hacyclic : Acyclic (g.Carries before)) :
    Acyclic ((g.spliceBack collected targets node).Carries after) := by
  apply hacyclic.of_inner
  rintro a b hab ⟨c, hca⟩ ⟨d, hbd⟩
  rw [h.carries_back hcollected] at hab hbd
  -- Nothing leads to the new register, and the targets lead nowhere else.
  rcases hab with ⟨⟨rfl, -⟩ | ⟨-, -, hsinks⟩, hhead⟩
  · exact absurd ((h.mem a).mpr (Or.inl rfl)) hca.2
  · refine ⟨hsinks, hhead.resolve_right fun hmem => ?_⟩
    rcases hbd with ⟨⟨rfl, -⟩ | ⟨-, hnot, -⟩, -⟩
    · exact h.notTarget hmem
    · exact hnot hmem

/-! ## Depth -/

/-- A walk after a front splice is an old one, possibly begun one step earlier at
the new register. -/
theorem Replaces.walk_front (h : g.Replaces before after collected targets node) {k : ℕ}
    {u v : α} (walk : Walk ((g.spliceFront collected targets node).Carries after) k u v) :
    Walk (g.Carries before) k u v ∨
      ∃ m, ∃ t ∈ targets, k = m + 1 ∧ Walk (g.Carries before) m t v := by
  induction walk with
  | nil u => exact Or.inl (.nil u)
  | @snoc k u v w inner edge ih =>
      rcases (h.carries_front v w).mp edge with hold | ⟨rfl, ht⟩
      · rcases ih with ih | ⟨m, t, ht, rfl, ih⟩
        · exact Or.inl (ih.snoc hold)
        · exact Or.inr ⟨m + 1, t, ht, rfl, ih.snoc hold⟩
      · -- Nothing leads to the new register, so the walk starts there.
        cases inner with
        | nil => exact Or.inr ⟨0, w, ht, rfl, .nil w⟩
        | snoc _ edge' => exact absurd ((h.mem v).mpr (Or.inl rfl)) edge'.2

theorem Replaces.bounded_front (h : g.Replaces before after collected targets node) (T : ℕ) :
    Bounded ((g.spliceFront collected targets node).Carries after) T ↔
      Bounded (g.Carries before) T ∧
        ∀ t ∈ targets, ∀ k v, Walk (g.Carries before) k t v → k + 1 ≤ T := by
  have hmono : ∀ a b, g.Carries before a b →
      (g.spliceFront collected targets node).Carries after a b := fun a b hab =>
    (h.carries_front a b).mpr (Or.inl hab)
  constructor
  · refine fun hT => ⟨fun k u v walk => hT k u v (walk.mono hmono), fun t ht k v walk => ?_⟩
    exact hT (k + 1) node v
      (.cons ((h.carries_front node t).mpr (Or.inr ⟨rfl, ht⟩)) (walk.mono hmono))
  · rintro ⟨hT, hroom⟩ k u v walk
    rcases h.walk_front walk with hold | ⟨m, t, ht, rfl, hold⟩
    · exact hT k u v hold
    · exact hroom t ht m v hold

/-- A walk after a back splice is an old one, except that it may begin at the new
register in place of a target and end in a target. -/
theorem Replaces.walk_back (h : g.Replaces before after collected targets node)
    (hcollected : ∀ v, v ∈ collected ↔ ∃ t ∈ targets, v ∈ g.sinks t) {k : ℕ} {u v : α}
    (walk : Walk ((g.spliceBack collected targets node).Carries after) k u v) :
    k = 0 ∨ (v ∉ targets ∧ ∃ u', Walk (g.Carries before) k u' v) ∨
      (v ∈ targets ∧ ∃ m u' w, k = m + 1 ∧ Walk (g.Carries before) m u' w ∧
        v ∈ g.sinks w) := by
  induction walk with
  | nil u => exact Or.inl rfl
  | @snoc k u v w inner edge ih =>
      obtain ⟨hedge, hhead⟩ := (h.carries_back hcollected v w).mp edge
      -- The old walk up to the last edge, and where it leaves from.
      obtain ⟨u', v', hold, hsinks⟩ : ∃ u' v', Walk (g.Carries before) k u' v' ∧
          w ∈ g.sinks v' := by
        rcases hedge with ⟨rfl, t, ht, hsinks⟩ | ⟨hne, hnot, hsinks⟩
        · cases inner with
          | nil => exact ⟨t, t, .nil t, hsinks⟩
          | snoc _ edge' => exact absurd ((h.mem v).mpr (Or.inl rfl)) edge'.2
        · rcases ih with rfl | ⟨-, u', hold⟩ | ⟨hmem, -⟩
          · exact ⟨v, v, .nil v, hsinks⟩
          · exact ⟨u', v, hold, hsinks⟩
          · exact absurd hmem hnot
      by_cases hw : w ∈ targets
      · exact Or.inr (Or.inr ⟨hw, k, u', v', rfl, hold, hsinks⟩)
      · exact Or.inr (Or.inl ⟨hw, u', hold.snoc ⟨hsinks, hhead.resolve_right hw⟩⟩)

/-- An old edge leaves from the new register if it left from a target. -/
theorem Replaces.carries_back_of (h : g.Replaces before after collected targets node)
    (hcollected : ∀ v, v ∈ collected ↔ ∃ t ∈ targets, v ∈ g.sinks t) {v w : α}
    (hsinks : w ∈ g.sinks v) (hhead : w ∉ before ∨ w ∈ targets) :
    (g.spliceBack collected targets node).Carries after (if v ∈ targets then node else v) w := by
  rw [h.carries_back hcollected]
  by_cases hv : v ∈ targets
  · exact ⟨Or.inl ⟨if_pos hv, v, hv, hsinks⟩, hhead⟩
  · rw [if_neg hv]
    refine ⟨Or.inr ⟨?_, hv, hsinks⟩, hhead⟩
    rintro rfl
    rw [h.fresh.2] at hsinks
    cases hsinks

/-- The old walks remain, begun at the new register where they began at a
target. -/
theorem Replaces.exists_walk_back (h : g.Replaces before after collected targets node)
    (hcollected : ∀ v, v ∈ collected ↔ ∃ t ∈ targets, v ∈ g.sinks t) {k : ℕ} {u v w : α}
    (walk : Walk (g.Carries before) k u v) (hsinks : w ∈ g.sinks v)
    (hhead : w ∉ before ∨ w ∈ targets) :
    ∃ u', Walk ((g.spliceBack collected targets node).Carries after) (k + 1) u' w := by
  have hlast := h.carries_back_of hcollected hsinks hhead
  induction walk generalizing w with
  | nil v => exact ⟨_, (Walk.nil _).snoc hlast⟩
  | @snoc k u v' v inner edge ih =>
      have hv : v ∉ targets := fun hmem => edge.2 (h.registers v hmem)
      obtain ⟨u', hnew⟩ := ih edge.1 (Or.inl edge.2)
        (h.carries_back_of hcollected edge.1 (Or.inl edge.2))
      rw [if_neg hv] at hlast
      exact ⟨u', hnew.snoc hlast⟩

theorem Replaces.bounded_back (h : g.Replaces before after collected targets node)
    (hcollected : ∀ v, v ∈ collected ↔ ∃ t ∈ targets, v ∈ g.sinks t) (T : ℕ) :
    Bounded ((g.spliceBack collected targets node).Carries after) T ↔
      Bounded (g.Carries before) T ∧
        ∀ t ∈ targets, ∀ w ∈ g.sources t, ∀ k u, Walk (g.Carries before) k u w →
          k + 1 ≤ T := by
  constructor
  · refine fun hT => ⟨fun k u v walk => ?_, fun t ht w hw k u walk => ?_⟩
    · cases walk with
      | nil => exact Nat.zero_le T
      | snoc walk edge =>
          obtain ⟨u', hnew⟩ := h.exists_walk_back hcollected walk edge.1 (Or.inl edge.2)
          exact hT _ u' v hnew
    · obtain ⟨u', hnew⟩ := h.exists_walk_back hcollected walk
        (h.simple.mirrored.mem_iff.mpr hw) (Or.inr ht)
      exact hT _ u' t hnew
  · rintro ⟨hT, hroom⟩ k u v walk
    rcases h.walk_back hcollected walk with rfl | ⟨-, u', hold⟩ | ⟨hv, m, u', w, rfl, hold, hsinks⟩
    · exact Nat.zero_le T
    · exact hT k u' v hold
    · exact hroom v hv w (h.simple.mirrored.mem_iff.mp hsinks) m u' hold

/-! ## Degrees -/

/-- A source of a target exchanges one sink for the new register. -/
theorem Replaces.length_front_sinks_le (h : g.Replaces before after collected targets node)
    (hcollected : ∀ u, u ∈ collected ↔ ∃ t ∈ targets, u ∈ g.sources t) {u : α} (hu : u ≠ node) :
    ((g.spliceFront collected targets node).sinks u).length ≤ (g.sinks u).length := by
  have hlength := length_spliceFront_sinks h.simple h.fresh h.collectedNodup h.notCollected
    h.targetsNodup h.notTarget hu
  split at hlength
  · next hin =>
      obtain ⟨t, ht, hsource⟩ := (hcollected u).mp hin
      have hpos : 0 < (targets.filter fun t => decide (t ∈ g.sinks u)).length :=
        List.length_pos_of_mem
          (List.mem_filter.mpr ⟨ht, decide_eq_true (h.simple.mirrored.mem_iff.mpr hsource)⟩)
      omega
  · omega

theorem Replaces.flip (h : g.Replaces before after collected targets node) :
    g.flip.Replaces before after collected targets node :=
  { h with simple := h.simple.flip, fresh := h.fresh.flip }

theorem Replaces.length_back_sources_le (h : g.Replaces before after collected targets node)
    (hcollected : ∀ v, v ∈ collected ↔ ∃ t ∈ targets, v ∈ g.sinks t) {v : α} (hv : v ≠ node) :
    ((g.spliceBack collected targets node).sources v).length ≤ (g.sources v).length := by
  have hflip := h.flip.length_front_sinks_le hcollected hv
  rw [← flip_spliceBack] at hflip
  exact hflip

/-- The sources of the new register are the targets. -/
theorem Replaces.length_back_node (h : g.Replaces before after collected targets node) :
    ((g.spliceBack collected targets node).sources node).length = targets.length := by
  have hsimple := h.simple.spliceBack h.fresh h.collectedNodup h.notCollected h.targetsNodup
    h.notTarget
  refine List.Perm.length_eq ((List.perm_ext_iff_of_nodup (hsimple.sources_nodup node)
    h.targetsNodup).mpr fun u => ?_)
  rw [← hsimple.mirrored.mem_iff, mem_spliceBack_sinks collected targets h.fresh h.targetsNodup
    h.notTarget]
  have hnode : node ∉ g.sinks u := h.fresh.not_mem_sinks h.simple.mirrored u
  by_cases hu : u = node
  · subst hu
    simp [h.notCollected, h.notTarget]
  · by_cases hmem : u ∈ targets <;> simp [hu, hmem, hnode]

theorem Replaces.length_front_node (h : g.Replaces before after collected targets node) :
    ((g.spliceFront collected targets node).sinks node).length = targets.length := by
  have hflip := h.flip.length_back_node
  have hsinks := congrArg (fun g => (g.sinks node).length)
    (g.flip.flip_spliceBack collected targets node)
  exact hsinks.symm.trans hflip

end Adjacency
