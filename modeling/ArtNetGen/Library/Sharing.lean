import ArtNetGen.Library.Registers

/-!
Registers that are shared. A walk enters registers, and some registers may stand
for one: having entered one of them it may leave from any other. Splicing a
fresh register next to old ones, which become plain vertices, is sharing them,
as far as walks between plain vertices and the registers they enter go.
-/

namespace Adjacency

variable {α β : Type*}

/-- `g.Passes registers home k u v`: a walk from `u` to `v` that enters registers
`k` times. Registers with one home stand for one register. -/
inductive Passes (g : Adjacency α) (registers : Set α) (home : α → β) : ℕ → α → α → Prop where
  | nil (u : α) : Passes g registers home 0 u u
  | plain {k : ℕ} {u v w : α} : Passes g registers home k u v → w ∈ g.sinks v →
      w ∉ registers → Passes g registers home k u w
  | enter {k : ℕ} {u v w : α} : Passes g registers home k u v → w ∈ g.sinks v →
      w ∈ registers → Passes g registers home (k + 1) u w
  | share {k : ℕ} {u v w : α} : Passes g registers home k u v → v ∈ registers →
      w ∈ registers → home v = home w → Passes g registers home k u w

/-- The more registers stand for one, the more walks there are. -/
theorem Passes.coarsen {γ : Type*} {g : Adjacency α} {registers : Set α} {home : α → β}
    {home' : α → γ} (h : ∀ v w, home v = home w → home' v = home' w) {k : ℕ} {u v : α}
    (walk : g.Passes registers home k u v) : g.Passes registers home' k u v := by
  induction walk with
  | nil u => exact .nil u
  | plain _ hsink hplain ih => exact .plain ih hsink hplain
  | enter _ hsink hregister ih => exact .enter ih hsink hregister
  | share _ hv hw hhome ih => exact .share ih hv hw (h _ _ hhome)

theorem exists_passes {g : Adjacency α} (registers : Set α) (home : α → β) {u v : α}
    (h : Relation.ReflTransGen (fun a b => b ∈ g.sinks a) u v) :
    ∃ k, g.Passes registers home k u v := by
  induction h with
  | refl => exact ⟨0, .nil u⟩
  | @tail v w _ edge ih =>
      obtain ⟨k, walk⟩ := ih
      by_cases hw : w ∈ registers
      · exact ⟨k + 1, walk.enter edge hw⟩
      · exact ⟨k, walk.plain edge hw⟩

variable [DecidableEq α]

/-- The targets move to the home of the new register. -/
def rehome (targets : List α) (node : α) (home : α → β) (v : α) : β :=
  if v ∈ targets then home node else home v

theorem rehome_of_mem {targets : List α} {node : α} {home : α → β} {v : α} (h : v ∈ targets) :
    rehome targets node home v = home node := if_pos h

theorem rehome_of_not_mem {targets : List α} {node : α} {home : α → β} {v : α}
    (h : v ∉ targets) : rehome targets node home v = home v := if_neg h

namespace Replaces

variable {g : Adjacency α} {before after : Set α} {collected targets : List α} {node : α}
  {home : α → β} {k : ℕ} {u v : α}

/-- Where a walk that is at `v` is after the splice: at the new register if `v`
has given way to it. -/
def place (targets : List α) (node v : α) : α := if v ∈ targets then node else v

theorem place_mem (h : g.Replaces before after collected targets node) (hv : v ∈ before) :
    place targets node v ∈ after := by
  unfold place
  rw [h.mem]
  split
  · exact Or.inl rfl
  · next hmem => exact Or.inr ⟨hv, hmem⟩

theorem home_place (home : α → β) (targets : List α) (node v : α) :
    home (place targets node v) = rehome targets node home v := by
  unfold place rehome
  split
  · rfl
  · rfl

/-- A sharing step of the old walk is one of the new walk. -/
theorem share_place (h : g.Replaces before after collected targets node) {g' : Adjacency α}
    {w : α} (walk : g'.Passes after home k u (place targets node v)) (hv : v ∈ before)
    (hw : w ∈ before) (hhome : rehome targets node home v = rehome targets node home w) :
    g'.Passes after home k u (place targets node w) := by
  apply walk.share (h.place_mem hv) (h.place_mem hw)
  rw [home_place home, home_place home]
  exact hhome

/-- Whoever has entered one target may leave from any. -/
theorem share_targets (h : g.Replaces before after collected targets node) {t t' : α}
    (ht : t ∈ targets) (ht' : t' ∈ targets)
    (walk : g.Passes before (rehome targets node home) k u t) :
    g.Passes before (rehome targets node home) k u t' := by
  apply walk.share (h.registers t ht) (h.registers t' ht')
  rw [rehome_of_mem ht, rehome_of_mem ht']

/-- A sharing step of the new walk is one of the old walk. -/
theorem share_back (h : g.Replaces before after collected targets node) (hne : targets ≠ [])
    {x y : α} (hx : x ∈ after) (hy : y ∈ after) (hhome : home x = home y)
    (hold : x ∉ targets → x ≠ node → g.Passes before (rehome targets node home) k u x)
    (hnew : x = node → ∀ t ∈ targets, g.Passes before (rehome targets node home) k u t) :
    (y ≠ node → g.Passes before (rehome targets node home) k u y) ∧
      (y = node → ∀ t ∈ targets, g.Passes before (rehome targets node home) k u t) := by
  obtain ⟨t, ht⟩ := List.exists_mem_of_ne_nil targets hne
  -- Some register with the home of `x` has been reached.
  obtain ⟨z, hz, hzhome, walk⟩ : ∃ z ∈ before, rehome targets node home z = home x ∧
      g.Passes before (rehome targets node home) k u z := by
    by_cases hnode : x = node
    · refine ⟨t, h.registers t ht, ?_, hnew hnode t ht⟩
      rw [rehome_of_mem ht, hnode]
    · obtain ⟨hbefore, hmem⟩ := ((h.mem x).mp hx).resolve_left hnode
      exact ⟨x, hbefore, rehome_of_not_mem hmem, hold hmem hnode⟩
  constructor
  · intro hynode
    obtain ⟨hbefore, hmem⟩ := ((h.mem y).mp hy).resolve_left hynode
    apply walk.share hz hbefore
    rw [hzhome, hhome, rehome_of_not_mem hmem]
  · intro hynode t' ht'
    apply walk.share hz (h.registers t' ht')
    rw [hzhome, hhome, hynode, rehome_of_mem ht']

/-! ## In front of the targets -/

/-- From where it is, a walk can go on to the vertex itself: the new register
leads to all targets. -/
theorem passes_of_place_front (h : g.Replaces before after collected targets node)
    (walk : (g.spliceFront collected targets node).Passes after home k u (place targets node v)) :
    (g.spliceFront collected targets node).Passes after home k u v := by
  unfold place at walk
  split at walk
  · next hmem =>
      have hne : v ≠ node := fun heq => h.notTarget (heq ▸ hmem)
      apply walk.plain
      · rw [mem_spliceFront_sinks h.simple h.fresh h.collectedNodup h.notCollected
          h.targetsNodup h.notTarget, if_neg hne, if_pos hmem]
      · rw [h.mem]
        simp [hne, hmem]
  · exact walk

theorem passes_front (h : g.Replaces before after collected targets node)
    (hcollected : ∀ v, v ∈ collected ↔ ∃ t ∈ targets, v ∈ g.sources t)
    (hu : u ∉ before)
    (walk : g.Passes before (rehome targets node home) k u v) :
    (g.spliceFront collected targets node).Passes after home k u (place targets node v) := by
  have hedge := mem_spliceFront_sinks h.simple h.fresh h.collectedNodup h.notCollected
    h.targetsNodup h.notTarget
  have hnode : ∀ w, node ∉ g.sinks w := h.fresh.not_mem_sinks h.simple.mirrored
  induction walk with
  | nil u =>
      have hmem : u ∉ targets := fun hin => hu (h.registers u hin)
      unfold place
      rw [if_neg hmem]
      exact .nil u
  | @plain k u v w _ hsink hplain ih =>
      have hmem : w ∉ targets := fun hin => hplain (h.registers w hin)
      have hne : w ≠ node := fun heq => hnode v (heq ▸ hsink)
      have hat := h.passes_of_place_front (ih hu)
      unfold place
      rw [if_neg hmem]
      apply hat.plain
      · rw [hedge, if_neg hne, if_neg hmem]
        exact hsink
      · rw [h.mem]
        simp [hne, hplain]
  | @enter k u v w _ hsink hregister ih =>
      have hne : w ≠ node := fun heq => hnode v (heq ▸ hsink)
      have hat := h.passes_of_place_front (ih hu)
      apply hat.enter
      · unfold place
        rw [hedge]
        split
        · next hmem =>
            rw [if_pos rfl, hcollected]
            exact ⟨w, hmem, h.simple.mirrored.mem_iff.mp hsink⟩
        · exact hsink
      · exact h.place_mem hregister
  | share _ hv hw hhome ih => exact h.share_place (ih hu) hv hw hhome

theorem passes_of_front (h : g.Replaces before after collected targets node)
    (hne : targets ≠ []) (hcollected : ∀ v, v ∈ collected ↔ ∃ t ∈ targets, v ∈ g.sources t)
    (hu : u ≠ node)
    (walk : (g.spliceFront collected targets node).Passes after home k u v) :
    (v ≠ node → g.Passes before (rehome targets node home) k u v) ∧
      (v = node → ∀ t ∈ targets, g.Passes before (rehome targets node home) k u t) := by
  have hedge := mem_spliceFront_sinks h.simple h.fresh h.collectedNodup h.notCollected
    h.targetsNodup h.notTarget
  have hleave : ∀ v, node ∉ g.sources v := h.fresh.not_mem_sources h.simple.mirrored
  induction walk with
  | nil u => exact ⟨fun _ => .nil u, fun heq => absurd heq hu⟩
  | @plain k u v w _ hsink hplain ih =>
      have hw : w ≠ node := fun heq => hplain ((h.mem w).mpr (Or.inl heq))
      refine ⟨fun _ => ?_, fun heq => absurd heq hw⟩
      rw [hedge, if_neg hw] at hsink
      split at hsink
      · next hmem => exact (ih hu).2 hsink w hmem
      · next hmem =>
          have hv : v ≠ node := by
            rintro rfl
            exact hleave w (h.simple.mirrored.mem_iff.mp hsink)
          apply ((ih hu).1 hv).plain hsink
          intro hbefore
          exact hplain ((h.mem w).mpr (Or.inr ⟨hbefore, hmem⟩))
  | @enter k u v w _ hsink hregister ih =>
      rw [hedge] at hsink
      split at hsink
      · next hw =>
          refine ⟨fun hnot => absurd hw hnot, fun _ t ht => ?_⟩
          obtain ⟨t', ht', hsource⟩ := (hcollected v).mp hsink
          have hv : v ≠ node := by
            rintro rfl
            exact h.notCollected hsink
          apply h.share_targets ht' ht
          exact ((ih hu).1 hv).enter (h.simple.mirrored.mem_iff.mpr hsource) (h.registers t' ht')
      · next hw =>
          obtain ⟨hbefore, hmem⟩ := ((h.mem w).mp hregister).resolve_left hw
          rw [if_neg hmem] at hsink
          have hv : v ≠ node := by
            rintro rfl
            exact hleave w (h.simple.mirrored.mem_iff.mp hsink)
          exact ⟨fun _ => ((ih hu).1 hv).enter hsink hbefore, fun heq => absurd heq hw⟩
  | share _ hv hw hhome ih =>
      exact h.share_back hne hv hw hhome (fun _ => (ih hu).1) (ih hu).2

/-! ## Behind the targets -/

theorem passes_back (h : g.Replaces before after collected targets node)
    (hcollected : ∀ v, v ∈ collected ↔ ∃ t ∈ targets, v ∈ g.sinks t)
    (hu : u ∉ before)
    (walk : g.Passes before (rehome targets node home) k u v) :
    (g.spliceBack collected targets node).Passes after home k u (place targets node v) := by
  have hedge := @mem_spliceBack_sinks _ _ g collected targets node h.fresh h.targetsNodup
    h.notTarget
  have hnode : ∀ w, node ∉ g.sinks w := h.fresh.not_mem_sinks h.simple.mirrored
  -- What the vertex leads to, the walk can go on to.
  have hleave : ∀ {v w}, w ∈ g.sinks v →
      w ∈ (g.spliceBack collected targets node).sinks (place targets node v) := by
    intro v w hsink
    have hv : v ≠ node := by
      rintro rfl
      exact h.fresh.not_mem_sources h.simple.mirrored w (h.simple.mirrored.mem_iff.mp hsink)
    unfold place
    rw [hedge]
    split
    · next hmem =>
        rw [if_pos rfl, hcollected]
        exact ⟨v, hmem, hsink⟩
    · exact hsink
  induction walk with
  | nil u =>
      have hmem : u ∉ targets := fun hin => hu (h.registers u hin)
      unfold place
      rw [if_neg hmem]
      exact .nil u
  | @plain k u v w _ hsink hplain ih =>
      have hmem : w ∉ targets := fun hin => hplain (h.registers w hin)
      have hne : w ≠ node := fun heq => hnode v (heq ▸ hsink)
      have hto := hleave hsink
      have hstay : place targets node w = w := if_neg hmem
      rw [hstay]
      apply (ih hu).plain hto
      rw [h.mem]
      simp [hne, hplain]
  | @enter k u v w _ hsink hregister ih =>
      have hne : w ≠ node := fun heq => hnode v (heq ▸ hsink)
      have hto := hleave hsink
      unfold place
      split
      · next hmem =>
          -- Over the old register, which is none any more, into the new one.
          have hover : w ∉ after := by
            rw [h.mem]
            simp [hne, hmem]
          apply ((ih hu).plain hto hover).enter
          · rw [hedge, if_neg hne, if_pos hmem]
          · rw [h.mem]
            exact Or.inl rfl
      · next hmem => exact (ih hu).enter hto ((h.mem w).mpr (Or.inr ⟨hregister, hmem⟩))
  | share _ hv hw hhome ih => exact h.share_place (ih hu) hv hw hhome

theorem passes_of_back (h : g.Replaces before after collected targets node)
    (hne : targets ≠ []) (hcollected : ∀ v, v ∈ collected ↔ ∃ t ∈ targets, v ∈ g.sinks t)
    (hu : u ≠ node) (hplain : u ∉ before)
    (walk : (g.spliceBack collected targets node).Passes after home k u v) :
    (v ∈ targets → g.Passes before (rehome targets node home) (k + 1) u v) ∧
      (v ∉ targets → v ≠ node → g.Passes before (rehome targets node home) k u v) ∧
      (v = node → ∀ t ∈ targets, g.Passes before (rehome targets node home) k u t) := by
  have hedge := @mem_spliceBack_sinks _ _ g collected targets node h.fresh h.targetsNodup
    h.notTarget
  have hnode : ∀ w, node ∉ g.sinks w := h.fresh.not_mem_sinks h.simple.mirrored
  -- The old edge that an edge to an old vertex comes from.
  have horigin : ∀ {k u v w}, w ≠ node →
      w ∈ (g.spliceBack collected targets node).sinks v →
      (v ∉ targets → v ≠ node → g.Passes before (rehome targets node home) k u v) →
      (v = node → ∀ t ∈ targets, g.Passes before (rehome targets node home) k u t) →
      ∃ x, g.Passes before (rehome targets node home) k u x ∧ w ∈ g.sinks x := by
    intro k u v w hw hsink hold hnew
    rw [hedge] at hsink
    split at hsink
    · next hv =>
        obtain ⟨t, ht, hsink⟩ := (hcollected w).mp hsink
        exact ⟨t, hnew hv t ht, hsink⟩
    · next hv =>
        split at hsink
        · exact absurd hsink hw
        · next hmem => exact ⟨v, hold hmem hv, hsink⟩
  induction walk with
  | nil u =>
      exact ⟨fun hin => absurd (h.registers u hin) hplain, fun _ _ => .nil u,
        fun heq => absurd heq hu⟩
  | @plain k u v w _ hsink hnot ih =>
      obtain ⟨-, hold, hnew⟩ := ih hu hplain
      have hw : w ≠ node := fun heq => hnot ((h.mem w).mpr (Or.inl heq))
      obtain ⟨x, walk, hsink⟩ := horigin hw hsink hold hnew
      refine ⟨fun hmem => walk.enter hsink (h.registers w hmem), fun hmem _ => ?_,
        fun heq => absurd heq hw⟩
      apply walk.plain hsink
      intro hbefore
      exact hnot ((h.mem w).mpr (Or.inr ⟨hbefore, hmem⟩))
  | @enter k u v w _ hsink hregister ih =>
      obtain ⟨htarget, hold, hnew⟩ := ih hu hplain
      by_cases hw : w = node
      · refine ⟨fun hmem => absurd (hw ▸ hmem) h.notTarget, fun _ hnot => absurd hw hnot,
          fun _ t ht => ?_⟩
        rw [hedge] at hsink
        -- Only the targets lead to the new register.
        split at hsink
        · obtain ⟨t', -, hto⟩ := (hcollected w).mp hsink
          exact absurd (hw ▸ hto) (hnode t')
        · split at hsink
          · next hmem => exact h.share_targets hmem ht (htarget hmem)
          · exact absurd (hw ▸ hsink) (hnode v)
      · obtain ⟨hbefore, hmem⟩ := ((h.mem w).mp hregister).resolve_left hw
        obtain ⟨x, walk, hsink⟩ := horigin hw hsink hold hnew
        exact ⟨fun hin => absurd hin hmem, fun _ _ => walk.enter hsink hbefore,
          fun heq => absurd heq hw⟩
  | @share k u v w _ hv hw hhome ih =>
      obtain ⟨-, hold, hnew⟩ := ih hu hplain
      obtain ⟨hto, hto'⟩ := h.share_back hne hv hw hhome hold hnew
      refine ⟨fun hmem => ?_, fun _ => hto, hto'⟩
      rcases (h.mem w).mp hw with rfl | ⟨-, hnot⟩
      · exact absurd hmem h.notTarget
      · exact absurd hmem hnot

/-! ## Both -/

/-- Between vertices that are no registers, a splice is the same as sharing the
registers that give way. -/
theorem passes_iff (h : g.Replaces before after collected targets node) (front : Bool)
    (hne : targets ≠ [])
    (hcollected : ∀ v, v ∈ collected ↔ ∃ t ∈ targets, v ∈ if front then g.sources t else g.sinks t)
    (home : α → β) (k : ℕ) (hu : u ∉ before) (hunode : u ≠ node) (hv : v ∉ before)
    (hvnode : v ≠ node) :
    (if front then g.spliceFront collected targets node
      else g.spliceBack collected targets node).Passes after home k u v ↔
      g.Passes before (rehome targets node home) k u v := by
  have hmem : v ∉ targets := fun hin => hv (h.registers v hin)
  have hstay : place targets node v = v := if_neg hmem
  cases front
  · constructor
    · exact fun walk => (h.passes_of_back hne hcollected hunode hu walk).2.1 hmem hvnode
    · intro walk
      have hto := h.passes_back hcollected hu walk
      rwa [hstay] at hto
  · constructor
    · exact fun walk => (h.passes_of_front hne hcollected hunode walk).1 hvnode
    · intro walk
      have hto := h.passes_front hcollected hu walk
      rwa [hstay] at hto

end Replaces

end Adjacency
