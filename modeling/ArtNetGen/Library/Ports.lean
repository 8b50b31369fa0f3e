import ArtNetGen.Library.Adjacency
import Mathlib.Data.List.Perm.Subperm

/-!
Ports of a graph: inputs have no source, outputs have no sink and at most one
source. Splicing vertices that are no ports leaves the ports as they are, except
that an output may change its driver.
-/

namespace Adjacency

variable {α : Type*} [DecidableEq α]

structure Ported (g : Adjacency α) (inputs outputs : Set α) : Prop where
  input : ∀ v ∈ inputs, g.sources v = []
  output : ∀ v ∈ outputs, g.sinks v = [] ∧ (g.sources v).length ≤ 1

omit [DecidableEq α] in
theorem Ported.mono {g : Adjacency α} {inputs outputs inputs' outputs' : Set α}
    (h : g.Ported inputs outputs) (hin : inputs' ⊆ inputs) (hout : outputs' ⊆ outputs) :
    g.Ported inputs' outputs' :=
  ⟨fun v hv => h.input v (hin hv), fun v hv => h.output v (hout hv)⟩

omit [DecidableEq α] in
theorem length_le_one_of_forall_eq {l : List α} (hnodup : l.Nodup) {c : α}
    (h : ∀ a ∈ l, a = c) : l.length ≤ 1 :=
  (List.Nodup.subperm hnodup fun a ha => List.mem_singleton.mpr (h a ha)).length_le

section Splice

variable {g : Adjacency α} {inputs outputs : Set α} {collected targets : List α} {node : α}

theorem Ported.spliceFront (hp : g.Ported inputs outputs) (h : g.Simple)
    (hfresh : g.Fresh node) (hc : collected.Nodup) (hnodec : node ∉ collected)
    (hl : targets.Nodup) (hnot : node ∉ targets)
    (hfrom : ∀ u ∈ collected, ∃ t ∈ targets, u ∈ g.sources t)
    (hport : ∀ v ∈ node :: targets, v ∉ inputs ∧ v ∉ outputs) :
    (g.spliceFront collected targets node).Ported inputs outputs := by
  have hsame : ∀ v, v ∈ inputs ∨ v ∈ outputs → v ≠ node ∧ v ∉ targets := by
    intro v hv
    constructor
    · rintro rfl
      exact hv.elim (hport v List.mem_cons_self).1 (hport v List.mem_cons_self).2
    · intro hmem
      have hno := hport v (List.mem_cons_of_mem _ hmem)
      exact hv.elim hno.1 hno.2
  have hsources : ∀ v, v ∈ inputs ∨ v ∈ outputs →
      (g.spliceFront collected targets node).sources v = g.sources v := by
    intro v hv
    obtain ⟨hne, hmem⟩ := hsame v hv
    rw [spliceFront_sources g collected targets node v hfresh.1 hl hnot, if_neg hne, if_neg hmem]
  refine ⟨fun v hv => ?_, fun v hv => ⟨?_, ?_⟩⟩
  · rw [hsources v (Or.inl hv)]
    exact hp.input v hv
  · rw [List.eq_nil_iff_forall_not_mem]
    intro w hw
    rw [mem_spliceFront_sinks h hfresh hc hnodec hl hnot] at hw
    obtain ⟨hsinks, -⟩ := hp.output v hv
    split at hw
    · -- An output is nobody's source, so it has not been collected.
      obtain ⟨t, -, hsource⟩ := hfrom v hw
      rw [← h.mirrored.mem_iff, hsinks] at hsource
      cases hsource
    · split at hw
      · exact (hsame v (Or.inr hv)).1 hw
      · rw [hsinks] at hw
        cases hw
  · rw [hsources v (Or.inr hv)]
    exact (hp.output v hv).2

theorem Ported.spliceBack (hp : g.Ported inputs outputs) (h : g.Simple)
    (hfresh : g.Fresh node) (hc : collected.Nodup) (hnodec : node ∉ collected)
    (hl : targets.Nodup) (hnot : node ∉ targets)
    (hfrom : ∀ v ∈ collected, ∃ t ∈ targets, v ∈ g.sinks t)
    (hport : ∀ v ∈ node :: targets, v ∉ inputs ∧ v ∉ outputs) :
    (g.spliceBack collected targets node).Ported inputs outputs := by
  have hsimple := h.spliceBack hfresh hc hnodec hl hnot
  have hmem : ∀ u v, u ∈ (g.spliceBack collected targets node).sources v ↔
      if u = node then v ∈ collected else if u ∈ targets then v = node else v ∈ g.sinks u := by
    intro u v
    rw [← hsimple.mirrored.mem_iff]
    exact mem_spliceBack_sinks collected targets hfresh hl hnot u v
  have hno := hport node List.mem_cons_self
  refine ⟨fun v hv => ?_, fun v hv => ⟨?_, ?_⟩⟩
  · rw [List.eq_nil_iff_forall_not_mem]
    intro u hu
    have hempty : ∀ u, v ∉ g.sinks u := fun u hu => by
      rw [h.mirrored.mem_iff, hp.input v hv] at hu
      cases hu
    rw [hmem] at hu
    split at hu
    · obtain ⟨t, -, ht⟩ := hfrom v hu
      exact hempty t ht
    · split at hu
      · exact hno.1 (hu ▸ hv)
      · exact hempty u hu
  · rw [spliceBack_sinks g collected targets node v hfresh.2 hl hnot, if_neg, if_neg]
    · exact (hp.output v hv).1
    · exact fun hin => (hport v (List.mem_cons_of_mem _ hin)).2 hv
    · exact fun heq => hno.2 (heq ▸ hv)
  · have hone : ∀ u w, v ∈ g.sinks u → v ∈ g.sinks w → u = w := by
      intro u w hu hw
      rw [h.mirrored.mem_iff] at hu hw
      have hle := (hp.output v hv).2
      obtain ⟨c, hc⟩ := List.length_eq_one_iff.mp
        (Nat.le_antisymm hle (List.length_pos_of_mem hu))
      rw [hc, List.mem_singleton] at hu hw
      exact hu.trans hw.symm
    by_cases hcol : v ∈ collected
    · -- The output moves from a target to the new vertex.
      obtain ⟨t, ht, hvt⟩ := hfrom v hcol
      apply length_le_one_of_forall_eq (c := node) (hsimple.sources_nodup v)
      intro u hu
      rw [hmem] at hu
      split at hu
      · next heq => exact heq
      · split at hu
        · exact absurd hv (hu ▸ hno.2)
        · next hnt => exact absurd (hone t u hvt hu ▸ ht) hnt
    · by_cases hempty : (g.spliceBack collected targets node).sources v = []
      · rw [hempty]
        exact Nat.zero_le 1
      · obtain ⟨c, hc'⟩ := List.exists_mem_of_ne_nil _ hempty
        have hold : ∀ u ∈ (g.spliceBack collected targets node).sources v, v ∈ g.sinks u := by
          intro u hu
          rw [hmem] at hu
          split at hu
          · exact absurd hu hcol
          · split at hu
            · exact absurd hv (hu ▸ hno.2)
            · exact hu
        exact length_le_one_of_forall_eq (c := c) (hsimple.sources_nodup v) fun u hu =>
          hone u c (hold u hu) (hold c hc')

theorem Ported.gateFront (hp : g.Ported inputs outputs) (h : g.Simple) {target gate : α}
    (hgate : g.Fresh gate) (hnode : g.Fresh node) (hne : gate ≠ node)
    (htg : target ≠ gate) (htn : target ≠ node)
    (hport : ∀ v ∈ [target, gate, node], v ∉ inputs ∧ v ∉ outputs) :
    (g.gateFront target gate node).Ported inputs outputs := by
  have hsimple := h.gateFront hgate hnode hne htg htn
  have hsame : ∀ v, v ∈ inputs ∨ v ∈ outputs → v ≠ target ∧ v ≠ node ∧ v ≠ gate := by
    intro v hv
    refine ⟨?_, ?_, ?_⟩ <;> rintro rfl <;> have hno := hport v (by simp) <;>
      exact hv.elim hno.1 hno.2
  have hsources : ∀ v, v ∈ inputs ∨ v ∈ outputs →
      (g.gateFront target gate node).sources v = g.sources v := by
    intro v hv
    obtain ⟨hvt, hvn, hvg⟩ := hsame v hv
    rw [gateFront_sources g v hgate.1 hnode.1 hne htg htn, if_neg hvt, if_neg hvn, if_neg hvg]
  refine ⟨fun v hv => ?_, fun v hv => ⟨?_, ?_⟩⟩
  · rw [hsources v (Or.inl hv)]
    exact hp.input v hv
  · rw [List.eq_nil_iff_forall_not_mem]
    intro w hw
    obtain ⟨hvt, hvn, hvg⟩ := hsame v (Or.inr hv)
    have hnone : ∀ w, v ∉ g.sources w := fun w hw => by
      rw [← h.mirrored.mem_iff, (hp.output v hv).1] at hw
      cases hw
    rw [hsimple.mirrored.mem_iff, gateFront_sources g w hgate.1 hnode.1 hne htg htn] at hw
    split at hw
    · exact hvn (List.mem_singleton.mp hw)
    · split at hw
      · exact hvg (List.mem_singleton.mp hw)
      · split at hw
        · exact hnone target hw
        · exact hnone w hw
  · rw [hsources v (Or.inr hv)]
    exact (hp.output v hv).2

end Splice

end Adjacency
