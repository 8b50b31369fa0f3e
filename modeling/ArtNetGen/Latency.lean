import ArtNetGen.Library.Sharing
import ArtNetGen.Generation
import ArtNetGen.Cutting

/-!
What `timingPathConstruction_v1` does to the paths. It moves registers along
paths, in front of gates or behind them, and lets several of them become one;
how many registers a path passes through stays the same, and a new path is one
that the sharing of registers explains.
-/

namespace Artnetgen

open Adjacency

namespace Netlist

variable {nl nl' nl'' : Netlist} {front : Bool} {targets : List NodeId}
  {move move' : NodeId → NodeId}

def registers (nl : Netlist) : Set NodeId := {v | v < nl.size ∧ nl.type v = .sequential}

/-- A path passes through `k` registers, registers with one home counting as
one; with `id` for the homes every register is on its own. -/
def Passes (nl : Netlist) (home : NodeId → NodeId) (k : ℕ) (u v : NodeId) : Prop :=
  nl.graph.Passes nl.registers home k u v

/-- No register is at the node. -/
def IsPlain (nl : Netlist) (v : NodeId) : Prop := v < nl.size ∧ nl.type v ≠ .sequential

theorem IsPlain.not_register {v : NodeId} (h : nl.IsPlain v) : v ∉ nl.registers :=
  fun hin => h.2 hin.2

/-- The registers of `nl` have moved to those of `nl'`, where some may have
become one. -/
structure Shared (nl nl' : Netlist) (move : NodeId → NodeId) : Prop where
  onto : move '' nl.registers = nl'.registers
  plain : ∀ v, nl.IsPlain v → nl'.IsPlain v
  passes : ∀ (home : NodeId → NodeId) (k : ℕ) (u v : NodeId), nl.IsPlain u → nl.IsPlain v →
    (nl'.Passes home k u v ↔ nl.Passes (home ∘ move) k u v)

theorem Shared.refl (nl : Netlist) : Shared nl nl id :=
  ⟨Set.image_id _, fun _ hv => hv, fun _ _ _ _ _ _ => Iff.rfl⟩

theorem Shared.trans (h : Shared nl nl' move) (h' : Shared nl' nl'' move') :
    Shared nl nl'' (move' ∘ move) := by
  refine ⟨?_, fun v hv => h'.plain v (h.plain v hv), fun home k u v hu hv => ?_⟩
  · rw [Set.image_comp, h.onto, h'.onto]
  · rw [h'.passes home k u v (h.plain u hu) (h.plain v hv), h.passes _ k u v hu hv]
    rfl

/-- Registers give way to one new register. -/
theorem Replaced.shared (h : Replaced nl nl' front targets) (hs : nl.Sound)
    (hne : targets ≠ []) : ∃ move, Shared nl nl' move := by
  obtain ⟨collected, hreplaces, hcollected, hgraph⟩ := h.replaces hs
  obtain ⟨_, _, -, -, hbecomes⟩ := h.becomes
  have hregister : ∀ v, v ∈ nl'.registers ↔
      v = nl.size ∨ (v ∈ nl.registers ∧ v ∉ targets) := by
    intro v
    unfold registers
    rw [Set.mem_ofPred_eq, Set.mem_ofPred_eq, hbecomes.size, hbecomes.type, retyped]
    by_cases hv : v ∈ targets
    · have hvne : v ≠ nl.size := (h.lt v hv).ne
      simp [hv, hvne]
    · by_cases hnew : v = nl.size
      · simp [hnew]
        intro hin
        exact absurd (h.lt _ hin) (lt_irrefl _)
      · have hlt : v < nl.size + 1 ↔ v < nl.size :=
          ⟨fun hlt => (Nat.lt_succ_iff_lt_or_eq.mp hlt).resolve_right hnew,
            fun hlt => hlt.trans (Nat.lt_succ_self _)⟩
        rw [hlt]
        simp [hv, hnew]
  have hmoves : nl.graph.Replaces nl.registers nl'.registers collected targets nl.size :=
    ⟨hreplaces.simple, hreplaces.fresh, hreplaces.collectedNodup, hreplaces.notCollected,
      hreplaces.targetsNodup, hreplaces.notTarget, fun t ht => ⟨h.lt t ht, h.sequential t ht⟩,
      hregister⟩
  refine ⟨Replaces.place targets nl.size, ?_, fun v hv => ?_, fun home k u v hu hv => ?_⟩
  · ext v
    rw [Set.mem_image]
    constructor
    · rintro ⟨w, hw, rfl⟩
      exact hmoves.place_mem hw
    · intro hv
      rcases (hregister v).mp hv with rfl | ⟨hold, hmem⟩
      · obtain ⟨t, ht⟩ := List.exists_mem_of_ne_nil targets hne
        exact ⟨t, ⟨h.lt t ht, h.sequential t ht⟩, if_pos ht⟩
      · exact ⟨v, hold, if_neg hmem⟩
  · have hlt : v < nl'.size := by
      rw [hbecomes.size]
      exact hv.1.trans (Nat.lt_succ_self _)
    refine ⟨hlt, fun hseq => ?_⟩
    rcases (hregister v).mp ⟨hlt, hseq⟩ with rfl | ⟨hold, -⟩
    · exact absurd hv.1 (lt_irrefl _)
    · exact hv.not_register hold
  · have hiff := hmoves.passes_iff front hne hcollected home k hu.not_register hu.1.ne
      hv.not_register hv.1.ne
    unfold Passes
    rw [hgraph, hiff]
    have hhome : rehome targets nl.size home = home ∘ Replaces.place targets nl.size :=
      funext fun w => (Replaces.home_place home targets nl.size w).symm
    rw [hhome]

/-! ## Cutting -/

theorem cutTurn_cuts_of_eq {targetMaxOrder : ℤ} {updated : Bool}
    (h : nl.cutTurn targetMaxOrder = some (nl', updated)) : Cuts nl nl' := by
  simp only [cutTurn, Option.bind_eq_bind, Option.bind_eq_some_iff, Option.pure_def,
    Option.some.injEq] at h
  obtain ⟨order, -, hfold⟩ := h
  have hcuts := (@cutNodes_cuts nl order targetMaxOrder false nl.nodes
    fun v hv => List.mem_range.mp hv).1
  rw [hfold] at hcuts
  exact hcuts

/-- Cutting changes no connection. -/
theorem cut_cuts_of_eq {targetMaxOrder : ℤ} {fuel : ℕ}
    (h : nl.cut targetMaxOrder fuel = some nl') : Cuts nl nl' := by
  induction fuel generalizing nl with
  | zero => cases h
  | succ fuel ih =>
      simp only [cut, Option.bind_eq_bind, Option.bind_eq_some_iff] at h
      obtain ⟨⟨nl1, updated⟩, hturn, h⟩ := h
      have hcuts := cutTurn_cuts_of_eq hturn
      cases updated with
      | true => exact hcuts.trans (ih h)
      | false =>
          obtain rfl : nl1 = nl' := Option.some.inj h
          exact hcuts

end Netlist

open Netlist

/-! ## The passes -/

theorem Fitting.Inv.visit_shared {s s' : Fitting} {front : Bool} {combRatio : ℚ} {c : Pass}
    {v : ℕ × BinId} (h : s.Inv) (hvisit : Fitting.visit front combRatio c s v = some s') :
    ∃ move, Shared s.netlist s'.netlist move := by
  rcases h.visit_cases hvisit with ⟨rfl, -⟩ | ⟨n1, n2, n, -, -, hne, hregs, hpair, -⟩
  · exact ⟨id, .refl _⟩
  · obtain ⟨hlt1, hseq1⟩ := hregs n1 (by simp)
    obtain ⟨hlt2, hseq2⟩ := hregs n2 (by simp)
    have hsound := h.legal.sound
    exact (mergePair_replaced hsound hne hlt1 hlt2 hseq1 hseq2 hpair).2.shared hsound
      (List.cons_ne_nil _ _)

theorem Fitting.Inv.pass_shared {s s' : Fitting} {front : Bool} {combRatio : ℚ} {c : Pass}
    (h : s.Inv) (hpass : s.pass front combRatio c = some s') :
    ∃ move, Shared s.netlist s'.netlist move := by
  have hrun := Loop.invariant (fun t : Fitting => t.Inv ∧ ∃ move, Shared s.netlist t.netlist move)
    (fun v _ t t' ht hvisit => ?_) ⟨h, id, .refl _⟩ hpass
  · exact hrun.2
  · obtain ⟨hinv, move, hshared⟩ := ht
    obtain ⟨move', hshared'⟩ := hinv.visit_shared hvisit
    exact ⟨(hinv.visit hvisit).1, move' ∘ move, hshared.trans hshared'⟩

/-! ## The splits -/

theorem Splitting.turns_shared {s s' : Splitting} {n : ℕ} (hl : s.netlist.Legal)
    (h : Splitting.turns n s = some s') : ∃ move, Shared s.netlist s'.netlist move := by
  have hrun := Loop.invariant
    (fun t : Splitting => t.netlist.Legal ∧ ∃ move, Shared s.netlist t.netlist move)
    (fun _ _ t t' ht hturn => ?_) ⟨hl, id, .refl _⟩ h
  · exact hrun.2
  · obtain ⟨hlegal, move, hshared⟩ := ht
    refine ⟨hlegal.reworks (Splitting.turn_reworks hturn), ?_⟩
    rcases Splitting.turn_cases hturn with ⟨-, rfl⟩ | ⟨hlt, -, ⟨hnetlist, -⟩ | ⟨hseq, -, hsplit⟩⟩
    · exact ⟨move, hshared⟩
    · rw [hnetlist]
      exact ⟨move, hshared⟩
    · obtain ⟨move', hshared'⟩ := (splitNode_replaced hlegal.sound hlt hseq hsplit).shared
        hlegal.sound (List.cons_ne_nil _ _)
      exact ⟨move' ∘ move, hshared.trans hshared'⟩

theorem PathRun.shared {ang : ArtNetGen} {nl : Netlist} (run : PathRun ang nl) (hl : nl.Legal) :
    ∃ move, Shared run.cutNetlist run.split.netlist move := by
  obtain ⟨front, hfront⟩ := (run.inv_atFront hl).pass_shared run.frontPass
  obtain ⟨back, hback⟩ := (run.inv_atBack hl).pass_shared run.backPass
  obtain ⟨split, hsplit⟩ := Splitting.turns_shared (run.inv_fitted hl).legal run.splitting
  rw [(Fitting.start_listed run.start).2] at hfront
  exact ⟨_, (hfront.trans hback).trans hsplit⟩

/-- The registers of the finished netlist are those that cutting has made, moved
and shared. Between ports, and gates that stay gates, there is a path through
`k` registers exactly if there was one after cutting, registers that have become
one being taken for one; so no path is lost or changes its number of registers,
and whatever `distMatching` connected stays connected. -/
theorem Construction.paths_shared (addr : NodeId ↪ ℕ) (ang : ArtNetGen)
    (c : Construction addr ang) : ∃ move : NodeId → NodeId,
    move '' c.path.cutNetlist.registers = c.finished.registers ∧
    ∀ u v, c.path.cutNetlist.IsPlain u → c.path.cutNetlist.IsPlain v →
      (∀ k, c.finished.Passes id k u v ↔ c.path.cutNetlist.Passes move k u v) ∧
      (∀ k, c.path.cutNetlist.Passes id k u v → c.finished.Passes id k u v) ∧
      (Relation.ReflTransGen c.equipped.Drives u v → ∃ k, c.finished.Passes id k u v) := by
  have hlegal := (c.reachable.ready c.masters).legal
  obtain ⟨move, hshared⟩ := c.path.shared hlegal
  have hgraph := (cut_cuts_of_eq c.path.cut).graph
  have hkept : ∀ u v k, c.path.cutNetlist.IsPlain u → c.path.cutNetlist.IsPlain v →
      c.path.cutNetlist.Passes id k u v → c.finished.Passes id k u v := by
    intro u v k hu hv walk
    apply (hshared.passes id k u v hu hv).mpr
    exact Passes.coarsen (fun _ _ heq => congrArg move heq) walk
  refine ⟨move, hshared.onto, fun u v hu hv => ⟨fun k => ?_, fun k => hkept u v k hu hv, ?_⟩⟩
  · exact hshared.passes id k u v hu hv
  · intro hreach
    have hcut : Relation.ReflTransGen (fun a b => b ∈ c.path.cutNetlist.graph.sinks a) u v := by
      rw [hgraph]
      exact hreach
    obtain ⟨k, walk⟩ := exists_passes c.path.cutNetlist.registers id hcut
    exact ⟨k, hkept u v k hu hv walk⟩

theorem Construction.paths_shared_sparing : ∃ k, sparing.finished.Passes id k 0 2 := by
  obtain ⟨_, -, hpaths⟩ := Construction.paths_shared (.refl ℕ) sparingAng sparing.toConstruction
  apply (hpaths 0 2 ⟨by decide +kernel, by decide +kernel⟩ ⟨by decide +kernel, by decide +kernel⟩).2.2
  exact ((Relation.ReflTransGen.refl.tail
    (show (1 : ℕ) ∈ sparingEquipped.sinks 0 by decide +kernel)).tail
    (show (3 : ℕ) ∈ sparingEquipped.sinks 1 by decide +kernel)).tail
    (show (2 : ℕ) ∈ sparingEquipped.sinks 3 by decide +kernel)

end Artnetgen
