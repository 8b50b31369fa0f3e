import ArtNetGen.CellTables
import ArtNetGen.PrimaryIO
import ArtNetGen.Reinit
import ArtNetGen.Splitting

/-!
`Netlist::generate` up to the mapping. The phases are put together into one run;
what the first phases establish and the later ones keep holds at its end.
-/

namespace Artnetgen

open Netlist

/-- A run of `Netlist::generate` before `technologyMapping`: the state in which
`distMatching` returns, and what is made of it. -/
structure Construction (addr : NodeId ↪ ℕ) (ang : ArtNetGen) where
  matching : Matching
  reachable : Matching.Reachable addr ang matching
  returned : matching.Returned
  equipped : Netlist
  masters : matching.netlist.initOnlyUseMasters ang = some equipped
  path : PathRun ang equipped

/-- What holds before the first edge and is kept by every edge holds of all
netlists that `distMatching` makes. -/
theorem Matching.Reachable.holds {P : Netlist → Prop} {addr : NodeId ↪ ℕ} {ang : ArtNetGen}
    {s : Matching} (h : Reachable addr ang s)
    (hstart : ∀ nl nl', initializeNetlist ang = some nl → nl.setPrimaryIO ang = some nl' → P nl')
    (hconnect : ∀ nl nl' src snk, P nl → Connected nl nl' src snk → P nl') : P s.netlist := by
  obtain ⟨s0, henter, turns, hrun⟩ := h
  have hfirst : P s0.netlist := by
    have hentered := henter
    simp only [enter, start, Option.bind_eq_bind, Option.bind_eq_some_iff, Option.pure_def,
      Option.some.injEq] at hentered
    obtain ⟨nl, hnl, nl0, hnl0, sampling, -, rfl⟩ := hentered
    exact hstart nl nl0 hnl hnl0
  have hall : s.Inv addr ∧ P s.netlist := by
    refine Loop.invariant (fun s : Matching => s.Inv addr ∧ P s.netlist)
      (fun c _ s s' hs hstep => ⟨hs.1.step hstep, ?_⟩) ⟨enter_inv henter, hfirst⟩ hrun
    rcases hs.1.step_cases hstep with ⟨-, rfl⟩ | ⟨-, hturned⟩
    · exact hs.2
    · cases hturned with
      | retry => exact hs.2
      | connect _ _ _ _ _ hconnected => exact hconnect _ _ _ _ hs.2 hconnected
  exact hall.2

/-- Reworking takes no node away. -/
theorem Netlist.Rework.size_le {nl nl' : Netlist} (h : Rework nl nl') (hs : nl.Sound) :
    nl.size ≤ nl'.size := by
  cases h with
  | cut => exact Nat.le_refl _
  | merge hne hlt1 hlt2 hseq1 hseq2 h =>
      obtain ⟨_, _, -, -, hbecomes⟩ :=
        (mergePair_replaced hs hne hlt1 hlt2 hseq1 hseq2 h).2.becomes
      exact hbecomes.le
  | split hlt hseq h =>
      obtain ⟨_, _, -, -, hbecomes⟩ := (splitNode_replaced hs hlt hseq h).becomes
      exact hbecomes.le

/-- `checkMasters` begins with one input. -/
theorem ArtNetGen.init_inputs {start ang : ArtNetGen} {spec : List SpecLine}
    (hinit : start.init spec = some ang) {info : MasterInfo} (hinfo : info ∈ ang.masters) :
    0 < (getPortInfo info.master).inputSignal := by
  rw [(init_spec hinit).2, List.mem_flatMap] at hinfo
  obtain ⟨k, hk, hselected⟩ := hinfo
  have hpos := (mem_kinds.mp hk).1
  rw [← kindOf_of_mem_selection hselected] at hpos
  exact hpos

/-- So have the cells that are left after any exclusions. -/
theorem ArtNetGen.offered_inputs {start ang : ArtNetGen} {spec : List SpecLine}
    (hinit : start.init spec = some ang) (names : List String) :
    ∀ info ∈ (names.foldl ArtNetGen.setDontUse ang).masters,
      0 < (getPortInfo info.master).inputSignal :=
  fun _ hinfo => init_inputs hinit (mem_setDontUse hinfo)

/-- There are outputs, and the ports are nodes. -/
structure Netlist.PortsListed (nl : Netlist) : Prop where
  nonempty : nl.primOuts ≠ []
  ins : ∀ v ∈ nl.primIns, v < nl.size
  outs : ∀ v ∈ nl.primOuts, v < nl.size

namespace Construction

variable {addr : NodeId ↪ ℕ} {ang : ArtNetGen} (c : Construction addr ang)

/-- The netlist that `timingPathConstruction_v1` returns. -/
def finished : Netlist := c.path.split.netlist

theorem reworks : Relation.ReflTransGen Rework c.equipped c.finished :=
  c.path.reworks (c.reachable.ready c.masters).legal

theorem ready : c.finished.Ready := (c.reachable.ready c.masters).reworks c.reworks

theorem named : c.finished.Named := by
  have hequipped := (initOnlyUseMasters_spec c.masters).1
  exact (hequipped.named c.reachable.inv.named).reworks (hequipped.legal c.reachable.legal)
    c.reworks

/-- What holds before the first edge, and is kept by the edges, by the cells that
are filed and by the rework of paths, holds of the finished netlist. -/
theorem holds {P : Netlist → Prop}
    (hstart : ∀ nl nl', initializeNetlist ang = some nl → nl.setPrimaryIO ang = some nl' → P nl')
    (hconnect : ∀ nl nl' src snk, P nl → Connected nl nl' src snk → P nl')
    (hequip : ∀ nl nl', P nl → Equipped nl nl' → P nl')
    (hrework : ∀ nl nl', P nl → nl.Sound → Rework nl nl' → P nl') : P c.finished := by
  have hready := c.reachable.ready c.masters
  have hequipped : P c.equipped :=
    hequip _ _ (c.reachable.holds hstart hconnect) (initOnlyUseMasters_spec c.masters).1
  have hrun : ∀ nl', Relation.ReflTransGen Rework c.equipped nl' → P nl' := by
    intro nl' hreworks
    induction hreworks with
    | refl => exact hequipped
    | tail hreworks hstep ih =>
        exact hrework _ _ ih (hready.reworks hreworks).legal.sound hstep
  exact hrun _ c.reworks

theorem keeps : Keeps c.equipped c.finished := by
  have hready := c.reachable.ready c.masters
  have hrun : ∀ nl', Relation.ReflTransGen Rework c.equipped nl' → Keeps c.equipped nl' := by
    intro nl' hreworks
    induction hreworks with
    | refl => exact .refl _
    | tail hreworks hrework ih =>
        exact ih.trans (hrework.keeps (hready.reworks hreworks).legal.sound)
  exact hrun _ c.reworks

/-- The files are those of the cells that the run was started with. -/
theorem table (sequential : Bool) (fi : ℕ) :
    (c.finished.table sequential)[fi]? = if fi < (c.finished.fiDist.xMax + 1).toNat then
      some (cellsOf ang.masters sequential fi) else none := by
  have hfi : c.finished.fiDist = c.matching.netlist.fiDist := by
    rw [c.keeps.fiDist, (initOnlyUseMasters_spec c.masters).1]
  rw [c.keeps.congr (fun nl => nl.table sequential) fun _ _ _ _ => rfl, hfi]
  exact initOnlyUseMasters_table c.masters sequential fi

theorem portsListed : PortsListed c.finished := by
  have hcongr : ∀ {nl nl' : Netlist}, PortsListed nl → nl.size ≤ nl'.size →
      nl'.primIns = nl.primIns ∧ nl'.primOuts = nl.primOuts → PortsListed nl' := by
    rintro nl nl' ⟨hne, hins, houts⟩ hle ⟨hprimIns, hprimOuts⟩
    exact ⟨hprimOuts ▸ hne, fun v hv => (hins v (hprimIns ▸ hv)).trans_le hle,
      fun v hv => (houts v (hprimOuts ▸ hv)).trans_le hle⟩
  apply c.holds
  · intro nl nl' hnl hnl'
    have hinit := initializeNetlist_spec hnl
    have htaken := setPrimaryIO_taken hinit (initializeNetlist_unsorted hnl) hnl'
    have hlt : ∀ cells k, ∀ v ∈ (nl.nodesAlong cells).take k, v < nl'.size := by
      intro cells k v hv
      rw [htaken.size]
      exact (coords_of_mem_nodesAlong hinit.consistent.placed (List.mem_of_mem_take hv)).1
    refine ⟨?_, fun v hv => ?_, fun v hv => ?_⟩
    · apply List.ne_nil_of_length_pos
      rw [htaken.primOuts, List.length_take, min_eq_left htaken.outCnt.2]
      exact quota_pos _
    · rw [htaken.primIns] at hv
      exact hlt _ _ v hv
    · rw [htaken.primOuts] at hv
      exact hlt _ _ v hv
  · intro nl nl' src snk hlisted hconnected
    exact hcongr hlisted hconnected.size.ge hconnected.ports
  · intro nl nl' hlisted hequipped
    unfold Equipped at hequipped
    rw [hequipped]
    exact ⟨hlisted.nonempty, hlisted.ins, hlisted.outs⟩
  · intro nl nl' hlisted hsound hrework
    have hkeeps := hrework.keeps hsound
    refine hcongr hlisted (hrework.size_le hsound) ⟨?_, ?_⟩
    · exact hkeeps.congr Netlist.primIns fun _ _ _ _ => rfl
    · exact hkeeps.congr Netlist.primOuts fun _ _ _ _ => rfl

end Construction

end Artnetgen
