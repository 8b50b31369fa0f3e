import ArtNetGen.Construction
import ArtNetGen.Fidelity
import ArtNetGen.Verilog

/-!
`Netlist::generate` as a whole. What the earlier phases guarantee is carried to
the mapped netlist.
-/

namespace Artnetgen

open Netlist

/-- A run of `Netlist::generate` up to its summary. -/
structure Generation (addr : NodeId ↪ ℕ) (ang : ArtNetGen) extends Construction addr ang where
  order : MapOrder
  mapped : Netlist
  nets : List Net
  mapping : toConstruction.finished.technologyMapping order = some (mapped, nets)

namespace Generation

variable {addr : NodeId ↪ ℕ} {ang : ArtNetGen} (g : Generation addr ang)

/-- The netlist with cells and controls, and what mapping makes of it. -/
theorem chosen : ∃ mid, g.finished.chooseCells = some mid ∧ mid.Chosen g.finished.size ∧
    Mapped g.finished.size mid g.mapped ∧ g.nets = g.mapped.makeNets g.order := by
  obtain ⟨mid, hmid, hchosen, hmapped, hmake⟩ :=
    technologyMapping_spec g.ready.legal g.named g.mapping
  refine ⟨mid, hmid, hchosen, hmapped, ?_⟩
  exact congrArg Prod.snd (Option.some.inj (g.mapping.symm.trans (hmake g.order)))

/-- The two controls are new. -/
theorem size : g.mapped.size = g.finished.size + 2 := by
  obtain ⟨mid, -, hchosen, hmapped, -⟩ := g.chosen
  rw [hmapped.size, hchosen.size]

/-- An instance of the mapped netlist was one before. -/
theorem instance_of_mapped {v : NodeId} (hv : v < g.mapped.size)
    (hinst : (g.mapped.type v).IsInstance) :
    v < g.finished.size ∧ g.mapped.type v = g.finished.type v := by
  obtain ⟨mid, hmid, hchosen, hmapped, -⟩ := g.chosen
  have hvmid : v < mid.size := hmapped.size ▸ hv
  have htype := (hmapped.same hchosen hvmid).1
  rw [htype] at hinst
  have hlt := hchosen.lt_of_instance hvmid hinst
  obtain ⟨b, hcontrols⟩ := chooseCells_controls hmid
  exact ⟨hlt, htype.trans (hcontrols.type_of_lt hlt)⟩

/-- Every instance has a cell of its kind with an input for each source. -/
theorem cell {v : NodeId} (hv : v < g.mapped.size) (hinst : (g.mapped.type v).IsInstance) :
    ∃ info ∈ ang.masters, (g.mapped.node v).master = some info.master ∧
      info.isIn (decide (g.mapped.type v = .sequential)) (g.finished.numFanins v) = true := by
  obtain ⟨hlt, htype⟩ := g.instance_of_mapped hv hinst
  obtain ⟨mid, hmid, -, hmapped, -⟩ := g.chosen
  obtain ⟨masters, hmasters, m, hm, hmaster⟩ := chooseCells_mastered hmid hlt (htype ▸ hinst)
  rw [g.table] at hmasters
  split at hmasters
  · obtain rfl := Option.some.inj hmasters
    obtain ⟨info, hinfo, hisIn, rfl⟩ := mem_cellsOf.mp hm
    refine ⟨info, hinfo, ?_, htype ▸ hisIn⟩
    rw [(hmapped.node v hlt).2]
    exact hmaster
  · cases hmasters

/-- The terminals of an instance are those of its cell. -/
theorem mem_mTerms {v w : NodeId} {info : MasterInfo} (hv : v < g.mapped.size)
    (hinst : (g.mapped.type v).IsInstance) (hmaster : (g.mapped.node v).master = some info.master)
    (hw : w ∈ g.mapped.sources v ∨ w ∈ g.mapped.sinks v) :
    ∃ term ∈ info.master.mTerms, term.name = g.mapped.getTerm v w := by
  obtain ⟨mid, -, hchosen, hmapped, -⟩ := g.chosen
  have hvmid : v < mid.size := hmapped.size ▸ hv
  rw [(hmapped.same hchosen hvmid).1] at hinst
  have hlt := hchosen.lt_of_instance hvmid hinst
  have hcell : (mid.node v).master = some info.master := by
    rw [← hmaster, (hmapped.node v hlt).2]
    rfl
  have hpin : ∀ {sig io}, g.mapped.getTerm v w ∈ (mid.node v).pins sig io →
      ∃ term ∈ info.master.mTerms, term.name = g.mapped.getTerm v w := by
    intro sig io hmem
    obtain ⟨master, hmaster', hpins⟩ := (mid.node v).pins_of_instance hinst hmem
    obtain rfl : info.master = master := Option.some.inj (hcell.symm.trans hmaster')
    rw [hpins] at hmem
    obtain ⟨term, hterm, hname⟩ := List.mem_map.mp hmem
    exact ⟨term, (List.mem_filter.mp hterm).1, hname⟩
  by_cases hsink : w ∈ g.mapped.sinks v
  · exact hpin (Bindings.label_mem_of_spread
      ((hmapped.mem_shares_iff hchosen hlt).mpr ⟨hsink, rfl⟩))
  · rcases hmapped.source_cases hchosen hlt (hw.resolve_right hsink) with
      ⟨-, hmem⟩ | ⟨-, hlast⟩ | ⟨-, hlast⟩
    · rw [hmapped.sinks hlt] at hsink
      exact hpin (List.of_mem_zip (hmem hsink)).2
    · exact hpin (List.mem_of_getLast? hlast)
    · exact hpin (List.mem_of_getLast? hlast)

/-- The mapped netlist has the two controls among its inputs. -/
theorem ports_mapped : g.mapped.primIns = g.finished.primIns ++ [g.finished.size, g.finished.size + 1] ∧
    g.mapped.primOuts = g.finished.primOuts := by
  obtain ⟨mid, hmid, -, hmapped, -⟩ := g.chosen
  obtain ⟨b, hcontrols⟩ := chooseCells_controls hmid
  have hins : g.mapped.primIns = mid.primIns :=
    hmapped.keeps.congr Netlist.primIns fun _ _ _ _ => rfl
  have houts : g.mapped.primOuts = mid.primOuts :=
    hmapped.keeps.congr Netlist.primOuts fun _ _ _ _ => rfl
  rw [hins, houts]
  exact ⟨hcontrols.ins, hcontrols.outs⟩

theorem ports_lt : (∀ v ∈ g.mapped.primIns, v < g.mapped.size) ∧
    ∀ v ∈ g.mapped.primOuts, v < g.mapped.size := by
  obtain ⟨hins, houts⟩ := g.ports_mapped
  rw [hins, houts, g.size]
  refine ⟨fun v hv => ?_, fun v hv => ?_⟩
  · rcases List.mem_append.mp hv with hv | hv
    · exact (g.portsListed.ins v hv).trans_le (Nat.le_add_right _ _)
    · simp only [List.mem_cons, List.not_mem_nil, or_false] at hv
      rcases hv with rfl | rfl
      · exact Nat.lt_add_of_pos_right Nat.two_pos
      · exact Nat.lt_succ_self _
  · exact (g.portsListed.outs v hv).trans_le (Nat.le_add_right _ _)

/-- Whatever is called between `init` and `run`, in whatever order, an instance of
the mapped netlist has a cell that is offered more often than it has been
excluded; the cell has a clock pin if the instance is a register and none if it
is a gate, and it has as many signal inputs as the instance had sources. -/
theorem cells_in_use (addr : NodeId ↪ ℕ) (start ang : ArtNetGen) (spec : List SpecLine)
    (names : List String) (hinit : start.init spec = some ang)
    (g : Generation addr (names.foldl ArtNetGen.setDontUse ang)) (v : NodeId)
    (hv : v < g.mapped.size) (hinst : (g.mapped.type v).IsInstance) :
    ∃ info ∈ ang.masters, (g.mapped.node v).master = some info.master ∧
      names.count info.master.name <
        ang.masters.countP (fun other => other.master.name == info.master.name) ∧
      (info.master.pins .signal .input).length = g.finished.numFanins v ∧
      0 < g.finished.numFanins v ∧ info.master.pins .signal .output ≠ [] ∧
      (info.master.pins .clock .input ≠ [] ↔ g.mapped.type v = .sequential) := by
  obtain ⟨info, hinfo, hmaster, hisIn⟩ := g.cell hv hinst
  have hoffered := ArtNetGen.mem_setDontUse hinfo
  obtain ⟨hsupported, hkind, hinputs⟩ := MasterInfo.isIn_iff.mp hisIn
  simp only [PortInfo.supported, Bool.and_eq_true, decide_eq_true_eq] at hsupported
  obtain ⟨hsignal, houtputs, hclock⟩ := getPortInfo_pins hsupported.2
  refine ⟨info, hoffered, hmaster, ?_, hsignal ▸ hinputs, ?_, ?_, ?_⟩
  · have hleft : 0 < (names.foldl ArtNetGen.setDontUse ang).masters.countP
        (fun other => other.master.name == info.master.name) :=
      List.countP_pos_iff.mpr ⟨info, hinfo, by simp⟩
    rw [ArtNetGen.countP_setDontUse] at hleft
    omega
  · rw [← hinputs]
    exact ArtNetGen.init_inputs hinit hoffered
  · intro hnone
    rw [hnone, List.length_nil] at houtputs
    exact hsupported.1 houtputs
  · rw [← List.length_pos_iff, ← hclock]
    simpa [eq_comm] using congrArg (· = true) hkind

end Generation

/-! The chain once more, with a plain flip-flop besides the one that can be set
and reset, which is not to be used. -/

def offeringAng : ArtNetGen :=
  (ArtNetGen.init { libs := [[bufferCell, dff, dffsr]] } chainSpec).get (by decide +kernel)

def sparingAng : ArtNetGen := ["DFFSR"].foldl ArtNetGen.setDontUse offeringAng

def sparingStart : Matching := (Matching.enter sparingAng).get (by decide +kernel)

def sparingEnd : Matching :=
  (chainTurns.foldlM (Matching.step (.refl ℕ)) sparingStart).get (by decide +kernel)

def sparingEquipped : Netlist :=
  (sparingEnd.netlist.initOnlyUseMasters sparingAng).get (by decide +kernel)

def sparingPath : PathRun sparingAng sparingEquipped :=
  (PathRun.carryOut sparingAng sparingEquipped 3 5 .inOrder .inOrder).get (by decide +kernel)

def sparingMapping : Netlist × List Net :=
  (sparingPath.split.netlist.technologyMapping .inOrder).get (by decide +kernel)

theorem sparingEnd_returned : sparingEnd.Returned :=
  (show sparingEnd.tarEdgeCnt ≤ sparingEnd.curEdgeCnt by decide +kernel)

def sparing : Generation (.refl ℕ) sparingAng where
  matching := sparingEnd
  reachable := ⟨sparingStart, (Option.some_get _).symm, chainTurns, (Option.some_get _).symm⟩
  returned := sparingEnd_returned
  equipped := sparingEquipped
  masters := (Option.some_get _).symm
  path := sparingPath
  order := .inOrder
  mapped := sparingMapping.1
  nets := sparingMapping.2
  mapping := (Option.some_get _).symm

theorem Generation.cells_in_use_sparing : ∃ info ∈ offeringAng.masters,
    (sparing.mapped.node 3).master = some info.master ∧
      ["DFFSR"].count info.master.name <
        offeringAng.masters.countP (fun other => other.master.name == info.master.name) ∧
      (info.master.pins .signal .input).length = sparing.finished.numFanins 3 ∧
      0 < sparing.finished.numFanins 3 ∧ info.master.pins .signal .output ≠ [] ∧
      (info.master.pins .clock .input ≠ [] ↔ sparing.mapped.type 3 = .sequential) :=
  Generation.cells_in_use (.refl ℕ) { libs := [[bufferCell, dff, dffsr]] } offeringAng chainSpec
    ["DFFSR"] (Option.some_get _).symm sparing 3 (by decide +kernel) (by decide +kernel)

end Artnetgen
