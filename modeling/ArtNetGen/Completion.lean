import ArtNetGen.Generation

/-!
When `technologyMapping` gets to its end. It stops when a class has no cell for
one of its nodes and when a node has not as many sources as its cell has inputs;
on a finished netlist both can be told from the library and the netlist.
-/

namespace Artnetgen

open Netlist

/-! ## Terminals -/

namespace Node

variable {n n' : Node}

theorem collectTerms_isDefined (h : n.type.IsInstance → ∃ master, n.master = some master) :
    ∃ n', n.collectTerms = some n' := by
  unfold collectTerms
  split
  · exact ⟨_, rfl⟩
  · exact ⟨_, rfl⟩
  · exact ⟨_, rfl⟩
  · exact ⟨_, rfl⟩
  · next hgate =>
      obtain ⟨master, hmaster⟩ := h (Or.inl hgate)
      rw [hmaster]
      exact ⟨_, rfl⟩
  · next hregister =>
      obtain ⟨master, hmaster⟩ := h (Or.inr hregister)
      rw [hmaster]
      exact ⟨_, rfl⟩

theorem Plain.mapTerms_isDefined (h : n.Plain) (hmappable : n.Mappable) :
    ∃ n', n.mapTerms = some n' := by
  obtain ⟨n1, hterms⟩ := collectTerms_isDefined hmappable.master
  obtain ⟨-, hn1⟩ := h.collectTerms hterms
  simp only [Node.mapTerms, hterms, Option.bind_eq_bind, Option.bind_some]
  have hinputs : n1.inSigTerms.length = n1.sources.length := by
    rw [hn1]
    exact hmappable.inputs
  have houtputs : ¬ (n1.sinks.length > 0 ∧ n1.outSigTerms.length = 0) := by
    rw [hn1]
    rintro ⟨hsinks, hnone⟩
    apply hmappable.outputs
    · exact List.ne_nil_of_length_pos hsinks
    · exact List.length_eq_zero_iff.mp hnone
  rw [if_neg (not_not.mpr hinputs), if_neg houtputs]
  exact ⟨_, rfl⟩

/-- What drives the netlist from outside has one terminal. -/
theorem pins_of_driver (h : n.type = .primaryIn ∨ n.type = .clockIn ∨ n.type = .resetIn) :
    n.pins .signal .input = [] ∧ n.pins .signal .output = ["PIN"] := by
  rcases h with h | h | h <;> simp [pins, h]

theorem mappable_driver (h : n.type = .primaryIn ∨ n.type = .clockIn ∨ n.type = .resetIn)
    (hsources : n.sources = []) : n.Mappable := by
  obtain ⟨hinputs, houtputs⟩ := pins_of_driver h
  refine ⟨fun hinst => ?_, ?_, fun _ => ?_⟩
  · rcases h with h | h | h <;> rcases hinst with hinst | hinst <;>
      exact absurd (h.symm.trans hinst) (by decide)
  · rw [hinputs, hsources]
    rfl
  · rw [houtputs]
    exact List.cons_ne_nil _ _

/-- What hangs on a control makes no difference. -/
theorem Grown.mappable_control {extra : List NodeId} (h : Grown n n' extra)
    (htype : n.type = .clockIn ∨ n.type = .resetIn) (hsources : n.sources = []) :
    n'.Mappable := by
  obtain ⟨_, _, _, _, rfl⟩ := h
  apply mappable_driver
  · exact Or.inr htype
  · exact hsources

end Node

namespace Netlist

variable {nl nl' mid : Netlist} {clkIn : NodeId}

theorem mappingTerms_isDefined {v : NodeId} (clkIn rstIn : NodeId) (hplain : (nl.node v).Plain)
    (hmappable : (nl.node v).Mappable) : ∃ nl', nl.mappingTerms clkIn rstIn v = some nl' := by
  obtain ⟨n, hn⟩ := hplain.mapTerms_isDefined hmappable
  simp only [mappingTerms, hn, Option.bind_eq_bind, Option.bind_some, Option.pure_def]
  exact ⟨_, rfl⟩

/-- The nodes before the controls are mapped one after the other. -/
theorem Prepared.mappedTo_isDefined (hc : nl.Prepared clkIn)
    (hall : ∀ v < clkIn, (nl.node v).Mappable) (k : ℕ) (hk : k ≤ clkIn) :
    ∃ nl', (List.range k).foldlM (mappingTerms clkIn (clkIn + 1)) nl = some nl' := by
  induction k with
  | zero => exact ⟨nl, rfl⟩
  | succ k ih =>
      obtain ⟨cur, hcur⟩ := ih (Nat.le_of_succ_le hk)
      have hnode : cur.node k = nl.node k :=
        (mappedTo hc.named.plain (Nat.le_of_succ_le hk) hcur).todo k le_rfl hk
      have hplain := hc.named.plain k
      have hmappable := hall k hk
      rw [← hnode] at hplain hmappable
      obtain ⟨nl', hstep⟩ := mappingTerms_isDefined clkIn (clkIn + 1) hplain hmappable
      refine ⟨nl', ?_⟩
      rw [List.range_succ, Loop.foldlM_append_eq_some]
      exact ⟨cur, hcur, Loop.foldlM_cons_eq_some.mpr ⟨nl', hstep, rfl⟩⟩

theorem Prepared.sources_control (hc : nl.Prepared clkIn) {v : NodeId} (hv : clkIn ≤ v) :
    nl.sources v = [] := by
  apply List.eq_nil_iff_forall_not_mem.mpr
  intro u hu
  exact absurd (hc.lt u v (hc.mem_iff.mpr hu)).2 (Nat.not_lt.mpr hv)

/-- Mapping goes through exactly when every node can be mapped on its own. -/
theorem Prepared.mapping_isDefined_iff (hc : nl.Prepared clkIn) :
    (∃ nl', nl.nodes.foldlM (mappingTerms clkIn (clkIn + 1)) nl = some nl') ↔
      ∀ v < clkIn, (nl.node v).Mappable := by
  constructor
  · rintro ⟨nl', h⟩ v hv
    exact ((hc.mapped h).node v hv).1
  · intro hall
    obtain ⟨cur, hcur⟩ := hc.mappedTo_isDefined hall clkIn le_rfl
    have hne : clkIn ≠ clkIn + 1 := (Nat.succ_ne_self clkIn).symm
    obtain ⟨-, -, -, -, hgrown, hgrown'⟩ := mappedTo hc.named.plain le_rfl hcur
    have hclkPlain := hgrown.plain (hc.named.plain clkIn)
    obtain ⟨mid, hclk⟩ := mappingTerms_isDefined clkIn (clkIn + 1) hclkPlain
      (hgrown.mappable_control (Or.inl hc.clk.1) (hc.sources_control le_rfl))
    have hclkPins := Node.pins_of_control (Or.inl hc.clk.1)
    have hclkStep := mappingTerms_nodeMapped hclkPlain hne
      (fun _ => by rw [hgrown.pins]; exact ⟨hclkPins.1, hclkPins.2⟩) hclk
    have hgrown'' := hgrown'.trans (hclkStep.rst hne)
    obtain ⟨nl', hrst⟩ := mappingTerms_isDefined clkIn (clkIn + 1)
      (hgrown''.plain (hc.named.plain (clkIn + 1)))
      (hgrown''.mappable_control (Or.inr hc.rst.1) (hc.sources_control (Nat.le_succ clkIn)))
    refine ⟨nl', ?_⟩
    unfold nodes
    rw [hc.size, List.range_succ, List.range_succ, Loop.foldlM_append_eq_some]
    refine ⟨mid, ?_, Loop.foldlM_cons_eq_some.mpr ⟨nl', hrst, rfl⟩⟩
    rw [Loop.foldlM_append_eq_some]
    exact ⟨cur, hcur, Loop.foldlM_cons_eq_some.mpr ⟨mid, hclk, rfl⟩⟩

/-! ## Cells -/

theorem dealMasters_isDefined {masters : List DbMaster} {targets : List NodeId}
    (hoffer : Offered nl.master2ratio masters targets) (htargets : targets.Nodup) :
    ∃ nl', nl.dealMasters masters targets = some nl' ∧
      ∀ m, 0 < nl.master2ratio m → 0 < nl'.master2ratio m := by
  obtain ⟨nl', hdeal, hratio, -⟩ := nl.dealMasters_spec hoffer htargets
  refine ⟨nl', hdeal, fun m hm => ?_⟩
  rw [hratio, nl.countTargets_ratio hoffer.nodup]
  split
  · next hin => exact div_pos hm (hoffer.sum_pos (List.ne_nil_of_mem hin))
  · exact hm

/-- What the loop over the classes relies on in each turn. -/
structure Stocked (nl0 nl : Netlist) : Prop where
  file : ∀ sequential, ∀ fi < (nl0.fiDist.xMax + 1).toNat,
    ∃ masters, (nl.table sequential)[fi]? = some masters ∧
      Offered nl.master2ratio masters
        (nl0.fi2Nodes (if sequential then .sequential else .combinational) fi)

theorem Stocked.congr {nl0 : Netlist} (h : Stocked nl0 nl)
    (htable : ∀ sequential, nl'.table sequential = nl.table sequential)
    (hratio : ∀ m, 0 < nl.master2ratio m → 0 < nl'.master2ratio m) : Stocked nl0 nl' := by
  refine ⟨fun sequential fi hfi => ?_⟩
  obtain ⟨masters, hmasters, hoffer⟩ := h.file sequential fi hfi
  refine ⟨masters, ?_, hoffer.nonempty, hoffer.nodup, fun m hm => hratio m (hoffer.pos m hm)⟩
  rw [htable]
  exact hmasters

theorem Stocked.dealClass {nl0 : Netlist} (h : Stocked nl0 nl) {fi : ℕ}
    (hfi : fi < (nl0.fiDist.xMax + 1).toNat) :
    ∃ nl', dealClass nl0 nl fi = some nl' ∧ Stocked nl0 nl' := by
  have hnodes : ∀ type, (nl0.fi2Nodes type fi).Nodup := fun type => List.nodup_range.filter _
  obtain ⟨sequMasters, hsequMasters, hsequOffer⟩ := h.file true fi hfi
  obtain ⟨mid, hsequ, hsequRatio⟩ := dealMasters_isDefined hsequOffer (hnodes _)
  have hmid := h.congr (dealMasters_cells hsequ).table hsequRatio
  obtain ⟨combMasters, hcombMasters, hcombOffer⟩ := hmid.file false fi hfi
  obtain ⟨nl', hcomb, hcombRatio⟩ := dealMasters_isDefined hcombOffer (hnodes _)
  refine ⟨nl', ?_, hmid.congr (dealMasters_cells hcomb).table hcombRatio⟩
  change nl.fi2SequMasters[fi]? = some sequMasters at hsequMasters
  change mid.fi2CombMasters[fi]? = some combMasters at hcombMasters
  change nl.dealMasters sequMasters (nl0.fi2Nodes .sequential fi) = some mid at hsequ
  simp only [Netlist.dealClass, hsequMasters, hsequ, hcombMasters, Option.bind_eq_bind,
    Option.bind_some]
  exact hcomb

theorem Stocked.chooseCells (h : Stocked nl nl) {b : BinId} (horigin : nl.getBin 0 0 = some b)
    (hwithin : ∀ v < nl.size, ((nl.node v).numFanins : ℤ) ≤ nl.fiDist.xMax) :
    ∃ mid, nl.chooseCells = some mid := by
  have hrange : ¬ (nl.nodes.any fun v => decide ((nl.type v).IsInstance ∧
      nl.fiDist.xMax < (nl.node v).numFanins)) = true := by
    simp only [List.any_eq_true, decide_eq_true_eq, not_exists, not_and, not_lt]
    exact fun v hv _ => hwithin v (List.mem_range.mp hv)
  have hstart : Stocked nl ((nl.addControl .clockIn "clk" b).addControl .resetIn "rst" b) := by
    rw [addControl_eq, addControl_eq]
    exact h.congr (fun _ => rfl) fun _ hm => hm
  obtain ⟨mid, hmid, -⟩ := Loop.isDefined (Stocked nl)
    (fun fi hfi s hs => hs.dealClass (List.mem_range.mp hfi)) hstart
  refine ⟨mid, ?_⟩
  simp only [Netlist.chooseCells, Option.bind_eq_bind]
  rw [if_neg hrange, horigin]
  exact hmid

/-- A cell that is filed has the ratio it was listed with last. -/
theorem initOnlyUseMasters_pos {ang : ArtNetGen} (hpos : ∀ info ∈ ang.masters, 0 < info.ratio)
    (h : nl.initOnlyUseMasters ang = some nl') {info : MasterInfo} (hinfo : info ∈ ang.masters) :
    0 < nl'.master2ratio info.master := by
  have hfile : ∀ {info : MasterInfo} {nl nl' : Netlist}, nl.fileMaster info = some nl' →
      nl'.master2ratio = Function.update nl.master2ratio info.master info.ratio := by
    intro info nl nl' hfile
    simp only [fileMaster] at hfile
    split at hfile
    · obtain rfl := Option.some.inj hfile
      rfl
    · split at hfile <;>
        simp only [Option.bind_eq_bind, Option.bind_eq_some_iff, Option.pure_def,
          Option.some.injEq] at hfile <;> obtain ⟨masters, -, rfl⟩ := hfile <;> rfl
  unfold initOnlyUseMasters at h
  have hrun := Loop.relates (fun masters nl nl' => (∀ info ∈ masters, 0 < info.ratio) →
      ∀ m, (0 < nl.master2ratio m ∨ ∃ info ∈ masters, info.master = m) → 0 < nl'.master2ratio m)
    (fun nl _ m hm => by simpa using hm) (fun first rest nl mid nl' hstep hrest hpos m hm => by
      obtain ⟨hfirst, hpos⟩ := List.forall_mem_cons.mp hpos
      apply hrest hpos
      rw [hfile hstep, Function.update_apply]
      split
      · exact Or.inl hfirst
      · next hne =>
          apply hm.imp id
          rintro ⟨info, hinfo, rfl⟩
          refine ⟨info, (List.mem_cons.mp hinfo).resolve_left ?_, rfl⟩
          rintro rfl
          exact hne rfl) h
  exact hrun hpos info.master (Or.inr ⟨info, hinfo, rfl⟩)

theorem cellsOf_nodup {masters : List MasterInfo} (h : (masters.map (·.master)).Nodup)
    (sequential : Bool) (fi : ℕ) : (cellsOf masters sequential fi).Nodup :=
  h.sublist (List.filter_sublist.map _)

end Netlist

namespace Construction

variable {addr : NodeId ↪ ℕ} {ang : ArtNetGen} (c : Construction addr ang)

/-- Every register has a cell to choose, whatever the library is. -/
theorem registers_mastered {v : NodeId} (hv : v < c.finished.size)
    (hregister : c.finished.type v = .sequential) :
    cellsOf ang.masters true (c.finished.numFanins v) ≠ [] := by
  have hready := c.reachable.ready c.masters
  have hfitted := hready.reworks (c.path.toMergeRun.reworks hready.legal)
  have hmastered := ((Splitting.turns_trace hfitted c.path.splitting).ended c.path.ended).1
  have hmaster := hmastered v hv hregister
  obtain ⟨masters, hmasters, hlength⟩ := Option.map_eq_some_iff.mp hmaster
  change (c.finished.table true)[c.finished.numFanins v]? = some masters at hmasters
  rw [c.table] at hmasters
  split at hmasters
  · rw [Option.some.inj hmasters]
    exact List.ne_nil_of_length_pos (of_decide_eq_true hlength)
  · cases hmasters

/-- Every gate finds a cell with as many inputs as it has sources. -/
def GatesSupplied : Prop :=
  ∀ v < c.finished.size, c.finished.type v = .combinational →
    ∃ info ∈ ang.masters, info.isIn false (c.finished.numFanins v) = true

theorem stocked (hnodup : (ang.masters.map (·.master)).Nodup)
    (hpos : ∀ info ∈ ang.masters, 0 < info.ratio) (hgates : c.GatesSupplied) :
    Stocked c.finished c.finished := by
  have hratio : c.finished.master2ratio = c.equipped.master2ratio :=
    c.keeps.congr Netlist.master2ratio fun _ _ _ _ => rfl
  refine ⟨fun sequential fi hfi => ⟨cellsOf ang.masters sequential fi, ?_, ?_, ?_, ?_⟩⟩
  · rw [c.table, if_pos hfi]
  · intro htargets
    obtain ⟨v, hv⟩ := List.exists_mem_of_ne_nil _ htargets
    simp only [fi2Nodes, List.mem_filter, nodes, List.mem_range, decide_eq_true_eq] at hv
    obtain ⟨hlt, htype, rfl⟩ := hv
    cases sequential with
    | true => exact c.registers_mastered hlt htype
    | false =>
        obtain ⟨info, hinfo, hisIn⟩ := hgates v hlt htype
        exact List.ne_nil_of_mem (mem_cellsOf.mpr ⟨info, hinfo, hisIn, rfl⟩)
  · exact cellsOf_nodup hnodup sequential fi
  · intro m hm
    obtain ⟨info, hinfo, -, rfl⟩ := mem_cellsOf.mp hm
    rw [hratio]
    exact initOnlyUseMasters_pos hpos c.masters hinfo

theorem origin : ∃ b, c.finished.getBin 0 0 = some b := by
  obtain ⟨_, _, hshelved⟩ := c.ready.fits.shelved
  obtain ⟨v, hv⟩ := List.exists_mem_of_ne_nil _ c.portsListed.nonempty
  have hbins := (Nat.zero_le _).trans_lt
    (hshelved.placed.inGrid v (c.portsListed.outs v hv))
  unfold numBins at hbins
  exact ⟨_, (hshelved.placed.getBin (Nat.pos_of_mul_pos_right hbins)
    (Nat.pos_of_mul_pos_left hbins)).1⟩

/-- Cells have been chosen exactly if there were some for the gates. -/
theorem chooseCells_isDefined_iff (hnodup : (ang.masters.map (·.master)).Nodup)
    (hpos : ∀ info ∈ ang.masters, 0 < info.ratio) :
    (∃ mid, c.finished.chooseCells = some mid) ↔ c.GatesSupplied := by
  constructor
  · rintro ⟨mid, hmid⟩ v hv hgate
    obtain ⟨masters, hmasters, m, hm, -⟩ := chooseCells_mastered hmid hv (Or.inl hgate)
    rw [c.table, hgate] at hmasters
    split at hmasters
    · obtain rfl := Option.some.inj hmasters
      obtain ⟨info, hinfo, hisIn, -⟩ := mem_cellsOf.mp hm
      exact ⟨info, hinfo, hisIn⟩
    · cases hmasters
  · intro hgates
    obtain ⟨b, horigin⟩ := c.origin
    apply (c.stocked hnodup hpos hgates).chooseCells horigin
    exact fun v hv => (c.ready.fits.within v hv).1

/-- Every output port has a driver. -/
def OutputsDriven : Prop :=
  ∀ v < c.finished.size, c.finished.type v = .primaryOut → c.finished.sources v ≠ []

/-- With its cell an instance can be mapped, and an input always can; an output
can be if it has a source, and it never has two. -/
theorem mappable_iff {mid : Netlist} (hmid : c.finished.chooseCells = some mid) :
    (∀ v < c.finished.size, (mid.node v).Mappable) ↔ c.OutputsDriven := by
  have hchosen := chooseCells_chosen c.ready.legal c.named hmid
  obtain ⟨b, hcontrols⟩ := chooseCells_controls hmid
  have hsources : ∀ v < c.finished.size, (mid.node v).sources = c.finished.sources v := by
    intro v hv
    obtain ⟨_, hold⟩ := hcontrols.old_of_lt hv
    rw [hold]
    rfl
  have houtput : ∀ v, mid.type v = .primaryOut →
      (mid.node v).pins .signal .input = ["PIN"] := by
    intro v htype
    unfold Netlist.type at htype
    simp [Node.pins, htype]
  constructor
  · intro hall v hv hout hnone
    have hinputs := (hall v hv).inputs
    rw [hsources v hv, hnone, houtput v (hcontrols.type_of_lt hv ▸ hout)] at hinputs
    cases hinputs
  · intro hdriven v hv
    have htype := hcontrols.type_of_lt hv
    cases hkind : c.finished.type v with
    | combinational | sequential =>
        have hinst : (c.finished.type v).IsInstance := by
          unfold NodeType.IsInstance
          rw [hkind]
          simp
        obtain ⟨masters, hmasters, m, hm, hmaster⟩ := chooseCells_mastered hmid hv hinst
        rw [c.table] at hmasters
        split at hmasters
        · obtain rfl := Option.some.inj hmasters
          obtain ⟨info, -, hisIn, rfl⟩ := mem_cellsOf.mp hm
          obtain ⟨hsupported, -, hinputs⟩ := MasterInfo.isIn_iff.mp hisIn
          simp only [PortInfo.supported, Bool.and_eq_true, decide_eq_true_eq] at hsupported
          obtain ⟨hsignal, houtputs, -⟩ := getPortInfo_pins hsupported.2
          have hpins : ∀ sig io, (mid.node v).pins sig io = info.master.pins sig io := by
            intro sig io
            have hmidKind := htype.trans hkind
            unfold Netlist.type at hmidKind
            simp [Node.pins, hmidKind, hmaster]
          refine ⟨fun _ => ⟨info.master, hmaster⟩, ?_, fun _ => ?_⟩
          · rw [hpins, hsources v hv, ← hsignal, hinputs]
            rfl
          · rw [hpins]
            intro hnone
            rw [hnone, List.length_nil] at houtputs
            exact hsupported.1 houtputs
        · cases hmasters
    | primaryIn =>
        have hin : mid.type v = .primaryIn := htype.trans hkind
        apply Node.mappable_driver (Or.inl hin)
        exact hchosen.ported.input v hin
    | primaryOut =>
        have hout : mid.type v = .primaryOut := htype.trans hkind
        have hone : ((mid.node v).sources).length ≤ 1 := (hchosen.ported.output v hout).2
        have hsome := hdriven v hv hkind
        rw [← hsources v hv] at hsome
        have hpos := List.length_pos_of_ne_nil hsome
        refine ⟨fun hinst => ?_, ?_, fun hsinks => ?_⟩
        · rcases hinst with hinst | hinst <;> exact absurd (hout.symm.trans hinst) (by decide)
        · rw [houtput v hout, List.length_singleton]
          omega
        · exact absurd (hchosen.ported.output v hout).1 hsinks
    | clockIn | resetIn =>
        have hcontrol := c.ready.legal.noControl v
        rw [hkind] at hcontrol
        cases hcontrol

end Construction

/-! ## The library -/

/-- The cell that a line names. -/
def SpecLine.onlyUseName : SpecLine → Option String
  | .onlyUse masterName _ => some masterName
  | _ => none

namespace ArtNetGen

theorem mem_named {start : ArtNetGen} {spec : List SpecLine} {info : MasterInfo} :
    info ∈ start.named spec ↔ ∃ masterName, .onlyUse masterName info.ratio ∈ spec ∧
      start.findMaster masterName = some info.master := by
  unfold named
  rw [List.mem_filterMap]
  constructor
  · rintro ⟨line, hline, hmap⟩
    cases line with
    | onlyUse masterName ratio =>
        obtain ⟨master, hmaster, rfl⟩ := Option.map_eq_some_iff.mp hmap
        exact ⟨masterName, hline, hmaster⟩
    | _ => cases hmap
  · rintro ⟨masterName, hline, hmaster⟩
    refine ⟨_, hline, ?_⟩
    dsimp only
    rw [hmaster]
    rfl

/-- Cells found by different names are different. -/
theorem found_nodup (start : ArtNetGen) {α : Type} {f : α → Option MasterInfo}
    (name : α → Option String) {l : List α} (hl : (l.filterMap name).Nodup)
    (hf : ∀ a ∈ l, ∀ info, f a = some info → ∃ n, name a = some n ∧
      start.findMaster n = some info.master) :
    ((l.filterMap f).map (·.master)).Nodup := by
  induction l with
  | nil => exact List.nodup_nil
  | cons a rest ih =>
      have hrest := ih (hl.sublist ((List.sublist_cons_self a rest).filterMap name))
        fun b hb => hf b (List.mem_cons_of_mem _ hb)
      cases hinfo : f a with
      | none =>
          rw [List.filterMap_cons_none hinfo]
          exact hrest
      | some info =>
          rw [List.filterMap_cons_some hinfo, List.map_cons, List.nodup_cons]
          refine ⟨fun hmem => ?_, hrest⟩
          obtain ⟨n, hname, hfound⟩ := hf a List.mem_cons_self info hinfo
          obtain ⟨other, hother, heq⟩ := List.mem_map.mp hmem
          obtain ⟨b, hb, hfb⟩ := List.mem_filterMap.mp hother
          obtain ⟨n', hname', hfound'⟩ := hf b (List.mem_cons_of_mem _ hb) other hfb
          have hsame : n' = n := by
            rw [← (findMaster_spec hfound').2, ← (findMaster_spec hfound).2, heq]
          rw [List.filterMap_cons_some hname, List.nodup_cons] at hl
          apply hl.1
          rw [← hsame]
          exact List.mem_filterMap.mpr ⟨b, hb, hname'⟩

/-- When no two cells of the libraries and no two `ONLY_USE` lines share a name,
no cell is selected twice; and ratios are positive when those of the lines are. -/
theorem init_offers {start ang : ArtNetGen} {spec : List SpecLine}
    (hinit : start.init spec = some ang) (hfresh : start.masters = [])
    (hlibs : (start.libs.flatten.map (·.name)).Nodup)
    (honly : (spec.filterMap SpecLine.onlyUseName).Nodup)
    (hratio : ∀ masterName ratio, .onlyUse masterName ratio ∈ spec → 0 < ratio) :
    (ang.masters.map (·.master)).Nodup ∧ ∀ info ∈ ang.masters, 0 < info.ratio := by
  have hnamed : ((start.named spec).map (·.master)).Nodup := by
    apply start.found_nodup SpecLine.onlyUseName honly
    intro line _ info hinfo
    cases line with
    | onlyUse masterName ratio =>
        obtain ⟨master, hmaster, rfl⟩ := Option.map_eq_some_iff.mp hinfo
        exact ⟨masterName, rfl, hmaster⟩
    | _ => cases hinfo
  have havailable : (start.available.map (·.master)).Nodup := by
    unfold available
    apply start.found_nodup some
    · rw [List.filterMap_some]
      exact hlibs
    · intro name _ info hinfo
      obtain ⟨master, hmaster, rfl⟩ := Option.map_eq_some_iff.mp hinfo
      exact ⟨name, rfl, hmaster⟩
  rw [(init_spec hinit).2, hfresh, List.nil_append]
  constructor
  · apply (Filing.nodup_map_flatMap_iff (·.master) (fun _ _ => kindOf_eq_of_master)
      (kinds_nodup _) fun _ _ _ => kindOf_of_mem_selection).mpr
    intro k _
    unfold selection
    split
    · exact havailable.sublist (List.filter_sublist.map _)
    · exact hnamed.sublist (List.filter_sublist.map _)
  · intro info hinfo
    obtain ⟨k, -, hselected⟩ := List.mem_flatMap.mp hinfo
    unfold selection at hselected
    split at hselected
    · obtain ⟨name, -, hmap⟩ := List.mem_filterMap.mp (List.mem_filter.mp hselected).1
      obtain ⟨master, -, rfl⟩ := Option.map_eq_some_iff.mp hmap
      exact one_pos
    · obtain ⟨masterName, hline, -⟩ := mem_named.mp (List.mem_filter.mp hselected).1
      exact hratio masterName info.ratio hline

end ArtNetGen

/-- Whatever the spec says and whatever is excluded, `technologyMapping` gets to
its end on a finished netlist exactly if there is a cell left for every number
of sources that a gate has and every output has been connected. The registers
always find a cell, and the loops that deal the cells out end. -/
theorem Construction.mapping_completes_iff (addr : NodeId ↪ ℕ) (start ang : ArtNetGen)
    (spec : List SpecLine) (names : List String) (hinit : start.init spec = some ang)
    (hfresh : start.masters = []) (hlibs : (start.libs.flatten.map (·.name)).Nodup)
    (honly : (spec.filterMap SpecLine.onlyUseName).Nodup)
    (hratio : ∀ masterName ratio, .onlyUse masterName ratio ∈ spec → 0 < ratio)
    (c : Construction addr (names.foldl ArtNetGen.setDontUse ang)) (order : MapOrder) :
    (∃ mapped nets, c.finished.technologyMapping order = some (mapped, nets)) ↔
      c.GatesSupplied ∧ c.OutputsDriven := by
  obtain ⟨hnodup, hpos⟩ := ArtNetGen.init_offers hinit hfresh hlibs honly hratio
  have hchoose := c.chooseCells_isDefined_iff
    (hnodup.sublist ((ArtNetGen.setDontUse_sublist names ang).map _))
    fun info hinfo => hpos info (ArtNetGen.mem_setDontUse hinfo)
  constructor
  · rintro ⟨mapped, nets, hmapping⟩
    obtain ⟨mid, hmid, hchosen, hmapped, -⟩ :=
      technologyMapping_spec c.ready.legal c.named hmapping
    refine ⟨hchoose.mp ⟨mid, hmid⟩, (c.mappable_iff hmid).mp fun v hv => ?_⟩
    exact (hmapped.node v hv).1
  · rintro ⟨hgates, houtputs⟩
    obtain ⟨mid, hmid⟩ := hchoose.mpr hgates
    have hprepared := (chooseCells_chosen c.ready.legal c.named hmid).prepared
    obtain ⟨mapped, hmapped⟩ :=
      hprepared.mapping_isDefined_iff.mpr ((c.mappable_iff hmid).mpr houtputs)
    refine ⟨mapped, mapped.makeNets order, ?_⟩
    simp only [technologyMapping, hmid, hmapped, Option.bind_eq_bind, Option.bind_some]
    rfl

theorem Construction.mapping_completes_iff_sparing :
    ∃ mapped nets, sparing.finished.technologyMapping .inOrder = some (mapped, nets) :=
  (Construction.mapping_completes_iff (.refl ℕ) { libs := [[bufferCell, dff, dffsr]] } offeringAng
    chainSpec ["DFFSR"] (Option.some_get _).symm rfl (by decide +kernel) (by decide +kernel)
    (by simp [chainSpec]) sparing.toConstruction .inOrder).mpr
      ⟨show ∀ v < sparing.finished.size, sparing.finished.type v = .combinational →
          ∃ info ∈ sparingAng.masters, info.isIn false (sparing.finished.numFanins v) = true by
        decide +kernel,
      show ∀ v < sparing.finished.size, sparing.finished.type v = .primaryOut →
          sparing.finished.sources v ≠ [] by decide +kernel⟩

end Artnetgen
