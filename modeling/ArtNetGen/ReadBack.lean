import ArtNetGen.VerilogText

/-!
What the written file says to its reader. Whoever has the cells finds in it which
instances drive which, and this is what the netlist says.
-/

namespace Artnetgen

open Verilog

namespace Netlist

variable {nl nl' : Netlist} {clkIn u v w p : NodeId} {o : MapOrder} {d : NodeId × String}
  {net net' : Net} {t n : String}

/-! ## Wires of pins -/

/-- The pin is on the net of a driver that records it. -/
theorem Mapped.net_of_pin (h : Mapped clkIn nl nl') (hc : nl.Chosen clkIn) (hv : v < clkIn)
    (ht : t ≠ "PIN") (hpin : (t, n) ∈ nl'.instancePins (nl'.makeNets o) v) :
    ∃ net ∈ nl'.makeNets o, n = net.name ∧ (v, t) ∈ net.terms := by
  obtain ⟨⟨w, hw, hterm⟩, hwire⟩ := mem_instancePins.mp hpin
  dsimp only at hterm hwire
  have hlt : v < nl'.size := h.size.symm ▸ hc.prepared.lt_size hv
  have hown : nl'.pinOf v t = (v, t) := by
    unfold pinOf
    rw [if_neg ht]
  obtain ⟨d, hd, hrecords⟩ : ∃ d, nl'.IsDriver d ∧ nl'.Records d (v, t) := by
    rcases List.mem_append.mp hw with hsource | hsink
    · have hlt' := h.source_lt hc hv hsource
      have hsink := (h.sink_iff_source hc hlt' hv).mpr hsource
      have hd : nl'.IsDriver (w, nl'.getTerm w v) := ⟨h.size.symm ▸ hlt', v, hsink, rfl⟩
      refine ⟨_, hd, (h.records_iff hc hv hd).mpr (Or.inr ⟨hsource, rfl, ?_⟩)⟩
      rw [hterm, hown]
    · have hd : nl'.IsDriver (v, t) := ⟨hlt, w, hsink, hterm⟩
      exact ⟨_, hd, (h.records_iff hc hv hd).mpr (Or.inl ⟨rfl, hown⟩)⟩
  obtain ⟨net, hnet, hisNet⟩ := exists_net (h.namesApart hc) hd o
  have hrecorded : ∃ net ∈ nl'.makeNets o, (v, t) ∈ net.terms := by
    refine ⟨net, hnet, ?_⟩
    rw [hisNet.terms]
    exact hrecords
  obtain ⟨net', hnet', hmem, hname⟩ := term2net_mem nl' ht hrecorded
  exact ⟨net', hnet', hwire.trans hname, hmem⟩

theorem makeNets_names (h : Mapped clkIn nl nl') (hc : nl.Chosen clkIn) (o : MapOrder) :
    ((nl'.makeNets o).map (·.name)).Nodup := by
  have hapart := h.namesApart hc
  rw [makeNets_eq, ((o.name2net.property _).map _).nodup_iff]
  exact netsAfter_nodup hapart (drivers_nodup _ _) fun _ => mem_drivers.mp

theorem net_of_name (h : Mapped clkIn nl nl') (hc : nl.Chosen clkIn)
    (hnet : net ∈ nl'.makeNets o) (hnet' : net' ∈ nl'.makeNets o) (hname : net.name = net'.name) :
    net = net' :=
  List.inj_on_of_nodup_map (makeNets_names h hc o) hnet hnet' hname

namespace MappedInstance

/-- What a net records of an instance the file puts on its wire. -/
theorem pin_of_net (h : MappedInstance clkIn nl nl' v) (hsep : nl.Separable) (ht : t ≠ "PIN")
    (hd : nl'.IsDriver d) (hnet : net ∈ nl'.makeNets o) (hisNet : nl'.IsNet d net)
    (hrecords : nl'.Records d (v, t)) (hown : d.1 = v → d.2 ≠ "PIN") :
    (t, net.name) ∈ nl'.instancePins (nl'.makeNets o) v := by
  have hapart := h.mapped.namesApart h.chosen
  have hmem : (v, t) ∈ net.terms := by
    rw [hisNet.terms]
    exact hrecords
  apply mem_instancePins.mpr
  constructor
  · rcases (h.mapped.records_iff h.chosen h.lt_clk hd).mp hrecords with
      ⟨hv, hpin⟩ | ⟨hsource, -, hpin⟩
    · obtain ⟨-, w, hw, hterm⟩ := hd
      rw [pinOf, if_neg (hown hv)] at hpin
      have ht' : d.2 = t := congrArg Prod.snd hpin
      rw [hv] at hw hterm
      exact ⟨w, List.mem_append_right _ hw, hterm.trans ht'⟩
    · rw [h.pinOf_source hsep hsource] at hpin
      exact ⟨d.1, List.mem_append_left _ hsource, congrArg Prod.snd hpin⟩
  · obtain ⟨net', hnet', hmem', hname⟩ := term2net_mem nl' ht ⟨net, hnet, hmem⟩
    have hone : numNets (nl'.makeNets o) (v, t) ≤ 1 := by
      rw [numNets_le_one_iff hapart]
      exact fun d d' hd hd' hrec hrec' => h.records_unique hsep hd hd' hrec hrec'
    unfold numNets at hone
    rw [Counts.countP_le_one_iff (makeNets_names h.mapped h.chosen o).of_map] at hone
    have heq := hone net hnet net' hnet' (decide_eq_true hmem) (decide_eq_true hmem')
    rw [heq]
    exact hname.symm

/-- An input terminal is on the net of a source. -/
theorem source_of_input (h : MappedInstance clkIn nl nl' v) (hd : nl'.IsDriver d)
    (hout : "PIN" ∉ (nl.node v).pins .signal .output)
    (ht : t ∈ (nl.node v).pins .signal .input) (hrecords : nl'.Records d (v, t)) :
    d.1 ∈ nl'.sources v := by
  rcases (h.mapped.records_iff h.chosen h.lt_clk hd).mp hrecords with ⟨hv, hpin⟩ | ⟨hsource, -, -⟩
  · obtain ⟨-, w, hw, hterm⟩ := hd
    rw [hv] at hw hterm
    have hmem := h.mem_outPins hw
    rw [hterm] at hmem
    have hne : d.2 ≠ "PIN" := fun heq => hout (heq ▸ hmem)
    rw [pinOf, if_neg hne] at hpin
    have ht' : d.2 = t := congrArg Prod.snd hpin
    rw [ht'] at hmem
    cases (Node.kind_unique h.inst hmem ht).2
  · exact hsource

/-- A source that is no control was one before. -/
theorem sink_of_source (h : MappedInstance clkIn nl nl' v) (hw : w ∈ nl'.sources v)
    (hlt : w < clkIn) : v ∈ nl.sinks w := by
  rcases (h.mapped.mem_sources h.lt_clk).mp hw with hold | ⟨rfl, -⟩ | ⟨rfl, -⟩
  · exact h.chosen.prepared.mem_iff.mpr hold
  · exact absurd hlt (lt_irrefl _)
  · exact absurd hlt (Nat.not_lt.mpr (Nat.le_succ _))

theorem input_of_source (h : MappedInstance clkIn nl nl' v) (hsep : nl.Separable)
    (hw : w ∈ nl'.sources v) (hlt : w < clkIn) :
    nl'.getTerm v w ∈ (nl.node v).pins .signal .input := by
  rcases h.source_cases hsep hw with ⟨-, hmem⟩ | ⟨rfl, -⟩ | ⟨rfl, -⟩
  · exact (List.of_mem_zip hmem).2
  · exact absurd hlt (lt_irrefl _)
  · exact absurd hlt (Nat.not_lt.mpr (Nat.le_succ _))

end MappedInstance

/-! ## Links -/

/-- Two instances whose cells have no terminal called `PIN`. -/
theorem MappedInstance.linked_iff (h : MappedInstance clkIn nl nl' u)
    (h' : MappedInstance clkIn nl nl' v) (hsep : nl.Separable)
    (hpin : ∀ sig io, "PIN" ∉ (nl.node u).pins sig io)
    (hpin' : ∀ sig io, "PIN" ∉ (nl.node v).pins sig io) (o : MapOrder) :
    (∃ t ∈ (nl.node u).pins .signal .output, ∃ n, (t, n) ∈ nl'.instancePins (nl'.makeNets o) u ∧
      ∃ t' ∈ (nl.node v).pins .signal .input,
        (t', n) ∈ nl'.instancePins (nl'.makeNets o) v) ↔ v ∈ nl.sinks u := by
  have hapart := h.mapped.namesApart h.chosen
  have hne : ∀ {sig io t}, t ∈ (nl.node u).pins sig io → t ≠ "PIN" :=
    fun ht heq => hpin _ _ (heq ▸ ht)
  have hne' : ∀ {sig io t}, t ∈ (nl.node v).pins sig io → t ≠ "PIN" :=
    fun ht heq => hpin' _ _ (heq ▸ ht)
  constructor
  · rintro ⟨t, ht, n, hn, t', ht', hn'⟩
    obtain ⟨net, hnet, hname, hmem⟩ := h.mapped.net_of_pin h.chosen h.lt_clk (hne ht) hn
    obtain ⟨net', hnet', hname', hmem'⟩ :=
      h.mapped.net_of_pin h.chosen h'.lt_clk (hne' ht') hn'
    obtain rfl := net_of_name h.mapped h.chosen hnet hnet' (hname.symm.trans hname')
    obtain ⟨d, hd, hisNet⟩ := mem_makeNets hapart hnet
    rw [hisNet.terms] at hmem hmem'
    have hsource := h'.source_of_input hd (hpin' _ _) ht' hmem'
    -- The output terminal is the one that drives the net.
    have hu : d.1 = u := by
      rcases (h.mapped.records_iff h.chosen h.lt_clk hd).mp hmem with ⟨hu, -⟩ | ⟨hdrives, -, heq⟩
      · exact hu
      · rw [h.pinOf_source hsep hdrives] at heq
        have hterm : nl'.getTerm u d.1 = t := congrArg Prod.snd heq
        have hin := h.mem_inPins hsep hdrives
        rw [hterm, Node.mem_inPins] at hin
        rcases hin with hin | hin | hin <;> cases (Node.kind_unique h.inst hin ht).2
    rw [hu] at hsource
    exact h'.sink_of_source hsource h.lt_clk
  · intro hv
    have hsink : v ∈ nl'.sinks u := (h.mapped.mem_sinks h.chosen h.lt).mpr (Or.inl hv)
    have hsource := (h.mapped.sink_iff_source h.chosen h.lt h'.lt_clk).mp hsink
    have hout := h.mem_outPins hsink
    have hin := h'.input_of_source hsep hsource h.lt_clk
    have hd : nl'.IsDriver (u, nl'.getTerm u v) := ⟨h.mapped.size.symm ▸ h.lt, v, hsink, rfl⟩
    obtain ⟨net, hnet, hisNet⟩ := exists_net hapart hd o
    refine ⟨_, hout, net.name, ?_, _, hin, ?_⟩
    · apply h.pin_of_net hsep (hne hout) hd hnet hisNet
      · refine (h.mapped.records_iff h.chosen h.lt_clk hd).mpr (Or.inl ⟨rfl, ?_⟩)
        rw [pinOf, if_neg (hne hout)]
      · exact fun _ => hne hout
    · apply h'.pin_of_net hsep (hne' hin) hd hnet hisNet
      · refine (h.mapped.records_iff h.chosen h'.lt_clk hd).mpr (Or.inr ⟨hsource, rfl, ?_⟩)
        exact h'.pinOf_source hsep hsource
      · exact fun _ => hne hout

/-- An input port and an instance. -/
theorem MappedInstance.fed_iff (h : MappedInstance clkIn nl nl' v) (hsep : nl.Separable)
    (hpin : ∀ sig io, "PIN" ∉ (nl.node v).pins sig io) (hp : p < nl.size) (htype : nl.type p = .primaryIn) (o : MapOrder) :
    (∃ t ∈ (nl.node v).pins .signal .input,
      (t, nl'.name p) ∈ nl'.instancePins (nl'.makeNets o) v) ↔ v ∈ nl.sinks p := by
  have hapart := h.mapped.namesApart h.chosen
  have hne : ∀ {t}, t ∈ (nl.node v).pins .signal .input → t ≠ "PIN" :=
    fun ht heq => hpin _ _ (heq ▸ ht)
  have htype' : nl'.type p = .primaryIn := (h.mapped.same h.chosen hp).1.trans htype
  have hplt : p < clkIn := by
    rcases h.chosen.prepared.node_cases hp with hlt | rfl | rfl
    · exact hlt
    · cases htype.symm.trans h.chosen.clk.1
    · cases htype.symm.trans h.chosen.rst.1
  constructor
  · rintro ⟨t, ht, hwire⟩
    obtain ⟨net, hnet, hname, hmem⟩ := h.mapped.net_of_pin h.chosen h.lt_clk (hne ht) hwire
    obtain ⟨d, hd, hisNet⟩ := mem_makeNets hapart hnet
    rw [hisNet.terms] at hmem
    have hsource := h.source_of_input hd (hpin _ _) ht hmem
    have hport := h.mapped.portOf_of_name h.chosen hd hisNet hp (by simp [htype', initial])
      hname.symm
    have hdp : d.1 = p := by
      rcases portOf_cases hport with ⟨-, heq⟩ | ⟨hout, -, -⟩
      · exact heq.symm
      · cases htype'.symm.trans hout
    rw [hdp] at hsource
    exact h.sink_of_source hsource hplt
  · intro hv
    have hsink : v ∈ nl'.sinks p := (h.mapped.mem_sinks h.chosen hp).mpr (Or.inl hv)
    have hsource := (h.mapped.sink_iff_source h.chosen hp h.lt_clk).mp hsink
    have hin := h.input_of_source hsep hsource hplt
    have hd : nl'.IsDriver (p, nl'.getTerm p v) := ⟨h.mapped.size.symm ▸ hp, v, hsink, rfl⟩
    obtain ⟨net, hnet, hisNet⟩ := exists_net hapart hd o
    have hname : net.name = nl'.name p := hisNet.called p (by simp [portOf, htype'])
    refine ⟨_, hin, ?_⟩
    rw [← hname]
    apply h.pin_of_net hsep (hne hin) hd hnet hisNet
    · refine (h.mapped.records_iff h.chosen h.lt_clk hd).mpr (Or.inr ⟨hsource, rfl, ?_⟩)
      exact h.pinOf_source hsep hsource
    · intro heq
      dsimp only at heq
      have hinst := h.inst
      rw [← heq, htype] at hinst
      rcases hinst with hinst | hinst <;> cases hinst

end Netlist

/-! ## Reading with a library -/

namespace VerilogFile

/-- The wire is on a signal input of the instance. -/
def Feeds (file : VerilogFile) (findCell : String → Option DbMaster) (wire name : String) : Prop :=
  ∃ inst ∈ file.instances, inst.name = name ∧ ∃ master, findCell inst.cell = some master ∧
    ∃ t ∈ master.pins .signal .input, (t, wire) ∈ inst.pins

/-- A signal output of the first instance is on a wire with a signal input of the
second. -/
def Links (file : VerilogFile) (findCell : String → Option DbMaster) (name name' : String) : Prop :=
  ∃ inst ∈ file.instances, inst.name = name ∧ ∃ master, findCell inst.cell = some master ∧
    ∃ t ∈ master.pins .signal .output, ∃ wire, (t, wire) ∈ inst.pins ∧
      file.Feeds findCell wire name'

end VerilogFile

/-- A cell that can be told from the outside what it is connected to. -/
structure PlainCell (master : DbMaster) : Prop where
  clock : (master.pins .clock .input).length ≤ 1
  reset : (master.pins .reset .input).length ≤ 1
  named : ∀ term ∈ master.mTerms, term.name ≠ "PIN"

theorem PlainCell.pin {master : DbMaster} (h : PlainCell master) (sig : DbSigType)
    (io : DbIoType) : "PIN" ∉ master.pins sig io := by
  intro hmem
  obtain ⟨term, hterm, hname⟩ := List.mem_map.mp hmem
  exact h.named term (List.mem_filter.mp hterm).1 hname

namespace Generation

open Netlist

variable {addr : NodeId ↪ ℕ} {ang : ArtNetGen} (g : Generation addr ang)

/-- Cells that the reader finds by their names. -/
structure Findable (ang : ArtNetGen) (findCell : String → Option DbMaster) : Prop where
  found : ∀ info ∈ ang.masters, findCell info.master.name = some info.master
  plain : ∀ info ∈ ang.masters, PlainCell info.master

variable {g} {findCell : String → Option DbMaster} {topModule : String}

theorem mem_instances {inst : VerilogInstance} :
    inst ∈ (g.mapped.verilogFile topModule g.nets).instances ↔
      ∃ v < g.mapped.size, (g.mapped.type v).IsInstance ∧
        inst = ⟨((g.mapped.node v).master.map (·.name)).getD "", g.mapped.name v,
          g.mapped.instancePins g.nets v⟩ := by
  unfold verilogFile writeVerilog
  simp only [List.map_map, nodes, List.mem_map, List.mem_filter, List.mem_range,
    decide_eq_true_eq, and_assoc, Function.comp_apply, eq_comm (b := inst)]

/-- The reader finds the cell of an instance. -/
theorem exists_inst (hfind : Findable ang findCell) {v : NodeId} (hv : v < g.mapped.size)
    (hinst : (g.mapped.type v).IsInstance) {info : MasterInfo} (hinfo : info ∈ ang.masters)
    (hmaster : (g.mapped.node v).master = some info.master)
    (P : DbMaster → List (String × String) → Prop) :
    (∃ inst ∈ (g.mapped.verilogFile topModule g.nets).instances, inst.name = g.mapped.name v ∧
      ∃ master, findCell inst.cell = some master ∧ P master inst.pins) ↔
        P info.master (g.mapped.instancePins g.nets v) := by
  have hcell : findCell (((g.mapped.node v).master.map (·.name)).getD "") = some info.master := by
    rw [hmaster]
    exact hfind.found info hinfo
  constructor
  · rintro ⟨inst, hmem, hname, master, hfound, hP⟩
    obtain ⟨w, hw, hinst', rfl⟩ := mem_instances.mp hmem
    obtain rfl : w = v := name_injective hw hv hname
    obtain rfl : info.master = master := Option.some.inj (hcell.symm.trans hfound)
    exact hP
  · intro hP
    exact ⟨_, mem_instances.mpr ⟨v, hv, hinst, rfl⟩, rfl, info.master, hcell, hP⟩

/-- The pins of an instance are those of its cell. -/
theorem pins_of_cell {mid : Netlist} (hmapped : Mapped g.finished.size mid g.mapped) {v : NodeId}
    (hi : MappedInstance g.finished.size mid g.mapped v) :
    ∃ info ∈ ang.masters, (g.mapped.node v).master = some info.master ∧
      (mid.node v).pins = info.master.pins := by
  obtain ⟨hv, hinst⟩ := (hmapped.instance_iff hi.chosen).mpr hi
  obtain ⟨info, hinfo, hmaster, -⟩ := g.cell hv hinst
  have hcell : (mid.node v).master = some info.master := by
    rw [← hmaster, (hmapped.node v hi.lt_clk).2]
    rfl
  refine ⟨info, hinfo, hmaster, ?_⟩
  funext sig io
  rcases hi.inst with htype | htype
  · have hpins : (mid.node v).type = .combinational := htype
    simp [Node.pins, hpins, hcell]
  · have hpins : (mid.node v).type = .sequential := htype
    simp [Node.pins, hpins, hcell]

/-- With plain cells all that matters is that no two instances drive each other. -/
theorem separable (hfind : Findable ang findCell)
    (honeWay : ∀ u < g.finished.size, ∀ v ∈ g.finished.sinks u, u ∉ g.finished.sinks v) {mid : Netlist}
    (hsinks : mid.sinks = g.finished.sinks) (hchosen : mid.Chosen g.finished.size)
    (hmapped : Mapped g.finished.size mid g.mapped) : mid.Separable := by
  have hplain : ∀ v < mid.size, (mid.type v).IsInstance →
      ∃ master, PlainCell master ∧ (mid.node v).pins = master.pins := by
    intro v hv hinst
    obtain ⟨info, hinfo, -, hpins⟩ := pins_of_cell hmapped ⟨hmapped, hchosen, hv, hinst⟩
    exact ⟨info.master, hfind.plain info hinfo, hpins⟩
  have hnone : ∀ v < mid.size, (mid.type v).IsInstance → ∀ sig io,
      "PIN" ∉ (mid.node v).pins sig io := by
    intro v hv hinst sig io
    obtain ⟨master, hmaster, hpins⟩ := hplain v hv hinst
    rw [hpins]
    exact hmaster.pin sig io
  refine ⟨fun u _ v hv _ _ => ?_, fun v hv hinst => ?_, fun v hv hinst => ?_,
    fun v hv hinst hmem => ?_, fun v hv hinst w hmem => ?_⟩
  · have hlt := (hchosen.lt u v hv).1
    rw [hsinks] at hv ⊢
    exact honeWay u hlt v hv
  · obtain ⟨master, hmaster, hpins⟩ := hplain v hv hinst
    rw [hpins]
    exact hmaster.clock
  · obtain ⟨master, hmaster, hpins⟩ := hplain v hv hinst
    rw [hpins]
    exact hmaster.reset
  · rcases Node.mem_inPins.mp hmem with hmem | hmem | hmem
    · exact hnone v hv hinst _ _ hmem
    · exact hnone v hv hinst _ _ hmem
    · exact hnone v hv hinst _ _ hmem
  · exact absurd (Bindings.label_mem_of_spread hmem) (hnone v hv hinst _ _)

theorem links_iff (hfind : Findable ang findCell)
    (honeWay : ∀ u < g.finished.size, ∀ v ∈ g.finished.sinks u, u ∉ g.finished.sinks v) {v : NodeId}
    (hv : v < g.mapped.size) (hinst : (g.mapped.type v).IsInstance) :
    (∀ u < g.mapped.size, (g.mapped.type u).IsInstance →
      ((g.mapped.verilogFile topModule g.nets).Links findCell (g.mapped.name u) (g.mapped.name v) ↔
        v ∈ g.finished.sinks u)) ∧
    ∀ p < g.mapped.size, g.mapped.type p = .primaryIn →
      ((g.mapped.verilogFile topModule g.nets).Feeds findCell (g.mapped.name p) (g.mapped.name v) ↔
        v ∈ g.finished.sinks p) := by
  obtain ⟨mid, hmid, hchosen, hmapped, hnets⟩ := g.chosen
  obtain ⟨b, hcontrols⟩ := chooseCells_controls hmid
  have hsinks : mid.sinks = g.finished.sinks :=
    congrArg Adjacency.sinks (hcontrols.graph g.ready.legal.sound.fresh)
  have hsep := separable hfind honeWay hsinks hchosen hmapped
  have hi := (hmapped.instance_iff hchosen).mp ⟨hv, hinst⟩
  obtain ⟨info, hinfo, hmaster, hpins⟩ := pins_of_cell hmapped hi
  have hfeeds : ∀ wire, (g.mapped.verilogFile topModule g.nets).Feeds findCell wire
      (g.mapped.name v) ↔ ∃ t ∈ (mid.node v).pins .signal .input,
        (t, wire) ∈ g.mapped.instancePins g.nets v := by
    intro wire
    unfold VerilogFile.Feeds
    rw [exists_inst hfind hv hinst hinfo hmaster
      fun master pins => ∃ t ∈ master.pins .signal .input, (t, wire) ∈ pins, hpins]
  have hpin : ∀ sig io, "PIN" ∉ (mid.node v).pins sig io := by
    rw [hpins]
    exact (hfind.plain info hinfo).pin
  constructor
  · intro u hu hinst'
    have hi' := (hmapped.instance_iff hchosen).mp ⟨hu, hinst'⟩
    obtain ⟨info', hinfo', hmaster', hpins'⟩ := pins_of_cell hmapped hi'
    have hpin' : ∀ sig io, "PIN" ∉ (mid.node u).pins sig io := by
      rw [hpins']
      exact (hfind.plain info' hinfo').pin
    unfold VerilogFile.Links
    rw [exists_inst hfind hu hinst' hinfo' hmaster' fun master pins =>
      ∃ t ∈ master.pins .signal .output, ∃ wire, (t, wire) ∈ pins ∧
        (g.mapped.verilogFile topModule g.nets).Feeds findCell wire (g.mapped.name v)]
    simp only [hfeeds, ← hpins']
    rw [hnets, ← hsinks]
    exact hi'.linked_iff hi hsep hpin' hpin g.order
  · intro p hp htype
    have hpmid : p < mid.size := hmapped.size ▸ hp
    rw [hfeeds, hnets, ← hsinks]
    exact hi.fed_iff hsep hpin hpmid ((hmapped.same hchosen hpmid).1 ▸ htype) g.order

/-- What is written at the end of a run tells the reader who has the cells which
instances and which inputs drive an instance, if no two nodes drive each other
and the cells have no two clock or reset pins. -/
theorem verilog_links (addr : NodeId ↪ ℕ) (start ang : ArtNetGen) (spec : List SpecLine)
    (names : List String) (topModule : String) (hinit : start.init spec = some ang)
    (hfresh : start.masters = [])
    (hlibs : ∀ master ∈ start.libs.flatten, LegibleCell master)
    (htop : isIdentifier topModule = true)
    (hplain : ∀ info ∈ (names.foldl ArtNetGen.setDontUse ang).masters, PlainCell info.master)
    (g : Generation addr (names.foldl ArtNetGen.setDontUse ang))
    (honeWay : ∀ u < g.finished.size, ∀ v ∈ g.finished.sinks u, u ∉ g.finished.sinks v) :
    ∃ text file, g.mapped.verilogText topModule g.nets = some text ∧
      readVerilog text = some file ∧
      ∀ v < g.mapped.size, (g.mapped.type v).IsInstance →
        (∀ u < g.mapped.size, (g.mapped.type u).IsInstance →
          (file.Links start.findMaster (g.mapped.name u) (g.mapped.name v) ↔
            v ∈ g.finished.sinks u)) ∧
        ∀ p < g.mapped.size, g.mapped.type p = .primaryIn →
          (file.Feeds start.findMaster (g.mapped.name p) (g.mapped.name v) ↔
            v ∈ g.finished.sinks p) := by
  have hfound := ArtNetGen.offered_found hinit hfresh names
  have hlegible := ArtNetGen.offered_legible hinit hlibs (by simp [hfresh]) names
  have hpos := ArtNetGen.offered_inputs hinit names
  refine ⟨_, g.mapped.verilogFile topModule g.nets, verilogText_eq (g.written hpos) topModule,
    readVerilog_file (g.legible hlegible hpos htop), fun v hv hinst => ?_⟩
  exact links_iff ⟨hfound, hplain⟩ honeWay hv hinst

end Generation

theorem Generation.verilog_links_sparing :
    ∃ text file, sparing.mapped.verilogText "artnet" sparing.nets = some text ∧
      readVerilog text = some file ∧
      ∀ v < sparing.mapped.size, (sparing.mapped.type v).IsInstance →
        (∀ u < sparing.mapped.size, (sparing.mapped.type u).IsInstance →
          (file.Links (ArtNetGen.findMaster { libs := [[bufferCell, dff, dffsr]] })
            (sparing.mapped.name u) (sparing.mapped.name v) ↔ v ∈ sparing.finished.sinks u)) ∧
        ∀ p < sparing.mapped.size, sparing.mapped.type p = .primaryIn →
          (file.Feeds (ArtNetGen.findMaster { libs := [[bufferCell, dff, dffsr]] })
            (sparing.mapped.name p) (sparing.mapped.name v) ↔ v ∈ sparing.finished.sinks p) := by
  have hplain : ∀ info ∈ sparingAng.masters, (info.master.pins .clock .input).length ≤ 1 ∧
      (info.master.pins .reset .input).length ≤ 1 ∧
        ∀ term ∈ info.master.mTerms, term.name ≠ "PIN" := by
    decide +kernel
  exact Generation.verilog_links (.refl ℕ) { libs := [[bufferCell, dff, dffsr]] } offeringAng
    chainSpec ["DFFSR"] "artnet" (Option.some_get _).symm rfl (by decide +kernel)
    (by decide +kernel) (fun info hinfo =>
      ⟨(hplain info hinfo).1, (hplain info hinfo).2.1, (hplain info hinfo).2.2⟩) sparing
    (by decide +kernel)

end Artnetgen
