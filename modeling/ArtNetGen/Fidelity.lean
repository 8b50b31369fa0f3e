import ArtNetGen.Verilog

/-!
Which terminals end up on which nets. Bindings are keyed by the neighbour, so a
terminal is lost when a neighbour plays two parts or a cell has two clock or two
reset pins.
-/

namespace Artnetgen

open Bindings

namespace Node

/-- The input terminals that `mappingTerms` binds. -/
def inPins (n : Node) : List String :=
  n.pins .signal .input ++ n.pins .clock .input ++ n.pins .reset .input

theorem mem_inPins {n : Node} {pin : String} :
    pin ∈ n.inPins ↔
      pin ∈ n.pins .signal .input ∨ pin ∈ n.pins .clock .input ∨ pin ∈ n.pins .reset .input := by
  simp [inPins]

theorem pins_of_instance {n : Node} (h : n.type.IsInstance) {sig : DbSigType} {io : DbIoType}
    {pin : String} (hpin : pin ∈ n.pins sig io) :
    ∃ master, n.master = some master ∧ ∀ sig io, n.pins sig io = master.pins sig io := by
  cases hmaster : n.master with
  | none => rcases h with h | h <;> simp [pins, h, hmaster] at hpin
  | some master =>
      refine ⟨master, rfl, fun sig io => ?_⟩
      rcases h with h | h <;> simp [pins, h, hmaster]

theorem kind_unique {n : Node} (h : n.type.IsInstance) {sig sig' : DbSigType} {io io' : DbIoType}
    {pin : String} (hpin : pin ∈ n.pins sig io) (hpin' : pin ∈ n.pins sig' io') :
    sig = sig' ∧ io = io' := by
  obtain ⟨master, -, hpins⟩ := n.pins_of_instance h hpin
  rw [hpins] at hpin hpin'
  exact master.kind_unique hpin hpin'

theorem pins_nodup {n : Node} (h : n.type.IsInstance) (sig : DbSigType) (io : DbIoType) :
    (n.pins sig io).Nodup := by
  cases hpins : n.pins sig io with
  | nil => exact List.nodup_nil
  | cons pin rest =>
      obtain ⟨master, -, hmaster⟩ := n.pins_of_instance h (hpins ▸ List.mem_cons_self)
      rw [← hpins, hmaster]
      exact master.pins_nodup sig io

end Node

namespace Netlist

/-! ## Fidelity -/

def numNets (nets : List Net) (pin : NodeId × String) : ℕ :=
  nets.countP fun net => decide (pin ∈ net.terms)

/-- The terminal occurs in one net, which has the property. -/
def OnlyOn (nets : List Net) (pin : NodeId × String) (P : Net → Prop) : Prop :=
  numNets nets pin = 1 ∧ ∃ net ∈ nets, pin ∈ net.terms ∧ P net

/-- The terminals of the instances are on the nets that they are meant for. -/
structure Faithful (nl : Netlist) (nets : List Net) : Prop where
  edge : ∀ u < nl.size, ∀ v ∈ nl.sinks u, (nl.type u).IsInstance → (nl.type v).IsInstance →
    nl.getTerm u v ∈ (nl.node u).pins .signal .output ∧
      nl.getTerm v u ∈ (nl.node v).pins .signal .input
  distinct : ∀ v < nl.size, (nl.type v).IsInstance → ∀ u ∈ nl.sources v, ∀ u' ∈ nl.sources v,
    (nl.type u).isControl = false → (nl.type u').isControl = false → u ≠ u' →
      nl.getTerm v u ≠ nl.getTerm v u'
  signal : ∀ v < nl.size, (nl.type v).IsInstance → ∀ pin ∈ (nl.node v).pins .signal .input,
    ∃ u, (u, pin) ∈ nl.inputs v ∧
      OnlyOn nets (v, pin) fun net => net.terms.head? = some (nl.pinOf u (nl.getTerm u v))
  clock : ∀ v < nl.size, (nl.type v).IsInstance → ∀ pin ∈ (nl.node v).pins .clock .input,
    OnlyOn nets (v, pin) fun net => net.name = "clk"
  reset : ∀ v < nl.size, (nl.type v).IsInstance → ∀ pin ∈ (nl.node v).pins .reset .input,
    OnlyOn nets (v, pin) fun net => net.name = "rst"
  output : ∀ v < nl.size, (nl.type v).IsInstance → ∀ sig, ∀ pin ∈ (nl.node v).pins sig .output,
    numNets nets (v, pin) ≤ 1

/-- Nothing that is bound to an instance gets in the way of something else. -/
structure Separable (nl : Netlist) : Prop where
  oneWay : ∀ u < nl.size, ∀ v ∈ nl.sinks u, (nl.type u).IsInstance → (nl.type v).IsInstance →
    u ∉ nl.sinks v
  clock : ∀ v < nl.size, (nl.type v).IsInstance → ((nl.node v).pins .clock .input).length ≤ 1
  reset : ∀ v < nl.size, (nl.type v).IsInstance → ((nl.node v).pins .reset .input).length ≤ 1
  named : ∀ v < nl.size, (nl.type v).IsInstance → "PIN" ∉ (nl.node v).inPins
  taken : ∀ v < nl.size, (nl.type v).IsInstance → ∀ w, (w, "PIN") ∈ nl.shares v →
    nl.name v ∉ (nl.node v).inPins ∧ ∀ w', (w', nl.name v) ∉ nl.shares v

variable {nl nl' : Netlist} {nets : List Net} {clkIn u v w p : NodeId} {o : MapOrder}
  {d d' : NodeId × String} {n : String}

/-! ## Counting nets -/

/-- The net of the driver has the terminal. -/
def Records (nl : Netlist) (d pin : NodeId × String) : Prop :=
  pin ∈ nl.pinOf d.1 d.2 :: nl.sinkPins d

instance (nl : Netlist) (d pin : NodeId × String) : Decidable (nl.Records d pin) :=
  inferInstanceAs (Decidable (_ ∈ _))

theorem numNets_makeNets (ha : nl.NamesApart) (o : MapOrder) (pin : NodeId × String) :
    numNets (nl.makeNets o) pin = (nl.drivers o).countP fun d => decide (nl.Records d pin) := by
  obtain ⟨nets, heq, hnets⟩ := makeNets_spec ha o
  unfold numNets
  rw [heq, (o.name2net.property nets).countP_eq]
  refine (Pairs.countP_eq hnets fun d net hnet => decide_eq_decide.mpr ?_).symm
  rw [hnet.terms]
  exact Iff.rfl

theorem numNets_le_one_iff (ha : nl.NamesApart) {pin : NodeId × String} :
    numNets (nl.makeNets o) pin ≤ 1 ↔ ∀ d d', nl.IsDriver d → nl.IsDriver d' →
      nl.Records d pin → nl.Records d' pin → d = d' := by
  rw [numNets_makeNets ha, Counts.countP_le_one_iff (nl.drivers_nodup o)]
  simp only [mem_drivers, decide_eq_true_eq]
  exact ⟨fun h d d' hd hd' => h d hd d' hd', fun h d hd d' hd' => h d d' hd hd'⟩

theorem onlyOn_of_driver (ha : nl.NamesApart) {pin : NodeId × String} {P : Net → Prop}
    (hd : nl.IsDriver d) (hrecords : nl.Records d pin)
    (hunique : ∀ d', nl.IsDriver d' → nl.Records d' pin → d' = d)
    (hP : ∀ net, nl.IsNet d net → P net) : OnlyOn (nl.makeNets o) pin P := by
  refine ⟨?_, ?_⟩
  · rw [numNets_makeNets ha, Counts.countP_eq_one_iff (nl.drivers_nodup o)]
    refine ⟨d, mem_drivers.mpr hd, decide_eq_true hrecords, fun d' hd' h => ?_⟩
    exact hunique d' (mem_drivers.mp hd') (of_decide_eq_true h)
  · obtain ⟨net, hmem, hnet⟩ := exists_net ha hd o
    exact ⟨net, hmem, hnet.terms ▸ hrecords, hP net hnet⟩

theorem OnlyOn.driver {pin : NodeId × String} {P : Net → Prop}
    (h : OnlyOn (nl.makeNets o) pin P) (ha : nl.NamesApart) :
    ∃ d net, nl.IsDriver d ∧ nl.IsNet d net ∧ P net ∧ nl.Records d pin ∧
      ∀ d', nl.IsDriver d' → nl.Records d' pin → d' = d := by
  obtain ⟨hone, net, hmem, hpin, hP⟩ := h
  obtain ⟨d, hd, hnet⟩ := mem_makeNets ha hmem
  rw [hnet.terms] at hpin
  have hrecords : nl.Records d pin := hpin
  exact ⟨d, net, hd, hnet, hP, hrecords, fun d' hd' h' =>
    (numNets_le_one_iff ha).mp (Nat.le_of_eq hone) d' d hd' hd h' hrecords⟩

/-! ## What is recorded of an instance -/

theorem Chosen.lt_of_instance (hc : nl.Chosen clkIn) (hv : v < nl.size)
    (hinst : (nl.type v).IsInstance) : v < clkIn := by
  rcases hc.prepared.node_cases hv with hv | rfl | rfl
  · exact hv
  · rw [hc.clk.1] at hinst
    rcases hinst with hinst | hinst <;> cases hinst
  · rw [hc.rst.1] at hinst
    rcases hinst with hinst | hinst <;> cases hinst

theorem Mapped.records_iff (h : Mapped clkIn nl nl') (hc : nl.Chosen clkIn) (hv : v < clkIn)
    (hd : nl'.IsDriver d) :
    nl'.Records d (v, n) ↔ (d.1 = v ∧ nl'.pinOf v d.2 = (v, n)) ∨
      (d.1 ∈ nl'.sources v ∧ d.2 = nl'.getTerm d.1 v ∧
        nl'.pinOf v (nl'.getTerm v d.1) = (v, n)) := by
  unfold Records
  rw [List.mem_cons, mem_sinkPins]
  refine or_congr ⟨fun heq => ?_, fun heq => ?_⟩ ⟨?_, ?_⟩
  · have hsame : v = d.1 := congrArg Prod.fst heq
    rw [← hsame] at heq
    exact ⟨hsame.symm, heq.symm⟩
  · rw [heq.1]
    exact heq.2.symm
  · rintro ⟨w, hw, hterm, heq⟩
    have hsame : v = w := congrArg Prod.fst heq
    rw [← hsame] at hw hterm heq
    exact ⟨(h.sink_iff_source hc (h.size ▸ hd.1) hv).mp hw, hterm.symm, heq.symm⟩
  · rintro ⟨hsource, hterm, heq⟩
    exact ⟨v, (h.sink_iff_source hc (h.size ▸ hd.1) hv).mpr hsource, hterm.symm,
      heq.symm⟩

/-- The sinks of a node that are also sources of it are instances. -/
theorem Chosen.instance_of_both (hc : nl.Chosen clkIn) (hw : w ∈ nl.sources v)
    (hw' : w ∈ nl.sinks v) : (nl.type w).IsInstance := by
  have hlt : w < clkIn := (hc.lt v w hw').2
  have hcontrol := hc.noControl w hlt
  cases ht : nl.type w with
  | primaryIn =>
      have hnone : nl.sources w = [] := hc.ported.input w ht
      have hmem := hc.prepared.mem_iff.mp hw'
      rw [hnone] at hmem
      cases hmem
  | primaryOut =>
      have hnone : nl.sinks w = [] := (hc.ported.output w ht).1
      have hmem := hc.prepared.mem_iff.mpr hw
      rw [hnone] at hmem
      cases hmem
  | clockIn | resetIn =>
      rw [ht] at hcontrol
      cases hcontrol
  | combinational => exact Or.inl rfl
  | sequential => exact Or.inr rfl

theorem Mapped.mem_shares_iff (h : Mapped clkIn nl nl') (hc : nl.Chosen clkIn) (hv : v < clkIn)
    {t : String} : (w, t) ∈ nl.shares v ↔ w ∈ nl'.sinks v ∧ nl'.getTerm v w = t := by
  have hkeys := map_fst_shares (h.node v hv).1
  rw [h.sinks hv]
  constructor
  · intro hmem
    have hw : w ∈ nl.sinks v := hkeys ▸ List.mem_map_of_mem (f := Prod.fst) hmem
    refine ⟨hw, ?_⟩
    have hnodup : ((nl.shares v).map Prod.fst).Nodup := hkeys.symm ▸ hc.simple_sinks v
    exact congrArg Prod.snd (List.inj_on_of_nodup_map hnodup (h.getTerm_sink hc hw) hmem rfl)
  · rintro ⟨hw, rfl⟩
    exact h.getTerm_sink hc hw

/-- What a source is bound to. -/
theorem Mapped.source_cases (h : Mapped clkIn nl nl') (hc : nl.Chosen clkIn) (hv : v < clkIn)
    (hw : w ∈ nl'.sources v) :
    (w ∈ nl.sources v ∧ (w ∉ nl.sinks v → (w, nl'.getTerm v w) ∈ nl.inputs v)) ∨
      (w = clkIn ∧ ((nl.node v).pins .clock .input).getLast? = some (nl'.getTerm v w)) ∨
      (w = clkIn + 1 ∧ ((nl.node v).pins .reset .input).getLast? = some (nl'.getTerm v w)) := by
  rcases (h.mem_sources hv).mp hw with hold | ⟨rfl, hpins⟩ | ⟨rfl, hpins⟩
  · exact Or.inl ⟨hold, h.getTerm_source hc hold⟩
  · exact Or.inr (Or.inl ⟨rfl, h.getTerm_clk hv hpins⟩)
  · exact Or.inr (Or.inr ⟨rfl, h.getTerm_rst hv hpins⟩)

theorem Mapped.clk_port (h : Mapped clkIn nl nl') (hc : nl.Chosen clkIn) :
    nl'.type clkIn = .clockIn ∧ nl'.name clkIn = "clk" := by
  obtain ⟨htype, hname, -⟩ := h.same hc hc.prepared.clk_lt
  exact ⟨htype.trans hc.clk.1, hname.trans hc.clk.2⟩

theorem Mapped.rst_port (h : Mapped clkIn nl nl') (hc : nl.Chosen clkIn) :
    nl'.type (clkIn + 1) = .resetIn ∧ nl'.name (clkIn + 1) = "rst" := by
  obtain ⟨htype, hname, -⟩ := h.same hc hc.prepared.rst_lt
  exact ⟨htype.trans hc.rst.1, hname.trans hc.rst.2⟩

theorem map_snd_inputs (h : (nl.node v).Mappable) :
    (nl.inputs v).map Prod.snd = (nl.node v).pins .signal .input := List.map_snd_zip h.inputs.le

/-- An instance of the mapped netlist. -/
structure MappedInstance (clkIn : NodeId) (nl nl' : Netlist) (v : NodeId) : Prop where
  mapped : Mapped clkIn nl nl'
  chosen : nl.Chosen clkIn
  lt : v < nl.size
  inst : (nl.type v).IsInstance

namespace MappedInstance

theorem lt_clk (h : MappedInstance clkIn nl nl' v) : v < clkIn := h.chosen.lt_of_instance h.lt h.inst

theorem mappable (h : MappedInstance clkIn nl nl' v) : (nl.node v).Mappable :=
  (h.mapped.node v h.lt_clk).1

/-- A source is bound to the terminal it is meant for, or is the one control of
its kind. -/
theorem source_cases (h : MappedInstance clkIn nl nl' v) (hsep : nl.Separable)
    (hw : w ∈ nl'.sources v) :
    (w ∈ nl.sources v ∧ (w, nl'.getTerm v w) ∈ nl.inputs v) ∨
      (w = clkIn ∧ (nl.node v).pins .clock .input = [nl'.getTerm v w]) ∨
      (w = clkIn + 1 ∧ (nl.node v).pins .reset .input = [nl'.getTerm v w]) := by
  rcases h.mapped.source_cases h.chosen h.lt_clk hw with ⟨hold, hmem⟩ | ⟨rfl, hlast⟩ | ⟨rfl, hlast⟩
  · refine Or.inl ⟨hold, hmem fun hboth => ?_⟩
    have hwlt := h.chosen.prepared.lt_size (h.chosen.lt v w hboth).2
    exact hsep.oneWay v h.lt w hboth h.inst (h.chosen.instance_of_both hold hboth)
      (h.chosen.prepared.mem_iff.mpr hold)
  · exact Or.inr (Or.inl ⟨rfl, Counts.eq_singleton (hsep.clock v h.lt h.inst) hlast⟩)
  · exact Or.inr (Or.inr ⟨rfl, Counts.eq_singleton (hsep.reset v h.lt h.inst) hlast⟩)

theorem mem_inPins (h : MappedInstance clkIn nl nl' v) (hsep : nl.Separable)
    (hw : w ∈ nl'.sources v) : nl'.getTerm v w ∈ (nl.node v).inPins := by
  rw [Node.mem_inPins]
  rcases h.source_cases hsep hw with ⟨-, hmem⟩ | ⟨-, hpins⟩ | ⟨-, hpins⟩
  · exact Or.inl (List.of_mem_zip hmem).2
  · exact Or.inr (Or.inl (hpins ▸ List.mem_cons_self))
  · exact Or.inr (Or.inr (hpins ▸ List.mem_cons_self))

theorem pinOf_source (h : MappedInstance clkIn nl nl' v) (hsep : nl.Separable)
    (hw : w ∈ nl'.sources v) : nl'.pinOf v (nl'.getTerm v w) = (v, nl'.getTerm v w) := by
  unfold pinOf
  rw [if_neg]
  intro hpin
  exact hsep.named v h.lt h.inst (hpin ▸ h.mem_inPins hsep hw)

/-- No two sources are bound to one terminal. -/
theorem source_injective (h : MappedInstance clkIn nl nl' v) (hsep : nl.Separable)
    (hw : w ∈ nl'.sources v) (hp : p ∈ nl'.sources v)
    (heq : nl'.getTerm v w = nl'.getTerm v p) : w = p := by
  have hkind : ∀ {u : NodeId}, u ∈ nl'.sources v → ∃ sig,
      nl'.getTerm v u ∈ (nl.node v).pins sig .input ∧
        ((sig = .signal ∧ (u, nl'.getTerm v u) ∈ nl.inputs v) ∨ (sig = .clock ∧ u = clkIn) ∨
          (sig = .reset ∧ u = clkIn + 1)) := by
    intro u hu
    rcases h.source_cases hsep hu with ⟨-, hmem⟩ | ⟨hctrl, hpins⟩ | ⟨hctrl, hpins⟩
    · exact ⟨.signal, (List.of_mem_zip hmem).2, Or.inl ⟨rfl, hmem⟩⟩
    · exact ⟨.clock, hpins ▸ List.mem_cons_self, Or.inr (Or.inl ⟨rfl, hctrl⟩)⟩
    · exact ⟨.reset, hpins ▸ List.mem_cons_self, Or.inr (Or.inr ⟨rfl, hctrl⟩)⟩
  obtain ⟨sig, hpin, hcase⟩ := hkind hw
  obtain ⟨sig', hpin', hcase'⟩ := hkind hp
  rw [← heq] at hpin' hcase'
  obtain ⟨rfl, -⟩ := Node.kind_unique h.inst hpin hpin'
  rcases hcase with ⟨rfl, hmem⟩ | ⟨rfl, rfl⟩ | ⟨rfl, rfl⟩
  · have hmem' : (p, nl'.getTerm v w) ∈ nl.inputs v := by simpa using hcase'
    have hnodup : ((nl.inputs v).map Prod.snd).Nodup :=
      (map_snd_inputs h.mappable).symm ▸ Node.pins_nodup h.inst .signal .input
    exact congrArg Prod.fst (List.inj_on_of_nodup_map hnodup hmem hmem' rfl)
  · have hp : p = w := by simpa using hcase'
    exact hp.symm
  · have hp : p = clkIn + 1 := by simpa using hcase'
    exact hp.symm

theorem mem_outPins (h : MappedInstance clkIn nl nl' v) (hw : w ∈ nl'.sinks v) :
    nl'.getTerm v w ∈ (nl.node v).pins .signal .output :=
  label_mem_of_spread ((h.mapped.mem_shares_iff h.chosen h.lt_clk).mpr ⟨hw, rfl⟩)

theorem mem_shares (h : MappedInstance clkIn nl nl' v) (hd : nl'.IsDriver d) (hv : d.1 = v) :
    ∃ w, (w, d.2) ∈ nl.shares v := by
  obtain ⟨-, w, hw, hterm⟩ := hd
  rw [hv] at hw hterm
  exact ⟨w, (h.mapped.mem_shares_iff h.chosen h.lt_clk).mpr ⟨hw, hterm⟩⟩

/-- A terminal called `PIN` goes by the name of the instance, which no other
terminal in use has. -/
theorem not_taken (h : MappedInstance clkIn nl nl' v) (hsep : nl.Separable) (hd : nl'.IsDriver d)
    (hv : d.1 = v) (hpin : d.2 = "PIN") :
    nl'.name v ∉ (nl.node v).inPins ∧ ∀ w, (w, nl'.name v) ∉ nl.shares v := by
  obtain ⟨w, hw⟩ := h.mem_shares hd hv
  rw [(h.mapped.same h.chosen h.lt).2.1]
  exact hsep.taken v h.lt h.inst w (hpin ▸ hw)

theorem own_own (h : MappedInstance clkIn nl nl' v) (hsep : nl.Separable) (hd : nl'.IsDriver d)
    (hd' : nl'.IsDriver d') (hv : d.1 = v) (hv' : d'.1 = v)
    (heq : nl'.pinOf v d.2 = nl'.pinOf v d'.2) : d.2 = d'.2 := by
  have hlabel := congrArg Prod.snd heq
  dsimp only [pinOf] at hlabel
  by_cases hpin : d.2 = "PIN"
  · by_cases hpin' : d'.2 = "PIN"
    · exact hpin.trans hpin'.symm
    · rw [if_pos hpin, if_neg hpin'] at hlabel
      obtain ⟨w, hw⟩ := h.mem_shares hd' hv'
      exact absurd (hlabel ▸ hw) ((h.not_taken hsep hd hv hpin).2 w)
  · by_cases hpin' : d'.2 = "PIN"
    · rw [if_neg hpin, if_pos hpin'] at hlabel
      obtain ⟨w, hw⟩ := h.mem_shares hd hv
      exact absurd (hlabel ▸ hw) ((h.not_taken hsep hd' hv' hpin').2 w)
    · rwa [if_neg hpin, if_neg hpin'] at hlabel

theorem own_source (h : MappedInstance clkIn nl nl' v) (hsep : nl.Separable) (hd : nl'.IsDriver d)
    (hv : d.1 = v) (hw : w ∈ nl'.sources v) :
    nl'.pinOf v d.2 ≠ nl'.pinOf v (nl'.getTerm v w) := by
  intro heq
  rw [h.pinOf_source hsep hw] at heq
  have hlabel := congrArg Prod.snd heq
  have hin := h.mem_inPins hsep hw
  dsimp only [pinOf] at hlabel
  by_cases hpin : d.2 = "PIN"
  · rw [if_pos hpin] at hlabel
    exact (h.not_taken hsep hd hv hpin).1 (hlabel ▸ hin)
  · rw [if_neg hpin] at hlabel
    obtain ⟨w', hw'⟩ := h.mem_shares hd hv
    have hout := label_mem_of_spread hw'
    rw [hlabel] at hout
    rcases Node.mem_inPins.mp hin with hin | hin | hin
    all_goals exact nomatch (Node.kind_unique h.inst hout hin).2

/-- Whatever is recorded of an instance, one driver does. -/
theorem records_unique (h : MappedInstance clkIn nl nl' v) (hsep : nl.Separable)
    (hd : nl'.IsDriver d) (hd' : nl'.IsDriver d') (hrec : nl'.Records d (v, n))
    (hrec' : nl'.Records d' (v, n)) : d = d' := by
  rw [h.mapped.records_iff h.chosen h.lt_clk hd] at hrec
  rw [h.mapped.records_iff h.chosen h.lt_clk hd'] at hrec'
  rcases hrec with ⟨hv, hpin⟩ | ⟨hsource, hterm, hpin⟩
  · rcases hrec' with ⟨hv', hpin'⟩ | ⟨hsource', -, hpin'⟩
    · exact Prod.ext (hv.trans hv'.symm) (h.own_own hsep hd hd' hv hv' (hpin.trans hpin'.symm))
    · exact absurd (hpin.trans hpin'.symm) (h.own_source hsep hd hv hsource')
  · rcases hrec' with ⟨hv', hpin'⟩ | ⟨hsource', hterm', hpin'⟩
    · exact absurd (hpin'.trans hpin.symm) (h.own_source hsep hd' hv' hsource)
    · have heq := hpin.trans hpin'.symm
      rw [h.pinOf_source hsep hsource, h.pinOf_source hsep hsource'] at heq
      have hsame := h.source_injective hsep hsource hsource' (congrArg Prod.snd heq)
      exact Prod.ext hsame (by rw [hterm, hterm', hsame])

theorem inputs_eq (h : MappedInstance clkIn nl nl' v) : nl'.inputs v = nl.inputs v := by
  have hpins := (h.mapped.same h.chosen h.lt).2.2
  rw [inputs, inputs, hpins, Netlist.sources, (h.mapped.node v h.lt_clk).2]
  simp only [Node.mapped, Node.control, Node.bound, List.append_assoc]
  conv_lhs => rw [← List.append_nil ((nl.node v).pins .signal .input)]
  rw [List.zip_append h.mappable.inputs.symm, List.zip_nil_right, List.append_nil]
  rfl

/-- What a source drives is on its net only. -/
theorem onlyOn_source (h : MappedInstance clkIn nl nl' v) (hsep : nl.Separable)
    (hw : w ∈ nl'.sources v) (o : MapOrder) {P : Net → Prop}
    (hP : ∀ net, nl'.IsNet (w, nl'.getTerm w v) net → P net) :
    OnlyOn (nl'.makeNets o) (v, nl'.getTerm v w) P := by
  have hlt := h.mapped.source_lt h.chosen h.lt_clk hw
  have hd : nl'.IsDriver (w, nl'.getTerm w v) := ⟨h.mapped.size.symm ▸ hlt, v,
    (h.mapped.sink_iff_source h.chosen hlt h.lt_clk).mpr hw, rfl⟩
  have hrecords : nl'.Records (w, nl'.getTerm w v) (v, nl'.getTerm v w) :=
    (h.mapped.records_iff h.chosen h.lt_clk hd).mpr (Or.inr ⟨hw, rfl, h.pinOf_source hsep hw⟩)
  exact onlyOn_of_driver (h.mapped.namesApart h.chosen) hd hrecords
    (fun d' hd' h' => h.records_unique hsep hd' hd h' hrecords) hP

theorem onlyOn_signal (h : MappedInstance clkIn nl nl' v) (hsep : nl.Separable) {pin : String}
    (hpin : pin ∈ (nl.node v).pins .signal .input) (o : MapOrder) :
    ∃ u, (u, pin) ∈ nl'.inputs v ∧ OnlyOn (nl'.makeNets o) (v, pin) fun net =>
      net.terms.head? = some (nl'.pinOf u (nl'.getTerm u v)) := by
  rw [← map_snd_inputs h.mappable, List.mem_map] at hpin
  obtain ⟨⟨u, _⟩, hmem, rfl⟩ := hpin
  have hold : u ∈ nl.sources v := (List.of_mem_zip hmem).1
  have hsource : u ∈ nl'.sources v := (h.mapped.mem_sources h.lt_clk).mpr (Or.inl hold)
  have hult : u < clkIn := (h.chosen.lt u v (h.chosen.prepared.mem_iff.mpr hold)).1
  have hbound : (u, nl'.getTerm v u) ∈ nl.inputs v := by
    rcases h.source_cases hsep hsource with ⟨-, hbound⟩ | ⟨rfl, -⟩ | ⟨rfl, -⟩
    · exact hbound
    · exact absurd hult (lt_irrefl _)
    · exact absurd hult (Nat.not_lt.mpr (Nat.le_succ _))
  have hnodup : ((nl.inputs v).map Prod.fst).Nodup :=
    (map_fst_inputs h.mappable).symm ▸ h.chosen.simple.sources_nodup v
  have heq := List.inj_on_of_nodup_map hnodup hmem hbound rfl
  refine ⟨u, h.inputs_eq ▸ hmem, ?_⟩
  rw [heq]
  exact h.onlyOn_source hsep hsource o fun net hnet => by rw [hnet.terms, List.head?_cons]

/-- The one pin of a kind that a control drives is on the net called after it. -/
theorem onlyOn_control (h : MappedInstance clkIn nl nl' v) (hsep : nl.Separable)
    (hw : w ∈ nl'.sources v) (htype : nl'.type w = .clockIn ∨ nl'.type w = .resetIn)
    {pins : List String} (hpins : pins = [nl'.getTerm v w]) {pin : String} (hpin : pin ∈ pins)
    (o : MapOrder) : OnlyOn (nl'.makeNets o) (v, pin) fun net => net.name = nl'.name w := by
  rw [hpins, List.mem_singleton] at hpin
  rw [hpin]
  have hport : nl'.portOf (w, nl'.getTerm w v) = some w := by
    rcases htype with htype | htype <;> simp [portOf, htype]
  exact h.onlyOn_source hsep hw o fun net hnet => hnet.called w hport

theorem onlyOn_clock (h : MappedInstance clkIn nl nl' v) (hsep : nl.Separable) {pin : String}
    (hpin : pin ∈ (nl.node v).pins .clock .input) (o : MapOrder) :
    OnlyOn (nl'.makeNets o) (v, pin) fun net => net.name = "clk" := by
  have hpins := List.ne_nil_of_mem hpin
  have hsource : clkIn ∈ nl'.sources v :=
    (h.mapped.mem_sources h.lt_clk).mpr (Or.inr (Or.inl ⟨rfl, hpins⟩))
  have hone := Counts.eq_singleton (hsep.clock v h.lt h.inst)
    (h.mapped.getTerm_clk h.lt_clk hpins)
  obtain ⟨htype, hname⟩ := h.mapped.clk_port h.chosen
  rw [← hname]
  exact h.onlyOn_control hsep hsource (Or.inl htype) hone hpin o

theorem onlyOn_reset (h : MappedInstance clkIn nl nl' v) (hsep : nl.Separable) {pin : String}
    (hpin : pin ∈ (nl.node v).pins .reset .input) (o : MapOrder) :
    OnlyOn (nl'.makeNets o) (v, pin) fun net => net.name = "rst" := by
  have hpins := List.ne_nil_of_mem hpin
  have hsource : clkIn + 1 ∈ nl'.sources v :=
    (h.mapped.mem_sources h.lt_clk).mpr (Or.inr (Or.inr ⟨rfl, hpins⟩))
  have hone := Counts.eq_singleton (hsep.reset v h.lt h.inst)
    (h.mapped.getTerm_rst h.lt_clk hpins)
  obtain ⟨htype, hname⟩ := h.mapped.rst_port h.chosen
  rw [← hname]
  exact h.onlyOn_control hsep hsource (Or.inr htype) hone hpin o

end MappedInstance

theorem Mapped.instance_iff (h : Mapped clkIn nl nl') (hc : nl.Chosen clkIn) :
    (v < nl'.size ∧ (nl'.type v).IsInstance) ↔ MappedInstance clkIn nl nl' v := by
  constructor
  · rintro ⟨hlt, hinst⟩
    have hlt' : v < nl.size := h.size ▸ hlt
    exact ⟨h, hc, hlt', (h.same hc hlt').1 ▸ hinst⟩
  · intro hi
    exact ⟨h.size.symm ▸ hi.lt, (h.same hc hi.lt).1.symm ▸ hi.inst⟩

theorem Mapped.faithful_of_separable (h : Mapped clkIn nl nl') (hc : nl.Chosen clkIn)
    (hsep : nl.Separable) (o : MapOrder) : nl'.Faithful (nl'.makeNets o) := by
  have hinst : ∀ v, v < nl'.size → (nl'.type v).IsInstance →
      MappedInstance clkIn nl nl' v ∧ (nl'.node v).pins = (nl.node v).pins := by
    intro v hv hinst
    have hi := (h.instance_iff hc).mp ⟨hv, hinst⟩
    exact ⟨hi, (h.same hc hi.lt).2.2⟩
  refine ⟨fun u hu v hv hu' hv' => ?_, fun v hv hv' u hu u' hu' _ _ hne heq => ?_,
    fun v hv hv' pin hpin => ?_, fun v hv hv' pin hpin => ?_, fun v hv hv' pin hpin => ?_,
    fun v hv hv' sig pin _ => ?_⟩
  · obtain ⟨hi, hpins⟩ := hinst u hu hu'
    have hvlt := hc.prepared.lt_size (h.sinks_of_out hc hi.lt hv).1
    obtain ⟨hi', hpins'⟩ := hinst v (h.size.symm ▸ hvlt) hv'
    have hsource := (h.sink_iff_source hc hi.lt hi'.lt_clk).mp hv
    rw [hpins, hpins']
    refine ⟨hi.mem_outPins hv, ?_⟩
    rcases hi'.source_cases hsep hsource with ⟨-, hmem⟩ | ⟨rfl, -⟩ | ⟨rfl, -⟩
    · exact (List.of_mem_zip hmem).2
    · exact absurd hi.lt_clk (lt_irrefl _)
    · exact absurd hi.lt_clk (Nat.not_lt.mpr (Nat.le_succ _))
  · exact hne ((hinst v hv hv').1.source_injective hsep hu hu' heq)
  · obtain ⟨hi, hpins⟩ := hinst v hv hv'
    exact hi.onlyOn_signal hsep (hpins ▸ hpin) o
  · obtain ⟨hi, hpins⟩ := hinst v hv hv'
    exact hi.onlyOn_clock hsep (hpins ▸ hpin) o
  · obtain ⟨hi, hpins⟩ := hinst v hv hv'
    exact hi.onlyOn_reset hsep (hpins ▸ hpin) o
  · rw [numNets_le_one_iff (h.namesApart hc)]
    exact fun d d' hd hd' hrec hrec' =>
      (hinst v hv hv').1.records_unique hsep hd hd' hrec hrec'

/-! ## The other way round -/

/-- The net that is called after a control is the one of the control. -/
theorem Mapped.driver_of_control (h : Mapped clkIn nl nl') (hc : nl.Chosen clkIn) (hw : w < nl.size)
    (htype : nl'.type w = .clockIn ∨ nl'.type w = .resetIn) {net : Net} (hd : nl'.IsDriver d)
    (hnet : nl'.IsNet d net) (hname : net.name = nl'.name w) : d.1 = w := by
  have hport := h.portOf_of_name hc hd hnet hw
    (by rcases htype with htype | htype <;> simp [htype, initial]) hname
  rcases portOf_cases hport with ⟨-, heq⟩ | ⟨hout, -⟩
  · exact heq.symm
  · rcases htype with htype | htype <;> cases htype.symm.trans hout

namespace MappedInstance

/-- The net that has an input terminal is driven by something else. -/
theorem driver_of_inPin (h : MappedInstance clkIn nl nl' v) (hf : nl'.Faithful (nl'.makeNets o))
    {pin : String} (hpin : pin ∈ (nl.node v).inPins) :
    ∃ d, nl'.IsDriver d ∧ d.1 ≠ v ∧ nl'.Records d (v, pin) ∧
      ∀ d', nl'.IsDriver d' → nl'.Records d' (v, pin) → d' = d := by
  obtain ⟨hv, hinst⟩ := (h.mapped.instance_iff h.chosen).mpr h
  have hpins := (h.mapped.same h.chosen h.lt).2.2
  have hapart := h.mapped.namesApart h.chosen
  have hlt := h.lt_clk
  rcases Node.mem_inPins.mp hpin with hpin | hpin | hpin
  · obtain ⟨u, hu, honly⟩ := hf.signal v hv hinst pin (hpins ▸ hpin)
    obtain ⟨d, net, hd, hnet, hhead, hrec, hunique⟩ := honly.driver hapart
    rw [hnet.terms, List.head?_cons, Option.some.injEq] at hhead
    have hsame : d.1 = u := congrArg Prod.fst hhead
    rw [h.inputs_eq] at hu
    have hsource : u ∈ nl'.sources v :=
      (h.mapped.mem_sources hlt).mpr (Or.inl (List.of_mem_zip hu).1)
    exact ⟨d, hd, hsame ▸ h.mapped.source_ne h.chosen hlt hsource, hrec, hunique⟩
  · obtain ⟨d, net, hd, hnet, hname, hrec, hunique⟩ :=
      (hf.clock v hv hinst pin (hpins ▸ hpin)).driver hapart
    obtain ⟨htype, hclk⟩ := h.mapped.clk_port h.chosen
    have hsame := h.mapped.driver_of_control h.chosen h.chosen.prepared.clk_lt (Or.inl htype) hd hnet
      (hname.trans hclk.symm)
    exact ⟨d, hd, hsame ▸ hlt.ne', hrec, hunique⟩
  · obtain ⟨d, net, hd, hnet, hname, hrec, hunique⟩ :=
      (hf.reset v hv hinst pin (hpins ▸ hpin)).driver hapart
    obtain ⟨htype, hrst⟩ := h.mapped.rst_port h.chosen
    have hsame := h.mapped.driver_of_control h.chosen h.chosen.prepared.rst_lt (Or.inr htype) hd hnet
      (hname.trans hrst.symm)
    exact ⟨d, hd, hsame ▸ (hlt.trans (Nat.lt_succ_self _)).ne', hrec, hunique⟩

/-- Terminals on the net of a control are recorded as the one that it is bound
to. -/
theorem pin_of_control (h : MappedInstance clkIn nl nl' v) (hw : clkIn ≤ w) (hlt : w < nl.size)
    (htype : nl'.type w = .clockIn ∨ nl'.type w = .resetIn) {name pin : String}
    (hname : nl'.name w = name)
    (honly : OnlyOn (nl'.makeNets o) (v, pin) fun net => net.name = name) :
    nl'.pinOf v (nl'.getTerm v w) = (v, pin) := by
  obtain ⟨d, net, hd, hnet, heq, hrec, -⟩ := honly.driver (h.mapped.namesApart h.chosen)
  have hsame := h.mapped.driver_of_control h.chosen hlt htype hd hnet (heq.trans hname.symm)
  rw [h.mapped.records_iff h.chosen h.lt_clk hd, hsame] at hrec
  rcases hrec with ⟨rfl, -⟩ | ⟨-, -, hpin⟩
  · exact absurd h.lt_clk (Nat.not_lt.mpr hw)
  · exact hpin

theorem pinOf_ne_pin (h : MappedInstance clkIn nl nl' v) (t : String) :
    nl'.pinOf v t ≠ (v, "PIN") := by
  intro heq
  have hlabel := congrArg Prod.snd heq
  dsimp only [pinOf] at hlabel
  by_cases hpin : t = "PIN"
  · rw [if_pos hpin] at hlabel
    exact (h.chosen.named.plain v).2 ((h.mapped.same h.chosen h.lt).2.1.symm.trans hlabel)
  · rw [if_neg hpin] at hlabel
    exact hpin hlabel

theorem isDriver_of_shares (h : MappedInstance clkIn nl nl' v) {t : String}
    (hmem : (w, t) ∈ nl.shares v) : nl'.IsDriver (v, t) := by
  obtain ⟨hw, hterm⟩ := (h.mapped.mem_shares_iff h.chosen h.lt_clk).mp hmem
  exact ⟨h.mapped.size.symm ▸ h.lt, w, hw, hterm⟩

end MappedInstance

theorem Mapped.separable_of_faithful (h : Mapped clkIn nl nl') (hc : nl.Chosen clkIn)
    (hf : nl'.Faithful (nl'.makeNets o)) : nl.Separable := by
  have hapart := h.namesApart hc
  obtain ⟨hclkType, hclkName⟩ := h.clk_port hc
  obtain ⟨hrstType, hrstName⟩ := h.rst_port hc
  have hinst : ∀ v, v < nl.size → (nl.type v).IsInstance → MappedInstance clkIn nl nl' v ∧
      v < nl'.size ∧ (nl'.type v).IsInstance ∧ (nl'.node v).pins = (nl.node v).pins := by
    intro v hv hinst
    have hi : MappedInstance clkIn nl nl' v := ⟨h, hc, hv, hinst⟩
    obtain ⟨hv', hinst'⟩ := (h.instance_iff hc).mpr hi
    exact ⟨hi, hv', hinst', (h.same hc hv).2.2⟩
  refine ⟨fun u hu v hv hu' hv' hback => ?_, fun v hv hv' => ?_, fun v hv hv' => ?_,
    fun v hv hv' hpin => ?_, fun v hv hv' w hw => ⟨fun hpin => ?_, fun w' hw' => ?_⟩⟩
  · obtain ⟨hi, hlt, hui, -⟩ := hinst u hu hu'
    obtain ⟨hi', hlt', hvi, hpins⟩ := hinst v (hc.prepared.lt_size (hc.lt u v hv).2) hv'
    have hedge := (hf.edge u hlt v (h.sinks hi.lt_clk ▸ hv) hui hvi).2
    have hout := hi'.mem_outPins (h.sinks hi'.lt_clk ▸ hback)
    rw [hpins] at hedge
    exact nomatch (Node.kind_unique hi'.inst hout hedge).2
  · obtain ⟨hi, hlt, hvi, hpins⟩ := hinst v hv hv'
    apply Adjacency.length_le_one_of_forall_eq (Node.pins_nodup hv' .clock .input)
    intro pin hpin
    exact congrArg Prod.snd (hi.pin_of_control le_rfl hc.prepared.clk_lt (Or.inl hclkType) hclkName
      (hf.clock v hlt hvi pin (hpins ▸ hpin))).symm
  · obtain ⟨hi, hlt, hvi, hpins⟩ := hinst v hv hv'
    apply Adjacency.length_le_one_of_forall_eq (Node.pins_nodup hv' .reset .input)
    intro pin hpin
    exact congrArg Prod.snd (hi.pin_of_control (Nat.le_succ _) hc.prepared.rst_lt (Or.inr hrstType) hrstName
      (hf.reset v hlt hvi pin (hpins ▸ hpin))).symm
  · obtain ⟨hi, -⟩ := hinst v hv hv'
    obtain ⟨d, hd, -, hrec, -⟩ := hi.driver_of_inPin hf hpin
    rcases (h.records_iff hc hi.lt_clk hd).mp hrec with ⟨-, heq⟩ | ⟨-, -, heq⟩
    · exact hi.pinOf_ne_pin _ heq
    · exact hi.pinOf_ne_pin _ heq
  · obtain ⟨hi, -⟩ := hinst v hv hv'
    obtain ⟨d, -, hne, -, hunique⟩ := hi.driver_of_inPin hf hpin
    have hd := hi.isDriver_of_shares hw
    have hrec : nl'.Records (v, "PIN") (v, nl.name v) :=
      (h.records_iff hc hi.lt_clk hd).mpr (Or.inl ⟨rfl, by simp [pinOf, (h.same hc hv).2.1]⟩)
    exact hne (congrArg Prod.fst (hunique _ hd hrec)).symm
  · obtain ⟨hi, hlt, hvi, hpins⟩ := hinst v hv hv'
    have hd := hi.isDriver_of_shares hw
    have hd' := hi.isDriver_of_shares hw'
    have hname : nl.name v ≠ "PIN" := (hc.named.plain v).2
    have hrec : nl'.Records (v, "PIN") (v, nl.name v) :=
      (h.records_iff hc hi.lt_clk hd).mpr (Or.inl ⟨rfl, by simp [pinOf, (h.same hc hv).2.1]⟩)
    have hrec' : nl'.Records (v, nl.name v) (v, nl.name v) :=
      (h.records_iff hc hi.lt_clk hd').mpr (Or.inl ⟨rfl, by simp [pinOf, hname]⟩)
    have hone := hf.output v hlt hvi .signal (nl.name v) (hpins ▸ label_mem_of_spread hw')
    have heq := (numNets_le_one_iff hapart).mp hone _ _ hd hd' hrec hrec'
    exact hname (congrArg Prod.snd heq).symm

end Netlist

/-- Whatever the library and the random outcomes, the terminals of the mapped
netlist are on the nets that they are meant for if and only if the bindings do
not get in the way of each other. -/
theorem Netlist.faithful_iff_separable (addr : NodeId ↪ ℕ) (ang : ArtNetGen) (s : Matching)
    (nl nl' chosen mapped : Netlist) (o : MapOrder) (nets : List Net)
    (hs : Matching.Reachable addr ang s)
    (hmasters : s.netlist.initOnlyUseMasters ang = some nl)
    (hpath : nl.timingPathConstruction_v1 ang nl')
    (hchosen : nl'.chooseCells = some chosen)
    (hmap : nl'.technologyMapping o = some (mapped, nets)) :
    (∀ o' nets', nl'.technologyMapping o' = some (mapped, nets') → mapped.Faithful nets') ↔
      chosen.Separable := by
  obtain ⟨mid, hmid, hc, hmapped, hmake⟩ := hs.mapped hmasters hpath hmap
  obtain rfl := Option.some.inj (hmid.symm.trans hchosen)
  constructor
  · intro hfaithful
    exact hmapped.separable_of_faithful hc (hfaithful o _ (hmake o))
  · intro hsep o' nets' hmap'
    obtain ⟨-, rfl⟩ := Prod.mk.inj (Option.some.inj (hmap'.symm.trans (hmake o')))
    exact hmapped.faithful_of_separable hc hsep o'

/-! A chain of two gates, the second of which lies deep enough to become a
register, and a flip-flop that can be set and reset. -/

def dffsr : DbMaster where
  name := "DFFSR"
  mTerms := [⟨"D", .signal, .input⟩, ⟨"CK", .clock, .input⟩, ⟨"RN", .reset, .input⟩,
    ⟨"SN", .reset, .input⟩, ⟨"Q", .signal, .output⟩]
  nodup := by decide

def chainSpec : List SpecLine :=
  [.fanin 0 1 (1 / 7), .fanin 1 6 (6 / 7), .fanin 2 0 0,
    .fanout 0 1 (1 / 7), .fanout 1 6 (6 / 7), .fanout 2 0 0, .fanout 3 0 0,
    .window 0 3 (1 / 2), .window 1 3 (1 / 2), .window 2 0 0, .window 3 0 0, .window 4 0 0,
    .netbbox 0 3 (1 / 2), .netbbox 1 3 (1 / 2), .netbbox 2 0 0, .netbbox 3 0 0, .netbbox 4 0 0,
    .avgTopoOrder 0, .combRatio 1, .ipadCount 1, .opadCount 1]

def chainAng : ArtNetGen :=
  (ArtNetGen.init { libs := [[bufferCell, dffsr]] } chainSpec).get (by decide +kernel)

def chainStart : Matching := (Matching.enter chainAng).get (by decide +kernel)

def chainTurns : List Turn :=
  [.joining 0 0 0 0 1, .joining 3 0 1 1 3, .joining 0 1 1 3 2, .joining 3 0 2 0 4]

def chainEnd : Matching :=
  (chainTurns.foldlM (Matching.step (.refl ℕ)) chainStart).get (by decide +kernel)

theorem chainEnd_reachable : Matching.Reachable (.refl ℕ) chainAng chainEnd :=
  ⟨chainStart, (Option.some_get _).symm, chainTurns, (Option.some_get _).symm⟩

def chainEquipped : Netlist :=
  (chainEnd.netlist.initOnlyUseMasters chainAng).get (by decide +kernel)

def chainRun : PathRun chainAng chainEquipped :=
  (PathRun.carryOut chainAng chainEquipped 3 5 .inOrder .inOrder).get (by decide +kernel)

def chainCells : Netlist := chainRun.split.netlist.chooseCells.get (by decide +kernel)

def chainMapping : Netlist × List Net :=
  (chainRun.split.netlist.technologyMapping .inOrder).get (by decide +kernel)

theorem chain_unfaithful :
    ArtNetGen.init { libs := [[bufferCell, dffsr]] } chainSpec = some chainAng ∧
      Matching.Reachable (.refl ℕ) chainAng chainEnd ∧ chainEnd.Returned ∧
      chainEnd.netlist.initOnlyUseMasters chainAng = some chainEquipped ∧
      chainEquipped.timingPathConstruction_v1 chainAng chainRun.split.netlist ∧
      chainRun.split.netlist.technologyMapping .inOrder = some chainMapping ∧
      chainMapping.1.type 3 = .sequential ∧
      "RN" ∈ (chainMapping.1.node 3).pins .reset .input ∧
      Netlist.numNets chainMapping.2 (3, "RN") = 0 ∧
      ¬ chainMapping.1.Faithful chainMapping.2 := by
  have htype : chainMapping.1.type 3 = .sequential := by decide +kernel
  have hpin : "RN" ∈ (chainMapping.1.node 3).pins .reset .input := by decide +kernel
  have hnone : Netlist.numNets chainMapping.2 (3, "RN") = 0 := by decide +kernel
  refine ⟨(Option.some_get _).symm, chainEnd_reachable,
    (show chainEnd.tarEdgeCnt ≤ chainEnd.curEdgeCnt by decide +kernel), (Option.some_get _).symm,
    ⟨chainRun, rfl⟩, (Option.some_get _).symm, htype, hpin, hnone, fun hfaithful => ?_⟩
  have hone := (hfaithful.reset 3 (by decide +kernel) (Or.inr htype) "RN" hpin).1
  cases hnone.symm.trans hone

theorem Netlist.faithful_iff_separable_chain :
    ¬ ∀ o' nets', chainRun.split.netlist.technologyMapping o' = some (chainMapping.1, nets') →
        chainMapping.1.Faithful nets' := by
  refine mt (Netlist.faithful_iff_separable (.refl ℕ) chainAng chainEnd chainEquipped
    chainRun.split.netlist chainCells chainMapping.1 .inOrder chainMapping.2 chainEnd_reachable
    (Option.some_get _).symm ⟨chainRun, rfl⟩ (Option.some_get _).symm
    (Option.some_get _).symm).mp fun hsep => ?_
  have hlength := hsep.reset 3 (by decide +kernel) (Or.inr (by decide +kernel))
  have htwo : ((chainCells.node 3).pins .reset .input).length = 2 := by decide +kernel
  rw [htwo] at hlength
  exact absurd hlength (by decide)

end Artnetgen
