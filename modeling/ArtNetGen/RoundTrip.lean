import ArtNetGen.Census
import ArtNetGen.LinkDesign
import ArtNetGen.Summary

/-!
From the generator to the extractor. What is written, read, linked and placed is
the design whose statistics `ArtNetGen::writeSpec` takes.
-/

namespace Artnetgen

namespace Netlist

variable {nl nl' : Netlist} {clkIn u v w : NodeId} {o : MapOrder} {d : NodeId × String}
  {t t' n : String} {sig : DbSigType}

/-! ## Pins of the mapped netlist -/

namespace MappedInstance

/-- Every signal input of an instance is on some wire. -/
theorem exists_wire (h : MappedInstance clkIn nl nl' v) (hsep : nl.Separable)
    (ht : t ∈ (nl.node v).pins .signal .input) (nets : List Net) :
    ∃ n, (t, n) ∈ nl'.instancePins nets v := by
  rw [← map_snd_inputs h.mappable, List.mem_map] at ht
  obtain ⟨⟨u, _⟩, hmem, rfl⟩ := ht
  have hold : u ∈ nl.sources v := (List.of_mem_zip hmem).1
  have hsource : u ∈ nl'.sources v := (h.mapped.mem_sources h.lt_clk).mpr (Or.inl hold)
  have hult : u < clkIn := (h.chosen.lt u v (h.chosen.prepared.mem_iff.mpr hold)).1
  have hbound : (u, nl'.getTerm v u) ∈ nl.inputs v := by
    rcases h.source_cases hsep hsource with ⟨-, hbound⟩ | ⟨rfl, -⟩ | ⟨rfl, -⟩
    · exact hbound
    · exact absurd hult (lt_irrefl _)
    · exact absurd hult (Nat.not_lt.mpr (Nat.le_succ _))
  have hnodup : ((nl.inputs v).map Prod.fst).Nodup :=
    (map_fst_inputs h.mappable).symm ▸ h.chosen.simple.sources_nodup v
  have heq := List.inj_on_of_nodup_map hnodup hmem hbound rfl
  refine ⟨nl'.term2net nets (v, nl'.getTerm v u), mem_instancePins.mpr ⟨⟨u, ?_, ?_⟩, ?_⟩⟩
  · exact List.mem_append_left _ hsource
  · exact (congrArg Prod.snd heq).symm
  · rw [heq]

variable (hsep : nl.Separable)

include hsep

/-- An output terminal is on its own net. -/
theorem records_output (h : MappedInstance clkIn nl nl' u)
    (hpin : ∀ sig io, "PIN" ∉ (nl.node u).pins sig io) (ht : t ∈ (nl.node u).pins sig .output)
    (hd : nl'.IsDriver d) : nl'.Records d (u, t) ↔ d = (u, t) := by
  have hne : t ≠ "PIN" := fun heq => hpin _ _ (heq ▸ ht)
  rw [h.mapped.records_iff h.chosen h.lt_clk hd]
  constructor
  · rintro (⟨hu, heq⟩ | ⟨hsource, -, heq⟩)
    · obtain ⟨-, w, hw, hterm⟩ := hd
      rw [hu] at hw hterm
      have hout := h.mem_outPins hw
      rw [hterm] at hout
      rw [pinOf, if_neg fun hd => hpin _ _ (hd ▸ hout)] at heq
      have hterm' : d.2 = t := congrArg Prod.snd heq
      exact Prod.ext hu hterm'
    · rw [h.pinOf_source hsep hsource] at heq
      have hterm : nl'.getTerm u d.1 = t := congrArg Prod.snd heq
      have hin := h.mem_inPins hsep hsource
      rw [hterm, Node.mem_inPins] at hin
      rcases hin with hin | hin | hin <;> cases (Node.kind_unique h.inst hin ht).2
  · rintro rfl
    refine Or.inl ⟨rfl, ?_⟩
    rw [pinOf, if_neg hne]

/-- An input terminal is on the net of what it is bound to. -/
theorem records_input (h : MappedInstance clkIn nl nl' w)
    (hpin : ∀ sig io, "PIN" ∉ (nl.node w).pins sig io) (ht : t ∈ (nl.node w).pins sig .input)
    (hd : nl'.IsDriver d) : nl'.Records d (w, t) ↔
      d.1 ∈ nl'.sources w ∧ d.2 = nl'.getTerm d.1 w ∧ nl'.getTerm w d.1 = t := by
  rw [h.mapped.records_iff h.chosen h.lt_clk hd]
  constructor
  · rintro (⟨hw, heq⟩ | ⟨hsource, hterm, heq⟩)
    · obtain ⟨-, x, hx, hterm⟩ := hd
      rw [hw] at hx hterm
      have hout := h.mem_outPins hx
      rw [hterm] at hout
      rw [pinOf, if_neg fun hd => hpin _ _ (hd ▸ hout)] at heq
      rw [show d.2 = t from congrArg Prod.snd heq] at hout
      cases (Node.kind_unique h.inst hout ht).2
    · rw [h.pinOf_source hsep hsource] at heq
      exact ⟨hsource, hterm, congrArg Prod.snd heq⟩
  · rintro ⟨hsource, hterm, heq⟩
    refine Or.inr ⟨hsource, hterm, ?_⟩
    rw [h.pinOf_source hsep hsource, heq]

/-- Two terminals share a wire exactly if one driver records both. -/
theorem wired_iff (h : MappedInstance clkIn nl nl' u) (h' : MappedInstance clkIn nl nl' w)
    (hpin : ∀ sig io, "PIN" ∉ (nl.node u).pins sig io)
    (hpin' : ∀ sig io, "PIN" ∉ (nl.node w).pins sig io) (ht : t ≠ "PIN") (ht' : t' ≠ "PIN")
    (o : MapOrder) :
    (∃ n, (t, n) ∈ nl'.instancePins (nl'.makeNets o) u ∧
      (t', n) ∈ nl'.instancePins (nl'.makeNets o) w) ↔
        ∃ d, nl'.IsDriver d ∧ nl'.Records d (u, t) ∧ nl'.Records d (w, t') := by
  have hapart := h.mapped.namesApart h.chosen
  constructor
  · rintro ⟨n, hn, hn'⟩
    obtain ⟨net, hnet, hname, hmem⟩ := h.mapped.net_of_pin h.chosen h.lt_clk ht hn
    obtain ⟨net', hnet', hname', hmem'⟩ := h.mapped.net_of_pin h.chosen h'.lt_clk ht' hn'
    obtain rfl := net_of_name h.mapped h.chosen hnet hnet' (hname.symm.trans hname')
    obtain ⟨d, hd, hisNet⟩ := mem_makeNets hapart hnet
    rw [hisNet.terms] at hmem hmem'
    exact ⟨d, hd, hmem, hmem'⟩
  · rintro ⟨d, hd, hrecords, hrecords'⟩
    obtain ⟨net, hnet, hisNet⟩ := exists_net hapart hd o
    have hown : ∀ x, MappedInstance clkIn nl nl' x →
        (∀ sig io, "PIN" ∉ (nl.node x).pins sig io) → d.1 = x → d.2 ≠ "PIN" := by
      rintro x hx hplain rfl heq
      obtain ⟨-, y, hy, hterm⟩ := hd
      exact hplain _ _ (heq ▸ hterm ▸ hx.mem_outPins hy)
    exact ⟨net.name, h.pin_of_net hsep ht hd hnet hisNet hrecords (hown u h hpin),
      h'.pin_of_net hsep ht' hd hnet hisNet hrecords' (hown w h' hpin')⟩

end MappedInstance

end Netlist

/-- The instances. -/
def Netlist.instances (nl : Netlist) : List NodeId :=
  nl.nodes.filter fun v => decide (nl.type v).IsInstance

theorem DbMaster.mem_pins {master : DbMaster} {term : DbMTerm} (h : term ∈ master.mTerms) :
    term.name ∈ master.pins term.sigType term.ioType :=
  List.mem_map_of_mem (List.mem_filter.mpr ⟨h, decide_eq_true ⟨rfl, rfl⟩⟩)

namespace Generation

open Netlist

variable {addr : NodeId ↪ ℕ} {ang : ArtNetGen} (g : Generation addr ang)

/-! ## The linked design -/

/-- The instance that a node has become, wired as the file says. -/
structure IsNode (names : List String) (v : NodeId) (inst : DbInst) : Prop where
  master : (g.mapped.node v).master = some inst.master
  net : ∀ term n, inst.net term = some n ↔
    ∃ wire, (term.name, wire) ∈ g.mapped.instancePins g.nets v ∧ names[n]? = some wire

/-- A block of the instances, whose nets have the names. -/
structure Linked (nodes : List NodeId) (names : List String) (b : DbBlock) : Prop where
  perm : nodes.Perm g.mapped.instances
  insts : List.Forall₂ (g.IsNode names) nodes b.insts
  named : ∀ v ∈ nodes, ∀ pin ∈ g.mapped.instancePins g.nets v, pin.2 ∈ names
  nodup : names.Nodup

theorem mem_instances_iff {v : NodeId} :
    v ∈ g.mapped.instances ↔ v < g.mapped.size ∧ (g.mapped.type v).IsInstance := by
  simp [Netlist.instances, nodes]

variable {g} {findCell : String → Option DbMaster} {topModule : String}

/-- What is known of a run that is read with plain cells. -/
structure Plain (g : Generation addr ang) (mid : Netlist) : Prop where
  sinks : mid.sinks = g.finished.sinks
  chosen : mid.Chosen g.finished.size
  mapped : Mapped g.finished.size mid g.mapped
  nets : g.nets = g.mapped.makeNets g.order
  separable : mid.Separable
  cell : ∀ v < g.mapped.size, (g.mapped.type v).IsInstance →
    ∃ info ∈ ang.masters, (g.mapped.node v).master = some info.master ∧
      (mid.node v).pins = info.master.pins ∧ PlainCell info.master ∧
        info.isIn (decide (g.mapped.type v = .sequential)) (g.finished.numFanins v) = true

namespace Linked

variable {mid : Netlist} {nodes : List NodeId} {names : List String} {b : DbBlock} {i : ℕ}
  {u v w : NodeId} {t t' : DbITerm}

theorem instance_of (h : g.Linked nodes names b) (hv : nodes[i]? = some v) :
    v < g.mapped.size ∧ (g.mapped.type v).IsInstance :=
  g.mem_instances_iff.mp (h.perm.mem_iff.mp (List.mem_of_getElem? hv))

/-- The instance at a place is that of the node there. -/
theorem inst (h : g.Linked nodes names b) :
    (∀ v, nodes[i]? = some v → ∃ inst, b.insts[i]? = some inst ∧ g.IsNode names v inst) ∧
      ∀ inst, b.insts[i]? = some inst → ∃ v, nodes[i]? = some v ∧ g.IsNode names v inst := by
  have hlength := h.insts.length_eq
  have hget := List.forall₂_iff_get.mp h.insts
  constructor
  · intro v hv
    obtain ⟨hlt, rfl⟩ := List.getElem?_eq_some_iff.mp hv
    exact ⟨_, List.getElem?_eq_getElem (hlength ▸ hlt), hget.2 i hlt (hlength ▸ hlt)⟩
  · intro inst hinst
    obtain ⟨hlt, rfl⟩ := List.getElem?_eq_some_iff.mp hinst
    exact ⟨_, List.getElem?_eq_getElem (hlength ▸ hlt), hget.2 i (hlength ▸ hlt) hlt⟩

/-- A pin of the block is one of the cell of a node. -/
theorem pin (h : g.Linked nodes names b) (ht : t ∈ b.iTerms) :
    ∃ v, nodes[t.inst]? = some v ∧ ∃ master, (g.mapped.node v).master = some master ∧
      t.mTerm ∈ master.mTerms ∧ ∀ n, t.net = some n ↔
        ∃ wire, (t.mTerm.name, wire) ∈ g.mapped.instancePins g.nets v ∧ names[n]? = some wire := by
  obtain ⟨inst, hinst, hterm, hnet⟩ := DbBlock.mem_iTerms.mp ht
  obtain ⟨v, hv, hnode⟩ := h.inst.2 inst hinst
  refine ⟨v, hv, inst.master, hnode.master, hterm, fun n => ?_⟩
  rw [hnet]
  exact hnode.net t.mTerm n

theorem exists_pin (h : g.Linked nodes names b) (hv : nodes[i]? = some v) {master : DbMaster}
    (hmaster : (g.mapped.node v).master = some master) {term : DbMTerm}
    (hterm : term ∈ master.mTerms) : ∃ t ∈ b.iTerms, t.inst = i ∧ t.mTerm = term := by
  obtain ⟨inst, hinst, hnode⟩ := h.inst.1 v hv
  obtain rfl := Option.some.inj (hmaster.symm.trans hnode.master)
  exact ⟨⟨i, term, inst.net term⟩, DbBlock.mem_iTerms.mpr ⟨inst, hinst, hterm, rfl⟩, rfl, rfl⟩

/-- A wire has one number. -/
theorem shares_iff (h : g.Linked nodes names b) (ht : t ∈ b.iTerms) (ht' : t' ∈ b.iTerms)
    (hu : nodes[t.inst]? = some u) (hw : nodes[t'.inst]? = some w) :
    (∃ n, t.net = some n ∧ t'.net = some n) ↔
      ∃ wire, (t.mTerm.name, wire) ∈ g.mapped.instancePins g.nets u ∧
        (t'.mTerm.name, wire) ∈ g.mapped.instancePins g.nets w := by
  obtain ⟨u', hu', _, -, -, hnet⟩ := h.pin ht
  obtain ⟨w', hw', _, -, -, hnet'⟩ := h.pin ht'
  obtain rfl := Option.some.inj (hu.symm.trans hu')
  obtain rfl := Option.some.inj (hw.symm.trans hw')
  constructor
  · rintro ⟨n, hn, hn'⟩
    obtain ⟨wire, hwire, hname⟩ := (hnet n).mp hn
    obtain ⟨wire', hwire', hname'⟩ := (hnet' n).mp hn'
    obtain rfl := Option.some.inj (hname.symm.trans hname')
    exact ⟨wire, hwire, hwire'⟩
  · rintro ⟨wire, hwire, hwire'⟩
    obtain ⟨n, hn⟩ := List.getElem?_of_mem (h.named u (List.mem_of_getElem? hu) _ hwire)
    exact ⟨n, (hnet n).mpr ⟨wire, hwire, hn⟩, (hnet' n).mpr ⟨wire, hwire', hn⟩⟩

/-- The terminal is one of its node and not called `PIN`. -/
theorem kind (h : g.Linked nodes names b) (hp : g.Plain mid) (ht : t ∈ b.iTerms)
    (hv : nodes[t.inst]? = some v) :
    MappedInstance g.finished.size mid g.mapped v ∧
      (∀ sig io, "PIN" ∉ (mid.node v).pins sig io) ∧
      t.mTerm.name ∈ (mid.node v).pins t.mTerm.sigType t.mTerm.ioType := by
  obtain ⟨hlt, hinst⟩ := h.instance_of hv
  obtain ⟨v', hv', master, hmaster, hterm, -⟩ := h.pin ht
  obtain rfl := Option.some.inj (hv.symm.trans hv')
  obtain ⟨info, -, hmaster', hpins, hplain, -⟩ := hp.cell v hlt hinst
  obtain rfl := Option.some.inj (hmaster.symm.trans hmaster')
  refine ⟨(hp.mapped.instance_iff hp.chosen).mp ⟨hlt, hinst⟩, fun sig io => ?_, ?_⟩
  · rw [hpins]
    exact hplain.pin sig io
  · rw [hpins]
    exact DbMaster.mem_pins hterm

/-- An output pin and another pin are on one net exactly if the driver of the
first records the second. -/
theorem driven_iff (h : g.Linked nodes names b) (hp : g.Plain mid) (ht : t ∈ b.iTerms)
    (ht' : t' ∈ b.iTerms) (hu : nodes[t.inst]? = some u) (hw : nodes[t'.inst]? = some w)
    (hout : t.mTerm.ioType = .output) :
    (∃ n, t.net = some n ∧ t'.net = some n) ↔ g.mapped.IsDriver (u, t.mTerm.name) ∧
      g.mapped.Records (u, t.mTerm.name) (w, t'.mTerm.name) := by
  obtain ⟨hi, hpin, hmem⟩ := h.kind hp ht hu
  obtain ⟨hi', hpin', hmem'⟩ := h.kind hp ht' hw
  rw [hout] at hmem
  have hne : t.mTerm.name ≠ "PIN" := fun heq => hpin _ _ (heq ▸ hmem)
  have hne' : t'.mTerm.name ≠ "PIN" := fun heq => hpin' _ _ (heq ▸ hmem')
  rw [h.shares_iff ht ht' hu hw, hp.nets, hi.wired_iff hp.separable hi' hpin hpin' hne hne' g.order]
  constructor
  · rintro ⟨d, hd, hown, hother⟩
    rw [hi.records_output hp.separable hpin hmem hd] at hown
    exact ⟨hown ▸ hd, hown ▸ hother⟩
  · rintro ⟨hd, hother⟩
    exact ⟨_, hd, (hi.records_output hp.separable hpin hmem hd).mpr rfl, hother⟩

theorem oneDriver (h : g.Linked nodes names b) (hp : g.Plain mid) : b.OneDriver := by
  intro t ht hdrives n hn t' ht' hn' hout'
  obtain ⟨u, hu, -⟩ := h.pin ht
  obtain ⟨w, hw, -⟩ := h.pin ht'
  obtain ⟨hd, hrecords⟩ := (h.driven_iff hp ht ht' hu hw hdrives.2).mp ⟨n, hn, hn'⟩
  obtain ⟨hi', hpin', hmem'⟩ := h.kind hp ht' hw
  rw [hout'] at hmem'
  have heq := (hi'.records_output hp.separable hpin' hmem' hd).mp hrecords
  have huw : u = w := congrArg Prod.fst heq
  have hnodup : nodes.Nodup := h.perm.nodup_iff.mpr (List.nodup_range.filter _)
  apply DbBlock.iTerm_ext ht' ht
  · rw [← huw] at hw
    obtain ⟨hlt, -⟩ := List.getElem?_eq_some_iff.mp hw
    exact (List.getElem?_inj hlt hnodup).mp (hw.trans hu.symm)
  · exact (congrArg Prod.snd heq).symm

/-- A signal output and an input pin are on one net exactly if they are bound to
each other along an edge. -/
theorem load_iff (h : g.Linked nodes names b) (hp : g.Plain mid) (ht : t ∈ b.iTerms)
    (ht' : t' ∈ b.iTerms) (hu : nodes[t.inst]? = some u) (hw : nodes[t'.inst]? = some w)
    (hout : t.mTerm.ioType = .output) (hin : t'.mTerm.ioType = .input) :
    (∃ n, t.net = some n ∧ t'.net = some n) ↔ w ∈ g.mapped.sinks u ∧
      g.mapped.getTerm u w = t.mTerm.name ∧ g.mapped.getTerm w u = t'.mTerm.name := by
  obtain ⟨hi', hpin', hmem'⟩ := h.kind hp ht' hw
  obtain ⟨hi, -, -⟩ := h.kind hp ht hu
  rw [hin] at hmem'
  have hsink := hi.mapped.sink_iff_source hi.chosen hi.lt hi'.lt_clk
  rw [h.driven_iff hp ht ht' hu hw hout, hsink]
  constructor
  · rintro ⟨hd, hrecords⟩
    obtain ⟨hsource, hterm, hterm'⟩ :=
      (hi'.records_input hp.separable hpin' hmem' hd).mp hrecords
    exact ⟨hsource, hterm.symm, hterm'⟩
  · rintro ⟨hsource, hterm, hterm'⟩
    have hd : g.mapped.IsDriver (u, t.mTerm.name) :=
      ⟨(h.instance_of hu).1, w, hsink.mpr hsource, hterm⟩
    exact ⟨hd, (hi'.records_input hp.separable hpin' hmem' hd).mpr ⟨hsource, hterm.symm, hterm'⟩⟩

/-- A terminal of a node is a pin of its instance. -/
theorem exists_kind (h : g.Linked nodes names b) (hp : g.Plain mid) (hv : nodes[i]? = some v)
    {sig : DbSigType} {io : DbIoType} {name : String} (hname : name ∈ (mid.node v).pins sig io) :
    ∃ t ∈ b.iTerms, t.inst = i ∧ t.mTerm.name = name ∧ t.mTerm.sigType = sig ∧
      t.mTerm.ioType = io := by
  obtain ⟨hlt, hinst⟩ := h.instance_of hv
  obtain ⟨info, -, hmaster, hpins, -⟩ := hp.cell v hlt hinst
  rw [hpins] at hname
  obtain ⟨term, hterm, rfl⟩ := List.mem_map.mp hname
  obtain ⟨hterm, hkind⟩ := List.mem_filter.mp hterm
  obtain ⟨hsig, hio⟩ := of_decide_eq_true hkind
  obtain ⟨t, ht, hi, rfl⟩ := h.exists_pin hv hmaster hterm
  exact ⟨t, ht, hi, rfl, hsig, hio⟩

/-- The node that a pin belongs to. -/
def nodeOf (nodes : List NodeId) (t : DbITerm) : NodeId := (nodes[t.inst]?).getD 0

/-- The pins that are reached from an instance are one for each sink that is an
instance. -/
theorem loads (h : g.Linked nodes names b) (hp : g.Plain mid) {inst : DbInst}
    (hinst : b.insts[i]? = some inst) (hu : nodes[i]? = some u) :
    (((b.reached (inst.getITerms i)).filter fun t => t.mTerm.ioType = .input).map
      (nodeOf nodes)).Perm ((g.mapped.sinks u).filter fun w =>
        decide (g.mapped.type w).IsInstance) := by
  have hone := h.oneDriver hp
  have hmem : (inst, i) ∈ b.insts.zipIdx := List.mk_mem_zipIdx_iff_getElem?.mpr hinst
  have hload : ∀ x ∈ (b.reached (inst.getITerms i)).filter fun t => t.mTerm.ioType = .input,
      ∃ w, nodes[x.inst]? = some w ∧ nodeOf nodes x = w ∧ x ∈ b.iTerms ∧
        w ∈ g.mapped.sinks u ∧ g.mapped.getTerm w u = x.mTerm.name := by
    intro x hx
    obtain ⟨hx, hin⟩ := List.mem_filter.mp hx
    obtain ⟨t, ht, hdrives, n, hn, hx, hxn⟩ := DbBlock.mem_reached.mp hx
    have ht' : t ∈ b.iTerms := List.mem_flatMap.mpr ⟨(inst, i), hmem, ht⟩
    have hi : t.inst = i := by
      obtain ⟨_, -, rfl⟩ := List.mem_map.mp ht
      rfl
    obtain ⟨w, hw, -⟩ := h.pin hx
    obtain ⟨hsink, -, hterm⟩ := (h.load_iff hp ht' hx (hi ▸ hu) hw hdrives.2
      (of_decide_eq_true hin)).mp ⟨n, hn, hxn⟩
    refine ⟨w, hw, ?_, hx, hsink, hterm⟩
    unfold nodeOf
    rw [hw]
    rfl
  have hnodup : nodes.Nodup := h.perm.nodup_iff.mpr (List.nodup_range.filter _)
  rw [List.perm_ext_iff_of_nodup]
  · intro w
    rw [List.mem_map, List.mem_filter, decide_eq_true_eq]
    constructor
    · rintro ⟨x, hx, rfl⟩
      obtain ⟨w, hw, heq, -, hsink, -⟩ := hload x hx
      rw [heq]
      exact ⟨hsink, (h.instance_of hw).2⟩
    · rintro ⟨hsink, hinst'⟩
      obtain ⟨hlt, hinst''⟩ := h.instance_of hu
      have hi := (hp.mapped.instance_iff hp.chosen).mp ⟨hlt, hinst''⟩
      have hwlt := (hi.mapped.sinks_of_out hi.chosen hi.lt hsink).1
      have hwmem : w ∈ nodes := h.perm.mem_iff.mpr (g.mem_instances_iff.mpr
        ⟨hi.mapped.size.symm ▸ hi.chosen.prepared.lt_size hwlt, hinst'⟩)
      obtain ⟨j, hj⟩ := List.getElem?_of_mem hwmem
      have hi' := (hp.mapped.instance_iff hp.chosen).mp (h.instance_of hj)
      obtain ⟨t, ht, hti, hname, hsig, hout⟩ := h.exists_kind hp hu (hi.mem_outPins hsink)
      have hsource := (hi.mapped.sink_iff_source hi.chosen hi.lt hi'.lt_clk).mp hsink
      obtain ⟨t', ht', htj, hname', hin⟩ : ∃ t' ∈ b.iTerms, t'.inst = j ∧
          t'.mTerm.name = g.mapped.getTerm w u ∧ t'.mTerm.ioType = .input := by
        rcases Node.mem_inPins.mp (hi'.mem_inPins hp.separable hsource) with hpin | hpin | hpin
        all_goals
          obtain ⟨t', ht', htj, hname', -, hin⟩ := h.exists_kind hp hj hpin
          exact ⟨t', ht', htj, hname', hin⟩
      subst hti htj
      obtain ⟨n, hn, hn'⟩ := (h.load_iff hp ht ht' hu hj hout hin).mpr
        ⟨hsink, hname.symm, hname'.symm⟩
      refine ⟨t', List.mem_filter.mpr ⟨?_, decide_eq_true hin⟩, ?_⟩
      · apply DbBlock.mem_reached.mpr
        refine ⟨t, ?_, ⟨hsig, hout⟩, n, hn, ht', hn'⟩
        obtain ⟨inst', hinst', hterm, hnet⟩ := DbBlock.mem_iTerms.mp ht
        obtain rfl := Option.some.inj (hinst.symm.trans hinst')
        apply List.mem_map.mpr
        refine ⟨t.mTerm, hterm, ?_⟩
        rw [← hnet]
      · unfold nodeOf
        rw [hj]
        rfl
  · apply List.Nodup.map_on
    · intro x hx y hy heq
      obtain ⟨w, hw, hxw, hxmem, -, hterm⟩ := hload x hx
      obtain ⟨w', hw', hyw, hymem, -, hterm'⟩ := hload y hy
      obtain rfl : w = w' := hxw.symm.trans (heq.trans hyw)
      obtain ⟨hlt, -⟩ := List.getElem?_eq_some_iff.mp hw
      apply DbBlock.iTerm_ext hxmem hymem
      · exact (List.getElem?_inj hlt hnodup).mp (hw.trans hw'.symm)
      · exact hterm.symm.trans hterm'
    · exact (DbBlock.reached_nodup hone hmem).filter _
  · have hi := (hp.mapped.instance_iff hp.chosen).mp (h.instance_of hu)
    rw [hp.mapped.sinks hi.lt_clk]
    exact (hp.chosen.simple_sinks u).filter _

/-- Every signal input of an instance is in use. -/
theorem fanins (h : g.Linked nodes names b) (hp : g.Plain mid) {inst : DbInst}
    (hinst : b.insts[i]? = some inst) (hv : nodes[i]? = some v) :
    DbBlock.numFanins (inst.getITerms i) = g.finished.numFanins v := by
  obtain ⟨hlt, hinst'⟩ := h.instance_of hv
  have hi := (hp.mapped.instance_iff hp.chosen).mp ⟨hlt, hinst'⟩
  obtain ⟨info, -, hmaster, hpins, -, hisIn⟩ := hp.cell v hlt hinst'
  obtain ⟨hsupported, -, hinputs⟩ := MasterInfo.isIn_iff.mp hisIn
  simp only [PortInfo.supported, Bool.and_eq_true, decide_eq_true_eq] at hsupported
  obtain ⟨hsignal, -, -⟩ := getPortInfo_pins hsupported.2
  obtain ⟨inst', hget, hnode⟩ := h.inst.1 v hv
  obtain rfl := Option.some.inj (hinst.symm.trans hget)
  obtain heq := Option.some.inj (hmaster.symm.trans hnode.master)
  have hused : ∀ term ∈ inst.master.mTerms, (decide (inst.net term ≠ none ∧
      term.sigType = .signal ∧ term.ioType = .input) = true ↔
        decide (term.sigType = .signal ∧ term.ioType = .input) = true) := by
    intro term hterm
    rw [decide_eq_true_eq, decide_eq_true_eq]
    refine ⟨And.right, fun hkind => ⟨?_, hkind⟩⟩
    have hmem : term.name ∈ (mid.node v).pins .signal .input := by
      rw [hpins, heq, ← hkind.1, ← hkind.2]
      exact DbMaster.mem_pins hterm
    obtain ⟨wire, hwire⟩ := hi.exists_wire hp.separable hmem g.nets
    obtain ⟨n, hn⟩ := List.getElem?_of_mem (h.named v (List.mem_of_getElem? hv) _ hwire)
    rw [(hnode.net term n).mpr ⟨wire, hwire, hn⟩]
    exact Option.some_ne_none n
  unfold DbBlock.numFanins DbInst.getITerms
  rw [List.countP_map, ← hinputs, hsignal, heq]
  unfold DbMaster.pins pinsOf
  rw [List.length_map, ← List.countP_eq_length_filter]
  exact List.countP_congr hused

end Linked

end Generation

namespace Generation

open Netlist Verilog

variable {addr : NodeId ↪ ℕ} {ang : ArtNetGen} {g : Generation addr ang}
  {findCell : String → Option DbMaster} {topModule : String}

namespace Linked

variable {mid : Netlist} {nodes : List NodeId} {names : List String} {b : DbBlock}

end Linked

/-! ## Ports -/

theorem ports_nodup : g.finished.primIns.Nodup ∧ g.finished.primOuts.Nodup := by
  have hcongr : ∀ {nl nl' : Netlist}, nl'.primIns = nl.primIns ∧ nl'.primOuts = nl.primOuts →
      nl.primIns.Nodup ∧ nl.primOuts.Nodup → nl'.primIns.Nodup ∧ nl'.primOuts.Nodup := by
    rintro nl nl' ⟨hins, houts⟩ h
    rw [hins, houts]
    exact h
  apply g.holds (P := fun nl => nl.primIns.Nodup ∧ nl.primOuts.Nodup)
  · intro nl nl' hnl hnl'
    have hinit := initializeNetlist_spec hnl
    have hplaced := hinit.consistent.placed
    have htaken := setPrimaryIO_taken hinit (initializeNetlist_unsorted hnl) hnl'
    rw [htaken.primIns, htaken.primOuts]
    exact ⟨(nodesAlong_nodup hplaced nl.leftOfCorner_nodup).sublist (List.take_sublist _ _),
      (nodesAlong_nodup hplaced nl.aboveCorner_nodup).sublist (List.take_sublist _ _)⟩
  · intro nl nl' src snk hnodup hconnected
    exact hcongr hconnected.ports hnodup
  · intro nl nl' hnodup hequipped
    unfold Equipped at hequipped
    rw [hequipped]
    exact hnodup
  · intro nl nl' hnodup hsound hrework
    have hkeeps := hrework.keeps hsound
    refine hcongr ⟨?_, ?_⟩ hnodup
    · exact hkeeps.congr Netlist.primIns fun _ _ _ _ => rfl
    · exact hkeeps.congr Netlist.primOuts fun _ _ _ _ => rfl

theorem mappedPorts_nodup : g.mapped.primIns.Nodup ∧ g.mapped.primOuts.Nodup := by
  obtain ⟨hinNodup, houtNodup⟩ := ports_nodup (g := g)
  rw [g.ports_mapped.1, g.ports_mapped.2]
  refine ⟨hinNodup.append (by simp) fun v hv hcontrol => ?_, houtNodup⟩
  have hlt := g.portsListed.ins v hv
  simp only [List.mem_cons, List.not_mem_nil, or_false] at hcontrol
  rcases hcontrol with rfl | rfl
  · exact lt_irrefl _ hlt
  · exact Nat.not_succ_lt_self hlt

end Generation

def NetworkOrder.inOrder : NetworkOrder := ⟨⟨id, .refl⟩, ⟨id, .refl⟩, ⟨id, .refl⟩⟩

end Artnetgen
