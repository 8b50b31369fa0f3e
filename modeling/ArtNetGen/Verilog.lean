import ArtNetGen.Nets
import ArtNetGen.PathRun
import ArtNetGen.Design

/-!
`ArtNetGen::writeVerilog`. Ports and wires are declared and the pins of every
instance are connected to wires; no wire is assigned to another.
-/

namespace Artnetgen

open Bindings

/-- The order that begins with the nets of one name. -/
def MapOrder.beginWith (o : MapOrder) (name : String) : MapOrder where
  out2sinks := o.out2sinks
  name2net := ⟨fun nets => nets.filter (fun net => net.name == name) ++
    nets.filter (fun net => !(net.name == name)), fun _ => List.filter_append_perm _ _⟩

/-- What the file declares, an instance with its pins and the wires on them. -/
structure VerilogModule where
  inputs : List String
  outputs : List String
  wires : List String
  instances : List (NodeId × List (String × String))

namespace Netlist

/-- `term2net`. -/
def term2net (nl : Netlist) (nets : List Net) : NodeId × String → String :=
  bindAll (fun _ => "") (nets.flatMap fun net => net.terms.map fun (node, termName) =>
    ((node, termName), if termName = "PIN" then nl.name node else net.name))

/-- A terminal is listed once. -/
def listPin (nl : Netlist) (nets : List Net) (node : NodeId) (pins : List (String × String))
    (neighbour : NodeId) : List (String × String) :=
  let termName := nl.getTerm node neighbour
  let netName := nl.term2net nets (node, termName)
  if termName ∈ pins.map Prod.fst then pins else pins ++ [(termName, netName)]

def instancePins (nl : Netlist) (nets : List Net) (node : NodeId) : List (String × String) :=
  (nl.sinks node).foldl (nl.listPin nets node) ((nl.sources node).foldl (nl.listPin nets node) [])

def writeVerilog (nl : Netlist) (nets : List Net) : VerilogModule where
  inputs := nl.primIns.map nl.name
  outputs := nl.primOuts.map nl.name
  wires := nets.map (·.name)
  instances := (nl.nodes.filter fun node => decide (nl.type node).IsInstance).map fun node =>
    (node, nl.instancePins nets node)

/-! ## Outputs -/

/-- The terminal with which a source drives an output: that of its cell, or the
port itself. -/
def driverPin (nl : Netlist) (u p : NodeId) : NodeId × String :=
  match nl.type u with
  | .primaryIn => (u, nl.name u)
  | _ => (u, nl.getTerm u p)

/-- The driver is on the wire of the output. As there are no assignments, an
input is only if it is that wire. -/
def VerilogDrives (nl : Netlist) (file : VerilogModule) (u p : NodeId) : Prop :=
  match nl.type u with
  | .primaryIn => nl.name u = nl.name p
  | _ => ∃ pins, (u, pins) ∈ file.instances ∧ (nl.getTerm u p, nl.name p) ∈ pins

/-- There is a net of the name of the output that its source drives, and the file
connects them. -/
structure OutputDriven (nl : Netlist) (nets : List Net) (u p : NodeId) : Prop where
  net : ∃ net ∈ nets, net.name = nl.name p ∧ net.terms.head? = some (nl.driverPin u p)
  verilog : nl.VerilogDrives (nl.writeVerilog nets) u p

/-- The terminal that drives `p` is one of an instance, `p` is the last output
among its sinks, and nothing else that is bound to `u` is recorded under it. -/
structure Dedicated (nl : Netlist) (u p : NodeId) : Prop where
  source : nl.type u ≠ .primaryIn
  pin : nl.getTerm u p ≠ "PIN"
  last : ((nl.out2sinks u (nl.getTerm u p)).filter fun sink =>
    decide (nl.type sink = .primaryOut)).getLast? = some p
  sources : ∀ w ∈ nl.sources u, nl.pinOf u (nl.getTerm u w) ≠ (u, nl.getTerm u p)
  sinks : ∀ w ∈ nl.sinks u, nl.pinOf u (nl.getTerm u w) = (u, nl.getTerm u p) →
    nl.getTerm u w = nl.getTerm u p

variable {nl nl' : Netlist} {nets : List Net} {clkIn u v w p : NodeId} {o : MapOrder}

/-! ## Reading the file -/

theorem mem_foldl_listPin {l : List NodeId} {pins : List (String × String)} {pin : String × String} :
    pin ∈ l.foldl (nl.listPin nets v) pins ↔
      pin ∈ pins ∨ (pin.1 ∉ pins.map Prod.fst ∧ (∃ w ∈ l, nl.getTerm v w = pin.1) ∧
        pin.2 = nl.term2net nets (v, pin.1)) := by
  induction l generalizing pins with
  | nil => simp
  | cons w rest ih =>
      rw [List.foldl_cons, ih, listPin]
      by_cases hlisted : nl.getTerm v w ∈ pins.map Prod.fst
      · rw [if_pos hlisted]
        refine or_congr_right (and_congr_right fun hnot => and_congr_left fun _ => ?_)
        rw [List.exists_mem_cons_iff]
        exact (or_iff_right fun heq : nl.getTerm v w = pin.1 => hnot (heq ▸ hlisted)).symm
      · rw [if_neg hlisted]
        simp only [List.mem_append, List.mem_singleton, List.map_append, List.map_cons,
          List.map_nil, List.exists_mem_cons_iff, not_or]
        obtain ⟨term, net⟩ := pin
        by_cases hterm : nl.getTerm v w = term
        · subst hterm
          simp [hlisted]
        · simp [hterm, Ne.symm hterm]

/-- The pins of an instance are the terminals bound to its neighbours. -/
theorem mem_instancePins {pin : String × String} :
    pin ∈ nl.instancePins nets v ↔
      (∃ w ∈ nl.sources v ++ nl.sinks v, nl.getTerm v w = pin.1) ∧
        pin.2 = nl.term2net nets (v, pin.1) := by
  unfold instancePins
  rw [← List.foldl_append, mem_foldl_listPin]
  simp

/-- Of the nets that record a terminal, the file puts it on one of the last. -/
theorem term2net_append (nl : Netlist) (nets : List Net) {nets' : List Net} {t : String}
    (ht : t ≠ "PIN") (h : ∃ net ∈ nets', (v, t) ∈ net.terms) :
    ∃ net ∈ nets', (v, t) ∈ net.terms ∧ nl.term2net (nets ++ nets') (v, t) = net.name := by
  obtain ⟨net, hnet, hterm⟩ := h
  rw [term2net, List.flatMap_append, bindAll_append]
  generalize bindAll (fun _ : NodeId × String => "") _ = before
  have hmem : ((v, t), bindAll before (nets'.flatMap fun net =>
      net.terms.map fun term : NodeId × String =>
        (term, if term.2 = "PIN" then nl.name term.1 else net.name)) (v, t)) ∈
      nets'.flatMap fun net => net.terms.map fun term : NodeId × String =>
        (term, if term.2 = "PIN" then nl.name term.1 else net.name) := by
    apply bindAll_mem
    simp only [List.map_flatMap, List.map_map, List.mem_flatMap, List.mem_map]
    exact ⟨net, hnet, (v, t), hterm, rfl⟩
  obtain ⟨net', hnet', hentry⟩ := List.mem_flatMap.mp hmem
  obtain ⟨term, hterm', heq⟩ := List.mem_map.mp hentry
  obtain ⟨rfl, hname⟩ := Prod.mk.inj heq
  rw [if_neg ht] at hname
  exact ⟨net', hnet', hterm', hname.symm⟩

theorem term2net_mem (nl : Netlist) {t : String} (ht : t ≠ "PIN")
    (h : ∃ net ∈ nets, (v, t) ∈ net.terms) :
    ∃ net ∈ nets, (v, t) ∈ net.terms ∧ nl.term2net nets (v, t) = net.name := by
  have hlast := term2net_append nl [] ht h
  rwa [List.nil_append] at hlast

/-! ## The driver of an output -/

/-- An output of the mapped netlist with its source. -/
structure Output (clkIn : NodeId) (nl nl' : Netlist) (u p : NodeId) : Prop where
  mapped : Mapped clkIn nl nl'
  chosen : nl.Chosen clkIn
  port : p < nl.size
  type : nl'.type p = .primaryOut
  lt : u < nl.size
  sink : p ∈ nl'.sinks u

namespace Output

theorem lt_clk (h : Output clkIn nl nl' u p) : u < clkIn :=
  (h.chosen.lt u p
    (h.chosen.prepared.mem_iff.mpr ((h.mapped.sinks_of_out h.chosen h.lt h.sink).2 h.type))).1

/-- Drivers are inputs or instances. -/
theorem isInstance (h : Output clkIn nl nl' u p) (hin : nl'.type u ≠ .primaryIn) :
    (nl'.type u).IsInstance := by
  have hmem : p ∈ nl.sinks u :=
    h.chosen.prepared.mem_iff.mpr ((h.mapped.sinks_of_out h.chosen h.lt h.sink).2 h.type)
  have hcontrol := h.chosen.noControl u (h.chosen.lt u p hmem).1
  have hout : nl.type u ≠ .primaryOut := fun hout => by
    have hnone : nl.sinks u = [] := (h.chosen.ported.output u hout).1
    rw [hnone] at hmem
    cases hmem
  rw [(h.mapped.same h.chosen h.lt).1] at hin ⊢
  cases ht : nl.type u with
  | primaryIn => exact absurd ht hin
  | primaryOut => exact absurd ht hout
  | clockIn | resetIn =>
      rw [ht] at hcontrol
      cases hcontrol
  | combinational => exact Or.inl rfl
  | sequential => exact Or.inr rfl

/-- The file puts an instance on the wire that its terminal is last recorded on. -/
theorem verilogDrives_iff (h : Output clkIn nl nl' u p) (hin : nl'.type u ≠ .primaryIn) :
    nl'.VerilogDrives (nl'.writeVerilog nets) u p ↔
      nl'.term2net nets (u, nl'.getTerm u p) = nl'.name p := by
  have hinst := h.isInstance hin
  have hiff : nl'.VerilogDrives (nl'.writeVerilog nets) u p ↔
      ∃ pins, (u, pins) ∈ (nl'.writeVerilog nets).instances ∧
        (nl'.getTerm u p, nl'.name p) ∈ pins := by
    rcases hinst with hinst | hinst <;> simp only [VerilogDrives, hinst]
  rw [hiff]
  constructor
  · rintro ⟨pins, hwritten, hlisted⟩
    obtain ⟨_, -, heq⟩ := List.mem_map.mp hwritten
    obtain ⟨rfl, rfl⟩ := Prod.mk.inj heq
    exact (mem_instancePins.mp hlisted).2.symm
  · intro hwire
    refine ⟨nl'.instancePins nets u, List.mem_map.mpr ⟨u, ?_, rfl⟩, mem_instancePins.mpr
      ⟨⟨p, List.mem_append_right _ h.sink, rfl⟩, hwire.symm⟩⟩
    exact List.mem_filter.mpr ⟨List.mem_range.mpr (h.mapped.size.symm ▸ h.lt),
      decide_eq_true hinst⟩

theorem driverPin_eq (h : Output clkIn nl nl' u p) (hin : nl'.type u ≠ .primaryIn) :
    nl'.driverPin u p = (u, nl'.getTerm u p) := by
  rcases h.isInstance hin with hinst | hinst <;> simp [driverPin, hinst]

theorem isDriver (h : Output clkIn nl nl' u p) : nl'.IsDriver (u, nl'.getTerm u p) :=
  ⟨h.mapped.size.symm ▸ h.lt, p, h.sink, rfl⟩

/-- The net of the driver is called after the output if the driver is no input and
the output is the last one among the sinks. -/
theorem portOf_iff (h : Output clkIn nl nl' u p) :
    nl'.portOf (u, nl'.getTerm u p) = some p ↔
      nl'.type u ≠ .primaryIn ∧ ((nl'.out2sinks u (nl'.getTerm u p)).filter fun sink =>
        decide (nl'.type sink = .primaryOut)).getLast? = some p := by
  by_cases hin : nl'.type u = .primaryIn
  · have hport : nl'.portOf (u, nl'.getTerm u p) = some u := by simp [portOf, hin]
    rw [hport]
    refine iff_of_false (fun heq => ?_) fun hboth => hboth.1 hin
    rw [Option.some.inj heq] at hin
    cases hin.symm.trans h.type
  · unfold portOf
    rcases h.isInstance hin with hinst | hinst <;> simp [hinst]

/-- A net of that name is the one of the driver. -/
theorem driver_of_name (h : Output clkIn nl nl' u p) {d : NodeId × String} {net : Net}
    (hd : nl'.IsDriver d) (hnet : nl'.IsNet d net) (hname : net.name = nl'.name p) :
    d = (u, nl'.getTerm u p) ∧ nl'.portOf (u, nl'.getTerm u p) = some p := by
  have hport := h.mapped.portOf_of_name h.chosen hd hnet h.port (by simp [h.type, initial]) hname
  have heq := h.mapped.driver_of_out h.chosen hd hport h.lt h.type h.sink
  exact ⟨heq, heq ▸ hport⟩

/-- What is recorded under the terminal of the driver is the terminal of the
driver. -/
theorem driver_of_pin (h : Output clkIn nl nl' u p) (hded : nl'.Dedicated u p)
    {d : NodeId × String} {net : Net} (hd : nl'.IsDriver d) (hnet : nl'.IsNet d net)
    (hpin : (u, nl'.getTerm u p) ∈ net.terms) : d = (u, nl'.getTerm u p) := by
  rw [hnet.terms, List.mem_cons] at hpin
  rcases hpin with hpin | hpin
  · have hsame : u = d.1 := congrArg Prod.fst hpin
    obtain ⟨-, w, hw, hterm⟩ := hd
    rw [← hsame] at hw hterm hpin
    rw [← hterm] at hpin
    exact Prod.ext hsame.symm (hterm.symm.trans (hded.sinks w hw hpin.symm))
  · obtain ⟨v, hv, -, hpin⟩ := mem_sinkPins.mp hpin
    have hsame : u = v := congrArg Prod.fst hpin
    rw [← hsame] at hv hpin
    have hsource : d.1 ∈ nl'.sources u :=
      (h.mapped.sink_iff_source h.chosen (h.mapped.size ▸ hd.1) h.lt_clk).mp hv
    exact absurd hpin.symm (hded.sources d.1 hsource)

/-- If nothing else is recorded under it, the file puts the driver on the wire of
the output, whatever the order of the nets. -/
theorem driven_of_dedicated (h : Output clkIn nl nl' u p) (hded : nl'.Dedicated u p)
    (o : MapOrder) : nl'.OutputDriven (nl'.makeNets o) u p := by
  have hapart := h.mapped.namesApart h.chosen
  obtain ⟨net, hmem, hnet⟩ := exists_net hapart h.isDriver o
  have hport := h.portOf_iff.mpr ⟨hded.source, hded.last⟩
  have hhead : net.terms.head? = some (u, nl'.getTerm u p) := by
    rw [hnet.terms, List.head?_cons, pinOf, if_neg hded.pin]
  refine ⟨⟨net, hmem, hnet.called p hport, h.driverPin_eq hded.source ▸ hhead⟩, ?_⟩
  obtain ⟨net', hmem', hpin, hwire⟩ := term2net_mem nl' hded.pin
    ⟨net, hmem, List.mem_of_mem_head? hhead⟩
  obtain ⟨d, hd, hnet'⟩ := mem_makeNets hapart hmem'
  obtain rfl := h.driver_of_pin hded hd hnet' hpin
  exact (h.verilogDrives_iff hded.source).mpr (hwire.trans (hnet'.called p hport))

/-- A terminal of the driver that another net records is on another wire, if that
net comes last. -/
theorem not_driven (h : Output clkIn nl nl' u p) (hpin : nl'.getTerm u p ≠ "PIN")
    (hin : nl'.type u ≠ .primaryIn) {d : NodeId × String} (hd : nl'.IsDriver d)
    (hne : d ≠ (u, nl'.getTerm u p))
    (hterm : (u, nl'.getTerm u p) ∈ nl'.pinOf d.1 d.2 :: nl'.sinkPins d) (o : MapOrder) :
    ¬ nl'.OutputDriven (nl'.makeNets (o.beginWith (nl'.name p))) u p := by
  intro hdriven
  have hapart := h.mapped.namesApart h.chosen
  obtain ⟨nets, hmake, hnets⟩ := makeNets_spec hapart (o.beginWith (nl'.name p))
  obtain ⟨net, hmem, hnet⟩ := Pairs.exists_right hnets (mem_drivers.mpr hd)
  have hlast : net ∈ nets.filter fun net => !(net.name == nl'.name p) := by
    refine List.mem_filter.mpr ⟨hmem, ?_⟩
    simpa using fun hname => hne (h.driver_of_name hd hnet hname).1
  obtain ⟨net', hmem', -, hwire⟩ := term2net_append nl'
    (nets.filter fun net => net.name == nl'.name p) hpin
    ⟨net, hlast, hnet.terms.symm ▸ hterm⟩
  have hother : net'.name ≠ nl'.name p := by simpa using (List.mem_filter.mp hmem').2
  have hverilog := (h.verilogDrives_iff hin).mp hdriven.verilog
  rw [hmake] at hverilog
  exact hother (hwire.symm.trans hverilog)

theorem dedicated_of_driven (h : Output clkIn nl nl' u p)
    (hdriven : ∀ o, nl'.OutputDriven (nl'.makeNets o) u p) (o : MapOrder) : nl'.Dedicated u p := by
  have hapart := h.mapped.namesApart h.chosen
  obtain ⟨net, hmem, hname, hhead⟩ := (hdriven o).net
  obtain ⟨d, hd, hnet⟩ := mem_makeNets hapart hmem
  obtain ⟨rfl, hport⟩ := h.driver_of_name hd hnet hname
  obtain ⟨hin, hlast⟩ := h.portOf_iff.mp hport
  have hpin : nl'.getTerm u p ≠ "PIN" := fun hpin => by
    rw [h.driverPin_eq hin, hnet.terms, List.head?_cons, Option.some.injEq, pinOf, if_pos hpin, hpin] at hhead
    exact (h.chosen.named.plain u).2
      ((h.mapped.same h.chosen h.lt).2.1.symm.trans (congrArg Prod.snd hhead))
  refine ⟨hin, hpin, hlast, fun w hw heq => ?_, fun w hw heq => ?_⟩
  · have hlt := h.mapped.source_lt h.chosen h.lt_clk hw
    have hsink := (h.mapped.sink_iff_source h.chosen hlt h.lt_clk).mpr hw
    refine h.not_driven hpin hin (d := (w, nl'.getTerm w u)) ⟨h.mapped.size.symm ▸ hlt, u, hsink, rfl⟩
      (fun hsame => ?_) (List.mem_cons_of_mem _ (mem_sinkPins.mpr ⟨u, hsink, rfl, heq.symm⟩)) o
      (hdriven _)
    exact h.mapped.source_ne h.chosen h.lt_clk hw (congrArg Prod.fst hsame)
  · by_contra hne
    refine h.not_driven hpin hin (d := (u, nl'.getTerm u w)) ⟨h.mapped.size.symm ▸ h.lt, w, hw, rfl⟩
      (fun hsame => hne (congrArg Prod.snd hsame)) ?_ o (hdriven _)
    rw [heq]
    exact List.mem_cons_self

end Output

/-! ## The run -/

theorem technologyMapping_spec (hl : nl.Legal) (hn : nl.Named)
    (h : nl.technologyMapping o = some (nl', nets)) :
    ∃ mid, nl.chooseCells = some mid ∧ mid.Chosen nl.size ∧ Mapped nl.size mid nl' ∧
      ∀ o, nl.technologyMapping o = some (nl', nl'.makeNets o) := by
  simp only [technologyMapping, Option.bind_eq_bind, Option.bind_eq_some_iff] at h
  obtain ⟨mid, hmid, nl'', hmapped, hend⟩ := h
  obtain ⟨rfl, -⟩ := Prod.mk.inj (Option.some.inj hend)
  have hc := chooseCells_chosen hl hn hmid
  refine ⟨mid, hmid, hc, hc.prepared.mapped hmapped, fun o => ?_⟩
  simp [technologyMapping, hmid, hmapped]

theorem Mapped.output {mid : Netlist} (h : Mapped clkIn mid nl') (hc : mid.Chosen clkIn)
    (hp : p ∈ nl'.primOuts) (hu : u ∈ nl'.sources p) : Output clkIn mid nl' u p := by
  have houts : nl'.primOuts = mid.primOuts := by rw [h.keeps]
  obtain ⟨hlt, htype⟩ := hc.named.outType p (houts ▸ hp)
  have hclk : p < clkIn := by
    rcases hc.prepared.node_cases hlt with hlt | rfl | rfl
    · exact hlt
    · cases htype.symm.trans hc.clk.1
    · cases htype.symm.trans hc.rst.1
  have hult := h.source_lt hc hclk hu
  exact ⟨h, hc, hlt, (h.same hc hlt).1.trans htype, hult, (h.sink_iff_source hc hult hclk).mpr hu⟩

end Netlist

/-- What is mapped after a run. -/
theorem Matching.Reachable.mapped {addr : NodeId ↪ ℕ} {ang : ArtNetGen} {s : Matching}
    {nl nl' mapped : Netlist} {o : MapOrder} {nets : List Net} (hs : Matching.Reachable addr ang s)
    (hmasters : s.netlist.initOnlyUseMasters ang = some nl)
    (hpath : nl.timingPathConstruction_v1 ang nl')
    (hmap : nl'.technologyMapping o = some (mapped, nets)) :
    ∃ mid, nl'.chooseCells = some mid ∧ mid.Chosen nl'.size ∧ Netlist.Mapped nl'.size mid mapped ∧
      ∀ o, nl'.technologyMapping o = some (mapped, mapped.makeNets o) := by
  have hequipped := (Netlist.initOnlyUseMasters_spec hmasters).1
  have hl := hequipped.legal hs.legal
  obtain ⟨run, rfl⟩ := hpath
  have hreworks := run.reworks hl
  have hn := (hequipped.named hs.inv.named).reworks hl hreworks
  exact Netlist.technologyMapping_spec (hl.reworks hreworks) hn hmap

/-- Whatever the library and the random outcomes, an output of the finished
netlist is driven, for every order of the nets, if and only if its source has a
terminal for it. -/
theorem Netlist.output_driven_iff (addr : NodeId ↪ ℕ) (ang : ArtNetGen) (s : Matching)
    (nl nl' mapped : Netlist) (o : MapOrder) (nets : List Net) (u p : NodeId)
    (hs : Matching.Reachable addr ang s)
    (hmasters : s.netlist.initOnlyUseMasters ang = some nl)
    (hpath : nl.timingPathConstruction_v1 ang nl')
    (hmap : nl'.technologyMapping o = some (mapped, nets))
    (hp : p ∈ mapped.primOuts) (hu : u ∈ mapped.sources p) :
    (∀ o' nets', nl'.technologyMapping o' = some (mapped, nets') →
        mapped.OutputDriven nets' u p) ↔ mapped.Dedicated u p := by
  obtain ⟨mid, -, hc, hmapped, hmake⟩ := hs.mapped hmasters hpath hmap
  have hout := hmapped.output hc hp hu
  constructor
  · intro hdriven
    exact hout.dedicated_of_driven (fun o' => hdriven o' _ (hmake o')) o
  · intro hded o' nets' hmap'
    obtain ⟨-, rfl⟩ := Prod.mk.inj (Option.some.inj (hmap'.symm.trans (hmake o')))
    exact hout.driven_of_dedicated hded o'

/-! The small netlist with an edge from the input to the output. -/

def bufferAng : ArtNetGen :=
  (ArtNetGen.init { libs := [[bufferCell]] } smallSpec).get (by decide +kernel)

def forkStart : Matching := (Matching.enter bufferAng).get (by decide +kernel)

def forkEnd : Matching :=
  ([Turn.favouring 0 1, .favouring 0 0].foldlM (Matching.step (.refl ℕ)) forkStart).get
    (by decide +kernel)

theorem forkEnd_reachable : Matching.Reachable (.refl ℕ) bufferAng forkEnd :=
  ⟨forkStart, (Option.some_get _).symm, [.favouring 0 1, .favouring 0 0], (Option.some_get _).symm⟩

def forkEquipped : Netlist :=
  (forkEnd.netlist.initOnlyUseMasters bufferAng).get (by decide +kernel)

def forkRun : PathRun bufferAng forkEquipped :=
  (PathRun.carryOut bufferAng forkEquipped 1 3 .inOrder .inOrder).get (by decide +kernel)

def MapOrder.inOrder : MapOrder := ⟨fun _ => ⟨id, .refl⟩, ⟨id, .refl⟩⟩

def forkMapping : Netlist × List Net :=
  (forkRun.split.netlist.technologyMapping .inOrder).get (by decide +kernel)

theorem fork_undriven :
    ArtNetGen.init { libs := [[bufferCell]] } smallSpec = some bufferAng ∧
      Matching.Reachable (.refl ℕ) bufferAng forkEnd ∧ forkEnd.Returned ∧
      forkEnd.netlist.initOnlyUseMasters bufferAng = some forkEquipped ∧
      forkEquipped.timingPathConstruction_v1 bufferAng forkRun.split.netlist ∧
      forkRun.split.netlist.technologyMapping .inOrder = some forkMapping ∧
      2 ∈ forkMapping.1.primOuts ∧ forkMapping.1.sources 2 = [0] ∧
      forkMapping.1.name 0 = "in0" ∧ forkMapping.1.name 2 = "out0" ∧
      forkMapping.2.map (·.name) = ["in0"] ∧
      ¬ forkMapping.1.OutputDriven forkMapping.2 0 2 := by
  refine ⟨(Option.some_get _).symm, forkEnd_reachable,
    (show forkEnd.tarEdgeCnt ≤ forkEnd.curEdgeCnt by decide +kernel), (Option.some_get _).symm,
    ⟨forkRun, rfl⟩, (Option.some_get _).symm, by decide +kernel, by decide +kernel,
    by decide +kernel, by decide +kernel, by decide +kernel, ?_⟩
  rintro ⟨⟨net, hnet, hname, -⟩, -⟩
  have hnone : ∀ net ∈ forkMapping.2, net.name ≠ forkMapping.1.name 2 := by decide +kernel
  exact hnone net hnet hname

theorem Netlist.output_driven_iff_fork :
    ¬ ∀ o' nets', forkRun.split.netlist.technologyMapping o' = some (forkMapping.1, nets') →
        forkMapping.1.OutputDriven nets' 0 2 :=
  mt (Netlist.output_driven_iff (.refl ℕ) bufferAng forkEnd forkEquipped forkRun.split.netlist
    forkMapping.1 .inOrder forkMapping.2 0 2 forkEnd_reachable (Option.some_get _).symm
    ⟨forkRun, rfl⟩ (Option.some_get _).symm (by decide +kernel) (by decide +kernel)).mp
    fun hded => hded.source (by decide +kernel)

end Artnetgen
