import ArtNetGen.Cells
import ArtNetGen.Library.Counts

/-!
The nets. Every output terminal in use drives one, which is called after a port
or gets a number of its own; so the nets correspond to the terminals.
-/

namespace Artnetgen

open Bindings

namespace Netlist

variable {nl nl' mid : Netlist} {clkIn : NodeId} {o : MapOrder}

/-! ## The terminals of a net -/

/-- A terminal as a net records it. -/
def pinOf (nl : Netlist) (v : NodeId) (termName : String) : NodeId × String :=
  (v, if termName = "PIN" then nl.name v else termName)

/-- What `makeNets` goes through. -/
def drivers (nl : Netlist) (o : MapOrder) : List (NodeId × String) :=
  nl.nodes.flatMap fun source =>
    ((o.out2sinks source).val (nl.outTermNames source)).map fun outTermName => (source, outTermName)

def sinkPins (nl : Netlist) (d : NodeId × String) : List (NodeId × String) :=
  (nl.out2sinks d.1 d.2).map fun sink => nl.pinOf sink (nl.getTerm sink d.1)

/-- The port that the net of a driver is called after. -/
def portOf (nl : Netlist) (d : NodeId × String) : Option NodeId :=
  match nl.type d.1 with
  | .primaryIn | .clockIn | .resetIn => some d.1
  | _ => ((nl.out2sinks d.1 d.2).filter fun sink => decide (nl.type sink = .primaryOut)).getLast?

/-- An output terminal in use. -/
def IsDriver (nl : Netlist) (d : NodeId × String) : Prop :=
  d.1 < nl.size ∧ ∃ v ∈ nl.sinks d.1, nl.getTerm d.1 v = d.2

theorem mem_drivers {d : NodeId × String} : d ∈ nl.drivers o ↔ nl.IsDriver d := by
  obtain ⟨u, t⟩ := d
  simp only [IsDriver, drivers, nodes, List.mem_flatMap, List.mem_range, List.mem_map, Prod.mk.injEq,
    ((o.out2sinks _).property _).mem_iff, outTermNames, List.mem_dedup]
  constructor
  · rintro ⟨_, hu, _, ⟨v, hv, hterm⟩, rfl, rfl⟩
    exact ⟨hu, v, hv, hterm⟩
  · rintro ⟨hu, v, hv, hterm⟩
    exact ⟨u, hu, t, ⟨v, hv, hterm⟩, rfl, rfl⟩

theorem drivers_nodup (nl : Netlist) (o : MapOrder) : (nl.drivers o).Nodup := by
  refine List.nodup_flatMap.mpr ⟨fun u _ => ?_, ?_⟩
  · apply (((o.out2sinks u).property _).nodup_iff.mpr (List.nodup_dedup _)).map
    exact fun _ _ h => congrArg Prod.snd h
  · refine List.nodup_range.imp fun huv d hd hd' => ?_
    obtain ⟨_, -, rfl⟩ := List.mem_map.mp hd
    obtain ⟨_, -, heq⟩ := List.mem_map.mp hd'
    exact huv (congrArg Prod.fst heq).symm

theorem mem_sinkPins {d pin : NodeId × String} :
    pin ∈ nl.sinkPins d ↔ ∃ v ∈ nl.sinks d.1, nl.getTerm d.1 v = d.2 ∧
      pin = nl.pinOf v (nl.getTerm v d.1) := by
  simp only [sinkPins, out2sinks, List.mem_map, List.mem_filter, decide_eq_true_eq, and_assoc,
    eq_comm (a := pin)]

theorem foldl_addTerm (f : NodeId → String) (sinks : List NodeId) (net : Net) :
    sinks.foldl (fun net sink => net.addTerm nl sink (f sink)) net =
      { net with terms := net.terms ++ sinks.map fun sink => nl.pinOf sink (f sink) } := by
  induction sinks generalizing net with
  | nil => simp
  | cons sink rest ih =>
      rw [List.foldl_cons, ih]
      simp [Net.addTerm, pinOf]

theorem netName_eq (nl : Netlist) (netCnt : ℕ) (d : NodeId × String) :
    nl.netName netCnt d.1 (nl.out2sinks d.1 d.2) =
      match nl.portOf d with
      | some port => (nl.name port, netCnt)
      | none => ("net" ++ toString netCnt, netCnt + 1) := by
  unfold netName portOf
  generalize ((nl.out2sinks d.1 d.2).filter
    fun sink => decide (nl.type sink = .primaryOut)).getLast? = last
  cases nl.type d.1 with
  | primaryIn | clockIn | resetIn => rfl
  | primaryOut | combinational | sequential => cases last <;> rfl

/-! ## A net for every driver -/

/-- Ports lend their names to one driver each, and no port is called like a
numbered net. -/
structure NamesApart (nl : Netlist) : Prop where
  unique : ∀ d d', nl.IsDriver d → nl.IsDriver d' → ∀ port port', nl.portOf d = some port →
    nl.portOf d' = some port' → nl.name port = nl.name port' → d = d'
  number : ∀ d, nl.IsDriver d → ∀ port, nl.portOf d = some port →
    ∀ k : ℕ, nl.name port ≠ "net" ++ toString k

/-- The net of a driver. -/
structure IsNet (nl : Netlist) (d : NodeId × String) (net : Net) : Prop where
  terms : net.terms = nl.pinOf d.1 d.2 :: nl.sinkPins d
  called : ∀ port, nl.portOf d = some port → net.name = nl.name port
  numbered : nl.portOf d = none → ∃ k : ℕ, net.name = "net" ++ toString k

/-- The first drivers have their nets. -/
structure Made (nl : Netlist) (done : List (NodeId × String)) (s : NetMaking) : Prop where
  nets : List.Forall₂ nl.IsNet done s.name2net
  named : ∀ net ∈ s.name2net, (∃ d ∈ done, ∃ port, nl.portOf d = some port ∧
    net.name = nl.name port) ∨ ∃ k < s.netCnt, net.name = "net" ++ toString k

theorem addNet_of_new {s : NetMaking} {d : NodeId × String} {name : String} {netCnt : ℕ}
    (hname : nl.netName s.netCnt d.1 (nl.out2sinks d.1 d.2) = (name, netCnt))
    (hnew : ∀ net ∈ s.name2net, net.name ≠ name) :
    nl.addNet d.1 s d.2 = ⟨netCnt,
      s.name2net ++ [⟨name, nl.pinOf d.1 d.2 :: nl.sinkPins d⟩]⟩ := by
  have hany : (s.name2net.any fun net => net.name == name) = false := by
    simpa using hnew
  have hold : (s.name2net.map fun net => if net.name = name then
      (nl.out2sinks d.1 d.2).foldl (fun net sink => net.addTerm nl sink (nl.getTerm sink d.1)) net
      else net) = s.name2net := by
    conv_rhs => rw [← List.map_id s.name2net]
    exact List.map_congr_left fun net hnet => if_neg (hnew net hnet)
  have hgrown : (nl.out2sinks d.1 d.2).foldl
      (fun net sink => net.addTerm nl sink (nl.getTerm sink d.1))
        (Net.addTerm ⟨name, []⟩ nl d.1 d.2) =
      ⟨name, nl.pinOf d.1 d.2 :: nl.sinkPins d⟩ := by
    rw [foldl_addTerm]
    rfl
  simp only [addNet, hname, hany, Bool.false_eq_true, if_false, List.map_append, hold,
    List.map_cons, List.map_nil]
  have hsame : (Net.addTerm ⟨name, []⟩ nl d.1 d.2).name = name := rfl
  rw [if_pos hsame, hgrown]

/-- The name that the next driver gets is a new one. -/
theorem Made.fresh {done : List (NodeId × String)} {s : NetMaking} {d : NodeId × String}
    (h : nl.Made done s) (ha : nl.NamesApart) (hd : nl.IsDriver d)
    (hdone : ∀ d' ∈ done, nl.IsDriver d') (hnew : d ∉ done) :
    ∀ net ∈ s.name2net,
      net.name ≠ (nl.netName s.netCnt d.1 (nl.out2sinks d.1 d.2)).1 := by
  rw [netName_eq]
  intro net hnet heq
  cases hport : nl.portOf d with
  | some port =>
      rw [hport] at heq
      rcases h.named net hnet with ⟨d', hd', port', hport', hname'⟩ | ⟨k, -, hk⟩
      · have hsame : d' = d :=
          ha.unique d' d (hdone d' hd') hd port' port hport' hport (hname'.symm.trans heq)
        exact hnew (hsame ▸ hd')
      · exact ha.number d hd port hport k (heq.symm.trans hk)
  | none =>
      rw [hport] at heq
      rcases h.named net hnet with ⟨d', hd', port', hport', hname'⟩ | ⟨k, hlt, hk⟩
      · exact ha.number d' (hdone d' hd') port' hport' _ (hname'.symm.trans heq)
      · exact hlt.ne (Names.numbered_injective "net" (hk.symm.trans heq))

theorem Made.addNet {done : List (NodeId × String)} {s : NetMaking} {d : NodeId × String}
    (h : nl.Made done s) (ha : nl.NamesApart) (hd : nl.IsDriver d)
    (hdone : ∀ d' ∈ done, nl.IsDriver d') (hnew : d ∉ done) :
    nl.Made (done ++ [d]) (nl.addNet d.1 s d.2) := by
  have hname := nl.netName_eq s.netCnt d
  have hfresh := h.fresh ha hd hdone hnew
  rw [hname] at hfresh
  cases hport : nl.portOf d with
  | some port =>
      rw [hport] at hname hfresh
      rw [addNet_of_new hname hfresh]
      refine ⟨List.rel_append h.nets (.cons ⟨rfl, fun _ h' => ?_, fun h' => ?_⟩ .nil), fun net hnet => ?_⟩
      · rw [Option.some.inj (hport.symm.trans h')]
      · cases hport.symm.trans h'
      · rcases List.mem_append.mp hnet with hnet | hnet
        · apply (h.named net hnet).imp_left
          rintro ⟨d', hd', hrest⟩
          exact ⟨d', List.mem_append_left _ hd', hrest⟩
        · obtain rfl := List.mem_singleton.mp hnet
          exact Or.inl ⟨d, by simp, port, hport, rfl⟩
  | none =>
      rw [hport] at hname hfresh
      rw [addNet_of_new hname hfresh]
      refine ⟨List.rel_append h.nets (.cons ⟨rfl, fun _ h' => ?_, fun _ => ⟨_, rfl⟩⟩ .nil),
        fun net hnet => ?_⟩
      · cases hport.symm.trans h'
      · rcases List.mem_append.mp hnet with hnet | hnet
        · refine (h.named net hnet).imp ?_ ?_
          · rintro ⟨d', hd', hrest⟩
            exact ⟨d', List.mem_append_left _ hd', hrest⟩
          · rintro ⟨k, hlt, hk⟩
            exact ⟨k, hlt.trans (Nat.lt_succ_self _), hk⟩
        · obtain rfl := List.mem_singleton.mp hnet
          exact Or.inr ⟨s.netCnt, Nat.lt_succ_self _, rfl⟩

/-- The state of the loop once the first drivers have their nets. -/
def netsAfter (nl : Netlist) (done : List (NodeId × String)) : NetMaking :=
  done.foldl (fun s d => nl.addNet d.1 s d.2) {}

theorem made (ha : nl.NamesApart) {done : List (NodeId × String)} (hnodup : done.Nodup)
    (hdone : ∀ d ∈ done, nl.IsDriver d) :
    nl.Made done (nl.netsAfter done) := by
  induction done using List.reverseRecOn with
  | nil => exact ⟨.nil, nofun⟩
  | append_singleton done d ih =>
      unfold netsAfter
      rw [List.foldl_append]
      have hd := List.nodup_append.mp hnodup
      have hdone' : ∀ d' ∈ done, nl.IsDriver d' := fun d' hd' =>
        hdone d' (List.mem_append_left _ hd')
      exact (ih hd.1 hdone').addNet ha (hdone d (by simp)) hdone'
        fun hmem => hd.2.2 d hmem d (by simp) rfl

/-- So the names are pairwise distinct. -/
theorem netsAfter_nodup (ha : nl.NamesApart) {done : List (NodeId × String)} (hnodup : done.Nodup)
    (hdone : ∀ d ∈ done, nl.IsDriver d) :
    ((nl.netsAfter done).name2net.map (·.name)).Nodup := by
  induction done using List.reverseRecOn with
  | nil => exact List.nodup_nil
  | append_singleton done d ih =>
      have hd := List.nodup_append.mp hnodup
      have hdone' : ∀ d' ∈ done, nl.IsDriver d' := fun d' hd' =>
        hdone d' (List.mem_append_left _ hd')
      have hfresh := (made ha hd.1 hdone').fresh ha (hdone d (by simp)) hdone'
        fun hmem => hd.2.2 d hmem d (by simp) rfl
      have hstep : nl.netsAfter (done ++ [d]) = nl.addNet d.1 (nl.netsAfter done) d.2 := by
        unfold netsAfter
        rw [List.foldl_append]
        rfl
      rw [hstep, addNet_of_new (Prod.eta _).symm hfresh, List.map_append]
      apply List.Nodup.append (ih hd.1 hdone') (List.nodup_singleton _)
      intro name hin hlast
      obtain ⟨net, hnet, rfl⟩ := List.mem_map.mp hin
      exact hfresh net hnet (List.mem_singleton.mp hlast)

theorem makeNets_eq (nl : Netlist) (o : MapOrder) :
    nl.makeNets o = o.name2net.val (nl.netsAfter (nl.drivers o)).name2net := by
  simp only [makeNets, netsAfter, drivers, List.foldl_flatMap, List.foldl_map]

/-- The nets of the finished netlist, in the order in which they were made. -/
theorem makeNets_spec (ha : nl.NamesApart) (o : MapOrder) :
    ∃ nets, nl.makeNets o = o.name2net.val nets ∧
      List.Forall₂ nl.IsNet (nl.drivers o) nets :=
  ⟨_, nl.makeNets_eq o, (made ha (nl.drivers_nodup o) fun _ => mem_drivers.mp).nets⟩

theorem mem_makeNets (ha : nl.NamesApart) {net : Net} (h : net ∈ nl.makeNets o) :
    ∃ d, nl.IsDriver d ∧ nl.IsNet d net := by
  obtain ⟨nets, heq, hnets⟩ := makeNets_spec ha o
  rw [heq, (o.name2net.property nets).mem_iff] at h
  obtain ⟨d, hd, hnet⟩ := Pairs.exists_left hnets h
  exact ⟨d, mem_drivers.mp hd, hnet⟩

theorem exists_net (ha : nl.NamesApart) {d : NodeId × String} (hd : nl.IsDriver d) (o : MapOrder) :
    ∃ net ∈ nl.makeNets o, nl.IsNet d net := by
  obtain ⟨nets, heq, hnets⟩ := makeNets_spec ha o
  obtain ⟨net, hmem, hnet⟩ := Pairs.exists_right hnets (mem_drivers.mpr hd)
  refine ⟨net, ?_, hnet⟩
  rwa [heq, (o.name2net.property nets).mem_iff]

/-! ## Ports -/

/-- What the names of ports begin with. -/
def initial : NodeType → Option Char
  | .primaryIn => some 'i'
  | .primaryOut => some 'o'
  | .clockIn => some 'c'
  | .resetIn => some 'r'
  | .combinational | .sequential => none

theorem initial_injective {t t' : NodeType} (h : initial t = initial t') (hport : initial t ≠ none) :
    t = t' := by
  cases t <;> cases t' <;> first | rfl | exact absurd rfl hport | cases h

variable {u v p : NodeId}

theorem Prepared.clk_of_type (hc : nl.Prepared clkIn) (hv : v < nl.size)
    (htype : nl.type v = .clockIn) : v = clkIn := by
  rcases hc.node_cases hv with hv | hv | rfl
  · have hnot := hc.noControl v hv
    rw [htype] at hnot
    cases hnot
  · exact hv
  · cases htype.symm.trans hc.rst.1

theorem Prepared.rst_of_type (hc : nl.Prepared clkIn) (hv : v < nl.size)
    (htype : nl.type v = .resetIn) : v = clkIn + 1 := by
  rcases hc.node_cases hv with hv | rfl | hv
  · have hnot := hc.noControl v hv
    rw [htype] at hnot
    cases hnot
  · cases htype.symm.trans hc.clk.1
  · exact hv

theorem Mapped.head_name (h : Mapped clkIn nl nl') (hc : nl.Prepared clkIn) (hv : v < nl.size)
    (hport : initial (nl'.type v) ≠ none) :
    (nl'.name v).toList.head? = initial (nl'.type v) := by
  obtain ⟨htype, hname, -⟩ := h.same hc hv
  rw [htype] at hport ⊢
  rw [hname]
  cases ht : nl.type v with
  | combinational | sequential =>
      rw [ht] at hport
      exact absurd rfl hport
  | primaryIn =>
      obtain ⟨i, -, hi⟩ := hc.named.ins v hv ht
      rw [hi, String.toList_append]
      rfl
  | primaryOut =>
      obtain ⟨i, -, hi⟩ := hc.named.outs v hv ht
      rw [hi, String.toList_append]
      rfl
  | clockIn =>
      rw [hc.clk_of_type hv ht, hc.clk.2]
      rfl
  | resetIn =>
      rw [hc.rst_of_type hv ht, hc.rst.2]
      rfl

/-- The sinks that mapping adds are instances. -/
theorem Mapped.sinks_of_out (h : Mapped clkIn nl nl') (hc : nl.Prepared clkIn) (hu : u < nl.size)
    (hp : p ∈ nl'.sinks u) : p < clkIn ∧ (nl'.type p = .primaryOut → u ∈ nl.sources p) := by
  rcases (h.mem_sinks hc hu).mp hp with hold | ⟨hlt, hcontrol⟩
  · exact ⟨(hc.lt u p hold).2, fun _ => hc.mem_iff.mp hold⟩
  · refine ⟨hlt, fun htype => ?_⟩
    have hsize := hc.lt_size hlt
    have hpins : ∀ sig, sig ≠ .signal → (nl.node p).pins sig .input = [] := by
      intro sig hsig
      have ht : (nl.node p).type = .primaryOut := (h.same hc hsize).1.symm.trans htype
      unfold Node.pins
      rw [ht]
      exact if_neg fun hboth => hsig hboth.1
    rcases hcontrol with ⟨-, hne⟩ | ⟨-, hne⟩
    · exact absurd (hpins .clock nofun) hne
    · exact absurd (hpins .reset nofun) hne

theorem Mapped.sink_iff_source (h : Mapped clkIn nl nl') (hc : nl.Prepared clkIn) (hu : u < nl.size)
    (hv : v < clkIn) : v ∈ nl'.sinks u ↔ u ∈ nl'.sources v := by
  rw [h.mem_sinks hc hu, h.mem_sources hv, hc.mem_iff]
  exact or_congr_right (and_iff_right hv)

theorem Mapped.source_lt (h : Mapped clkIn nl nl') (hc : nl.Prepared clkIn) (hv : v < clkIn)
    (hu : u ∈ nl'.sources v) : u < nl.size := by
  rcases (h.mem_sources hv).mp hu with hold | ⟨rfl, -⟩ | ⟨rfl, -⟩
  · exact hc.lt_size (hc.lt u v (hc.mem_iff.mpr hold)).1
  · exact hc.clk_lt
  · exact hc.rst_lt

theorem Mapped.source_ne (h : Mapped clkIn nl nl') (hc : nl.Chosen clkIn) (hv : v < clkIn)
    (hu : u ∈ nl'.sources v) : u ≠ v := by
  rcases (h.mem_sources hv).mp hu with hold | ⟨rfl, -⟩ | ⟨rfl, -⟩
  · rintro rfl
    exact hc.simple.irreflexive u (hc.prepared.mem_iff.mpr hold)
  · exact hv.ne'
  · exact (hv.trans (Nat.lt_succ_self _)).ne'

/-- An output has one driver. -/
theorem Mapped.source_unique (h : Mapped clkIn nl nl') (hc : nl.Prepared clkIn) (hu : u < nl.size)
    (hv : v < nl.size) (htype : nl'.type p = .primaryOut) (hup : p ∈ nl'.sinks u)
    (hvp : p ∈ nl'.sinks v) : u = v := by
  obtain ⟨hlt, hsource⟩ := h.sinks_of_out hc hu hup
  have hout : (nl.node p).type = .primaryOut :=
    (h.same hc (hc.lt_size hlt)).1.symm.trans htype
  have hinputs : (nl.sources p).length = 1 := by
    have hpins := (h.node p hlt).1.inputs
    unfold Node.pins at hpins
    rw [hout] at hpins
    exact hpins.symm
  obtain ⟨w, hsources⟩ := List.length_eq_one_iff.mp hinputs
  have hmem := hsource htype
  have hmem' := (h.sinks_of_out hc hv hvp).2 htype
  rw [hsources, List.mem_singleton] at hmem hmem'
  exact hmem.trans hmem'.symm

end Netlist

/-- An input drives all its sinks with its one terminal. -/
theorem Node.term_of_input {n : Node} {clkIn rstIn v : NodeId}
    (h : n.type = .primaryIn ∨ n.type = .clockIn ∨ n.type = .resetIn) (hv : v ∈ n.sinks) :
    (n.mapped clkIn rstIn).node2term v = "PIN" := by
  have hclk : n.pins .clock .input = [] := by
    rcases h with h | h | h <;> simp [pins, h]
  have hrst : n.pins .reset .input = [] := by
    rcases h with h | h | h <;> simp [pins, h]
  have hout : n.pins .signal .output = ["PIN"] := by
    rcases h with h | h | h <;> simp [pins, h]
  have hmem : (v, (n.mapped clkIn rstIn).node2term v) ∈ spread n.sinks ["PIN"] := by
    unfold mapped
    rw [hclk, hrst, control_nil, control_nil, bound, entries, hout]
    dsimp only
    rw [bindAll_append]
    apply bindAll_mem
    rwa [map_fst_spread fun _ => by simp]
  simpa using label_mem_of_spread hmem

namespace Netlist

variable {nl nl' : Netlist} {clkIn u v : NodeId}

theorem Mapped.isMapped (h : Mapped clkIn nl nl') (hc : nl.Prepared clkIn) (hv : v < nl.size) :
    ∃ n : Node, nl'.node v = n.mapped clkIn (clkIn + 1) := by
  rcases hc.node_cases hv with hv | rfl | rfl
  · exact ⟨_, (h.node v hv).2⟩
  · obtain ⟨n, -, hn⟩ := h.clk
    exact ⟨n, hn⟩
  · obtain ⟨n, -, hn⟩ := h.rst
    exact ⟨n, hn⟩

theorem Mapped.getTerm_input (h : Mapped clkIn nl nl') (hc : nl.Prepared clkIn) (hu : u < nl.size)
    (htype : nl'.type u = .primaryIn ∨ nl'.type u = .clockIn ∨ nl'.type u = .resetIn)
    (hv : v ∈ nl'.sinks u) : nl'.getTerm u v = "PIN" := by
  obtain ⟨n, hn⟩ := h.isMapped hc hu
  unfold type at htype
  rw [hn] at htype
  unfold Netlist.sinks at hv
  rw [hn] at hv
  unfold getTerm
  rw [hn]
  exact Node.term_of_input htype hv

/-- The ports that give their names are inputs that drive the net or outputs
that it drives. -/
theorem portOf_cases {d : NodeId × String} {port : NodeId} (h : nl.portOf d = some port) :
    ((nl.type d.1 = .primaryIn ∨ nl.type d.1 = .clockIn ∨ nl.type d.1 = .resetIn) ∧
        port = d.1) ∨
      (nl.type port = .primaryOut ∧ port ∈ nl.sinks d.1 ∧ nl.getTerm d.1 port = d.2) := by
  unfold portOf at h
  cases htype : nl.type d.1 with
  | primaryIn | clockIn | resetIn =>
      rw [htype] at h
      exact Or.inl ⟨by simp, (Option.some.inj h).symm⟩
  | primaryOut | combinational | sequential =>
      rw [htype] at h
      have hmem := List.mem_filter.mp (List.mem_of_getLast? h)
      have hsink := List.mem_filter.mp hmem.1
      exact Or.inr ⟨of_decide_eq_true hmem.2, hsink.1, of_decide_eq_true hsink.2⟩

/-- A port is known by its name. -/
theorem Mapped.port_injective (h : Mapped clkIn nl nl') (hc : nl.Prepared clkIn) (hu : u < nl.size)
    (hv : v < nl.size) (hport : initial (nl'.type u) ≠ none) (hport' : initial (nl'.type v) ≠ none)
    (hname : nl'.name u = nl'.name v) : u = v := by
  have htype : nl'.type u = nl'.type v := by
    refine initial_injective ?_ hport
    rw [← h.head_name hc hu hport, ← h.head_name hc hv hport', hname]
  obtain ⟨hut, hun, -⟩ := h.same hc hu
  obtain ⟨hvt, hvn, -⟩ := h.same hc hv
  rw [hun, hvn] at hname
  rw [hut, hvt] at htype
  rw [hut] at hport
  cases ht : nl.type u with
  | primaryIn => exact hc.named.in_injective hu hv ht (htype.symm.trans ht) hname
  | primaryOut => exact hc.named.out_injective hu hv ht (htype.symm.trans ht) hname
  | clockIn => rw [hc.clk_of_type hu ht, hc.clk_of_type hv (htype.symm.trans ht)]
  | resetIn => rw [hc.rst_of_type hu ht, hc.rst_of_type hv (htype.symm.trans ht)]
  | combinational | sequential =>
      rw [ht] at hport
      exact absurd rfl hport

theorem Mapped.name_ne_net (h : Mapped clkIn nl nl') (hc : nl.Prepared clkIn) (hv : v < nl.size)
    (hport : initial (nl'.type v) ≠ none) (k : ℕ) : nl'.name v ≠ "net" ++ toString k := by
  intro heq
  have hhead := h.head_name hc hv hport
  have hn : ("net".toList ++ (toString k).toList).head? = some 'n' := rfl
  rw [heq, String.toList_append, hn] at hhead
  cases ht : nl'.type v <;> rw [ht] at hhead hport <;>
    first | exact absurd rfl hport | exact absurd hhead (by decide)

/-- What gives its name to a net is a port. -/
theorem Mapped.portOf_port (h : Mapped clkIn nl nl') (hc : nl.Prepared clkIn)
    {d : NodeId × String} (hd : nl'.IsDriver d) {port : NodeId} (hp : nl'.portOf d = some port) :
    port < nl.size ∧ initial (nl'.type port) ≠ none := by
  have hlt : d.1 < nl.size := h.size ▸ hd.1
  rcases portOf_cases hp with ⟨htype, rfl⟩ | ⟨htype, hsink, -⟩
  · refine ⟨hlt, ?_⟩
    rcases htype with htype | htype | htype <;> simp [htype, initial]
  · exact ⟨hc.lt_size (h.sinks_of_out hc hlt hsink).1, by simp [htype, initial]⟩

theorem Mapped.namesApart (h : Mapped clkIn nl nl') (hc : nl.Prepared clkIn) : nl'.NamesApart := by
  refine ⟨fun d d' hd hd' port port' hp hp' hname => ?_, fun d hd port hp k => ?_⟩
  · obtain ⟨hlt, hinit⟩ := h.portOf_port hc hd hp
    obtain ⟨hlt', hinit'⟩ := h.portOf_port hc hd' hp'
    obtain rfl := h.port_injective hc hlt hlt' hinit hinit' hname
    rcases portOf_cases hp with ⟨hin, hport⟩ | ⟨hout, hsink, hterm⟩
    · rcases portOf_cases hp' with ⟨-, hport'⟩ | ⟨hout, -⟩
      · have hsame : d.1 = d'.1 := hport.symm.trans hport'
        obtain ⟨-, v, hv, hterm⟩ := hd
        obtain ⟨-, v', hv', hterm'⟩ := hd'
        apply Prod.ext hsame
        rw [← hterm, ← hterm', h.getTerm_input hc (hport ▸ hlt) hin hv, h.getTerm_input hc
          (hport' ▸ hlt) (hsame ▸ hin) hv']
      · rw [hport] at hout
        rcases hin with hin | hin | hin <;> cases hin.symm.trans hout
    · rcases portOf_cases hp' with ⟨hin, hport'⟩ | ⟨-, hsink', hterm'⟩
      · rw [← hport'] at hin
        rcases hin with hin | hin | hin <;> cases hin.symm.trans hout
      · have hsame : d.1 = d'.1 :=
          h.source_unique hc (h.size ▸ hd.1) (h.size ▸ hd'.1) hout hsink hsink'
        exact Prod.ext hsame (by rw [← hterm, ← hterm', hsame])
  · obtain ⟨hlt, hinit⟩ := h.portOf_port hc hd hp
    exact h.name_ne_net hc hlt hinit k

/-- A net with the name of a port is called after that port. -/
theorem Mapped.portOf_of_name (h : Mapped clkIn nl nl') (hc : nl.Prepared clkIn)
    {d : NodeId × String} {net : Net} {p : NodeId} (hd : nl'.IsDriver d) (hnet : nl'.IsNet d net)
    (hp : p < nl.size) (hinit : initial (nl'.type p) ≠ none) (hname : net.name = nl'.name p) :
    nl'.portOf d = some p := by
  cases hport : nl'.portOf d with
  | none =>
      obtain ⟨k, hk⟩ := hnet.numbered hport
      exact absurd (hname.symm.trans hk) (h.name_ne_net hc hp hinit k)
  | some port =>
      obtain ⟨hlt, hinit'⟩ := h.portOf_port hc hd hport
      have heq := (hnet.called port hport).symm.trans hname
      rw [h.port_injective hc hlt hp hinit' hinit heq]

/-- What lends an output its name drives it. -/
theorem Mapped.driver_of_out (h : Mapped clkIn nl nl') (hc : nl.Prepared clkIn)
    {d : NodeId × String} {p : NodeId} (hd : nl'.IsDriver d) (hport : nl'.portOf d = some p)
    (hu : u < nl.size) (htype : nl'.type p = .primaryOut) (hup : p ∈ nl'.sinks u) :
    d = (u, nl'.getTerm u p) := by
  rcases portOf_cases hport with ⟨hin, rfl⟩ | ⟨-, hsink, hterm⟩
  · rcases hin with hin | hin | hin <;> cases hin.symm.trans htype
  · have hsame : d.1 = u := h.source_unique hc (h.size ▸ hd.1) hu htype hsink hup
    exact Prod.ext hsame (by rw [← hterm, hsame])

/-! ## The nets of a mapped netlist -/

/-- One driver, one net: whatever netlist is mapped, as long as its connections
agree and its ports have their names, no driver meets a net that exists. -/
theorem technologyMapping_nets (nl mapped : Netlist) (nets : List Net) (o : MapOrder)
    (hmirrored : nl.graph.Mirrored) (hfresh : ∀ v, nl.size ≤ v → nl.graph.Fresh v)
    (hcontrol : ∀ v < nl.size, (nl.type v).isControl = false) (hnamed : nl.Named)
    (h : nl.technologyMapping o = some (mapped, nets)) :
    (mapped.drivers o).Nodup ∧
    (∀ source term, (source, term) ∈ mapped.drivers o ↔
      source < mapped.size ∧ ∃ sink ∈ mapped.sinks source, mapped.getTerm source sink = term) ∧
    (∀ done d rest, mapped.drivers o = done ++ d :: rest →
      ∀ net ∈ (mapped.netsAfter done).name2net, net.name ≠
        (mapped.netName (mapped.netsAfter done).netCnt d.1 (mapped.out2sinks d.1 d.2)).1) ∧
    nets.Perm (mapped.netsAfter (mapped.drivers o)).name2net ∧
    (nets.map (·.name)).Nodup ∧
    List.Forall₂ (fun d net => net.terms = mapped.pinOf d.1 d.2 ::
        ((mapped.sinks d.1).filter fun sink => decide (mapped.getTerm d.1 sink = d.2)).map
          fun sink => mapped.pinOf sink (mapped.getTerm sink d.1))
      (mapped.drivers o) (mapped.netsAfter (mapped.drivers o)).name2net := by
  simp only [technologyMapping, Option.bind_eq_bind, Option.bind_eq_some_iff, Option.pure_def,
    Option.some.injEq, Prod.mk.injEq] at h
  obtain ⟨mid, hmid, _, hmapped, rfl, rfl⟩ := h
  have hc := chooseCells_prepared hmirrored hfresh hcontrol hnamed hmid
  have ha := (hc.mapped hmapped).namesApart hc
  rename_i mapped
  have hdrivers := mapped.drivers_nodup o
  have hall : ∀ d ∈ mapped.drivers o, mapped.IsDriver d := fun _ => mem_drivers.mp
  have hperm : (mapped.makeNets o).Perm (mapped.netsAfter (mapped.drivers o)).name2net := by
    rw [mapped.makeNets_eq o]
    exact o.name2net.property _
  refine ⟨hdrivers, fun _ _ => mem_drivers, fun done d rest hsplit => ?_, hperm, ?_, ?_⟩
  · rw [hsplit] at hdrivers hall
    have hnew : d ∉ done := fun hin =>
      List.disjoint_of_nodup_append hdrivers hin List.mem_cons_self
    have hdone : ∀ d' ∈ done, mapped.IsDriver d' := fun d' hd' =>
      hall d' (List.mem_append_left _ hd')
    exact (made ha hdrivers.of_append_left hdone).fresh ha (hall d (by simp)) hdone hnew
  · exact (hperm.map _).nodup_iff.mpr (netsAfter_nodup ha hdrivers hall)
  · exact (made ha hdrivers hall).nets.imp fun _ _ hnet => hnet.terms

end Netlist

/-! An input, an inverter and an output. -/

def invertedInput : Netlist where
  layoutDimX := 1
  layoutDimY := 1
  size := 3
  node := fun
    | 0 => { name := "in0", type := .primaryIn, sinks := [1] }
    | 1 => { sources := [0], sinks := [2] }
    | 2 => { name := "out0", type := .primaryOut, sources := [1] }
    | _ => {}
  primIns := [0]
  primOuts := [2]
  fiDist := { xMax := 1 }
  fi2SequMasters := [[], []]
  fi2CombMasters := [[], [invCell]]
  master2ratio := fun _ => 1

/-- The maps are walked in the order in which they were filled. -/
def MapOrder.asFilled : MapOrder := ⟨fun _ => ⟨id, fun _ => .refl _⟩, ⟨id, fun _ => .refl _⟩⟩

def invertedMapped : Netlist × List Net :=
  (invertedInput.technologyMapping .asFilled).get (by decide +kernel)

theorem Netlist.technologyMapping_nets_inverted :
    (invertedMapped.2.map (·.name)).Nodup ∧
      (1, "ZN") ∈ invertedMapped.1.drivers .asFilled := by
  have hplain : ∀ v, (invertedInput.node v).Plain := by
    intro v
    rcases v with _ | _ | _ | v
    · exact ⟨rfl, by decide⟩
    · exact Node.plain_default.congr rfl
    · exact ⟨rfl, by decide⟩
    · exact Node.plain_default
  have hfresh : ∀ v, invertedInput.size ≤ v → invertedInput.graph.Fresh v := by
    intro v hv
    obtain ⟨k, rfl⟩ := Nat.exists_eq_add_of_le' hv
    exact ⟨rfl, rfl⟩
  have hnamed : invertedInput.Named := by
    refine ⟨hplain, fun v hv htype => ?_, fun v hv htype => ?_, by decide⟩
    · rcases v with _ | _ | _ | v <;> first | exact ⟨0, rfl, by decide⟩ | cases htype
    · rcases v with _ | _ | _ | v <;> first | exact ⟨0, rfl, by decide⟩ | cases htype
  obtain ⟨-, hdrivers, -, -, hnodup, -⟩ := Netlist.technologyMapping_nets invertedInput
    invertedMapped.1 invertedMapped.2 .asFilled
    (fun u v => by rcases u with _ | _ | _ | u <;> rcases v with _ | _ | _ | v <;> rfl)
    hfresh (by decide) hnamed (Option.some_get _).symm
  exact ⟨hnodup, (hdrivers 1 "ZN").mpr (by decide +kernel)⟩

end Artnetgen
