import ArtNetGen.PrimaryIO
import ArtNetGen.Generation

/-!
Names of instances. Every instance is called after its position among the nodes,
with a stem that tells how it was made; so no two nodes of a run share a name.
-/

namespace Artnetgen

namespace Netlist

/-- How `initialize`, `createMergeNode` and `insertSequentialNode` begin the
names of instances. -/
def instanceStems : List String := ["c", "merge", "s"]

/-- Instances are called after their positions. -/
def Numbered (nl : Netlist) : Prop :=
  ∀ v < nl.size, (nl.type v).IsInstance → ∃ stem ∈ instanceStems, nl.name v = stem ++ toString v

variable {nl nl' : Netlist}

/-! ## Initialization -/

theorem placeNode_name {b : BinId} {v : NodeId} (h : nl.placeNode b v = some nl') (w : NodeId) :
    nl'.name w = if w = v then "c" ++ toString v else nl.name w := by
  obtain ⟨_, _, -, -, rfl⟩ := placeNode_eq_some h
  unfold name
  by_cases hw : w = v
  · simp [hw, Node.setBbox]
  · simp [hw]

theorem placeBlocks_name {bs : List BinId} {avgNodeCnt initCellCnt : ℕ}
    (h : bs.foldlM (placeBlock avgNodeCnt initCellCnt) nl = some nl') {w : NodeId}
    (hw : w ∈ bs.flatMap (blockOf avgNodeCnt initCellCnt)) :
    nl'.name w = "c" ++ toString w := by
  have hblock : ∀ {b : BinId} {l : List NodeId} {nl nl' : Netlist},
      l.foldlM (fun nl j => nl.placeNode b j) nl = some nl' →
        w ∈ l ∨ nl.name w = "c" ++ toString w → nl'.name w = "c" ++ toString w := by
    intro b l nl nl' hrun
    refine Loop.relates (fun l nl nl' => w ∈ l ∨ nl.name w = "c" ++ toString w →
      nl'.name w = "c" ++ toString w) ?_ ?_ hrun
    · intro nl hnamed
      exact hnamed.resolve_left List.not_mem_nil
    · intro v rest nl mid nl' hplace hrest hnamed
      have hname := placeNode_name hplace w
      apply hrest
      by_cases hv : w = v
      · right
        rw [hname, if_pos hv, hv]
      · rw [List.mem_cons, or_iff_right hv] at hnamed
        rw [if_neg hv] at hname
        rwa [hname]
  refine Loop.relates (fun bs nl nl' => w ∈ bs.flatMap (blockOf avgNodeCnt initCellCnt) ∨
    nl.name w = "c" ++ toString w → nl'.name w = "c" ++ toString w) ?_ ?_ h (Or.inl hw)
  · intro nl hnamed
    exact hnamed.resolve_left List.not_mem_nil
  · intro i rest nl mid nl' hplace hrest hnamed
    simp only [placeBlock, Option.bind_eq_bind, Option.bind_eq_some_iff] at hplace
    obtain ⟨b, -, hplace⟩ := hplace
    rw [List.flatMap_cons, List.mem_append] at hnamed
    apply hrest
    rcases hnamed with (hin | hin) | hnamed
    · exact Or.inr (hblock hplace (Or.inl hin))
    · exact Or.inl hin
    · exact Or.inr (hblock hplace (Or.inr hnamed))

theorem initializeNetlist_name {ang : ArtNetGen} (h : initializeNetlist ang = some nl)
    {v : NodeId} (hv : v < nl.size) : nl.name v = "c" ++ toString v := by
  simp only [initializeNetlist] at h
  split at h
  · cases h
  generalize hdim : growLayout (ceilSqrt ang.instanceCnt.toNat)
    (ceilSqrt ang.instanceCnt.toNat) (1, 1) = dim at h
  obtain ⟨hposX, hposY⟩ : 0 < dim.1 ∧ 0 < dim.2 :=
    hdim ▸ growLayout_pos _ _ ⟨Nat.one_pos, Nat.one_pos⟩
  obtain ⟨dimX, dimY⟩ := dim
  simp only [Option.bind_eq_bind, Option.bind_eq_some_iff] at h
  obtain ⟨fiDist, -, foDist, -, bboxDist, -, avg, -, edgeDist, -, emptyBin, -, hplace⟩ := h
  apply placeBlocks_name hplace
  rw [flatMap_blockOf, min_eq_right (le_blocks (Nat.mul_pos hposX hposY)), List.mem_range]
  rwa [(placeBlocks_sameTables hplace).size] at hv

theorem setPrimaryIO_numbered {ang : ArtNetGen} (hinit : nl.Initialized)
    (hname : ∀ v < nl.size, nl.name v = "c" ++ toString v) (h : nl.setPrimaryIO ang = some nl') :
    nl'.Numbered := by
  have hsize := (setPrimaryIO_spec h).1.tables.size
  simp only [ setPrimaryIO, Option.bind_eq_bind, Option.bind_eq_some_iff, Option.pure_def,
    Option.some.injEq] at h
  obtain ⟨⟨nl1, primIns⟩, hins, ⟨nl2, primOuts⟩, houts, rfl⟩ := h
  obtain ⟨-, houts1, hstrip1, taken1, htaken1, htype1⟩ := takePins_takes hins
  dsimp only at houts1 hstrip1 htaken1 htype1
  rw [hinit.noPorts.1, List.nil_append] at htaken1
  rw [houts1, hinit.noPorts.2] at houts
  obtain ⟨-, -, hstrip2, taken2, htaken2, htype2⟩ := takePins_takes houts
  dsimp only at hstrip2 htaken2 htype2
  rw [List.nil_append] at htaken2
  subst htaken1 htaken2
  dsimp only at hsize ⊢
  intro v hv hinst
  rw [hsize] at hv
  rw [(nameAll_shape _ _ _).2, (nameAll_shape _ _ _).2] at hinst
  change (nl2.type v).IsInstance at hinst
  rw [htype2, htype1] at hinst
  -- A port is no instance.
  have hout : v ∉ primOuts := fun hin => by
    rw [if_pos hin] at hinst
    rcases hinst with hinst | hinst <;> cases hinst
  have hin : v ∉ primIns := fun hin => by
    rw [if_neg hout, if_pos hin] at hinst
    rcases hinst with hinst | hinst <;> cases hinst
  refine ⟨"c", List.mem_cons_self, ?_⟩
  rw [← hname v hv]
  have hstrip : (nl2.node v).strip = (nl.node v).strip := (hstrip2 v).trans (hstrip1 v)
  rcases nameAll_name "out" primOuts (nameAll "in" primIns { nl2 with primIns, primOuts }) v with
    ⟨i, hi, -⟩ | ⟨-, hnode⟩
  · exact absurd (List.mem_of_getElem? hi) hout
  · rcases nameAll_name "in" primIns { nl2 with primIns, primOuts } v with
      ⟨i, hi, -⟩ | ⟨-, hnode'⟩
    · exact absurd (List.mem_of_getElem? hi) hin
    · apply Node.name_of_strip
      rw [hnode, hnode', hstrip]

/-! ## Edges and rework -/

theorem Numbered.congr (h : nl.Numbered) (hsize : nl'.size = nl.size)
    (hstrip : ∀ v < nl.size, (nl'.node v).strip = (nl.node v).strip)
    (htype : ∀ v < nl.size, (nl'.type v).IsInstance → (nl.type v).IsInstance) : nl'.Numbered := by
  intro v hv hinst
  rw [hsize] at hv
  obtain ⟨stem, hstem, hname⟩ := h v hv (htype v hv hinst)
  exact ⟨stem, hstem, (Node.name_of_strip (hstrip v hv)).trans hname⟩

theorem Numbered.connected {src snk : NodeId} (h : nl.Numbered) (hc : Connected nl nl' src snk) :
    nl'.Numbered := by
  refine h.congr hc.size (fun v _ => ?_) fun v _ hinst => hc.type ▸ hinst
  rw [hc.node, addEdge, addSource_strip, addSink_strip]

/-- Names survive the edits that follow the making of a node. -/
theorem createNode_name {t : NodeType} {b : BinId} {name : String} {lx ly ux uy : ℕ}
    (h : nl.createNode t b name lx ly ux uy = some nl') :
    nl'.size = nl.size + 1 ∧ nl'.name nl.size = name := by
  have hadded := addNode_becomes h
  have hsize : nl'.size = nl.size + 1 := hadded.size
  refine ⟨hsize, ?_⟩
  rw [Netlist.name, Node.name_of_strip (hadded.strip nl.size (Nat.lt_succ_self nl.size))]
  simp [setName, modify_node]

theorem createMergeNodeAt_name {b : BinId} {targets : List NodeId} {front : Bool} {n : NodeId}
    (h : nl.createMergeNodeAt b targets front = some (nl', n)) :
    nl'.name nl.size = "merge" ++ toString nl.size := by
  simp only [createMergeNodeAt, Option.bind_eq_bind, Option.bind_eq_some_iff, Option.pure_def,
    Option.some.injEq, Prod.mk.injEq] at h
  obtain ⟨nl1, hnl1, nl2, hnl2, rfl, rfl⟩ := h
  obtain ⟨hsize, hname⟩ := createNode_name hnl1
  have hmerge := (nl1.rewired_merge nl.size targets front).becomes.stays (updates_stays hnl2)
  rw [← hname]
  exact Node.name_of_strip (hmerge.strip nl.size (hsize ▸ Nat.lt_succ_self nl.size))

theorem insertSequentialNode_back_name {target : NodeId}
    (h : nl.insertSequentialNode target false = some nl') :
    nl'.name nl.size = "s" ++ toString nl.size := by
  simp only [insertSequentialNode, Option.bind_eq_bind, Option.bind_eq_some_iff,
    Bool.false_eq_true, if_false, Option.some.injEq] at h
  obtain ⟨nl1, hnl1, nl2, rfl, nl3, hnl3, hnl'⟩ := h
  obtain ⟨hsize, hname⟩ := createNode_name hnl1
  have hinsert := (nl1.rewired_insertBack nl.size target).becomes.stays
    ((update_stays hnl3).stays (update_stays hnl'))
  rw [← hname]
  exact Node.name_of_strip (hinsert.strip nl.size (hsize ▸ Nat.lt_succ_self nl.size))

theorem Replaced.numbered {front : Bool} {targets : List NodeId}
    (h : Replaced nl nl' front targets) (hn : nl.Numbered)
    (hnew : ∃ stem ∈ instanceStems, nl'.name nl.size = stem ++ toString nl.size) :
    nl'.Numbered := by
  obtain ⟨_, _, -, -, hbecomes⟩ := h.becomes
  intro v hv hinst
  rw [hbecomes.size, Nat.lt_succ_iff_lt_or_eq] at hv
  rcases hv with hv | rfl
  · rw [hbecomes.type, retyped, if_neg hv.ne] at hinst
    have hold : (nl.type v).IsInstance := by
      by_cases hin : v ∈ targets
      · exact Or.inr (h.sequential v hin)
      · rwa [if_neg hin] at hinst
    obtain ⟨stem, hstem, hname⟩ := hn v hv hold
    exact ⟨stem, hstem, (Node.name_of_strip (hbecomes.strip v hv)).trans hname⟩
  · exact hnew

theorem Rework.numbered (h : Rework nl nl') (hs : nl.Sound) (hn : nl.Numbered) :
    nl'.Numbered := by
  cases h with
  | @cut v hlt hcomb =>
      refine hn.congr rfl (fun w _ => setType_strip nl v _ w) fun w _ hinst => ?_
      rw [setType_type] at hinst
      by_cases hw : w = v
      · rw [hw]
        exact Or.inl hcomb
      · rwa [Function.update_of_ne hw] at hinst
  | merge hne hlt1 hlt2 hseq1 hseq2 h =>
      refine (mergePair_replaced hs hne hlt1 hlt2 hseq1 hseq2 h).2.numbered hn
        ⟨"merge", by simp [instanceStems], ?_⟩
      obtain ⟨nl1, hnl1, rfl⟩ := mergePair_eq_some h
      rw [← createMergeNodeAt_name hnl1]
      apply Node.name_of_strip
      rw [setType_strip, setType_strip]
  | @split v _ hlt hseq h =>
      refine (splitNode_replaced hs hlt hseq h).numbered hn ⟨"s", by simp [instanceStems], ?_⟩
      unfold splitNode at h
      have hsize : (nl.setType v .combinational).size = nl.size := rfl
      rw [← hsize]
      exact insertSequentialNode_back_name h

/-! ## Outputs -/

/-- An output is driven through its one terminal. -/
theorem Mapped.getTerm_output {mid : Netlist} {clkIn u v : NodeId} (h : Mapped clkIn mid nl')
    (hc : mid.Chosen clkIn) (hu : u < nl'.size) (htype : nl'.type v = .primaryOut)
    (hv : v ∈ nl'.sinks u) : nl'.getTerm v u = "PIN" := by
  obtain ⟨hlt, hsource⟩ := h.sinks_of_out hc (h.size ▸ hu) hv
  have hout : (mid.node v).type = .primaryOut :=
    (h.same hc (hc.prepared.lt_size hlt)).1.symm.trans htype
  have hsinks : mid.sinks v = [] := (hc.ported.output v hout).1
  have hmem : (u, nl'.getTerm v u) ∈ mid.inputs v := by
    apply h.getTerm_source hc (hsource htype)
    rw [hsinks]
    exact List.not_mem_nil
  have hpin := List.mem_map_of_mem (f := Prod.snd) hmem
  rw [map_snd_inputs (h.node v hlt).1, Node.pins, hout] at hpin
  simpa using hpin

end Netlist

/-! ## Runs -/

namespace Generation

open Netlist

variable {addr : NodeId ↪ ℕ} {ang : ArtNetGen} (g : Generation addr ang)

theorem numbered_finished : g.finished.Numbered := by
  apply g.holds
  · intro nl nl' hnl hnl'
    exact setPrimaryIO_numbered (initializeNetlist_spec hnl)
      (fun v hv => initializeNetlist_name hnl hv) hnl'
  · intro nl nl' src snk hnumbered hconnected
    exact hnumbered.connected hconnected
  · intro nl nl' hnumbered hequipped
    unfold Equipped at hequipped
    rw [hequipped]
    exact hnumbered
  · intro nl nl' hnumbered hsound hrework
    exact hrework.numbered hsound hnumbered

/-- The instances of the mapped netlist. -/
theorem numbered : g.mapped.Numbered := by
  intro v hv hinst
  obtain ⟨hlt, htype⟩ := g.instance_of_mapped hv hinst
  obtain ⟨stem, hstem, hname⟩ := g.numbered_finished v hlt (htype ▸ hinst)
  obtain ⟨mid, hmid, hchosen, hmapped, -⟩ := g.chosen
  obtain ⟨b, hcontrols⟩ := chooseCells_controls hmid
  obtain ⟨_, hold⟩ := hcontrols.old_of_lt hlt
  refine ⟨stem, hstem, ?_⟩
  rw [(hmapped.same hchosen (hmapped.size ▸ hv)).2.1, Netlist.name, hold]
  exact hname

variable {g}

/-- The stems of ports. -/
def portStems : List String := ["in", "out", "clk", "rst"]

theorem instanceStems_letters :
    ∀ stem ∈ instanceStems, ∀ c ∈ stem.toList, c.isDigit = false := by
  simp [instanceStems]

theorem stems_apart : ∀ stem ∈ instanceStems, ∀ stem' ∈ "net" :: portStems,
    stem.toList ≠ stem'.toList := by
  simp [instanceStems, portStems]

theorem letters_of_instance {v : NodeId} (hv : v < g.mapped.size)
    (hinst : (g.mapped.type v).IsInstance) :
    ∃ stem ∈ instanceStems, Names.letters (g.mapped.name v) = stem.toList := by
  obtain ⟨stem, hstem, hname⟩ := g.numbered v hv hinst
  exact ⟨stem, hstem, hname ▸ Names.letters_numbered (instanceStems_letters stem hstem) v⟩

theorem name_of_port {v : NodeId} (hv : v < g.mapped.size)
    (hport : ¬ (g.mapped.type v).IsInstance) :
    (∃ stem ∈ ["in", "out"], ∃ i : ℕ, g.mapped.name v = stem ++ toString i) ∨
      g.mapped.name v ∈ ["clk", "rst"] := by
  obtain ⟨mid, -, hchosen, hmapped, -⟩ := g.chosen
  have hvmid : v < mid.size := hmapped.size ▸ hv
  obtain ⟨htype, hname, -⟩ := hmapped.same hchosen hvmid
  rw [htype] at hport
  rw [hname]
  cases ht : mid.type v with
  | combinational => exact absurd (Or.inl ht) hport
  | sequential => exact absurd (Or.inr ht) hport
  | primaryIn =>
      obtain ⟨i, -, hi⟩ := hchosen.named.ins v hvmid ht
      exact Or.inl ⟨"in", List.mem_cons_self, i, hi⟩
  | primaryOut =>
      obtain ⟨i, -, hi⟩ := hchosen.named.outs v hvmid ht
      exact Or.inl ⟨"out", by simp, i, hi⟩
  | clockIn =>
      right
      rw [hchosen.prepared.clk_of_type hvmid ht, hchosen.clk.2]
      exact List.mem_cons_self
  | resetIn =>
      right
      rw [hchosen.prepared.rst_of_type hvmid ht, hchosen.rst.2]
      simp

theorem letters_of_port {v : NodeId} (hv : v < g.mapped.size)
    (hport : ¬ (g.mapped.type v).IsInstance) :
    ∃ stem ∈ portStems, Names.letters (g.mapped.name v) = stem.toList := by
  have hstems : ∀ stem ∈ ["in", "out"], ∀ c ∈ stem.toList, c.isDigit = false := by simp
  rcases name_of_port hv hport with ⟨stem, hstem, i, hname⟩ | hcontrol
  · refine ⟨stem, List.mem_append_left ["clk", "rst"] hstem, ?_⟩
    rw [hname]
    exact Names.letters_numbered (hstems stem hstem) i
  · have hletters : ∀ name ∈ ["clk", "rst"], Names.letters name = name.toList := by
      decide +kernel
    exact ⟨g.mapped.name v, List.mem_append_right ["in", "out"] hcontrol, hletters _ hcontrol⟩

theorem instance_ne_port {u v : NodeId} (hu : u < g.mapped.size) (hv : v < g.mapped.size)
    (hinst : (g.mapped.type u).IsInstance) (hport : ¬ (g.mapped.type v).IsInstance) :
    g.mapped.name u ≠ g.mapped.name v := by
  intro hname
  obtain ⟨stem, hstem, hletters⟩ := letters_of_instance hu hinst
  obtain ⟨stem', hstem', hletters'⟩ := letters_of_port hv hport
  apply stems_apart stem hstem stem' (List.mem_cons_of_mem _ hstem')
  rw [← hletters, ← hletters', hname]

theorem name_ne_net {v : NodeId} (hv : v < g.mapped.size) (k : ℕ) :
    g.mapped.name v ≠ "net" ++ toString k := by
  intro hname
  have hnet : Names.letters (g.mapped.name v) = "net".toList :=
    hname ▸ Names.letters_numbered (by simp) k
  by_cases hinst : (g.mapped.type v).IsInstance
  · obtain ⟨stem, hstem, hletters⟩ := letters_of_instance hv hinst
    exact stems_apart stem hstem "net" List.mem_cons_self (hletters.symm.trans hnet)
  · obtain ⟨stem, hstem, hletters⟩ := letters_of_port hv hinst
    have hapart : ∀ stem ∈ portStems, stem.toList ≠ "net".toList := by
      simp [portStems]
    exact hapart stem hstem (hletters.symm.trans hnet)

theorem name_injective {u v : NodeId} (hu : u < g.mapped.size) (hv : v < g.mapped.size)
    (hname : g.mapped.name u = g.mapped.name v) : u = v := by
  by_cases hinst : (g.mapped.type u).IsInstance
  · by_cases hinst' : (g.mapped.type v).IsInstance
    · obtain ⟨stem, hstem, hu'⟩ := g.numbered u hu hinst
      obtain ⟨stem', hstem', hv'⟩ := g.numbered v hv hinst'
      rw [hu', hv'] at hname
      exact (Names.numbered_inj (instanceStems_letters stem hstem)
        (instanceStems_letters stem' hstem') hname).2
    · exact absurd hname (instance_ne_port hu hv hinst hinst')
  · by_cases hinst' : (g.mapped.type v).IsInstance
    · exact absurd hname.symm (instance_ne_port hv hu hinst' hinst)
    · obtain ⟨mid, -, hchosen, hmapped, -⟩ := g.chosen
      have hinitial : ∀ w, ¬ (g.mapped.type w).IsInstance → initial (g.mapped.type w) ≠ none := by
        intro w hw hnone
        cases ht : g.mapped.type w <;> rw [ht] at hnone hw
        case combinational => exact hw (Or.inl rfl)
        case sequential => exact hw (Or.inr rfl)
        all_goals cases hnone
      exact hmapped.port_injective hchosen (hmapped.size ▸ hu) (hmapped.size ▸ hv)
        (hinitial u hinst) (hinitial v hinst') hname

theorem namesApart : g.mapped.NamesApart := by
  obtain ⟨mid, -, hchosen, hmapped, -⟩ := g.chosen
  exact hmapped.namesApart hchosen

theorem nets_nodup : (g.nets.map (·.name)).Nodup := by
  obtain ⟨mid, -, -, -, hnets⟩ := g.chosen
  rw [hnets, makeNets_eq, ((g.order.name2net.property _).map _).nodup_iff]
  exact netsAfter_nodup namesApart (drivers_nodup _ _) fun _ => mem_drivers.mp

theorem driver_of_net {net : Net} (h : net ∈ g.nets) :
    ∃ d, g.mapped.IsDriver d ∧ g.mapped.IsNet d net := by
  obtain ⟨mid, -, -, -, hnets⟩ := g.chosen
  rw [hnets] at h
  exact mem_makeNets namesApart h

theorem net_of_driver {d : NodeId × String} (hd : g.mapped.IsDriver d) :
    ∃ net ∈ g.nets, g.mapped.IsNet d net := by
  obtain ⟨mid, -, -, -, hnets⟩ := g.chosen
  rw [hnets]
  exact exists_net namesApart hd g.order

variable (g)

/-- In the netlist of every run no two nodes share a name and no two nets do, and
a net is called like a node only if the node is a port on that net. -/
theorem identifiers_distinct :
    (∀ u < g.mapped.size, ∀ v < g.mapped.size, g.mapped.name u = g.mapped.name v → u = v) ∧
      (g.nets.map (·.name)).Nodup ∧
      ∀ net ∈ g.nets, ∀ v < g.mapped.size, g.mapped.name v = net.name →
        ¬ (g.mapped.type v).IsInstance ∧ (v, g.mapped.name v) ∈ net.terms := by
  refine ⟨fun u hu v hv => name_injective hu hv, nets_nodup, fun net hnet v hv hname => ?_⟩
  obtain ⟨d, hd, hisNet⟩ := driver_of_net hnet
  obtain ⟨mid, -, hchosen, hmapped, -⟩ := g.chosen
  cases hport : g.mapped.portOf d with
  | none =>
      obtain ⟨k, hk⟩ := hisNet.numbered hport
      exact absurd (hname.trans hk) (name_ne_net hv k)
  | some port =>
      obtain ⟨hlt, hinitial⟩ := hmapped.portOf_port hchosen hd hport
      obtain rfl := name_injective hv (hmapped.size ▸ hlt) (hname.trans (hisNet.called port hport))
      refine ⟨fun hinst => hinitial ?_, ?_⟩
      · rcases hinst with hinst | hinst <;> rw [hinst] <;> rfl
      · rw [hisNet.terms, List.mem_cons]
        rcases portOf_cases hport with ⟨hin, rfl⟩ | ⟨hout, hsink, hterm⟩
        · left
          obtain ⟨hdlt, w, hw, hterm⟩ := hd
          rw [← hterm, hmapped.getTerm_input hchosen (hmapped.size ▸ hdlt) hin hw, pinOf,
            if_pos rfl]
        · right
          refine mem_sinkPins.mpr ⟨v, hsink, hterm, ?_⟩
          rw [hmapped.getTerm_output hchosen hd.1 hout hsink, pinOf, if_pos rfl]

end Generation

theorem Generation.identifiers_distinct_sparing :
    sparing.mapped.name 0 = sparing.mapped.name 3 → (0 : ℕ) = 3 :=
  sparing.identifiers_distinct.1 0 (by decide +kernel) 3 (by decide +kernel)

end Artnetgen
