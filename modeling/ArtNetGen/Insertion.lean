import ArtNetGen.Upkeep

/-!
What `insertSequentialNode` does to the indices and the boxes. In front of a
node everything that changes stays in the node's bin; behind it the register
takes over sinks that its box does not take in.
-/

namespace Artnetgen

namespace Netlist

variable {nl nl' : Netlist} {b : BinId}

/-! ## A register behind a node -/

section Insert

variable {target : NodeId}

theorem refiled_indexed {l : List NodeId} {fi fo : NodeId → ℕ}
    (h : nl'.Shelved (refiled l nl'.numFanins fi) (refiled l nl'.numFanouts fo))
    (hsame : ∀ v < nl'.size, v ∉ l → fi v = nl'.numFanins v ∧ fo v = nl'.numFanouts v) :
    nl'.Indexed := by
  apply h.indexed_iff.mpr
  intro v hv
  by_cases hin : v ∈ l
  · simp only [refiled, if_pos hin, and_self]
  · simp only [refiled, if_neg hin]
    exact hsame v hv hin

/-- One register for one target leaves all other numbers as they are. -/
theorem insertSequentialNode_back_indexed (hsimple : nl.graph.Simple)
    (hfresh : ∀ v, nl.size ≤ v → nl.graph.Fresh v) (ht : nl.Tidy) (hlt : target < nl.size)
    (h : nl.insertSequentialNode target false = some nl') : nl'.Placed ∧ nl'.Indexed := by
  have hbecomes := insertSequentialNode_back_becomes (hfresh _ le_rfl) h
  have hgraph := hbecomes.graph
  obtain ⟨-, hshelved⟩ := insertSequentialNode_back_shelved ⟨ht.placed, ht.indexed⟩ hlt h
  have hnot : nl.size ∉ [target] := by simp [hlt.ne']
  have hnone : nl.size ∉ nl.graph.sinks target :=
    (hfresh _ le_rfl).not_mem_sinks hsimple.mirrored target
  refine ⟨hshelved.placed, refiled_indexed hshelved fun v _ hout => ?_⟩
  obtain ⟨hvn, hvt⟩ : v ≠ nl.size ∧ v ≠ target := by simpa using hout
  have hsources := Adjacency.length_spliceBack_single hsimple (hfresh _ le_rfl)
    (hsimple.sinks_nodup target) hnone hnot hvn Iff.rfl
  have hsinks := nl.graph.spliceBack_sinks (nl.sinks target) [target] nl.size v
    (hfresh _ le_rfl).2 (List.nodup_singleton target) hnot
  rw [if_neg hvn, if_neg (by simpa using hvt), ← hgraph] at hsinks
  change ((nl.graph.spliceBack (nl.sinks target) [target] nl.size).sources v).length =
    nl.numFanins v at hsources
  rw [← hgraph] at hsources
  exact ⟨hsources.symm, (congrArg List.length hsinks).symm⟩

theorem insertSequentialNode_back_boxed_iff (hsimple : nl.graph.Simple)
    (hfresh : ∀ v, nl.size ≤ v → nl.graph.Fresh v) (ht : nl.Tidy) (hlt : target < nl.size)
    (h : nl.insertSequentialNode target false = some nl') :
    (∀ v < nl'.size, nl'.BoxedAt v) ↔ ∀ w ∈ nl.sinks target, nl.binOf w = nl.binOf target := by
  have hbecomes := insertSequentialNode_back_becomes (hfresh _ le_rfl) h
  simp only [insertSequentialNode, Option.bind_eq_bind, Option.bind_eq_some_iff,
    Bool.false_eq_true, if_false, Option.some.injEq] at h
  obtain ⟨nl1, hnl1, nl2, rfl, nl3, hnl3, hnl'⟩ := h
  have hgrows : Grows nl1 nl' fun v w => v ∈ [target] ∧ w = nl.size :=
    (((nl1.grows_insertBack nl.size target).trans (grows_update hnl3)).trans
      (grows_update hnl')).congr (by simp)
  obtain ⟨hnew, hold⟩ := hgrows.hulls hnl1 hsimple (hfresh _ le_rfl) ht.boxed
  have hnone : {w | nl.size ∈ [target] ∧ w = nl.size} ∪ {nl.size} = {nl.size} := by
    simp [hlt.ne']
  rw [hnone] at hnew
  exact hbecomes.boxed_back_iff hsimple hfresh ht.placed (ht.placed.inGrid target hlt) (by simp)
    (List.nodup_singleton target) (by simpa using hlt) hnew hold

/-! ## A register in front of a node -/

/-- The end of `insertFront`: the register becomes the only source. -/
def takeOver (nl : Netlist) (seqn target : NodeId) : Netlist :=
  ((nl.addSink seqn target).removeAllSources target).addSource target seqn

/-- The gate of `insertFront` with its connections, before it is filed. -/
def wireGate (nl : Netlist) (seqn target : NodeId) : Netlist :=
  let combn := nl.size
  let (x, y) := (nl.x target, nl.y target)
  let nl1 := ((nl.newNode.setType combn .combinational).setBin combn (nl.binOf target)).setBbox
    combn x y x y
  ((nl1.addSources combn (nl.sources target)).addSink combn seqn).addSource seqn combn

theorem insertFront_eq (nl : Netlist) (seqn target : NodeId) :
    nl.insertFront seqn target = if (nl.sources target).length > 1 then
      ((nl.wireGate seqn target).addNode (nl.binOf target) nl.size).map
        fun nl => nl.takeOver seqn target
    else some ((nl.addSources seqn (nl.sources target)).takeOver seqn target) := rfl

/-- What is known of the gate when it is filed. -/
theorem wireGate_spec (nl : Netlist) (seqn target : NodeId) :
    (nl.wireGate seqn target).binOf = Function.update nl.binOf nl.size (nl.binOf target) ∧
      Keeps nl (nl.wireGate seqn target) ∧ (nl.wireGate seqn target).size = nl.size + 1 ∧
      (nl.wireGate seqn target).bin = nl.bin ∧
      (nl.wireGate seqn target).graph =
        ((nl.newNode.graph.addSources nl.size (nl.sources target)).addSink nl.size
          seqn).addSource seqn nl.size := by
  have hplaced := nl.newNode_placed .combinational (nl.binOf target) (nl.x target) (nl.y target)
    (nl.x target) (nl.y target)
  have hwire : Rewired (((nl.newNode.setType nl.size .combinational).setBin nl.size
      (nl.binOf target)).setBbox nl.size (nl.x target) (nl.y target) (nl.x target) (nl.y target))
      (nl.wireGate seqn target) :=
    ((rewired_addSources _ nl.size (nl.sources target)).trans
      (rewired_addSink _ nl.size seqn)).trans (rewired_addSource _ seqn nl.size)
  refine ⟨hwire.binOf.trans hplaced.binOf, hplaced.keeps.trans hwire.keeps,
    hwire.size.trans hplaced.size, hwire.bin, ?_⟩
  unfold wireGate
  rw [addSource_graph, addSink_graph, addSources_graph, hplaced.graph]

theorem rewired_takeOver (nl : Netlist) (seqn target : NodeId) :
    Rewired nl (nl.takeOver seqn target) :=
  (nl.rewired_addSink seqn target).trans
    ((rewired_removeAllSources _ target).trans (rewired_addSource _ target seqn))

theorem grows_takeOver (nl : Netlist) (seqn target : NodeId) :
    Grows nl (nl.takeOver seqn target) fun v w => v = seqn ∧ w = target :=
  (((nl.grows_addSink seqn target).trans (grows_removeAllSources _ target)).trans
    (grows_addSource _ target seqn)).congr (by simp)

/-- A single source is handed on to the register. -/
theorem Tidy.insertFront_few (ht : nl.Tidy) (hsimple : nl.graph.Simple)
    (hfresh : ∀ v, nl.size ≤ v → nl.graph.Fresh v) (hlt : target < nl.size)
    (hfew : (nl.sources target).length ≤ 1)
    (h : nl.insertSequentialNode target true = some nl') : nl'.Tidy := by
  obtain ⟨-, hbecomes⟩ | ⟨hmany, -⟩ := insertSequentialNode_front_becomes hlt hfresh h
  swap
  · exact absurd hmany (Nat.not_lt.mpr hfew)
  have hgraph := hbecomes.graph
  simp only [insertSequentialNode, Option.bind_eq_bind, Option.bind_eq_some_iff, if_true] at h
  obtain ⟨nl1, hnl1, nl2, hnl2, nl3, hnl3, hnl'⟩ := h
  have hcreate := createNode_becomes (hfresh _ le_rfl) (s_ne_pin _) hnl1
  have hsources : nl1.sources = nl.sources := congrArg Adjacency.sources hcreate.graph
  rw [insertFront_eq, hsources, if_neg (Nat.not_lt.mpr hfew), Option.some.injEq] at hnl2
  subst hnl2
  have hrewired := (nl1.rewired_addSources nl.size (nl.sources target)).trans
    (rewired_takeOver _ nl.size target)
  have hsize := hrewired.size.trans hcreate.size
  have hshelved := (Shelved.createNode ⟨ht.placed, ht.indexed⟩ (ht.placed.inGrid target hlt)
    hnl1).rewired hrewired
  obtain ⟨-, -, hfinal⟩ := hshelved.updatePair (hsize ▸ Nat.lt_succ_self _)
    (hsize ▸ Nat.lt_succ_of_lt hlt) hnl3 hnl'
  have hnew : nl.size ∈ [nl.size, target] := List.mem_cons_self
  rw [refiled_of_mem hnew, refiled_of_mem hnew] at hfinal
  have hnot : nl.size ∉ [target] := by simp [hlt.ne']
  have hnone : nl.size ∉ nl.sources target :=
    (hfresh _ le_rfl).not_mem_sources hsimple.mirrored target
  have hc : (nl.sources target).Nodup := hsimple.sources_nodup target
  refine ⟨hfinal.placed, refiled_indexed hfinal fun v _ hout => ?_, ?_⟩
  · obtain ⟨hvn, hvt⟩ : v ≠ nl.size ∧ v ≠ target := by simpa using hout
    have hfanins := nl.graph.spliceFront_sources (nl.sources target) [target] nl.size v
      (hfresh _ le_rfl).1 (List.nodup_singleton target) hnot
    have hfanouts := Adjacency.length_spliceFront_single hsimple (hfresh _ le_rfl) hc hnone hnot
      hvn Iff.rfl
    rw [if_neg hvn, if_neg (by simpa using hvt), ← hgraph] at hfanins
    rw [← hgraph] at hfanouts
    exact ⟨(congrArg List.length hfanins).symm, hfanouts.symm⟩
  · have hgrows : Grows nl1 nl' fun v w => (v = nl.size ∧ w ∈ [target]) ∨
        (v ∈ nl.sources target ∧ w = nl.size) :=
      ((((nl1.grows_addSources nl.size (nl.sources target)).trans
        (grows_takeOver _ nl.size target)).trans (grows_update hnl3)).trans
        (grows_update hnl')).congr (by simp)
    obtain ⟨hnewHull, hold⟩ := hgrows.hulls hnl1 hsimple (hfresh _ le_rfl) ht.boxed
    rw [hbecomes.boxed_front_iff hsimple hfresh (by simp) hc (List.nodup_singleton target)
      (by simpa using hlt) (by simpa [hnone] using hnewHull)
      fun v hv => by simpa [hv.ne] using hold v hv]
    -- The register is where its target is.
    intro t hmem u hu
    obtain rfl := List.mem_singleton.mp hmem
    obtain ⟨hx, hy⟩ := hbecomes.old_x hlt
    obtain ⟨hnx, hny⟩ := hbecomes.new_x
    refine .of_same (mem_net.mpr (Or.inr ((hbecomes.front_sinks hsimple (hfresh _ le_rfl) hc hnone
      (List.nodup_singleton t) hnot u nl.size).mpr ?_))) (hnx.trans hx.symm) (hny.trans hy.symm)
    rwa [if_pos rfl]

/-- The gate ends up boxed at its bin, the register takes in its target, and the
sources of the target take in the gate. -/
theorem insertFront_many_hull {seqn : NodeId} (hmany : 1 < (nl.sources target).length)
    (hseqn : seqn ≠ nl.size) (h : nl.insertFront seqn target = some nl') :
    nl'.HullAt {nl.size} nl.size ∧ ∀ v ≠ nl.size, ∀ s, nl.size ∉ s → nl.HullAt s v →
      nl'.HullAt ({w | (v = seqn ∧ w = target) ∨ (v ∈ nl.sources target ∧ w = nl.size)} ∪ s) v := by
  rw [insertFront_eq, if_pos hmany] at h
  obtain ⟨nl1, hnl1, rfl⟩ := Option.map_eq_some_iff.mp h
  have hgate : Grows (((nl.newNode.setType nl.size .combinational).setBin nl.size
      (nl.binOf target)).setBbox nl.size (nl.x target) (nl.y target) (nl.x target) (nl.y target))
      (nl.wireGate seqn target) fun v w =>
        (v = nl.size ∧ w = seqn) ∨ (v ∈ nl.sources target ∧ w = nl.size) :=
    (((grows_addSources _ nl.size (nl.sources target)).trans
      (grows_addSink _ nl.size seqn)).trans (grows_addSource _ seqn nl.size)).congr (by simp)
  have hplace : (nl.wireGate seqn target).binOf nl.size = nl.binOf target := by
    rw [(nl.wireGate_spec seqn target).1, Function.update_self]
  obtain ⟨hself, hothers⟩ := addNode_hull hnl1 hplace
  have htake := nl1.grows_takeOver seqn target
  constructor
  · have hhull := htake _ _ hself
    simpa [hseqn.symm] using hhull
  · intro v hv s hs hhull
    have hwired := hgate v s (nl.newNode_hull _ _ _ _ _ _ hv hs hhull)
    have hend := htake v _ (hothers v hv _ hwired)
    rw [← Set.union_assoc] at hend
    simp only [hv, false_and, false_or] at hend
    exact hend

/-- Taking a target over leaves the lists of a node elsewhere alone. -/
theorem takeOver_lists {seqn v : NodeId} (hvt : v ≠ target) (hvs : v ≠ seqn)
    (hnone : v ∉ nl.sources target) :
    (nl.takeOver seqn target).numFanins v = nl.numFanins v ∧
      (nl.takeOver seqn target).numFanouts v = nl.numFanouts v := by
  have hgraph : (nl.takeOver seqn target).graph =
      ((nl.graph.addSink seqn target).removeAllSources target).addSource target seqn := by
    unfold takeOver
    rw [addSource_graph, removeAllSources_graph, addSink_graph]
  have hcount : (((nl.graph.addSink seqn target).sources target).count v) = 0 :=
    List.count_eq_zero_of_not_mem hnone
  have hsources : (nl.takeOver seqn target).sources v = nl.sources v := by
    have hlist := congrFun (congrArg Adjacency.sources hgraph) v
    rw [Adjacency.addSource_sources, if_neg hvt, Adjacency.removeAllSources_sources,
      if_neg hvt] at hlist
    exact hlist
  have hsinks : (nl.takeOver seqn target).sinks v = nl.sinks v := by
    have hlist := congrFun (congrArg Adjacency.sinks hgraph) v
    rw [Adjacency.addSource_sinks, Adjacency.removeAllSources_sinks, hcount,
      Function.iterate_zero_apply, Adjacency.addSink_sinks, if_neg hvs] at hlist
    exact hlist
  exact ⟨congrArg List.length hsources, congrArg List.length hsinks⟩

/-- The gate is filed under the connections that it keeps. -/
theorem wireGate_lists {seqn : NodeId} (hfresh : nl.graph.Fresh nl.size)
    (hmirrored : nl.graph.Mirrored) (hlt : target < nl.size) (hseqn : seqn < nl.size)
    (hne : target ≠ seqn) (hadd : (nl.wireGate seqn target).addNode b nl.size = some nl') :
    (nl'.takeOver seqn target).numFanins nl.size =
        (nl.wireGate seqn target).numFanins nl.size ∧
      (nl'.takeOver seqn target).numFanouts nl.size =
        (nl.wireGate seqn target).numFanouts nl.size := by
  obtain ⟨-, -, -, -, hwire⟩ := nl.wireGate_spec seqn target
  have hgraph := (addNode_becomes hadd).graph
  have hsources : nl'.sources target = nl.sources target := by
    have hlist := congrFun (congrArg Adjacency.sources (hgraph.trans hwire)) target
    rw [Adjacency.addSource_sources, if_neg hne, Adjacency.addSink_sources,
      Adjacency.addSources_sources, if_neg hlt.ne, newNode_graph hfresh] at hlist
    exact hlist
  have hnone : nl.size ∉ nl'.sources target := by
    rw [hsources]
    exact hfresh.not_mem_sources hmirrored target
  have htake := takeOver_lists hlt.ne' hseqn.ne' hnone
  rwa [numFanins_congr hgraph, numFanouts_congr hgraph] at htake

/-- A gate collects the sources; it is filed with all its connections. -/
theorem insertFront_many_indexed (ht : nl.Tidy) (hsimple : nl.graph.Simple)
    (hfresh : ∀ v, nl.size ≤ v → nl.graph.Fresh v) (hlt : target < nl.size)
    (hmany : 1 < (nl.sources target).length)
    (h : nl.insertSequentialNode target true = some nl') : nl'.Placed ∧ nl'.Indexed := by
  obtain ⟨hfew, -⟩ | ⟨-, hbecomes⟩ := insertSequentialNode_front_becomes hlt hfresh h
  · exact absurd hmany (Nat.not_lt.mpr hfew)
  have hgraph := hbecomes.graph
  have hnode := hfresh nl.size le_rfl
  have hgate := hfresh (nl.size + 1) (Nat.le_succ _)
  have hne : nl.size + 1 ≠ nl.size := Nat.succ_ne_self _
  have htg : target ≠ nl.size + 1 := (Nat.lt_succ_of_lt hlt).ne
  simp only [insertSequentialNode, Option.bind_eq_bind, Option.bind_eq_some_iff, if_true] at h
  obtain ⟨nl1, hnl1, nl2, hnl2, nl3, hnl3, hnl'⟩ := h
  have hcreate := createNode_becomes hnode (s_ne_pin _) hnl1
  have hsources : nl1.sources = nl.sources := congrArg Adjacency.sources hcreate.graph
  have hlt1 : target < nl1.size := hcreate.size ▸ Nat.lt_succ_of_lt hlt
  have hnode1 : nl.size < nl1.size := hcreate.size ▸ Nat.lt_succ_self _
  rw [insertFront_eq, hsources, if_pos hmany] at hnl2
  obtain ⟨nl1', hnl1', rfl⟩ := Option.map_eq_some_iff.mp hnl2
  obtain ⟨hplace, hkeeps, hgateSize, hbin, -⟩ := nl1.wireGate_spec nl.size target
  have hshelved := Shelved.createNode ⟨ht.placed, ht.indexed⟩ (ht.placed.inGrid target hlt) hnl1
  have hfiled := hshelved.file (hshelved.placed.inGrid target hlt1) hplace hkeeps hgateSize hbin
    hnl1'
  have htake := nl1'.rewired_takeOver nl.size target
  have hsize : (nl1'.takeOver nl.size target).size = nl1.size + 1 := by
    rw [htake.size, (addNode_becomes hnl1').size, hgateSize]
  obtain ⟨hstays, -, hfinal⟩ := (hfiled.rewired htake).updatePair (hsize ▸ Nat.lt_succ_of_lt hnode1)
    (hsize ▸ Nat.lt_succ_of_lt hlt1) hnl3 hnl'
  have hgateLists := wireGate_lists (hcreate.graph ▸ hcreate.size ▸ hgate)
    (hcreate.graph ▸ hsimple.mirrored) hlt1 hnode1 hlt.ne hnl1'
  rw [← numFanins_congr hstays.graph, ← numFanouts_congr hstays.graph, hcreate.size] at hgateLists
  rw [hcreate.size] at hfinal
  refine ⟨hfinal.placed, refiled_indexed hfinal fun v hv hout => ?_⟩
  obtain ⟨hvn, hvt⟩ : v ≠ nl.size ∧ v ≠ target := by simpa using hout
  by_cases hvg : v = nl.size + 1
  · rw [hvg, Function.update_self, Function.update_self]
    exact ⟨hgateLists.1.symm, hgateLists.2.symm⟩
  · rw [Function.update_of_ne hvg, Function.update_of_ne hvn, Function.update_of_ne hvg,
      Function.update_of_ne hvn]
    have hfanins := nl.graph.gateFront_sources v hgate.1 hnode.1 hne htg hlt.ne
    have hfanouts := Adjacency.length_gateFront_sinks hsimple hgate hnode hne htg hlt.ne hvg hvn
    rw [if_neg hvt, if_neg hvn, if_neg hvg, ← hgraph] at hfanins
    rw [← hgraph] at hfanouts
    exact ⟨(congrArg List.length hfanins).symm, hfanouts.symm⟩

/-- The sinks once a register and a gate have been put in front of the target. -/
def Gated (nl nl' : Netlist) (target : NodeId) : Prop :=
  ∀ u v, v ∈ nl'.sinks u ↔ if v = target then u = nl.size
    else if v = nl.size then u = nl.size + 1
    else if v = nl.size + 1 then u ∈ nl.sources target else v ∈ nl.sinks u

theorem Gated.boxed_gate (h : Gated nl nl' target) (hsimple : nl.graph.Simple)
    (hfresh : ∀ v, nl.size ≤ v → nl.graph.Fresh v)
    (hplace : nl'.binOf (nl.size + 1) = nl'.binOf nl.size)
    (hhull : nl'.HullAt {nl.size + 1} (nl.size + 1)) : nl'.BoxedAt (nl.size + 1) := by
  have hout : ∀ w, ¬nl.Drives (nl.size + 1) w := fun w hw =>
    (Drives.lt hw hsimple hfresh).1.not_gt (Nat.lt_succ_self _)
  obtain ⟨hx, hy⟩ := same_place hplace
  refine hhull.boxedAt_iff.mpr ⟨fun w hw => ?_, fun w hw => ?_⟩
  · rw [mem_net, h] at hw
    rcases hw with rfl | hw
    · exact .of_mem rfl
    · split_ifs at hw with hwt hwn hwg
      · exact absurd hw (Nat.succ_ne_self _)
      · subst hwn
        exact .of_same (Set.mem_singleton (nl.size + 1)) hx hy
      · exact absurd (hsimple.mirrored.mem_iff.mpr hw) (hout target)
      · exact absurd hw (hout w)
  · rw [Set.mem_singleton_iff.mp hw]
    exact .of_mem (mem_net.mpr (Or.inl rfl))

theorem Gated.boxed_register (h : Gated nl nl' target) (hsimple : nl.graph.Simple)
    (hfresh : ∀ v, nl.size ≤ v → nl.graph.Fresh v)
    (hhull : nl'.HullAt ({target} ∪ {nl.size}) nl.size) : nl'.BoxedAt nl.size := by
  have hout : ∀ w, ¬nl.Drives nl.size w := fun w hw => (Drives.lt hw hsimple hfresh).1.false
  refine hhull.boxedAt_iff.mpr ⟨fun w hw => .of_mem ?_, fun w hw => .of_mem ?_⟩
  · rw [mem_net, h] at hw
    rcases hw with rfl | hw
    · exact Or.inr rfl
    · split_ifs at hw with hwt hwn hwg
      · exact Or.inl hwt
      · exact Or.inr hwn
      · exact absurd (hsimple.mirrored.mem_iff.mpr hw) (hout target)
      · exact absurd hw (hout w)
  · rcases hw with rfl | rfl
    · exact mem_net.mpr (Or.inr ((h _ w).mpr (by rw [if_pos rfl])))
    · exact mem_net.mpr (Or.inl rfl)

/-- A source has the gate as a sink in the target's place. -/
theorem Gated.boxed_old (h : Gated nl nl' target) (hsimple : nl.graph.Simple)
    (hfresh : ∀ v, nl.size ≤ v → nl.graph.Fresh v) (hlt : target < nl.size) {v : NodeId}
    (hv : v < nl.size) (hplace : nl'.binOf (nl.size + 1) = nl'.binOf target)
    (hhull : nl'.HullAt ({w | v ∈ nl.sources target ∧ w = nl.size + 1} ∪ nl.net v) v) :
    nl'.BoxedAt v := by
  have hgate : v ∈ nl.sources target → nl.size + 1 ∈ nl'.net v := fun hin => by
    apply mem_net.mpr
    right
    apply (h v _).mpr
    rwa [if_neg (Nat.lt_succ_of_lt hlt).ne', if_neg (Nat.succ_ne_self _), if_pos rfl]
  refine hhull.boxedAt_iff.mpr ⟨fun w hw => .of_mem ?_, fun w hw => ?_⟩
  · rw [mem_net, h] at hw
    rcases hw with rfl | hw
    · exact Or.inr (mem_net.mpr (Or.inl rfl))
    · split_ifs at hw with hwt hwn hwg
      · exact absurd hw hv.ne
      · exact absurd hw (Nat.lt_succ_of_lt hv).ne
      · exact Or.inl ⟨hw, hwg⟩
      · exact Or.inr (mem_net.mpr (Or.inr hw))
  · rcases hw with ⟨hin, rfl⟩ | rfl | hw
    · exact .of_mem (hgate hin)
    · exact .of_mem (mem_net.mpr (Or.inl rfl))
    · by_cases hwt : w = target
      · subst hwt
        obtain ⟨hx, hy⟩ := same_place hplace
        exact .of_same (hgate (hsimple.mirrored.mem_iff.mp hw)) hx hy
      · have hwlt := (Drives.lt hw hsimple hfresh).2
        refine .of_mem (mem_net.mpr (Or.inr ((h v w).mpr ?_)))
        rwa [if_neg hwt, if_neg hwlt.ne, if_neg (Nat.lt_succ_of_lt hwlt).ne]

/-- The gate and the register are where the target is. -/
theorem insertFront_many_boxed (ht : nl.Tidy) (hsimple : nl.graph.Simple)
    (hfresh : ∀ v, nl.size ≤ v → nl.graph.Fresh v) (hlt : target < nl.size)
    (hmany : 1 < (nl.sources target).length)
    (h : nl.insertSequentialNode target true = some nl') : ∀ v < nl'.size, nl'.BoxedAt v := by
  obtain ⟨hfew, -⟩ | ⟨-, hbecomes⟩ := insertSequentialNode_front_becomes hlt hfresh h
  · exact absurd hmany (Nat.not_lt.mpr hfew)
  have hnode := hfresh nl.size le_rfl
  have hgate := hfresh (nl.size + 1) (Nat.le_succ _)
  have hne : nl.size + 1 ≠ nl.size := Nat.succ_ne_self _
  have htg : target ≠ nl.size + 1 := (Nat.lt_succ_of_lt hlt).ne
  have hgated : Gated nl nl' target := fun u v => by
    have hmem := Adjacency.mem_gateFront_sinks hsimple hgate hnode hne htg hlt.ne u v
    rw [← hbecomes.graph] at hmem
    exact hmem
  have hbins : ∀ v ∈ [target, nl.size, nl.size + 1], nl'.binOf v = nl.binOf target := by
    rw [hbecomes.binOf]
    simp [hlt.ne, htg]
  simp only [insertSequentialNode, Option.bind_eq_bind, Option.bind_eq_some_iff, if_true] at h
  obtain ⟨nl1, hnl1, nl2, hnl2, nl3, hnl3, hnl'⟩ := h
  have hcreate := createNode_becomes hnode (s_ne_pin _) hnl1
  have hsources : nl1.sources = nl.sources := congrArg Adjacency.sources hcreate.graph
  obtain ⟨hnewHull, hold⟩ := createNode_hull hnl1
  obtain ⟨hgateHull, hothers⟩ := insertFront_many_hull (hsources ▸ hmany)
    (hcreate.size ▸ hne.symm) hnl2
  rw [hcreate.size, hsources] at hothers
  rw [hcreate.size] at hgateHull
  have hquiet : Grows nl2 nl' fun _ _ => False :=
    ((grows_update hnl3).trans (grows_update hnl')).congr (by simp)
  have hend : ∀ v s, nl2.HullAt s v → nl'.HullAt s v := fun v s hs => by
    have hhull := hquiet v s hs
    rwa [Set.ofPred_false, Set.empty_union] at hhull
  intro v hv
  rw [hbecomes.size] at hv
  by_cases hvg : v = nl.size + 1
  · exact hvg ▸ hgated.boxed_gate hsimple hfresh
      ((hbins _ (by simp)).trans (hbins _ (by simp)).symm) (hend _ _ hgateHull)
  · by_cases hvn : v = nl.size
    · have hreg := hend _ _ (hothers nl.size hne.symm _ (by simp) hnewHull)
      have hnone : nl.size ∉ nl.sources target := hnode.not_mem_sources hsimple.mirrored target
      exact hvn ▸ hgated.boxed_register hsimple hfresh (by simpa [hnone] using hreg)
    · have hvlt : v < nl.size := by omega
      have hout : ∀ w, nl.size ≤ w → w ∉ nl.net v := fun w hle hw => by
        rcases hw with rfl | hw
        · exact hvlt.not_ge hle
        · exact (Drives.lt hw hsimple hfresh).2.not_ge hle
      have hhull := hend _ _ (hothers v hvg _ (hout _ (Nat.le_succ _))
        (hold v hvn _ (hout _ le_rfl) (boxedAt_iff.mp (ht.boxed v hvlt))))
      simp only [hvn, false_and, false_or] at hhull
      exact hgated.boxed_old hsimple hfresh hlt hvlt
        ((hbins _ (by simp)).trans (hbins _ (by simp)).symm) hhull

end Insert

theorem Tidy.insertSequentialNode_iff {target : NodeId} {front : Bool} (ht : nl.Tidy)
    (hsimple : nl.graph.Simple) (hfresh : ∀ v, nl.size ≤ v → nl.graph.Fresh v)
    (hlt : target < nl.size) (h : nl.insertSequentialNode target front = some nl') :
    nl'.Tidy ↔ front = true ∨ ∀ w ∈ nl.sinks target, nl.binOf w = nl.binOf target := by
  cases front with
  | true =>
      refine iff_of_true ?_ (Or.inl rfl)
      rcases Nat.lt_or_ge 1 (nl.sources target).length with hmany | hfew
      · obtain ⟨hplaced, hindexed⟩ := insertFront_many_indexed ht hsimple hfresh hlt hmany h
        exact ⟨hplaced, hindexed, insertFront_many_boxed ht hsimple hfresh hlt hmany h⟩
      · exact ht.insertFront_few hsimple hfresh hlt hfew h
  | false =>
      obtain ⟨hplaced, hindexed⟩ := insertSequentialNode_back_indexed hsimple hfresh ht hlt h
      have hboxed := insertSequentialNode_back_boxed_iff hsimple hfresh ht hlt h
      rw [or_iff_right nofun, ← hboxed]
      exact ⟨fun ht' => ht'.boxed, fun hall => ⟨hplaced, hindexed, hall⟩⟩

/-- Exactly when the two operations that add a register keep the indices and the
boxes. -/
theorem tidy_after_iff (nl : Netlist) (ht : nl.Tidy) (hsimple : nl.graph.Simple)
    (hfresh : ∀ v, nl.size ≤ v → nl.graph.Fresh v) :
    (∀ n1 < nl.size, ∀ n2 < nl.size, n1 ≠ n2 → ∀ front nl' n,
      nl.createMergeNode n1 n2 front = some (nl', n) →
        (nl'.Tidy ↔ nl.MergesTidily n1 n2 front)) ∧
    ∀ target < nl.size, ∀ front nl', nl.insertSequentialNode target front = some nl' →
      (nl'.Tidy ↔ front = true ∨ ∀ w ∈ nl.sinks target, nl.binOf w = nl.binOf target) :=
  ⟨fun _ hlt1 _ hlt2 hne _ _ _ h => ht.createMergeNode_iff hsimple hfresh hne hlt1 hlt2 h,
    fun _ hlt _ _ h => ht.insertSequentialNode_iff hsimple hfresh hlt h⟩

theorem Consistent.tidy (h : nl.Consistent) : nl.Tidy := ⟨h.placed, h.indexed, h.boxed⟩

theorem smallEnd_tidy : smallEnd.netlist.Tidy := smallEnd_reachable.inv.consistent.tidy

/-- The gate's register takes over an output in another bin, which its box does
not reach. -/
theorem smallGuarded_untidy : smallEnd.netlist.Tidy ∧
    smallEnd.netlist.insertSequentialNode 1 false = some smallGuarded ∧
    ¬ smallGuarded.Tidy := by
  have hsound := smallEnd_reachable.inv.wired.sound
  have hinsert : smallEnd.netlist.insertSequentialNode 1 false = some smallGuarded :=
    (Option.some_get _).symm
  refine ⟨smallEnd_tidy, hinsert, fun htidy => ?_⟩
  have hcondition := (smallEnd_tidy.insertSequentialNode_iff hsound.simple hsound.fresh
    (by decide +kernel) hinsert).mp htidy
  have hfails : ¬ (false = true ∨ ∀ w ∈ smallEnd.netlist.sinks 1,
      smallEnd.netlist.binOf w = smallEnd.netlist.binOf 1) := by decide +kernel
  exact hfails hcondition

theorem tidy_after_iff_small :
    ((smallEnd.netlist.insertSequentialNode 1 true).get (by decide +kernel)).Tidy := by
  have hsound := smallEnd_reachable.inv.wired.sound
  obtain ⟨-, hinsert⟩ := tidy_after_iff smallEnd.netlist smallEnd_tidy hsound.simple hsound.fresh
  exact (hinsert 1 (by decide +kernel) true _ (Option.some_get _).symm).mpr (Or.inl rfl)

end Netlist

end Artnetgen
