import ArtNetGen.PathRun

/-!
The indices of the bins while registers are added. A new node is filed under its
classes, and refiling the nodes around it is defined only for classes that
exist. So after every step that is completed the numbers of sources and sinks of
each node are within the tables, and that is all a split needs to be completed.
-/

namespace Artnetgen

/-- The keys matter for the nodes in the bins only. -/
theorem Netlist.FiledBy.congr {numBins : ℕ} {bin : BinId → Bin}
    {table : Bin → ClassTable NodeId} {max : ℤ} {key key' : NodeId → ℕ}
    (h : FiledBy numBins bin table max key)
    (hkey : ∀ b < numBins, ∀ v ∈ (bin b).nodes, key v = key' v) :
    FiledBy numBins bin table max key' := by
  intro b hb
  obtain ⟨hfiles, hlength, hrecorded⟩ := h b hb
  exact ⟨hfiles, hlength, fun v hv => (hrecorded v hv).trans (hkey b hb v hv)⟩

namespace Netlist

/-- Every node is in its bin, filed under the classes that the keys give. -/
structure Shelved (nl : Netlist) (fi fo : NodeId → ℕ) : Prop where
  placed : nl.Placed
  indexed : nl.IndexedBy fi fo

/-- There are classes for the node. -/
def Within (nl : Netlist) (v : NodeId) : Prop :=
  (nl.numFanins v : ℤ) ≤ nl.fiDist.xMax ∧ (nl.numFanouts v : ℤ) ≤ nl.foDist.xMax

/-- The keys of some nodes may lag behind the graph, but each node has classes. -/
structure Fits (nl : Netlist) : Prop where
  shelved : ∃ fi fo, nl.Shelved fi fo
  within : ∀ v < nl.size, nl.Within v

variable {nl nl' : Netlist} {fi fo : NodeId → ℕ}

theorem Keeps.numBins (h : Keeps nl nl') : nl'.numBins = nl.numBins :=
  h.congr Netlist.numBins fun _ _ _ _ => rfl

theorem Keeps.layoutDimX (h : Keeps nl nl') : nl'.layoutDimX = nl.layoutDimX :=
  h.congr Netlist.layoutDimX fun _ _ _ _ => rfl

theorem Keeps.fiDist (h : Keeps nl nl') : nl'.fiDist = nl.fiDist :=
  h.congr Netlist.fiDist fun _ _ _ _ => rfl

theorem Keeps.foDist (h : Keeps nl nl') : nl'.foDist = nl.foDist :=
  h.congr Netlist.foDist fun _ _ _ _ => rfl

theorem Keeps.fi2SequMasters (h : Keeps nl nl') : nl'.fi2SequMasters = nl.fi2SequMasters :=
  h.congr Netlist.fi2SequMasters fun _ _ _ _ => rfl

/-! ## What shelves depend on -/

theorem Shelved.congr (h : nl.Shelved fi fo) (hkeeps : Keeps nl nl') (hsize : nl'.size = nl.size)
    (hbin : nl'.bin = nl.bin) (hbinOf : nl'.binOf = nl.binOf) : nl'.Shelved fi fo := by
  refine ⟨⟨?_, ?_, ?_⟩, ?_, ?_⟩
  · rw [hkeeps.numBins, hbin, hkeeps.layoutDimX]
    exact h.placed.coords
  · rw [hsize, hbinOf, hkeeps.numBins]
    exact h.placed.inGrid
  · rw [hkeeps.numBins, hbin, hsize, hbinOf]
    exact h.placed.members
  · rw [hkeeps.numBins, hbin, hkeeps.fiDist]
    exact h.indexed.fi
  · rw [hkeeps.numBins, hbin, hkeeps.foDist]
    exact h.indexed.fo

theorem Shelved.rewired (h : nl.Shelved fi fo) (hr : Rewired nl nl') : nl'.Shelved fi fo :=
  h.congr hr.keeps hr.size hr.bin hr.binOf

theorem Shelved.setType (h : nl.Shelved fi fo) (v : NodeId) (t : NodeType) :
    (nl.setType v t).Shelved fi fo :=
  h.congr rfl rfl rfl (setType_binOf nl v t)

theorem numFanins_congr (h : nl'.graph = nl.graph) : nl'.numFanins = nl.numFanins :=
  funext fun v => congrArg (fun g => (g.sources v).length) h

theorem numFanouts_congr (h : nl'.graph = nl.graph) : nl'.numFanouts = nl.numFanouts :=
  funext fun v => congrArg (fun g => (g.sinks v).length) h

theorem within_congr (hkeeps : Keeps nl nl') (hgraph : nl'.graph = nl.graph) (v : NodeId) :
    nl'.Within v ↔ nl.Within v := by
  rw [Within, Within, numFanins_congr hgraph, numFanouts_congr hgraph, hkeeps.fiDist,
    hkeeps.foDist]

/-! ## A new node -/

/-- The new node is filed under the connections it has got so far. -/
theorem Shelved.file {mid : Netlist} {b : BinId} (h : nl.Shelved fi fo) (hb : b < nl.numBins)
    (hplace : mid.binOf = Function.update nl.binOf nl.size b) (hkeeps : Keeps nl mid)
    (hsize : mid.size = nl.size + 1) (hsame : mid.bin = nl.bin)
    (hadd : mid.addNode b nl.size = some nl') :
    nl'.Shelved (Function.update fi nl.size (mid.numFanins nl.size))
      (Function.update fo nl.size (mid.numFanouts nl.size)) := by
  have hbecomes := addNode_becomes hadd
  have hkeeps' : Keeps nl nl' := hkeeps.trans hbecomes.keeps
  have hbinOf : nl'.binOf = Function.update nl.binOf nl.size b := by
    rw [hbecomes.binOf, hplace, Function.update_idem]
  simp only [Netlist.addNode, Option.bind_eq_bind, Option.bind_eq_some_iff, Option.pure_def,
    Option.some.injEq, hsame] at hadd
  obtain ⟨fi', hfi, fo', hfo, hnl'⟩ := hadd
  have hbin : nl'.bin = Function.update nl.bin b
      { nl.bin b with nodes := (nl.bin b).nodes ++ [nl.size], fi := fi', fo := fo' } :=
    hnl' ▸ rfl
  have hnew : ∀ c < nl.numBins, nl.size ∉ (nl.bin c).nodes := fun c hc hin =>
    (((h.placed.members c hc).2 _).mp hin).1.false
  -- The keys of the nodes filed so far have not changed.
  have hold : ∀ (key : NodeId → ℕ) (k : ℕ), ∀ c < nl.numBins, ∀ v ∈ (nl.bin c).nodes,
      key v = Function.update key nl.size k v := fun key k c hc v hv =>
    (Function.update_of_ne (fun heq : v = nl.size => hnew c hc (heq ▸ hv)) k key).symm
  refine ⟨⟨fun c hc => ?_, fun v hv => ?_, fun c hc => ?_⟩, ?_, ?_⟩
  · rw [(hbecomes.coords c).1, (hbecomes.coords c).2, hsame, hkeeps'.layoutDimX]
    exact h.placed.coords c (hkeeps'.numBins ▸ hc)
  · rw [hbinOf, hkeeps'.numBins]
    by_cases hvn : v = nl.size
    · rwa [hvn, Function.update_self]
    · rw [Function.update_of_ne hvn]
      rw [hbecomes.size, hsize] at hv
      exact h.placed.inGrid v (Nat.lt_of_le_of_ne (Nat.lt_succ_iff.mp hv) hvn)
  · rw [hkeeps'.numBins] at hc
    obtain ⟨hnodup, hmem⟩ := h.placed.members c hc
    rw [hbin, hbecomes.size, hsize, hbinOf]
    by_cases hcb : c = b
    · subst hcb
      rw [Function.update_self]
      refine ⟨hnodup.append (List.nodup_singleton _) (by simpa using hnew c hc), fun v => ?_⟩
      by_cases hvn : v = nl.size
      · simp [hvn]
      · simp [hvn, hmem, Nat.lt_succ_iff, Nat.le_iff_lt_or_eq]
    · rw [Function.update_of_ne hcb]
      refine ⟨hnodup, fun v => ?_⟩
      by_cases hvn : v = nl.size
      · simp [hvn, hmem, Ne.symm hcb]
      · simp [hvn, hmem, Nat.lt_succ_iff, Nat.le_iff_lt_or_eq]
  · rw [hkeeps'.numBins, hkeeps'.fiDist, hbin]
    refine (h.indexed.fi.congr (hold fi _)).insert (hnew b hb) (t := fi') ?_ (fun c => ?_)
      fun c => ?_
    · rw [Function.update_self]
      exact hfi
    all_goals by_cases hcb : c = b <;> simp [hcb]
  · rw [hkeeps'.numBins, hkeeps'.foDist, hbin]
    refine (h.indexed.fo.congr (hold fo _)).insert (hnew b hb) (t := fo') ?_ (fun c => ?_)
      fun c => ?_
    · rw [Function.update_self]
      exact hfo
    all_goals by_cases hcb : c = b <;> simp [hcb]

/-- The new node is filed under no sources and no sinks. -/
theorem Shelved.createNode {t : NodeType} {b : BinId} {name : String} {lx ly ux uy : ℕ}
    (h : nl.Shelved fi fo) (hb : b < nl.numBins)
    (hcreate : nl.createNode t b name lx ly ux uy = some nl') :
    nl'.Shelved (Function.update fi nl.size 0) (Function.update fo nl.size 0) := by
  have hplaced := nl.newNode_placed t b lx ly ux uy
  have hplace : ((((nl.newNode.setType nl.size t).setBin nl.size b).setBbox nl.size
      lx ly ux uy).setName nl.size name).binOf = Function.update nl.binOf nl.size b := by
    rw [setName_binOf, hplaced.binOf]
  have hunconnected : ((((nl.newNode.setType nl.size t).setBin nl.size b).setBbox nl.size
      lx ly ux uy).setName nl.size name).graph = nl.newNode.graph := by
    rw [setName_graph, hplaced.graph]
  have hfile := h.file hb hplace rfl rfl rfl hcreate
  rw [numFanins_congr hunconnected, numFanouts_congr hunconnected] at hfile
  have hfanins : nl.newNode.numFanins nl.size = 0 := by
    unfold numFanins
    rw [newNode_node, if_pos rfl]
    rfl
  have hfanouts : nl.newNode.numFanouts nl.size = 0 := by
    unfold numFanouts
    rw [newNode_node, if_pos rfl]
    rfl
  rwa [hfanins, hfanouts] at hfile

theorem createNode_eq {t : NodeType} {b : BinId} {name : String} {lx ly ux uy : ℕ} :
    nl.createNode t b name lx ly ux uy = do
      let fi ← (nl.bin b).fi.insert nl.size 0
      let fo ← (nl.bin b).fo.insert nl.size 0
      let nl1 := (((nl.newNode.setType nl.size t).setBin nl.size b).setBbox nl.size
        lx ly ux uy).setName nl.size name
      let bin := { nl.bin b with nodes := (nl.bin b).nodes ++ [nl.size], fi, fo }
      return { nl1 with bin := Function.update nl.bin b bin }.setBin nl.size b := by
  have hnode : ((((nl.newNode.setType nl.size t).setBin nl.size b).setBbox nl.size
      lx ly ux uy).setName nl.size name).node nl.size =
      { ({ type := t, bin := b } : Node) with name, lx, ly, ux, uy } := by
    simp [setName, setBbox, setBin, setType, modify_node, newNode, Node.setBbox]
  simp only [createNode, addNode, hnode]
  rfl

theorem FiledBy.insert_isDefined {numBins : ℕ} {bin : BinId → Bin}
    {table : Bin → ClassTable NodeId} {max : ℤ} {key : NodeId → ℕ}
    (h : FiledBy numBins bin table max key) {b : BinId} (hb : b < numBins) (hmax : 0 ≤ max)
    (v : NodeId) : ∃ t, (table (bin b)).insert v 0 = some t := by
  obtain ⟨-, hlength, -⟩ := h b hb
  have hpos : 0 < (table (bin b)).slots.length := by omega
  exact ⟨_, ClassTable.insert_eq_some.mpr ⟨_, List.getElem?_eq_getElem hpos, rfl⟩⟩

theorem Shelved.createNode_isDefined (h : nl.Shelved fi fo) {b : BinId} (hb : b < nl.numBins)
    (hfi : 0 ≤ nl.fiDist.xMax) (hfo : 0 ≤ nl.foDist.xMax) (t : NodeType) (name : String)
    (lx ly ux uy : ℕ) : ∃ nl', nl.createNode t b name lx ly ux uy = some nl' := by
  obtain ⟨fi', hfi'⟩ := h.indexed.fi.insert_isDefined hb hfi nl.size
  obtain ⟨fo', hfo'⟩ := h.indexed.fo.insert_isDefined hb hfo nl.size
  rw [createNode_eq, hfi', hfo']
  exact ⟨_, rfl⟩

/-! ## Updates -/

/-- An update is completed only within the tables, and it brings the two keys
of its node up to date. -/
theorem Shelved.update {v : NodeId} (h : nl.Shelved fi fo) (hv : v < nl.size)
    (hupdate : nl.update (nl.binOf v) v = some nl') :
    nl.Within v ∧ nl'.Shelved (Function.update fi v (nl.numFanins v))
      (Function.update fo v (nl.numFanouts v)) := by
  have hb := h.placed.inGrid v hv
  have hmem : v ∈ (nl.bin (nl.binOf v)).nodes := ((h.placed.members _ hb).2 v).mpr ⟨hv, rfl⟩
  obtain ⟨hfiFiles, hfiLength, -⟩ := h.indexed.fi _ hb
  obtain ⟨hfoFiles, hfoLength, -⟩ := h.indexed.fo _ hb
  have hmoves := hupdate
  simp only [Netlist.update, Option.bind_eq_bind, Option.bind_eq_some_iff] at hmoves
  obtain ⟨fi', hfi', fo', hfo', -⟩ := hmoves
  have hfi : nl.numFanins v < (nl.fiDist.xMax + 1).toNat :=
    hfiLength ▸ hfiFiles.lt_of_move hmem hfi'
  have hfo : nl.numFanouts v < (nl.foDist.xMax + 1).toNat :=
    hfoLength ▸ hfoFiles.lt_of_move hmem hfo'
  obtain ⟨nl1, hnl1, hrebinned, hindexed⟩ := update_spec h.placed h.indexed hv hfi hfo
  obtain rfl := Option.some.inj (hnl1.symm.trans hupdate)
  exact ⟨⟨by omega, by omega⟩, hrebinned.placed h.placed, hindexed⟩

/-- Within the tables it is completed. -/
theorem Shelved.update_isDefined {v : NodeId} (h : nl.Shelved fi fo) (hv : v < nl.size)
    (hwithin : nl.Within v) : ∃ nl', nl.update (nl.binOf v) v = some nl' := by
  obtain ⟨hfi, hfo⟩ := hwithin
  obtain ⟨nl', hnl', -⟩ := update_spec h.placed h.indexed hv (by omega) (by omega)
  exact ⟨nl', hnl'⟩

/-- The keys once the nodes of the list have been brought up to date. -/
def refiled (l : List NodeId) (current key : NodeId → ℕ) (v : NodeId) : ℕ :=
  if v ∈ l then current v else key v

theorem refiled_update (l : List NodeId) (current key : NodeId → ℕ) (v : NodeId) :
    refiled l current (Function.update key v (current v)) = refiled (v :: l) current key := by
  funext w
  by_cases hw : w = v <;> simp [refiled, hw]

theorem Shelved.updates {l : List NodeId} (h : nl.Shelved fi fo) (hl : ∀ v ∈ l, v < nl.size)
    (hupdates : l.foldlM (fun nl v => nl.update (nl.binOf v) v) nl = some nl') :
    (∀ v ∈ l, nl.Within v) ∧
      nl'.Shelved (refiled l nl.numFanins fi) (refiled l nl.numFanouts fo) := by
  induction l generalizing nl fi fo with
  | nil =>
      obtain rfl := Option.some.inj hupdates
      exact ⟨by simp, h⟩
  | cons v rest ih =>
      obtain ⟨mid, hmid, hrest⟩ := Loop.foldlM_cons_eq_some.mp hupdates
      obtain ⟨hv, hlrest⟩ := List.forall_mem_cons.mp hl
      obtain ⟨hwithin, hshelved⟩ := h.update hv hmid
      have hstays := update_stays hmid
      obtain ⟨hall, hfinal⟩ := ih hshelved (hstays.size.symm ▸ hlrest) hrest
      rw [numFanins_congr hstays.graph, numFanouts_congr hstays.graph, refiled_update,
        refiled_update] at hfinal
      refine ⟨List.forall_mem_cons.mpr ⟨hwithin, fun w hw => ?_⟩, hfinal⟩
      exact (within_congr hstays.keeps hstays.graph w).mp (hall w hw)

/-- A new node is among those refiled, so it does not matter how it was filed. -/
theorem refiled_of_mem {l : List NodeId} {v : NodeId} (hv : v ∈ l) (current key : NodeId → ℕ)
    (k : ℕ) : refiled l current (Function.update key v k) = refiled l current key := by
  funext w
  by_cases hw : w = v
  · simp [refiled, hw, hv]
  · simp [refiled, hw]

/-- The classes are the current ones when every key is. -/
theorem Shelved.indexed_iff (h : nl.Shelved fi fo) :
    nl.Indexed ↔ ∀ v < nl.size, fi v = nl.numFanins v ∧ fo v = nl.numFanouts v := by
  constructor
  · intro hi v hv
    have hb := h.placed.inGrid v hv
    have hmem : v ∈ (nl.bin (nl.binOf v)).nodes := ((h.placed.members _ hb).2 v).mpr ⟨hv, rfl⟩
    obtain ⟨-, -, hfi⟩ := h.indexed.fi _ hb
    obtain ⟨-, -, hfo⟩ := h.indexed.fo _ hb
    obtain ⟨-, -, hfi'⟩ := hi.fi _ hb
    obtain ⟨-, -, hfo'⟩ := hi.fo _ hb
    exact ⟨(hfi v hmem).symm.trans (hfi' v hmem), (hfo v hmem).symm.trans (hfo' v hmem)⟩
  · intro hkeys
    have hlt : ∀ b < nl.numBins, ∀ v ∈ (nl.bin b).nodes, v < nl.size := fun b hb v hv =>
      (((h.placed.members b hb).2 v).mp hv).1
    exact ⟨h.indexed.fi.congr fun b hb v hv => (hkeys v (hlt b hb v hv)).1,
      h.indexed.fo.congr fun b hb v hv => (hkeys v (hlt b hb v hv)).2⟩

/-! ## Replacements -/

/-- After a merge the merged nodes and the new one are filed under their current
classes and the others as before. -/
theorem createMergeNodeAt_shelved {b : BinId} {targets : List NodeId} {front : Bool} {n : NodeId}
    (h : nl.Shelved fi fo) (hb : b < nl.numBins) (hlt : ∀ t ∈ targets, t < nl.size)
    (hmerge : nl.createMergeNodeAt b targets front = some (nl', n)) :
    (∀ v ∈ targets ++ [nl.size], nl'.Within v) ∧
      nl'.Shelved (refiled (targets ++ [nl.size]) nl'.numFanins fi)
        (refiled (targets ++ [nl.size]) nl'.numFanouts fo) := by
  simp only [createMergeNodeAt, Option.bind_eq_bind, Option.bind_eq_some_iff, Option.pure_def,
    Option.some.injEq, Prod.mk.injEq] at hmerge
  obtain ⟨nl1, hnl1, nl2, hnl2, rfl, rfl⟩ := hmerge
  have hcreate := createNode_placed (merge_ne_pin _) hnl1
  have hrewired := nl1.rewired_merge nl.size targets front
  have hshelved := (h.createNode hb hnl1).rewired hrewired
  have hsize : (nl1.merge nl.size targets front).size = nl.size + 1 :=
    hrewired.size.trans hcreate.size
  have hstays := updates_stays hnl2
  obtain ⟨hwithin, hfinal⟩ := hshelved.updates (fun v hv => by
    rw [hsize]
    rcases List.mem_append.mp hv with hv | hv
    · exact Nat.lt_succ_of_lt (hlt v hv)
    · exact (List.mem_singleton.mp hv).trans_lt (Nat.lt_succ_self _)) hnl2
  have hnew : nl.size ∈ targets ++ [nl.size] := by simp
  rw [refiled_of_mem hnew, refiled_of_mem hnew, ← numFanins_congr hstays.graph,
    ← numFanouts_congr hstays.graph] at hfinal
  exact ⟨fun v hv => (within_congr hstays.keeps hstays.graph v).mpr (hwithin v hv), hfinal⟩

/-- The two updates that end `insertSequentialNode`. -/
theorem Shelved.updatePair {v w : NodeId} {nl1 : Netlist} (h : nl.Shelved fi fo)
    (hv : v < nl.size) (hw : w < nl.size) (hv' : nl.update (nl.binOf v) v = some nl1)
    (hw' : nl1.update (nl1.binOf w) w = some nl') :
    Stays nl nl' ∧ (nl'.Within v ∧ nl'.Within w) ∧
      nl'.Shelved (refiled [v, w] nl'.numFanins fi) (refiled [v, w] nl'.numFanouts fo) := by
  have hupdates : [v, w].foldlM (fun nl v => nl.update (nl.binOf v) v) nl = some nl' := by
    simp only [List.foldlM_cons, List.foldlM_nil, hv', hw', Option.bind_eq_bind, Option.bind_some,
      Option.pure_def]
  have hstays := updates_stays hupdates
  obtain ⟨hwithin, hfinal⟩ := h.updates (by simp [hv, hw]) hupdates
  rw [← numFanins_congr hstays.graph, ← numFanouts_congr hstays.graph] at hfinal
  have hall := fun u hu => (within_congr hstays.keeps hstays.graph u).mpr (hwithin u hu)
  exact ⟨hstays, ⟨hall v (by simp), hall w (by simp)⟩, hfinal⟩

theorem insertSequentialNode_back_shelved {target : NodeId} (h : nl.Shelved fi fo)
    (hlt : target < nl.size) (hinsert : nl.insertSequentialNode target false = some nl') :
    (∀ v ∈ [target, nl.size], nl'.Within v) ∧
      nl'.Shelved (refiled [nl.size, target] nl'.numFanins fi)
        (refiled [nl.size, target] nl'.numFanouts fo) := by
  simp only [insertSequentialNode, Option.bind_eq_bind, Option.bind_eq_some_iff,
    Bool.false_eq_true, if_false, Option.some.injEq] at hinsert
  obtain ⟨nl1, hnl1, nl2, rfl, nl3, hnl3, hnl'⟩ := hinsert
  have hcreate := createNode_placed (s_ne_pin _) hnl1
  have hrewired := nl1.rewired_insertBack nl.size target
  have hshelved := (h.createNode (h.placed.inGrid _ hlt) hnl1).rewired hrewired
  have hsize : (nl1.insertBack nl.size target).size = nl.size + 1 :=
    hrewired.size.trans hcreate.size
  have hnew : nl.size ∈ [nl.size, target] := List.mem_cons_self
  obtain ⟨-, ⟨hnode, htarget⟩, hfinal⟩ := hshelved.updatePair
    (hsize ▸ Nat.lt_succ_self _) (hsize ▸ Nat.lt_succ_of_lt hlt) hnl3 hnl'
  rw [refiled_of_mem hnew, refiled_of_mem hnew] at hfinal
  refine ⟨fun v hv => ?_, hfinal⟩
  simp only [List.mem_cons, List.not_mem_nil, or_false] at hv
  rcases hv with rfl | rfl
  · exact htarget
  · exact hnode

/-- Nodes that are not replaced get no new neighbours. -/
theorem Replaced.le {front : Bool} {targets : List NodeId} (h : Replaced nl nl' front targets)
    (hs : nl.Sound) {v : NodeId} (hv : v ∉ targets) (hvn : v ≠ nl.size) :
    nl'.numFanins v ≤ nl.numFanins v ∧ nl'.numFanouts v ≤ nl.numFanouts v := by
  obtain ⟨collected, hreplaces, hmem, hgraph⟩ := h.replaces hs
  change (nl'.graph.sources v).length ≤ (nl.graph.sources v).length ∧
    (nl'.graph.sinks v).length ≤ (nl.graph.sinks v).length
  rw [hgraph]
  cases front
  · refine ⟨hreplaces.length_back_sources_le hmem hvn, le_of_eq ?_⟩
    have hsinks := nl.graph.spliceBack_sinks collected targets nl.size v
      hreplaces.fresh.2 hreplaces.targetsNodup hreplaces.notTarget
    rw [if_neg hvn, if_neg hv] at hsinks
    exact congrArg List.length hsinks
  · refine ⟨le_of_eq ?_, hreplaces.length_front_sinks_le hmem hvn⟩
    have hsources := nl.graph.spliceFront_sources collected targets nl.size v
      hreplaces.fresh.1 hreplaces.targetsNodup hreplaces.notTarget
    rw [if_neg hvn, if_neg hv] at hsources
    exact congrArg List.length hsources

theorem Replaced.keeps {front : Bool} {targets : List NodeId} (h : Replaced nl nl' front targets) :
    Keeps nl nl' := by
  obtain ⟨_, _, -, -, hbecomes⟩ := h.becomes
  exact hbecomes.keeps

theorem Replaced.size {front : Bool} {targets : List NodeId} (h : Replaced nl nl' front targets) :
    nl'.size = nl.size + 1 := by
  obtain ⟨_, _, -, -, hbecomes⟩ := h.becomes
  exact hbecomes.size

theorem Replaced.fits {front : Bool} {targets : List NodeId} (h : Replaced nl nl' front targets)
    (hs : nl.Sound) (hf : nl.Fits) (hshelved : ∃ fi fo, nl'.Shelved fi fo)
    (hwithin : ∀ v ∈ targets ++ [nl.size], nl'.Within v) : nl'.Fits := by
  refine ⟨hshelved, fun v hv => ?_⟩
  by_cases hin : v ∈ targets ++ [nl.size]
  · exact hwithin v hin
  · obtain ⟨hvt, hvn⟩ : v ∉ targets ∧ v ≠ nl.size := by simpa using hin
    have hlt : v < nl.size := by
      rw [h.size] at hv
      exact Nat.lt_of_le_of_ne (Nat.lt_succ_iff.mp hv) hvn
    obtain ⟨hfi, hfo⟩ := h.le hs hvt hvn
    obtain ⟨hfi', hfo'⟩ := hf.within v hlt
    unfold Within
    rw [h.keeps.fiDist, h.keeps.foDist]
    exact ⟨(Int.ofNat_le.mpr hfi).trans hfi', (Int.ofNat_le.mpr hfo).trans hfo'⟩

theorem Fits.setType (h : nl.Fits) (v : NodeId) (t : NodeType) : (nl.setType v t).Fits := by
  obtain ⟨fi, fo, hshelved⟩ := h.shelved
  exact ⟨⟨fi, fo, hshelved.setType v t⟩, fun w hw =>
    (@within_congr nl (nl.setType v t) rfl (setType_graph nl v t) w).mpr (h.within w hw)⟩

/-- No reworking step leaves the tables. -/
theorem Rework.fits (h : Rework nl nl') (hs : nl.Sound) (hf : nl.Fits) : nl'.Fits := by
  obtain ⟨fi, fo, hshelved⟩ := hf.shelved
  cases h with
  | cut => exact hf.setType _ _
  | @merge n1 n2 n front _ hne hlt1 hlt2 hseq1 hseq2 h =>
      have hreplaced := (mergePair_replaced hs hne hlt1 hlt2 hseq1 hseq2 h).2
      obtain ⟨nl1, hnl1, rfl⟩ := mergePair_eq_some h
      obtain ⟨hwithin, hshelved'⟩ := createMergeNodeAt_shelved hshelved
        (hshelved.placed.inGrid n1 hlt1) (by simp [hlt1, hlt2]) hnl1
      have hgraph : ((nl1.setType n1 .combinational).setType n2 .combinational).graph =
          nl1.graph := by rw [setType_graph, setType_graph]
      exact hreplaced.fits hs hf ⟨_, _, (hshelved'.setType _ _).setType _ _⟩ fun v hv =>
        (@within_congr nl1 ((nl1.setType n1 .combinational).setType n2 .combinational)
          rfl hgraph v).mpr (hwithin v hv)
  | @split v _ hlt hseq h =>
      obtain ⟨hwithin, hshelved'⟩ :=
        insertSequentialNode_back_shelved (hshelved.setType v _) hlt h
      exact (splitNode_replaced hs hlt hseq h).fits hs hf ⟨_, _, hshelved'⟩ hwithin

theorem Fits.reworks (hf : nl.Fits) (hl : nl.Legal)
    (h : Relation.ReflTransGen Rework nl nl') : nl'.Fits := by
  induction h with
  | refl => exact hf
  | tail hreworks hrework ih => exact hrework.fits (hl.reworks hreworks).sound ih

/-! ## Splits -/

section Split

variable {v : NodeId}

/-- Numbers of neighbours after a register has been spliced behind `v`. -/
theorem Sound.split_degrees (hs : nl.Sound) (hlt : v < nl.size) :
    let g := nl.graph.spliceBack (nl.sinks v) [v] nl.size
    (g.sources nl.size).length = 1 ∧ (g.sinks v).length = 1 ∧
      (g.sinks nl.size).length = nl.numFanouts v ∧
      ∀ w ≠ nl.size, (g.sources w).length = nl.numFanins w := by
  have hfresh := hs.fresh nl.size le_rfl
  have hnot : nl.size ∉ [v] := by simpa using hlt.ne'
  have hreplaces : nl.graph.Replaces {v} {nl.size} (nl.sinks v) [v] nl.size :=
    ⟨hs.simple, hfresh, hs.simple.sinks_nodup v, hfresh.not_mem_sinks hs.simple.mirrored v,
      List.nodup_singleton v, hnot, by simp, by simp⟩
  have hsinks : ∀ u, _ := fun u =>
    nl.graph.spliceBack_sinks (nl.sinks v) [v] nl.size u hfresh.2 (List.nodup_singleton v) hnot
  refine ⟨hreplaces.length_back_node, ?_, ?_, fun w hw => ?_⟩
  · rw [hsinks, if_neg hlt.ne, if_pos (List.mem_singleton_self v)]
    rfl
  · rw [hsinks, if_pos rfl]
    rfl
  · exact Adjacency.length_spliceBack_single hs.simple hfresh hreplaces.collectedNodup
      hreplaces.notCollected hnot hw Iff.rfl

/-- The new register has one source, and no other node gains or loses any. -/
theorem splitNode_fanins (hs : nl.Sound) (hlt : v < nl.size) (h : nl.splitNode v = some nl') :
    nl'.numFanins nl.size = 1 ∧ nl'.numFanouts v = 1 ∧
      ∀ w ≠ nl.size, nl'.numFanins w = nl.numFanins w := by
  have hretyped := hs.setType v (Or.inl rfl : NodeType.combinational.IsInstance)
  have hgraph := (insertSequentialNode_back_becomes (hretyped.fresh _ le_rfl) h).graph
  have hsources : nl'.sources = _ := congrArg Adjacency.sources hgraph
  have hsinks : nl'.sinks = _ := congrArg Adjacency.sinks hgraph
  obtain ⟨hnode, htarget, -, hothers⟩ := hretyped.split_degrees hlt
  have hfanins := numFanins_congr (setType_graph nl v .combinational)
  refine ⟨?_, ?_, fun w hw => ?_⟩
  · rw [← length_sources, hsources]
    exact hnode
  · rw [← length_sinks, hsinks]
    exact htarget
  · rw [← length_sources, hsources, ← hfanins]
    exact hothers w hw

/-- A register can be put behind any node as long as one source and one sink
are allowed. -/
theorem Fits.insertSequentialNode_isDefined (hf : nl.Fits) (hs : nl.Sound) (hlt : v < nl.size)
    (hfi : 1 ≤ nl.fiDist.xMax) (hfo : 1 ≤ nl.foDist.xMax) :
    ∃ nl', nl.insertSequentialNode v false = some nl' := by
  obtain ⟨fi, fo, hshelved⟩ := hf.shelved
  obtain ⟨hvFanin, hvFanout⟩ := hf.within v hlt
  have hb := hshelved.placed.inGrid v hlt
  obtain ⟨nl1, hnl1⟩ := hshelved.createNode_isDefined hb (by omega) (by omega) .sequential
    ("s" ++ toString nl.size) (nl.x v) (nl.y v) (nl.x v) (nl.y v)
  have hcreate := createNode_becomes (hs.fresh _ le_rfl) (s_ne_pin _) hnl1
  have hrewired := nl1.rewired_insertBack nl.size v
  have hinsert := hcreate.rewired hrewired
  have hgraph : (nl1.insertBack nl.size v).graph =
      nl.graph.spliceBack (nl.sinks v) [v] nl.size := by
    have hsinks : nl1.sinks = nl.sinks := congrArg Adjacency.sinks hcreate.graph
    rw [insertBack_graph, hcreate.graph, hsinks]
  obtain ⟨hnode, htarget, hsinks, hothers⟩ := hs.split_degrees hlt
  have hfanins : (nl1.insertBack nl.size v).sources = _ := congrArg Adjacency.sources hgraph
  have hfanouts : (nl1.insertBack nl.size v).sinks = _ := congrArg Adjacency.sinks hgraph
  -- Both updates stay within the tables.
  have hwithinNode : (nl1.insertBack nl.size v).Within nl.size := by
    rw [Within, hinsert.keeps.fiDist, hinsert.keeps.foDist, ← length_sources, hfanins,
      ← length_sinks, hfanouts, hnode, hsinks]
    exact ⟨hfi, hvFanout⟩
  have hwithinTarget : (nl1.insertBack nl.size v).Within v := by
    rw [Within, hinsert.keeps.fiDist, hinsert.keeps.foDist, ← length_sources, hfanins,
      ← length_sinks, hfanouts, hothers v hlt.ne, htarget]
    exact ⟨hvFanin, hfo⟩
  have hshelved2 := (hshelved.createNode hb hnl1).rewired hrewired
  have hsize : nl.size < (nl1.insertBack nl.size v).size := by
    rw [hinsert.size]
    exact Nat.lt_succ_self _
  obtain ⟨nl3, hnl3⟩ := hshelved2.update_isDefined hsize hwithinNode
  have hstays := update_stays hnl3
  obtain ⟨-, hshelved3⟩ := hshelved2.update hsize hnl3
  obtain ⟨nl4, hnl4⟩ := hshelved3.update_isDefined (hstays.size.symm ▸ hlt.trans hsize)
    ((within_congr hstays.keeps hstays.graph v).mpr hwithinTarget)
  refine ⟨nl4, ?_⟩
  simp only [insertSequentialNode, hnl1, Bool.false_eq_true, if_false, Option.bind_eq_bind,
    Option.bind_some, hnl3, hnl4]

theorem Fits.splitNode_isDefined (hf : nl.Fits) (hs : nl.Sound) (hlt : v < nl.size)
    (hfi : 1 ≤ nl.fiDist.xMax) (hfo : 1 ≤ nl.foDist.xMax) :
    ∃ nl', nl.splitNode v = some nl' :=
  (hf.setType v .combinational).insertSequentialNode_isDefined (hs.setType v (Or.inl rfl)) hlt
    hfi hfo

end Split

end Netlist

end Artnetgen
