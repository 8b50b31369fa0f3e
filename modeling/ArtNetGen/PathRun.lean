import ArtNetGen.Rework

/-!
The run of `timingPathConstruction_v1`, phase by phase. Every phase is a
sequence of reworking steps; the merge passes are so because their worklist
lists the registers, each once and under the index of its bin.
-/

namespace Artnetgen

namespace Netlist

variable {nl nl' : Netlist}

/-! ## Cutting -/

theorem cutNodes_spec {topoOrder : NodeId → ℤ} {targetMaxOrder : ℤ} {updated : Bool}
    (l : List NodeId) (hl : ∀ v ∈ l, v < nl.size) :
    Relation.ReflTransGen Rework nl
        (l.foldl (cutNode topoOrder targetMaxOrder) (nl, updated)).1 ∧
      ((l.foldl (cutNode topoOrder targetMaxOrder) (nl, updated)).2 = false →
        (l.foldl (cutNode topoOrder targetMaxOrder) (nl, updated)).1 = nl ∧ updated = false ∧
          ∀ v ∈ l, topoOrder v = targetMaxOrder → nl.type v ≠ .combinational) := by
  induction l generalizing nl updated with
  | nil => exact ⟨.refl, fun h => ⟨rfl, h, by simp⟩⟩
  | cons n rest ih =>
      obtain ⟨hn, hrest⟩ := List.forall_mem_cons.mp hl
      rw [List.foldl_cons, cutNode]
      split
      · next hcut =>
          obtain ⟨hreworks, hidle⟩ := @ih (nl.setType n .sequential) true hrest
          refine ⟨.head (.cut hn hcut.2) hreworks, fun h => ?_⟩
          cases (hidle h).2.1
      · next hkeep =>
          obtain ⟨hreworks, hidle⟩ := @ih nl updated hrest
          refine ⟨hreworks, fun h => ?_⟩
          obtain ⟨heq, hupdated, hnone⟩ := hidle h
          refine ⟨heq, hupdated, List.forall_mem_cons.mpr ⟨?_, hnone⟩⟩
          exact fun horder hcomb => hkeep ⟨horder, hcomb⟩

theorem Legal.cutTurn (hl : nl.Legal) {targetMaxOrder : ℤ} {updated : Bool}
    (h : nl.cutTurn targetMaxOrder = some (nl', updated)) :
    Relation.ReflTransGen Rework nl nl' ∧
      (updated = false → nl' = nl ∧
        ∀ v < nl.size, nl.order v = targetMaxOrder → nl.type v ≠ .combinational) := by
  unfold Netlist.cutTurn at h
  rw [hl.sortable.topologicalSort] at h
  have hpair : nl.nodes.foldl (cutNode nl.order targetMaxOrder) (nl, false) = (nl', updated) :=
    Option.some.inj h
  obtain ⟨hreworks, hidle⟩ := @cutNodes_spec nl nl.order targetMaxOrder false
    nl.nodes fun v hv => List.mem_range.mp hv
  rw [hpair] at hreworks hidle
  refine ⟨hreworks, fun h => ?_⟩
  obtain ⟨heq, -, hnone⟩ := hidle h
  exact ⟨heq, fun v hv => hnone v (List.mem_range.mpr hv)⟩

/-- When the loop ends no gate has the target order. -/
theorem Legal.cut (hl : nl.Legal) {targetMaxOrder : ℤ} {fuel : ℕ}
    (h : nl.cut targetMaxOrder fuel = some nl') :
    Relation.ReflTransGen Rework nl nl' ∧
      ∀ v < nl'.size, nl'.order v = targetMaxOrder → nl'.type v ≠ .combinational := by
  induction fuel generalizing nl with
  | zero => cases h
  | succ fuel ih =>
      simp only [Netlist.cut, Option.bind_eq_bind, Option.bind_eq_some_iff] at h
      obtain ⟨⟨nl1, updated⟩, hturn, h⟩ := h
      obtain ⟨hreworks, hidle⟩ := hl.cutTurn hturn
      cases updated with
      | true =>
          obtain ⟨hreworks', hnone⟩ := ih (hl.reworks hreworks) h
          exact ⟨hreworks.trans hreworks', hnone⟩
      | false =>
          obtain rfl : nl1 = nl' := Option.some.inj h
          obtain ⟨rfl, hnone⟩ := hidle rfl
          exact ⟨hreworks, hnone⟩

end Netlist

/-! ## Merging -/

namespace Fitting

variable {s s' : Fitting}

/-- The worklist holds the registers among `nodes` under the indices of their
bins. -/
structure Listed (s : Fitting) (nodes : List NodeId) : Prop where
  nodup : ∀ id, (s.targets id).Nodup
  mem : ∀ id v, v ∈ s.targets id ↔
    v ∈ nodes ∧ s.netlist.type v = .sequential ∧ s.netlist.targetIdx v = some id

structure Inv (s : Fitting) : Prop where
  legal : s.netlist.Legal
  listed : s.Listed s.netlist.nodes

theorem Listed.count {nodes : List NodeId} {node : NodeId} (h : s.Listed nodes)
    (hnew : node ∉ nodes) (hcount : s.count node = some s') :
    s'.Listed (nodes ++ [node]) ∧ s'.netlist = s.netlist := by
  -- A node that is no register leaves the worklist as it is.
  have hother : s.netlist.type node ≠ .sequential → s'.targets = s.targets →
      s'.netlist = s.netlist → s'.Listed (nodes ++ [node]) ∧ s'.netlist = s.netlist := by
    intro htype htargets hnetlist
    refine ⟨⟨htargets ▸ h.nodup, fun id v => ?_⟩, hnetlist⟩
    rw [htargets, hnetlist, h.mem, List.mem_append, List.mem_singleton]
    by_cases hv : v = node
    · simp [hv, hnew, htype]
    · simp [hv]
  unfold Fitting.count at hcount
  split at hcount
  · next htype =>
      simp only [Option.bind_eq_bind, Option.bind_eq_some_iff, Option.pure_def,
        Option.some.injEq] at hcount
      obtain ⟨id, hid, rfl⟩ := hcount
      have hnot : ∀ i, node ∉ s.targets i := fun i hin => hnew ((h.mem i node).mp hin).1
      refine ⟨⟨fun i => ?_, fun i v => ?_⟩, rfl⟩ <;> dsimp only <;> by_cases hi : i = id
      · rw [hi, Function.update_self]
        exact (h.nodup id).append (List.nodup_singleton node) (by simpa using hnot id)
      · rw [Function.update_of_ne hi]
        exact h.nodup i
      · rw [hi, Function.update_self, List.mem_append, h.mem, List.mem_append]
        by_cases hv : v = node
        · simp [hv, hnew, htype, hid]
        · simp [hv]
      · rw [Function.update_of_ne hi, h.mem, List.mem_append]
        by_cases hv : v = node
        · simp [hv, hnew, hid, Ne.symm hi]
        · simp [hv]
  · next htype =>
      obtain rfl := Option.some.inj hcount
      exact hother (by rw [htype]; exact nofun) rfl rfl
  · next htype _ =>
      obtain rfl := Option.some.inj hcount
      exact hother htype rfl rfl

theorem start_listed {nl : Netlist} (h : start nl = some s) :
    s.Listed nl.nodes ∧ s.netlist = nl := by
  simp only [start, Option.bind_eq_bind, Option.bind_eq_some_iff, Option.pure_def,
    Option.some.injEq] at h
  obtain ⟨s0, hs0, rfl⟩ := h
  have hall : ∀ (l : List NodeId) (t : Fitting), l.Nodup →
      l.foldlM Fitting.count { netlist := nl } = some t → t.Listed l ∧ t.netlist = nl := by
    intro l
    induction l using List.reverseRecOn with
    | nil =>
        intro t _ ht
        obtain rfl := Option.some.inj ht
        exact ⟨⟨fun _ => List.nodup_nil, by simp⟩, rfl⟩
    | append_singleton rest node ih =>
        intro t hnodup ht
        obtain ⟨mid, hmid, hnode⟩ := Loop.foldlM_append_eq_some.mp ht
        obtain ⟨hlisted, hnetlist⟩ := ih mid hnodup.of_append_left hmid
        have hnew : node ∉ rest := fun hin =>
          List.disjoint_of_nodup_append hnodup hin (List.mem_singleton_self node)
        obtain ⟨hlisted', hnetlist'⟩ := hlisted.count hnew (by simpa using hnode)
        exact ⟨hlisted', hnetlist'.trans hnetlist⟩
  obtain ⟨hlisted, hnetlist⟩ := hall nl.nodes s0 List.nodup_range hs0
  exact ⟨⟨hlisted.nodup, hlisted.mem⟩, hnetlist⟩

/-! The pair that is picked. -/

theorem targetIdx_eq_some {nl : Netlist} {v : NodeId} {id : BinId}
    (h : nl.targetIdx v = some id) : id = nl.x v + nl.y v * nl.layoutDimX ∧ id < nl.numBins := by
  simp only [Netlist.targetIdx] at h
  split at h
  · next hlt =>
      obtain rfl := Option.some.inj h
      exact ⟨rfl, hlt⟩
  · cases h

theorem Listed.window {nodes : List NodeId} (h : s.Listed nodes) (edgeLength id : ℕ) :
    (s.window edgeLength id).Nodup := by
  have hdisjoint : ∀ i j, i ≠ j → (s.targets i).Disjoint (s.targets j) := by
    intro i j hij v hi hj
    have heq := ((h.mem i v).mp hi).2.2.symm.trans ((h.mem j v).mp hj).2.2
    exact hij (Option.some.inj heq)
  have hpos : ∀ i v, v ∈ s.targets i → 0 < s.netlist.layoutDimX := by
    intro i v hv
    have hlt := (targetIdx_eq_some ((h.mem i v).mp hv).2.2).2
    apply Nat.pos_of_ne_zero
    intro hzero
    unfold Netlist.numBins at hlt
    rw [hzero, Nat.zero_mul] at hlt
    exact Nat.not_lt_zero i hlt
  unfold Fitting.window
  rw [List.nodup_flatMap]
  refine ⟨fun x _ => List.nodup_flatMap.mpr ⟨fun y _ => h.nodup _, ?_⟩, ?_⟩
  · -- Different rows.
    refine List.Pairwise.imp (fun {y y'} hne v hv hv' => ?_) List.nodup_range'
    have hdim := hpos _ v hv
    refine hdisjoint _ _ (fun heq => hne ?_) hv hv'
    exact Nat.eq_of_mul_eq_mul_right hdim (Nat.add_left_cancel heq)
  · -- Different columns.
    refine List.Pairwise.imp_of_mem ?_ List.nodup_range'
    intro x x' hx hx' hne v hv hv'
    obtain ⟨y, -, hy⟩ := List.mem_flatMap.mp hv
    obtain ⟨y', -, hy'⟩ := List.mem_flatMap.mp hv'
    have hdim := hpos _ v hy
    rw [List.mem_range'_1] at hx hx'
    have hlt : x < s.netlist.layoutDimX ∧ x' < s.netlist.layoutDimX := by omega
    refine hdisjoint _ _ (fun heq => hne ?_) hy hy'
    have hmod := congrArg (· % s.netlist.layoutDimX) heq
    simpa [Nat.add_mul_mod_self_right, Nat.mod_eq_of_lt hlt.1, Nat.mod_eq_of_lt hlt.2] using hmod

theorem ne_of_mem_zip_tail {l : List NodeId} (h : l.Nodup) {a b : NodeId}
    (hab : (a, b) ∈ l.zip l.tail) : a ≠ b ∧ a ∈ l ∧ b ∈ l := by
  induction l with
  | nil => cases hab
  | cons x rest ih =>
      cases rest with
      | nil => cases hab
      | cons y rest =>
          rw [List.tail_cons, List.zip_cons_cons, List.mem_cons] at hab
          rcases hab with heq | hin
          · obtain ⟨rfl, rfl⟩ := Prod.mk.inj heq
            exact ⟨fun hxy => (List.nodup_cons.mp h).1 (hxy ▸ List.mem_cons_self), by simp⟩
          · obtain ⟨hne, ha, hb⟩ := ih (List.nodup_cons.mp h).2 hin
            exact ⟨hne, List.mem_cons_of_mem _ ha, List.mem_cons_of_mem _ hb⟩

theorem pick_mem {front : Bool} {c : Pass} {edgeLength : ℕ} {id : BinId} {n1 n2 : NodeId}
    (h : s.pick front c edgeLength id = some (n1, n2)) :
    ∃ l : List NodeId, l.Perm (s.window edgeLength id) ∧ (n1, n2) ∈ l.zip l.tail := by
  simp only [pick] at h
  have hperm : ∀ key, (sortBy key ((c.ties edgeLength id).val (s.window edgeLength id))).Perm
      (s.window edgeLength id) := fun key =>
    (List.perm_insertionSort _ _).trans ((c.ties edgeLength id).2 _)
  cases front with
  | true => exact ⟨_, hperm _, List.mem_of_find?_eq_some h⟩
  | false =>
      simp only [Bool.false_eq_true, if_false, backPair, Option.filter_eq_some_iff] at h
      exact ⟨_, hperm _, List.mem_of_head? h.1⟩

/-- Two different nodes on the worklist. -/
theorem Listed.pick {nodes : List NodeId} (h : s.Listed nodes) {front : Bool} {c : Pass}
    {edgeLength : ℕ} {id : BinId} {n1 n2 : NodeId}
    (hpick : s.pick front c edgeLength id = some (n1, n2)) :
    n1 ≠ n2 ∧ ∀ v ∈ [n1, n2], ∃ idx, v ∈ s.targets idx := by
  obtain ⟨l, hperm, hmem⟩ := pick_mem hpick
  obtain ⟨hne, h1, h2⟩ :=
    ne_of_mem_zip_tail (hperm.nodup_iff.mpr (h.window edgeLength id)) hmem
  refine ⟨hne, fun v hv => ?_⟩
  have hin : v ∈ s.window edgeLength id := by
    simp only [List.mem_cons, List.not_mem_nil, or_false] at hv
    rcases hv with rfl | rfl
    · exact hperm.mem_iff.mp h1
    · exact hperm.mem_iff.mp h2
  simp only [Fitting.window, List.mem_flatMap] at hin
  obtain ⟨x, -, y, -, hv⟩ := hin
  exact ⟨_, hv⟩

/-- Two different registers. -/
theorem Inv.pick (h : s.Inv) {front : Bool} {c : Pass} {edgeLength : ℕ} {id : BinId}
    {n1 n2 : NodeId} (hpick : s.pick front c edgeLength id = some (n1, n2)) :
    n1 ≠ n2 ∧ ∀ v ∈ [n1, n2], v < s.netlist.size ∧ s.netlist.type v = .sequential := by
  obtain ⟨hne, hlisted⟩ := h.listed.pick hpick
  refine ⟨hne, fun v hv => ?_⟩
  obtain ⟨idx, hidx⟩ := hlisted v hv
  obtain ⟨hlt, hseq, -⟩ := (h.listed.mem idx v).mp hidx
  exact ⟨List.mem_range.mp hlt, hseq⟩

/-! One merge. -/

theorem mem_eraseTarget {targets targets' : BinId → List NodeId} {idx : BinId} {v : NodeId}
    (h : eraseTarget targets idx v = some targets') (hnodup : ∀ id, (targets id).Nodup) :
    (∀ id, (targets' id).Nodup) ∧
      ∀ id w, w ∈ targets' id ↔ w ∈ targets id ∧ ¬ (id = idx ∧ w = v) := by
  unfold eraseTarget at h
  split at h
  · obtain rfl := Option.some.inj h
    refine ⟨fun id => ?_, fun id w => ?_⟩ <;> by_cases hid : id = idx
    · rw [hid, Function.update_self]
      exact (hnodup idx).erase v
    · rw [Function.update_of_ne hid]
      exact hnodup id
    · rw [hid, Function.update_self, (hnodup idx).mem_erase_iff]
      tauto
    · rw [Function.update_of_ne hid]
      tauto
  · cases h

/-- The places of the old nodes do not change. -/
theorem targetIdx_congr {nl nl' : Netlist} {size : ℕ} {type : NodeId → NodeType}
    {graph : Adjacency NodeId} {n : NodeId} {b : BinId}
    (h : Netlist.Becomes nl nl' size type (Function.update nl.binOf n b) graph) {v : NodeId}
    (hv : v ≠ n) : nl'.targetIdx v = nl.targetIdx v := by
  have hbin : nl'.binOf v = nl.binOf v := by rw [h.binOf, Function.update_of_ne hv]
  have hdimX : nl'.layoutDimX = nl.layoutDimX :=
    h.keeps.congr Netlist.layoutDimX fun _ _ _ _ => rfl
  have hnum : nl'.numBins = nl.numBins := h.keeps.congr Netlist.numBins fun _ _ _ _ => rfl
  have hx : nl'.x v = nl.x v := by rw [Netlist.x, hbin, (h.coords _).1, Netlist.x]
  have hy : nl'.y v = nl.y v := by rw [Netlist.y, hbin, (h.coords _).2, Netlist.y]
  rw [Netlist.targetIdx, Netlist.targetIdx, hx, hy, hdimX, hnum]

/-- The new node is listed where the first register was. -/
theorem targetIdx_new {nl nl' : Netlist} {size : ℕ} {type : NodeId → NodeType}
    {graph : Adjacency NodeId} {n v : NodeId}
    (h : Netlist.Becomes nl nl' size type (Function.update nl.binOf n (nl.binOf v)) graph) :
    nl'.targetIdx n = nl.targetIdx v := by
  have hbin : nl'.binOf n = nl.binOf v := by rw [h.binOf, Function.update_self]
  have hdimX : nl'.layoutDimX = nl.layoutDimX :=
    h.keeps.congr Netlist.layoutDimX fun _ _ _ _ => rfl
  have hnum : nl'.numBins = nl.numBins := h.keeps.congr Netlist.numBins fun _ _ _ _ => rfl
  have hx : nl'.x n = nl.x v := by rw [Netlist.x, hbin, (h.coords _).1, Netlist.x]
  have hy : nl'.y n = nl.y v := by rw [Netlist.y, hbin, (h.coords _).2, Netlist.y]
  rw [Netlist.targetIdx, Netlist.targetIdx, hx, hy, hdimX, hnum]

/-- The two registers are found where they are looked for; they come off the
worklist and the new one is put on it. -/
theorem Listed.merge (h : s.Listed s.netlist.nodes) {n1 n2 n : NodeId} {front : Bool}
    {nl : Netlist} (hne : n1 ≠ n2) (hlisted : ∀ v ∈ [n1, n2], ∃ idx, v ∈ s.targets idx)
    (hpair : s.netlist.mergePair n1 n2 front = some (nl, n)) :
    ∃ idx1 idx2 targets s', nl.targetIdx n1 = some idx1 ∧ nl.targetIdx n2 = some idx2 ∧
      n1 ∈ s.targets idx1 ∧ eraseTarget s.targets idx1 n1 = some targets ∧ n2 ∈ targets idx2 ∧
      s.merge n1 n2 front = some s' ∧ s'.netlist = nl ∧ s'.Listed nl.nodes ∧
      s'.numCombNodes = s.numCombNodes + 2 ∧ s'.numSequNodes = s.numSequNodes - 1 := by
  obtain ⟨idx1, hin1⟩ := hlisted n1 (by simp)
  obtain ⟨idx2, hin2⟩ := hlisted n2 (by simp)
  obtain ⟨hnode1, hseq1, hidx1⟩ := (h.mem idx1 n1).mp hin1
  obtain ⟨hnode2, hseq2, hidx2⟩ := (h.mem idx2 n2).mp hin2
  have hlt1 : n1 < s.netlist.size := List.mem_range.mp hnode1
  have hlt2 : n2 < s.netlist.size := List.mem_range.mp hnode2
  obtain ⟨rfl, graph, hbecomes⟩ := Netlist.mergePair_placed hne hlt1 hlt2 hpair
  have hidx1' : nl.targetIdx n1 = some idx1 := (targetIdx_congr hbecomes hlt1.ne).trans hidx1
  have hidx2' : nl.targetIdx n2 = some idx2 := (targetIdx_congr hbecomes hlt2.ne).trans hidx2
  have hidx3 : nl.targetIdx s.netlist.size = some idx1 := (targetIdx_new hbecomes).trans hidx1
  obtain ⟨targets1, htargets1⟩ : ∃ targets1, eraseTarget s.targets idx1 n1 = some targets1 :=
    ⟨_, if_pos hin1⟩
  obtain ⟨hnodup1, hmem1⟩ := mem_eraseTarget htargets1 h.nodup
  have hin2' : n2 ∈ targets1 idx2 := (hmem1 idx2 n2).mpr ⟨hin2, fun heq => hne heq.2.symm⟩
  obtain ⟨targets2, htargets2⟩ : ∃ targets2, eraseTarget targets1 idx2 n2 = some targets2 :=
    ⟨_, if_pos hin2'⟩
  obtain ⟨hnodup2, hmem2⟩ := mem_eraseTarget htargets2 hnodup1
  refine ⟨idx1, idx2, targets1, {
    netlist := nl
    targets := Function.update targets2 idx1 (targets2 idx1 ++ [s.netlist.size])
    numCombNodes := s.numCombNodes + 2
    numSequNodes := s.numSequNodes - 1
    currentRatio := (s.numCombNodes + 2 + (s.numSequNodes - 1) : ℤ) /
      (s.numCombNodes + 2 + 2 * (s.numSequNodes - 1) : ℤ) },
    hidx1', hidx2', hin1, htargets1, hin2', ?_, rfl, ?_, rfl, rfl⟩
  · simp only [Fitting.merge, hpair, hidx1', hidx2', hidx3, htargets1, htargets2,
      Option.bind_eq_bind, Option.bind_some]
    rfl
  -- The worklist once the two registers are off it.
  have hrest : ∀ id v, v ∈ targets2 id ↔ v ∈ s.netlist.nodes ∧ v ≠ n1 ∧ v ≠ n2 ∧
      s.netlist.type v = .sequential ∧ s.netlist.targetIdx v = some id := by
    intro id v
    rw [hmem2, hmem1, h.mem]
    constructor
    · rintro ⟨⟨⟨hin, hseq, hidx⟩, h1⟩, h2⟩
      refine ⟨hin, ?_, ?_, hseq, hidx⟩
      · rintro rfl
        exact h1 ⟨Option.some.inj (hidx.symm.trans hidx1), rfl⟩
      · rintro rfl
        exact h2 ⟨Option.some.inj (hidx.symm.trans hidx2), rfl⟩
    · rintro ⟨hin, h1, h2, hseq, hidx⟩
      exact ⟨⟨⟨hin, hseq, hidx⟩, fun h => h1 h.2⟩, fun h => h2 h.2⟩
  have hnew : ∀ id, s.netlist.size ∉ targets2 id := fun id hin =>
    (List.mem_range.mp ((hrest id _).mp hin).1).false
  have htype : ∀ v, nl.type v = .sequential ↔ v = s.netlist.size ∨
      (v ≠ n1 ∧ v ≠ n2 ∧ s.netlist.type v = .sequential) := by
    intro v
    rw [hbecomes.type, Netlist.retyped]
    by_cases hv : v ∈ [n1, n2]
    · simp only [List.mem_cons, List.not_mem_nil, or_false] at hv
      rcases hv with rfl | rfl
      · simp [hlt1.ne]
      · simp [hlt2.ne]
    · have hv' : v ≠ n1 ∧ v ≠ n2 := by simpa using hv
      by_cases hvn : v = s.netlist.size
      · simp [hvn, hlt1.ne', hlt2.ne']
      · simp [hv, hvn, hv']
  refine ⟨fun id => ?_, fun id v => ?_⟩ <;> dsimp only
  · by_cases hid : id = idx1
    · rw [hid, Function.update_self]
      exact (hnodup2 idx1).append (List.nodup_singleton _) (by simpa using hnew idx1)
    · rw [Function.update_of_ne hid]
      exact hnodup2 id
  · have hnodes : v ∈ nl.nodes ↔ v ∈ s.netlist.nodes ∨ v = s.netlist.size := by
      rw [Netlist.nodes, Netlist.nodes, hbecomes.size, List.mem_range, List.mem_range]
      exact Nat.lt_succ_iff_lt_or_eq
    rw [hnodes, htype]
    by_cases hv : v = s.netlist.size
    · subst hv
      rw [hidx3, Option.some.injEq]
      by_cases hid : id = idx1
      · simp [hid]
      · simp [Function.update_of_ne hid, hnew id, Ne.symm hid]
    · rw [targetIdx_congr hbecomes hv]
      have hpush : v ∈ Function.update targets2 idx1 (targets2 idx1 ++ [s.netlist.size]) id ↔
          v ∈ targets2 id := by
        by_cases hid : id = idx1
        · simp [hid, hv]
        · rw [Function.update_of_ne hid]
      rw [hpush, hrest]
      simp only [hv, or_false, false_or]
      tauto

theorem Inv.merge (h : s.Inv) {n1 n2 : NodeId} {front : Bool} (hne : n1 ≠ n2)
    (hregs : ∀ v ∈ [n1, n2], v < s.netlist.size ∧ s.netlist.type v = .sequential)
    (hmerge : s.merge n1 n2 front = some s') :
    ∃ n, s.netlist.mergePair n1 n2 front = some (s'.netlist, n) ∧ s'.Inv := by
  have hmerge' := hmerge
  simp only [Fitting.merge, Option.bind_eq_bind, Option.bind_eq_some_iff] at hmerge'
  obtain ⟨⟨nl, n⟩, hpair, idx1, hidx1, idx2, hidx2, -⟩ := hmerge'
  obtain ⟨hlt1, hseq1⟩ := hregs n1 (by simp)
  obtain ⟨hlt2, hseq2⟩ := hregs n2 (by simp)
  obtain ⟨-, graph, hbecomes⟩ := Netlist.mergePair_placed hne hlt1 hlt2 hpair
  have hlisted : ∀ v ∈ [n1, n2], ∃ idx, v ∈ s.targets idx := by
    intro v hv
    simp only [List.mem_cons, List.not_mem_nil, or_false] at hv
    rcases hv with rfl | rfl
    · rw [targetIdx_congr hbecomes hlt1.ne] at hidx1
      exact ⟨idx1, (h.listed.mem idx1 v).mpr ⟨List.mem_range.mpr hlt1, hseq1, hidx1⟩⟩
    · rw [targetIdx_congr hbecomes hlt2.ne] at hidx2
      exact ⟨idx2, (h.listed.mem idx2 v).mpr ⟨List.mem_range.mpr hlt2, hseq2, hidx2⟩⟩
  obtain ⟨_, _, _, s'', -, -, -, -, -, hmerged, rfl, hlisted', -⟩ :=
    h.listed.merge hne hlisted hpair
  obtain rfl := Option.some.inj (hmerged.symm.trans hmerge)
  exact ⟨n, hpair, (Netlist.Rework.merge hne hlt1 hlt2 hseq1 hseq2 hpair).legal h.legal, hlisted'⟩

/-- A visit does nothing or merges the pair that it picks. -/
theorem Inv.visit_cases (h : s.Inv) {front : Bool} {combRatio : ℚ} {c : Pass} {v : ℕ × BinId}
    (hvisit : visit front combRatio c s v = some s') :
    (s' = s ∧ (combRatio ≤ s.currentRatio ∨ s.pick front c v.1 v.2 = none)) ∨
      ∃ n1 n2 n, ¬ combRatio ≤ s.currentRatio ∧ s.pick front c v.1 v.2 = some (n1, n2) ∧
        n1 ≠ n2 ∧ (∀ t ∈ [n1, n2], t < s.netlist.size ∧ s.netlist.type t = .sequential) ∧
        s.netlist.mergePair n1 n2 front = some (s'.netlist, n) ∧ s'.Inv := by
  unfold visit at hvisit
  split at hvisit
  · next hratio => exact Or.inl ⟨(Option.some.inj hvisit).symm, Or.inl hratio⟩
  · next hratio =>
      cases hpick : s.pick front c v.1 v.2 with
      | none =>
          rw [hpick] at hvisit
          exact Or.inl ⟨(Option.some.inj hvisit).symm, Or.inr rfl⟩
      | some pair =>
          obtain ⟨n1, n2⟩ := pair
          rw [hpick] at hvisit
          obtain ⟨hne, hregs⟩ := h.pick hpick
          obtain ⟨n, hpair, hinv⟩ := h.merge hne hregs hvisit
          exact Or.inr ⟨n1, n2, n, hratio, rfl, hne, hregs, hpair, hinv⟩

theorem Inv.visit (h : s.Inv) {front : Bool} {combRatio : ℚ} {c : Pass} {v : ℕ × BinId}
    (hvisit : visit front combRatio c s v = some s') :
    s'.Inv ∧ Relation.ReflTransGen Netlist.Rework s.netlist s'.netlist := by
  rcases h.visit_cases hvisit with ⟨rfl, -⟩ | ⟨n1, n2, n, -, -, hne, hregs, hpair, hinv⟩
  · exact ⟨h, .refl⟩
  · obtain ⟨hlt1, hseq1⟩ := hregs n1 (by simp)
    obtain ⟨hlt2, hseq2⟩ := hregs n2 (by simp)
    exact ⟨hinv, .single (.merge hne hlt1 hlt2 hseq1 hseq2 hpair)⟩

theorem Inv.pass (h : s.Inv) {front : Bool} {combRatio : ℚ} {c : Pass}
    (hpass : s.pass front combRatio c = some s') :
    s'.Inv ∧ Relation.ReflTransGen Netlist.Rework s.netlist s'.netlist := by
  refine Loop.invariant
    (fun t => t.Inv ∧ Relation.ReflTransGen Netlist.Rework s.netlist t.netlist)
    (fun v _ t t' ht hvisit => ?_) ⟨h, .refl⟩ hpass
  obtain ⟨hinv, hreworks⟩ := ht.1.visit hvisit
  exact ⟨hinv, ht.2.trans hreworks⟩

end Fitting

/-! ## Splitting -/

namespace Splitting

variable {s s' : Splitting}

/-- A turn steps over a node, splits it, or finds the loop ended. -/
theorem turn_cases (h : s.turn = some s') :
    (s.Ended ∧ s' = s) ∨
      (s.i < s.netlist.size ∧ s'.i = s.i + 1 ∧
        ((s'.netlist = s.netlist ∧ (s.netlist.type s.i = .sequential →
            s.netlist.hasMaster (s.netlist.node s.i).numFanins true = some true)) ∨
          (s.netlist.type s.i = .sequential ∧
            s.netlist.hasMaster (s.netlist.node s.i).numFanins true = some false ∧
            s.netlist.splitNode s.i = some s'.netlist))) := by
  simp only [turn] at h
  split at h
  · next hlt =>
      split at h
      · next hseq =>
          simp only [Option.bind_eq_bind, Option.bind_eq_some_iff, Option.pure_def] at h
          obtain ⟨has, hhas, h⟩ := h
          cases has with
          | true =>
              simp only [if_true, Option.some.injEq] at h
              subst h
              exact Or.inr ⟨hlt, rfl, Or.inl ⟨rfl, fun _ => hhas⟩⟩
          | false =>
              simp only [Bool.false_eq_true, if_false, Option.bind_eq_some_iff,
                Option.some.injEq] at h
              obtain ⟨nl, hnl, rfl⟩ := h
              exact Or.inr ⟨hlt, rfl, Or.inr ⟨hseq, hhas, hnl⟩⟩
      · next hseq =>
          obtain rfl := Option.some.inj h
          exact Or.inr ⟨hlt, rfl, Or.inl ⟨rfl, fun h => absurd h hseq⟩⟩
  · next hge =>
      obtain rfl := Option.some.inj h
      exact Or.inl ⟨Nat.not_lt.mp hge, rfl⟩

theorem turn_reworks (h : s.turn = some s') :
    Relation.ReflTransGen Netlist.Rework s.netlist s'.netlist := by
  rcases turn_cases h with ⟨-, rfl⟩ | ⟨hlt, -, ⟨hnetlist, -⟩ | ⟨hseq, -, hsplit⟩⟩
  · exact .refl
  · rw [hnetlist]
  · exact .single (.split hlt hseq hsplit)

theorem turns_reworks {n : ℕ} (h : turns n s = some s') :
    Relation.ReflTransGen Netlist.Rework s.netlist s'.netlist :=
  Loop.invariant (fun t => Relation.ReflTransGen Netlist.Rework s.netlist t.netlist)
    (fun _ _ _ _ ht hturn => ht.trans (turn_reworks hturn)) .refl h

end Splitting

/-! ## The whole run -/

namespace Netlist

variable {nl nl' : Netlist}

/-- The netlists differ in the cells that are at their disposal. -/
def Equipped (nl nl' : Netlist) : Prop :=
  nl' = { nl with
    fi2SequMasters := nl'.fi2SequMasters
    fi2CombMasters := nl'.fi2CombMasters
    master2ratio := nl'.master2ratio }

theorem fileMaster_spec {info : MasterInfo} (h : nl.fileMaster info = some nl') :
    Equipped nl nl' ∧ nl'.fi2SequMasters.length = nl.fi2SequMasters.length := by
  simp only [fileMaster] at h
  split at h
  · obtain rfl := Option.some.inj h
    exact ⟨rfl, rfl⟩
  · split at h <;>
      simp only [Option.bind_eq_bind, Option.bind_eq_some_iff, Option.pure_def,
        Option.some.injEq] at h <;> obtain ⟨masters, -, rfl⟩ := h
    · exact ⟨rfl, List.length_set ..⟩
    · exact ⟨rfl, rfl⟩

/-- Filing the cells touches nothing else, and the table of register cells has an
entry for every number of fan-ins. -/
theorem initOnlyUseMasters_spec {ang : ArtNetGen} (h : nl.initOnlyUseMasters ang = some nl') :
    Equipped nl nl' ∧ nl'.fi2SequMasters.length = (nl.fiDist.xMax + 1).toNat := by
  unfold initOnlyUseMasters at h
  refine Loop.invariant (fun nl' => Equipped nl nl' ∧
    nl'.fi2SequMasters.length = (nl.fiDist.xMax + 1).toNat) (fun info _ nl1 nl2 h1 h2 => ?_)
    (And.intro ?_ ?_) h
  · obtain ⟨hequipped, hlength⟩ := fileMaster_spec h2
    refine ⟨?_, hlength.trans h1.2⟩
    unfold Equipped
    rw [hequipped, h1.1]
  · rfl
  · exact List.length_replicate

theorem Equipped.legal (h : Equipped nl nl') (hl : nl.Legal) : nl'.Legal := by
  unfold Equipped at h
  rw [h]
  exact ⟨⟨hl.sound.simple, hl.sound.fresh, hl.sound.ported⟩, hl.noControl, hl.acyclic⟩

theorem Equipped.named (h : Equipped nl nl') (hn : nl.Named) : nl'.Named := by
  unfold Equipped at h
  rw [h]
  exact ⟨hn.plain, hn.ins, hn.outs, hn.outType⟩

end Netlist

/-- What `distMatching` builds is legal. -/
theorem Matching.Reachable.legal {addr : NodeId ↪ ℕ} {ang : ArtNetGen} {s : Matching}
    (h : Reachable addr ang s) : s.netlist.Legal where
  sound := h.inv.wired.sound
  noControl v := by
    rcases h.inv.types v with hv | hv | hv <;> rw [hv] <;> rfl
  acyclic := (h.inv.wired.acyclic h.inv.consistent.placed).mono fun _ _ hab => hab.1

namespace MergeRun

variable {ang : ArtNetGen} {nl : Netlist}

theorem legal_cut (run : MergeRun ang nl) (hl : nl.Legal) : run.cutNetlist.Legal :=
  hl.reworks (hl.cut run.cut).1

theorem inv_atFront (run : MergeRun ang nl) (hl : nl.Legal) : run.atFront.Inv := by
  obtain ⟨hlisted, hnetlist⟩ := Fitting.start_listed run.start
  exact ⟨hnetlist ▸ run.legal_cut hl, by rw [hnetlist]; exact hlisted⟩

theorem inv_atBack (run : MergeRun ang nl) (hl : nl.Legal) : run.atBack.Inv :=
  ((run.inv_atFront hl).pass run.frontPass).1

theorem inv_fitted (run : MergeRun ang nl) (hl : nl.Legal) : run.fitted.Inv :=
  ((run.inv_atBack hl).pass run.backPass).1

theorem reworks (run : MergeRun ang nl) (hl : nl.Legal) :
    Relation.ReflTransGen Netlist.Rework nl run.fitted.netlist := by
  have hstart : run.atFront.netlist = run.cutNetlist := (Fitting.start_listed run.start).2
  have hfront := ((run.inv_atFront hl).pass run.frontPass).2
  rw [hstart] at hfront
  calc Relation.ReflTransGen Netlist.Rework nl run.cutNetlist := (hl.cut run.cut).1
    Relation.ReflTransGen Netlist.Rework _ run.atBack.netlist := hfront
    Relation.ReflTransGen Netlist.Rework _ run.fitted.netlist :=
      ((run.inv_atBack hl).pass run.backPass).2

end MergeRun

theorem PathRun.reworks {ang : ArtNetGen} {nl : Netlist} (run : PathRun ang nl) (hl : nl.Legal) :
    Relation.ReflTransGen Netlist.Rework nl run.split.netlist :=
  (run.toMergeRun.reworks hl).trans (Splitting.turns_reworks run.splitting)

/-- Whatever reworking steps follow `distMatching`, every cycle of the graph has
a register on it; and the netlist that `timingPathConstruction_v1` returns is
sorted without leaving a node out. -/
theorem Netlist.no_combinational_loop (addr : NodeId ↪ ℕ) (ang : ArtNetGen) (s : Matching)
    (nl : Netlist) (hs : Matching.Reachable addr ang s)
    (hmasters : s.netlist.initOnlyUseMasters ang = some nl) :
    (∀ nl', Relation.ReflTransGen Netlist.Rework nl nl' →
        ∀ (v : NodeId) (path : List NodeId), List.IsChain nl'.Drives (v :: path) →
          path.getLast? = some v → ∃ w ∈ path, nl'.type w = .sequential) ∧
      ∀ nl', nl.timingPathConstruction_v1 ang nl' →
        ∃ order, nl'.topologicalSort = some order ∧ ∀ v < nl'.size, 0 ≤ order v := by
  have hl := (initOnlyUseMasters_spec hmasters).1.legal hs.legal
  refine ⟨fun nl' h v path => (hl.reworks h).register_on_cycle, fun nl' ⟨run, hrun⟩ => ?_⟩
  have hl' : nl'.Legal := hrun ▸ hl.reworks (run.reworks hl)
  exact ⟨nl'.order, hl'.sortable.topologicalSort, fun v hv =>
    hl'.sortable.order_nonneg hl'.acyclic hv⟩

/-! The gate of the small netlist becomes a register and is split. -/

def smallEquipped : Netlist :=
  (smallEnd.netlist.initOnlyUseMasters smallAng).get (by decide +kernel)

def smallSplit : Netlist :=
  ((smallEquipped.setType 1 .sequential).splitNode 1).get (by decide +kernel)

theorem smallSplit_reworks : Relation.ReflTransGen Netlist.Rework smallEquipped smallSplit :=
  .tail (.single (.cut (v := 1) (by decide +kernel) (by decide +kernel)))
    (.split (v := 1) (by decide +kernel) (by decide +kernel) (Option.some_get _).symm)

/-- The pass whose outcomes change no order. -/
def Pass.inOrder : Pass := ⟨fun _ => .same, fun _ _ => .same⟩

/-- The small netlist itself is too shallow to get a register. -/
def smallRun : PathRun smallAng smallEquipped :=
  (PathRun.carryOut smallAng smallEquipped 1 3 .inOrder .inOrder).get (by decide +kernel)

theorem Netlist.no_combinational_loop_small :
    (∃ order, smallRun.split.netlist.topologicalSort = some order ∧
      ∀ v < smallRun.split.netlist.size, 0 ≤ order v) ∧
    (List.IsChain smallSplit.Drives [1, 3, 1] → [3, 1].getLast? = some 1 →
      ∃ w ∈ [3, 1], smallSplit.type w = .sequential) := by
  obtain ⟨hreworks, hpath⟩ := Netlist.no_combinational_loop (.refl ℕ) smallAng smallEnd
    smallEquipped smallEnd_reachable (Option.some_get _).symm
  exact ⟨hpath _ ⟨smallRun, rfl⟩, hreworks smallSplit smallSplit_reworks 1 [3, 1]⟩

end Artnetgen
