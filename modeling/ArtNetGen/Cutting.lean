import ArtNetGen.Depth
import ArtNetGen.Library.Counts

/-!
How the cutting loop ends. A turn that updates the netlist has one gate less to
offer to the next, and nothing but types is ever changed; so the loop is left
after at most one turn for each gate and one more.
-/

namespace Artnetgen

namespace Netlist

variable {nl nl' nl'' : Netlist}

/-- Some gates have become registers, and nothing else has changed. -/
structure Cuts (nl nl' : Netlist) : Prop where
  frame : nl' = { nl with node := fun v => { nl.node v with type := nl'.type v } }
  retypes : ∀ v, nl'.type v = nl.type v ∨
    v < nl.size ∧ nl.type v = .combinational ∧ nl'.type v = .sequential

theorem Cuts.refl (nl : Netlist) : Cuts nl nl := ⟨rfl, fun _ => Or.inl rfl⟩

theorem Cuts.node (h : Cuts nl nl') (v : NodeId) :
    nl'.node v = { nl.node v with type := nl'.type v } :=
  congrFun (congrArg Netlist.node h.frame) v

theorem Cuts.congr {β : Type} (h : Cuts nl nl') (field : Netlist → β)
    (hfield : ∀ node, field { nl with node } = field nl) : field nl' = field nl := by
  have hframe := congrArg field h.frame
  exact hframe.trans (hfield _)

theorem Cuts.size (h : Cuts nl nl') : nl'.size = nl.size := h.congr Netlist.size fun _ => rfl

theorem Cuts.graph (h : Cuts nl nl') : nl'.graph = nl.graph := by
  have hsources : nl'.sources = nl.sources := by
    funext v
    rw [Netlist.sources, h.node]
    rfl
  have hsinks : nl'.sinks = nl.sinks := by
    funext v
    rw [Netlist.sinks, h.node]
    rfl
  rw [Netlist.graph, Netlist.graph, hsources, hsinks]

theorem Cuts.primIns (h : Cuts nl nl') : nl'.primIns = nl.primIns :=
  h.congr Netlist.primIns fun _ => rfl

theorem Cuts.primOuts (h : Cuts nl nl') : nl'.primOuts = nl.primOuts :=
  h.congr Netlist.primOuts fun _ => rfl

theorem Cuts.trans (h : Cuts nl nl') (h' : Cuts nl' nl'') : Cuts nl nl'' := by
  refine ⟨?_, fun v => ?_⟩
  · have hnode : nl''.node = fun v => { nl.node v with type := nl''.type v } := by
      funext v
      rw [h'.node v, h.node v]
    calc nl'' = { nl' with node := nl''.node } := by
          rw [hnode]
          apply h'.frame.trans
          simp only [h.node]
      _ = { nl with node := nl''.node } := by
          rw [h.frame]
      _ = { nl with node := fun v => { nl.node v with type := nl''.type v } } := by
          rw [hnode]
  · rcases h'.retypes v with hkept | ⟨hlt, hcomb, hseq⟩
    · rw [hkept]
      exact h.retypes v
    · rcases h.retypes v with hkept | ⟨-, -, hseq'⟩
      · exact Or.inr ⟨h.size ▸ hlt, hkept ▸ hcomb, hseq⟩
      · rw [hseq'] at hcomb
        cases hcomb

theorem Cuts.setType {n : NodeId} (hlt : n < nl.size) (hcomb : nl.type n = .combinational) :
    Cuts nl (nl.setType n .sequential) := by
  refine ⟨?_, fun v => ?_⟩
  · rw [setType_type, Netlist.setType, modify]
    congr
    funext v
    by_cases hv : v = n
    · rw [hv, Function.update_self, Function.update_self]
    · rw [Function.update_of_ne hv, Function.update_of_ne hv]
      rfl
  · rw [setType_type]
    by_cases hv : v = n
    · rw [hv, Function.update_self]
      exact Or.inr ⟨hlt, hcomb, rfl⟩
    · exact Or.inl (Function.update_of_ne hv _ _)

theorem Cuts.numOf_le (h : Cuts nl nl') :
    nl'.numOf .combinational ≤ nl.numOf .combinational := by
  rw [numOf, numOf, nodes, nodes, h.size]
  refine List.countP_mono_left fun v _ hv => ?_
  rw [decide_eq_true_eq] at hv ⊢
  rcases h.retypes v with hkept | ⟨-, hcomb, -⟩
  · exact hkept ▸ hv
  · exact hcomb

theorem numOf_setType_lt {n : NodeId} (hlt : n < nl.size) (hcomb : nl.type n = .combinational) :
    (nl.setType n .sequential).numOf .combinational < nl.numOf .combinational := by
  rw [numOf, numOf]
  refine Counts.countP_lt (fun v _ hv => ?_) (List.mem_range.mpr hlt) ?_ ?_
  · rw [decide_eq_true_eq, setType_type] at hv
    rw [decide_eq_true_eq]
    by_cases hvn : v = n
    · exact hvn ▸ hcomb
    · rwa [Function.update_of_ne hvn] at hv
  · rw [decide_eq_true_eq, setType_type, Function.update_self]
    exact nofun
  · exact decide_eq_true hcomb

/-! ## One turn -/

theorem cutNodes_cuts {topoOrder : NodeId → ℤ} {targetMaxOrder : ℤ} {updated : Bool}
    (l : List NodeId) (hl : ∀ v ∈ l, v < nl.size) :
    Cuts nl (l.foldl (cutNode topoOrder targetMaxOrder) (nl, updated)).1 ∧
      ((l.foldl (cutNode topoOrder targetMaxOrder) (nl, updated)).2 = true → updated = true ∨
        (l.foldl (cutNode topoOrder targetMaxOrder) (nl, updated)).1.numOf .combinational <
          nl.numOf .combinational) := by
  induction l generalizing nl updated with
  | nil => exact ⟨Cuts.refl nl, Or.inl⟩
  | cons n rest ih =>
      obtain ⟨hn, hrest⟩ := List.forall_mem_cons.mp hl
      rw [List.foldl_cons, cutNode]
      split
      · next hcut =>
          obtain ⟨hcuts, -⟩ := @ih (nl.setType n .sequential) true hrest
          have hfewer := numOf_setType_lt hn hcut.2
          exact ⟨(Cuts.setType hn hcut.2).trans hcuts,
            fun _ => Or.inr (hcuts.numOf_le.trans_lt hfewer)⟩
      · exact @ih nl updated hrest

theorem Legal.cutTurn_cuts (hl : nl.Legal) (targetMaxOrder : ℤ) :
    ∃ nl' updated, nl.cutTurn targetMaxOrder = some (nl', updated) ∧ Cuts nl nl' ∧
      (updated = true → nl'.numOf .combinational < nl.numOf .combinational) := by
  obtain ⟨hcuts, hfewer⟩ := @cutNodes_cuts nl nl.order targetMaxOrder false nl.nodes
    fun v hv => List.mem_range.mp hv
  refine ⟨_, _, ?_, hcuts, fun hupdated => (hfewer hupdated).resolve_left nofun⟩
  unfold Netlist.cutTurn
  rw [hl.sortable.topologicalSort]
  rfl

/-! ## The loop -/

/-- The turns of the loop are fewer than `fuel` when there are fewer gates. -/
theorem Legal.cut_cuts (hl : nl.Legal) (targetMaxOrder : ℤ) {fuel : ℕ}
    (hfuel : nl.numOf .combinational < fuel) :
    ∃ nl', nl.cut targetMaxOrder fuel = some nl' ∧ Cuts nl nl' := by
  induction fuel generalizing nl with
  | zero => cases hfuel
  | succ fuel ih =>
      obtain ⟨nl1, updated, hturn, hcuts, hfewer⟩ := hl.cutTurn_cuts targetMaxOrder
      have hcut : nl.cut targetMaxOrder (fuel + 1) =
          if updated then nl1.cut targetMaxOrder fuel else some nl1 := by
        rw [Netlist.cut, hturn]
        rfl
      cases updated with
      | false => exact ⟨nl1, hcut, hcuts⟩
      | true =>
          have hl1 : nl1.Legal := hl.reworks (hl.cutTurn hturn).1
          have hless : nl1.numOf .combinational < fuel :=
            (hfewer rfl).trans_le (Nat.lt_succ_iff.mp hfuel)
          obtain ⟨nl', hrest, hcuts'⟩ := ih hl1 hless
          exact ⟨nl', hcut.trans hrest, hcuts.trans hcuts'⟩

theorem targetMaxOrder_pos {ang : ArtNetGen} (hpos : 0 < ang.avgTopoOrder) :
    ∃ T : ℕ, 0 < T ∧ ang.targetMaxOrder = T := by
  have hceil := Int.ceil_pos.mpr hpos
  refine ⟨ang.targetMaxOrder.toNat, ?_, (Int.toNat_of_nonneg ?_).symm⟩ <;>
    · unfold ArtNetGen.targetMaxOrder
      omega

/-- The loop is left after at most one turn for each gate and one more. Then
nothing lies deeper than the target, every gate lies above it, and apart from
the types of the nodes nothing has changed. -/
theorem cut_bounded (addr : NodeId ↪ ℕ) (ang : ArtNetGen) (s : Matching) (nl : Netlist)
    (hs : Matching.Reachable addr ang s) (hmasters : s.netlist.initOnlyUseMasters ang = some nl)
    (hpos : 0 < ang.avgTopoOrder) :
    ∃ nl' order, nl.cut ang.targetMaxOrder (nl.numOf .combinational + 1) = some nl' ∧
      nl'.topologicalSort = some order ∧
      (∀ v < nl'.size, 0 ≤ order v ∧ order v ≤ ang.targetMaxOrder ∧
        (nl'.type v = .combinational → order v < ang.targetMaxOrder)) ∧
      nl'.graph = nl.graph ∧ nl'.primIns = nl.primIns ∧ nl'.primOuts = nl.primOuts ∧
      nl' = { nl with node := fun v => { nl.node v with type := nl'.type v } } ∧
      ∀ v, nl'.type v = nl.type v ∨
        v < nl.size ∧ nl.type v = .combinational ∧ nl'.type v = .sequential := by
  have hl := (initOnlyUseMasters_spec hmasters).1.legal hs.legal
  obtain ⟨nl', hcut, hcuts⟩ := hl.cut_cuts ang.targetMaxOrder (Nat.lt_succ_self _)
  obtain ⟨hreworks, hnone⟩ := hl.cut hcut
  have hl' : nl'.Legal := hl.reworks hreworks
  obtain ⟨T, hT, htarget⟩ := targetMaxOrder_pos hpos
  rw [htarget] at hcut hnone ⊢
  have hbound := hl'.order_le hT hnone
  refine ⟨nl', nl'.order, hcut, hl'.sortable.topologicalSort, fun v hv => ?_, hcuts.graph,
    hcuts.primIns, hcuts.primOuts, hcuts.frame, hcuts.retypes⟩
  refine ⟨hl'.sortable.order_nonneg hl'.acyclic hv, hbound v hv, fun hcomb => ?_⟩
  exact lt_of_le_of_ne (hbound v hv) fun horder => hnone v hv horder hcomb

end Netlist

/-- The chains of the deep netlist are cut. -/
theorem Netlist.cut_bounded_deep :
    ∃ nl' order, deepEquipped.cut deepAng.targetMaxOrder
        (deepEquipped.numOf .combinational + 1) = some nl' ∧
      nl'.topologicalSort = some order ∧ ∀ v < nl'.size, order v ≤ deepAng.targetMaxOrder := by
  obtain ⟨nl', order, hcut, hsort, horder, -⟩ := Netlist.cut_bounded (.refl ℕ) deepAng deepEnd
    deepEquipped ⟨deepStart, (Option.some_get _).symm, deepTurns, (Option.some_get _).symm⟩
    (Option.some_get _).symm (by decide +kernel)
  exact ⟨nl', order, hcut, hsort, fun v hv => (horder v hv).2.1⟩

end Artnetgen
