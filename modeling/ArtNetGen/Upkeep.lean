import ArtNetGen.Merging
import ArtNetGen.Shelves
import ArtNetGen.Outlines

/-!
When `createMergeNode` keeps the bins and the boxes in order. Only the merged
nodes and the new one are refiled, and only `addSink` makes a box larger.
-/

namespace Artnetgen

namespace Netlist

/-- Every bin lists its nodes and classifies them by their current numbers of
sources and sinks, and every box is that of the node's bin and its sinks' bins. -/
structure Tidy (nl : Netlist) : Prop where
  placed : nl.Placed
  indexed : nl.Indexed
  boxed : ∀ v < nl.size, nl.BoxedAt v

variable {nl nl' : Netlist} {type : NodeId → NodeType} {b : BinId} {graph : Adjacency NodeId}
  {collected targets : List NodeId}

/-! ## Boxes around a splice -/

theorem same_place {v w : NodeId} (h : nl.binOf v = nl.binOf w) :
    nl.x v = nl.x w ∧ nl.y v = nl.y w := by
  rw [x, y, x, y, h]
  exact ⟨rfl, rfl⟩

/-- The old nodes lie where they did. -/
theorem Becomes.old_x {size : ℕ} (h : Becomes nl nl' size type (Function.update nl.binOf nl.size b)
    graph) {v : NodeId} (hv : v < nl.size) : nl'.x v = nl.x v ∧ nl'.y v = nl.y v :=
  h.x_eq (Function.update_of_ne hv.ne b nl.binOf)

theorem Becomes.new_x {size : ℕ} (h : Becomes nl nl' size type (Function.update nl.binOf nl.size b)
    graph) : nl'.x nl.size = (nl.bin b).x ∧ nl'.y nl.size = (nl.bin b).y := by
  unfold x
  rw [y, h.binOf, Function.update_self]
  exact h.coords b

/-- A node lies at the bin of the new node only if it is in that bin. -/
theorem Becomes.same_place_iff {size : ℕ}
    (h : Becomes nl nl' size type (Function.update nl.binOf nl.size b) graph) (hp : nl.Placed)
    (hb : b < nl.numBins) {v : NodeId} (hv : v < nl.size) :
    (nl'.x v = nl'.x nl.size ∧ nl'.y v = nl'.y nl.size) ↔ nl.binOf v = b := by
  rw [(h.old_x hv).1, (h.old_x hv).2, h.new_x.1, h.new_x.2]
  constructor
  · rintro ⟨hx, hy⟩
    exact hp.bin_injective (hp.inGrid v hv) hb hx hy
  · rintro rfl
    exact ⟨rfl, rfl⟩

theorem Becomes.back_sinks {size : ℕ} {binOf : NodeId → BinId}
    (h : Becomes nl nl' size type binOf (nl.graph.spliceBack collected targets nl.size))
    (hfresh : nl.graph.Fresh nl.size) (hl : targets.Nodup) (hnot : nl.size ∉ targets)
    (v w : NodeId) : w ∈ nl'.sinks v ↔
      if v = nl.size then w ∈ collected else if v ∈ targets then w = nl.size
      else w ∈ nl.sinks v := by
  have hmem := Adjacency.mem_spliceBack_sinks collected targets hfresh hl hnot v w
  rw [← h.graph] at hmem
  exact hmem

theorem Becomes.front_sinks {size : ℕ} {binOf : NodeId → BinId}
    (h : Becomes nl nl' size type binOf (nl.graph.spliceFront collected targets nl.size))
    (hsimple : nl.graph.Simple) (hfresh : nl.graph.Fresh nl.size) (hc : collected.Nodup)
    (hnone : nl.size ∉ collected) (hl : targets.Nodup) (hnot : nl.size ∉ targets)
    (v w : NodeId) : w ∈ nl'.sinks v ↔
      if w = nl.size then v ∈ collected else if w ∈ targets then v = nl.size
      else w ∈ nl.sinks v := by
  have hmem := Adjacency.mem_spliceFront_sinks hsimple hfresh hc hnone hl hnot v w
  rw [← h.graph] at hmem
  exact hmem

/-- Behind the targets the new node takes their sinks over, but its box is still
its bin: the boxes are right only when all these sinks are in that bin. -/
theorem Becomes.boxed_back_iff
    (h : Becomes nl nl' (nl.size + 1) type (Function.update nl.binOf nl.size b)
      (nl.graph.spliceBack collected targets nl.size))
    (hsimple : nl.graph.Simple) (hfresh : ∀ v, nl.size ≤ v → nl.graph.Fresh v) (hp : nl.Placed)
    (hb : b < nl.numBins) (hcollected : ∀ w, w ∈ collected ↔ ∃ t ∈ targets, w ∈ nl.sinks t)
    (hl : targets.Nodup) (hlt : ∀ t ∈ targets, t < nl.size)
    (hnew : nl'.HullAt {nl.size} nl.size)
    (hold : ∀ v < nl.size, nl'.HullAt ({w | v ∈ targets ∧ w = nl.size} ∪ nl.net v) v) :
    (∀ v < nl'.size, nl'.BoxedAt v) ↔ ∀ w ∈ collected, nl.binOf w = b := by
  have hnot : nl.size ∉ targets := fun hin => (hlt _ hin).false
  have hsinks := h.back_sinks (hfresh _ le_rfl) hl hnot
  have hcollectedLt : ∀ w ∈ collected, w < nl.size := fun w hw => by
    obtain ⟨t, -, hsink⟩ := (hcollected w).mp hw
    exact (Drives.lt hsink hsimple hfresh).2
  have hpoint : ∀ c ∈ ({nl.size} : Set NodeId), nl'.x c = nl'.x nl.size ∧
      nl'.y c = nl'.y nl.size := by
    rintro c rfl
    exact ⟨rfl, rfl⟩
  constructor
  · intro hall w hw
    have hlast : nl.size < nl'.size := by
      rw [h.size]
      exact Nat.lt_succ_self _
    have hcover := (hnew.boxedAt_iff.mp (hall _ hlast)).1 w
      (mem_net.mpr (Or.inr ((hsinks _ w).mpr (by rwa [if_pos rfl]))))
    rw [Boxes.covers_point_iff hpoint (Set.mem_singleton nl.size)] at hcover
    exact (h.same_place_iff hp hb (hcollectedLt w hw)).mp hcover
  · intro hall v hv
    have hplace : ∀ w ∈ collected, nl'.x nl.size = nl'.x w ∧ nl'.y nl.size = nl'.y w := by
      intro w hw
      obtain ⟨hx, hy⟩ := (h.same_place_iff hp hb (hcollectedLt w hw)).mpr (hall w hw)
      exact ⟨hx.symm, hy.symm⟩
    rw [h.size] at hv
    rcases Nat.lt_succ_iff_lt_or_eq.mp hv with hvlt | rfl
    · refine (hold v hvlt).boxedAt_iff.mpr ⟨fun w hw => .of_mem ?_, fun w hw => ?_⟩
      · rw [mem_net, hsinks, if_neg hvlt.ne] at hw
        rcases hw with rfl | hw
        · exact Or.inr (mem_net.mpr (Or.inl rfl))
        · split at hw
          · next ht => exact Or.inl ⟨ht, hw⟩
          · exact Or.inr (mem_net.mpr (Or.inr hw))
      · rcases hw with ⟨ht, rfl⟩ | rfl | hw
        · exact .of_mem (mem_net.mpr (Or.inr ((hsinks v _).mpr (by simp [hvlt.ne, ht]))))
        · exact .of_mem (mem_net.mpr (Or.inl rfl))
        · by_cases ht : v ∈ targets
          · obtain ⟨hx, hy⟩ := hplace w ((hcollected w).mpr ⟨v, ht, hw⟩)
            exact .of_same (mem_net.mpr (Or.inr ((hsinks v _).mpr (by simp [hvlt.ne, ht])))) hx hy
          · refine .of_mem (mem_net.mpr (Or.inr ((hsinks v w).mpr ?_)))
            rwa [if_neg hvlt.ne, if_neg ht]
    · refine hnew.boxedAt_iff.mpr ⟨fun w hw => ?_, fun w hw => ?_⟩
      · rw [mem_net, hsinks, if_pos rfl] at hw
        rcases hw with rfl | hw
        · exact .of_mem rfl
        · obtain ⟨hx, hy⟩ := hplace w hw
          exact .of_same (Set.mem_singleton nl.size) hx hy
      · rw [Set.mem_singleton_iff.mp hw]
        exact .of_mem (mem_net.mpr (Or.inl rfl))

/-- In front of the targets the boxes are right when each former source still
reaches as far as the target it has lost. -/
theorem Becomes.boxed_front_iff
    (h : Becomes nl nl' (nl.size + 1) type (Function.update nl.binOf nl.size b)
      (nl.graph.spliceFront collected targets nl.size))
    (hsimple : nl.graph.Simple) (hfresh : ∀ v, nl.size ≤ v → nl.graph.Fresh v)
    (hcollected : ∀ u, u ∈ collected ↔ ∃ t ∈ targets, u ∈ nl.sources t) (hc : collected.Nodup)
    (hl : targets.Nodup) (hlt : ∀ t ∈ targets, t < nl.size)
    (hnew : nl'.HullAt ({w | w ∈ targets} ∪ {nl.size}) nl.size)
    (hold : ∀ v < nl.size, nl'.HullAt ({w | v ∈ collected ∧ w = nl.size} ∪ nl.net v) v) :
    (∀ v < nl'.size, nl'.BoxedAt v) ↔
      ∀ t ∈ targets, ∀ u ∈ nl.sources t, Boxes.Covers nl'.x nl'.y (nl'.net u) t := by
  have hnot : nl.size ∉ targets := fun hin => (hlt _ hin).false
  have hsourceLt : ∀ t, ∀ u ∈ nl.sources t, u < nl.size := fun t u hu =>
    (Drives.lt (hsimple.mirrored.mem_iff.mpr hu) hsimple hfresh).1
  have hnone : nl.size ∉ collected := fun hin => by
    obtain ⟨t, -, hsource⟩ := (hcollected _).mp hin
    exact (hsourceLt t _ hsource).false
  have hsinks := h.front_sinks hsimple (hfresh _ le_rfl) hc hnone hl hnot
  constructor
  · intro hall t ht u hu
    have hult := hsourceLt t u hu
    have hsink : t ∈ nl.sinks u := hsimple.mirrored.mem_iff.mpr hu
    have hsize : u < nl'.size := by
      rw [h.size]
      exact Nat.lt_succ_of_lt hult
    exact ((hold u hult).boxedAt_iff.mp (hall u hsize)).2 t (Or.inr (mem_net.mpr (Or.inr hsink)))
  · intro hall v hv
    rw [h.size] at hv
    rcases Nat.lt_succ_iff_lt_or_eq.mp hv with hvlt | rfl
    · refine (hold v hvlt).boxedAt_iff.mpr ⟨fun w hw => .of_mem ?_, fun w hw => ?_⟩
      · rw [mem_net, hsinks] at hw
        rcases hw with rfl | hw
        · exact Or.inr (mem_net.mpr (Or.inl rfl))
        · split at hw
          · next hwn => exact Or.inl ⟨hw, hwn⟩
          · split at hw
            · exact absurd hw hvlt.ne
            · exact Or.inr (mem_net.mpr (Or.inr hw))
      · rcases hw with ⟨hin, rfl⟩ | rfl | hw
        · exact .of_mem (mem_net.mpr (Or.inr ((hsinks v _).mpr (by rwa [if_pos rfl]))))
        · exact .of_mem (mem_net.mpr (Or.inl rfl))
        · by_cases ht : w ∈ targets
          · exact hall w ht v (hsimple.mirrored.mem_iff.mp hw)
          · refine .of_mem (mem_net.mpr (Or.inr ((hsinks v w).mpr ?_)))
            rwa [if_neg (Drives.lt hw hsimple hfresh).2.ne, if_neg ht]
    · refine hnew.boxedAt_iff.mpr ⟨fun w hw => .of_mem ?_, fun w hw => .of_mem ?_⟩
      · rw [mem_net, hsinks] at hw
        rcases hw with rfl | hw
        · exact Or.inr rfl
        · split at hw
          · exact absurd hw hnone
          · split at hw
            · next ht => exact Or.inl ht
            · exact absurd (Drives.lt hw hsimple hfresh).1 (lt_irrefl _)
      · rcases hw with ht | rfl
        · change w ∈ targets at ht
          apply mem_net.mpr
          right
          apply (hsinks _ w).mpr
          rw [if_neg (hlt w ht).ne, if_pos ht]
        · exact mem_net.mpr (Or.inl rfl)

/-! ## Boxes after a merge -/

/-- A new node starts at its bin and the old ones with the boxes of their nets. -/
theorem Grows.hulls {t : NodeType} {name : String} {lx ly ux uy : ℕ} {nl1 : Netlist}
    {R : NodeId → NodeId → Prop} (h : Grows nl1 nl' R)
    (hcreate : nl.createNode t b name lx ly ux uy = some nl1) (hsimple : nl.graph.Simple)
    (hfresh : nl.graph.Fresh nl.size) (hboxed : ∀ v < nl.size, nl.BoxedAt v) :
    nl'.HullAt ({w | R nl.size w} ∪ {nl.size}) nl.size ∧
      ∀ v < nl.size, nl'.HullAt ({w | R v w} ∪ nl.net v) v := by
  obtain ⟨hnew, hold⟩ := createNode_hull hcreate
  refine ⟨h _ _ hnew, fun v hv => h v _ (hold v hv.ne _ ?_ (boxedAt_iff.mp (hboxed v hv)))⟩
  rintro (heq | hsink)
  · exact hv.ne heq.symm
  · exact hfresh.not_mem_sinks hsimple.mirrored v hsink

section Merge

variable {n1 n2 n : NodeId}

/-- The node that is merged second lies in the box of a former source when the
rest of that source's net and the node merged first span it. -/
theorem Becomes.covers_second_iff
    (h : Becomes nl nl' (nl.size + 1) type (Function.update nl.binOf nl.size (nl.binOf n1))
      (nl.graph.spliceFront (gather nl.sources [n1, n2]) [n1, n2] nl.size))
    (hsimple : nl.graph.Simple) (hfresh : ∀ v, nl.size ≤ v → nl.graph.Fresh v)
    (hlt1 : n1 < nl.size) (hlt2 : n2 < nl.size)
    (hsinks : ∀ v w, w ∈ nl'.sinks v ↔ if w = nl.size then v ∈ gather nl.sources [n1, n2]
      else if w ∈ [n1, n2] then v = nl.size else w ∈ nl.sinks v)
    {u : NodeId} (hu : u ∈ nl.sources n2) :
    Boxes.Covers nl'.x nl'.y (nl'.net u) n2 ↔
      Boxes.Covers nl.x nl.y (insert n1 (nl.net u \ {n2})) n2 := by
  have hsink : n2 ∈ nl.sinks u := hsimple.mirrored.mem_iff.mpr hu
  have hult := (Drives.lt hsink hsimple hfresh).1
  have hself : u ≠ n2 := by
    rintro rfl
    exact hsimple.irreflexive u hsink
  have hplace : nl'.x nl.size = nl.x n1 ∧ nl'.y nl.size = nl.y n1 := h.new_x
  have hreach : nl.size ∈ nl'.net u := by
    apply mem_net.mpr
    right
    apply (hsinks u nl.size).mpr
    rw [if_pos rfl]
    exact mem_gather.mpr ⟨n2, by simp, hu⟩
  constructor
  · refine fun hcover => hcover.congr (fun w hw => ?_)
      ⟨(h.old_x hlt2).1.symm, (h.old_x hlt2).2.symm⟩
    rw [mem_net, hsinks] at hw
    rcases hw with rfl | hw
    · exact ⟨w, Or.inr ⟨mem_net.mpr (Or.inl rfl), hself⟩, (h.old_x hult).1.symm,
        (h.old_x hult).2.symm⟩
    · split at hw
      · next heq =>
          subst heq
          exact ⟨n1, Or.inl rfl, hplace.1.symm, hplace.2.symm⟩
      · split at hw
        · exact absurd hw hult.ne
        · next hout =>
            have hwlt := (Drives.lt hw hsimple hfresh).2
            exact ⟨w, Or.inr ⟨mem_net.mpr (Or.inr hw), fun heq => hout (by simp [heq.symm])⟩,
              (h.old_x hwlt).1.symm, (h.old_x hwlt).2.symm⟩
  · refine fun hcover => hcover.congr (fun w hw => ?_) (h.old_x hlt2)
    rcases hw with rfl | ⟨rfl | hw, hne2⟩
    · exact ⟨nl.size, hreach, hplace⟩
    · exact ⟨w, mem_net.mpr (Or.inl rfl), h.old_x hult⟩
    · by_cases hw1 : w = n1
      · exact hw1 ▸ ⟨nl.size, hreach, hplace⟩
      · have hwlt := (Drives.lt hw hsimple hfresh).2
        refine ⟨w, mem_net.mpr (Or.inr ((hsinks u w).mpr ?_)), h.old_x hwlt⟩
        rw [if_neg hwlt.ne, if_neg (by simpa using ⟨hw1, hne2⟩)]
        exact hw

theorem createMergeNode_back_boxed_iff (hsimple : nl.graph.Simple)
    (hfresh : ∀ v, nl.size ≤ v → nl.graph.Fresh v) (ht : nl.Tidy) (hne : n1 ≠ n2)
    (hlt1 : n1 < nl.size) (hlt2 : n2 < nl.size)
    (h : nl.createMergeNode n1 n2 false = some (nl', n)) :
    (∀ v < nl'.size, nl'.BoxedAt v) ↔
      ∀ w, w ∈ nl.sinks n1 ∨ w ∈ nl.sinks n2 → nl.binOf w = nl.binOf n1 := by
  obtain ⟨-, hbecomes⟩ := createMergeNodeAt_becomes (hfresh _ le_rfl) h
  simp only [createMergeNode, createMergeNodeAt, Option.bind_eq_bind, Option.bind_eq_some_iff,
    Option.pure_def, Option.some.injEq, Prod.mk.injEq] at h
  obtain ⟨nl1, hnl1, nl2, hnl2, rfl, rfl⟩ := h
  have hgrows : Grows nl1 nl2 fun v w => v ∈ [n1, n2] ∧ w = nl.size :=
    ((nl1.grows_merge_back nl.size [n1, n2]).trans (grows_updates hnl2)).congr (by simp)
  obtain ⟨hnew, hold⟩ := hgrows.hulls hnl1 hsimple (hfresh _ le_rfl) ht.boxed
  have hnone : {w | nl.size ∈ [n1, n2] ∧ w = nl.size} ∪ {nl.size} = {nl.size} := by
    simp [hlt1.ne', hlt2.ne']
  rw [hnone] at hnew
  rw [hbecomes.boxed_back_iff hsimple hfresh ht.placed (ht.placed.inGrid n1 hlt1)
    (fun w => mem_gather) (by simpa using hne) (by simp [hlt1, hlt2]) hnew hold]
  simp [mem_gather]

theorem createMergeNode_front_boxed_iff (hsimple : nl.graph.Simple)
    (hfresh : ∀ v, nl.size ≤ v → nl.graph.Fresh v) (ht : nl.Tidy) (hne : n1 ≠ n2)
    (hlt1 : n1 < nl.size) (hlt2 : n2 < nl.size)
    (h : nl.createMergeNode n1 n2 true = some (nl', n)) :
    (∀ v < nl'.size, nl'.BoxedAt v) ↔ ∀ u ∈ nl.sources n2,
      Boxes.Covers nl.x nl.y (insert n1 (nl.net u \ {n2})) n2 := by
  obtain ⟨-, hbecomes⟩ := createMergeNodeAt_becomes (hfresh _ le_rfl) h
  simp only [createMergeNode, createMergeNodeAt, Option.bind_eq_bind, Option.bind_eq_some_iff,
    Option.pure_def, Option.some.injEq, Prod.mk.injEq] at h
  obtain ⟨nl1, hnl1, nl2, hnl2, rfl, rfl⟩ := h
  have hcreate := createNode_becomes (hfresh _ le_rfl) (merge_ne_pin _) hnl1
  have hsources : nl1.sources = nl.sources := congrArg Adjacency.sources hcreate.graph
  have hgrows : Grows nl1 nl2 fun v w => (v = nl.size ∧ w ∈ [n1, n2]) ∨
      (v ∈ gather nl.sources [n1, n2] ∧ w = nl.size) :=
    ((nl1.grows_merge_front nl.size [n1, n2]).trans (grows_updates hnl2)).congr
      (by simp [hsources])
  obtain ⟨hnew, hold⟩ := hgrows.hulls hnl1 hsimple (hfresh _ le_rfl) ht.boxed
  have hnone : nl.size ∉ gather nl.sources [n1, n2] := fun hin => by
    obtain ⟨t, -, hsource⟩ := mem_gather.mp hin
    exact (Drives.lt (hsimple.mirrored.mem_iff.mpr hsource) hsimple hfresh).1.false
  have hl : [n1, n2].Nodup := by simpa using hne
  have hlt : ∀ t ∈ [n1, n2], t < nl.size := by simp [hlt1, hlt2]
  have hsinks := hbecomes.front_sinks hsimple (hfresh _ le_rfl) (nodup_gather _ _) hnone hl
    fun hin => (hlt _ hin).false
  rw [hbecomes.boxed_front_iff hsimple hfresh (fun u => mem_gather) (nodup_gather _ _) hl hlt
    (by simpa [hnone] using hnew) fun v hv => by simpa [hv.ne] using hold v hv]
  -- The new node is in the bin of the first node, so only the second may be out of reach.
  have hfirst : ∀ u ∈ nl.sources n1, Boxes.Covers nl2.x nl2.y (nl2.net u) n1 := fun u hu => by
    obtain ⟨hx1, hy1⟩ := hbecomes.old_x hlt1
    obtain ⟨hx, hy⟩ := hbecomes.new_x
    refine .of_same (mem_net.mpr (Or.inr ((hsinks u nl.size).mpr ?_))) (hx.trans hx1.symm)
      (hy.trans hy1.symm)
    rw [if_pos rfl]
    exact mem_gather.mpr ⟨n1, by simp, hu⟩
  have hsecond := fun u (hu : u ∈ nl.sources n2) =>
    hbecomes.covers_second_iff hsimple hfresh hlt1 hlt2 hsinks hu
  constructor
  · exact fun hall u hu => (hsecond u hu).mp (hall n2 (by simp) u hu)
  · intro hall t ht u hu
    rcases List.mem_pair.mp ht with rfl | rfl
    · exact hfirst u hu
    · exact (hsecond u hu).mpr (hall u hu)

/-- The merged nodes and the new one are refiled, so the classes are current when
no other node has gained or lost a connection. -/
theorem createMergeNode_indexed_iff {front : Bool} (ht : nl.Tidy) (hlt1 : n1 < nl.size)
    (hlt2 : n2 < nl.size) (h : nl.createMergeNode n1 n2 front = some (nl', n)) :
    nl'.Placed ∧ (nl'.Indexed ↔ ∀ v < nl.size, v ∉ [n1, n2] →
      nl'.numFanins v = nl.numFanins v ∧ nl'.numFanouts v = nl.numFanouts v) := by
  have hlt : ∀ t ∈ [n1, n2], t < nl.size := by simp [hlt1, hlt2]
  have hsize := (createMergeNodeAt_placed h).2.size
  obtain ⟨-, hshelved⟩ := createMergeNodeAt_shelved ⟨ht.placed, ht.indexed⟩
    (ht.placed.inGrid n1 hlt1) hlt h
  refine ⟨hshelved.placed, hshelved.indexed_iff.trans ?_⟩
  rw [hsize]
  constructor
  · intro hall v hv hout
    have hout' : v ∉ [n1, n2] ++ [nl.size] := by
      rw [List.mem_append, not_or]
      exact ⟨hout, by simpa using hv.ne⟩
    obtain ⟨hfi, hfo⟩ := hall v (Nat.lt_succ_of_lt hv)
    rw [refiled, if_neg hout'] at hfi hfo
    exact ⟨hfi.symm, hfo.symm⟩
  · intro hall v hv
    by_cases hin : v ∈ [n1, n2] ++ [nl.size]
    · simp only [refiled, if_pos hin, and_self]
    · simp only [refiled, if_neg hin]
      rw [List.mem_append, not_or] at hin
      obtain ⟨hfi, hfo⟩ := hall v
        (Nat.lt_of_le_of_ne (Nat.lt_succ_iff.mp hv) (by simpa using hin.2)) hin.1
      exact ⟨hfi.symm, hfo.symm⟩

/-- Whatever drives both nodes, or is driven by both, is filed wrongly. -/
theorem createMergeNode_counts_iff {front : Bool} (hsimple : nl.graph.Simple)
    (hfresh : ∀ v, nl.size ≤ v → nl.graph.Fresh v) (hne : n1 ≠ n2) (hlt1 : n1 < nl.size)
    (hlt2 : n2 < nl.size) (h : nl.createMergeNode n1 n2 front = some (nl', n)) :
    (∀ v < nl.size, v ∉ [n1, n2] →
      nl'.numFanins v = nl.numFanins v ∧ nl'.numFanouts v = nl.numFanouts v) ↔
      if front then ∀ u ∈ nl.sources n1, u ∉ nl.sources n2
      else ∀ w ∈ nl.sinks n1, w ∉ nl.sinks n2 := by
  have hmirrored : ∀ u v, v ∈ nl.sinks u ↔ u ∈ nl.sources v := fun u v =>
    hsimple.mirrored.mem_iff
  cases front with
  | true =>
      have hmerged := createMergeNode_front_lists hsimple (hfresh _ le_rfl) hne hlt1 hlt2 h
      exact hmerged.degrees_iff hne hmirrored hsimple.sinks_nodup hsimple.not_mem_sources
        fun u v hu => (Drives.lt ((hmirrored u v).mpr hu) hsimple hfresh).1
  | false =>
      have hmerged := createMergeNode_back_lists hsimple (hfresh _ le_rfl) hne hlt1 hlt2 h
      have hdegrees := hmerged.degrees_iff hne (fun u v => (hmirrored v u).symm)
        hsimple.sources_nodup hsimple.irreflexive fun w v hw => (Drives.lt hw hsimple hfresh).2
      refine Iff.trans ?_ hdegrees
      exact forall_congr' fun v => forall_congr' fun _ => forall_congr' fun _ => and_comm

end Merge

/-- No other node is connected to both nodes on the side where the register goes,
and the boxes that change are still spanned. In front, a source of the second
node reaches as far without it; behind, all sinks are in the first node's bin. -/
def MergesTidily (nl : Netlist) (n1 n2 : NodeId) (front : Bool) : Prop :=
  if front then
    (∀ u ∈ nl.sources n1, u ∉ nl.sources n2) ∧
      ∀ u ∈ nl.sources n2, Boxes.Covers nl.x nl.y (insert n1 (nl.net u \ {n2})) n2
  else
    (∀ w ∈ nl.sinks n1, w ∉ nl.sinks n2) ∧
      ∀ w, w ∈ nl.sinks n1 ∨ w ∈ nl.sinks n2 → nl.binOf w = nl.binOf n1

theorem Tidy.createMergeNode_iff {n1 n2 n : NodeId} {front : Bool} (ht : nl.Tidy)
    (hsimple : nl.graph.Simple) (hfresh : ∀ v, nl.size ≤ v → nl.graph.Fresh v) (hne : n1 ≠ n2)
    (hlt1 : n1 < nl.size) (hlt2 : n2 < nl.size)
    (h : nl.createMergeNode n1 n2 front = some (nl', n)) :
    nl'.Tidy ↔ nl.MergesTidily n1 n2 front := by
  obtain ⟨hplaced, hindexed⟩ := createMergeNode_indexed_iff ht hlt1 hlt2 h
  rw [createMergeNode_counts_iff hsimple hfresh hne hlt1 hlt2 h] at hindexed
  have hparts : nl'.Tidy ↔ nl'.Indexed ∧ ∀ v < nl'.size, nl'.BoxedAt v :=
    ⟨fun ht' => ⟨ht'.indexed, ht'.boxed⟩, fun ⟨hi, hboxed⟩ => ⟨hplaced, hi, hboxed⟩⟩
  rw [hparts, hindexed]
  cases front with
  | true => rw [createMergeNode_front_boxed_iff hsimple hfresh ht hne hlt1 hlt2 h]; rfl
  | false => rw [createMergeNode_back_boxed_iff hsimple hfresh ht hne hlt1 hlt2 h]; rfl

end Netlist

end Artnetgen
