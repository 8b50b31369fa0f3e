import ArtNetGen.Rewiring
import ArtNetGen.MatchingRun
import ArtNetGen.Library.Ports

/-!
Any sequence of merges, insertions and changes between gate and register, after
any run of `distMatching`: the two sides of the adjacency stay equal, without
parallel edges and loops, and ports stay ports.
-/

namespace Artnetgen

namespace Netlist

structure Sound (nl : Netlist) : Prop where
  simple : nl.graph.Simple
  fresh : ∀ v, nl.size ≤ v → nl.graph.Fresh v
  ported : nl.graph.Ported {v | nl.type v = .primaryIn} {v | nl.type v = .primaryOut}

/-- One edit. A merge leaves the types of the merged nodes to the caller, whose
change of them is an edit of its own. -/
inductive Edit (nl : Netlist) : Netlist → Prop where
  | retype {v : NodeId} {type : NodeType} (hlt : v < nl.size)
      (hfrom : (nl.type v).IsInstance) (hto : type.IsInstance) : Edit nl (nl.setType v type)
  | merge {n1 n2 n : NodeId} {front : Bool} {nl' : Netlist} (hdistinct : [n1, n2].Nodup)
      (hlt : ∀ t ∈ [n1, n2], t < nl.size) (hseq : ∀ t ∈ [n1, n2], nl.type t = .sequential)
      (h : nl.createMergeNode n1 n2 front = some (nl', n)) : Edit nl nl'
  | merge3 {n1 n2 n3 n : NodeId} {front : Bool} {nl' : Netlist}
      (hdistinct : [n1, n2, n3].Nodup) (hlt : ∀ t ∈ [n1, n2, n3], t < nl.size)
      (hseq : ∀ t ∈ [n1, n2, n3], nl.type t = .sequential)
      (h : nl.createMergeNode3 n1 n2 n3 front = some (nl', n)) : Edit nl nl'
  | insert {target : NodeId} {front : Bool} {nl' : Netlist} (hlt : target < nl.size)
      (hport : nl.type target ≠ .primaryIn ∧ nl.type target ≠ .primaryOut)
      (h : nl.insertSequentialNode target front = some nl') : Edit nl nl'

theorem not_port_of_isInstance {type : NodeType} (h : type.IsInstance) :
    type ≠ .primaryIn ∧ type ≠ .primaryOut := by
  rcases h with rfl | rfl <;> exact ⟨nofun, nofun⟩

variable {nl nl' : Netlist}

/-- The ports of the netlist in which the type of `v` has become `type`. -/
theorem ported_update {g : Adjacency NodeId} {type : NodeId → NodeType} (v : NodeId)
    {t : NodeType} (ht : t.IsInstance)
    (h : g.Ported {w | type w = .primaryIn} {w | type w = .primaryOut}) :
    g.Ported {w | Function.update type v t w = .primaryIn}
      {w | Function.update type v t w = .primaryOut} := by
  have hkept : ∀ w, Function.update type v t w ≠ t → Function.update type v t w = type w := by
    intro w hw
    by_cases hwv : w = v
    · rw [hwv, Function.update_self] at hw
      exact absurd rfl hw
    · exact Function.update_of_ne hwv t type
  obtain ⟨hin, hout⟩ := not_port_of_isInstance ht
  refine h.mono (fun w hw => ?_) fun w hw => ?_ <;>
    rw [Set.mem_ofPred_eq] at hw <;> rw [Set.mem_ofPred_eq, ← hw, hkept w]
  · exact hw ▸ hin.symm
  · exact hw ▸ hout.symm

theorem Sound.of_becomes {size : ℕ} {type : NodeId → NodeType} {binOf : NodeId → BinId}
    {graph : Adjacency NodeId} (h : Becomes nl nl' size type binOf graph) (hsimple : graph.Simple)
    (hfresh : ∀ v, size ≤ v → graph.Fresh v)
    (hported : graph.Ported {v | type v = .primaryIn} {v | type v = .primaryOut}) :
    nl'.Sound := by
  refine ⟨h.graph ▸ hsimple, ?_, ?_⟩
  · rw [h.graph, h.size]
    exact hfresh
  · rw [h.graph, h.type]
    exact hported

/-- Old nodes that are no ports are no ports after the new node has got its
type. -/
theorem not_port_update {targets : List NodeId} {t : NodeType} (ht : t.IsInstance)
    (hlt : ∀ v ∈ targets, v < nl.size)
    (hport : ∀ v ∈ targets, nl.type v ≠ .primaryIn ∧ nl.type v ≠ .primaryOut) :
    ∀ v ∈ nl.size :: targets,
      v ∉ {w | Function.update nl.type nl.size t w = .primaryIn} ∧
        v ∉ {w | Function.update nl.type nl.size t w = .primaryOut} := by
  intro v hv
  rw [Set.mem_ofPred_eq, Set.mem_ofPred_eq]
  rcases List.mem_cons.mp hv with rfl | hv
  · rw [Function.update_self]
    exact not_port_of_isInstance ht
  · rw [Function.update_of_ne (hlt v hv).ne]
    exact hport v hv

section Splice

variable {collected targets : List NodeId} {binOf : NodeId → BinId}

theorem Sound.spliceFront (hs : nl.Sound) (hc : collected.Nodup)
    (hfrom : ∀ u ∈ collected, ∃ t ∈ targets, u ∈ nl.sources t) (hl : targets.Nodup)
    (hlt : ∀ t ∈ targets, t < nl.size)
    (hport : ∀ t ∈ targets, nl.type t ≠ .primaryIn ∧ nl.type t ≠ .primaryOut)
    (h : Becomes nl nl' (nl.size + 1) (Function.update nl.type nl.size .sequential) binOf
      (nl.graph.spliceFront collected targets nl.size)) : nl'.Sound := by
  have hsize := hs.fresh nl.size le_rfl
  have hnot : nl.size ∉ targets := fun hmem => (hlt _ hmem).false
  have hnoneOf : ∀ v, nl.graph.Fresh v → v ∉ collected := fun v hv hmem => by
    obtain ⟨t, -, ht⟩ := hfrom v hmem
    exact hv.not_mem_sources hs.simple.mirrored t ht
  have hsimple := hs.simple.spliceFront hsize hc (hnoneOf _ hsize) hl hnot
  refine .of_becomes h hsimple (fun v hv => ?_) ?_
  · have hold := hs.fresh v (Nat.le_of_succ_le hv)
    exact Adjacency.Fresh.spliceFront hs.simple hsize hc (hnoneOf _ hsize) hl hnot hold
      (Nat.ne_of_gt hv) (hnoneOf v hold)
      fun hmem => absurd (hlt v hmem) (Nat.not_lt.mpr (Nat.le_of_succ_le hv))
  · exact (ported_update nl.size (Or.inr rfl) hs.ported).spliceFront hs.simple hsize hc
      (hnoneOf _ hsize) hl hnot hfrom (not_port_update (Or.inr rfl) hlt hport)

theorem Sound.spliceBack (hs : nl.Sound) (hc : collected.Nodup)
    (hfrom : ∀ u ∈ collected, ∃ t ∈ targets, u ∈ nl.sinks t) (hl : targets.Nodup)
    (hlt : ∀ t ∈ targets, t < nl.size)
    (hport : ∀ t ∈ targets, nl.type t ≠ .primaryIn ∧ nl.type t ≠ .primaryOut)
    (h : Becomes nl nl' (nl.size + 1) (Function.update nl.type nl.size .sequential) binOf
      (nl.graph.spliceBack collected targets nl.size)) : nl'.Sound := by
  have hsize := hs.fresh nl.size le_rfl
  have hnot : nl.size ∉ targets := fun hmem => (hlt _ hmem).false
  have hnoneOf : ∀ v, nl.graph.Fresh v → v ∉ collected := fun v hv hmem => by
    obtain ⟨t, -, ht⟩ := hfrom v hmem
    exact hv.not_mem_sinks hs.simple.mirrored t ht
  have hsimple := hs.simple.spliceBack hsize hc (hnoneOf _ hsize) hl hnot
  refine .of_becomes h hsimple (fun v hv => ?_) ?_
  · have hold := hs.fresh v (Nat.le_of_succ_le hv)
    exact Adjacency.Fresh.spliceBack hs.simple hsize hc (hnoneOf _ hsize) hl hnot hold
      (Nat.ne_of_gt hv) (hnoneOf v hold)
      fun hmem => absurd (hlt v hmem) (Nat.not_lt.mpr (Nat.le_of_succ_le hv))
  · exact (ported_update nl.size (Or.inr rfl) hs.ported).spliceBack hs.simple hsize hc
      (hnoneOf _ hsize) hl hnot hfrom (not_port_update (Or.inr rfl) hlt hport)

end Splice

/-- The gate and the register behind it are the two newest nodes. -/
theorem Sound.gateFront (hs : nl.Sound) {target : NodeId} {binOf : NodeId → BinId}
    (hlt : target < nl.size)
    (hport : nl.type target ≠ .primaryIn ∧ nl.type target ≠ .primaryOut)
    (h : Becomes nl nl' (nl.size + 2)
      (Function.update (Function.update nl.type nl.size .sequential) (nl.size + 1)
        .combinational)
      binOf (nl.graph.gateFront target (nl.size + 1) nl.size)) : nl'.Sound := by
  have hnode := hs.fresh nl.size le_rfl
  have hgate := hs.fresh (nl.size + 1) (Nat.le_succ _)
  have hne : nl.size + 1 ≠ nl.size := Nat.succ_ne_self _
  have htg : target ≠ nl.size + 1 := (Nat.lt_succ_of_lt hlt).ne
  refine .of_becomes h (hs.simple.gateFront hgate hnode hne htg hlt.ne) (fun v hv => ?_) ?_
  · have hvn : nl.size < v := Nat.lt_of_succ_lt hv
    exact Adjacency.Fresh.gateFront hs.simple hgate hnode hne htg hlt.ne (hs.fresh v hvn.le)
      (hlt.trans hvn).ne' (Nat.ne_of_gt hv) hvn.ne'
  · have hported := ported_update (nl.size + 1) (Or.inl rfl)
      (ported_update nl.size (Or.inr rfl) hs.ported)
    apply hported.gateFront hs.simple hgate hnode hne htg hlt.ne
    intro v hv
    rw [Set.mem_ofPred_eq, Set.mem_ofPred_eq]
    simp only [List.mem_cons, List.not_mem_nil, or_false] at hv
    rcases hv with rfl | rfl | rfl
    · rw [Function.update_of_ne htg, Function.update_of_ne hlt.ne]
      exact hport
    · rw [Function.update_self]
      exact ⟨nofun, nofun⟩
    · rw [Function.update_of_ne hne.symm, Function.update_self]
      exact ⟨nofun, nofun⟩

theorem Sound.setType (hs : nl.Sound) (v : NodeId) {type : NodeType} (hto : type.IsInstance) :
    (nl.setType v type).Sound := by
  refine ⟨?_, ?_, ?_⟩
  · rw [setType_graph]
    exact hs.simple
  · rw [setType_graph]
    exact hs.fresh
  · rw [setType_graph, setType_type]
    exact ported_update v hto hs.ported

theorem Sound.createMergeNodeAt (hs : nl.Sound) {b : BinId} {targets : List NodeId}
    {front : Bool} {n : NodeId} (hl : targets.Nodup) (hlt : ∀ t ∈ targets, t < nl.size)
    (hseq : ∀ t ∈ targets, nl.type t = .sequential)
    (h : nl.createMergeNodeAt b targets front = some (nl', n)) : nl'.Sound := by
  obtain ⟨-, hbecomes⟩ := createMergeNodeAt_becomes (hs.fresh _ le_rfl) h
  have hport : ∀ t ∈ targets, nl.type t ≠ .primaryIn ∧ nl.type t ≠ .primaryOut :=
    fun t ht => not_port_of_isInstance (Or.inr (hseq t ht))
  cases front
  · exact hs.spliceBack (nodup_gather _ _) (fun _ hv => mem_gather.mp hv) hl hlt hport hbecomes
  · exact hs.spliceFront (nodup_gather _ _) (fun _ hv => mem_gather.mp hv) hl hlt hport hbecomes

theorem Sound.insertSequentialNode (hs : nl.Sound) {target : NodeId} {front : Bool}
    (hlt : target < nl.size)
    (hport : nl.type target ≠ .primaryIn ∧ nl.type target ≠ .primaryOut)
    (h : nl.insertSequentialNode target front = some nl') : nl'.Sound := by
  have hlt' : ∀ t ∈ [target], t < nl.size := by simpa using hlt
  have hport' : ∀ t ∈ [target], nl.type t ≠ .primaryIn ∧ nl.type t ≠ .primaryOut := by
    simpa using hport
  have hself : ∀ {neighbours : List NodeId} {f : NodeId → List NodeId},
      f target = neighbours → ∀ u ∈ neighbours, ∃ t ∈ [target], u ∈ f t :=
    fun hf u hu => ⟨target, List.mem_singleton_self target, hf ▸ hu⟩
  cases front
  · exact hs.spliceBack (hs.simple.sinks_nodup target) (hself rfl) (List.nodup_singleton target)
      hlt' hport' (insertSequentialNode_back_becomes (hs.fresh _ le_rfl) h)
  · rcases insertSequentialNode_front_becomes hlt hs.fresh h with ⟨-, hbecomes⟩ | ⟨-, hbecomes⟩
    · exact hs.spliceFront (hs.simple.sources_nodup target) (hself rfl)
        (List.nodup_singleton target) hlt' hport' hbecomes
    · exact hs.gateFront hlt hport hbecomes

theorem Edit.sound (h : Edit nl nl') (hs : nl.Sound) : nl'.Sound := by
  cases h with
  | retype _ _ hto => exact hs.setType _ hto
  | merge hdistinct hlt hseq h => exact hs.createMergeNodeAt hdistinct hlt hseq h
  | merge3 hdistinct hlt hseq h =>
      simp only [createMergeNode3, Option.bind_eq_bind, Option.bind_eq_some_iff] at h
      obtain ⟨b, -, h⟩ := h
      exact hs.createMergeNodeAt hdistinct hlt hseq h
  | insert hlt hport h => exact hs.insertSequentialNode hlt hport h

theorem Sound.edits (hs : nl.Sound) (h : Relation.ReflTransGen Edit nl nl') : nl'.Sound := by
  induction h with
  | refl => exact hs
  | tail _ hedit ih => exact hedit.sound ih

/-- Construction by `connect` ends in a sound netlist. -/
theorem Wired.sound {addr : NodeId ↪ ℕ} (hw : Wired addr nl) : nl.Sound where
  simple := hw.simple
  fresh := hw.fresh
  ported := ⟨hw.primaryIn, hw.primaryOut⟩

theorem Sound.not_hasMultiPortConn (hs : nl.Sound) (v : NodeId) :
    (nl.node v).hasMultiPortConn = false := by
  unfold Node.hasMultiPortConn
  rw [List.any_eq_false]
  intro u _
  have hle : (nl.node v).sources.count u ≤ 1 :=
    List.nodup_iff_count_le_one.mp (hs.simple.sources_nodup v) u
  simpa using hle

end Netlist

/-- After any edits of any netlist that `distMatching` can reach. -/
theorem Netlist.mirrored_of_edits (addr : NodeId ↪ ℕ) (ang : ArtNetGen) (s : Matching)
    (nl : Netlist) (hs : Matching.Reachable addr ang s)
    (hedits : Relation.ReflTransGen Netlist.Edit s.netlist nl) :
    (∀ u v, (nl.sinks u).count v = (nl.sources v).count u ∧ (nl.sinks u).count v ≤ 1) ∧
      (∀ v, (nl.node v).hasMultiPortConn = false) ∧ (∀ u, u ∉ nl.sinks u) ∧
      (∀ v, nl.type v = .primaryIn → nl.sources v = []) ∧
      ∀ v, nl.type v = .primaryOut → nl.sinks v = [] ∧ (nl.sources v).length ≤ 1 := by
  have hsound := hs.inv.wired.sound.edits hedits
  exact ⟨fun u v => ⟨hsound.simple.mirrored u v, hsound.simple.simple u v⟩,
    hsound.not_hasMultiPortConn, hsound.simple.irreflexive, hsound.ported.input,
    hsound.ported.output⟩

/-! A register on either side of the gate of the small netlist, and the two
merged. -/

namespace Netlist

def smallGuarded : Netlist :=
  (smallEnd.netlist.insertSequentialNode 1 false).get (by decide +kernel)

def smallEnclosed : Netlist := (smallGuarded.insertSequentialNode 1 true).get (by decide +kernel)

def smallMerged : Netlist × NodeId :=
  (smallEnclosed.createMergeNode 4 3 true).get (by decide +kernel)

theorem smallMerged_edits :
    Relation.ReflTransGen Edit smallEnd.netlist (smallMerged.1.setType 4 .combinational) :=
  .tail (.tail (.tail (.single
    (@Edit.insert _ 1 false _ (by decide +kernel) (by decide +kernel)
      (Option.some_get _).symm))
    (@Edit.insert _ 1 true _ (by decide +kernel) (by decide +kernel)
      (Option.some_get _).symm))
    (@Edit.merge _ 4 3 smallMerged.2 true _ (by decide)
      (by decide +kernel) (by decide +kernel) (Option.some_get _).symm))
    (.retype (by decide +kernel) (by decide +kernel) (by decide +kernel))

end Netlist

theorem Netlist.mirrored_of_edits_small :
    5 ∉ (smallMerged.1.setType 4 .combinational).sinks 5 :=
  (Netlist.mirrored_of_edits (.refl ℕ) smallAng smallEnd _ smallEnd_reachable
    smallMerged_edits).2.2.1 5

end Artnetgen
