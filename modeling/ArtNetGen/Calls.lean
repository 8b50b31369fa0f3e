import ArtNetGen.Splitting
import ArtNetGen.Reinit

/-!
The calls that index the tables of fan-ins and fan-outs: `Bin::addNode` and
`Bin::update`, `hasMaster`, and the classification of the nodes. An edge and a
cut never leave the tables. A merge gives its new register two sinks or two
sources and a split gives one of each, so these leave the tables when the
tables are smaller than that.
-/

namespace Artnetgen

namespace Netlist

variable {nl nl' : Netlist} {fi fo : NodeId → ℕ}

/-! ## Sequences of updates -/

/-- A call of `update` in the loop over a list of nodes that starts on the first
netlist: the netlist it is made on and its node. -/
inductive UpdateCall : Netlist → List NodeId → Netlist → NodeId → Prop where
  | head (nl : Netlist) (v : NodeId) (rest : List NodeId) : UpdateCall nl (v :: rest) nl v
  | tail {nl mid call : Netlist} {v w : NodeId} {rest : List NodeId}
      (hupdate : nl.update (nl.binOf v) v = some mid) (hcall : UpdateCall mid rest call w) :
      UpdateCall nl (v :: rest) call w

/-- Updates leave the graph alone, so all of them are in range exactly when the
nodes were before the first. -/
theorem Shelved.updateCalls_iff {l : List NodeId} (h : nl.Shelved fi fo)
    (hl : ∀ v ∈ l, v < nl.size) :
    (∀ call v, UpdateCall nl l call v → call.Within v) ↔ ∀ v ∈ l, nl.Within v := by
  constructor
  · intro hall
    induction l generalizing nl fi fo with
    | nil => simp
    | cons v rest ih =>
        obtain ⟨hv, hrest⟩ := List.forall_mem_cons.mp hl
        have hwithin := hall nl v (.head nl v rest)
        obtain ⟨mid, hmid⟩ := h.update_isDefined hv hwithin
        obtain ⟨-, hshelved⟩ := h.update hv hmid
        have hstays := update_stays hmid
        have hmore := ih hshelved (hstays.size.symm ▸ hrest)
          fun call w hcall => hall call w (.tail hmid hcall)
        exact List.forall_mem_cons.mpr ⟨hwithin, fun w hw =>
          (within_congr hstays.keeps hstays.graph w).mp (hmore w hw)⟩
  · intro hall call v hcall
    induction hcall generalizing fi fo with
    | head nl v rest => exact hall v List.mem_cons_self
    | @tail nl mid call v w rest hmid hcall ih =>
        obtain ⟨hv, hrest⟩ := List.forall_mem_cons.mp hl
        obtain ⟨-, hshelved⟩ := h.update hv hmid
        have hstays := update_stays hmid
        exact ih hshelved (hstays.size.symm ▸ hrest) fun u hu =>
          (within_congr hstays.keeps hstays.graph u).mpr (hall u (List.mem_cons_of_mem _ hu))

/-! ## A merge -/

/-- The new node of `createMergeNode` before it is wired. -/
def mergeNode (nl : Netlist) (b : BinId) (targets : List NodeId) : Option Netlist :=
  let least (f : Node → ℕ) : ℕ := (targets.tail.map fun t => f (nl.node t)).foldl min
    (f (nl.node (targets.headD 0)))
  let largest (f : Node → ℕ) : ℕ := (targets.tail.map fun t => f (nl.node t)).foldl max
    (f (nl.node (targets.headD 0)))
  nl.createNode .sequential b ("merge" ++ toString nl.size)
    (least Node.lx) (least Node.ly) (largest Node.ux) (largest Node.uy)

theorem createMergeNodeAt_eq (nl : Netlist) (b : BinId) (targets : List NodeId) (front : Bool) :
    nl.createMergeNodeAt b targets front = do
      let created ← nl.mergeNode b targets
      let merged ← (targets ++ [nl.size]).foldlM (fun nl v => nl.update (nl.binOf v) v)
        (created.merge nl.size targets front)
      return (merged, nl.size) := rfl

/-- A call of `addNode` or `update` in `createMergeNode`. The new node is added
before it has any neighbours. -/
inductive MergeCall (nl : Netlist) (b : BinId) (targets : List NodeId) (front : Bool) :
    Netlist → NodeId → Prop where
  | add : MergeCall nl b targets front nl.newNode nl.size
  | update {created call : Netlist} {v : NodeId} (hcreate : nl.mergeNode b targets = some created)
      (hcall : UpdateCall (created.merge nl.size targets front) (targets ++ [nl.size]) call v) :
      MergeCall nl b targets front call v

/-- The call that adds a node without neighbours. -/
theorem Fits.newNode_within (hf : nl.Fits) (hs : nl.Sound) {v : NodeId} (hv : v < nl.size) :
    nl.newNode.Within nl.size := by
  obtain ⟨hfi, hfo⟩ := hf.within v hv
  have hgraph := newNode_graph (hs.fresh nl.size le_rfl)
  obtain ⟨hsources, hsinks⟩ := hs.fresh nl.size le_rfl
  have hfanins : nl.newNode.numFanins nl.size = 0 := by
    rw [numFanins_congr hgraph]
    exact congrArg List.length hsources
  have hfanouts : nl.newNode.numFanouts nl.size = 0 := by
    rw [numFanouts_congr hgraph]
    exact congrArg List.length hsinks
  unfold Within
  rw [hfanins, hfanouts]
  change ((0 : ℕ) : ℤ) ≤ nl.fiDist.xMax ∧ ((0 : ℕ) : ℤ) ≤ nl.foDist.xMax
  omega

theorem length_pushNew_le (acc l : List NodeId) : (pushNew acc l).length ≤ acc.length + l.length := by
  induction l generalizing acc with
  | nil => simp [pushNew]
  | cons v rest ih =>
      have hone : (if v ∈ acc then acc else acc ++ [v]).length ≤ acc.length + 1 := by
        split <;> simp
      have hrest := ih (if v ∈ acc then acc else acc ++ [v])
      unfold pushNew
      rw [List.foldl_cons, List.length_cons]
      unfold pushNew at hrest
      omega

theorem length_gather_pair_le (neighbours : NodeId → List NodeId) (n1 n2 : NodeId) :
    (gather neighbours [n1, n2]).length ≤ (neighbours n1).length + (neighbours n2).length := by
  have h1 := length_pushNew_le [] (neighbours n1)
  have h2 := length_pushNew_le (pushNew [] (neighbours n1)) (neighbours n2)
  have heq : gather neighbours [n1, n2] =
      pushNew (pushNew [] (neighbours n1)) (neighbours n2) := rfl
  rw [List.length_nil] at h1
  rw [heq]
  omega

/-- Numbers of neighbours after a register has been spliced in front of a
pair. -/
theorem Sound.front_degrees (hs : nl.Sound) {n1 n2 : NodeId} (hne : n1 ≠ n2)
    (hlt1 : n1 < nl.size) (hlt2 : n2 < nl.size) :
    let g := nl.graph.spliceFront (gather nl.sources [n1, n2]) [n1, n2] nl.size
    (g.sources nl.size).length ≤ nl.numFanins n1 + nl.numFanins n2 ∧
      (g.sinks nl.size).length = 2 ∧
      ∀ t ∈ [n1, n2], (g.sources t).length = 1 ∧ (g.sinks t).length ≤ nl.numFanouts t := by
  have hfresh := hs.fresh nl.size le_rfl
  have hnot : nl.size ∉ [n1, n2] := by simp [hlt1.ne', hlt2.ne']
  have hnodup : [n1, n2].Nodup := by simpa using hne
  have hcollected : nl.size ∉ gather nl.sources [n1, n2] := fun hin => by
    obtain ⟨t, -, ht⟩ := mem_gather.mp hin
    exact hfresh.not_mem_sources hs.simple.mirrored t ht
  have hreplaces : nl.graph.Replaces {v | v ∈ [n1, n2]} {nl.size} (gather nl.sources [n1, n2])
      [n1, n2] nl.size :=
    ⟨hs.simple, hfresh, nodup_gather _ _, hcollected, hnodup, hnot, fun t ht => ht,
      fun v => by
        simp only [Set.mem_singleton_iff, Set.mem_ofPred_eq]
        tauto⟩
  have hsources : ∀ u, _ := fun u => nl.graph.spliceFront_sources (gather nl.sources [n1, n2])
    [n1, n2] nl.size u hfresh.1 hnodup hnot
  refine ⟨?_, hreplaces.length_front_node, fun t ht => ⟨?_, ?_⟩⟩
  · rw [hsources, if_pos rfl]
    exact length_gather_pair_le nl.sources n1 n2
  · have hlt : t ≠ nl.size := fun heq => hnot (heq ▸ ht)
    rw [hsources, if_neg hlt, if_pos ht]
    rfl
  · exact hreplaces.length_front_sinks_le (fun u => mem_gather) fun heq => hnot (heq ▸ ht)

/-- And behind a pair. -/
theorem Sound.back_degrees (hs : nl.Sound) {n1 n2 : NodeId} (hne : n1 ≠ n2)
    (hlt1 : n1 < nl.size) (hlt2 : n2 < nl.size) :
    let g := nl.graph.spliceBack (gather nl.sinks [n1, n2]) [n1, n2] nl.size
    (g.sources nl.size).length = 2 ∧
      (g.sinks nl.size).length ≤ nl.numFanouts n1 + nl.numFanouts n2 ∧
      ∀ t ∈ [n1, n2], (g.sources t).length ≤ nl.numFanins t ∧ (g.sinks t).length = 1 := by
  have hfresh := hs.fresh nl.size le_rfl
  have hnot : nl.size ∉ [n1, n2] := by simp [hlt1.ne', hlt2.ne']
  have hnodup : [n1, n2].Nodup := by simpa using hne
  have hcollected : nl.size ∉ gather nl.sinks [n1, n2] := fun hin => by
    obtain ⟨t, -, ht⟩ := mem_gather.mp hin
    exact hfresh.not_mem_sinks hs.simple.mirrored t ht
  have hreplaces : nl.graph.Replaces {v | v ∈ [n1, n2]} {nl.size} (gather nl.sinks [n1, n2])
      [n1, n2] nl.size :=
    ⟨hs.simple, hfresh, nodup_gather _ _, hcollected, hnodup, hnot, fun t ht => ht,
      fun v => by
        simp only [Set.mem_singleton_iff, Set.mem_ofPred_eq]
        tauto⟩
  have hsinks : ∀ u, _ := fun u => nl.graph.spliceBack_sinks (gather nl.sinks [n1, n2])
    [n1, n2] nl.size u hfresh.2 hnodup hnot
  refine ⟨hreplaces.length_back_node, ?_, fun t ht => ⟨?_, ?_⟩⟩
  · rw [hsinks, if_pos rfl]
    exact length_gather_pair_le nl.sinks n1 n2
  · exact hreplaces.length_back_sources_le (fun u => mem_gather) fun heq => hnot (heq ▸ ht)
  · have hlt : t ≠ nl.size := fun heq => hnot (heq ▸ ht)
    rw [hsinks, if_neg hlt, if_pos ht]
    rfl

/-- What the guards ask of a pair, and what they do not: room for the two sinks
or the two sources of the new register. -/
def MergeRoom (nl : Netlist) (front : Bool) : Prop :=
  if front then 1 ≤ nl.fiDist.xMax ∧ 2 ≤ nl.foDist.xMax else 2 ≤ nl.fiDist.xMax

/-- The guard of the pass on the pair it merges. -/
def Guarded (nl : Netlist) (front : Bool) (n1 n2 : NodeId) : Prop :=
  (front = true → ((nl.numFanins n1 + nl.numFanins n2 : ℕ) : ℤ) ≤ nl.fiDist.xMax) ∧
    ((nl.numFanouts n1 + nl.numFanouts n2 : ℕ) : ℤ) < nl.foDist.xMax

/-- All calls of a merge are in range exactly when there is room for the new
register. -/
theorem Fits.mergeCalls_iff (hf : nl.Fits) (hs : nl.Sound) {b : BinId} (hb : b < nl.numBins)
    {n1 n2 : NodeId} {front : Bool} (hne : n1 ≠ n2) (hlt1 : n1 < nl.size) (hlt2 : n2 < nl.size)
    (hguarded : nl.Guarded front n1 n2) :
    (∀ call v, MergeCall nl b [n1, n2] front call v → call.Within v) ↔ nl.MergeRoom front := by
  obtain ⟨fi, fo, hshelved⟩ := hf.shelved
  obtain ⟨hfi1, hfo1⟩ := hf.within n1 hlt1
  obtain ⟨hfi2, hfo2⟩ := hf.within n2 hlt2
  obtain ⟨hguardFi, hguardFo⟩ := hguarded
  obtain ⟨created, hcreated⟩ : ∃ created, nl.mergeNode b [n1, n2] = some created :=
    hshelved.createNode_isDefined hb (by omega) (by omega) _ _ _ _ _ _
  have hbecomes := createNode_becomes (hs.fresh _ le_rfl) (merge_ne_pin _) hcreated
  have hrewired := created.rewired_merge nl.size [n1, n2] front
  have hmerged := hbecomes.rewired hrewired
  have hshelved' := (hshelved.createNode hb hcreated).rewired hrewired
  have hlt : ∀ v ∈ [n1, n2] ++ [nl.size], v < (created.merge nl.size [n1, n2] front).size := by
    rw [hmerged.size]
    intro v hv
    simp only [List.cons_append, List.nil_append, List.mem_cons, List.not_mem_nil, or_false] at hv
    rcases hv with rfl | rfl | rfl
    · exact hlt1.trans (Nat.lt_succ_self _)
    · exact hlt2.trans (Nat.lt_succ_self _)
    · exact Nat.lt_succ_self _
  have hupdates := hshelved'.updateCalls_iff hlt
  have hcalls : (∀ call v, MergeCall nl b [n1, n2] front call v → call.Within v) ↔
      ∀ v ∈ [n1, n2] ++ [nl.size], (created.merge nl.size [n1, n2] front).Within v := by
    rw [← hupdates]
    refine ⟨fun h call v hcall => h call v (.update hcreated hcall), fun h call v hcall => ?_⟩
    cases hcall with
    | add => exact hf.newNode_within hs hlt1
    | @update created' _ _ hcreate hcall =>
        obtain rfl : created = created' := Option.some.inj (hcreated.symm.trans hcreate)
        exact h call v hcall
  have hwithin : ∀ v, (created.merge nl.size [n1, n2] front).Within v ↔
      ((((created.merge nl.size [n1, n2] front).graph.sources v).length : ℕ) : ℤ) ≤
          nl.fiDist.xMax ∧
        ((((created.merge nl.size [n1, n2] front).graph.sinks v).length : ℕ) : ℤ) ≤
          nl.foDist.xMax := by
    intro v
    unfold Within
    rw [hmerged.keeps.fiDist, hmerged.keeps.foDist]
    rfl
  have hsources : created.sources = nl.sources := congrArg Adjacency.sources hbecomes.graph
  have hsinks : created.sinks = nl.sinks := congrArg Adjacency.sinks hbecomes.graph
  rw [hcalls]
  simp only [List.cons_append, List.nil_append, List.forall_mem_cons, hwithin]
  cases front with
  | true =>
      obtain ⟨hnodeFi, hnodeFo, hpair⟩ := hs.front_degrees hne hlt1 hlt2
      have hgraph : (created.merge nl.size [n1, n2] true).graph =
          nl.graph.spliceFront (gather nl.sources [n1, n2]) [n1, n2] nl.size := by
        rw [merge_front_graph, hbecomes.graph, hsources]
      obtain ⟨h1fi, h1fo⟩ := hpair n1 List.mem_cons_self
      obtain ⟨h2fi, h2fo⟩ := hpair n2 (List.mem_cons_of_mem _ List.mem_cons_self)
      have hguard := hguardFi rfl
      rw [hgraph, h1fi, h2fi, hnodeFo]
      simp only [MergeRoom, if_true]
      constructor
      · rintro ⟨⟨hone, -⟩, -, ⟨-, htwo⟩, -⟩
        exact ⟨by omega, by omega⟩
      · rintro ⟨hone, htwo⟩
        exact ⟨⟨by omega, by omega⟩, ⟨by omega, by omega⟩, ⟨by omega, by omega⟩, nofun⟩
  | false =>
      obtain ⟨hnodeFi, hnodeFo, hpair⟩ := hs.back_degrees hne hlt1 hlt2
      have hgraph : (created.merge nl.size [n1, n2] false).graph =
          nl.graph.spliceBack (gather nl.sinks [n1, n2]) [n1, n2] nl.size := by
        rw [merge_back_graph, hbecomes.graph, hsinks]
      obtain ⟨h1fi, h1fo⟩ := hpair n1 List.mem_cons_self
      obtain ⟨h2fi, h2fo⟩ := hpair n2 (List.mem_cons_of_mem _ List.mem_cons_self)
      rw [hgraph, h1fo, h2fo, hnodeFi]
      simp only [MergeRoom, Bool.false_eq_true, if_false]
      constructor
      · rintro ⟨-, -, ⟨htwo, -⟩, -⟩
        omega
      · intro htwo
        exact ⟨⟨by omega, by omega⟩, ⟨by omega, by omega⟩, ⟨by omega, by omega⟩, nofun⟩

/-! ## A split -/

/-- A call of `addNode` or `update` in `insertSequentialNode` behind a node. -/
inductive InsertCall (nl : Netlist) (target : NodeId) : Netlist → NodeId → Prop where
  | add : InsertCall nl target nl.newNode nl.size
  | update {created call : Netlist} {v : NodeId}
      (hcreate : nl.createNode .sequential (nl.binOf target) ("s" ++ toString nl.size)
        (nl.x target) (nl.y target) (nl.x target) (nl.y target) = some created)
      (hcall : UpdateCall (created.insertBack nl.size target) [nl.size, target] call v) :
      InsertCall nl target call v

/-- All calls of an insertion behind a node are in range exactly when the tables
have room for one source and one sink. -/
theorem Fits.insertCalls_iff (hf : nl.Fits) (hs : nl.Sound) {target : NodeId}
    (hlt : target < nl.size) :
    (∀ call v, InsertCall nl target call v → call.Within v) ↔
      1 ≤ nl.fiDist.xMax ∧ 1 ≤ nl.foDist.xMax := by
  obtain ⟨fi, fo, hshelved⟩ := hf.shelved
  obtain ⟨hfi, hfo⟩ := hf.within target hlt
  have hb := hshelved.placed.inGrid target hlt
  obtain ⟨created, hcreated⟩ := hshelved.createNode_isDefined hb (by omega) (by omega) .sequential
    ("s" ++ toString nl.size) (nl.x target) (nl.y target) (nl.x target) (nl.y target)
  have hbecomes := createNode_becomes (hs.fresh _ le_rfl) (s_ne_pin _) hcreated
  have hrewired := created.rewired_insertBack nl.size target
  have hinsert := hbecomes.rewired hrewired
  have hshelved' := (hshelved.createNode hb hcreated).rewired hrewired
  have hgraph : (created.insertBack nl.size target).graph =
      nl.graph.spliceBack (nl.sinks target) [target] nl.size := by
    have hsinks : created.sinks = nl.sinks := congrArg Adjacency.sinks hbecomes.graph
    rw [insertBack_graph, hbecomes.graph, hsinks]
  have hltAll : ∀ v ∈ [nl.size, target], v < (created.insertBack nl.size target).size := by
    rw [hinsert.size]
    intro v hv
    simp only [List.mem_cons, List.not_mem_nil, or_false] at hv
    rcases hv with rfl | rfl
    · exact Nat.lt_succ_self _
    · exact hlt.trans (Nat.lt_succ_self _)
  have hcalls : (∀ call v, InsertCall nl target call v → call.Within v) ↔
      ∀ v ∈ [nl.size, target], (created.insertBack nl.size target).Within v := by
    rw [← hshelved'.updateCalls_iff hltAll]
    refine ⟨fun h call v hcall => h call v (.update hcreated hcall), fun h call v hcall => ?_⟩
    cases hcall with
    | add => exact hf.newNode_within hs hlt
    | @update created' _ _ hcreate hcall =>
        obtain rfl : created = created' := Option.some.inj (hcreated.symm.trans hcreate)
        exact h call v hcall
  obtain ⟨hnode, htarget, hsinks, hothers⟩ := hs.split_degrees hlt
  have hfanins : (created.insertBack nl.size target).sources = _ :=
    congrArg Adjacency.sources hgraph
  have hfanouts : (created.insertBack nl.size target).sinks = _ := congrArg Adjacency.sinks hgraph
  rw [hcalls]
  simp only [List.forall_mem_cons, Within, hinsert.keeps.fiDist, hinsert.keeps.foDist,
    ← length_sources, ← length_sinks, hfanins, hfanouts, hnode, hsinks, htarget,
    hothers target hlt.ne]
  simp only [length_sources]
  constructor
  · rintro ⟨⟨hone, -⟩, ⟨-, hone'⟩, -⟩
    exact ⟨by omega, by omega⟩
  · rintro ⟨hone, hone'⟩
    exact ⟨⟨by omega, hfo⟩, ⟨hfi, by omega⟩, fun v hv => absurd hv List.not_mem_nil⟩

/-! ## An edge -/

/-- A call of `update` in `connect`. -/
inductive ConnectCall (nl : Netlist) (src snk : NodeId) : Netlist → NodeId → Prop where
  | update {counted call : Netlist} {v : NodeId} (hcount : nl.countEdge src snk = some counted)
      (hcall : UpdateCall counted [src, snk] call v) : ConnectCall nl src snk call v

/-- An edge between nodes that may be joined stays within the tables. -/
theorem Joinable.connectCalls {addr : NodeId ↪ ℕ} {src snk : NodeId} {call : Netlist} {v : NodeId}
    (hc : nl.Consistent) (hw : Wired addr nl) (hj : Joinable addr nl src snk)
    (h : ConnectCall nl src snk call v) : call.Within v := by
  obtain ⟨hcount, hcall⟩ := h
  obtain ⟨counted, hcounted, hspec⟩ := countEdge_isDefined hc hw hj.linkable
  obtain rfl := Option.some.inj (hcounted.symm.trans hcount)
  have hplaced := hspec.placed hc.placed
  have hshelved : counted.Shelved nl.numFanins nl.numFanouts :=
    ⟨hplaced, hspec.indexed hc.indexed⟩
  have hfanins : counted.numFanins = (nl.addEdge src snk).numFanins :=
    field_congr hspec.node Node.numFanins
  have hfanouts : counted.numFanouts = (nl.addEdge src snk).numFanouts :=
    field_congr hspec.node Node.numFanouts
  have hwithin : ∀ u < nl.size, counted.Within u := by
    intro u hu
    obtain ⟨hfi, hfo⟩ := hspec.inRange hc.tallied hu
    unfold Within
    rw [hfanins, hfanouts]
    exact ⟨by omega, by omega⟩
  refine (hshelved.updateCalls_iff fun u hu => ?_).mpr (fun u hu => ?_) call v hcall
  · rw [hspec.size]
    simp only [List.mem_cons, List.not_mem_nil, or_false] at hu
    rcases hu with rfl | rfl
    · exact hj.srcMem
    · exact hj.snkMem
  · simp only [List.mem_cons, List.not_mem_nil, or_false] at hu
    rcases hu with rfl | rfl
    · exact hwithin u hj.srcMem
    · exact hwithin u hj.snkMem

end Netlist

/-! ## The calls of a run -/

open Netlist

variable {addr : NodeId ↪ ℕ} {ang : ArtNetGen}

/-- A call of `update` in a turn of `distMatching`. -/
def Matching.TurnCall (addr : NodeId ↪ ℕ) (s : Matching) (c : Turn) (call : Netlist)
    (v : NodeId) : Prop :=
  s.curEdgeCnt < s.tarEdgeCnt ∧
    ∃ edgeLength g, s.edgeSampling[c.rand % s.edgeSampling.length]? = some edgeLength ∧
      s.maxGain addr c edgeLength = some (some g) ∧ ConnectCall s.netlist g.n1 g.n2 call v

theorem Matching.Inv.turnCall {s : Matching} {c : Turn} {call : Netlist} {v : NodeId}
    (h : s.Inv addr) (hcall : s.TurnCall addr c call v) : call.Within v := by
  obtain ⟨-, edgeLength, g, -, hbest, hconnect⟩ := hcall
  obtain ⟨cs, hcs, hspec⟩ := h.candidates c edgeLength
  rw [Matching.maxGain_eq, hcs, Option.map_some, Option.some.injEq] at hbest
  obtain ⟨heligible, -⟩ := hspec g (List.argmax_eq_some_iff.mp hbest).1
  exact heligible.joinable.connectCalls h.consistent h.wired hconnect

/-- A call of `addNode` or `update` at a visit of a merge pass. -/
def Fitting.VisitCall (front : Bool) (combRatio : ℚ) (c : Pass) (s : Fitting) (visit : ℕ × BinId)
    (call : Netlist) (v : NodeId) : Prop :=
  ¬ s.currentRatio ≥ combRatio ∧ ∃ n1 n2, s.pick front c visit.1 visit.2 = some (n1, n2) ∧
    MergeCall s.netlist (s.netlist.binOf n1) [n1, n2] front call v

/-- The pass goes on to a visit at which it merges a pair. -/
def Fitting.Merges (front : Bool) (combRatio : ℚ) (c : Pass) (s : Fitting) (visit : ℕ × BinId) :
    Prop :=
  ¬ s.currentRatio ≥ combRatio ∧ ∃ n1 n2, s.pick front c visit.1 visit.2 = some (n1, n2)

theorem Fitting.pick_guarded {s : Fitting} {front : Bool} {c : Pass} {edgeLength : ℕ} {id : BinId}
    {n1 n2 : NodeId} (h : s.pick front c edgeLength id = some (n1, n2)) :
    s.netlist.Guarded front n1 n2 := by
  simp only [pick] at h
  cases front with
  | true =>
      simp only [if_true, frontPair] at h
      have hfits := List.find?_some h
      simp only [decide_eq_true_eq] at hfits
      exact ⟨fun _ => hfits.1, hfits.2⟩
  | false =>
      simp only [Bool.false_eq_true, if_false, backPair, Option.filter_eq_some_iff,
        decide_eq_true_eq] at h
      refine ⟨?_, h.2⟩
      intro hfront
      cases hfront

theorem Fitting.Inv.visitCalls_iff {s : Fitting} (h : s.Inv) (hf : s.netlist.Fits) {front : Bool}
    {combRatio : ℚ} {c : Pass} {visit : ℕ × BinId} :
    (∀ call v, s.VisitCall front combRatio c visit call v → call.Within v) ↔
      (s.Merges front combRatio c visit → s.netlist.MergeRoom front) := by
  have hpair : ∀ n1 n2, s.pick front c visit.1 visit.2 = some (n1, n2) →
      ((∀ call v, MergeCall s.netlist (s.netlist.binOf n1) [n1, n2] front call v →
        call.Within v) ↔ s.netlist.MergeRoom front) := by
    intro n1 n2 hpick
    obtain ⟨hne, hregs⟩ := h.pick hpick
    obtain ⟨fi, fo, hshelved⟩ := hf.shelved
    have hlt1 := (hregs n1 List.mem_cons_self).1
    have hlt2 := (hregs n2 (List.mem_cons_of_mem _ List.mem_cons_self)).1
    exact hf.mergeCalls_iff h.legal.sound (hshelved.placed.inGrid n1 hlt1) hne hlt1 hlt2
      (Fitting.pick_guarded hpick)
  constructor
  · rintro hall ⟨hratio, n1, n2, hpick⟩
    exact (hpair n1 n2 hpick).mp fun call v hcall => hall call v ⟨hratio, n1, n2, hpick, hcall⟩
  · rintro hroom call v ⟨hratio, n1, n2, hpick, hcall⟩
    exact (hpair n1 n2 hpick).mpr (hroom ⟨hratio, n1, n2, hpick⟩) call v hcall

/-- A visit of the front or the back pass that a run on `nl` comes to, with the
state it finds. -/
inductive VisitReached (ang : ArtNetGen) (nl : Netlist) :
    Bool → Pass → Fitting → ℕ × BinId → Prop where
  | front {fuel : ℕ} {cutNetlist : Netlist} {atFront s : Fitting} {c : Pass}
      {before after : List (ℕ × BinId)} {visit : ℕ × BinId}
      (hcut : nl.cut ang.targetMaxOrder fuel = some cutNetlist)
      (hstart : Fitting.start cutNetlist = some atFront)
      (hvisits : Fitting.visits atFront.netlist c = before ++ visit :: after)
      (hrun : before.foldlM (Fitting.visit true ang.combRatio c) atFront = some s) :
      VisitReached ang nl true c s visit
  | back {fuel : ℕ} {cutNetlist : Netlist} {atFront atBack s : Fitting} {c' c : Pass}
      {before after : List (ℕ × BinId)} {visit : ℕ × BinId}
      (hcut : nl.cut ang.targetMaxOrder fuel = some cutNetlist)
      (hstart : Fitting.start cutNetlist = some atFront)
      (hfront : atFront.pass true ang.combRatio c' = some atBack)
      (hvisits : Fitting.visits atBack.netlist c = before ++ visit :: after)
      (hrun : before.foldlM (Fitting.visit false ang.combRatio c) atBack = some s) :
      VisitReached ang nl false c s visit

/-- What a visit finds: the registers in their lists, and every node in range. -/
theorem VisitReached.inv {nl : Netlist} {front : Bool} {c : Pass} {s : Fitting}
    {visit : ℕ × BinId} (h : VisitReached ang nl front c s visit) (hr : nl.Ready) :
    s.Inv ∧ s.netlist.Fits := by
  have hstarted : ∀ {fuel cutNetlist atFront},
      nl.cut ang.targetMaxOrder fuel = some cutNetlist → Fitting.start cutNetlist = some atFront →
        atFront.Inv ∧ Relation.ReflTransGen Rework nl atFront.netlist := by
    intro fuel cutNetlist atFront hcut hstart
    obtain ⟨hlisted, hnetlist⟩ := Fitting.start_listed hstart
    have hreworks := (hr.legal.cut hcut).1
    exact ⟨⟨hnetlist ▸ hr.legal.reworks hreworks, by rw [hnetlist]; exact hlisted⟩,
      hnetlist ▸ hreworks⟩
  have hvisited : ∀ {front : Bool} {c : Pass} {before : List (ℕ × BinId)} {s0 s : Fitting},
      s0.Inv → Relation.ReflTransGen Rework nl s0.netlist →
        before.foldlM (Fitting.visit front ang.combRatio c) s0 = some s →
          s.Inv ∧ s.netlist.Fits := by
    intro front c before s0 s hinv hreworks hrun
    obtain ⟨hinv', hreworks'⟩ := Loop.invariant
      (fun t => t.Inv ∧ Relation.ReflTransGen Rework nl t.netlist)
      (fun _ _ t t' ht hvisit => ⟨(ht.1.visit hvisit).1, ht.2.trans (ht.1.visit hvisit).2⟩)
      ⟨hinv, hreworks⟩ hrun
    exact ⟨hinv', hr.fits.reworks hr.legal hreworks'⟩
  cases h with
  | front hcut hstart hvisits hrun =>
      obtain ⟨hinv, hreworks⟩ := hstarted hcut hstart
      exact hvisited hinv hreworks hrun
  | back hcut hstart hfront hvisits hrun =>
      obtain ⟨hinv, hreworks⟩ := hstarted hcut hstart
      obtain ⟨hinv', hreworks'⟩ := hinv.pass hfront
      exact hvisited hinv' (hreworks.trans hreworks') hrun

/-- A call in a turn of the splitting loop: `hasMaster` for a register, and those
of the insertion for a register without a cell. -/
inductive Splitting.TurnCall (s : Splitting) : Netlist → NodeId → Prop where
  | hasMaster (hlt : s.i < s.netlist.size) (hseq : s.netlist.type s.i = .sequential) :
      TurnCall s s.netlist s.i
  | insert {call : Netlist} {v : NodeId} (hlt : s.i < s.netlist.size)
      (hseq : s.netlist.type s.i = .sequential)
      (hnone : s.netlist.hasMaster (s.netlist.node s.i).numFanins true = some false)
      (hcall : InsertCall (s.netlist.setType s.i .combinational) s.i call v) : TurnCall s call v

/-- The loop is at a register without a cell. -/
def Splitting.Splits (s : Splitting) : Prop :=
  s.i < s.netlist.size ∧ s.netlist.type s.i = .sequential ∧
    s.netlist.hasMaster (s.netlist.node s.i).numFanins true = some false

theorem Splitting.turnCalls_iff {s : Splitting} (hr : s.netlist.Ready) :
    (∀ call v, s.TurnCall call v → call.Within v) ↔
      (s.Splits → 1 ≤ s.netlist.fiDist.xMax ∧ 1 ≤ s.netlist.foDist.xMax) := by
  have hinsert := fun hlt : s.i < s.netlist.size =>
    (hr.fits.setType s.i .combinational).insertCalls_iff
      (hr.legal.sound.setType s.i (Or.inl rfl)) hlt
  constructor
  · rintro hall ⟨hlt, hseq, hnone⟩
    exact (hinsert hlt).mp fun call v hcall => hall call v (.insert hlt hseq hnone hcall)
  · intro hroom call v hcall
    cases hcall with
    | hasMaster hlt hseq => exact hr.fits.within s.i hlt
    | insert hlt hseq hnone hcall =>
        exact (hinsert hlt).mpr (hroom ⟨hlt, hseq, hnone⟩) call v hcall

/-- `technologyMapping` is entered with `nl`. -/
def Prepared (addr : NodeId ↪ ℕ) (ang : ArtNetGen) (nl : Netlist) : Prop :=
  ∃ s, Matching.Reachable addr ang s ∧ s.Returned ∧ s.netlist.initOnlyUseMasters ang = some nl

/-- The calls of `distMatching`, of `timingPathConstruction_v1` and of the loop
that classifies the nodes after it, in all runs on `ang`. -/
inductive TableCall (addr : NodeId ↪ ℕ) (ang : ArtNetGen) : Netlist → NodeId → Prop where
  | matching {s : Matching} {c : Turn} {call : Netlist} {v : NodeId}
      (hs : Matching.Reachable addr ang s) (hcall : s.TurnCall addr c call v) :
      TableCall addr ang call v
  | merging {nl : Netlist} {front : Bool} {c : Pass} {s : Fitting} {visit : ℕ × BinId}
      {call : Netlist} {v : NodeId} (hnl : Prepared addr ang nl)
      (hs : VisitReached ang nl front c s visit)
      (hcall : s.VisitCall front ang.combRatio c visit call v) : TableCall addr ang call v
  | splitting {nl : Netlist} {run : MergeRun ang nl} {k : ℕ} {s : Splitting} {call : Netlist}
      {v : NodeId} (hnl : Prepared addr ang nl)
      (hs : Splitting.turns k { netlist := run.fitted.netlist } = some s)
      (hcall : s.TurnCall call v) : TableCall addr ang call v
  | classifying {nl : Netlist} {run : PathRun ang nl} {v : NodeId} (hnl : Prepared addr ang nl)
      (hv : v < run.split.netlist.size) : TableCall addr ang run.split.netlist v

/-- The tables have room for every merge and every split that a run comes to. -/
structure RoomForRuns (addr : NodeId ↪ ℕ) (ang : ArtNetGen) : Prop where
  merging : ∀ nl front c s visit, Prepared addr ang nl → VisitReached ang nl front c s visit →
    s.Merges front ang.combRatio c visit → s.netlist.MergeRoom front
  splitting : ∀ nl (run : MergeRun ang nl) k s, Prepared addr ang nl →
    Splitting.turns k { netlist := run.fitted.netlist } = some s → s.Splits →
      1 ≤ s.netlist.fiDist.xMax ∧ 1 ≤ s.netlist.foDist.xMax

theorem Prepared.ready {nl : Netlist} (h : Prepared addr ang nl) : nl.Ready := by
  obtain ⟨s, hs, -, hmasters⟩ := h
  exact hs.ready hmasters

theorem MergeRun.ready_turns {nl : Netlist} (run : MergeRun ang nl) (hr : nl.Ready) {k : ℕ}
    {s : Splitting} (hs : Splitting.turns k { netlist := run.fitted.netlist } = some s) :
    s.netlist.Ready :=
  (hr.reworks (run.reworks hr.legal)).reworks (Splitting.turns_reworks hs)

/-- Every call is made within the tables exactly when there is room for the
merges and the splits. -/
theorem tableCalls_within_iff (addr : NodeId ↪ ℕ) (ang : ArtNetGen) :
    (∀ call v, TableCall addr ang call v → call.Within v) ↔ RoomForRuns addr ang := by
  constructor
  · intro hall
    refine ⟨fun nl front c s visit hnl hs hmerges => ?_, fun nl run k s hnl hs hsplits => ?_⟩
    · obtain ⟨hinv, hfits⟩ := hs.inv hnl.ready
      exact (hinv.visitCalls_iff hfits).mp
        (fun call v hcall => hall call v (.merging hnl hs hcall)) hmerges
    · exact (Splitting.turnCalls_iff (run.ready_turns hnl.ready hs)).mp
        (fun call v hcall => hall call v (.splitting hnl hs hcall)) hsplits
  · intro hroom call v hcall
    cases hcall with
    | matching hs hcall => exact hs.inv.turnCall hcall
    | merging hnl hs hcall =>
        obtain ⟨hinv, hfits⟩ := hs.inv hnl.ready
        exact (hinv.visitCalls_iff hfits).mpr (hroom.merging _ _ _ _ _ hnl hs) call v hcall
    | splitting hnl hs hcall =>
        exact (Splitting.turnCalls_iff (MergeRun.ready_turns _ hnl.ready hs)).mpr
          (hroom.splitting _ _ _ _ hnl hs) call v hcall
    | @classifying nl run v hnl hv =>
        exact (run.toMergeRun.ready_turns hnl.ready run.splitting).fits.within v hv

/-! Twelve nodes with two chains of four and a table of fan-outs that ends at 1.
The ends of the chains become registers without sinks, and the register that is
put in front of the two gets two sinks. -/

def tightSpec : List SpecLine :=
  [.fanin 0 8 (1 / 2), .fanin 1 8 (1 / 2), .fanin 2 0 0, .fanout 0 8 (1 / 2),
    .fanout 1 8 (1 / 2), .window 0 1 (1 / 2), .window 1 1 (1 / 2), .window 4 0 0,
    .netbbox 0 1 (1 / 2), .netbbox 1 1 (1 / 2), .netbbox 4 0 0, .avgTopoOrder 1, .combRatio 1,
    .ipadCount 1, .opadCount 1]

def tightAng : ArtNetGen :=
  (ArtNetGen.init { libs := [[dff]] } tightSpec).get (by decide +kernel)

def tightStart : Matching := (Matching.enter tightAng).get (by decide +kernel)

def tightTurns : List Turn :=
  [.joining 0 0 0 0 1, .joining 0 0 0 1 2, .joining 5 0 1 2 3, .joining 0 2 2 6 7,
    .joining 0 2 2 7 8, .joining 5 2 3 8 10]

def tightEnd : Matching :=
  (tightTurns.foldlM (Matching.step (.refl ℕ)) tightStart).get (by decide +kernel)

def tightEquipped : Netlist :=
  (tightEnd.netlist.initOnlyUseMasters tightAng).get (by decide +kernel)

def tightCut : Netlist :=
  (tightEquipped.cut tightAng.targetMaxOrder 3).get (by decide +kernel)

def tightFront : Fitting := (Fitting.start tightCut).get (by decide +kernel)

/-- The pass up to its first visit with edge length 1. -/
def tightVisited : Fitting :=
  ([(0, 0), (0, 1), (0, 2), (0, 3)].foldlM (Fitting.visit true tightAng.combRatio .inOrder)
    tightFront).get (by decide +kernel)

theorem tightEnd_reachable : Matching.Reachable (.refl ℕ) tightAng tightEnd :=
  ⟨tightStart, (Option.some_get _).symm, tightTurns, (Option.some_get _).symm⟩

theorem tightEnd_returned : tightEnd.Returned :=
  show tightEnd.tarEdgeCnt ≤ tightEnd.curEdgeCnt by decide +kernel

theorem tightVisited_reached :
    VisitReached tightAng tightEquipped true .inOrder tightVisited (1, 0) := by
  have hvisits : Fitting.visits tightFront.netlist .inOrder =
      [(0, 0), (0, 1), (0, 2), (0, 3)] ++
        (1, 0) :: [(1, 1), (1, 2), (1, 3), (2, 0), (2, 1), (2, 2), (2, 3)] := by decide +kernel
  exact .front (Option.some_get _).symm (Option.some_get _).symm hvisits (Option.some_get _).symm

/-- Two registers are merged, and two sinks are more than the table allows. -/
theorem tightVisited_values : ¬ tightVisited.currentRatio ≥ tightAng.combRatio ∧
    tightVisited.pick true .inOrder 1 0 = some (3, 10) ∧
    ¬ 2 ≤ tightVisited.netlist.foDist.xMax := by decide +kernel

theorem tightSpec_leaves :
    ArtNetGen.init { libs := [[dff]] } tightSpec = some tightAng ∧
      Prepared (.refl ℕ) tightAng tightEquipped ∧
      VisitReached tightAng tightEquipped true .inOrder tightVisited (1, 0) ∧
      tightVisited.pick true .inOrder 1 0 = some (3, 10) ∧
      ¬ ∀ call v, TableCall (.refl ℕ) tightAng call v → call.Within v := by
  have hprepared : Prepared (.refl ℕ) tightAng tightEquipped :=
    ⟨tightEnd, tightEnd_reachable, tightEnd_returned, (Option.some_get _).symm⟩
  obtain ⟨hratio, hpick, hfull⟩ := tightVisited_values
  refine ⟨(Option.some_get _).symm, hprepared, tightVisited_reached, hpick, fun hall => ?_⟩
  obtain ⟨hinv, hfits⟩ := tightVisited_reached.inv hprepared.ready
  have hroom := (hinv.visitCalls_iff hfits).mp
    (fun call v hcall => hall call v (.merging hprepared tightVisited_reached hcall))
    ⟨hratio, 3, 10, hpick⟩
  exact hfull hroom.2

end Artnetgen
