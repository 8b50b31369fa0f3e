import ArtNetGen.TimingPath
import ArtNetGen.Edits

/-!
The three ways in which `timingPathConstruction_v1` changes a netlist: a gate
becomes a register, two registers are merged, a register is split. Whatever
their order and number, every cycle of the graph keeps a register.
-/

namespace Artnetgen

namespace Netlist

variable {nl nl' : Netlist}

/-! ## Registers that give way to a new one -/

/-- The types after the nodes of `targets` have become gates and a new register
has been appended. -/
def retyped (nl : Netlist) (targets : List NodeId) (v : NodeId) : NodeType :=
  if v ∈ targets then .combinational else if v = nl.size then .sequential else nl.type v

/-- The registers `targets` have become gates, in front of or behind which a new
register is spliced. -/
structure Replaced (nl nl' : Netlist) (front : Bool) (targets : List NodeId) : Prop where
  distinct : targets.Nodup
  lt : ∀ t ∈ targets, t < nl.size
  sequential : ∀ t ∈ targets, nl.type t = .sequential
  becomes : ∃ collected b, collected.Nodup ∧
    (∀ u, u ∈ collected ↔ ∃ t ∈ targets, u ∈ if front then nl.sources t else nl.sinks t) ∧
    Becomes nl nl' (nl.size + 1) (nl.retyped targets) (Function.update nl.binOf nl.size b)
      (if front then nl.graph.spliceFront collected targets nl.size
        else nl.graph.spliceBack collected targets nl.size)

theorem setType_becomes (nl : Netlist) (v : NodeId) (t : NodeType) :
    Becomes nl (nl.setType v t) nl.size (Function.update nl.type v t) nl.binOf nl.graph :=
  ⟨rfl, rfl, setType_type nl v t, setType_binOf nl v t, setType_graph nl v t,
    fun _ => ⟨rfl, rfl⟩, le_rfl, fun w _ => setType_strip nl v t w,
    fun hplain w => (hplain w).congr (setType_strip nl v t w)⟩

theorem mergePair_eq_some {n1 n2 n : NodeId} {front : Bool}
    (h : nl.mergePair n1 n2 front = some (nl', n)) :
    ∃ nl1, nl.createMergeNode n1 n2 front = some (nl1, n) ∧
      nl' = (nl1.setType n1 .combinational).setType n2 .combinational := by
  simp only [mergePair, Option.bind_eq_bind, Option.bind_eq_some_iff, Option.pure_def,
    Option.some.injEq, Prod.mk.injEq] at h
  obtain ⟨⟨nl1, n3⟩, hnl1, rfl, rfl⟩ := h
  exact ⟨nl1, hnl1, rfl⟩

/-- The new node and the change of types, whatever the graph. -/
theorem Becomes.retype {nl1 : Netlist} {n1 n2 : NodeId} {b : BinId} {graph : Adjacency NodeId}
    (h : Becomes nl nl1 (nl.size + 1) (Function.update nl.type nl.size .sequential)
      (Function.update nl.binOf nl.size b) graph)
    (hne : n1 ≠ n2) (hlt1 : n1 < nl.size) (hlt2 : n2 < nl.size) :
    Becomes nl ((nl1.setType n1 .combinational).setType n2 .combinational) (nl.size + 1)
      (nl.retyped [n1, n2]) (Function.update nl.binOf nl.size b) graph := by
  have hmerged := (h.trans (nl1.setType_becomes n1 .combinational)).trans
    ((nl1.setType n1 .combinational).setType_becomes n2 .combinational)
  have htype : Function.update (nl1.setType n1 .combinational).type n2 .combinational =
      nl.retyped [n1, n2] := by
    rw [setType_type, h.type]
    funext v
    by_cases hv2 : v = n2
    · simp [retyped, hv2]
    · by_cases hv1 : v = n1
      · simp [retyped, hv1, hne]
      · by_cases hv : v = nl.size <;> simp [retyped, hv1, hv2, hv, hlt1.ne', hlt2.ne']
  have hsize : (nl1.setType n1 .combinational).size = nl.size + 1 := h.size
  rwa [hsize, htype, setType_graph, setType_binOf, h.binOf, h.graph] at hmerged

/-- A merge places its node in the bin of the first register. -/
theorem mergePair_placed {n1 n2 n : NodeId} {front : Bool} (hne : n1 ≠ n2)
    (hlt1 : n1 < nl.size) (hlt2 : n2 < nl.size)
    (h : nl.mergePair n1 n2 front = some (nl', n)) :
    n = nl.size ∧ ∃ graph, Becomes nl nl' (nl.size + 1) (nl.retyped [n1, n2])
      (Function.update nl.binOf nl.size (nl.binOf n1)) graph := by
  obtain ⟨nl1, hnl1, rfl⟩ := mergePair_eq_some h
  obtain ⟨hn, hbecomes⟩ := createMergeNodeAt_placed hnl1
  exact ⟨hn, _, hbecomes.retype hne hlt1 hlt2⟩

theorem mergePair_replaced {n1 n2 n : NodeId} {front : Bool} (hs : nl.Sound) (hne : n1 ≠ n2)
    (hlt1 : n1 < nl.size) (hlt2 : n2 < nl.size) (hseq1 : nl.type n1 = .sequential)
    (hseq2 : nl.type n2 = .sequential) (h : nl.mergePair n1 n2 front = some (nl', n)) :
    n = nl.size ∧ Replaced nl nl' front [n1, n2] := by
  obtain ⟨nl1, hnl1, rfl⟩ := mergePair_eq_some h
  obtain ⟨hn, hbecomes⟩ := createMergeNodeAt_becomes (hs.fresh _ le_rfl) hnl1
  have hmerged := hbecomes.retype hne hlt1 hlt2
  refine ⟨hn, by simpa using hne, by simp [hlt1, hlt2], by simp [hseq1, hseq2], ?_⟩
  cases front
  · exact ⟨_, _, nodup_gather _ _, fun u => mem_gather, hmerged⟩
  · exact ⟨_, _, nodup_gather _ _, fun u => mem_gather, hmerged⟩

theorem splitNode_replaced {v : NodeId} (hs : nl.Sound) (hlt : v < nl.size)
    (hseq : nl.type v = .sequential) (h : nl.splitNode v = some nl') :
    Replaced nl nl' false [v] := by
  have hretype := nl.setType_becomes v .combinational
  have hfresh : (nl.setType v .combinational).graph.Fresh (nl.setType v .combinational).size :=
    hretype.graph ▸ hs.fresh _ le_rfl
  have hinsert := hretype.trans (insertSequentialNode_back_becomes hfresh h)
  have htype : Function.update (nl.setType v .combinational).type nl.size .sequential =
      nl.retyped [v] := by
    rw [setType_type]
    funext w
    by_cases hw : w = nl.size
    · simp [retyped, hw, hlt.ne']
    · by_cases hwv : w = v <;> simp [retyped, hw, hwv, hlt.ne]
  rw [hretype.size, hretype.graph, hretype.binOf, htype] at hinsert
  refine ⟨List.nodup_singleton v, by simpa using hlt, by simpa using hseq, nl.sinks v, nl.binOf v,
    hs.simple.sinks_nodup v, fun u => by simp, ?_⟩
  have hsinks : (nl.setType v .combinational).sinks = nl.sinks :=
    congrArg Adjacency.sinks hretype.graph
  rwa [hsinks] at hinsert

/-! ## Legal netlists -/

/-- A sound netlist before technology mapping, without combinational cycles. -/
structure Legal (nl : Netlist) : Prop where
  sound : nl.Sound
  noControl : ∀ v, (nl.type v).isControl = false
  acyclic : Walks.Acyclic nl.CutEdge

theorem Legal.sortable (h : nl.Legal) : nl.Sortable where
  mirrored := h.sound.simple.mirrored
  fresh := h.sound.fresh
  control u hu := by
    rw [h.noControl u] at hu
    cases hu

/-- What a replacement does to the set of roots. -/
theorem Replaced.replaces {front : Bool} {targets : List NodeId}
    (h : Replaced nl nl' front targets) (hs : nl.Sound) :
    ∃ collected,
      nl.graph.Replaces nl.roots nl'.roots collected targets nl.size ∧
      (∀ u, u ∈ collected ↔ ∃ t ∈ targets, u ∈ if front then nl.sources t else nl.sinks t) ∧
      nl'.graph = if front then nl.graph.spliceFront collected targets nl.size
        else nl.graph.spliceBack collected targets nl.size := by
  obtain ⟨collected, b, hnodup, hmem, hbecomes⟩ := h.becomes
  have hsize := hs.fresh nl.size le_rfl
  have hnot : nl.size ∉ targets := fun hin => (h.lt _ hin).false
  refine ⟨collected, ⟨hs.simple, hsize, hnodup, fun hin => ?_, h.distinct, hnot,
    fun t ht => Or.inl (h.sequential t ht), fun v => ?_⟩, hmem, hbecomes.graph⟩
  · obtain ⟨t, -, ht⟩ := (hmem _).mp hin
    cases front
    · exact hsize.not_mem_sinks hs.simple.mirrored t ht
    · exact hsize.not_mem_sources hs.simple.mirrored t ht
  · unfold roots
    rw [Set.mem_ofPred_eq, hbecomes.type]
    by_cases hv : v ∈ targets
    · have hne : v ≠ nl.size := (h.lt v hv).ne
      simp [retyped, hv, hne]
    · by_cases hvn : v = nl.size
      · simp [retyped, hvn, hnot]
      · simp [retyped, hv, hvn]

theorem Replaced.acyclic {front : Bool} {targets : List NodeId}
    (h : Replaced nl nl' front targets) (hs : nl.Sound) (hacyclic : Walks.Acyclic nl.CutEdge) :
    Walks.Acyclic nl'.CutEdge := by
  obtain ⟨collected, hreplaces, hmem, hgraph⟩ := h.replaces hs
  unfold CutEdge
  rw [hgraph]
  cases front
  · exact hreplaces.acyclic_back hmem hacyclic
  · exact hreplaces.acyclic_front hacyclic

theorem Replaced.noControl {front : Bool} {targets : List NodeId}
    (h : Replaced nl nl' front targets) (hnone : ∀ v, (nl.type v).isControl = false) (v : NodeId) :
    (nl'.type v).isControl = false := by
  obtain ⟨_, _, -, -, hbecomes⟩ := h.becomes
  rw [hbecomes.type, retyped]
  split
  · rfl
  · split
    · rfl
    · exact hnone v

/-! ## Reworking -/

inductive Rework (nl : Netlist) : Netlist → Prop where
  | cut {v : NodeId} (hlt : v < nl.size) (hcomb : nl.type v = .combinational) :
      Rework nl (nl.setType v .sequential)
  | merge {n1 n2 n : NodeId} {front : Bool} {nl' : Netlist} (hne : n1 ≠ n2)
      (hlt1 : n1 < nl.size) (hlt2 : n2 < nl.size) (hseq1 : nl.type n1 = .sequential)
      (hseq2 : nl.type n2 = .sequential) (h : nl.mergePair n1 n2 front = some (nl', n)) :
      Rework nl nl'
  | split {v : NodeId} {nl' : Netlist} (hlt : v < nl.size) (hseq : nl.type v = .sequential)
      (h : nl.splitNode v = some nl') : Rework nl nl'

theorem Rework.sound (h : Rework nl nl') (hs : nl.Sound) : nl'.Sound := by
  cases h with
  | cut => exact hs.setType _ (Or.inr rfl)
  | merge hne hlt1 hlt2 hseq1 hseq2 h =>
      obtain ⟨nl1, hnl1, rfl⟩ := mergePair_eq_some h
      have hmerged := hs.createMergeNodeAt (by simpa using hne) (by simp [hlt1, hlt2])
        (by simp [hseq1, hseq2]) hnl1
      exact (hmerged.setType _ (Or.inl rfl)).setType _ (Or.inl rfl)
  | @split v _ hlt hseq h =>
      refine (hs.setType v (Or.inl rfl)).insertSequentialNode hlt ?_ h
      rw [setType_type, Function.update_self]
      exact ⟨nofun, nofun⟩

/-- More registers cut more edges. -/
theorem acyclic_setType {v : NodeId} (hroot : v ∉ nl.roots)
    (hacyclic : Walks.Acyclic nl.CutEdge) : Walks.Acyclic (nl.setType v .sequential).CutEdge := by
  refine hacyclic.mono fun a b hab => ⟨?_, fun hb => hab.2 ?_⟩
  · have hsinks := hab.1
    rwa [setType_graph] at hsinks
  · have hbv : b ≠ v := fun heq => hroot (heq ▸ hb)
    unfold roots
    rw [Set.mem_ofPred_eq, setType_type, Function.update_of_ne hbv]
    exact hb

theorem Rework.legal (h : Rework nl nl') (hl : nl.Legal) : nl'.Legal := by
  refine ⟨h.sound hl.sound, ?_, ?_⟩
  · cases h with
    | @cut v =>
        intro w
        rw [setType_type]
        by_cases hw : w = v
        · rw [hw, Function.update_self]
          rfl
        · rw [Function.update_of_ne hw]
          exact hl.noControl w
    | merge hne hlt1 hlt2 hseq1 hseq2 h =>
        exact (mergePair_replaced hl.sound hne hlt1 hlt2 hseq1 hseq2 h).2.noControl hl.noControl
    | split hlt hseq h => exact (splitNode_replaced hl.sound hlt hseq h).noControl hl.noControl
  · cases h with
    | cut hlt hcomb =>
        refine acyclic_setType (fun hroot => ?_) hl.acyclic
        rcases hroot with hroot | hroot <;> rw [hcomb] at hroot <;> cases hroot
    | merge hne hlt1 hlt2 hseq1 hseq2 h =>
        exact (mergePair_replaced hl.sound hne hlt1 hlt2 hseq1 hseq2 h).2.acyclic hl.sound
          hl.acyclic
    | split hlt hseq h =>
        exact (splitNode_replaced hl.sound hlt hseq h).acyclic hl.sound hl.acyclic

theorem Legal.reworks (hl : nl.Legal) (h : Relation.ReflTransGen Rework nl nl') : nl'.Legal := by
  induction h with
  | refl => exact hl
  | tail _ hrework ih => exact hrework.legal ih

theorem retyped_of_port {targets : List NodeId} {v : NodeId} {t : NodeType}
    (ht : t = .primaryIn ∨ t = .primaryOut) (h : nl.retyped targets v = t) :
    v ≠ nl.size ∧ nl.type v = t := by
  unfold retyped at h
  split at h
  · rcases ht with rfl | rfl <;> cases h
  · split at h
    · rcases ht with rfl | rfl <;> cases h
    · next hv => exact ⟨hv, h⟩

theorem Replaced.named {front : Bool} {targets : List NodeId} (h : Replaced nl nl' front targets)
    (hn : nl.Named) : nl'.Named := by
  obtain ⟨_, _, -, -, hbecomes⟩ := h.becomes
  have hold : ∀ v < nl'.size, ∀ t, t = .primaryIn ∨ t = .primaryOut → nl'.type v = t →
      v < nl.size ∧ nl.type v = t := by
    intro v hv t ht htype
    rw [hbecomes.type] at htype
    rw [hbecomes.size] at hv
    obtain ⟨hne, htype'⟩ := retyped_of_port ht htype
    exact ⟨Nat.lt_of_le_of_ne (Nat.lt_succ_iff.mp hv) hne, htype'⟩
  refine hn.congr (hbecomes.plain hn.plain) hbecomes.strip
    ⟨hbecomes.keeps.congr Netlist.primIns fun _ _ _ _ => rfl,
      hbecomes.keeps.congr Netlist.primOuts fun _ _ _ _ => rfl⟩
    (fun v hv => hold v hv _ (Or.inl rfl)) (fun v hv => hold v hv _ (Or.inr rfl))
    fun v hv htype => ⟨hv.trans_le hbecomes.le, ?_⟩
  have hnot : v ∉ targets := fun hin => by
    rw [h.sequential v hin] at htype
    cases htype
  rw [hbecomes.type, retyped, if_neg hnot, if_neg hv.ne, htype]

/-- Reworking renames no port. -/
theorem Rework.named (h : Rework nl nl') (hs : nl.Sound) (hn : nl.Named) : nl'.Named := by
  cases h with
  | @cut v hlt hcomb =>
      have hports : ∀ w t, t = .primaryIn ∨ t = .primaryOut →
          ((nl.setType v .sequential).type w = t ↔ nl.type w = t) := by
        intro w t ht
        rw [setType_type]
        by_cases hw : w = v
        · rw [hw, Function.update_self, hcomb]
          rcases ht with rfl | rfl <;> simp
        · rw [Function.update_of_ne hw]
      exact hn.congr (fun w => (hn.plain w).congr (setType_strip nl v _ w))
        (fun w _ => setType_strip nl v _ w) ⟨rfl, rfl⟩
        (fun w hw htype => ⟨hw, (hports w _ (Or.inl rfl)).mp htype⟩)
        (fun w hw htype => ⟨hw, (hports w _ (Or.inr rfl)).mp htype⟩)
        fun w hw htype => ⟨hw, (hports w _ (Or.inr rfl)).mpr htype⟩
  | merge hne hlt1 hlt2 hseq1 hseq2 h =>
      exact (mergePair_replaced hs hne hlt1 hlt2 hseq1 hseq2 h).2.named hn
  | split hlt hseq h => exact (splitNode_replaced hs hlt hseq h).named hn

theorem Named.reworks (hn : nl.Named) (hl : nl.Legal)
    (h : Relation.ReflTransGen Rework nl nl') : nl'.Named := by
  induction h with
  | refl => exact hn
  | tail hreworks hrework ih => exact hrework.named (hl.reworks hreworks).sound ih

/-- A closed path has a node that is a register. -/
theorem Legal.register_on_cycle (hl : nl.Legal) {v : NodeId} {path : List NodeId}
    (hchain : List.IsChain nl.Drives (v :: path)) (hlast : path.getLast? = some v) :
    ∃ w ∈ path, nl.type w = .sequential := by
  by_contra hexists
  have hnone : ∀ w ∈ path, nl.type w ≠ .sequential := fun w hw hseq => hexists ⟨w, hw, hseq⟩
  -- Along the path every edge counts, so it is a cycle of cut edges.
  have hedge : ∀ a b, nl.Drives a b → b ∈ path → nl.CutEdge a b := by
    refine fun a b hab hb => ⟨hab, fun hroot => ?_⟩
    rcases hroot with hseq | hin
    · exact hnone b hb hseq
    · have hsource : a ∈ nl.sources b := hl.sound.simple.mirrored.mem_iff.mp hab
      have hempty : nl.sources b = [] := hl.sound.ported.input b hin
      rw [hempty] at hsource
      cases hsource
  have hreach : ∀ (l : List NodeId) (a b : NodeId), List.IsChain nl.Drives (a :: l) →
      (∀ c ∈ l, c ∈ path) → l.getLast? = some b → Relation.TransGen nl.CutEdge a b := by
    intro l
    induction l with
    | nil => intro a b _ _ hb; cases hb
    | cons c rest ih =>
        intro a b hl hsub hb
        rw [List.isChain_cons_cons] at hl
        have hac := hedge a c hl.1 (hsub c List.mem_cons_self)
        cases rest with
        | nil =>
            obtain rfl : c = b := by simpa using hb
            exact .single hac
        | cons d rest =>
            rw [List.getLast?_cons_cons] at hb
            exact .head hac (ih c b hl.2 (fun e he => hsub e (List.mem_cons_of_mem _ he)) hb)
  exact hl.acyclic v (hreach path v v hchain (fun _ hc => hc) hlast)

end Netlist

end Artnetgen
