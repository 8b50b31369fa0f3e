import ArtNetGen.PathRun

/-!
How deep the finished netlist is. Cutting bounds the depth; the merges and the
splits after it never make the netlist shallower, and each keeps the bound
exactly when there is room for one more step at the registers it replaces.
-/

namespace Artnetgen

namespace Netlist

variable {nl nl' : Netlist}

/-! ## After cutting -/

/-- A node of positive order has a source just below it. -/
theorem Legal.exists_below (hl : nl.Legal) {v : NodeId} (hv : v < nl.size)
    (hpos : 0 < nl.order v) : ∃ u, nl.CutEdge u v ∧ nl.order v = nl.order u + 1 := by
  have hroot : nl.inDegree v ≠ 0 := by
    intro hzero
    have horder := Kahn.orders_root hl.sortable.network hzero
    exact hpos.ne' horder
  rcases Kahn.orders_cases hl.sortable.network (List.mem_range.mpr hv) hroot with
    ⟨hneg, -⟩ | ⟨⟨u, hedge, horder⟩, -⟩
  · have hnonneg := hl.sortable.order_nonneg hl.acyclic hv
    unfold Netlist.order at hnonneg
    rw [hneg] at hnonneg
    cases hnonneg
  · exact ⟨u, hl.sortable.edge_iff.mp hedge, horder⟩

/-- If no gate has the target order, nothing is deeper: whatever is one deeper
would be driven by such a gate. -/
theorem Legal.order_le (hl : nl.Legal) {T : ℕ} (hT : 0 < T)
    (hnone : ∀ v < nl.size, nl.order v = T → nl.type v ≠ .combinational) :
    ∀ v < nl.size, nl.order v ≤ T := by
  have hdeeper : ∀ (k : ℕ) (v : NodeId), v < nl.size → nl.order v ≠ T + 1 + k := by
    intro k
    induction k with
    | zero =>
        intro v hv horder
        obtain ⟨u, hedge, hbelow⟩ := hl.exists_below hv (by omega)
        have hu : u < nl.size := (hl.sortable.lt hedge.1).1
        have hT' : nl.order u = T := by omega
        -- The gate one below: no root, for it has an order, no output, for it has a sink.
        have hroot : u ∉ nl.roots := fun hroot => by
          have hzero := hl.sortable.order_root hroot
          omega
        refine hnone u hu hT' ?_
        have hcontrol := hl.noControl u
        cases htype : nl.type u with
        | combinational => rfl
        | sequential => exact absurd (Or.inl htype) hroot
        | primaryIn => exact absurd (Or.inr htype) hroot
        | primaryOut =>
            have hsinks : nl.sinks u = [] := (hl.sound.ported.output u htype).1
            have hmem : v ∈ nl.sinks u := hedge.1
            rw [hsinks] at hmem
            cases hmem
        | clockIn =>
            rw [htype] at hcontrol
            cases hcontrol
        | resetIn =>
            rw [htype] at hcontrol
            cases hcontrol
    | succ k ih =>
        intro v hv horder
        obtain ⟨u, hedge, hbelow⟩ := hl.exists_below hv (by omega)
        exact ih u (hl.sortable.lt hedge.1).1 (by omega)
  intro v hv
  by_contra hgt
  exact hdeeper (nl.order v - (T + 1)).toNat v hv (by omega)

/-! ## Room -/

/-- One more step fits in front of the paths that leave `t`, or behind the paths
that end in a source of `t`. -/
def Room (nl : Netlist) (T : ℕ) (front : Bool) (t : NodeId) : Prop :=
  if front then ∀ k v, Walks.Walk nl.CutEdge k t v → k + 1 ≤ T
  else ∀ w ∈ nl.sources t, nl.order w + 1 ≤ T

/-- A replacement keeps the bound exactly when there is room at every node that
is replaced. -/
theorem Replaced.bounded_iff {front : Bool} {targets : List NodeId}
    (h : Replaced nl nl' front targets) (hl : nl.Legal) (T : ℕ) :
    Walks.Bounded nl'.CutEdge T ↔
      Walks.Bounded nl.CutEdge T ∧ ∀ t ∈ targets, nl.Room T front t := by
  obtain ⟨collected, hreplaces, hmem, hgraph⟩ := h.replaces hl.sound
  unfold CutEdge
  rw [hgraph]
  cases front
  · refine (hreplaces.bounded_back hmem T).trans (and_congr_right fun _ => ?_)
    refine forall₂_congr fun t _ => forall₂_congr fun w hw => ?_
    have hw' : w < nl.size := (hl.sortable.lt (hl.sound.simple.mirrored.mem_iff.mpr hw)).1
    constructor
    · intro hroom
      obtain ⟨u, walk⟩ := hl.sortable.exists_walk hl.acyclic hw'
      have hle := hroom _ u walk
      have hnonneg := hl.sortable.order_nonneg hl.acyclic hw'
      omega
    · intro hroom k u walk
      have hu : u < nl.size := by
        cases k with
        | zero =>
            cases walk
            exact hw'
        | succ k =>
            obtain ⟨_, first, -⟩ := walk.uncons
            exact (hl.sortable.lt first.1).1
      have hle := hl.sortable.walk_le_order hl.acyclic hu walk
      omega
  · exact hreplaces.bounded_front T

end Netlist

/-! ## Along the run -/

/-- If a pair is merged at the visit, there is room at both registers. -/
def Fitting.Roomy (T : ℕ) (front : Bool) (combRatio : ℚ) (c : Pass) (s : Fitting)
    (v : ℕ × BinId) : Prop :=
  ¬ combRatio ≤ s.currentRatio → ∀ n1 n2, s.pick front c v.1 v.2 = some (n1, n2) →
    ∀ t ∈ [n1, n2], s.netlist.Room T front t

/-- If a register is split in the turn, there is room at it. -/
def Splitting.Roomy (T : ℕ) (s : Splitting) : Prop :=
  s.i < s.netlist.size → s.netlist.type s.i = .sequential →
    s.netlist.hasMaster (s.netlist.node s.i).numFanins true = some false →
      s.netlist.Room T false s.i

namespace Fitting

variable {s s' : Fitting} {front : Bool} {combRatio : ℚ} {c : Pass} {v : ℕ × BinId} {T : ℕ}

theorem Inv.bounded_iff (h : s.Inv) (hvisit : Fitting.visit front combRatio c s v = some s') :
    Walks.Bounded s'.netlist.CutEdge T ↔
      Walks.Bounded s.netlist.CutEdge T ∧ s.Roomy T front combRatio c v := by
  rcases h.visit_cases hvisit with ⟨rfl, hidle⟩ |
    ⟨n1, n2, n, hratio, hpick, hne, hregs, hpair, -⟩
  · refine (and_iff_left fun hratio n1 n2 hpick => ?_).symm
    rcases hidle with hmet | hnone
    · exact absurd hmet hratio
    · rw [hnone] at hpick
      cases hpick
  · obtain ⟨hlt1, hseq1⟩ := hregs n1 (by simp)
    obtain ⟨hlt2, hseq2⟩ := hregs n2 (by simp)
    have hreplaced :=
      (Netlist.mergePair_replaced h.legal.sound hne hlt1 hlt2 hseq1 hseq2 hpair).2
    rw [hreplaced.bounded_iff h.legal]
    refine and_congr_right fun _ => ⟨fun hroom _ m1 m2 hpick' => ?_, fun hroom => ?_⟩
    · obtain ⟨rfl, rfl⟩ := Prod.mk.inj (Option.some.inj (hpick.symm.trans hpick'))
      exact hroom
    · exact hroom hratio n1 n2 hpick

/-- A bound at the end of a pass is a bound at its start and room at every
visit. -/
theorem Inv.pass_bounded_iff (h : s.Inv) (hpass : s.pass front combRatio c = some s') :
    Walks.Bounded s'.netlist.CutEdge T ↔ Walks.Bounded s.netlist.CutEdge T ∧
      Loop.Along (Roomy T front combRatio c) (Fitting.visit front combRatio c)
        (visits s.netlist c) s := by
  constructor
  · exact fun hend => Loop.Along.of_final Inv (fun t => Walks.Bounded t.netlist.CutEdge T)
      (fun _ _ _ ht hvisit => (ht.visit hvisit).1)
      (fun _ _ _ ht hvisit => (ht.bounded_iff hvisit).mp) h hpass hend
  · rintro ⟨hstart, halong⟩
    exact (halong.invariant (fun t => t.Inv ∧ Walks.Bounded t.netlist.CutEdge T)
      (fun _ _ _ ht hroomy hvisit =>
        ⟨(ht.1.visit hvisit).1, (ht.1.bounded_iff hvisit).mpr ⟨ht.2, hroomy⟩⟩)
      ⟨h, hstart⟩ hpass).2

end Fitting

namespace Splitting

variable {s s' : Splitting} {T : ℕ}

theorem turn_bounded_iff (hl : s.netlist.Legal) (h : s.turn = some s') :
    Walks.Bounded s'.netlist.CutEdge T ↔
      Walks.Bounded s.netlist.CutEdge T ∧ s.Roomy T := by
  rcases turn_cases h with ⟨hended, rfl⟩ | ⟨hlt, -, ⟨hnetlist, hmastered⟩ | ⟨hseq, hhas, hsplit⟩⟩
  · exact (and_iff_left fun hlt => absurd hended (Nat.not_le.mpr hlt)).symm
  · rw [hnetlist]
    refine (and_iff_left fun _ hseq hnone => ?_).symm
    rw [hmastered hseq] at hnone
    cases hnone
  · rw [(Netlist.splitNode_replaced hl.sound hlt hseq hsplit).bounded_iff hl]
    refine and_congr_right fun _ => ⟨fun hroom _ _ _ => ?_, fun hroom => ?_⟩
    · exact hroom s.i (List.mem_singleton_self _)
    · simpa using hroom hlt hseq hhas

theorem turns_bounded_iff {n : ℕ} (hl : s.netlist.Legal) (h : turns n s = some s') :
    Walks.Bounded s'.netlist.CutEdge T ↔ Walks.Bounded s.netlist.CutEdge T ∧
      Loop.Along (fun t _ => Roomy T t) (fun t _ => t.turn) (List.range n) s := by
  have hlegal : ∀ t t' : Splitting, t.netlist.Legal → t.turn = some t' → t'.netlist.Legal :=
    fun _ _ ht hturn => ht.reworks (turn_reworks hturn)
  constructor
  · exact fun hend => Loop.Along.of_final (fun t => t.netlist.Legal)
      (fun t => Walks.Bounded t.netlist.CutEdge T) (fun t _ t' => hlegal t t')
      (fun _ _ _ ht hturn => (turn_bounded_iff ht hturn).mp) hl h hend
  · rintro ⟨hstart, halong⟩
    exact (halong.invariant (fun t => t.netlist.Legal ∧ Walks.Bounded t.netlist.CutEdge T)
      (fun t _ t' ht hroomy hturn =>
        ⟨hlegal t t' ht.1 hturn, (turn_bounded_iff ht.1 hturn).mpr ⟨ht.2, hroomy⟩⟩)
      ⟨hl, hstart⟩ h).2

end Splitting

namespace PathRun

variable {ang : ArtNetGen} {nl : Netlist}

/-- Every merge and every split of the run had room below the target. -/
def Roomy (run : PathRun ang nl) : Prop :=
  Loop.Along (Fitting.Roomy ang.targetMaxOrder.toNat true ang.combRatio run.front)
      (Fitting.visit true ang.combRatio run.front)
      (Fitting.visits run.atFront.netlist run.front) run.atFront ∧
    Loop.Along (Fitting.Roomy ang.targetMaxOrder.toNat false ang.combRatio run.back)
      (Fitting.visit false ang.combRatio run.back)
      (Fitting.visits run.atBack.netlist run.back) run.atBack ∧
    Loop.Along (fun t _ => Splitting.Roomy ang.targetMaxOrder.toNat t) (fun t _ => t.turn)
      (List.range run.turns) { netlist := run.fitted.netlist }

/-- The finished netlist is as shallow as asked for exactly when no merge and no
split went wrong. -/
theorem maxOrder_le_iff_roomy (run : PathRun ang nl) (hl : nl.Legal)
    (hpos : 0 < ang.avgTopoOrder) :
    (∃ m, run.split.netlist.getMaxTopologicalOrder = some m ∧ m ≤ ang.targetMaxOrder) ↔
      run.Roomy := by
  obtain ⟨T, hT⟩ : ∃ T : ℕ, ang.targetMaxOrder = T := by
    refine ⟨ang.targetMaxOrder.toNat, (Int.toNat_of_nonneg ?_).symm⟩
    have hceil := Int.ceil_pos.mpr hpos
    unfold ArtNetGen.targetMaxOrder
    omega
  have hTpos : 0 < T := by
    have hceil := Int.ceil_pos.mpr hpos
    unfold ArtNetGen.targetMaxOrder at hT
    omega
  have hend : run.split.netlist.Legal := hl.reworks (run.reworks hl)
  -- The bound on the printed maximum is a bound on the walks.
  have hmax : (∃ m, run.split.netlist.getMaxTopologicalOrder = some m ∧
      m ≤ ang.targetMaxOrder) ↔ Walks.Bounded run.split.netlist.CutEdge T := by
    obtain ⟨m, hm, hle⟩ := hend.sortable.getMaxTopologicalOrder
    rw [← hend.sortable.order_le_iff hend.acyclic, hT]
    constructor
    · rintro ⟨m', hm', hbound⟩
      obtain rfl := Option.some.inj (hm.symm.trans hm')
      exact ((hle T).mp hbound).2
    · exact fun hbound => ⟨m, hm, (hle T).mpr ⟨Int.natCast_nonneg T, hbound⟩⟩
  -- Cutting establishes it.
  have hcut : Walks.Bounded run.atFront.netlist.CutEdge T := by
    have hlcut := run.legal_cut hl
    rw [(Fitting.start_listed run.start).2, ← hlcut.sortable.order_le_iff hlcut.acyclic]
    apply hlcut.order_le hTpos
    intro v hv horder
    exact (hl.cut run.cut).2 v hv (horder.trans hT.symm)
  have hnat : ang.targetMaxOrder.toNat = T := by omega
  rw [hmax, Roomy, hnat, Splitting.turns_bounded_iff (run.inv_fitted hl).legal run.splitting,
    (run.inv_atBack hl).pass_bounded_iff run.backPass,
    (run.inv_atFront hl).pass_bounded_iff run.frontPass]
  constructor
  · rintro ⟨⟨⟨-, hfront⟩, hback⟩, hsplit⟩
    exact ⟨hfront, hback, hsplit⟩
  · rintro ⟨hfront, hback, hsplit⟩
    exact ⟨⟨⟨hcut, hfront⟩, hback⟩, hsplit⟩

end PathRun

theorem PathRun.maxOrder_le_iff_roomy_small : smallRun.Roomy :=
  (smallRun.maxOrder_le_iff_roomy
    ((Netlist.initOnlyUseMasters_spec (Option.some_get _).symm).1.legal smallEnd_reachable.legal)
    (by decide +kernel)).mp
    ⟨2, by decide +kernel, by decide +kernel⟩

/-! Twelve nodes, eleven of them in two chains. Both chains are cut after three
steps. When the two registers are merged a new one is put in front of them, and
the path that used to start at the first is one step longer than asked for. -/

def dff : DbMaster where
  name := "DFF"
  mTerms := [⟨"D", .signal, .input⟩, ⟨"CK", .clock, .input⟩, ⟨"Q", .signal, .output⟩]
  nodup := by decide

def deepSpec : List SpecLine :=
  [.fanin 0 4 (1 / 4), .fanin 1 12 (3 / 4), .fanin 2 0 0,
    .fanout 0 4 (1 / 4), .fanout 1 12 (3 / 4), .fanout 2 0 0,
    .window 0 1 (1 / 2), .window 1 1 (1 / 2), .window 2 0 0, .window 3 0 0, .window 4 0 0,
    .netbbox 0 1 (1 / 2), .netbbox 1 1 (1 / 2), .netbbox 2 0 0, .netbbox 3 0 0, .netbbox 4 0 0,
    .avgTopoOrder 1, .combRatio 1, .ipadCount 1, .opadCount 1]

def deepAng : ArtNetGen :=
  (ArtNetGen.init { libs := [[dff]] } deepSpec).get (by decide +kernel)

def deepStart : Matching := (Matching.enter deepAng).get (by decide +kernel)

/-- 0, 1, 2, 3, 4, 5, 9 and 6, 7, 8, 10 become the chains. -/
def deepTurns : List Turn :=
  [.joining 0 0 0 0 1, .joining 0 0 0 1 2, .joining 5 0 1 2 3, .joining 0 1 1 3 4,
    .joining 0 1 1 4 5, .joining 5 1 3 5 9, .joining 0 2 2 6 7, .joining 0 2 2 7 8,
    .joining 5 2 3 8 10]

def deepEnd : Matching :=
  (deepTurns.foldlM (Matching.step (.refl ℕ)) deepStart).get (by decide +kernel)

def deepEquipped : Netlist :=
  (deepEnd.netlist.initOnlyUseMasters deepAng).get (by decide +kernel)

def deepRun : PathRun deepAng deepEquipped :=
  (PathRun.carryOut deepAng deepEquipped 3 14 .inOrder .inOrder).get (by decide +kernel)

theorem deepRun_exceeds : ArtNetGen.init { libs := [[dff]] } deepSpec = some deepAng ∧
    Matching.Reachable (.refl ℕ) deepAng deepEnd ∧ deepEnd.Returned ∧
    deepEnd.netlist.initOnlyUseMasters deepAng = some deepEquipped ∧
    0 < deepAng.avgTopoOrder ∧ deepAng.targetMaxOrder = 3 ∧
    deepRun.split.netlist.getMaxTopologicalOrder = some 4 := by
  refine ⟨(Option.some_get _).symm, ⟨deepStart, (Option.some_get _).symm, deepTurns,
    (Option.some_get _).symm⟩, (show deepEnd.tarEdgeCnt ≤ deepEnd.curEdgeCnt by decide +kernel),
    (Option.some_get _).symm, by decide +kernel, by decide +kernel, by decide +kernel⟩

end Artnetgen
