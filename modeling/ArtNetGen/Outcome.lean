import ArtNetGen.Splitting
import ArtNetGen.Library.Counts

/-!
What the last loop of `timingPathConstruction_v1` leaves: the registers without
a cell have become gates, and for each there is a new register. This decides how
many gates there are and which numbers of sources they have.
-/

namespace Artnetgen

namespace Netlist

/-- The node becomes a gate at the latest in the last loop. -/
def EndsAsGate (nl : Netlist) (v : NodeId) : Prop := nl.type v = .combinational ∨ nl.Unmastered v

instance (nl : Netlist) (v : NodeId) : Decidable (nl.Unmastered v) :=
  inferInstanceAs (Decidable (_ ∧ _))

instance (nl : Netlist) (v : NodeId) : Decidable (nl.EndsAsGate v) :=
  inferInstanceAs (Decidable (_ ∨ _))

/-- The number of registers without a cell among the nodes below `k`. -/
def unmasteredBelow (nl : Netlist) (k : ℕ) : ℕ :=
  (List.range k).countP fun v => decide (nl.Unmastered v)

theorem unmasteredBelow_succ (nl : Netlist) (k : ℕ) :
    nl.unmasteredBelow (k + 1) = nl.unmasteredBelow k + if nl.Unmastered k then 1 else 0 := by
  simp [unmasteredBelow, List.range_succ, List.countP_append, List.countP_cons]

theorem Mastered.unmasteredBelow {nl : Netlist} (h : nl.Mastered) {k : ℕ} (hk : k ≤ nl.size) :
    nl.unmasteredBelow k = 0 := by
  unfold Netlist.unmasteredBelow
  rw [List.countP_eq_zero]
  intro v hv hun
  rw [List.mem_range] at hv
  have hun' : nl.Unmastered v := by simpa using hun
  exact hun'.2 (h v (hv.trans_le hk) hun'.1)

end Netlist

namespace Splitting

open Netlist

/-- The loop has dealt with the nodes below `i`. -/
structure Kept (nl : Netlist) (s : Splitting) : Prop where
  ready : s.netlist.Ready
  keeps : Keeps nl s.netlist
  size : s.netlist.size = nl.size + nl.unmasteredBelow (min s.i nl.size)
  fanins : ∀ v < nl.size, s.netlist.numFanins v = nl.numFanins v
  type : ∀ v < nl.size, s.netlist.type v =
    if v < s.i ∧ nl.Unmastered v then .combinational else nl.type v
  new : ∀ v, nl.size ≤ v → v < s.netlist.size →
    s.netlist.type v = .sequential ∧ s.netlist.numFanins v = 1

variable {nl : Netlist} {s s' : Splitting}

/-- A register that the loop splits is an old one without a cell. -/
theorem Kept.unmastered (h : Kept nl s) (hsupplied : nl.Supplied ∨ nl.Mastered)
    (hlt : s.i < s.netlist.size) (hseq : s.netlist.type s.i = .sequential)
    (hhas : s.netlist.hasMaster (s.netlist.numFanins s.i) true = some false) :
    s.i < nl.size ∧ nl.Unmastered s.i := by
  rw [h.keeps.hasMaster] at hhas
  have hold : s.i < nl.size := by
    by_contra hge
    obtain ⟨-, hone⟩ := h.new s.i (Nat.not_lt.mp hge) hlt
    rcases hsupplied with hsupplied | hmastered
    · rw [hone, hsupplied.1] at hhas
      cases hhas
    · have hsize := h.size
      rw [hmastered.unmasteredBelow (min_le_right _ _)] at hsize
      omega
  have htype := h.type s.i hold
  rw [if_neg (fun hlt => (lt_irrefl _ hlt.1))] at htype
  refine ⟨hold, htype ▸ hseq, fun htrue => ?_⟩
  rw [h.fanins s.i hold, htrue] at hhas
  cases hhas

theorem Kept.turn (h : Kept nl s) (hsupplied : nl.Supplied ∨ nl.Mastered)
    (hturn : s.turn = some s') : Kept nl s' := by
  rcases turn_cases hturn with ⟨-, rfl⟩ | ⟨hlt, hi, ⟨hnetlist, hmaster⟩ | ⟨hseq, hhas, hsplit⟩⟩
  · exact h
  · -- The node at the index is no register without a cell.
    have hnot : s.i < nl.size → ¬ nl.Unmastered s.i := by
      intro hold hun
      have htype := h.type s.i hold
      rw [if_neg fun hlt => lt_irrefl _ hlt.1, hun.1] at htype
      have hhas := hmaster htype
      change s.netlist.hasMaster (s.netlist.numFanins s.i) true = some true at hhas
      rw [h.keeps.hasMaster, h.fanins s.i hold] at hhas
      exact hun.2 hhas
    refine ⟨hnetlist ▸ h.ready, hnetlist ▸ h.keeps, ?_, hnetlist ▸ h.fanins, fun v hv => ?_,
      hnetlist ▸ h.new⟩
    · rw [hnetlist, h.size, hi]
      congr 1
      by_cases hold : s.i < nl.size
      · rw [min_eq_left hold.le, min_eq_left (Nat.succ_le_of_lt hold), unmasteredBelow_succ,
          if_neg (hnot hold), Nat.add_zero]
      · rw [min_eq_right (Nat.not_lt.mp hold), min_eq_right (by omega)]
    · rw [hnetlist, h.type v hv, hi]
      refine if_congr (and_congr_left fun hun => ?_) rfl rfl
      rw [Nat.lt_succ_iff]
      refine ⟨Nat.le_of_lt, fun hle => Nat.lt_of_le_of_ne hle fun heq : v = s.i => ?_⟩
      exact hnot (heq ▸ hv) (heq ▸ hun)
  · obtain ⟨hold, hun⟩ := h.unmastered hsupplied hlt hseq hhas
    have hreplaced := splitNode_replaced h.ready.legal.sound hlt hseq hsplit
    obtain ⟨hnode, -, hothers⟩ := splitNode_fanins h.ready.legal.sound hlt hsplit
    obtain ⟨_, _, -, -, hbecomes⟩ := hreplaced.becomes
    have hle : nl.size ≤ s.netlist.size := h.size ▸ Nat.le_add_right _ _
    refine ⟨h.ready.rework (.split hlt hseq hsplit), h.keeps.trans hreplaced.keeps, ?_,
      fun v hv => ?_, fun v hv => ?_, fun v hv hvs => ?_⟩
    · rw [hreplaced.size, h.size, hi, min_eq_left hold.le, min_eq_left (Nat.succ_le_of_lt hold),
        unmasteredBelow_succ, if_pos hun, Nat.add_assoc]
    · rw [hothers v (hv.trans_le hle).ne]
      exact h.fanins v hv
    · rw [hbecomes.type, retyped, hi]
      by_cases hvi : v = s.i
      · have hnow : v < s.i + 1 ∧ nl.Unmastered v := ⟨hvi ▸ Nat.lt_succ_self _, hvi ▸ hun⟩
        rw [if_pos (by simp [hvi]), if_pos hnow]
      · have hlt' : v < s.i + 1 ↔ v < s.i := by
          have hne : (v : ℕ) ≠ s.i := hvi
          omega
        rw [if_neg (by simpa using hvi), if_neg (hv.trans_le hle).ne, h.type v hv]
        exact if_congr (and_congr_left fun _ => hlt'.symm) rfl rfl
    · rw [hreplaced.size, Nat.lt_succ_iff] at hvs
      rcases Nat.lt_or_eq_of_le hvs with hvs | rfl
      · have hne : v ≠ s.i := fun heq : v = s.i => (hold.trans_le (heq ▸ hv)).false
        rw [hbecomes.type, retyped, if_neg (by simpa using hne), if_neg hvs.ne, hothers v hvs.ne]
        exact h.new v hv hvs
      · rw [hbecomes.type, retyped, if_neg (by simpa using hlt.ne'), if_pos rfl]
        exact ⟨rfl, hnode⟩

theorem turns_kept {k : ℕ} (hr : nl.Ready) (h : turns k { netlist := nl } = some s)
    (hended : s.Ended) : Kept nl s := by
  have hsupplied := (((turns_trace hr h).ended hended).2).symm
  refine Loop.invariant (Kept nl) (fun _ _ _ _ ht hturn => ht.turn hsupplied hturn) ?_ h
  refine ⟨hr, .refl nl, ?_, fun _ _ => rfl, fun v hv => ?_, fun v hv hvs => ?_⟩
  · simp [unmasteredBelow]
  · simp
  · exact absurd hvs (Nat.not_lt.mpr hv)

/-! ## The finished netlist -/

section Ended

variable (h : Kept nl s) (hended : s.Ended)

include h hended

theorem Kept.size_ended : s.netlist.size = nl.size + nl.unmasteredBelow nl.size := by
  have hsize := h.size
  have hle : nl.size ≤ s.i := (hsize ▸ Nat.le_add_right _ _ : nl.size ≤ s.netlist.size).trans hended
  rwa [min_eq_right hle] at hsize

theorem Kept.type_ended {v : NodeId} (hv : v < nl.size) :
    s.netlist.type v = if nl.Unmastered v then .combinational else nl.type v := by
  rw [h.type v hv]
  have hi : v < s.i := (hv.trans_le (h.size ▸ Nat.le_add_right _ _)).trans_le hended
  exact if_congr (and_iff_right hi) rfl rfl

theorem Kept.isGate_iff {v : NodeId} (hv : v < nl.size) :
    s.netlist.type v = .combinational ↔ nl.EndsAsGate v := by
  rw [h.type_ended hended hv, EndsAsGate]
  by_cases hun : nl.Unmastered v
  · simp [hun]
  · simp [hun]

/-- Every gate has a cell exactly when there is one for each node that ends as a
gate. -/
theorem Kept.gates_have_cells_iff :
    (∀ v < s.netlist.size, s.netlist.type v = .combinational →
        s.netlist.hasMaster (s.netlist.numFanins v) false = some true) ↔
      ∀ v < nl.size, nl.EndsAsGate v → nl.hasMaster (nl.numFanins v) false = some true := by
  have hkept : ∀ k, s.netlist.hasMaster k false = nl.hasMaster k false := fun k =>
    h.keeps.congr (fun nl => nl.hasMaster k false) fun _ _ _ _ => rfl
  have hle : nl.size ≤ s.netlist.size := h.size ▸ Nat.le_add_right _ _
  constructor
  · intro hall v hv hgate
    have hmaster := hall v (hv.trans_le hle) ((h.isGate_iff hended hv).mpr hgate)
    rwa [hkept, h.fanins v hv] at hmaster
  · intro hall v hv hgate
    rcases Nat.lt_or_ge v nl.size with hold | hnew
    · rw [hkept, h.fanins v hold]
      exact hall v hold ((h.isGate_iff hended hold).mp hgate)
    · rw [(h.new v hnew hv).1] at hgate
      cases hgate

theorem Kept.numOf_combinational :
    s.netlist.numOf .combinational = nl.numOf .combinational + nl.unmasteredBelow nl.size := by
  rw [numOf, nodes, h.size_ended hended, List.range_add, List.countP_append]
  have hnew : ((List.range (nl.unmasteredBelow nl.size)).map (nl.size + ·)).countP
      (fun v => decide (s.netlist.type v = .combinational)) = 0 := by
    rw [List.countP_eq_zero]
    intro v hv hgate
    obtain ⟨k, hk, rfl⟩ := List.mem_map.mp hv
    rw [List.mem_range] at hk
    have hseq := (h.new (nl.size + k) (Nat.le_add_right _ _)
      (h.size_ended hended ▸ Nat.add_lt_add_left hk _)).1
    rw [hseq] at hgate
    cases hgate
  have hold : (List.range nl.size).countP (fun v => decide (s.netlist.type v = .combinational)) =
      (List.range nl.size).countP fun v => decide (nl.EndsAsGate v) := by
    refine List.countP_congr fun v hv => ?_
    simp only [decide_eq_true_eq]
    exact h.isGate_iff hended (List.mem_range.mp hv)
  rw [hnew, hold, Nat.add_zero, numOf, nodes, unmasteredBelow]
  refine Counts.countP_or fun v _ hgate hun => ?_
  have hseq := hun.1
  rw [hgate] at hseq
  cases hseq

/-- A register that becomes a gate gets a new one behind it. -/
theorem Kept.numOf_sequential : s.netlist.numOf .sequential = nl.numOf .sequential := by
  unfold numOf
  rw [nodes, h.size_ended hended, List.range_add, List.countP_append]
  have hnew : ((List.range (nl.unmasteredBelow nl.size)).map (nl.size + ·)).countP
      (fun v => decide (s.netlist.type v = .sequential)) = nl.unmasteredBelow nl.size := by
    have hall : ∀ v ∈ (List.range (nl.unmasteredBelow nl.size)).map (nl.size + ·),
        decide (s.netlist.type v = .sequential) = true := by
      intro v hv
      obtain ⟨k, hk, rfl⟩ := List.mem_map.mp hv
      rw [List.mem_range] at hk
      exact decide_eq_true (h.new (nl.size + k) (Nat.le_add_right _ _)
        (h.size_ended hended ▸ Nat.add_lt_add_left hk _)).1
    rw [List.countP_eq_length.mpr hall, List.length_map, List.length_range]
  have hold : (List.range nl.size).countP (fun v => decide (s.netlist.type v = .sequential)) =
      (List.range nl.size).countP fun v =>
        decide (nl.type v = .sequential ∧ ¬ nl.Unmastered v) := by
    apply List.countP_congr
    intro v hv
    rw [decide_eq_true_eq, decide_eq_true_eq, h.type_ended hended (List.mem_range.mp hv)]
    by_cases hun : nl.Unmastered v
    · simp [hun]
    · simp [hun]
  rw [hnew, hold, unmasteredBelow, ← Counts.countP_or fun v _ hseq => hseq.2]
  apply List.countP_congr
  intro v _
  rw [decide_eq_true_eq, decide_eq_true_eq]
  constructor
  · rintro (hseq | hun)
    · exact hseq.1
    · exact hun.1
  · intro hseq
    by_cases hun : nl.Unmastered v
    · exact Or.inr hun
    · exact Or.inl ⟨hseq, hun⟩

end Ended

end Splitting

namespace PathRun

variable {ang : ArtNetGen} {nl : Netlist}

theorem kept {addr : NodeId ↪ ℕ} {s : Matching} (hs : Matching.Reachable addr ang s)
    (hmasters : s.netlist.initOnlyUseMasters ang = some nl) (run : PathRun ang nl) :
    Splitting.Kept run.fitted.netlist run.split :=
  Splitting.turns_kept ((hs.ready hmasters).reworks
    (run.toMergeRun.reworks (hs.ready hmasters).legal)) run.splitting run.ended

/-- Whether every gate of the finished netlist has a cell is decided before the
last loop. -/
theorem gates_mastered_iff (addr : NodeId ↪ ℕ) (ang : ArtNetGen) (s : Matching) (nl : Netlist)
    (hs : Matching.Reachable addr ang s)
    (hmasters : s.netlist.initOnlyUseMasters ang = some nl) (run : PathRun ang nl) :
    (∀ v < run.split.netlist.size, run.split.netlist.type v = .combinational →
        run.split.netlist.hasMaster (run.split.netlist.numFanins v) false = some true) ↔
      ∀ v < run.fitted.netlist.size,
        run.fitted.netlist.type v = .combinational ∨
            (run.fitted.netlist.type v = .sequential ∧
              run.fitted.netlist.hasMaster (run.fitted.netlist.numFanins v) true ≠ some true) →
          run.fitted.netlist.hasMaster (run.fitted.netlist.numFanins v) false = some true :=
  (run.kept hs hmasters).gates_have_cells_iff run.ended

/-- The merge passes have been left because the ratio, which was a number, was
high enough. -/
def Stopped (run : PathRun ang nl) : Prop :=
  0 < run.fitted.netlist.numOf .combinational + run.fitted.netlist.numOf .sequential ∧
    ang.combRatio ≤ run.fitted.currentRatio

/-- The real ratio counts only the registers without a cell twice. -/
theorem ratio_met_iff (addr : NodeId ↪ ℕ) (ang : ArtNetGen) (s : Matching) (nl : Netlist)
    (hs : Matching.Reachable addr ang s)
    (hmasters : s.netlist.initOnlyUseMasters ang = some nl) (run : PathRun ang nl) :
    (run.Stopped → ∃ ratio, run.split.netlist.getCombinationalRatio = some ratio ∧
        ang.combRatio ≤ ratio) ↔
      (run.Stopped →
        ang.combRatio *
            (run.fitted.netlist.numOf .combinational + run.fitted.netlist.numOf .sequential +
              run.fitted.netlist.unmasteredBelow run.fitted.netlist.size : ℕ) ≤
          (run.fitted.netlist.numOf .combinational +
            run.fitted.netlist.unmasteredBelow run.fitted.netlist.size : ℕ)) := by
  apply forall_congr'
  intro hstopped
  have hkept := run.kept hs hmasters
  have hcomb := hkept.numOf_combinational run.ended
  have hsequ := hkept.numOf_sequential run.ended
  have hpos := hstopped.1
  unfold Netlist.getCombinationalRatio
  rw [hcomb, hsequ]
  generalize run.fitted.netlist.numOf .combinational = c at hpos ⊢
  generalize run.fitted.netlist.numOf .sequential = q at hpos ⊢
  generalize run.fitted.netlist.unmasteredBelow run.fitted.netlist.size = d
  have hne : q + (c + d) ≠ 0 := by omega
  rw [if_neg hne]
  have hsum : c + q + d = q + (c + d) := by omega
  have hposq : (0 : ℚ) < (q + (c + d) : ℕ) := Nat.cast_pos.mpr (Nat.pos_of_ne_zero hne)
  simp only [Option.some.injEq, exists_eq_left']
  rw [hsum, le_div_iff₀ hposq]

end PathRun

/-! The small netlist with a library that has a flip-flop and no gate. -/

def gatelessAng : ArtNetGen :=
  (ArtNetGen.init { libs := [[dff]] } smallSpec).get (by decide +kernel)

def gatelessStart : Matching := (Matching.enter gatelessAng).get (by decide +kernel)

def gatelessEnd : Matching :=
  (smallTurns.foldlM (Matching.step (.refl ℕ)) gatelessStart).get (by decide +kernel)

theorem gatelessEnd_reachable : Matching.Reachable (.refl ℕ) gatelessAng gatelessEnd :=
  ⟨gatelessStart, (Option.some_get _).symm, smallTurns, (Option.some_get _).symm⟩

def gatelessEquipped : Netlist :=
  (gatelessEnd.netlist.initOnlyUseMasters gatelessAng).get (by decide +kernel)

def gatelessRun : PathRun gatelessAng gatelessEquipped :=
  (PathRun.carryOut gatelessAng gatelessEquipped 1 3 .inOrder .inOrder).get (by decide +kernel)

theorem gatelessRun_unmapped :
    ArtNetGen.init { libs := [[dff]] } smallSpec = some gatelessAng ∧
      Matching.Reachable (.refl ℕ) gatelessAng gatelessEnd ∧ gatelessEnd.Returned ∧
      gatelessEnd.netlist.initOnlyUseMasters gatelessAng = some gatelessEquipped ∧
      (∀ v < gatelessRun.split.netlist.size,
        gatelessRun.split.netlist.type v = .combinational →
          gatelessRun.split.netlist.sources v ≠ []) ∧
      gatelessRun.split.netlist.type 1 = .combinational ∧
      gatelessRun.split.netlist.hasMaster (gatelessRun.split.netlist.numFanins 1) false =
        some false := by
  refine ⟨(Option.some_get _).symm, gatelessEnd_reachable,
    (show gatelessEnd.tarEdgeCnt ≤ gatelessEnd.curEdgeCnt by decide +kernel),
    (Option.some_get _).symm, by decide +kernel, by decide +kernel, by decide +kernel⟩

theorem PathRun.gates_mastered_iff_gateless :
    ¬ ∀ v < gatelessRun.fitted.netlist.size,
        gatelessRun.fitted.netlist.type v = .combinational ∨
            (gatelessRun.fitted.netlist.type v = .sequential ∧
              gatelessRun.fitted.netlist.hasMaster (gatelessRun.fitted.netlist.numFanins v) true ≠
                some true) →
          gatelessRun.fitted.netlist.hasMaster (gatelessRun.fitted.netlist.numFanins v) false =
            some true :=
  mt (PathRun.gates_mastered_iff (.refl ℕ) gatelessAng gatelessEnd gatelessEquipped
    gatelessEnd_reachable (Option.some_get _).symm gatelessRun).mpr (by decide +kernel)

/-! The twelve nodes of the deep netlist, with a flip-flop for two sources and a
ratio of eleven twelfths. After the merge there are ten gates and one register:
the projected ratio is eleven twelfths, as if the register were split, and the
real one is ten elevenths. -/

def dff2 : DbMaster where
  name := "DFF2"
  mTerms := [⟨"D1", .signal, .input⟩, ⟨"D2", .signal, .input⟩, ⟨"CK", .clock, .input⟩,
    ⟨"Q", .signal, .output⟩]
  nodup := by decide

def ratioSpec : List SpecLine := deepSpec ++ [.combRatio (11 / 12)]

def ratioAng : ArtNetGen :=
  (ArtNetGen.init { libs := [[dff, dff2]] } ratioSpec).get (by decide +kernel)

def ratioStart : Matching := (Matching.enter ratioAng).get (by decide +kernel)

def ratioEnd : Matching :=
  (deepTurns.foldlM (Matching.step (.refl ℕ)) ratioStart).get (by decide +kernel)

theorem ratioEnd_reachable : Matching.Reachable (.refl ℕ) ratioAng ratioEnd :=
  ⟨ratioStart, (Option.some_get _).symm, deepTurns, (Option.some_get _).symm⟩

def ratioEquipped : Netlist :=
  (ratioEnd.netlist.initOnlyUseMasters ratioAng).get (by decide +kernel)

def ratioRun : PathRun ratioAng ratioEquipped :=
  (PathRun.carryOut ratioAng ratioEquipped 3 14 .inOrder .inOrder).get (by decide +kernel)

theorem ratioRun_values :
    (0 < ratioRun.fitted.netlist.numOf .combinational + ratioRun.fitted.netlist.numOf .sequential ∧
      ratioAng.combRatio ≤ ratioRun.fitted.currentRatio) ∧ ratioAng.combRatio = 11 / 12 ∧
      ratioRun.split.netlist.getCombinationalRatio = some (10 / 11) := by decide +kernel

theorem ratioRun_missed :
    ArtNetGen.init { libs := [[dff, dff2]] } ratioSpec = some ratioAng ∧
      Matching.Reachable (.refl ℕ) ratioAng ratioEnd ∧ ratioEnd.Returned ∧
      ratioEnd.netlist.initOnlyUseMasters ratioAng = some ratioEquipped ∧
      ratioRun.Stopped ∧ ratioAng.combRatio = 11 / 12 ∧
      ratioRun.split.netlist.getCombinationalRatio = some (10 / 11) := by
  refine ⟨(Option.some_get _).symm, ratioEnd_reachable,
    (show ratioEnd.tarEdgeCnt ≤ ratioEnd.curEdgeCnt by decide +kernel), (Option.some_get _).symm,
    ratioRun_values⟩

theorem PathRun.ratio_met_iff_ratio :
    ¬ (ratioRun.Stopped → ratioAng.combRatio *
          (ratioRun.fitted.netlist.numOf .combinational +
            ratioRun.fitted.netlist.numOf .sequential +
            ratioRun.fitted.netlist.unmasteredBelow ratioRun.fitted.netlist.size : ℕ) ≤
        (ratioRun.fitted.netlist.numOf .combinational +
          ratioRun.fitted.netlist.unmasteredBelow ratioRun.fitted.netlist.size : ℕ)) := by
  refine mt (PathRun.ratio_met_iff (.refl ℕ) ratioAng ratioEnd ratioEquipped ratioEnd_reachable
    (Option.some_get _).symm ratioRun).mpr fun hmet => ?_
  obtain ⟨hstopped, htarget, hreal⟩ := ratioRun_values
  obtain ⟨ratio, hratio, hle⟩ := hmet hstopped
  rw [hreal, Option.some.injEq] at hratio
  rw [← hratio, htarget] at hle
  norm_num at hle

end Artnetgen
