import ArtNetGen.Shelves
import ArtNetGen.Depth

/-!
Whether the last loop of `timingPathConstruction_v1` ends. Each split appends a
register with one source, which the loop tests again: it is the last of its kind
exactly when the library has a register with one data input.
-/

namespace Artnetgen

namespace Netlist

variable {nl nl' : Netlist} {v : NodeId}

/-- A register for which the library has no cell. -/
def Unmastered (nl : Netlist) (v : NodeId) : Prop :=
  nl.type v = .sequential ∧ nl.hasMaster (nl.numFanins v) true ≠ some true

/-- Every register has a number of sources for which the library has a cell. -/
def Mastered (nl : Netlist) : Prop :=
  ∀ v < nl.size, nl.type v = .sequential → nl.hasMaster (nl.numFanins v) true = some true

instance (nl : Netlist) : Decidable nl.Mastered :=
  inferInstanceAs (Decidable (∀ v < nl.size, _ → _ = _))

/-- A register with one source finds a cell, and a node may have a sink. -/
def Supplied (nl : Netlist) : Prop := nl.hasMaster 1 true = some true ∧ 0 < nl.foDist.xMax

instance (nl : Netlist) : Decidable nl.Supplied := inferInstanceAs (Decidable (_ ∧ _))

/-- What the loop relies on. -/
structure Ready (nl : Netlist) : Prop where
  legal : nl.Legal
  fits : nl.Fits
  slots : nl.fi2SequMasters.length = (nl.fiDist.xMax + 1).toNat

theorem Rework.keeps (h : Rework nl nl') (hs : nl.Sound) : Keeps nl nl' := by
  cases h with
  | cut => rfl
  | merge hne hlt1 hlt2 hseq1 hseq2 h =>
      exact (mergePair_replaced hs hne hlt1 hlt2 hseq1 hseq2 h).2.keeps
  | split hlt hseq h => exact (splitNode_replaced hs hlt hseq h).keeps

theorem Ready.rework (hr : nl.Ready) (h : Rework nl nl') : nl'.Ready := by
  have hkeeps := h.keeps hr.legal.sound
  refine ⟨h.legal hr.legal, h.fits hr.legal.sound hr.fits, ?_⟩
  rw [hkeeps.fi2SequMasters, hkeeps.fiDist]
  exact hr.slots

theorem Ready.reworks (hr : nl.Ready) (h : Relation.ReflTransGen Rework nl nl') : nl'.Ready := by
  induction h with
  | refl => exact hr
  | tail _ hrework ih => exact ih.rework hrework

theorem Keeps.hasMaster (h : Keeps nl nl') (k : ℕ) :
    nl'.hasMaster k true = nl.hasMaster k true := by
  rw [Netlist.hasMaster, Netlist.hasMaster, h.fi2SequMasters]
  rfl

theorem Keeps.supplied (h : Keeps nl nl') : nl'.Supplied ↔ nl.Supplied := by
  rw [Supplied, Supplied, h.hasMaster, h.foDist]

/-- The table is asked about numbers of sources that it has an entry for. -/
theorem Ready.hasMaster_isDefined (hr : nl.Ready) (hv : v < nl.size) :
    ∃ has, nl.hasMaster (nl.numFanins v) true = some has := by
  obtain ⟨hfi, -⟩ := hr.fits.within v hv
  have hslot : nl.numFanins v < nl.fi2SequMasters.length := by
    rw [hr.slots]
    omega
  simp [hasMaster, List.getElem?_eq_getElem hslot]

theorem Ready.splitNode_isDefined (hr : nl.Ready) (hsupplied : nl.Supplied) (hv : v < nl.size) :
    ∃ nl', nl.splitNode v = some nl' := by
  obtain ⟨hmaster, hfo⟩ := hsupplied
  have hslot : 1 < nl.fi2SequMasters.length := by
    simp only [hasMaster, if_true, Option.map_eq_some_iff] at hmaster
    obtain ⟨masters, hmasters, -⟩ := hmaster
    exact (List.getElem?_eq_some_iff.mp hmasters).1
  rw [hr.slots] at hslot
  exact hr.fits.splitNode_isDefined hr.legal.sound hv (by omega) (by omega)

/-- A split leaves every other register as it was. The new one has one source. -/
theorem splitNode_unmastered (hs : nl.Sound) (hlt : v < nl.size) (hseq : nl.type v = .sequential)
    (h : nl.splitNode v = some nl') {w : NodeId} (hw : w < nl'.size) (hun : nl'.Unmastered w) :
    (w = nl.size ∧ nl.hasMaster 1 true ≠ some true) ∨
      (w ≠ v ∧ w < nl.size ∧ nl.Unmastered w) := by
  have hreplaced := splitNode_replaced hs hlt hseq h
  obtain ⟨hnode, -, hothers⟩ := splitNode_fanins hs hlt h
  obtain ⟨_, _, -, -, hbecomes⟩ := hreplaced.becomes
  obtain ⟨htype, hmaster⟩ := hun
  rw [hreplaced.keeps.hasMaster] at hmaster
  rw [hbecomes.type, retyped] at htype
  rw [hreplaced.size, Nat.lt_succ_iff] at hw
  split at htype
  · cases htype
  · next hwv =>
      rw [List.mem_singleton] at hwv
      by_cases hwn : w = nl.size
      · rw [hwn, hnode] at hmaster
        exact Or.inl ⟨hwn, hmaster⟩
      · rw [if_neg hwn] at htype
        rw [hothers w hwn] at hmaster
        exact Or.inr ⟨hwv, Nat.lt_of_le_of_ne hw hwn, htype, hmaster⟩

end Netlist

namespace Splitting

open Netlist

variable {s s' : Splitting} {n : ℕ}

theorem turns_succ : turns (n + 1) s = (turns n s).bind turn := by
  unfold turns
  rw [List.range_succ, List.foldlM_append]
  simp

/-- A turn is defined if the register that it has to split can be split. -/
theorem turn_isDefined (hr : s.netlist.Ready)
    (hsplit : s.i < s.netlist.size → s.netlist.Unmastered s.i →
      ∃ nl, s.netlist.splitNode s.i = some nl) : ∃ s', s.turn = some s' := by
  by_cases hlt : s.i < s.netlist.size
  · by_cases hseq : s.netlist.type s.i = .sequential
    · obtain ⟨has, hhas⟩ := hr.hasMaster_isDefined hlt
      have hmaster : s.netlist.hasMaster (s.netlist.node s.i).numFanins true = some has := hhas
      cases has with
      | true => exact ⟨{ s with i := s.i + 1 }, by simp [turn, hlt, hseq, hmaster]⟩
      | false =>
          obtain ⟨nl, hnl⟩ := hsplit hlt ⟨hseq, by rw [hhas]; decide⟩
          exact ⟨⟨nl, s.i + 1⟩, by simp [turn, hlt, hseq, hmaster, hnl]⟩
    · exact ⟨{ s with i := s.i + 1 }, by simp [turn, hlt, hseq]⟩
  · exact ⟨s, by simp [turn, hlt]⟩

/-! ## The loop ends -/

/-- The loop over the `n` nodes at its start, and over what it appends to them:
the registers without a cell are among the old nodes that are still to come, and
there is at most one new node for each old one that is done. -/
structure Inv (n : ℕ) (s : Splitting) : Prop where
  ready : s.netlist.Ready
  supplied : s.netlist.Supplied ∨ s.netlist.Mastered
  pending : ∀ v : ℕ, v < s.netlist.size → s.netlist.Unmastered v → s.i ≤ v ∧ v < n
  size : s.netlist.size ≤ n + min s.i n

theorem Inv.turn_isDefined (h : s.Inv n) : ∃ s', s.turn = some s' := by
  apply Splitting.turn_isDefined h.ready
  intro hlt hun
  have hsupplied := h.supplied.resolve_right fun hmastered => hun.2 (hmastered s.i hlt hun.1)
  exact h.ready.splitNode_isDefined hsupplied hlt

theorem Inv.turn (h : s.Inv n) (hturn : s.turn = some s') : s'.Inv n := by
  rcases turn_cases hturn with ⟨-, rfl⟩ | ⟨hlt, hi, ⟨hnetlist, hmaster⟩ | ⟨hseq, hhas, hsplit⟩⟩
  · exact h
  · refine ⟨hnetlist ▸ h.ready, hnetlist ▸ h.supplied, fun v hv hun => ?_, ?_⟩
    · rw [hnetlist] at hv hun
      obtain ⟨hle, hvn⟩ := h.pending v hv hun
      have hne : v ≠ s.i := fun heq : v = s.i => hun.2 (heq ▸ hmaster (heq ▸ hun.1))
      rw [hi]
      exact ⟨Nat.lt_of_le_of_ne hle (Ne.symm hne), hvn⟩
    · have hsize := h.size
      rw [hnetlist]
      omega
  · have hun : s.netlist.Unmastered s.i := ⟨hseq, fun htrue => by
      change s.netlist.hasMaster (s.netlist.node s.i).numFanins true = _ at htrue
      rw [hhas] at htrue
      cases htrue⟩
    have hsupplied := h.supplied.resolve_right fun hmastered => hun.2 (hmastered s.i hlt hseq)
    have hreplaced := splitNode_replaced h.ready.legal.sound hlt hseq hsplit
    refine ⟨h.ready.rework (.split hlt hseq hsplit),
      Or.inl (hreplaced.keeps.supplied.mpr hsupplied), fun v hv hun' => ?_, ?_⟩
    · rcases splitNode_unmastered h.ready.legal.sound hlt hseq hsplit hv hun' with
        ⟨-, hnone⟩ | ⟨hne, hlt', hold⟩
      · exact absurd hsupplied.1 hnone
      · obtain ⟨hle, hvn⟩ := h.pending v hlt' hold
        rw [hi]
        exact ⟨Nat.lt_of_le_of_ne hle (Ne.symm hne), hvn⟩
    · have hsize := h.size
      have hin := (h.pending s.i hlt hun).2
      rw [hreplaced.size, hi]
      omega

theorem Inv.turns (h : s.Inv n) (hi : s.i = 0) (k : ℕ) :
    ∃ s', turns k s = some s' ∧ s'.Inv n ∧ (s'.Ended ∨ s'.i = k) := by
  induction k with
  | zero => exact ⟨s, rfl, h, Or.inr hi⟩
  | succ k ih =>
      obtain ⟨mid, hmid, hinv, hk⟩ := ih
      obtain ⟨s', hs'⟩ := hinv.turn_isDefined
      refine ⟨s', by rw [turns_succ, hmid]; exact hs', hinv.turn hs', ?_⟩
      rcases turn_cases hs' with ⟨hended, rfl⟩ | ⟨hlt, hi', -⟩
      · exact Or.inl hended
      · have hmore : mid.i = k := hk.resolve_left fun hended => absurd hlt (Nat.not_lt.mpr hended)
        exact Or.inr (hi'.trans (congrArg (· + 1) hmore))

/-- When the loop ends nothing is pending. -/
theorem Inv.mastered (h : s.Inv n) (hended : s.Ended) : s.netlist.Mastered := by
  intro v hv hseq
  by_contra hnone
  have hle := (h.pending v hv ⟨hseq, hnone⟩).1
  exact (hv.trans_le (hended.trans hle)).false

/-- There are at most twice as many turns as nodes. -/
theorem ends_of_supplied {nl : Netlist} (hr : nl.Ready) (h : nl.Mastered ∨ nl.Supplied) :
    ∃ k s', turns k { netlist := nl } = some s' ∧ s'.Ended ∧ s'.netlist.Mastered := by
  have hstart : Inv nl.size { netlist := nl } :=
    ⟨hr, h.symm, fun v hv _ => ⟨Nat.zero_le v, hv⟩, Nat.le_add_right _ _⟩
  obtain ⟨s', hs', hinv, hk⟩ := hstart.turns rfl (2 * nl.size)
  have hended : s'.Ended := by
    apply hk.elim id
    intro hi
    have hsize := hinv.size
    unfold Ended
    omega
  exact ⟨_, s', hs', hended, hinv.mastered hended⟩

/-! ## Else it does not -/

/-- What is behind the loop is settled; and nothing has been split, or a register
with one source is there. -/
structure Trace (nl : Netlist) (s : Splitting) : Prop where
  ready : s.netlist.Ready
  keeps : Keeps nl s.netlist
  settled : ∀ v : ℕ, v < s.i → v < s.netlist.size → ¬ s.netlist.Unmastered v
  single : s.netlist = nl ∨ (0 < nl.foDist.xMax ∧
    ∃ w < s.netlist.size, s.netlist.type w = .sequential ∧ s.netlist.numFanins w = 1)

theorem Trace.turn {nl : Netlist} (h : Trace nl s) (hturn : s.turn = some s') : Trace nl s' := by
  rcases turn_cases hturn with ⟨-, rfl⟩ | ⟨hlt, hi, ⟨hnetlist, hmaster⟩ | ⟨hseq, hhas, hsplit⟩⟩
  · exact h
  · refine ⟨hnetlist ▸ h.ready, hnetlist ▸ h.keeps, fun v hv hvs hun => ?_, hnetlist ▸ h.single⟩
    rw [hnetlist] at hvs hun
    rw [hi, Nat.lt_succ_iff_lt_or_eq] at hv
    rcases hv with hv | rfl
    · exact h.settled v hv hvs hun
    · exact hun.2 (hmaster hun.1)
  · have hreplaced := splitNode_replaced h.ready.legal.sound hlt hseq hsplit
    have hready := h.ready.rework (.split hlt hseq hsplit)
    have hkeeps := h.keeps.trans hreplaced.keeps
    obtain ⟨hnode, htarget, -⟩ := splitNode_fanins h.ready.legal.sound hlt hsplit
    obtain ⟨_, _, -, -, hbecomes⟩ := hreplaced.becomes
    have hsize : s.netlist.size < s'.netlist.size := hreplaced.size ▸ Nat.lt_succ_self _
    refine ⟨hready, hkeeps, fun v hv hvs hun => ?_, Or.inr ⟨?_, _, hsize, ?_, hnode⟩⟩
    · have hle : v ≤ s.i := Nat.lt_succ_iff.mp (hv.trans_eq hi)
      rcases splitNode_unmastered h.ready.legal.sound hlt hseq hsplit hvs hun with
        ⟨heq, -⟩ | ⟨hne, hvlt, hold⟩
      · exact absurd hlt (Nat.not_lt.mpr (heq ▸ hle))
      · exact h.settled v (Nat.lt_of_le_of_ne hle hne) hvlt hold
    · obtain ⟨-, hfo⟩ := hready.fits.within s.i (hlt.trans hsize)
      rw [htarget, hkeeps.foDist] at hfo
      omega
    · simp [hbecomes.type, retyped, hlt.ne']

theorem turns_trace {nl : Netlist} (hr : nl.Ready) {k : ℕ}
    (h : turns k { netlist := nl } = some s') : Trace nl s' :=
  Loop.invariant (Trace nl) (fun _ _ _ _ ht hturn => ht.turn hturn)
    ⟨hr, .refl nl, fun v hv => absurd hv (Nat.not_lt_zero v), Or.inl rfl⟩ h

/-- When the loop ends every register has a cell. So nothing had to be split, or
there is a cell for registers with one source. -/
theorem Trace.ended {nl : Netlist} (h : Trace nl s) (hended : s.Ended) :
    s.netlist.Mastered ∧ (nl.Mastered ∨ nl.Supplied) := by
  have hmastered : s.netlist.Mastered := by
    intro v hv hseq
    by_contra hnone
    exact h.settled v (hv.trans_le hended) hv ⟨hseq, hnone⟩
  refine ⟨hmastered, ?_⟩
  rcases h.single with heq | ⟨hfo, w, hw, hseq, hone⟩
  · exact Or.inl (heq ▸ hmastered)
  · have hmaster := hmastered w hw hseq
    rw [hone, h.keeps.hasMaster] at hmaster
    exact Or.inr ⟨hmaster, hfo⟩

/-- The loop ends, with a cell for every register, exactly when every register
had one before or the library has one for the registers that the loop adds. -/
theorem ends_iff {nl : Netlist} (hr : nl.Ready) :
    (∃ k s', turns k { netlist := nl } = some s' ∧ s'.Ended ∧ s'.netlist.Mastered) ↔
      nl.Mastered ∨ nl.Supplied :=
  ⟨fun ⟨_, _, hs', hended, _⟩ => ((turns_trace hr hs').ended hended).2, ends_of_supplied hr⟩

/-- Otherwise it goes on for ever, unless the tables are too small for it. -/
theorem goes_on {nl : Netlist} (hr : nl.Ready) (hfi : 1 ≤ nl.fiDist.xMax)
    (hfo : 1 ≤ nl.foDist.xMax) (hmastered : ¬ nl.Mastered) (hsupplied : ¬ nl.Supplied) (k : ℕ) :
    ∃ s', turns k { netlist := nl } = some s' ∧ ¬ s'.Ended := by
  obtain ⟨s', hs', htrace⟩ : ∃ s', turns k { netlist := nl } = some s' ∧ Trace nl s' := by
    induction k with
    | zero => exact ⟨{ netlist := nl }, rfl, turns_trace (k := 0) hr rfl⟩
    | succ k ih =>
        obtain ⟨mid, hmid, htrace⟩ := ih
        obtain ⟨s', hs'⟩ := turn_isDefined htrace.ready fun hlt _ =>
          htrace.ready.fits.splitNode_isDefined htrace.ready.legal.sound hlt
            (htrace.keeps.fiDist ▸ hfi) (htrace.keeps.foDist ▸ hfo)
        exact ⟨s', by rw [turns_succ, hmid]; exact hs', htrace.turn hs'⟩
  exact ⟨s', hs', fun hended => (htrace.ended hended).2.elim hmastered hsupplied⟩

end Splitting

/-- What `distMatching` builds is ready once the cells are filed. -/
theorem Matching.Reachable.ready {addr : NodeId ↪ ℕ} {ang : ArtNetGen} {s : Matching}
    (h : Reachable addr ang s) {nl : Netlist} (hmasters : s.netlist.initOnlyUseMasters ang = some nl) :
    nl.Ready := by
  obtain ⟨hequipped, hslots⟩ := Netlist.initOnlyUseMasters_spec hmasters
  have hlegal := hequipped.legal h.legal
  have hplaced := h.inv.consistent.placed
  have hindexed := h.inv.consistent.indexed
  have hfanin := h.inv.wired.fanin
  have hfanout := h.inv.wired.fanout
  unfold Netlist.Equipped at hequipped
  rw [hequipped] at hlegal hslots ⊢
  exact ⟨hlegal, ⟨⟨_, _, ⟨hplaced.coords, hplaced.inGrid, hplaced.members⟩,
    ⟨hindexed.fi, hindexed.fo⟩⟩, fun v hv => ⟨hfanin v hv, hfanout v hv⟩⟩, hslots⟩

/-- Whether the last loop of `timingPathConstruction_v1` ends is decided by the
netlist and the cells at its start. -/
theorem MergeRun.splitting_ends_iff (addr : NodeId ↪ ℕ) (ang : ArtNetGen) (s : Matching)
    (nl : Netlist) (hs : Matching.Reachable addr ang s)
    (hmasters : s.netlist.initOnlyUseMasters ang = some nl) (run : MergeRun ang nl) :
    (∃ k s', Splitting.turns k { netlist := run.fitted.netlist } = some s' ∧ s'.Ended ∧
        s'.netlist.Mastered) ↔
      run.fitted.netlist.Mastered ∨ (run.fitted.netlist.hasMaster 1 true = some true ∧
        0 < run.fitted.netlist.foDist.xMax) :=
  Splitting.ends_iff ((hs.ready hmasters).reworks (run.reworks (hs.ready hmasters).legal))

theorem MergeRun.splitting_ends_iff_deep : ∃ k s',
    Splitting.turns k { netlist := deepRun.fitted.netlist } = some s' ∧ s'.Ended ∧
      s'.netlist.Mastered :=
  (MergeRun.splitting_ends_iff (.refl ℕ) deepAng deepEnd deepEquipped
    ⟨deepStart, (Option.some_get _).symm, deepTurns, (Option.some_get _).symm⟩
    (Option.some_get _).symm deepRun.toMergeRun).mpr
    (Or.inr (by decide +kernel))

/-! The same twelve nodes with a register whose clock pin is not marked as such:
it is filed as a gate, and there is no cell for any register. -/

def unmarkedDff : DbMaster where
  name := "DFF"
  mTerms := [⟨"D", .signal, .input⟩, ⟨"CK", .signal, .input⟩, ⟨"Q", .signal, .output⟩]
  nodup := by decide

def unmarkedAng : ArtNetGen :=
  (ArtNetGen.init { libs := [[unmarkedDff]] } deepSpec).get (by decide +kernel)

def unmarkedStart : Matching := (Matching.enter unmarkedAng).get (by decide +kernel)

def unmarkedEnd : Matching :=
  (deepTurns.foldlM (Matching.step (.refl ℕ)) unmarkedStart).get (by decide +kernel)

theorem unmarkedEnd_reachable : Matching.Reachable (.refl ℕ) unmarkedAng unmarkedEnd :=
  ⟨unmarkedStart, (Option.some_get _).symm, deepTurns, (Option.some_get _).symm⟩

def unmarkedEquipped : Netlist :=
  (unmarkedEnd.netlist.initOnlyUseMasters unmarkedAng).get (by decide +kernel)

def unmarkedRun : MergeRun unmarkedAng unmarkedEquipped :=
  (MergeRun.carryOut unmarkedAng unmarkedEquipped 3 .inOrder .inOrder).get (by decide +kernel)

theorem unmarkedRun_unmastered : 1 ≤ unmarkedRun.fitted.netlist.fiDist.xMax ∧
    1 ≤ unmarkedRun.fitted.netlist.foDist.xMax ∧ ¬ unmarkedRun.fitted.netlist.Mastered ∧
    ¬ unmarkedRun.fitted.netlist.Supplied := by decide +kernel

theorem unmarkedRun_goes_on :
    ArtNetGen.init { libs := [[unmarkedDff]] } deepSpec = some unmarkedAng ∧
      Matching.Reachable (.refl ℕ) unmarkedAng unmarkedEnd ∧ unmarkedEnd.Returned ∧
      unmarkedEnd.netlist.initOnlyUseMasters unmarkedAng = some unmarkedEquipped ∧
      ∀ k, ∃ s', Splitting.turns k { netlist := unmarkedRun.fitted.netlist } = some s' ∧
        ¬ s'.Ended := by
  have hready : unmarkedEquipped.Ready :=
    unmarkedEnd_reachable.ready (Option.some_get _).symm
  obtain ⟨hfi, hfo, hmastered, hsupplied⟩ := unmarkedRun_unmastered
  exact ⟨(Option.some_get _).symm, unmarkedEnd_reachable,
    (show unmarkedEnd.tarEdgeCnt ≤ unmarkedEnd.curEdgeCnt by decide +kernel),
    (Option.some_get _).symm,
    Splitting.goes_on (hready.reworks (unmarkedRun.reworks hready.legal)) hfi hfo hmastered
      hsupplied⟩

end Artnetgen
