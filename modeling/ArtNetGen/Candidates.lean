import ArtNetGen.Connect
import Mathlib.Data.Int.ConditionallyCompleteOrder

/-!
One turn of `distMatching` seen as a choice from a list. The nested loops keep
the first pair with the largest gain among those they come to; the candidates
are these pairs in the order of the loops, and the turn connects their `argmax`.
-/

namespace Artnetgen

namespace Netlist

variable (addr : NodeId ↪ ℕ)

/-- The pair found for one class of sources and one class of sinks, if any. -/
def pairAt (nl : Netlist) (c : Turn) (srcBin sinkBin : BinId) (fo : ℕ) (foG bboxG : ℤ)
    (src : NodeId) (fi : ℕ) : Option (List Gain) := do
  let candiSinks ← (nl.bin sinkBin).fi2Nodes fi
  if candiSinks = [] then return []
  let fiG ← nl.faninGain fi (fi + 1)
  let sink := nl.lastSink addr srcBin sinkBin src
    ((c.sinks srcBin sinkBin fo fi).val candiSinks)
  return (sink.map fun snk => ⟨fiG + foG + bboxG, src, snk⟩).toList

def pairsAt (nl : Netlist) (c : Turn) (srcBin sinkBin : BinId) (fo : ℕ) :
    Option (List Gain) := do
  let candiSrcs ← (nl.bin srcBin).fo2Nodes fo
  if candiSrcs = [] then return []
  let foG ← nl.fanoutGain fo (fo + 1)
  let localMax ← nl.localMaxSrc sinkBin ((c.srcs srcBin sinkBin fo).val candiSrcs)
  match localMax with
  | none => return []
  | some (bboxG, src) =>
      Loop.collect (nl.pairAt addr c srcBin sinkBin fo foG bboxG src)
        (List.range nl.fiDist.xMax.toNat)

/-- The pairs `getMaxGain` compares for two bins. -/
def pairs (nl : Netlist) (c : Turn) (srcBin sinkBin : BinId) : Option (List Gain) :=
  Loop.collect (nl.pairsAt addr c srcBin sinkBin) (List.range nl.foDist.xMax.toNat)

end Netlist

namespace Matching

variable (addr : NodeId ↪ ℕ)

def candidatesAt (nl : Netlist) (c : Turn) (edgeLength : ℕ) (srcBin : BinId) :
    Option (List Gain) := do
  let sinkBins ← nl.getSinkBins srcBin edgeLength
  Loop.collect (nl.pairs addr c srcBin) ((c.sinkBins srcBin).val sinkBins)

/-- Every pair that a turn at the given edge length compares. -/
def candidates (s : Matching) (c : Turn) (edgeLength : ℕ) : Option (List Gain) :=
  Loop.collect (candidatesAt addr s.netlist c edgeLength) (c.srcBins.val s.srcBins)

end Matching

variable {addr : NodeId ↪ ℕ}

/-! ## The loops as folds over the candidates -/

@[simp] theorem Gain.larger_none_left (x : Option Gain) : Gain.larger none x = x := by
  cases x <;> rfl

@[simp] theorem Gain.larger_none_right (m : Option Gain) : Gain.larger m none = m := by
  cases m <;> rfl

@[simp] theorem Gain.larger_some (m g : Gain) :
    Gain.larger (some m) (some g) = if m.value < g.value then some g else some m := rfl

theorem Gain.larger_keepMax (m x : Option Gain) (g : Gain) :
    Gain.larger m (Loop.keepMax Gain.value x g) = Loop.keepMax Gain.value (Gain.larger m x) g := by
  cases m with
  | none => simp only [larger_none_left]
  | some m =>
      cases x with
      | none => simp only [larger_none_right, Loop.keepMax_none, Loop.keepMax_some, larger_some]
      | some x =>
          simp only [Loop.keepMax_some, larger_some]
          by_cases hxg : x.value < g.value <;> by_cases hmx : m.value < x.value
          · simp [hxg, hmx, hmx.trans hxg]
          · simp [hxg, hmx]
          · simp [hxg, hmx]
          · have hmg : ¬ m.value < g.value := by omega
            simp [hxg, hmx, hmg]

theorem Gain.larger_foldl (m : Option Gain) (l : List Gain) :
    Gain.larger m (l.foldl (Loop.keepMax Gain.value) none) =
      l.foldl (Loop.keepMax Gain.value) m := by
  induction l using List.reverseRecOn with
  | nil => cases m <;> rfl
  | append_singleton l g ih =>
      simp only [List.foldl_append, List.foldl_cons, List.foldl_nil, ← ih, larger_keepMax]

namespace Netlist

theorem getMaxGain_eq (nl : Netlist) (c : Turn) (srcBin sinkBin : BinId) :
    nl.getMaxGain addr c srcBin sinkBin =
      (nl.pairs addr c srcBin sinkBin).map fun l => l.foldl (Loop.keepMax Gain.value) none := by
  unfold getMaxGain
  rw [pairs]
  apply Loop.foldlM_eq_collect
  intro fo _ maxG
  simp only [pairsAt, Option.bind_eq_bind]
  cases (nl.bin srcBin).fo2Nodes fo with
  | none => rfl
  | some candiSrcs =>
      simp only [Option.bind_some]
      by_cases hempty : candiSrcs = []
      · simp [hempty]
      simp only [if_neg hempty]
      cases nl.fanoutGain fo (fo + 1) with
      | none => rfl
      | some foG =>
          simp only [Option.bind_some]
          cases nl.localMaxSrc sinkBin ((c.srcs srcBin sinkBin fo).val candiSrcs) with
          | none => rfl
          | some localMax =>
              cases localMax with
              | none => rfl
              | some best =>
                  apply Loop.foldlM_eq_collect
                  intro fi _ maxG
                  unfold pairAt
                  cases (nl.bin sinkBin).fi2Nodes fi with
                  | none => rfl
                  | some candiSinks =>
                      by_cases hempty' : candiSinks = []
                      · simp [hempty']
                      simp only [Option.bind_eq_bind, Option.bind_some, if_neg hempty']
                      cases nl.faninGain fi (fi + 1) with
                      | none => rfl
                      | some fiG =>
                          simp only [Option.bind_some]
                          cases nl.lastSink addr srcBin sinkBin best.2
                            ((c.sinks srcBin sinkBin fo fi).val candiSinks) with
                          | none => simp
                          | some sink => simp [Loop.keepMax]; split <;> rfl

end Netlist

namespace Matching

/-- A turn connects the first of the best candidates. -/
theorem maxGain_eq (s : Matching) (c : Turn) (edgeLength : ℕ) :
    s.maxGain addr c edgeLength =
      (s.candidates addr c edgeLength).map (List.argmax Gain.value) := by
  have hfold : s.maxGain addr c edgeLength = (s.candidates addr c edgeLength).map
      fun l => l.foldl (Loop.keepMax Gain.value) none := by
    unfold maxGain
    rw [candidates]
    apply Loop.foldlM_eq_collect
    intro srcBin _ maxG
    unfold candidatesAt
    cases s.netlist.getSinkBins srcBin edgeLength with
    | none => rfl
    | some sinkBins =>
        apply Loop.foldlM_eq_collect
        intro sinkBin _ maxG
        rw [Netlist.getMaxGain_eq]
        cases s.netlist.pairs addr c srcBin sinkBin with
        | none => rfl
        | some l => simp [Gain.larger_foldl]
  simp only [hfold, Loop.foldl_keepMax]

end Matching

/-! ## The parts of a turn on a consistent netlist -/

theorem Distribution.deltaErr_isDefined {d : Distribution} {x1 x2 : ℕ}
    (h1 : x1 < d.info.length) (h2 : x2 < d.info.length) : ∃ g, d.deltaErr x1 x2 = some g := by
  obtain ⟨d1, hd1⟩ := Distribution.delta_isDefined h1
  obtain ⟨d2, hd2⟩ := Distribution.delta_isDefined h2
  simp [deltaErr, hd1, hd2]

namespace Netlist

variable {nl : Netlist}

theorem Tallied.faninGain_isDefined (h : nl.Tallied) {fi : ℕ} (hfi : fi < nl.fiDist.xMax.toNat) :
    ∃ g, nl.faninGain fi (fi + 1) = some g := by
  have hlen := h.fiLength
  have h1 : fi < nl.fiDist.info.length := by omega
  have h2 : fi + 1 < nl.fiDist.info.length := by omega
  obtain ⟨g, hg⟩ := Distribution.deltaErr_isDefined h1 h2
  simp [faninGain, hg]

theorem Tallied.fanoutGain_isDefined (h : nl.Tallied) {fo : ℕ} (hfo : fo < nl.foDist.xMax.toNat) :
    ∃ g, nl.fanoutGain fo (fo + 1) = some g := by
  have hlen := h.foLength
  have h1 : fo < nl.foDist.info.length := by omega
  have h2 : fo + 1 < nl.foDist.info.length := by omega
  obtain ⟨g, hg⟩ := Distribution.deltaErr_isDefined h1 h2
  simp [fanoutGain, hg]

theorem Consistent.localBboxG_isDefined (hc : nl.Consistent) (hw : Wired addr nl) {src : NodeId}
    (hsrc : src < nl.size) {sinkBin : BinId} (hb : sinkBin < nl.numBins) :
    ∃ g, nl.localBboxG src sinkBin = some g := by
  have hbox := hc.boxed src hsrc
  obtain ⟨hux, huy⟩ := hbox.inGrid hc.placed hsrc fun w hmem => hw.sinks_lt hmem
  have hx := hc.placed.x_lt hb
  have hy := hc.placed.y_lt hb
  simp only [localBboxG]
  split
  · refine Distribution.deltaErr_isDefined ?_ ?_
    · rw [hc.tallied.bboxLength, Node.bboxSize]
      omega
    · rw [hc.tallied.bboxLength]
      omega
  · exact ⟨0, rfl⟩

/-- The class lists hold the nodes of the bin with that many sources. -/
theorem Consistent.fi2Nodes (hc : nl.Consistent) {b : BinId} (hb : b < nl.numBins) {fi : ℕ}
    (hfi : fi < (nl.fiDist.xMax + 1).toNat) :
    ∃ l, (nl.bin b).fi2Nodes fi = some l ∧ l.Nodup ∧
      ∀ v, v ∈ l ↔ v < nl.size ∧ nl.binOf v = b ∧ nl.numFanins v = fi := by
  obtain ⟨l, hl, hnodup, hmem⟩ := hc.indexed.fi.slot hb hfi
  refine ⟨l, hl, hnodup, fun v => ?_⟩
  rw [hmem, (hc.placed.members b hb).2, and_assoc]

theorem Consistent.fo2Nodes (hc : nl.Consistent) {b : BinId} (hb : b < nl.numBins) {fo : ℕ}
    (hfo : fo < (nl.foDist.xMax + 1).toNat) :
    ∃ l, (nl.bin b).fo2Nodes fo = some l ∧ l.Nodup ∧
      ∀ v, v ∈ l ↔ v < nl.size ∧ nl.binOf v = b ∧ nl.numFanouts v = fo := by
  obtain ⟨l, hl, hnodup, hmem⟩ := hc.indexed.fo.slot hb hfo
  refine ⟨l, hl, hnodup, fun v => ?_⟩
  rw [hmem, (hc.placed.members b hb).2, and_assoc]

/-- The bin `b'` lies at distance `edgeLength` of `b`, to the right and above. -/
def At (nl : Netlist) (edgeLength : ℕ) (b b' : BinId) : Prop :=
  b' < nl.numBins ∧ ∃ dx dy, dx + dy = edgeLength ∧
    (nl.bin b').x = (nl.bin b).x + dx ∧ (nl.bin b').y = (nl.bin b).y + dy

/-- The bin at offset `dx`, when there is one. -/
def sinkBinAt (nl : Netlist) (srcBin : BinId) (edgeLength dx : ℕ) : Option (List BinId) :=
  let x := (nl.bin srcBin).x + dx
  let y := (nl.bin srcBin).y + (edgeLength - dx)
  if x ≥ nl.layoutDimX ∨ y ≥ nl.layoutDimY then some []
  else (nl.getBin x y).map fun sinkBin => [sinkBin]

theorem getSinkBins_eq (nl : Netlist) (srcBin : BinId) (edgeLength : ℕ) :
    nl.getSinkBins srcBin edgeLength =
      Loop.collect (nl.sinkBinAt srcBin edgeLength) (List.range (edgeLength + 1)) := by
  have happend : ∀ (l acc : List BinId), l.foldl (fun acc b => acc ++ [b]) acc = acc ++ l := by
    intro l
    induction l with
    | nil => simp
    | cons b l ih => intro acc; simp [ih]
  rw [getSinkBins, Loop.foldlM_eq_collect (f := nl.sinkBinAt srcBin edgeLength)
    (g := fun acc b => acc ++ [b])]
  · simp [happend]
  · intro dx _ acc
    simp only [sinkBinAt]
    split
    · rfl
    · cases nl.getBin ((nl.bin srcBin).x + dx) ((nl.bin srcBin).y + (edgeLength - dx)) <;> simp

theorem Placed.getSinkBins (hp : nl.Placed) (srcBin : BinId) (edgeLength : ℕ) :
    ∃ l, nl.getSinkBins srcBin edgeLength = some l ∧
      ∀ b, b ∈ l ↔ nl.At edgeLength srcBin b := by
  have hdef : ∀ dx ∈ List.range (edgeLength + 1),
      ∃ l, nl.sinkBinAt srcBin edgeLength dx = some l := by
    intro dx _
    simp only [sinkBinAt]
    split
    · exact ⟨[], rfl⟩
    · next hin =>
        obtain ⟨hx, hy⟩ := not_or.mp hin
        rw [(hp.getBin (Nat.lt_of_not_le hx) (Nat.lt_of_not_le hy)).1]
        exact ⟨_, rfl⟩
  obtain ⟨l, hl⟩ := Loop.collect_isDefined hdef
  refine ⟨l, by rw [getSinkBins_eq, hl], fun b => ?_⟩
  rw [Loop.mem_collect hl]
  constructor
  · rintro ⟨dx, hdx, c, hc, hb⟩
    simp only [sinkBinAt] at hc
    split at hc
    · simp only [Option.some.injEq] at hc
      rw [← hc] at hb
      cases hb
    · obtain ⟨b', hb', rfl⟩ := Option.map_eq_some_iff.mp hc
      obtain rfl := List.mem_singleton.mp hb
      obtain ⟨hlt, hx, hy⟩ := getBin_eq_some hb'
      have hdx' := List.mem_range.mp hdx
      exact ⟨hlt, dx, edgeLength - dx, by omega, hx, hy⟩
  · rintro ⟨hb, dx, dy, hsum, hx, hy⟩
    have hxlt := hp.x_lt hb
    have hylt := hp.y_lt hb
    rw [hx] at hxlt
    rw [hy] at hylt
    obtain ⟨hget, hlt, hx', hy'⟩ := hp.getBin hxlt hylt
    have hsame : (nl.bin srcBin).x + dx + ((nl.bin srcBin).y + dy) * nl.layoutDimX = b := by
      rw [← hx, ← hy, hp.index hb]
    rw [hsame] at hget
    have hdy : edgeLength - dx = dy := by omega
    refine ⟨dx, List.mem_range.mpr (by omega), [b], ?_, List.mem_singleton.mpr rfl⟩
    simp only [sinkBinAt, hdy]
    rw [if_neg (by omega), hget]
    rfl

/-- What one candidate source contributes to the choice of the source. -/
def srcGain (nl : Netlist) (sinkBin : BinId) (candiSrc : NodeId) : Option (List (ℤ × NodeId)) :=
  if nl.type candiSrc = .primaryOut then some []
  else (nl.localBboxG candiSrc sinkBin).map fun g => [(g, candiSrc)]

theorem localMaxSrc_eq (nl : Netlist) (sinkBin : BinId) (l : List NodeId) :
    nl.localMaxSrc sinkBin l =
      (Loop.collect (nl.srcGain sinkBin) l).map (List.argmax Prod.fst) := by
  rw [localMaxSrc, Loop.foldlM_eq_collect (f := nl.srcGain sinkBin)
    (g := Loop.keepMax Prod.fst)]
  · simp only [Loop.foldl_keepMax]
  · intro src _ best
    simp only [srcGain]
    split
    · rfl
    · cases nl.localBboxG src sinkBin <;> rfl

theorem srcGain_isDefined (hc : nl.Consistent) (hw : Wired addr nl) {sinkBin : BinId}
    (hb : sinkBin < nl.numBins) {src : NodeId} (hsrc : src < nl.size) :
    ∃ c, nl.srcGain sinkBin src = some c := by
  simp only [srcGain]
  split
  · exact ⟨[], rfl⟩
  · obtain ⟨g, hg⟩ := hc.localBboxG_isDefined hw hsrc hb
    exact ⟨_, by rw [hg]; rfl⟩

theorem mem_srcGain {sinkBin : BinId} {src : NodeId} {c : List (ℤ × NodeId)}
    (h : nl.srcGain sinkBin src = some c) (p : ℤ × NodeId) :
    p ∈ c ↔ p.2 = src ∧ nl.type src ≠ .primaryOut ∧ nl.localBboxG src sinkBin = some p.1 := by
  simp only [srcGain] at h
  split at h
  · next htype =>
      simp only [Option.some.injEq] at h
      simp [← h, htype]
  · next htype =>
      obtain ⟨g, hg, rfl⟩ := Option.map_eq_some_iff.mp h
      obtain ⟨g', src'⟩ := p
      simp only [List.mem_singleton, Prod.mk.injEq, hg, Option.some.injEq, ne_eq, htype,
        not_false_eq_true, true_and]
      rw [and_comm, eq_comm (a := g)]

/-- No other source of the same class gains more by reaching the bin. -/
def Foremost (nl : Netlist) (src : NodeId) (sinkBin : BinId) : Prop :=
  ∀ src' < nl.size, nl.binOf src' = nl.binOf src → nl.numFanouts src' = nl.numFanouts src →
    nl.type src' ≠ .primaryOut → ∀ g g', nl.localBboxG src sinkBin = some g →
      nl.localBboxG src' sinkBin = some g' → g' ≤ g

/-- The source chosen from a class list. -/
theorem localMaxSrc_spec (hc : nl.Consistent) (hw : Wired addr nl) {sinkBin : BinId}
    (hb : sinkBin < nl.numBins) {l : List NodeId} (hl : ∀ src ∈ l, src < nl.size) :
    ∃ best, nl.localMaxSrc sinkBin l = some best ∧ ∀ g src, best = some (g, src) →
      src ∈ l ∧ nl.type src ≠ .primaryOut ∧ nl.localBboxG src sinkBin = some g ∧
        ∀ src' ∈ l, nl.type src' ≠ .primaryOut →
          ∀ g', nl.localBboxG src' sinkBin = some g' → g' ≤ g := by
  obtain ⟨cs, hcs⟩ := Loop.collect_isDefined fun src hsrc =>
    srcGain_isDefined hc hw hb (hl src hsrc)
  refine ⟨cs.argmax Prod.fst, by rw [localMaxSrc_eq, hcs]; rfl, fun g src hbest => ?_⟩
  obtain ⟨hmem, hmax, -⟩ := List.argmax_eq_some_iff.mp hbest
  obtain ⟨src1, hsrc1, c, hc1, hin⟩ := (Loop.mem_collect hcs _).mp hmem
  obtain ⟨heq, htype, hg⟩ := (mem_srcGain hc1 _).mp hin
  dsimp only at heq hg
  subst heq
  refine ⟨hsrc1, htype, hg, fun src' hsrc' htype' g' hg' => ?_⟩
  obtain ⟨c', hc'⟩ := srcGain_isDefined hc hw hb (hl src' hsrc')
  have hin' : (g', src') ∈ c' := (mem_srcGain hc' _).mpr ⟨rfl, htype', hg'⟩
  exact hmax _ ((Loop.mem_collect hcs _).mpr ⟨src', hsrc', c', hc', hin'⟩)

theorem mayConnect_iff (nl : Netlist) (srcBin sinkBin : BinId) (src snk : NodeId) :
    nl.mayConnect addr srcBin sinkBin src snk = true ↔
      nl.type snk ≠ .primaryIn ∧ (nl.type snk = .primaryOut → nl.sources snk = []) ∧
        (nl.type snk ≠ .primaryOut → srcBin = sinkBin → addr src < addr snk) ∧
          (nl.type snk ≠ .primaryOut → snk ∉ nl.sinks src) := by
  have hport : (!decide ((nl.node snk).numFanins ≥ 1)) = true ↔ nl.sources snk = [] := by
    rw [Bool.not_eq_true', decide_eq_false_iff_not, ← List.length_eq_zero_iff]
    change ¬ (nl.sources snk).length ≥ 1 ↔ _
    omega
  have hother : ((!decide (srcBin = sinkBin ∧ addr snk ≤ addr src)) &&
      !(nl.node src).hasConnection snk) = true ↔
        (srcBin = sinkBin → addr src < addr snk) ∧ snk ∉ nl.sinks src := by
    rw [Bool.and_eq_true, Bool.not_eq_true', Bool.not_eq_true', decide_eq_false_iff_not, not_and,
      Nat.not_le, Node.hasConnection, ← Bool.not_eq_true, List.contains_iff_mem]
    rfl
  cases htype : nl.type snk <;> simp only [mayConnect, htype, hport, hother] <;> simp

theorem lastSink_eq_some {srcBin sinkBin : BinId} {src snk : NodeId} {l : List NodeId}
    (h : nl.lastSink addr srcBin sinkBin src l = some snk) :
    snk ∈ l ∧ nl.mayConnect addr srcBin sinkBin src snk = true :=
  List.mem_filter.mp (List.mem_of_getLast? h)

theorem lastSink_isSome {srcBin sinkBin : BinId} {src snk : NodeId} {l : List NodeId}
    (hmem : snk ∈ l) (hsnk : nl.mayConnect addr srcBin sinkBin src snk = true) :
    ∃ snk', nl.lastSink addr srcBin sinkBin src l = some snk' := by
  rw [← Option.isSome_iff_exists, lastSink, List.getLast?_isSome]
  exact List.ne_nil_of_mem (List.mem_filter.mpr ⟨hmem, hsnk⟩)

/-- The sinks the innermost loop may end up with. -/
theorem pairAt_spec (addr : NodeId ↪ ℕ) (hc : nl.Consistent) (c : Turn) (srcBin : BinId) {sinkBin : BinId}
    (hb : sinkBin < nl.numBins) (fo : ℕ) (foG bboxG : ℤ) (src : NodeId) {fi : ℕ}
    (hfi : fi < nl.fiDist.xMax.toNat) :
    ∃ l, nl.pairAt addr c srcBin sinkBin fo foG bboxG src fi = some l ∧
      (∀ g ∈ l, g.n1 = src ∧ g.n2 < nl.size ∧ nl.binOf g.n2 = sinkBin ∧
        nl.numFanins g.n2 = fi ∧ nl.mayConnect addr srcBin sinkBin src g.n2 = true) ∧
      ∀ snk < nl.size, nl.binOf snk = sinkBin → nl.numFanins snk = fi →
        nl.mayConnect addr srcBin sinkBin src snk = true → l ≠ [] := by
  have hfi' : fi < (nl.fiDist.xMax + 1).toNat := by omega
  obtain ⟨candiSinks, hcandi, -, hmem⟩ := hc.fi2Nodes hb hfi'
  obtain ⟨fiG, hfiG⟩ := hc.tallied.faninGain_isDefined hfi
  by_cases hempty : candiSinks = []
  · refine ⟨[], by simp [pairAt, hcandi, hempty], by simp, fun snk hlt hbin hfanin => ?_⟩
    have hin := (hmem snk).mpr ⟨hlt, hbin, hfanin⟩
    rw [hempty] at hin
    cases hin
  · refine ⟨_, by simp [pairAt, hcandi, hempty, hfiG]; rfl, fun g hg => ?_,
      fun snk hlt hbin hfanin hmay => ?_⟩
    · obtain ⟨snk, hsnk, rfl⟩ := Option.map_eq_some_iff.mp (Option.mem_toList.mp hg)
      obtain ⟨hin, hmay⟩ := lastSink_eq_some hsnk
      obtain ⟨hlt, hbin, hfanin⟩ :=
        (hmem snk).mp (((c.sinks srcBin sinkBin fo fi).2 candiSinks).mem_iff.mp hin)
      exact ⟨rfl, hlt, hbin, hfanin, hmay⟩
    · have hin : snk ∈ (c.sinks srcBin sinkBin fo fi).val candiSinks :=
        ((c.sinks srcBin sinkBin fo fi).2 candiSinks).mem_iff.mpr
          ((hmem snk).mpr ⟨hlt, hbin, hfanin⟩)
      obtain ⟨snk', hsnk'⟩ := lastSink_isSome hin hmay
      simp [hsnk']

/-- The pairs that have a source in one fan-out class. -/
theorem pairsAt_spec (hc : nl.Consistent) (hw : Wired addr nl) (c : Turn)
    {srcBin sinkBin : BinId} (hb : srcBin < nl.numBins) (hb' : sinkBin < nl.numBins) {fo : ℕ}
    (hfo : fo < nl.foDist.xMax.toNat) :
    ∃ l, nl.pairsAt addr c srcBin sinkBin fo = some l ∧
      ∀ g ∈ l, (g.n1 < nl.size ∧ nl.binOf g.n1 = srcBin ∧ nl.numFanouts g.n1 = fo ∧
          nl.type g.n1 ≠ .primaryOut ∧ nl.Foremost g.n1 sinkBin) ∧
        g.n2 < nl.size ∧ nl.binOf g.n2 = sinkBin ∧ nl.numFanins g.n2 < nl.fiDist.xMax.toNat ∧
          nl.mayConnect addr srcBin sinkBin g.n1 g.n2 = true := by
  have hfo' : fo < (nl.foDist.xMax + 1).toNat := by omega
  obtain ⟨candiSrcs, hcandi, -, hmem⟩ := hc.fo2Nodes hb hfo'
  obtain ⟨foG, hfoG⟩ := hc.tallied.fanoutGain_isDefined hfo
  by_cases hempty : candiSrcs = []
  · exact ⟨[], by simp [pairsAt, hcandi, hempty], by simp⟩
  have hperm := (c.srcs srcBin sinkBin fo).2 candiSrcs
  obtain ⟨best, hbest, hspec⟩ := localMaxSrc_spec hc hw hb'
    (l := (c.srcs srcBin sinkBin fo).val candiSrcs)
    fun src hsrc => ((hmem src).mp (hperm.mem_iff.mp hsrc)).1
  cases best with
  | none => exact ⟨[], by simp [pairsAt, hcandi, hempty, hfoG, hbest], by simp⟩
  | some best =>
      obtain ⟨bboxG, src⟩ := best
      obtain ⟨hsrc, htype, hg, hmax⟩ := hspec bboxG src rfl
      obtain ⟨hlt, hbin, hfanout⟩ := (hmem src).mp (hperm.mem_iff.mp hsrc)
      have hforemost : nl.Foremost src sinkBin := by
        intro src' hlt' hbin' hfanout' htype' g g' hg1 hg'
        rw [hg, Option.some.injEq] at hg1
        refine hg1 ▸ hmax src' (hperm.mem_iff.mpr ?_) htype' g' hg'
        exact (hmem src').mpr ⟨hlt', hbin'.trans hbin, hfanout'.trans hfanout⟩
      obtain ⟨l, hl⟩ := Loop.collect_isDefined (l := List.range nl.fiDist.xMax.toNat)
        fun fi hfi => (pairAt_spec addr hc c srcBin hb' fo foG bboxG src
          (List.mem_range.mp hfi)).imp fun _ h => h.1
      refine ⟨l, by simp [pairsAt, hcandi, hempty, hfoG, hbest, hl], fun g hgl => ?_⟩
      obtain ⟨fi, hfi, l', hl', hin⟩ := (Loop.mem_collect hl g).mp hgl
      obtain ⟨l'', hl'', hspec', -⟩ := pairAt_spec addr hc c srcBin hb' fo foG bboxG src
        (List.mem_range.mp hfi)
      obtain rfl : l' = l'' := Option.some.inj (hl'.symm.trans hl'')
      obtain ⟨heq, hlt2, hbin2, hfanin2, hmay⟩ := hspec' g hin
      rw [heq]
      exact ⟨⟨hlt, hbin, hfanout, htype, hforemost⟩, hlt2, hbin2,
        hfanin2 ▸ List.mem_range.mp hfi, hmay⟩

/-- A pair that `getMaxGain` can return. -/
structure Eligible (addr : NodeId ↪ ℕ) (nl : Netlist) (src snk : NodeId) : Prop where
  joinable : Joinable addr nl src snk
  foremost : nl.Foremost src (nl.binOf snk)

/-- The pairs of two bins, the second to the right and above. -/
theorem pairs_spec (hc : nl.Consistent) (hw : Wired addr nl) (c : Turn)
    {srcBin sinkBin : BinId} (hb : srcBin < nl.numBins) {edgeLength : ℕ}
    (hat : nl.At edgeLength srcBin sinkBin) :
    ∃ l, nl.pairs addr c srcBin sinkBin = some l ∧
      ∀ g ∈ l, Eligible addr nl g.n1 g.n2 ∧ nl.binOf g.n1 = srcBin ∧
        nl.binOf g.n2 = sinkBin := by
  obtain ⟨hb', dx, dy, -, hx, hy⟩ := hat
  obtain ⟨l, hl⟩ := Loop.collect_isDefined fun fo hfo =>
    (pairsAt_spec hc hw c hb hb' (List.mem_range.mp hfo)).imp fun _ h => h.1
  refine ⟨l, hl, fun g hgl => ?_⟩
  obtain ⟨fo, hfo, l', hl', hin⟩ := (Loop.mem_collect hl g).mp hgl
  obtain ⟨l'', hl'', hspec⟩ := pairsAt_spec hc hw c hb hb' (List.mem_range.mp hfo)
  obtain rfl : l' = l'' := Option.some.inj (hl'.symm.trans hl'')
  obtain ⟨⟨hlt, hbin, hfanout, htype, hforemost⟩, hlt2, hbin2, hfanin, hmay⟩ := hspec g hin
  obtain ⟨hin2, hport, horder, hnew⟩ := (mayConnect_iff nl _ _ _ _).mp hmay
  have hfo' := List.mem_range.mp hfo
  refine ⟨⟨⟨hlt, hlt2, htype, hin2, by omega, by omega, ?_, ?_, hport, fun hne hsame => ?_,
    hnew⟩, hbin2 ▸ hforemost⟩, hbin, hbin2⟩
  · rw [Netlist.x, Netlist.x, hbin, hbin2, hx]
    exact Nat.le_add_right _ _
  · rw [Netlist.y, Netlist.y, hbin, hbin2, hy]
    exact Nat.le_add_right _ _
  · exact horder hne (hbin.symm.trans (hsame.trans hbin2))

end Netlist

/-- The outcome that puts one element first. -/
def Shuffle.toFront (v : ℕ) : Shuffle :=
  ⟨fun l => if v ∈ l then v :: l.erase v else l, fun l => by
    dsimp only
    split
    · next hv => exact (List.perm_cons_erase hv).symm
    · exact .refl l⟩

/-- The outcome that puts one element last. -/
def Shuffle.toBack (v : ℕ) : Shuffle :=
  ⟨fun l => if v ∈ l then l.erase v ++ [v] else l, fun l => by
    dsimp only
    split
    · next hv =>
        exact (List.perm_append_singleton v (l.erase v)).trans (List.perm_cons_erase hv).symm
    · exact .refl l⟩

/-- The outcome that changes nothing. -/
def Shuffle.same : Shuffle := ⟨id, fun _ => .refl _⟩

/-- The outcomes that put the source `v` first and change no other order. -/
def Turn.favouring (v : NodeId) (rand : ℕ) : Turn where
  rand
  srcBins := .same
  sinkBins _ := .same
  srcs _ _ _ := .toFront v
  sinks _ _ _ _ := .same

/-- The outcomes that are best for the pair. -/
def Turn.joining (rand : ℕ) (srcBin sinkBin : BinId) (src snk : NodeId) : Turn where
  rand
  srcBins := .toFront srcBin
  sinkBins _ := .toFront sinkBin
  srcs _ _ _ := .toFront src
  sinks _ _ _ _ := .toBack snk

namespace Netlist

variable {nl : Netlist}

end Netlist

end Artnetgen
