import ArtNetGen.SpecFile
import ArtNetGen.TechMapping
import ArtNetGen.Library.Apportion

/-!
`ArtNetGen::createSpec`, which deals the instances and edges out to the buckets
of made-up distributions, and what `readSpec` and `Netlist::initialize` find in
its file. The search for the parameter of a distribution is left out: the
weights at which it ends are inputs, as exact rationals.
-/

namespace Artnetgen

structure SpecWeights where
  fanin : ℕ → ℚ
  fanout : ℕ → ℚ
  bbox : ℕ → ℚ
  edgelen : ℕ → ℚ

/-- The arguments of `createSpec`; `onlyUse` holds the lines of the list file. -/
structure SpecRequest where
  numInsts : ℕ
  numIOs : ℤ
  combRatio : ℚ
  avgNetDeg : ℚ
  avgBbox : ℚ
  avgTopoOrder : ℚ
  onlyUse : List (String × ℤ)

/-- `curAvgVal`: the mean value of buckets that count from `minVal`. -/
def curAvgVal (weights : List ℚ) (minVal : ℕ) : ℚ :=
  ((weights.zipIdx minVal).map fun (weight, x) => x * (weight / weights.sum)).sum

/-- The search ends when the mean is close enough to `avgVal`. Each bucket gets
its share of `nrolls`, rounded up and cut down to what is left. -/
def makeSamples (tolerance : ℚ) (weights : List ℚ) (minVal : ℕ) (avgVal : ℚ) (nrolls : ℤ) :
    Option (ℕ → ℤ) :=
  if |curAvgVal weights minVal - avgVal| < tolerance then
    let counts := Apportion.deal nrolls 0 (weights.map fun weight => weight / weights.sum * nrolls)
    some fun x => if minVal ≤ x then counts.getD (x - minVal) 0 else 0
  else none

/-- Buckets `minVal..maxVal`. -/
def makeFoissonDistribution (weight : ℕ → ℚ) (minVal maxVal : ℕ) (avgVal : ℚ) (nrolls : ℤ) :
    Option (ℕ → ℤ) :=
  makeSamples (3 / 100) ((List.range (maxVal + 1 - minVal)).map weight) minVal avgVal nrolls

/-- Buckets `minVal..maxVal - 1`. -/
def makeExpDistribution (weight : ℕ → ℚ) (minVal maxVal : ℕ) (avgVal : ℚ) (nrolls : ℤ) :
    Option (ℕ → ℤ) :=
  makeSamples (5 / 100) ((List.range (maxVal - minVal)).map weight) minVal avgVal nrolls

def SpecRequest.numEdges (r : SpecRequest) : ℤ := ⌈(r.numInsts : ℚ) * r.avgNetDeg⌉

/-- The lines for the cells of the list file that the libraries have, a later
line overriding an earlier one. -/
def SpecRequest.onlyUseLines (r : SpecRequest) (ang : ArtNetGen) (order : Iteration String) :
    List SpecLine :=
  let found := r.onlyUse.filter fun line => (ang.findMaster line.1).isSome
  let counts : String → ℤ := found.foldl (fun counts line =>
    Function.update counts line.1 line.2) fun _ => 0
  (order.1 (found.map Prod.fst).dedup).map fun name => .onlyUse name (counts name / r.numInsts)

/-- The lines of the file. -/
def SpecRequest.lines (r : SpecRequest) (ang : ArtNetGen) (order : Iteration String)
    (avgGateDelay : ℚ)
    (faninDistribution fanoutDistribution bboxDistribution edgelenDistribution : ℕ → ℤ) :
    List SpecLine :=
  [.cellCount r.numInsts, .combRatio r.combRatio, .ipadCount (r.numIOs.tdiv 2),
      .opadCount (r.numIOs.tdiv 2), .other, .other, .other, .other,
      .avgTopoOrder r.avgTopoOrder, .avgGateDelay avgGateDelay] ++
    r.onlyUseLines ang order ++
    histogramLines .fanin faninDistribution ang.specMaxFanins r.numInsts ++
    histogramLines .fanout fanoutDistribution specMaxFanouts r.numInsts ++
    histogramLines .netbbox bboxDistribution (specMaxBbox r.numInsts) r.numInsts ++
    histogramLines .window edgelenDistribution (specMaxBbox r.numInsts) r.numEdges

/-- `ArtNetGen::createSpec`. -/
def ArtNetGen.createSpec (ang : ArtNetGen) (r : SpecRequest) (weights : SpecWeights)
    (order : Iteration String) (avgGateDelay : ℚ) : Option (List SpecLine) := do
  let maxBbox := specMaxBbox r.numInsts
  let faninDistribution ←
    makeFoissonDistribution weights.fanin 1 ang.specMaxFanins r.avgNetDeg r.numInsts
  let fanoutDistribution ←
    makeExpDistribution weights.fanout 1 specMaxFanouts r.avgNetDeg r.numInsts
  let bboxDistribution ← makeExpDistribution weights.bbox 0 maxBbox r.avgBbox r.numInsts
  let edgelenDistribution ← makeExpDistribution weights.edgelen 0 maxBbox r.avgBbox r.numEdges
  return r.lines ang order avgGateDelay faninDistribution fanoutDistribution bboxDistribution
    edgelenDistribution

/-- The weights are what weights should be. -/
structure SpecWeights.Positive (w : SpecWeights) (maxFanins maxBbox : ℕ) : Prop where
  nonneg : ∀ x, 0 ≤ w.fanin x ∧ 0 ≤ w.fanout x ∧ 0 ≤ w.bbox x ∧ 0 ≤ w.edgelen x
  fanin : 0 < ((List.range maxFanins).map w.fanin).sum
  fanout : 0 < ((List.range (specMaxFanouts - 1)).map w.fanout).sum
  bbox : 0 < ((List.range maxBbox).map w.bbox).sum
  edgelen : 0 < ((List.range maxBbox).map w.edgelen).sum

/-! ## The grid -/

theorem growDim_near {dim : ℕ × ℕ} (h : dim.2 ≤ dim.1 ∧ dim.1 ≤ dim.2 + 1) :
    (growDim dim).2 ≤ (growDim dim).1 ∧ (growDim dim).1 ≤ (growDim dim).2 + 1 := by
  unfold growDim
  split <;> dsimp only <;> omega

/-- On a grid that is as near to a square as can be both loops take the same
turn. -/
theorem growLayout_eq (bins fuel : ℕ) {dim : ℕ × ℕ} (h : dim.2 ≤ dim.1 ∧ dim.1 ≤ dim.2 + 1) :
    growLayout bins fuel dim = growDims bins fuel dim := by
  induction fuel generalizing dim with
  | zero => rfl
  | succ fuel ih =>
      obtain ⟨x, y⟩ := dim
      have hturn : (if x > y then (x, y + 1) else (x + 1, y)) = growDim (x, y) := by
        unfold growDim
        dsimp only at h ⊢
        by_cases hxy : x = y
        · simp [hxy]
        · rw [if_neg hxy, if_pos (by omega)]
      unfold growLayout
      rw [growDims, hturn, ih (growDim_near h)]

/-- Growth stops at the first grid that is large enough. -/
theorem growDims_spec (bins fuel : ℕ) {dim : ℕ × ℕ} (hpos : 0 < dim.1 ∧ 0 < dim.2)
    (hfuel : bins ≤ dim.1 * dim.2 + fuel) :
    ∃ k, growDims bins fuel dim = growDim^[k] dim ∧
      bins ≤ (growDim^[k] dim).1 * (growDim^[k] dim).2 ∧
      ∀ j < k, (growDim^[j] dim).1 * (growDim^[j] dim).2 < bins := by
  induction fuel generalizing dim with
  | zero => exact ⟨0, rfl, hfuel, nofun⟩
  | succ fuel ih =>
      unfold growDims
      split
      · next hlt =>
          have hgrown : 0 < (growDim dim).1 ∧ 0 < (growDim dim).2 ∧
              dim.1 * dim.2 < (growDim dim).1 * (growDim dim).2 := by
            unfold growDim
            split
            · exact ⟨Nat.succ_pos _, hpos.2, Nat.mul_lt_mul_of_pos_right (Nat.lt_succ_self _) hpos.2⟩
            · exact ⟨hpos.1, Nat.succ_pos _, Nat.mul_lt_mul_of_pos_left (Nat.lt_succ_self _) hpos.1⟩
          obtain ⟨k, heq, henough, hbefore⟩ :=
            ih ⟨hgrown.1, hgrown.2.1⟩ (by have := hgrown.2.2; omega)
          refine ⟨k + 1, heq, henough, fun j hj => ?_⟩
          cases j with
          | zero => exact hlt
          | succ j => exact hbefore j (Nat.lt_of_succ_lt_succ hj)
      · next hge => exact ⟨0, rfl, Nat.not_lt.mp hge, nofun⟩

theorem iterate_growDim_near (k : ℕ) :
    (growDim^[k] (1, 1)).2 ≤ (growDim^[k] (1, 1)).1 ∧
      (growDim^[k] (1, 1)).1 ≤ (growDim^[k] (1, 1)).2 + 1 := by
  induction k with
  | zero => exact ⟨Nat.le_refl 1, Nat.le_succ 1⟩
  | succ k ih =>
      rw [Function.iterate_succ_apply']
      exact growDim_near ih

theorem specDims_spec (numInsts : ℕ) :
    ∃ k, specDims numInsts = growDim^[k] (1, 1) ∧
      ceilSqrt numInsts ≤ (specDims numInsts).1 * (specDims numInsts).2 ∧
      ∀ j < k, (growDim^[j] (1, 1)).1 * (growDim^[j] (1, 1)).2 < ceilSqrt numInsts := by
  obtain ⟨k, heq, henough, hbefore⟩ := @growDims_spec (ceilSqrt numInsts) (ceilSqrt numInsts)
    (1, 1) ⟨Nat.one_pos, Nat.one_pos⟩ (Nat.le_add_left _ _)
  refine ⟨k, heq, ?_, hbefore⟩
  rwa [specDims, heq]

namespace Netlist

/-- The grid is the one the loop ends with. -/
theorem initializeNetlist_layout {ang : ArtNetGen} {nl : Netlist}
    (h : initializeNetlist ang = some nl) :
    (nl.layoutDimX, nl.layoutDimY) =
      growLayout (ceilSqrt ang.instanceCnt.toNat) (ceilSqrt ang.instanceCnt.toNat) (1, 1) := by
  simp only [initializeNetlist] at h
  split at h
  · cases h
  simp only [Option.bind_eq_bind, Option.bind_eq_some_iff] at h
  obtain ⟨fiDist, -, foDist, -, bboxDist, -, avg, -, edgeDist, -, emptyBin, -, hplace⟩ := h
  refine Loop.invariant (fun nl => (nl.layoutDimX, nl.layoutDimY) =
    growLayout (ceilSqrt ang.instanceCnt.toNat) (ceilSqrt ang.instanceCnt.toNat) (1, 1))
    (fun i _ nl nl' hnl hblock => ?_) rfl hplace
  simp only [placeBlock, Option.bind_eq_bind, Option.bind_eq_some_iff] at hblock
  obtain ⟨b, -, hnodes⟩ := hblock
  refine Loop.invariant (fun nl' => (nl'.layoutDimX, nl'.layoutDimY) =
    growLayout (ceilSqrt ang.instanceCnt.toNat) (ceilSqrt ang.instanceCnt.toNat) (1, 1))
    (fun j _ mid mid' hmid hnode => ?_) hnl hnodes
  obtain ⟨fi, fo, -, -, rfl⟩ := placeNode_eq_some hnode
  exact hmid

end Netlist

/-! ## Totals -/

theorem sum_range_getD (counts : List ℤ) {n : ℕ} (h : counts.length ≤ n) :
    ((List.range n).map fun j => counts.getD j 0).sum = counts.sum := by
  induction counts generalizing n with
  | nil => simp
  | cons cnt rest ih =>
      obtain ⟨m, rfl⟩ := Nat.exists_eq_add_of_le' (Nat.le_trans (Nat.le_add_left 1 _) h)
      rw [List.range_succ_eq_map, List.map_cons, List.map_map, List.sum_cons, List.sum_cons,
        ← ih (Nat.le_of_succ_le_succ h)]
      rfl

/-- The printed buckets hold everything that was dealt out. -/
theorem makeSamples_sum {tolerance avgVal : ℚ} {weights : List ℚ} {minVal max : ℕ} {nrolls : ℤ}
    {samples : ℕ → ℤ} (h : makeSamples tolerance weights minVal avgVal nrolls = some samples)
    (hrolls : 0 ≤ nrolls) (hpos : ∀ w ∈ weights, 0 ≤ w) (hsum : 0 < weights.sum)
    (hmax : minVal + weights.length ≤ max + 1) :
    ((List.range (max + 1)).map samples).sum = nrolls := by
  simp only [makeSamples] at h
  split at h
  · obtain rfl := Option.some.inj h
    obtain ⟨rest, hrest⟩ := Nat.exists_eq_add_of_le (Nat.le_trans (Nat.le_add_right _ _) hmax)
    have hlow : ((List.range minVal).map fun x => if minVal ≤ x then
        (Apportion.deal nrolls 0 (weights.map fun w => w / weights.sum * nrolls)).getD
          (x - minVal) 0 else 0).sum = 0 := by
      apply List.sum_eq_zero
      intro value hvalue
      obtain ⟨x, hx, rfl⟩ := List.mem_map.mp hvalue
      exact if_neg (Nat.not_le.mpr (List.mem_range.mp hx))
    rw [hrest, List.range_add, List.map_append, List.sum_append, hlow, List.map_map, zero_add]
    have hdeal := Apportion.sum_deal_weights hrolls hpos hsum
    have hlength : (Apportion.deal nrolls 0
        (weights.map fun w => w / weights.sum * nrolls)).length ≤ rest := by
      rw [Apportion.length_deal, List.length_map]
      omega
    rw [← sum_range_getD _ hlength] at hdeal
    simpa [Function.comp_def] using hdeal
  · cases h

/-- No mean is below the first value. -/
theorem le_curAvgVal {weights : List ℚ} (hpos : ∀ w ∈ weights, 0 ≤ w) (hsum : 0 < weights.sum)
    (minVal : ℕ) : (minVal : ℚ) ≤ curAvgVal weights minVal := by
  have hshares : ∀ (l : List ℚ) (k : ℕ), minVal ≤ k → (∀ w ∈ l, 0 ≤ w) →
      minVal * (l.sum / weights.sum) ≤
        ((l.zipIdx k).map fun (weight, x) => x * (weight / weights.sum)).sum := by
    intro l
    induction l with
    | nil => simp
    | cons w rest ih =>
        intro k hk hl
        have hrest := ih (k + 1) (Nat.le_succ_of_le hk) fun w hw => hl w (List.mem_cons_of_mem _ hw)
        have hfirst : minVal * (w / weights.sum) ≤ k * (w / weights.sum) :=
          mul_le_mul_of_nonneg_right (Nat.cast_le.mpr hk)
            (div_nonneg (hl w List.mem_cons_self) hsum.le)
        rw [List.sum_cons, add_div, mul_add, List.zipIdx_cons, List.map_cons, List.sum_cons]
        exact add_le_add hfirst hrest
  have hall := hshares weights minVal (Nat.le_refl _) hpos
  rwa [div_self hsum.ne', mul_one] at hall

/-! ## The file -/

/-- The distributions of the file hold all instances and all edges, and there
are edges. -/
structure Dealt (r : SpecRequest) (ang : ArtNetGen) (fanin fanout bbox edgelen : ℕ → ℤ) :
    Prop where
  fanin : ((List.range (ang.specMaxFanins + 1)).map fanin).sum = r.numInsts
  fanout : ((List.range (specMaxFanouts + 1)).map fanout).sum = r.numInsts
  bbox : ((List.range (specMaxBbox r.numInsts + 1)).map bbox).sum = r.numInsts
  edgelen : ((List.range (specMaxBbox r.numInsts + 1)).map edgelen).sum = r.numEdges
  edges : 0 < r.numEdges

theorem ArtNetGen.createSpec_spec {ang : ArtNetGen} {r : SpecRequest} {weights : SpecWeights}
    {order : Iteration String} {avgGateDelay : ℚ} {file : List SpecLine} (hn : 1 ≤ r.numInsts)
    (hw : weights.Positive ang.specMaxFanins (specMaxBbox r.numInsts))
    (h : ang.createSpec r weights order avgGateDelay = some file) :
    ∃ fanin fanout bbox edgelen, file = r.lines ang order avgGateDelay fanin fanout bbox edgelen ∧
      Dealt r ang fanin fanout bbox edgelen := by
  simp only [createSpec, makeFoissonDistribution, makeExpDistribution, Option.bind_eq_bind,
    Option.bind_eq_some_iff, Option.pure_def, Option.some.injEq, Nat.add_sub_cancel,
    Nat.sub_zero] at h
  obtain ⟨fanin, hfanin, fanout, hfanout, bbox, hbbox, edgelen, hedgelen, rfl⟩ := h
  have hnonneg : ∀ (weight : ℕ → ℚ) (n : ℕ), (∀ x, 0 ≤ weight x) →
      ∀ w ∈ (List.range n).map weight, 0 ≤ w := fun weight n hpos w hmem => by
    obtain ⟨x, -, rfl⟩ := List.mem_map.mp hmem
    exact hpos x
  have hfaninPos := hnonneg _ ang.specMaxFanins fun x => (hw.nonneg x).1
  -- Every instance has a fan-in of at least 1, and so has the mean.
  have hedges : 0 < r.numEdges := by
    have hmean := le_curAvgVal hfaninPos hw.fanin 1
    have hclose : |curAvgVal ((List.range ang.specMaxFanins).map weights.fanin) 1 - r.avgNetDeg| <
        3 / 100 := by
      simp only [makeSamples] at hfanin
      split at hfanin
      · next hlt => exact hlt
      · cases hfanin
    have hdeg : 0 < r.avgNetDeg := by
      have hle := (abs_lt.mp hclose).2
      push_cast at hmean
      linarith
    have hinsts : (0 : ℚ) < r.numInsts := Nat.cast_pos.mpr hn
    exact Int.ceil_pos.mpr (mul_pos hinsts hdeg)
  have hinsts : (0 : ℤ) ≤ r.numInsts := Int.natCast_nonneg _
  refine ⟨fanin, fanout, bbox, edgelen, rfl, ?_, ?_, ?_, ?_, hedges⟩
  · apply makeSamples_sum hfanin hinsts hfaninPos hw.fanin
    rw [List.length_map, List.length_range, Nat.add_comm]
  · apply makeSamples_sum hfanout hinsts (hnonneg _ _ fun x => (hw.nonneg x).2.1) hw.fanout
    rw [List.length_map, List.length_range]
    decide
  · apply makeSamples_sum hbbox hinsts (hnonneg _ _ fun x => (hw.nonneg x).2.2.1) hw.bbox
    rw [List.length_map, List.length_range]
    omega
  · apply makeSamples_sum hedgelen hedges.le (hnonneg _ _ fun x => (hw.nonneg x).2.2.2) hw.edgelen
    rw [List.length_map, List.length_range]
    omega

/-! ## Reading it back -/

/-- The entries that `readSpec` collects from the lines of a histogram. -/
def histogramInfo (dist : ℕ → ℤ) (max : ℕ) (total : ℤ) : List DistributionInfo :=
  (List.range (max + 1)).map fun x => ⟨x, dist x, 0, dist x / total⟩

theorem filterMap_histogramInfo (infoOf : SpecLine → Option DistributionInfo)
    (mk : ℕ → ℤ → ℚ → SpecLine) (h : ∀ x cnt ratio, infoOf (mk x cnt ratio) = some ⟨x, cnt, 0, ratio⟩)
    (dist : ℕ → ℤ) (max : ℕ) (total : ℤ) :
    (histogramLines mk dist max total).filterMap infoOf = histogramInfo dist max total :=
  filterMap_histogramLines h dist max total

theorem length_pushRatio_histogramInfo (dist : ℕ → ℤ) (max : ℕ) (total : ℤ) :
    ((histogramInfo dist max total).foldl Distribution.pushRatio []).length = max + 1 := by
  unfold histogramInfo
  generalize max + 1 = n
  induction n with
  | zero => rfl
  | succ n ih =>
      rw [List.range_succ, List.map_append, List.foldl_append]
      simp [Distribution.pushRatio, ih]

theorem totalRatio_histogramInfo (dist : ℕ → ℤ) (max : ℕ) (total : ℤ) :
    totalRatio (histogramInfo dist max total) =
      (((List.range (max + 1)).map dist).sum : ℤ) / (total : ℚ) := by
  unfold totalRatio
  rw [histogramInfo, List.map_map]
  generalize List.range (max + 1) = values
  induction values with
  | nil => simp
  | cons x rest ih =>
      rw [List.map_cons, List.sum_cons, List.map_cons, List.sum_cons, ih]
      push_cast
      rw [add_div]
      rfl

/-- The table of a complete histogram is made without a read out of range. -/
theorem init_histogramInfo {dist : ℕ → ℤ} {max : ℕ} {total : ℤ}
    (hsum : ((List.range (max + 1)).map dist).sum = total) (hpos : 0 < total) (d : Distribution)
    (totalCnt : ℤ) :
    ∃ d', d.init 0 max totalCnt (histogramInfo dist max total) = some d' := by
  have hratio : totalRatio (histogramInfo dist max total) ≠ 0 := by
    rw [totalRatio_histogramInfo, hsum, div_self (Int.cast_ne_zero.mpr hpos.ne')]
    exact one_ne_zero
  apply (Distribution.init_isDefined_iff hratio d 0 totalCnt max).mpr
  rw [length_pushRatio_histogramInfo]
  exact Nat.lt_succ_self max

def SpecLine.faninInfo : SpecLine → Option DistributionInfo
  | .fanin value target ratio => some ⟨value, target, 0, ratio⟩
  | _ => none

def SpecLine.fanoutInfo : SpecLine → Option DistributionInfo
  | .fanout value target ratio => some ⟨value, target, 0, ratio⟩
  | _ => none

def SpecLine.netbboxInfo : SpecLine → Option DistributionInfo
  | .netbbox value target ratio => some ⟨value, target, 0, ratio⟩
  | _ => none

def SpecLine.windowInfo : SpecLine → Option DistributionInfo
  | .window value target ratio => some ⟨value, target, 0, ratio⟩
  | _ => none

/-- A list of `readSpec` collects the lines of its kind. -/
theorem specLines_lines (linesOf : SpecLines → List DistributionInfo)
    (infoOf : SpecLine → Option DistributionInfo)
    (hread : ∀ v line, linesOf (v.read line) = linesOf v ++ (infoOf line).toList)
    (hstart : linesOf {} = []) (file : List SpecLine) :
    linesOf (specLines file) = file.filterMap infoOf := by
  have hfold : ∀ v, linesOf (file.foldl SpecLines.read v) = linesOf v ++ file.filterMap infoOf := by
    induction file with
    | nil => simp
    | cons line rest ih =>
        intro v
        rw [List.foldl_cons, ih, hread, List.append_assoc, List.filterMap_cons]
        cases infoOf line <;> rfl
  unfold specLines
  rw [hfold, hstart, List.nil_append]

/-- The maximum that `readSpec` finds over a complete histogram. -/
theorem specLines_top (top : SpecLines → ℤ) (valueOf : SpecLine → Option ℕ)
    {infoOf : SpecLine → Option DistributionInfo}
    (htop : ∀ v line, top (v.read line) =
      match valueOf line with | some value => max (value : ℤ) (top v) | none => top v)
    (hstart : top {} = intMin) (hvalue : ∀ line, valueOf line = (infoOf line).map (·.value))
    {file : List SpecLine} {dist : ℕ → ℤ} {last : ℕ} {total : ℤ}
    (hfile : file.filterMap infoOf = histogramInfo dist last total) :
    top (specLines file) = last := by
  have hvalues : ∀ value, (∃ line ∈ file, valueOf line = some value) ↔ value ≤ last := by
    intro value
    have hmap : file.filterMap valueOf = List.range (last + 1) := by
      have heq := congrArg (List.map DistributionInfo.value) hfile
      rw [List.map_filterMap] at heq
      simpa [histogramInfo, Function.comp_def, ← hvalue] using heq
    rw [← List.mem_filterMap, hmap, List.mem_range, Nat.lt_succ_iff]
  have hlast : intMin < (last : ℤ) := by
    unfold intMin
    omega
  have hle : (last : ℤ) ≤ top (specLines file) := by
    obtain ⟨line, hline, hline'⟩ := (hvalues last).mpr (Nat.le_refl _)
    exact (le_top_iff htop hstart hlast file).mpr ⟨line, hline, last, hline', le_rfl⟩
  have hnot : ¬ (last : ℤ) + 1 ≤ top (specLines file) := by
    intro hmore
    obtain ⟨line, hline, value, hsome, hge⟩ :=
      (le_top_iff htop hstart (by omega) file).mp hmore
    have hbound := (hvalues value).mp ⟨line, hline, hsome⟩
    omega
  omega

namespace SpecRequest

variable {r : SpecRequest} {ang : ArtNetGen} {order : Iteration String} {avgGateDelay : ℚ}
  {fanin fanout bbox edgelen : ℕ → ℤ}

theorem mem_onlyUseLines {line : SpecLine} (h : line ∈ r.onlyUseLines ang order) :
    ∃ name ratio, line = .onlyUse name ratio ∧ (ang.findMaster name).isSome = true := by
  obtain ⟨name, hname, rfl⟩ := List.mem_map.mp h
  refine ⟨name, _, rfl, ?_⟩
  have hfound := List.mem_dedup.mp ((order.2 _).mem_iff.mp hname)
  obtain ⟨item, hitem, rfl⟩ := List.mem_map.mp hfound
  exact (List.mem_filter.mp hitem).2

/-- Only the histograms have lines of the four kinds. -/
theorem filterMap_lines {β : Type*} {f : SpecLine → Option β}
    (honly : ∀ name ratio, f (.onlyUse name ratio) = none)
    (hhead : [SpecLine.cellCount r.numInsts, .combRatio r.combRatio,
      .ipadCount (r.numIOs.tdiv 2), .opadCount (r.numIOs.tdiv 2), .other, .other, .other, .other,
      .avgTopoOrder r.avgTopoOrder, .avgGateDelay avgGateDelay].filterMap f = []) :
    (r.lines ang order avgGateDelay fanin fanout bbox edgelen).filterMap f =
      (histogramLines .fanin fanin ang.specMaxFanins r.numInsts).filterMap f ++
      (histogramLines .fanout fanout specMaxFanouts r.numInsts).filterMap f ++
      (histogramLines .netbbox bbox (specMaxBbox r.numInsts) r.numInsts).filterMap f ++
      (histogramLines .window edgelen (specMaxBbox r.numInsts) r.numEdges).filterMap f := by
  have hnone : (r.onlyUseLines ang order).filterMap f = [] := by
    apply List.filterMap_eq_nil_iff.mpr
    intro line hline
    obtain ⟨name, ratio, rfl, -⟩ := mem_onlyUseLines hline
    exact honly name ratio
  simp only [lines, List.filterMap_append, hhead, hnone, List.nil_append]

theorem filterMap_faninInfo :
    (r.lines ang order avgGateDelay fanin fanout bbox edgelen).filterMap SpecLine.faninInfo =
      histogramInfo fanin ang.specMaxFanins r.numInsts := by
  rw [filterMap_lines (fun _ _ => rfl) rfl, filterMap_histogramInfo SpecLine.faninInfo .fanin fun _ _ _ => rfl,
    filterMap_histogramLines_none fun _ _ _ => rfl, filterMap_histogramLines_none fun _ _ _ => rfl,
    filterMap_histogramLines_none fun _ _ _ => rfl, List.append_nil, List.append_nil,
    List.append_nil]

theorem filterMap_fanoutInfo :
    (r.lines ang order avgGateDelay fanin fanout bbox edgelen).filterMap SpecLine.fanoutInfo =
      histogramInfo fanout specMaxFanouts r.numInsts := by
  rw [filterMap_lines (fun _ _ => rfl) rfl, filterMap_histogramLines_none fun _ _ _ => rfl,
    filterMap_histogramInfo SpecLine.fanoutInfo .fanout fun _ _ _ => rfl, filterMap_histogramLines_none fun _ _ _ => rfl,
    filterMap_histogramLines_none fun _ _ _ => rfl, List.append_nil, List.append_nil,
    List.nil_append]

theorem filterMap_netbboxInfo :
    (r.lines ang order avgGateDelay fanin fanout bbox edgelen).filterMap SpecLine.netbboxInfo =
      histogramInfo bbox (specMaxBbox r.numInsts) r.numInsts := by
  rw [filterMap_lines (fun _ _ => rfl) rfl, filterMap_histogramLines_none fun _ _ _ => rfl,
    filterMap_histogramLines_none fun _ _ _ => rfl, filterMap_histogramInfo SpecLine.netbboxInfo .netbbox fun _ _ _ => rfl,
    filterMap_histogramLines_none fun _ _ _ => rfl, List.append_nil, List.nil_append,
    List.nil_append]

theorem filterMap_windowInfo :
    (r.lines ang order avgGateDelay fanin fanout bbox edgelen).filterMap SpecLine.windowInfo =
      histogramInfo edgelen (specMaxBbox r.numInsts) r.numEdges := by
  rw [filterMap_lines (fun _ _ => rfl) rfl, filterMap_histogramLines_none fun _ _ _ => rfl,
    filterMap_histogramLines_none fun _ _ _ => rfl, filterMap_histogramLines_none fun _ _ _ => rfl,
    filterMap_histogramInfo SpecLine.windowInfo .window fun _ _ _ => rfl, List.nil_append, List.nil_append, List.nil_append]

/-- What `readSpec` has in its local variables after the last line. -/
structure ReadOff (r : SpecRequest) (ang : ArtNetGen) (fanin fanout bbox edgelen : ℕ → ℤ)
    (v : SpecLines) : Prop where
  fanIns : v.fanIns = histogramInfo fanin ang.specMaxFanins r.numInsts
  fanOuts : v.fanOuts = histogramInfo fanout specMaxFanouts r.numInsts
  netBboxes : v.netBboxes = histogramInfo bbox (specMaxBbox r.numInsts) r.numInsts
  windows : v.windows = histogramInfo edgelen (specMaxBbox r.numInsts) r.numEdges
  maxFi : v.maxFi = ang.specMaxFanins
  maxFo : v.maxFo = specMaxFanouts
  maxBbox : v.maxBbox = specMaxBbox r.numInsts
  maxWindow : v.maxWindow = specMaxBbox r.numInsts

theorem readOff :
    ReadOff r ang fanin fanout bbox edgelen
      (specLines (r.lines ang order avgGateDelay fanin fanout bbox edgelen)) where
  fanIns := (specLines_lines SpecLines.fanIns SpecLine.faninInfo (fun v line => by
    cases line <;> simp [SpecLines.read, SpecLine.faninInfo]) rfl _).trans filterMap_faninInfo
  fanOuts := (specLines_lines SpecLines.fanOuts SpecLine.fanoutInfo (fun v line => by
    cases line <;> simp [SpecLines.read, SpecLine.fanoutInfo]) rfl _).trans filterMap_fanoutInfo
  netBboxes := (specLines_lines SpecLines.netBboxes SpecLine.netbboxInfo (fun v line => by
    cases line <;> simp [SpecLines.read, SpecLine.netbboxInfo]) rfl _).trans filterMap_netbboxInfo
  windows := (specLines_lines SpecLines.windows SpecLine.windowInfo (fun v line => by
    cases line <;> simp [SpecLines.read, SpecLine.windowInfo]) rfl _).trans filterMap_windowInfo
  maxFi := specLines_top SpecLines.maxFi SpecLine.faninValue (fun v line => by cases line <;> rfl)
    rfl (fun line => by cases line <;> rfl) filterMap_faninInfo
  maxFo := specLines_top SpecLines.maxFo SpecLine.fanoutValue (fun v line => by cases line <;> rfl)
    rfl (fun line => by cases line <;> rfl) filterMap_fanoutInfo
  maxBbox := specLines_top SpecLines.maxBbox SpecLine.netbboxValue
    (fun v line => by cases line <;> rfl) rfl (fun line => by cases line <;> rfl)
    filterMap_netbboxInfo
  maxWindow := specLines_top SpecLines.maxWindow SpecLine.windowValue
    (fun v line => by cases line <;> rfl) rfl (fun line => by cases line <;> rfl)
    filterMap_windowInfo

theorem totalOf_lines :
    totalOf SpecLine.faninTarget (r.lines ang order avgGateDelay fanin fanout bbox edgelen) =
      ((List.range (ang.specMaxFanins + 1)).map fanin).sum := by
  rw [totalOf, filterMap_lines (fun _ _ => rfl) rfl,
    @filterMap_histogramLines ℤ SpecLine.faninTarget .fanin (fun _ cnt _ => cnt) fun _ _ _ => rfl,
    filterMap_histogramLines_none fun _ _ _ => rfl, filterMap_histogramLines_none fun _ _ _ => rfl,
    filterMap_histogramLines_none fun _ _ _ => rfl, List.append_nil, List.append_nil,
    List.append_nil]

theorem onlyUse_found {name : String} {ratio : ℚ}
    (h : .onlyUse name ratio ∈ r.lines ang order avgGateDelay fanin fanout bbox edgelen) :
    (ang.findMaster name).isSome = true := by
  have hmem : .onlyUse name ratio ∈ r.onlyUseLines ang order := by
    simpa [lines, histogramLines] using h
  obtain ⟨name', ratio', heq, hsome⟩ := mem_onlyUseLines hmem
  cases heq
  exact hsome

end SpecRequest

/-- The object that has read the file. -/
structure ReadBack (numInsts : ℕ) (ang' : ArtNetGen) : Prop where
  instanceCnt : ang'.instanceCnt = numInsts
  layout : growLayout (ceilSqrt ang'.instanceCnt.toNat) (ceilSqrt ang'.instanceCnt.toNat) (1, 1) =
    specDims numInsts
  initialized : ∀ nl, Netlist.initializeNetlist ang' = some nl →
    (nl.layoutDimX, nl.layoutDimY) = specDims numInsts
  bboxes : ∀ totalCnt, ∃ d,
    Distribution.init {} 0 (specMaxBbox numInsts) totalCnt ang'.netBboxes = some d
  edges : ∀ totalCnt, ∃ d,
    Distribution.init {} 0 (specMaxBbox numInsts) totalCnt ang'.edges = some d

namespace SpecRequest

variable {r : SpecRequest} {ang : ArtNetGen} {order : Iteration String} {avgGateDelay : ℚ}
  {fanin fanout bbox edgelen : ℕ → ℤ}

theorem readBack (hn : 1 ≤ r.numInsts) (hdealt : Dealt r ang fanin fanout bbox edgelen)
    {reader ang' : ArtNetGen}
    (h : reader.readSpec (r.lines ang order avgGateDelay fanin fanout bbox edgelen) =
      some ang') : ReadBack r.numInsts ang' := by
  obtain ⟨hcnt, hbboxes, hedges⟩ := ArtNetGen.readSpec_members h
  rw [totalOf_lines, hdealt.fanin] at hcnt
  have hlayout : growLayout (ceilSqrt ang'.instanceCnt.toNat) (ceilSqrt ang'.instanceCnt.toNat)
      (1, 1) = specDims r.numInsts := by
    rw [hcnt, Int.toNat_natCast]
    exact growLayout_eq _ _ ⟨Nat.le_refl 1, Nat.le_succ 1⟩
  refine ⟨hcnt, hlayout, fun nl hnl => ?_, fun totalCnt => ?_, fun totalCnt => ?_⟩
  · rw [Netlist.initializeNetlist_layout hnl, hlayout]
  · rw [hbboxes, readOff.netBboxes]
    exact init_histogramInfo hdealt.bbox (Int.natCast_pos.mpr hn) {} totalCnt
  · rw [hedges, readOff.windows]
    exact init_histogramInfo hdealt.edgelen hdealt.edges {} totalCnt

theorem readSpec_isDefined (hn : 1 ≤ r.numInsts)
    (hdealt : Dealt r ang fanin fanout bbox edgelen) {reader : ArtNetGen}
    (hlibs : reader.libs = ang.libs) :
    ∃ ang', reader.readSpec (r.lines ang order avgGateDelay fanin fanout bbox edgelen) =
      some ang' := by
  obtain ⟨⟨mid, v⟩, hlines, -⟩ : ∃ s,
      (r.lines ang order avgGateDelay fanin fanout bbox edgelen).foldlM ArtNetGen.readLine
        (reader, {}) = some s ∧ s.1.libs = ang.libs := by
    refine Loop.isDefined (fun s : ArtNetGen × SpecLines => s.1.libs = ang.libs)
      (fun line hline s hs => ?_) hlibs
    cases line with
    | onlyUse name ratio =>
        obtain ⟨master, hmaster⟩ := Option.isSome_iff_exists.mp (onlyUse_found hline)
        have hfound : s.1.findMaster name = some master := by
          unfold ArtNetGen.findMaster
          rw [hs]
          exact hmaster
        exact ⟨_, Option.bind_eq_some_iff.mpr ⟨master, hfound, rfl⟩, hs⟩
    | _ => exact ⟨_, rfl, hs⟩
  obtain ⟨hv, -, -, hfi, hfo, hbbox, hedge⟩ := ArtNetGen.foldlM_readLine_spec hlines
  have hoff : ReadOff r ang fanin fanout bbox edgelen v := hv ▸ readOff
  have hinsts : (0 : ℤ) < r.numInsts := Int.natCast_pos.mpr hn
  have htot : v.totInstCnt = r.numInsts := by
    rw [hv, foldl_read_totInstCnt, totalOf_lines, hdealt.fanin]
    exact Int.zero_add _
  obtain ⟨fiDist, hfi'⟩ := init_histogramInfo hdealt.fanin hinsts mid.fiDist v.totInstCnt
  obtain ⟨foDist, hfo'⟩ := init_histogramInfo hdealt.fanout hinsts mid.foDist v.totInstCnt
  obtain ⟨bboxDist, hbbox'⟩ := init_histogramInfo hdealt.bbox hinsts mid.bboxDist v.totInstCnt
  have havg : ∃ avg, fiDist.targetAvg = some avg := by
    have hcnt : fiDist.totalCnt ≠ 0 := by
      rw [Distribution.init_totalCnt hfi', htot]
      exact hinsts.ne'
    exact ⟨_, if_neg hcnt⟩
  obtain ⟨avg, havg⟩ := havg
  obtain ⟨edgeDist, hedge'⟩ := init_histogramInfo hdealt.edgelen hdealt.edges mid.edgeDist
    ⌈(v.totInstCnt : ℚ) * avg⌉
  simp only [ArtNetGen.readSpec, Option.bind_eq_bind, Option.bind_eq_some_iff]
  refine ⟨_, (mid, v), hlines, fiDist, ?_, foDist, ?_, bboxDist, ?_, avg, havg, edgeDist, ?_, rfl⟩
  · rw [hoff.maxFi, hoff.fanIns]
    exact hfi'
  · rw [hoff.maxFo, hoff.fanOuts]
    exact hfo'
  · rw [hoff.maxBbox, hoff.netBboxes]
    exact hbbox'
  · rw [hoff.maxWindow, hoff.windows]
    exact hedge'

end SpecRequest

/-- Reader and writer agree on the number of instances, on the grid and on how
far the tables reach. -/
theorem ArtNetGen.createSpec_readBack (ang : ArtNetGen) (r : SpecRequest)
    (weights : SpecWeights) (order : Iteration String) (avgGateDelay : ℚ)
    (hn : 1 ≤ r.numInsts)
    (hw : weights.Positive ang.specMaxFanins (specMaxBbox r.numInsts)) {file : List SpecLine}
    (h : ang.createSpec r weights order avgGateDelay = some file) :
    (∀ reader : ArtNetGen, reader.libs = ang.libs →
      ∃ ang', reader.readSpec file = some ang' ∧ ReadBack r.numInsts ang') ∧
    (specDims r.numInsts).2 ≤ (specDims r.numInsts).1 ∧
    (specDims r.numInsts).1 ≤ (specDims r.numInsts).2 + 1 ∧
    (∃ k, specDims r.numInsts = growDim^[k] (1, 1) ∧
      ceilSqrt r.numInsts ≤ (specDims r.numInsts).1 * (specDims r.numInsts).2 ∧
      ∀ j < k, (growDim^[j] (1, 1)).1 * (growDim^[j] (1, 1)).2 < ceilSqrt r.numInsts) ∧
    (specLines file).maxBbox = specMaxBbox r.numInsts ∧
    (specLines file).maxWindow = specMaxBbox r.numInsts := by
  obtain ⟨fanin, fanout, bbox, edgelen, rfl, hdealt⟩ := createSpec_spec hn hw h
  obtain ⟨k, hk, henough, hbefore⟩ := specDims_spec r.numInsts
  have hnear := hk ▸ iterate_growDim_near k
  refine ⟨fun reader hlibs => ?_, hnear.1, hnear.2, ⟨k, hk, henough, hbefore⟩,
    SpecRequest.readOff.maxBbox, SpecRequest.readOff.maxWindow⟩
  obtain ⟨ang', hread⟩ := SpecRequest.readSpec_isDefined hn hdealt hlibs
  exact ⟨ang', hread, SpecRequest.readBack hn hdealt hread⟩

/-! A request for gates with one input and one short net each. -/

def shortNets : SpecRequest where
  numInsts := 4
  numIOs := 2
  combRatio := 9 / 10
  avgNetDeg := 1
  avgBbox := 0
  avgTopoOrder := 3
  onlyUse := [("INV", 4), ("NONE", 1)]

def firstBucket : SpecWeights where
  fanin x := if x = 0 then 1 else 0
  fanout x := if x = 0 then 1 else 0
  bbox x := if x = 0 then 1 else 0
  edgelen x := if x = 0 then 1 else 0

def invLib : ArtNetGen where
  libs := [[inverter]]

theorem firstBucket_positive :
    firstBucket.Positive invLib.specMaxFanins (specMaxBbox shortNets.numInsts) := by
  refine ⟨fun x => ?_, by decide +kernel, by decide +kernel, by decide +kernel, by decide +kernel⟩
  have hnonneg : (0 : ℚ) ≤ if x = 0 then 1 else 0 := by
    split
    · exact zero_le_one
    · exact le_rfl
  exact ⟨hnonneg, hnonneg, hnonneg, hnonneg⟩

theorem ArtNetGen.createSpec_readBack_shortNets :
    ∃ file, invLib.createSpec shortNets firstBucket ⟨id, .refl⟩ (1 / 10) = some file ∧
      ∃ ang', invLib.readSpec file = some ang' ∧ ReadBack 4 ang' := by
  have hcreated : (invLib.createSpec shortNets firstBucket ⟨id, .refl⟩ (1 / 10)).isSome = true := by
    decide +kernel
  obtain ⟨file, hfile⟩ := Option.isSome_iff_exists.mp hcreated
  exact ⟨file, hfile, (ArtNetGen.createSpec_readBack invLib shortNets firstBucket ⟨id, .refl⟩
    (1 / 10) (by decide) firstBucket_positive hfile).1 invLib rfl⟩

end Artnetgen
