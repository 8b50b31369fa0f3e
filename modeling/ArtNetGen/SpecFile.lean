import ArtNetGen.Reinit
import ArtNetGen.Placement

/-!
What the two writers of spec files share: the bounds of the histograms, which
they take from the cells and from the size of the grid, and the lines that the
file has for a histogram.
-/

namespace Artnetgen

/-- The target of a line of one kind. -/
def SpecLine.faninTarget : SpecLine → Option ℤ
  | .fanin _ target _ => some target
  | _ => none

def SpecLine.fanoutTarget : SpecLine → Option ℤ
  | .fanout _ target _ => some target
  | _ => none

def SpecLine.netbboxTarget : SpecLine → Option ℤ
  | .netbbox _ target _ => some target
  | _ => none

def SpecLine.windowTarget : SpecLine → Option ℤ
  | .window _ target _ => some target
  | _ => none

/-- The targets of one kind, added up. -/
def totalOf (target : SpecLine → Option ℤ) (file : List SpecLine) : ℤ :=
  (file.filterMap target).sum

/-- `for(x = 0; x <= max; x++)` over one distribution. -/
def histogramLines (mk : ℕ → ℤ → ℚ → SpecLine) (dist : ℕ → ℤ) (max : ℕ) (total : ℤ) :
    List SpecLine :=
  (List.range (max + 1)).map fun x => mk x (dist x) (dist x / total)

/-! ## Bounds -/

def inSigCnt (master : DbMaster) : ℕ :=
  master.mTerms.countP fun term => decide (term.sigType = .signal ∧ term.ioType = .input)

/-- Each cell of the libraries is looked up by its name before it is counted. -/
def ArtNetGen.getMaxInSigCnt (ang : ArtNetGen) : ℕ :=
  (ang.libs.flatten.filterMap fun master => ang.findMaster master.name).foldl
    (fun maxInSigCnt master => max maxInSigCnt (inSigCnt master)) 0

def ArtNetGen.specMaxFanins (ang : ArtNetGen) : ℕ := min 6 ang.getMaxInSigCnt

def specMaxFanouts : ℕ := 50

/-- One turn of the loop of `createSpec` and `writeSpec` that grows the grid. -/
def growDim (dim : ℕ × ℕ) : ℕ × ℕ :=
  if dim.1 = dim.2 then (dim.1 + 1, dim.2) else (dim.1, dim.2 + 1)

def growDims (bins : ℕ) : ℕ → ℕ × ℕ → ℕ × ℕ
  | 0, dim => dim
  | fuel + 1, dim => if dim.1 * dim.2 < bins then growDims bins fuel (growDim dim) else dim

/-- `dimX` and `dimY`. -/
def specDims (numInsts : ℕ) : ℕ × ℕ := growDims (ceilSqrt numInsts) (ceilSqrt numInsts) (1, 1)

def specMaxBbox (numInsts : ℕ) : ℕ := (specDims numInsts).1 + (specDims numInsts).2

/-! ## Totals -/

@[simp] theorem totalOf_nil (target : SpecLine → Option ℤ) : totalOf target [] = 0 := rfl

theorem totalOf_cons (target : SpecLine → Option ℤ) (line : SpecLine) (rest : List SpecLine) :
    totalOf target (line :: rest) = (target line).getD 0 + totalOf target rest := by
  unfold totalOf
  rw [List.filterMap_cons]
  cases target line <;> simp

theorem totalOf_append (target : SpecLine → Option ℤ) (front back : List SpecLine) :
    totalOf target (front ++ back) = totalOf target front + totalOf target back := by
  rw [totalOf, List.filterMap_append, List.sum_append]
  rfl

theorem totalOf_eq_zero {target : SpecLine → Option ℤ} {file : List SpecLine}
    (h : ∀ line ∈ file, target line = none) : totalOf target file = 0 := by
  unfold totalOf
  rw [List.filterMap_eq_nil_iff.mpr h, List.sum_nil]

section Lines

variable {β : Type*} {f : SpecLine → Option β} {mk : ℕ → ℤ → ℚ → SpecLine}

/-- What is read off the lines of a histogram. -/
theorem filterMap_histogramLines {g : ℕ → ℤ → ℚ → β}
    (h : ∀ x cnt ratio, f (mk x cnt ratio) = some (g x cnt ratio)) (dist : ℕ → ℤ) (max : ℕ)
    (total : ℤ) :
    (histogramLines mk dist max total).filterMap f =
      (List.range (max + 1)).map fun x => g x (dist x) (dist x / total) := by
  unfold histogramLines
  rw [List.filterMap_map]
  simp [h]

theorem filterMap_histogramLines_none (h : ∀ x cnt ratio, f (mk x cnt ratio) = none)
    (dist : ℕ → ℤ) (max : ℕ) (total : ℤ) :
    (histogramLines mk dist max total).filterMap f = [] := by
  apply List.filterMap_eq_nil_iff.mpr
  intro line hline
  obtain ⟨x, -, rfl⟩ := List.mem_map.mp hline
  exact h x _ _

end Lines

theorem totalOf_histogram {target : SpecLine → Option ℤ} {mk : ℕ → ℤ → ℚ → SpecLine}
    (h : ∀ x cnt ratio, target (mk x cnt ratio) = some cnt) (dist : ℕ → ℤ) (max : ℕ)
    (total : ℤ) :
    totalOf target (histogramLines mk dist max total) =
      ((List.range (max + 1)).map dist).sum := by
  unfold totalOf
  rw [filterMap_histogramLines h]

theorem totalOf_other {target : SpecLine → Option ℤ} {mk : ℕ → ℤ → ℚ → SpecLine}
    (h : ∀ x cnt ratio, target (mk x cnt ratio) = none) (dist : ℕ → ℤ) (max : ℕ) (total : ℤ) :
    totalOf target (histogramLines mk dist max total) = 0 := by
  unfold totalOf
  rw [filterMap_histogramLines_none h, List.sum_nil]

/-- `readSpec` counts as many instances as the `FANIN` lines add up to. -/
theorem foldl_read_totInstCnt (file : List SpecLine) (v : SpecLines) :
    (file.foldl SpecLines.read v).totInstCnt = v.totInstCnt + totalOf SpecLine.faninTarget file := by
  induction file generalizing v with
  | nil => simp [totalOf]
  | cons line rest ih =>
      rw [List.foldl_cons, ih, totalOf_cons]
      cases line <;> simp [SpecLines.read, SpecLine.faninTarget, add_assoc]

/-- The members that come straight from the lines. -/
theorem ArtNetGen.readSpec_members {ang ang' : ArtNetGen} {file : List SpecLine}
    (h : ang.readSpec file = some ang') :
    ang'.instanceCnt = totalOf SpecLine.faninTarget file ∧
      ang'.netBboxes = (specLines file).netBboxes ∧ ang'.edges = (specLines file).windows := by
  simp only [ArtNetGen.readSpec, Option.bind_eq_bind, Option.bind_eq_some_iff, Option.pure_def,
    Option.some.injEq] at h
  obtain ⟨⟨mid, v⟩, hlines, fiDist, -, foDist, -, bboxDist, -, avg, -, edgeDist, -, rfl⟩ := h
  obtain ⟨rfl, -⟩ := ArtNetGen.foldlM_readLine_spec hlines
  refine ⟨?_, rfl, rfl⟩
  rw [foldl_read_totInstCnt]
  exact Int.zero_add _

end Artnetgen
