import Mathlib.Algebra.BigOperators.Group.Finset.Piecewise
import Mathlib.Algebra.Order.BigOperators.Group.Finset
import Mathlib.Order.Bounds.Basic
import Mathlib.Order.Interval.Finset.Nat

/-!
Drawing a value by its weight from running sums. A number below the total
weight is looked up among the sums of the values `0..n-1`. Taking the first sum
above the number gives each value as many numbers as it weighs; taking the first
sum that reaches it moves all numbers by one.
-/

namespace Cumulative

variable {w : ℕ → ℕ} {n x v : ℕ}

/-- What the values before `x` weigh together. -/
def below (w : ℕ → ℕ) (x : ℕ) : ℕ := ∑ i ∈ Finset.range x, w i

theorem below_zero (w : ℕ → ℕ) : below w 0 = 0 := Finset.sum_range_zero w

theorem below_succ (w : ℕ → ℕ) (x : ℕ) : below w (x + 1) = below w x + w x :=
  Finset.sum_range_succ w x

theorem below_mono (w : ℕ → ℕ) {x y : ℕ} (h : x ≤ y) : below w x ≤ below w y := by
  apply Finset.sum_le_sum_of_subset
  exact Finset.range_mono h

theorem below_pos_of_weight (hx : x < n) (hw : 0 < w x) : 0 < below w n := by
  have hle := below_mono w (show x + 1 ≤ n from hx)
  rw [below_succ] at hle
  omega

/-- The value whose interval of the sums holds `v`. -/
def owner (w : ℕ → ℕ) (n v : ℕ) : ℕ :=
  (List.range n).findIdx fun x => v < below w (x + 1)

/-- The first value whose sum reaches `v`. -/
def reaching (w : ℕ → ℕ) (n v : ℕ) : ℕ :=
  (List.range n).findIdx fun x => v ≤ below w (x + 1)

theorem owner_eq_iff (hx : x < n) :
    owner w n v = x ↔ below w x ≤ v ∧ v < below w (x + 1) := by
  have hlen : x < (List.range n).length := by rwa [List.length_range]
  unfold owner
  rw [List.findIdx_eq hlen]
  simp only [List.getElem_range, decide_eq_true_eq, decide_eq_false_iff_not, Nat.not_lt]
  constructor
  · rintro ⟨hv, hbefore⟩
    constructor
    · cases x with
      | zero => rw [below_zero]; exact Nat.zero_le v
      | succ x => exact hbefore x (Nat.lt_succ_self x)
    · exact hv
  · rintro ⟨hle, hv⟩
    exact ⟨hv, fun y hy => (below_mono w (show y + 1 ≤ x from hy)).trans hle⟩

theorem owner_lt (hv : v < below w n) : owner w n v < n := by
  have hpos : 0 < n := by
    by_contra hzero
    rw [Nat.eq_zero_of_not_pos hzero, below_zero] at hv
    exact Nat.not_lt_zero v hv
  have hlt : owner w n v < (List.range n).length := by
    apply List.findIdx_lt_length_of_exists
    refine ⟨n - 1, List.mem_range.mpr (by omega), ?_⟩
    rw [decide_eq_true_eq, Nat.sub_add_cancel hpos]
    exact hv
  rwa [List.length_range] at hlt

/-- The numbers of a value are those of its interval. -/
theorem card_owner (hx : x < n) :
    ((Finset.range (below w n)).filter fun v => owner w n v = x).card = w x := by
  have hinterval : ((Finset.range (below w n)).filter fun v => owner w n v = x) =
      Finset.Ico (below w x) (below w (x + 1)) := by
    ext v
    have hle := below_mono w (show x + 1 ≤ n from hx)
    rw [Finset.mem_filter, Finset.mem_range, Finset.mem_Ico, owner_eq_iff hx]
    omega
  rw [hinterval, Nat.card_Ico, below_succ]
  omega

theorem reaching_zero (w : ℕ → ℕ) (n : ℕ) : reaching w n 0 = 0 := by
  cases n with
  | zero => rfl
  | succ n =>
      unfold reaching
      rw [List.range_succ_eq_map, List.findIdx_cons]
      simp

theorem reaching_succ (w : ℕ → ℕ) (n v : ℕ) : reaching w n (v + 1) = owner w n v := rfl

theorem reaching_lt (hv : v < below w n) : reaching w n v < n := by
  cases v with
  | zero =>
      rw [reaching_zero]
      exact Nat.zero_lt_of_lt (owner_lt hv)
  | succ v =>
      rw [reaching_succ]
      exact owner_lt (Nat.lt_of_succ_lt hv)

/-- The number 0 goes to the value 0, every other number to the owner of the
number before it; the owner of the largest number is one short. -/
theorem card_reaching {m : ℕ} (hm : below w n = m + 1) (hx : x < n) :
    ((Finset.range (below w n)).filter fun v => reaching w n v = x).card +
        (if owner w n m = x then 1 else 0) = w x + if x = 0 then 1 else 0 := by
  have hshift : ∀ v, (if reaching w n (v + 1) = x then 1 else 0) =
      if owner w n v = x then 1 else 0 := by
    intro v
    rw [reaching_succ]
  rw [← card_owner (w := w) hx, hm, Finset.card_filter, Finset.card_filter,
    Finset.sum_range_succ', Finset.sum_range_succ, reaching_zero]
  simp only [hshift, eq_comm (a := 0)]
  omega

/-- The largest number belongs to the last value that has a weight. -/
theorem owner_last {m : ℕ} (hm : below w n = m + 1) :
    IsGreatest {x | x < n ∧ 0 < w x} (owner w n m) := by
  have hlt : owner w n m < n := by
    apply owner_lt
    rw [hm]
    exact Nat.lt_succ_self m
  obtain ⟨hle, hm'⟩ := (owner_eq_iff hlt).mp rfl
  constructor
  · have hsucc := below_succ w (owner w n m)
    exact ⟨hlt, by omega⟩
  · rintro x ⟨hx, hw⟩
    by_contra hgt
    have hfirst := below_mono w (show owner w n m + 1 ≤ x from Nat.lt_of_not_le hgt)
    have hlast := below_mono w (show x + 1 ≤ n from hx)
    rw [below_succ] at hlast
    omega

/-- The first sum that reaches the number draws in proportion only where no
value but 0 has a weight. -/
theorem card_reaching_eq_iff (hpos : 0 < below w n) :
    (∀ x < n, ((Finset.range (below w n)).filter fun v => reaching w n v = x).card = w x) ↔
      ∀ x < n, 0 < x → w x = 0 := by
  obtain ⟨m, hm⟩ : ∃ m, below w n = m + 1 := ⟨below w n - 1, by omega⟩
  have ⟨⟨hlt, hweight⟩, hlast⟩ := owner_last hm
  constructor
  · intro hall
    have hzero : owner w n m = 0 := by
      have hcard := card_reaching hm hlt
      rw [hall _ hlt, if_pos rfl] at hcard
      by_contra hne
      rw [if_neg hne] at hcard
      omega
    intro x hx hxpos
    by_contra hw
    have hle := hlast ⟨hx, Nat.pos_of_ne_zero hw⟩
    omega
  · intro hnone x hx
    have hzero : owner w n m = 0 := by
      by_contra hne
      rw [hnone _ hlt (Nat.pos_of_ne_zero hne)] at hweight
      exact Nat.lt_irrefl 0 hweight
    have hcard := card_reaching hm hx
    simp only [hzero, eq_comm (a := 0)] at hcard
    omega

end Cumulative
