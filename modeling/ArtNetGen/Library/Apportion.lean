import Mathlib.Algebra.BigOperators.Intervals
import Mathlib.Algebra.BigOperators.Ring.List
import Mathlib.Algebra.Order.BigOperators.Group.Finset
import Mathlib.Algebra.Order.BigOperators.Group.List
import Mathlib.Data.Rat.Floor
import Mathlib.Tactic.Linarith
import Mathlib.Tactic.Ring

/-!
A total dealt out in shares. Each share is rounded up and cut down to what is
left, so that shares which add up to the total exhaust it whatever the rounding
does.
-/

namespace Apportion

/-- The next share when `given` has been dealt out. -/
def grant (total given : ℤ) (share : ℚ) : ℤ :=
  if given + ⌈share⌉ > total then total - given else ⌈share⌉

def deal (total : ℤ) : ℤ → List ℚ → List ℤ
  | _, [] => []
  | given, share :: rest =>
      grant total given share :: deal total (given + grant total given share) rest

theorem length_deal (total given : ℤ) (shares : List ℚ) :
    (deal total given shares).length = shares.length := by
  induction shares generalizing given with
  | nil => rfl
  | cons share rest ih => rw [deal, List.length_cons, ih, List.length_cons]

/-- Either the rest of the total has gone, or at least the share has. -/
theorem grant_cases (total given : ℤ) (share : ℚ) :
    given + grant total given share = total ∨
      given + grant total given share ≤ total ∧ share ≤ grant total given share := by
  unfold grant
  split
  · exact Or.inl (by omega)
  · next hle => exact Or.inr ⟨by omega, Int.le_ceil share⟩

theorem sum_deal {total given : ℤ} {shares : List ℚ} (hle : given ≤ total)
    (hpos : ∀ share ∈ shares, 0 ≤ share) (henough : (total : ℚ) ≤ given + shares.sum) :
    given + (deal total given shares).sum = total := by
  induction shares generalizing given with
  | nil =>
      rw [List.sum_nil, add_zero, Int.cast_le] at henough
      unfold deal
      rw [List.sum_nil]
      omega
  | cons share rest ih =>
      have hrest : ∀ share ∈ rest, 0 ≤ share := fun s hs => hpos s (List.mem_cons_of_mem _ hs)
      rw [List.sum_cons] at henough
      unfold deal
      rw [List.sum_cons, ← Int.add_assoc]
      rcases grant_cases total given share with hall | ⟨hnext, hshare⟩
      · apply ih hall.le hrest
        rw [hall]
        exact le_add_of_nonneg_right (List.sum_nonneg hrest)
      · apply ih hnext hrest
        push_cast
        linarith

/-- Shares in proportion to weights exhaust the total. -/
theorem sum_deal_weights {total : ℤ} {weights : List ℚ} (htotal : 0 ≤ total)
    (hpos : ∀ w ∈ weights, 0 ≤ w) (hsum : 0 < weights.sum) :
    (deal total 0 (weights.map fun w => w / weights.sum * total)).sum = total := by
  have hcast : (0 : ℚ) ≤ total := Int.cast_nonneg htotal
  have hshares : (weights.map fun w => w / weights.sum * total).sum = total :=
    calc (weights.map fun w => w / weights.sum * total).sum
        = (weights.map fun w => w * (total / weights.sum)).sum := by
          simp only [div_mul_eq_mul_div, mul_div_assoc]
      _ = weights.sum * (total / weights.sum) := by rw [List.sum_map_mul_right, List.map_id']
      _ = total := mul_div_cancel₀ _ hsum.ne'
  have hnonneg : ∀ share ∈ weights.map fun w => w / weights.sum * total, 0 ≤ share := by
    intro share hshare
    obtain ⟨w, hw, rfl⟩ := List.mem_map.mp hshare
    exact mul_nonneg (div_nonneg (hpos w hw) hsum.le) hcast
  have hdeal := sum_deal htotal hnonneg (by rw [hshares, Int.cast_zero, zero_add])
  rwa [zero_add] at hdeal

/-! ## Prefixes -/

theorem take_deal (total given : ℤ) (shares : List ℚ) (k : ℕ) :
    (deal total given shares).take k = deal total given (shares.take k) := by
  induction shares generalizing given k with
  | nil => cases k <;> rfl
  | cons share rest ih =>
      cases k with
      | zero => rfl
      | succ k => rw [deal, List.take_succ_cons, List.take_succ_cons, deal, ih]

/-- A share is never rounded up by a whole unit, and never cut below zero. -/
theorem grant_bounds {total given : ℤ} {share : ℚ} (hle : given ≤ total) (hshare : 0 ≤ share) :
    0 ≤ grant total given share ∧ (grant total given share : ℚ) ≤ share + 1 ∧
      given + grant total given share ≤ total := by
  have hceil : 0 ≤ ⌈share⌉ := Int.ceil_nonneg hshare
  have hround : (⌈share⌉ : ℚ) < share + 1 := Int.ceil_lt_add_one share
  unfold grant
  split
  · next hcut =>
      have hless : ((total - given : ℤ) : ℚ) ≤ ⌈share⌉ := Int.cast_le.mpr (by omega)
      exact ⟨by omega, hless.trans hround.le, by omega⟩
  · next hfits => exact ⟨hceil, hround.le, by omega⟩

theorem deal_nonneg {total given : ℤ} {shares : List ℚ} (hle : given ≤ total)
    (hpos : ∀ share ∈ shares, 0 ≤ share) : ∀ cnt ∈ deal total given shares, 0 ≤ cnt := by
  induction shares generalizing given with
  | nil => exact nofun
  | cons share rest ih =>
      obtain ⟨hnonneg, -, hnext⟩ := grant_bounds hle (hpos share List.mem_cons_self)
      intro cnt hcnt
      rcases List.mem_cons.mp hcnt with rfl | hcnt
      · exact hnonneg
      · exact ih hnext (fun s hs => hpos s (List.mem_cons_of_mem _ hs)) cnt hcnt

/-- What has been dealt is at most the total, and at least the shares or the
whole total; each share adds at most one to what it asks for. -/
theorem sum_deal_bounds {total given : ℤ} {shares : List ℚ} (hle : given ≤ total)
    (hpos : ∀ share ∈ shares, 0 ≤ share) :
    given + (deal total given shares).sum ≤ total ∧
      min (total : ℚ) (given + shares.sum) ≤ given + (deal total given shares).sum ∧
      (given : ℚ) + (deal total given shares).sum ≤ given + shares.sum + shares.length := by
  induction shares generalizing given with
  | nil => simp [deal, hle]
  | cons share rest ih =>
      have hrest : ∀ share ∈ rest, 0 ≤ share := fun s hs => hpos s (List.mem_cons_of_mem _ hs)
      have hsum : 0 ≤ rest.sum := List.sum_nonneg hrest
      obtain ⟨-, hround, hnext⟩ := grant_bounds hle (hpos share List.mem_cons_self)
      obtain ⟨htotal, hlow, hhigh⟩ := ih hnext hrest
      unfold deal
      rw [List.sum_cons, List.sum_cons, List.length_cons]
      push_cast at hlow hhigh ⊢
      refine ⟨by omega, ?_, by linarith⟩
      rw [← add_assoc, ← add_assoc]
      refine le_trans ?_ hlow
      rcases grant_cases total given share with hall | ⟨-, hshare⟩
      · have hall' : (given : ℚ) + grant total given share = total := by exact_mod_cast hall
        rw [hall']
        exact (min_le_left _ _).trans (le_min le_rfl (by linarith))
      · exact min_le_min_left _ (by linarith)

/-! ## Means -/

/-- The sum of the values, each as often as the list says; the first entry is
for the value `first`. -/
def moment (counts : List ℚ) (first : ℕ) : ℚ :=
  ((counts.zipIdx first).map fun (cnt, value) => value * cnt).sum

theorem moment_cons (cnt : ℚ) (counts : List ℚ) (first : ℕ) :
    moment (cnt :: counts) first = first * cnt + moment counts (first + 1) := by
  rw [moment, List.zipIdx_cons, List.map_cons, List.sum_cons, moment]

/-- Every item counts for the first value and once more for every prefix it
comes after. -/
theorem moment_eq (counts : List ℚ) (first : ℕ) :
    moment counts first = first * counts.sum +
      ∑ k ∈ Finset.range counts.length, (counts.sum - (counts.take (k + 1)).sum) := by
  induction counts generalizing first with
  | nil => simp [moment]
  | cons cnt counts ih =>
      rw [moment_cons, ih, List.length_cons, Finset.sum_range_succ']
      have hshift : ∀ k, (cnt :: counts).sum - ((cnt :: counts).take (k + 1 + 1)).sum =
          counts.sum - (counts.take (k + 1)).sum := by
        intro k
        rw [List.take_succ_cons, List.sum_cons, List.sum_cons]
        ring
      rw [Finset.sum_congr rfl fun k _ => hshift k]
      simp only [List.sum_cons, List.take_succ_cons, List.take_zero, List.sum_nil]
      push_cast
      ring

/-- Two lists with the same total, one of which is never behind the other and
after `k` entries at most `k` ahead. -/
structure Ahead (shares counts : List ℚ) : Prop where
  length : counts.length = shares.length
  sum : counts.sum = shares.sum
  lower : ∀ k, (shares.take k).sum ≤ (counts.take k).sum
  upper : ∀ k, (counts.take k).sum ≤ (shares.take k).sum + k

/-- Being ahead lowers the mean, by no more than the numbers `1..m` add up
to. -/
theorem Ahead.bias {shares counts : List ℚ} (h : Ahead shares counts) (first : ℕ) {m : ℕ}
    (hm : shares.length = m + 1) :
    0 ≤ moment shares first - moment counts first ∧
      moment shares first - moment counts first ≤ m * (m + 1) / 2 := by
  have hdiff : moment shares first - moment counts first =
      ∑ k ∈ Finset.range m, ((counts.take (k + 1)).sum - (shares.take (k + 1)).sum) := by
    rw [moment_eq, moment_eq, h.length, h.sum, hm, add_sub_add_left_eq_sub,
      ← Finset.sum_sub_distrib, Finset.sum_range_succ]
    have hlast : (shares.take (m + 1)).sum = (counts.take (m + 1)).sum := by
      rw [List.take_of_length_le (by omega), List.take_of_length_le (by rw [h.length]; omega),
        h.sum]
    rw [hlast, sub_self, add_zero]
    exact Finset.sum_congr rfl fun k _ => by ring
  rw [hdiff]
  constructor
  · exact Finset.sum_nonneg fun k _ => sub_nonneg.mpr (h.lower (k + 1))
  · calc ∑ k ∈ Finset.range m, ((counts.take (k + 1)).sum - (shares.take (k + 1)).sum)
        ≤ ∑ k ∈ Finset.range m, ((k : ℚ) + 1) := by
          apply Finset.sum_le_sum
          intro k _
          have hk := h.upper (k + 1)
          push_cast at hk
          linarith
      _ = m * (m + 1) / 2 := by
          clear hdiff hm
          induction m with
          | zero => simp
          | succ m ih =>
              rw [Finset.sum_range_succ, ih]
              push_cast
              ring

/-! ## Shares in proportion to weights -/

theorem sum_map_cast (counts : List ℤ) :
    (counts.map fun cnt : ℤ => (cnt : ℚ)).sum = counts.sum := by
  induction counts with
  | nil => rfl
  | cons cnt counts ih => rw [List.map_cons, List.sum_cons, ih, List.sum_cons, Int.cast_add]

/-- Shares that add up to the total run behind what is dealt. -/
theorem deal_ahead {total : ℤ} {shares : List ℚ} (htotal : 0 ≤ total)
    (hpos : ∀ share ∈ shares, 0 ≤ share) (hsum : shares.sum = total) :
    Ahead shares ((deal total 0 shares).map fun cnt : ℤ => (cnt : ℚ)) := by
  have hbehind : ∀ k, (shares.take k).sum ≤ total ∧
      (shares.take k).sum ≤ ((deal total 0 shares).take k).sum ∧
        (((deal total 0 shares).take k).sum : ℚ) ≤ (shares.take k).sum + (shares.take k).length := by
    intro k
    have hrest : 0 ≤ (shares.drop k).sum :=
      List.sum_nonneg fun share h => hpos share (List.mem_of_mem_drop h)
    have hle : (shares.take k).sum ≤ total := by
      have hsplit := List.sum_take_add_sum_drop shares k
      linarith
    obtain ⟨-, hlow, hhigh⟩ := sum_deal_bounds htotal
      fun share h => hpos share (List.mem_of_mem_take (i := k) h)
    rw [Int.cast_zero, zero_add, zero_add] at hlow hhigh
    rw [take_deal]
    exact ⟨hle, (min_eq_right hle).symm.trans_le hlow, hhigh⟩
  have hcast : ∀ k, (((deal total 0 shares).map fun cnt : ℤ => (cnt : ℚ)).take k).sum =
      ((deal total 0 shares).take k).sum := fun k => by
    rw [← List.map_take, sum_map_cast]
  refine ⟨by rw [List.length_map, length_deal], ?_, fun k => ?_, fun k => ?_⟩
  · have hdeal := sum_deal htotal hpos (by rw [hsum, Int.cast_zero, zero_add])
    rw [zero_add] at hdeal
    rw [sum_map_cast, hdeal, hsum]
  · rw [hcast]
    exact (hbehind k).2.1
  · rw [hcast]
    have hlength : ((shares.take k).length : ℚ) ≤ k :=
      Nat.cast_le.mpr (List.length_take_le k shares)
    have hhigh := (hbehind k).2.2
    linarith

theorem moment_map_mul (weights : List ℚ) (c : ℚ) (first : ℕ) :
    moment (weights.map fun w => w * c) first = moment weights first * c := by
  induction weights generalizing first with
  | nil => simp [moment]
  | cons w weights ih =>
      rw [List.map_cons, moment_cons, moment_cons, ih]
      ring

/-- What rounding up with a cut-off promises for weights. Their mean is `moment`
over their sum. -/
structure Fair (total : ℤ) (weights : List ℚ) (counts : List ℤ) : Prop where
  length : counts.length = weights.length
  nonneg : ∀ cnt ∈ counts, 0 ≤ cnt
  sum : counts.sum = total
  lower : ∀ k, total * ((weights.take (k + 1)).sum / weights.sum) ≤ (counts.take (k + 1)).sum
  upper : ∀ k, ((counts.take (k + 1)).sum : ℚ) ≤
    min (total : ℚ) (total * ((weights.take (k + 1)).sum / weights.sum) + k + 1)
  bias : ∀ first m, weights.length = m + 1 →
    0 ≤ total * (moment weights first / weights.sum) -
        moment (counts.map fun cnt : ℤ => (cnt : ℚ)) first ∧
      total * (moment weights first / weights.sum) -
        moment (counts.map fun cnt : ℤ => (cnt : ℚ)) first ≤ m * (m + 1) / 2

theorem deal_fair {total : ℤ} {weights : List ℚ} (htotal : 0 ≤ total)
    (hpos : ∀ w ∈ weights, 0 ≤ w) (hsum : 0 < weights.sum) :
    Fair total weights (deal total 0 (weights.map fun w => w / weights.sum * total)) := by
  have hcast : (0 : ℚ) ≤ total := Int.cast_nonneg htotal
  have hscale : (weights.map fun w => w / weights.sum * total) =
      weights.map fun w => w * (total / weights.sum) :=
    List.map_congr_left fun w _ => by ring
  have hshares : ∀ share ∈ weights.map fun w => w * (total / weights.sum), 0 ≤ share := by
    intro share hshare
    obtain ⟨w, hw, rfl⟩ := List.mem_map.mp hshare
    exact mul_nonneg (hpos w hw) (div_nonneg hcast hsum.le)
  have htakes : ∀ k, ((weights.map fun w => w * (total / weights.sum)).take k).sum =
      total * ((weights.take k).sum / weights.sum) := fun k => by
    rw [← List.map_take, List.sum_map_mul_right, List.map_id']
    ring
  have hmean : ∀ first, moment (weights.map fun w => w * (total / weights.sum)) first =
      total * (moment weights first / weights.sum) := fun first => by
    rw [moment_map_mul]
    ring
  have htotals : (weights.map fun w => w * (total / weights.sum)).sum = total := by
    rw [List.sum_map_mul_right, List.map_id', mul_div_cancel₀ _ hsum.ne']
  have hahead := deal_ahead htotal hshares htotals
  rw [hscale]
  refine ⟨by rw [length_deal, List.length_map], deal_nonneg htotal hshares, ?_,
    fun k => ?_, fun k => le_min ?_ ?_, fun first m hm => ?_⟩
  · have hdeal := sum_deal htotal hshares (by rw [htotals, Int.cast_zero, zero_add])
    rwa [zero_add] at hdeal
  · have hlow := hahead.lower (k + 1)
    rwa [htakes, ← List.map_take, sum_map_cast] at hlow
  · have hall := (sum_deal_bounds htotal
      fun share h => hshares share (List.mem_of_mem_take (i := k + 1) h)).1
    rw [zero_add, ← take_deal] at hall
    exact Int.cast_le.mpr hall
  · have hhigh := hahead.upper (k + 1)
    rw [htakes, ← List.map_take, sum_map_cast, Nat.cast_add, Nat.cast_one] at hhigh
    linarith
  · rw [← hmean]
    exact hahead.bias first (by rw [List.length_map, hm])


/-! ## Weights that are nearly right -/

/-- Each weight is known up to the fraction `u` of it. -/
def Near (u : ℚ) (weights rounded : List ℚ) : Prop :=
  List.Forall₂ (fun w r => |r - w| ≤ u * w) weights rounded

theorem Near.sum {u : ℚ} {weights rounded : List ℚ} (h : Near u weights rounded) :
    (1 - u) * weights.sum ≤ rounded.sum ∧ rounded.sum ≤ (1 + u) * weights.sum := by
  induction h with
  | nil => simp
  | cons hnear _ ih =>
      rw [List.sum_cons, List.sum_cons]
      obtain ⟨hlow, hhigh⟩ := abs_le.mp hnear
      constructor <;> linarith [ih.1, ih.2]

theorem Near.take {u : ℚ} {weights rounded : List ℚ} (h : Near u weights rounded) (k : ℕ) :
    Near u (weights.take k) (rounded.take k) := List.forall₂_take k h

theorem Near.nonneg {u : ℚ} {weights rounded : List ℚ} (h : Near u weights rounded) (hu : u ≤ 1)
    (hpos : ∀ w ∈ weights, 0 ≤ w) : ∀ r ∈ rounded, 0 ≤ r := by
  induction h with
  | nil => simp
  | @cons w r weights rounded hnear _ ih =>
      have hw := hpos w List.mem_cons_self
      have hr : 0 ≤ r := by
        have hlow := (abs_le.mp hnear).1
        nlinarith
      intro r' hr'
      rcases List.mem_cons.mp hr' with rfl | hr'
      · exact hr
      · exact ih (fun w hw => hpos w (List.mem_cons_of_mem _ hw)) r' hr'

/-- The shares of prefixes are nearly right too. -/
theorem Near.share {u : ℚ} {weights rounded : List ℚ} (h : Near u weights rounded) (hu : 0 ≤ u)
    (hu1 : u < 1) (hpos : ∀ w ∈ weights, 0 ≤ w) (hsum : 0 < weights.sum) (k : ℕ) :
    (weights.take k).sum / weights.sum * ((1 - u) / (1 + u)) ≤
        (rounded.take k).sum / rounded.sum ∧
      (rounded.take k).sum / rounded.sum ≤
        (weights.take k).sum / weights.sum * ((1 + u) / (1 - u)) := by
  obtain ⟨hlow, hhigh⟩ := (h.take k).sum
  obtain ⟨htotalLow, htotalHigh⟩ := h.sum
  have htaken : 0 ≤ (weights.take k).sum :=
    List.sum_nonneg fun w hw => hpos w (List.mem_of_mem_take hw)
  have hless : 0 < 1 - u := sub_pos.mpr hu1
  have hmore : 0 < 1 + u := by linarith
  have hrounded : 0 < rounded.sum := lt_of_lt_of_le (mul_pos hless hsum) htotalLow
  rw [div_mul_div_comm, div_mul_div_comm]
  constructor
  · rw [div_le_div_iff₀ (mul_pos hsum hmore) hrounded]
    calc (weights.take k).sum * (1 - u) * rounded.sum
        ≤ (rounded.take k).sum * rounded.sum :=
          mul_le_mul_of_nonneg_right (by linarith) hrounded.le
      _ ≤ (rounded.take k).sum * (weights.sum * (1 + u)) :=
          mul_le_mul_of_nonneg_left (by linarith) ((mul_nonneg hless.le htaken).trans hlow)
  · rw [div_le_div_iff₀ hrounded (mul_pos hsum hless)]
    calc (rounded.take k).sum * (weights.sum * (1 - u))
        ≤ (rounded.take k).sum * rounded.sum :=
          mul_le_mul_of_nonneg_left (by linarith) ((mul_nonneg hless.le htaken).trans hlow)
      _ ≤ (weights.take k).sum * (1 + u) * rounded.sum :=
          mul_le_mul_of_nonneg_right (by linarith) hrounded.le

end Apportion
