import Mathlib.Algebra.BigOperators.Ring.List
import Mathlib.Algebra.Order.BigOperators.Group.List
import Mathlib.Data.List.Rotate
import Mathlib.Data.Rat.Floor

/-!
Items served in turn. A pointer goes round a list and stops at the next item
whose quota is not used up. It finds one within one round as long as fewer have
been served than the quotas add up to; and if the quotas add up to `slack` more
than are served in all, no item misses its quota by more than that.
-/

namespace RoundRobin

variable {α : Type*}

/-! ## The pointer -/

/-- Goes on from position `idx` to the next item with `p`, for `fuel` steps at
most. The result is the item and the position behind it. -/
def seek (items : List α) (p : α → Bool) : ℕ → ℕ → Option (α × ℕ)
  | 0, _ => none
  | fuel + 1, idx => do
      let item ← items[idx]?
      let next := (idx + 1) % items.length
      if p item then return (item, next) else seek items p fuel next

theorem seek_eq_find_drop {items : List α} {p : α → Bool} {idx : ℕ} (fuel j : ℕ)
    (hj : j + fuel = items.length) :
    seek items p fuel ((idx + j) % items.length) =
      ((((items.rotate idx).drop j).zipIdx j).find? fun x => p x.1).map
        fun x => (x.1, (idx + x.2 + 1) % items.length) := by
  induction fuel generalizing j with
  | zero =>
      have hend : (items.rotate idx).drop j = [] :=
        List.drop_eq_nil_of_le (by rw [List.length_rotate]; omega)
      rw [hend]
      rfl
  | succ fuel ih =>
      have hlt : j < (items.rotate idx).length := by
        rw [List.length_rotate]
        omega
      have hpos : (idx + j) % items.length < items.length := Nat.mod_lt _ (by omega)
      have hitem : (items.rotate idx)[j] = items[(idx + j) % items.length] := by
        rw [List.getElem_rotate]
        simp only [Nat.add_comm]
      have hnext : ((idx + j) % items.length + 1) % items.length =
          (idx + (j + 1)) % items.length := by
        rw [Nat.mod_add_mod, Nat.add_assoc]
      rw [List.drop_eq_getElem_cons hlt, List.zipIdx_cons, List.find?_cons, hitem, seek,
        List.getElem?_eq_getElem hpos]
      simp only [Option.bind_eq_bind, Option.bind_some, Option.pure_def]
      cases hp : p items[(idx + j) % items.length] with
      | true =>
          rw [if_pos rfl, hnext, Option.map_some, Nat.add_assoc]
      | false =>
          rw [if_neg nofun, hnext]
          exact ih (j + 1) (by omega)

/-- One round is a search through the rotated list. -/
theorem seek_eq_find {items : List α} {p : α → Bool} {idx : ℕ} (hidx : idx < items.length) :
    seek items p items.length idx =
      ((items.rotate idx).zipIdx.find? fun x => p x.1).map
        fun x => (x.1, (idx + x.2 + 1) % items.length) := by
  have hseek := @seek_eq_find_drop _ items p idx items.length 0 (Nat.zero_add _)
  rwa [Nat.add_zero, Nat.mod_eq_of_lt hidx, List.drop_zero] at hseek

theorem exists_find {items : List α} {p : α → Bool} {idx : ℕ} (h : ∃ a ∈ items, p a = true) :
    ∃ a k, (items.rotate idx).zipIdx.find? (fun x => p x.1) = some (a, k) ∧
      a ∈ items ∧ p a = true := by
  obtain ⟨a, ha, hpa⟩ := h
  cases hfind : (items.rotate idx).zipIdx.find? fun x => p x.1 with
  | none =>
      obtain ⟨k, hk, hget⟩ := List.getElem_of_mem (List.mem_rotate.mpr ha)
      have hmem : ((items.rotate idx)[k], k) ∈ (items.rotate idx).zipIdx := by
        rw [List.mem_zipIdx_iff_getElem?]
        exact List.getElem?_eq_getElem hk
      have hnot := List.find?_eq_none.mp hfind _ hmem
      rw [hget] at hnot
      exact absurd hpa hnot
  | some found =>
      obtain ⟨b, k⟩ := found
      have hmem := List.fst_mem_of_mem_zipIdx (List.mem_of_find?_eq_some hfind)
      have hpb := List.find?_some hfind
      exact ⟨b, k, rfl, List.mem_rotate.mp hmem, hpb⟩

/-! ## The quotas -/

/-- After `served` items, of which `cnt` counts each kind. -/
structure Served (items : List α) (quota cnt : α → ℤ) (served : ℕ) : Prop where
  nonneg : ∀ a ∈ items, 0 ≤ cnt a
  le : ∀ a ∈ items, cnt a ≤ quota a
  total : (items.map cnt).sum = served

section Serving

variable {items : List α} {quota cnt : α → ℤ} {served : ℕ}

theorem Served.zero (hquota : ∀ a ∈ items, 0 ≤ quota a) : Served items quota (fun _ => 0) 0 := by
  refine ⟨fun _ _ => le_rfl, hquota, ?_⟩
  simp

theorem Served.exists_lt (h : Served items quota cnt served)
    (hless : (served : ℤ) < (items.map quota).sum) : ∃ a ∈ items, cnt a < quota a := by
  by_contra hnone
  have hall : ∀ a ∈ items, quota a ≤ cnt a := fun a ha =>
    Int.not_lt.mp fun hlt => hnone ⟨a, ha, hlt⟩
  have hsum := List.sum_le_sum hall
  rw [h.total] at hsum
  omega

theorem sum_map_update [DecidableEq α] {items : List α} (hnodup : items.Nodup) {a : α}
    (ha : a ∈ items) (f : α → ℤ) :
    (items.map (Function.update f a (f a + 1))).sum = (items.map f).sum + 1 := by
  induction items with
  | nil => cases ha
  | cons b rest ih =>
      obtain ⟨hb, hrest⟩ := List.nodup_cons.mp hnodup
      rw [List.map_cons, List.map_cons, List.sum_cons, List.sum_cons]
      by_cases hab : a = b
      · subst hab
        have hsame : rest.map (Function.update f a (f a + 1)) = rest.map f :=
          List.map_congr_left fun c hc =>
            Function.update_of_ne (fun hca : c = a => hb (hca ▸ hc)) _ _
        rw [hsame, Function.update_self]
        omega
      · rw [ih hrest ((List.mem_cons.mp ha).resolve_left hab),
          Function.update_of_ne (Ne.symm hab)]
        omega

theorem Served.serve [DecidableEq α] (h : Served items quota cnt served) (hnodup : items.Nodup)
    {a : α} (ha : a ∈ items) (hlt : cnt a < quota a) :
    Served items quota (Function.update cnt a (cnt a + 1)) (served + 1) := by
  refine ⟨fun b hb => ?_, fun b hb => ?_, ?_⟩
  · by_cases hba : b = a
    · rw [hba, Function.update_self]
      have hnonneg := h.nonneg a ha
      omega
    · rw [Function.update_of_ne hba]
      exact h.nonneg b hb
  · by_cases hba : b = a
    · rw [hba, Function.update_self]
      omega
    · rw [Function.update_of_ne hba]
      exact h.le b hb
  · rw [sum_map_update hnodup ha, h.total]
    rfl

/-- What is left of one quota is at most what is left of all. -/
theorem Served.sub_le (h : Served items quota cnt served) {slack : ℤ}
    (hslack : (items.map quota).sum ≤ served + slack) {a : α} (ha : a ∈ items) :
    quota a - slack ≤ cnt a := by
  have hleft : quota a - cnt a ≤ (items.map fun b => quota b - cnt b).sum := by
    refine List.single_le_sum (fun x hx => ?_) _ (List.mem_map_of_mem ha)
    obtain ⟨b, hb, rfl⟩ := List.mem_map.mp hx
    have hle := h.le b hb
    omega
  have hsum : (items.map fun b => quota b - cnt b).sum =
      (items.map quota).sum - (items.map cnt).sum := by
    simp only [sub_eq_add_neg, List.sum_map_add, List.sum_neg, List.map_map, Function.comp_def]
  rw [hsum, h.total] at hleft
  omega

end Serving

/-! ## Rounding up -/

theorem sum_le_sum_ceil (shares : List ℚ) :
    shares.sum ≤ ((shares.map fun share => ⌈share⌉).sum : ℤ) := by
  induction shares with
  | nil => simp
  | cons share rest ih =>
      rw [List.sum_cons, List.map_cons, List.sum_cons, Int.cast_add]
      exact add_le_add (Int.le_ceil share) ih

/-- Rounding up adds less than one to each share. -/
theorem sum_ceil_lt {shares : List ℚ} (h : shares ≠ []) :
    (((shares.map fun share => ⌈share⌉).sum : ℤ) : ℚ) < shares.sum + shares.length := by
  induction shares with
  | nil => exact absurd rfl h
  | cons share rest ih =>
      rw [List.sum_cons, List.map_cons, List.sum_cons, Int.cast_add, List.length_cons,
        Nat.cast_succ]
      have hshare := Int.ceil_lt_add_one share
      by_cases hrest : rest = []
      · subst hrest
        simpa using hshare
      · have hlt := ih hrest
        linarith

/-- Shares of `n` in proportion to positive weights. -/
theorem sum_shares {weights : List ℚ} (hsum : weights.sum ≠ 0) (n : ℚ) :
    (weights.map fun w => n * w / weights.sum).sum = n := by
  calc (weights.map fun w => n * w / weights.sum).sum
      = (weights.map fun w => w * (n / weights.sum)).sum := by
        simp only [mul_comm n, mul_div_assoc]
    _ = weights.sum * (n / weights.sum) := by rw [List.sum_map_mul_right, List.map_id']
    _ = n := mul_div_cancel₀ _ hsum

end RoundRobin
