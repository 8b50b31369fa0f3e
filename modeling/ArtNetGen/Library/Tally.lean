import Mathlib.Algebra.BigOperators.Group.List.Basic
import Mathlib.Data.Int.Notation
import Mathlib.Logic.Function.Basic
import Mathlib.Order.MinMax
import Mathlib.Algebra.Order.Ring.Int

/-!
Keys dropped one by one into counters, how much of the total the counters
`0..max` hold, and how far a list of integers spreads.
-/

namespace Tally

section Counters

variable {α : Type*} [DecidableEq α]

/-- The counter of `k` goes up by one. -/
def add (f : α → ℤ) (k : α) : α → ℤ := Function.update f k (f k + 1)

theorem foldl_add (keys : List α) (f : α → ℤ) (k : α) :
    keys.foldl add f k = f k + keys.count k := by
  induction keys generalizing f with
  | nil => simp
  | cons a rest ih =>
      rw [List.foldl_cons, ih, add, List.count_cons]
      by_cases hk : k = a
      · subst hk
        simp
        omega
      · simp [Function.update_of_ne hk, Ne.symm hk]

end Counters

/-- Each key counts once, in the counter of its value. -/
theorem sum_counts (keys : List ℤ) (n : ℕ) :
    ((List.range n).map fun x : ℕ => (keys.count (x : ℤ) : ℤ)).sum =
      ((keys.countP fun k => decide (0 ≤ k ∧ k < (n : ℤ)) : ℕ) : ℤ) := by
  induction n with
  | zero =>
      have hnone : keys.countP (fun k => decide (0 ≤ k ∧ k < ((0 : ℕ) : ℤ))) = 0 :=
        List.countP_eq_zero.mpr fun k _ => by
          simp only [decide_eq_true_eq]
          omega
      rw [hnone]
      rfl
  | succ n ih =>
      rw [List.range_succ, List.map_append, List.sum_append, ih]
      have hsplit : keys.countP (fun k => decide (0 ≤ k ∧ k < ((n + 1 : ℕ) : ℤ))) =
          keys.countP (fun k => decide (0 ≤ k ∧ k < (n : ℤ))) + keys.count (n : ℤ) := by
        clear ih
        induction keys with
        | nil => rfl
        | cons k rest ih =>
            rw [List.countP_cons, List.countP_cons, List.count_cons, ih]
            by_cases hk : k = n
            · simp [hk]
              omega
            · have hiff : (0 ≤ k ∧ k < ((n + 1 : ℕ) : ℤ)) ↔ (0 ≤ k ∧ k < (n : ℤ)) := by omega
              simp only [hiff, beq_iff_eq, hk, if_false]
              omega
      rw [hsplit]
      simp

/-- Nothing is lost exactly when every key is in range. -/
theorem sum_counts_eq_length_iff (keys : List ℤ) (n : ℕ) :
    ((List.range n).map fun x : ℕ => (keys.count (x : ℤ) : ℤ)).sum = keys.length ↔
      ∀ k ∈ keys, 0 ≤ k ∧ k < n := by
  rw [sum_counts, Int.natCast_inj, List.countP_eq_length]
  simp

/-! ## Spread -/

theorem foldl_max_le_iff (l : List ℤ) (a c : ℤ) : l.foldl max a ≤ c ↔ ∀ x ∈ a :: l, x ≤ c := by
  induction l generalizing a with
  | nil => simp
  | cons b rest ih =>
      rw [List.foldl_cons, ih]
      simp [and_assoc]

theorem le_foldl_min_iff (l : List ℤ) (a c : ℤ) : c ≤ l.foldl min a ↔ ∀ x ∈ a :: l, c ≤ x := by
  induction l generalizing a with
  | nil => simp
  | cons b rest ih =>
      rw [List.foldl_cons, ih]
      simp [and_assoc]

theorem foldl_max_mem (l : List ℤ) (a : ℤ) : l.foldl max a ∈ a :: l := by
  induction l generalizing a with
  | nil => simp
  | cons b rest ih =>
      rw [List.foldl_cons]
      have hmem := ih (max a b)
      rcases max_choice a b with hab | hab <;> rw [hab] at hmem ⊢ <;> simp at hmem ⊢ <;> tauto

theorem foldl_min_mem (l : List ℤ) (a : ℤ) : l.foldl min a ∈ a :: l := by
  induction l generalizing a with
  | nil => simp
  | cons b rest ih =>
      rw [List.foldl_cons]
      have hmem := ih (min a b)
      rcases min_choice a b with hab | hab <;> rw [hab] at hmem ⊢ <;> simp at hmem ⊢ <;> tauto

theorem foldl_min_le {l : List ℤ} {a x : ℤ} (hx : x ∈ a :: l) : l.foldl min a ≤ x :=
  (le_foldl_min_iff l a _).mp le_rfl x hx

theorem le_foldl_max {l : List ℤ} {a x : ℤ} (hx : x ∈ a :: l) : x ≤ l.foldl max a :=
  (foldl_max_le_iff l a _).mp le_rfl x hx

end Tally
