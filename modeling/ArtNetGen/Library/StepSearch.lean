import Mathlib.Data.Nat.Find
import Mathlib.Logic.Function.Iterate
import Mathlib.Tactic.Common

/-!
A search that corrects a value by fixed steps until a test is content with it.
It ends only on the side to which the first correction points, and only if no
step jumps over the values that pass: as soon as a correction points back, the
search goes to and fro between two values for ever.
-/

namespace StepSearch

variable {α : Type*}

/-- `lt` says that the value is too small, `gt` that it is too large. -/
def search (verdict : α → Ordering) (up down : α → α) : ℕ → α → Option α
  | 0, _ => none
  | fuel + 1, a =>
      match verdict a with
      | .eq => some a
      | .lt => search verdict up down fuel (up a)
      | .gt => search verdict up down fuel (down a)

/-- The step that answers a verdict. -/
def heading (up down : α → α) : Ordering → α → α
  | .lt => up
  | .eq => id
  | .gt => down

variable {verdict : α → Ordering} {up down : α → α} {a : α} {v : Ordering}

theorem search_of_eq (h : verdict a = .eq) (fuel : ℕ) :
    search verdict up down (fuel + 1) a = some a := by
  unfold search
  rw [h]

theorem search_of_ne (h : verdict a ≠ .eq) (fuel : ℕ) :
    search verdict up down (fuel + 1) a =
      search verdict up down fuel (heading up down (verdict a) a) := by
  rw [search]
  cases hv : verdict a with
  | lt => rfl
  | eq => exact absurd hv h
  | gt => rfl

theorem search_mono {fuel : ℕ} {r : α} (h : search verdict up down fuel a = some r)
    (extra : ℕ) : search verdict up down (fuel + extra) a = some r := by
  induction fuel generalizing a with
  | zero => cases h
  | succ fuel ih =>
      rw [Nat.add_right_comm]
      by_cases heq : verdict a = .eq
      · rwa [search_of_eq heq] at h ⊢
      · rw [search_of_ne heq] at h ⊢
        exact ih h

/-- As long as the verdict stays the same the search goes straight on. -/
theorem search_straight (hne : v ≠ .eq) {k : ℕ}
    (h : ∀ j < k, verdict ((heading up down v)^[j] a) = v) (fuel : ℕ) :
    search verdict up down (fuel + k) a =
      search verdict up down fuel ((heading up down v)^[k] a) := by
  induction k generalizing a with
  | zero => rfl
  | succ k ih =>
      have hfirst : verdict a = v := h 0 (Nat.succ_pos k)
      rw [← Nat.add_assoc, search_of_ne (hfirst ▸ hne), hfirst, Function.iterate_succ_apply]
      exact ih fun j hj => h (j + 1) (Nat.succ_lt_succ hj)

/-- A verdict that never changes keeps the search going. -/
theorem search_onward (hne : v ≠ .eq) (h : ∀ j, verdict ((heading up down v)^[j] a) = v)
    (fuel : ℕ) : search verdict up down fuel a = none := by
  have hstraight := @search_straight _ verdict up down a v hne fuel (fun j _ => h j) 0
  rwa [Nat.zero_add] at hstraight

/-- Two neighbours that each point to the other. -/
theorem search_to_and_fro {b : α} (ha : verdict a ≠ .eq) (hb : verdict b ≠ .eq)
    (hab : heading up down (verdict a) a = b) (hba : heading up down (verdict b) b = a)
    (fuel : ℕ) :
    search verdict up down fuel a = none ∧ search verdict up down fuel b = none := by
  induction fuel with
  | zero => exact ⟨rfl, rfl⟩
  | succ fuel ih =>
      rw [search_of_ne ha, search_of_ne hb, hab, hba]
      exact ⟨ih.2, ih.1⟩

/-- A step back undoes a step. -/
theorem heading_back (hud : ∀ a, down (up a) = a) (hdu : ∀ a, up (down a) = a) {w : Ordering}
    (hv : v ≠ .eq) (hw : w ≠ .eq) (hvw : v ≠ w) (a : α) :
    heading up down w (heading up down v a) = a := by
  cases v with
  | lt =>
      cases w with
      | lt => exact absurd rfl hvw
      | eq => exact absurd rfl hw
      | gt => exact hud a
  | eq => exact absurd rfl hv
  | gt =>
      cases w with
      | lt => exact hdu a
      | eq => exact absurd rfl hw
      | gt => exact absurd rfl hvw

/-- The search ends exactly if a value passes on the side of the first
correction before any verdict points back. -/
theorem ends_iff (hud : ∀ a, down (up a) = a) (hdu : ∀ a, up (down a) = a) (a : α) :
    (∃ fuel r, search verdict up down fuel a = some r) ↔
      ∃ k, verdict ((heading up down (verdict a))^[k] a) = .eq ∧
        ∀ j < k, verdict ((heading up down (verdict a))^[j] a) = verdict a := by
  by_cases heq : verdict a = .eq
  · constructor
    · exact fun _ => ⟨0, heq, nofun⟩
    · exact fun _ => ⟨1, a, search_of_eq heq 0⟩
  constructor
  · rintro ⟨fuel, r, hr⟩
    by_contra hnever
    -- The first value with another verdict, if any, points back.
    by_cases hsame : ∀ j, verdict ((heading up down (verdict a))^[j] a) = verdict a
    · rw [search_onward heq hsame] at hr
      cases hr
    · have hchange : ∃ j, verdict ((heading up down (verdict a))^[j] a) ≠ verdict a :=
        not_forall.mp hsame
      classical
      obtain ⟨hother, hbefore⟩ := And.intro (Nat.find_spec hchange)
        fun j hj => not_not.mp (Nat.find_min (m := j) hchange hj)
      generalize Nat.find hchange = k at hother hbefore
      cases k with
      | zero => exact hother rfl
      | succ k =>
          have hlast := hbefore k (Nat.lt_succ_self k)
          have hnot : verdict ((heading up down (verdict a))^[k + 1] a) ≠ .eq :=
            fun hpass => hnever ⟨k + 1, hpass, hbefore⟩
          rw [Function.iterate_succ_apply'] at hother hnot
          have hstraight := search_straight heq
            (fun j hj => hbefore j (Nat.lt_succ_of_lt hj)) fuel
          rw [search_mono hr, (search_to_and_fro (hlast.symm ▸ heq) hnot (by rw [hlast])
            (heading_back hud hdu heq hnot hother.symm _) fuel).1] at hstraight
          cases hstraight
  · rintro ⟨k, hpass, hbefore⟩
    refine ⟨1 + k, (heading up down (verdict a))^[k] a, ?_⟩
    rw [search_straight heq hbefore]
    exact search_of_eq hpass 0

end StepSearch
