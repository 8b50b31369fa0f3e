import Mathlib.Algebra.BigOperators.Group.Finset.Piecewise
import Mathlib.Data.List.Nodup
import Mathlib.Data.List.Perm.Subperm

/-!
Counting the entries of a list that have a property: over disjoint properties,
in lists without repetitions, and in lists whose entries correspond.
-/

namespace Counts

variable {α : Type*}

theorem countP_or {P Q : α → Prop} [DecidablePred P] [DecidablePred Q] {l : List α}
    (h : ∀ a ∈ l, P a → ¬ Q a) :
    l.countP (fun a => decide (P a ∨ Q a)) =
      l.countP (fun a => decide (P a)) + l.countP fun a => decide (Q a) := by
  induction l with
  | nil => rfl
  | cons a rest ih =>
      have hrest := ih fun b hb => h b (List.mem_cons_of_mem _ hb)
      have ha := h a List.mem_cons_self
      rw [List.countP_cons, List.countP_cons, List.countP_cons, hrest]
      by_cases hP : P a
      · simp [hP, ha hP]
        omega
      · by_cases hQ : Q a
        · simp [hP, hQ]
          omega
        · simp [hP, hQ]

/-- Every entry is counted once, under its key. -/
theorem sum_countP {f : α → ℕ} {l : List α} {n : ℕ} (h : ∀ a ∈ l, f a < n) :
    ∑ x ∈ Finset.range n, l.countP (fun a => f a = x) = l.length := by
  induction l with
  | nil => simp
  | cons a rest ih =>
      have hrest := ih fun b hb => h b (List.mem_cons_of_mem a hb)
      have ha : f a ∈ Finset.range n := Finset.mem_range.mpr (h a List.mem_cons_self)
      simp only [List.countP_cons, decide_eq_true_eq]
      rw [Finset.sum_add_distrib, hrest, Finset.sum_ite_eq, if_pos ha, List.length_cons]

theorem countP_lt {p q : α → Bool} {l : List α} (h : ∀ a ∈ l, p a = true → q a = true) {a : α}
    (ha : a ∈ l) (hp : ¬ p a = true) (hq : q a = true) : l.countP p < l.countP q := by
  have hboth : l.countP p = (l.filter q).countP p := by
    rw [List.countP_filter]
    apply List.countP_congr
    intro b hb
    rw [Bool.and_eq_true]
    exact ⟨fun hpb => ⟨hpb, h b hb hpb⟩, And.left⟩
  rw [hboth, List.countP_eq_length_filter, List.countP_eq_length_filter]
  exact List.length_filter_lt_length_iff_exists.mpr ⟨a, List.mem_filter.mpr ⟨ha, hq⟩, hp⟩

/-- Without repetitions at most one entry is counted exactly when any two that
are counted are the same. -/
theorem countP_le_one_iff {p : α → Bool} {l : List α} (hnodup : l.Nodup) :
    l.countP p ≤ 1 ↔ ∀ a ∈ l, ∀ b ∈ l, p a = true → p b = true → a = b := by
  rw [List.countP_eq_length_filter]
  constructor
  · intro hlength a ha b hb hpa hpb
    have hmema := List.mem_filter.mpr ⟨ha, hpa⟩
    have hmemb := List.mem_filter.mpr ⟨hb, hpb⟩
    obtain ⟨c, hc⟩ := List.length_eq_one_iff.mp
      (Nat.le_antisymm hlength (List.length_pos_of_mem hmema))
    rw [hc, List.mem_singleton] at hmema hmemb
    rw [hmema, hmemb]
  · intro hall
    cases hfilter : l.filter p with
    | nil => exact Nat.zero_le 1
    | cons a rest =>
        have hmem : ∀ b ∈ a :: rest, b ∈ [a] := by
          intro b hb
          have hmem : ∀ c ∈ a :: rest, c ∈ l ∧ p c = true := fun c hc => by
            rw [← hfilter] at hc
            exact List.mem_filter.mp hc
          obtain ⟨ha, hpa⟩ := hmem a List.mem_cons_self
          obtain ⟨hbl, hpb⟩ := hmem b hb
          exact List.mem_singleton.mpr (hall b hbl a ha hpb hpa)
        exact (List.Nodup.subperm (hfilter ▸ hnodup.filter p) hmem).length_le

theorem countP_eq_one_iff {p : α → Bool} {l : List α} (hnodup : l.Nodup) :
    l.countP p = 1 ↔ ∃ a ∈ l, p a = true ∧ ∀ b ∈ l, p b = true → b = a := by
  constructor
  · intro hone
    obtain ⟨a, ha, hpa⟩ := List.countP_pos_iff.mp (hone ▸ Nat.one_pos)
    exact ⟨a, ha, hpa, fun b hb hpb => (countP_le_one_iff hnodup).mp (Nat.le_of_eq hone) b hb a ha hpb hpa⟩
  · rintro ⟨a, ha, hpa, hall⟩
    refine Nat.le_antisymm ((countP_le_one_iff hnodup).mpr fun b hb c hc hpb hpc => ?_)
      (List.countP_pos_iff.mpr ⟨a, ha, hpa⟩)
    rw [hall b hb hpb, hall c hc hpc]

theorem eq_singleton {l : List α} {a : α} (hlength : l.length ≤ 1)
    (hlast : l.getLast? = some a) : l = [a] := by
  match l, hlength with
  | [], _ => cases hlast
  | [_], _ => exact congrArg (fun a => [a]) (Option.some.inj hlast)

end Counts

namespace Pairs

variable {α β : Type*} {R : α → β → Prop} {l : List α} {m : List β}

theorem exists_right (h : List.Forall₂ R l m) {a : α} (ha : a ∈ l) : ∃ b ∈ m, R a b := by
  induction h with
  | nil => cases ha
  | cons hab _ ih =>
      rcases List.mem_cons.mp ha with rfl | ha
      · exact ⟨_, List.mem_cons_self, hab⟩
      · obtain ⟨b, hb, hR⟩ := ih ha
        exact ⟨b, List.mem_cons_of_mem _ hb, hR⟩

theorem exists_left (h : List.Forall₂ R l m) {b : β} (hb : b ∈ m) : ∃ a ∈ l, R a b :=
  exists_right h.flip hb

theorem countP_eq {p : α → Bool} {q : β → Bool} (h : List.Forall₂ R l m)
    (hpq : ∀ a b, R a b → p a = q b) : l.countP p = m.countP q := by
  induction h with
  | nil => rfl
  | cons hab _ ih => rw [List.countP_cons, List.countP_cons, ih, hpq _ _ hab]

end Pairs
