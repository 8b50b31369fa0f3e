import Mathlib.Data.List.Nodup
import Mathlib.Logic.Function.Basic

/-!
An inverted index: members filed into numbered slots, together with the slot
each member was last filed under. Filing under a slot that does not exist, or
taking a member out of a slot it is not in, has no defined result.
-/

structure ClassTable (α : Type*) where
  slots : List (List α)
  recorded : α → ℕ

namespace ClassTable

variable {α : Type*} [DecidableEq α]

def empty (n : ℕ) : ClassTable α := ⟨List.replicate n [], fun _ => 0⟩

/-- File a new member. -/
def insert (t : ClassTable α) (a : α) (k : ℕ) : Option (ClassTable α) :=
  (t.slots[k]?).map fun slot =>
    ⟨t.slots.set k (slot ++ [a]), Function.update t.recorded a k⟩

/-- Refile a member whose class has become `k`: nothing happens when the
recorded class is already `k`. -/
def move (t : ClassTable α) (a : α) (k : ℕ) : Option (ClassTable α) :=
  if k = t.recorded a then some t
  else do
    let slot ← t.slots[t.recorded a]?
    if a ∈ slot then
      (⟨t.slots.set (t.recorded a) (slot.erase a), t.recorded⟩ : ClassTable α).insert a k
    else none

/-- Every member is in the slot recorded for it, once, and nothing else is in
any slot. -/
structure Files (t : ClassTable α) (members : List α) : Prop where
  slot : ∀ k slot, t.slots[k]? = some slot →
    slot.Nodup ∧ ∀ a, a ∈ slot ↔ a ∈ members ∧ t.recorded a = k
  inRange : ∀ a ∈ members, t.recorded a < t.slots.length

omit [DecidableEq α] in
theorem files_empty (n : ℕ) : (empty n : ClassTable α).Files [] where
  slot k slot h := by
    have hmem := List.mem_of_getElem? h
    obtain rfl := (List.mem_replicate.mp hmem).2
    simp
  inRange a ha := by simp at ha

omit [DecidableEq α] in
@[simp] theorem empty_length (n : ℕ) : (empty n : ClassTable α).slots.length = n := by
  simp [empty]

theorem insert_eq_some {t t' : ClassTable α} {a : α} {k : ℕ} :
    t.insert a k = some t' ↔ ∃ slot, t.slots[k]? = some slot ∧
      t' = ⟨t.slots.set k (slot ++ [a]), Function.update t.recorded a k⟩ := by
  unfold insert
  rw [Option.map_eq_some_iff]
  constructor <;> rintro ⟨slot, hslot, rfl⟩ <;> exact ⟨slot, hslot, rfl⟩

/-- Filing a newcomer. -/
theorem Files.insert {t t' : ClassTable α} {members : List α} (h : t.Files members)
    {a : α} {k : ℕ} (hnew : a ∉ members) (ht : t.insert a k = some t') :
    t'.Files (members ++ [a]) ∧ t'.recorded = Function.update t.recorded a k ∧
      t'.slots.length = t.slots.length := by
  obtain ⟨slot, hslot, rfl⟩ := insert_eq_some.mp ht
  have hk : k < t.slots.length := (List.getElem?_eq_some_iff.mp hslot).1
  refine ⟨⟨?_, ?_⟩, rfl, by simp⟩
  · intro j slot' hj
    by_cases hjk : j = k
    · subst hjk
      simp only [List.getElem?_set_self hk, Option.some.injEq] at hj
      subst hj
      obtain ⟨hnodup, hmem⟩ := h.slot j slot hslot
      have hnot : a ∉ slot := fun ha => hnew ((hmem a).mp ha).1
      refine ⟨hnodup.append (List.nodup_singleton a) (by simpa using hnot), fun b => ?_⟩
      by_cases hb : b = a
      · simp [hb]
      · simp [hb, hmem b]
    · simp only [List.getElem?_set_ne (Ne.symm hjk)] at hj
      obtain ⟨hnodup, hmem⟩ := h.slot j slot' hj
      refine ⟨hnodup, fun b => ?_⟩
      by_cases hb : b = a
      · subst hb
        simp [hmem b, hnew, Ne.symm hjk]
      · simp [hb, hmem b]
  · intro b hb
    by_cases hba : b = a
    · simpa [hba] using hk
    · have hbm : b ∈ members := by simpa [hba] using hb
      simpa [hba] using h.inRange b hbm

/-- A member can always be refiled under an existing slot, and the table then
files the same members under the new record. -/
theorem Files.move {t : ClassTable α} {members : List α} (h : t.Files members)
    {a : α} {k : ℕ} (ha : a ∈ members) (hk : k < t.slots.length) :
    ∃ t', t.move a k = some t' ∧ t'.Files members ∧
      t'.recorded = Function.update t.recorded a k ∧
      t'.slots.length = t.slots.length := by
  by_cases heq : k = t.recorded a
  · refine ⟨t, by simp [ClassTable.move, heq], h, ?_, rfl⟩
    rw [heq, Function.update_eq_self]
  · obtain ⟨slot, hslot⟩ : ∃ slot, t.slots[t.recorded a]? = some slot :=
      ⟨_, List.getElem?_eq_getElem (h.inRange a ha)⟩
    obtain ⟨hnodup, hmem⟩ := h.slot _ slot hslot
    have hin : a ∈ slot := (hmem a).mpr ⟨ha, rfl⟩
    obtain ⟨slot2, hslot2⟩ : ∃ slot2, t.slots[k]? = some slot2 :=
      ⟨_, List.getElem?_eq_getElem hk⟩
    obtain ⟨hnodup2, hmem2⟩ := h.slot k slot2 hslot2
    have hrange := h.inRange a ha
    have hmove : t.move a k = some
        ⟨(t.slots.set (t.recorded a) (slot.erase a)).set k (slot2 ++ [a]),
          Function.update t.recorded a k⟩ := by
      simp [ClassTable.move, heq, hslot, hin, ClassTable.insert,
        List.getElem?_set_ne (Ne.symm heq), hslot2]
    refine ⟨_, hmove, ⟨?_, ?_⟩, rfl, by simp⟩
    · intro j slot' hj
      by_cases hjk : j = k
      · subst hjk
        rw [List.getElem?_set_self (by simpa using hk), Option.some.injEq] at hj
        subst hj
        have hnot : a ∉ slot2 := fun hin2 => heq ((hmem2 a).mp hin2).2.symm
        refine ⟨hnodup2.append (List.nodup_singleton a) (by simpa using hnot), fun b => ?_⟩
        by_cases hb : b = a
        · simp [hb, ha]
        · simp [hb, hmem2 b]
      · rw [List.getElem?_set_ne (Ne.symm hjk)] at hj
        by_cases hjr : j = t.recorded a
        · subst hjr
          rw [List.getElem?_set_self hrange, Option.some.injEq] at hj
          subst hj
          refine ⟨hnodup.erase a, fun b => ?_⟩
          by_cases hb : b = a
          · subst hb
            simp [hnodup.mem_erase_iff, Ne.symm hjk]
          · simp [hnodup.mem_erase_iff, hb, hmem b]
        · rw [List.getElem?_set_ne (Ne.symm hjr)] at hj
          obtain ⟨hnodup', hmem'⟩ := h.slot j slot' hj
          refine ⟨hnodup', fun b => ?_⟩
          by_cases hb : b = a
          · subst hb
            simp [hmem' b, Ne.symm hjk, Ne.symm hjr]
          · simp [hb, hmem' b]
    · intro b hb
      by_cases hba : b = a
      · simpa [hba] using hk
      · simpa [hba] using h.inRange b hb

/-- Conversely, refiling is defined for existing slots only. -/
theorem Files.lt_of_move {t t' : ClassTable α} {members : List α} (h : t.Files members)
    {a : α} {k : ℕ} (ha : a ∈ members) (ht : t.move a k = some t') : k < t.slots.length := by
  unfold ClassTable.move at ht
  split at ht
  · next heq => exact heq ▸ h.inRange a ha
  · simp only [Option.bind_eq_bind, Option.bind_eq_some_iff] at ht
    obtain ⟨slot, -, ht⟩ := ht
    split at ht
    · obtain ⟨slot', hslot', -⟩ := insert_eq_some.mp ht
      have hlt := (List.getElem?_eq_some_iff.mp hslot').1
      rwa [List.length_set] at hlt
    · cases ht

end ClassTable
