import Mathlib.Data.List.TakeWhile

/-!
Names made of a stem and a number. Different numbers give different names, and
so do stems that begin with different characters.
-/

namespace Names

theorem numbered_injective (stem : String) {i j : ℕ}
    (h : stem ++ toString i = stem ++ toString j) : i = j := by
  have hdigits : (toString i).toList = (toString j).toList :=
    congrArg String.toList ((String.append_right_inj stem).mp h)
  simp only [Nat.toString_eq_repr, Nat.toList_repr] at hdigits
  have hvalue := congrArg (fun digits => Nat.ofDigitChars 10 digits 0) hdigits
  simpa [Nat.ofDigitChars_toDigits] using hvalue

/-- The first characters tell the names apart. -/
theorem append_ne {a b : String} {c d : Char} (ha : a.toList.head? = some c)
    (hb : b.toList.head? = some d) (hcd : c ≠ d) (s t : String) : a ++ s ≠ b ++ t := by
  intro h
  have hlist := congrArg (fun l : String => l.toList.head?) h
  simp only [String.toList_append, List.head?_append, ha, hb, Option.some_or,
    Option.some.injEq] at hlist
  exact hcd hlist

theorem append_ne_left {a b : String} {c d : Char} (ha : a.toList.head? = some c)
    (hb : b.toList.head? = some d) (hcd : c ≠ d) (s : String) : a ++ s ≠ b := by
  have hne := append_ne ha hb hcd s ""
  rwa [String.append_empty] at hne

/-- The characters in front of the first digit. -/
def letters (s : String) : List Char := s.toList.takeWhile fun c => !c.isDigit

theorem isDigit_of_mem_toString {i : ℕ} {c : Char} (h : c ∈ (toString i).toList) :
    c.isDigit = true := by
  rw [Nat.toString_eq_repr, Nat.toList_repr] at h
  exact Nat.isDigit_of_mem_toDigits (by decide) (Nat.le_refl 10) h

theorem letters_numbered {stem : String} (h : ∀ c ∈ stem.toList, c.isDigit = false) (i : ℕ) :
    letters (stem ++ toString i) = stem.toList := by
  have hstem : ∀ c ∈ stem.toList, (!c.isDigit) = true := fun c hc => by rw [h c hc]; rfl
  have hdigits : (toString i).toList.takeWhile (fun c => !c.isDigit) = [] := by
    apply List.takeWhile_eq_nil_iff.mpr
    intro hlt
    rw [isDigit_of_mem_toString (List.get_mem _ _)]
    exact Bool.false_ne_true
  unfold letters
  rw [String.toList_append, List.takeWhile_append_of_pos hstem, hdigits, List.append_nil]

/-- Stems without digits and their numbers are told apart. -/
theorem numbered_inj {stem stem' : String} {i j : ℕ} (h : ∀ c ∈ stem.toList, c.isDigit = false)
    (h' : ∀ c ∈ stem'.toList, c.isDigit = false)
    (heq : stem ++ toString i = stem' ++ toString j) : stem = stem' ∧ i = j := by
  have hletters := congrArg letters heq
  rw [letters_numbered h, letters_numbered h'] at hletters
  have hstem : stem = stem' := String.toList_inj.mp hletters
  subst hstem
  exact ⟨rfl, numbered_injective stem heq⟩

end Names
