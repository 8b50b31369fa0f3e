import ArtNetGen.Library.Decimal

/-!
Texts read as streams are: line by line, and in a line item by item. Blanks in
front of an item are skipped. A failed extraction leaves the stream bad, and what
is extracted from a bad stream has no value.
-/

namespace Stream

open Decimal

/-- What is left of a line, and whether the last extraction was good. -/
structure State where
  text : List Char
  good : Bool := true

def isSpace (c : Char) : Bool :=
  c = ' ' || c = '\t' || c = '\n' || c = '\x0b' || c = '\x0c' || c = '\r'

/-- A word that cannot be extracted stays empty. -/
def word (s : State) : String × State :=
  if s.good then
    match s.text.dropWhile isSpace with
    | [] => ("", ⟨[], false⟩)
    | c :: text => (String.ofList ((c :: text).takeWhile fun c => !isSpace c),
        ⟨(c :: text).dropWhile fun c => !isSpace c, true⟩)
  else ("", s)

/-- A number is 0 if there is a text that is none; with no text at all it has no
value. -/
def number {α : Type*} [Zero α] (read : List Char → Option (α × List Char)) (s : State) :
    Option (α × State) :=
  if s.good then
    match s.text.dropWhile isSpace with
    | [] => none
    | c :: text =>
        match read (c :: text) with
        | none => some (0, ⟨c :: text, false⟩)
        | some (a, rest) => some (a, ⟨rest, true⟩)
  else none

/-- An integer out of range becomes the end of the range. -/
def int (low high : ℤ) (s : State) : Option (ℤ × State) :=
  (number readInt s).map fun a =>
    if a.1 < low then (low, { a.2 with good := false })
    else if high < a.1 then (high, { a.2 with good := false })
    else a

def double (s : State) : Option (ℚ × State) := number readRat s

/-- A character goes in front of the first line. -/
def putLine (c : Char) (lines : List (List Char)) : List (List Char) :=
  if c = '\n' then [] :: lines
  else
    match lines with
    | [] => [[c]]
    | line :: rest => (c :: line) :: rest

/-- What `getline` reads one after the other. -/
def getlines (text : List Char) : List (List Char) := text.foldr putLine []

/-! ## Lines -/

theorem getlines_cons {line : List Char} (h : '\n' ∉ line) (rest : List Char) :
    getlines (line ++ '\n' :: rest) = line :: getlines rest := by
  induction line with
  | nil => rfl
  | cons c line ih =>
      have hc : c ≠ '\n' := fun heq => h (heq ▸ List.mem_cons_self)
      change putLine c (getlines (line ++ '\n' :: rest)) = _
      rw [ih fun hmem => h (List.mem_cons_of_mem _ hmem), putLine, if_neg hc]

theorem getlines_flatMap {lines : List (List Char)} (h : ∀ line ∈ lines, '\n' ∉ line) :
    getlines (lines.flatMap fun line => line ++ ['\n']) = lines := by
  induction lines with
  | nil => rfl
  | cons line rest ih =>
      rw [List.flatMap_cons, List.append_assoc, List.singleton_append,
        getlines_cons (h line List.mem_cons_self), ih fun l hl => h l (List.mem_cons_of_mem _ hl)]

/-! ## Items -/

/-- An item that stands there does not go on. -/
def Blank (rest : List Char) : Prop := ∀ c ∈ rest.head?, isSpace c = true

/-- Something to extract, with no blank in it. -/
structure IsWord (w : List Char) : Prop where
  ne_nil : w ≠ []
  solid : ∀ c ∈ w, isSpace c = false

instance (w : List Char) : Decidable (IsWord w) :=
  decidable_of_iff ((!w.isEmpty && w.all fun c => !isSpace c) = true) (by
    rw [Bool.and_eq_true, List.all_eq_true]
    exact ⟨fun h => ⟨by simpa using h.1, fun c hc => by simpa using h.2 c hc⟩,
      fun h => ⟨by simpa using h.ne_nil, fun c hc => by simpa using h.solid c hc⟩⟩)

variable {w rest : List Char} {r : Rounding} {p : ℕ} {x : ℚ} {n : ℤ}

theorem Blank.nil : Blank [] := fun _ h => by cases h

theorem Blank.space (rest : List Char) : Blank (' ' :: rest) := by
  rintro c ⟨rfl⟩
  rfl

theorem isSpace_cases {c : Char} (h : isSpace c = true) :
    c = ' ' ∨ c = '\t' ∨ c = '\n' ∨ c = '\x0b' ∨ c = '\x0c' ∨ c = '\r' := by
  simpa [isSpace, or_assoc] using h

/-- Numbers end where words do. -/
theorem Blank.ends (h : Blank rest) : Ends rest := by
  intro c hc
  rcases isSpace_cases (h c hc) with rfl | rfl | rfl | rfl | rfl | rfl <;> decide

theorem IsWord.head (h : IsWord w) : ∃ c tail, w = c :: tail ∧ isSpace c = false := by
  obtain ⟨c, tail, rfl⟩ := List.exists_cons_of_ne_nil h.ne_nil
  exact ⟨c, tail, rfl, h.solid c List.mem_cons_self⟩

/-- What a number is printed with. -/
theorem IsWord.of_isNumeric (hne : w ≠ []) (h : ∀ c ∈ w, IsNumeric c) : IsWord w := by
  refine ⟨hne, fun c hc => ?_⟩
  rw [Bool.eq_false_iff]
  intro hspace
  have hnum := h c hc
  rcases isSpace_cases hspace with rfl | rfl | rfl | rfl | rfl | rfl <;> revert hnum <;>
    simp [IsNumeric]

theorem isWord_printInt (n : ℤ) : IsWord (printInt n) :=
  .of_isNumeric (printInt_ne_nil n) (isNumeric_printInt n)

theorem isWord_printRat (r : Rounding) (hp : 0 < p) (x : ℚ) : IsWord (printRat r p x) :=
  .of_isNumeric (printRat_ne_nil r hp x) (isNumeric_printRat r p x)

/-- Blanks are skipped up to the word. -/
theorem dropWhile_isSpace (h : IsWord w) {blanks : List Char}
    (hb : ∀ c ∈ blanks, isSpace c = true) (rest : List Char) : (blanks ++ (w ++ rest)).dropWhile isSpace = w ++ rest := by
  obtain ⟨c, tail, rfl, hc⟩ := h.head
  rw [List.dropWhile_append_of_pos hb, List.cons_append, List.dropWhile_cons_of_neg (by simp [hc])]

theorem word_append (h : IsWord w) {blanks : List Char} (hb : ∀ c ∈ blanks, isSpace c = true)
    (hrest : Blank rest) : word ⟨blanks ++ (w ++ rest), true⟩ = (String.ofList w, ⟨rest, true⟩) := by
  have hsolid : ∀ c ∈ w, (!isSpace c) = true := fun c hc => by rw [h.solid c hc]; rfl
  have hend : rest.takeWhile (fun c => !isSpace c) = [] ∧
      rest.dropWhile (fun c => !isSpace c) = rest := by
    cases rest with
    | nil => exact ⟨rfl, rfl⟩
    | cons c rest =>
        have hc := hrest c rfl
        exact ⟨List.takeWhile_cons_of_neg (by simp [hc]), List.dropWhile_cons_of_neg (by simp [hc])⟩
  obtain ⟨c, tail, hw, -⟩ := h.head
  unfold word
  dsimp only
  rw [if_pos rfl, dropWhile_isSpace h hb, hw, List.cons_append]
  dsimp only
  rw [← List.cons_append, ← hw, List.takeWhile_append_of_pos hsolid,
    List.dropWhile_append_of_pos hsolid, hend.1, hend.2, List.append_nil]

theorem dropWhile_space (h : IsWord w) (rest : List Char) :
    (' ' :: (w ++ rest)).dropWhile isSpace = w ++ rest := by
  have hspace : ∀ c ∈ [' '], isSpace c = true := List.forall_mem_singleton.mpr rfl
  exact dropWhile_isSpace h hspace rest

section Number

variable {α : Type*} [Zero α] {read : List Char → Option (α × List Char)} {a : α}

theorem number_space (h : IsWord w) :
    number read ⟨' ' :: (w ++ rest), true⟩ =
      match read (w ++ rest) with
      | none => some (0, ⟨w ++ rest, false⟩)
      | some (a, rest) => some (a, ⟨rest, true⟩) := by
  obtain ⟨c, tail, hw, -⟩ := h.head
  unfold number
  dsimp only
  rw [if_pos rfl, dropWhile_space h, hw, List.cons_append]

theorem number_append (h : IsWord w) (hread : read (w ++ rest) = some (a, rest)) :
    number read ⟨' ' :: (w ++ rest), true⟩ = some (a, ⟨rest, true⟩) := by
  rw [number_space h, hread]

end Number

theorem int_printInt {low high : ℤ} (hlow : low ≤ n) (hhigh : n ≤ high) (hrest : Blank rest) :
    int low high ⟨' ' :: (printInt n ++ rest), true⟩ = some (n, ⟨rest, true⟩) := by
  have hread := readInt_printInt n fun c hc => (hrest.ends c hc).1
  unfold int
  rw [number_append (isWord_printInt n) hread, Option.map_some, if_neg (not_lt.mpr hlow),
    if_neg (not_lt.mpr hhigh)]

theorem double_printRat (r : Rounding) (hp : 0 < p) (x : ℚ) (hrest : Blank rest) :
    double ⟨' ' :: (printRat r p x ++ rest), true⟩ = some (r.nearest p x, ⟨rest, true⟩) :=
  number_append (isWord_printRat r hp x) (readRat_printRat r hp x hrest.ends)

theorem double_printInt (n : ℤ) (hrest : Blank rest) :
    double ⟨' ' :: (printInt n ++ rest), true⟩ = some ((n : ℚ), ⟨rest, true⟩) :=
  number_append (isWord_printInt n) (readRat_printInt n hrest.ends)

/-- What is no number is read as 0. -/
theorem double_none (h : IsWord w) (hread : readRat (w ++ rest) = none) :
    double ⟨' ' :: (w ++ rest), true⟩ = some (0, ⟨w ++ rest, false⟩) := by
  unfold double
  rw [number_space h, hread]

end Stream
