import Mathlib.Algebra.BigOperators.Group.List.Basic

/-!
Texts of words, marks and blanks. A text is cut into its words and marks; readers
take them from the front. What readers make of single items they make of a list
of items.
-/

namespace Tokens

inductive Kind where
  | word
  | mark
  | blank
deriving DecidableEq

inductive Token where
  | word (w : String)
  | mark (c : Char)
deriving DecidableEq

/-! ## Cutting -/

section Cut

variable (kind : Char → Kind)

/-- A word that has ended goes in front of the tokens behind it. -/
def flush : List Char × List Token → List Token
  | ([], tokens) => tokens
  | (c :: w, tokens) => .word (String.ofList (c :: w)) :: tokens

/-- A character goes in front of the word that the text behind it begins with and
the tokens behind that. -/
def put (c : Char) (s : List Char × List Token) : List Char × List Token :=
  match kind c with
  | .word => (c :: s.1, s.2)
  | .mark => ([], .mark c :: flush s)
  | .blank => ([], flush s)

def scan (text : List Char) : List Char × List Token := text.foldr (put kind) ([], [])

def tokens (text : String) : List Token := flush (scan kind text.toList)

/-- No word goes on behind the text. -/
def Closed (text : String) : Prop :=
  text.toList.getLast?.all (fun c => decide (kind c ≠ .word)) = true

/-- No word goes on at the begin of the text. -/
def Opens (text : String) : Prop :=
  text.toList.head?.all (fun c => decide (kind c ≠ .word)) = true

instance (text : String) : Decidable (Closed kind text) := inferInstanceAs (Decidable (_ = true))

instance (text : String) : Decidable (Opens kind text) := inferInstanceAs (Decidable (_ = true))

variable {kind}

theorem flush_append (s : List Char × List Token) (tokens : List Token) :
    flush (s.1, s.2 ++ tokens) = flush s ++ tokens := by
  obtain ⟨w, before⟩ := s
  cases w with
  | nil => rfl
  | cons c w => rfl

theorem flush_of_nil {s : List Char × List Token} (h : s.1 = []) : flush s = s.2 := by
  obtain ⟨w, tokens⟩ := s
  subst h
  rfl

theorem put_append (c : Char) (s : List Char × List Token) (tokens : List Token) :
    put kind c (s.1, s.2 ++ tokens) = ((put kind c s).1, (put kind c s).2 ++ tokens) := by
  unfold put
  cases kind c with
  | word => rfl
  | mark =>
      rw [flush_append]
      rfl
  | blank => rw [flush_append]

theorem put_of_not_word {c : Char} (h : kind c ≠ .word) (s : List Char × List Token) :
    (put kind c s).1 = [] ∧ (put kind c s).2 = (put kind c ([], [])).2 ++ flush s := by
  unfold put
  cases hkind : kind c with
  | word => exact absurd hkind h
  | mark => exact ⟨rfl, rfl⟩
  | blank => exact ⟨rfl, rfl⟩

/-- What follows is cut by itself if no word goes on. -/
theorem scan_append {after : List Char} (h : (scan kind after).1 = []) (before : List Char) :
    scan kind (before ++ after) =
      ((scan kind before).1, (scan kind before).2 ++ (scan kind after).2) := by
  induction before with
  | nil =>
      apply Prod.ext
      · exact h
      · rfl
  | cons c rest ih =>
      rw [List.cons_append]
      change put kind c (scan kind (rest ++ after)) = _
      rw [ih, put_append]
      rfl

theorem tokens_append_opens (before : String) {after : String} (h : Opens kind after) :
    tokens kind (before ++ after) = tokens kind before ++ tokens kind after := by
  have hnil : (scan kind after.toList).1 = [] := by
    unfold Opens at h
    cases hafter : after.toList with
    | nil => rfl
    | cons c rest =>
        rw [hafter] at h
        exact (put_of_not_word (of_decide_eq_true h) _).1
  unfold tokens
  rw [String.toList_append, scan_append hnil, flush_append, flush_of_nil hnil]

theorem tokens_append_closed {before : String} (h : Closed kind before) (after : String) :
    tokens kind (before ++ after) = tokens kind before ++ tokens kind after := by
  unfold tokens
  rw [String.toList_append]
  rcases List.eq_nil_or_concat before.toList with hnil | ⟨front, c, hconcat⟩
  · rw [hnil]
    rfl
  · have hc : kind c ≠ .word := by
      unfold Closed at h
      rw [hconcat, List.concat_eq_append, List.getLast?_concat] at h
      exact of_decide_eq_true h
    -- The last character stays with what is in front of it.
    have hfront : ∀ rest, flush (scan kind (front ++ c :: rest)) =
        flush (scan kind front) ++ ((put kind c ([], [])).2 ++ flush (scan kind rest)) := by
      intro rest
      have hput : (scan kind (c :: rest)).1 = [] ∧
          (scan kind (c :: rest)).2 = (put kind c ([], [])).2 ++ flush (scan kind rest) :=
        put_of_not_word hc _
      rw [scan_append hput.1, flush_append, hput.2]
    rw [hconcat, List.concat_eq_append, List.append_assoc]
    change flush (scan kind (front ++ c :: after.toList)) =
      flush (scan kind (front ++ [c])) ++ flush (scan kind after.toList)
    rw [hfront, hfront, List.append_assoc, List.append_assoc]
    rfl

theorem closed_append (before : String) {after : String} (h : Closed kind after)
    (hne : after ≠ "") : Closed kind (before ++ after) := by
  have hlist : after.toList ≠ [] := fun hnil => hne (String.toList_inj.mp hnil)
  unfold Closed at h ⊢
  rwa [String.toList_append, List.getLast?_append_of_ne_nil _ hlist]

theorem tokens_word {w : String} (hne : w ≠ "") (h : ∀ c ∈ w.toList, kind c = .word) :
    tokens kind w = [.word w] := by
  have hscan : ∀ l : List Char, (∀ c ∈ l, kind c = .word) → scan kind l = (l, []) := by
    intro l hl
    induction l with
    | nil => rfl
    | cons c rest ih =>
        change put kind c (scan kind rest) = _
        rw [ih fun c hc => hl c (List.mem_cons_of_mem _ hc), put, hl c List.mem_cons_self]
  have hlist : w.toList ≠ [] := fun hnil => hne (String.toList_inj.mp hnil)
  obtain ⟨c, rest, hcons⟩ := List.exists_cons_of_ne_nil hlist
  unfold tokens
  rw [hscan w.toList h, hcons]
  change [Token.word (String.ofList (c :: rest))] = _
  rw [← hcons, String.ofList_toList]

/-- A word between two pieces that it does not run into. -/
theorem tokens_between {before w after : String} (hbefore : Closed kind before)
    (h : tokens kind w = [.word w]) (hafter : Opens kind after) :
    tokens kind (before ++ w ++ after) =
      tokens kind before ++ .word w :: tokens kind after := by
  rw [tokens_append_opens _ hafter, tokens_append_closed hbefore, h, List.append_assoc]
  rfl

/-- Closed texts are cut one by one. -/
theorem tokens_join {texts : List String} (h : ∀ text ∈ texts, Closed kind text) :
    tokens kind (String.join texts) = texts.flatMap (tokens kind) := by
  induction texts with
  | nil => rfl
  | cons text texts ih =>
      rw [String.join_cons, tokens_append_closed (h text List.mem_cons_self),
        ih fun text htext => h text (List.mem_cons_of_mem _ htext), List.flatMap_cons]

end Cut

/-! ## Reading -/

section Read

variable {τ ι α : Type*}

abbrev Reader (τ α : Type*) := List τ → Option (α × List τ)

/-- The reader takes exactly these tokens, whatever follows. -/
def Reads (r : Reader τ α) (tokens : List τ) (a : α) : Prop :=
  ∀ rest, r (tokens ++ rest) = some (a, rest)

/-- Read items as long as there are any. -/
def many (r : Reader τ α) : ℕ → Reader τ (List α)
  | 0, tokens => some ([], tokens)
  | fuel + 1, tokens =>
    match r tokens with
    | none => some ([], tokens)
    | some (a, rest) => (many r fuel rest).map fun (as, rest) => (a :: as, rest)

theorem many_flatMap {r : Reader τ α} {items : List ι} {write : ι → List τ} {value : ι → α}
    {rest : List τ} {fuel : ℕ} (h : ∀ x ∈ items, Reads r (write x) (value x))
    (hstop : r rest = none) (hfuel : items.length ≤ fuel) :
    many r fuel (items.flatMap write ++ rest) = some (items.map value, rest) := by
  induction items generalizing fuel with
  | nil =>
      cases fuel with
      | zero => rfl
      | succ fuel =>
          unfold many
          rw [List.flatMap_nil, List.nil_append, hstop]
          rfl
  | cons x items ih =>
      obtain ⟨fuel, rfl⟩ : ∃ k, fuel = k + 1 := Nat.exists_eq_add_one_of_ne_zero (by
        rw [List.length_cons] at hfuel
        exact Nat.pos_iff_ne_zero.mp (Nat.zero_lt_of_lt hfuel))
      have hrest := ih (fun y hy => h y (List.mem_cons_of_mem _ hy)) (Nat.le_of_succ_le_succ hfuel)
      unfold many
      rw [List.flatMap_cons, List.append_assoc, h x List.mem_cons_self]
      dsimp only
      rw [hrest]
      rfl

/-- Every item takes tokens, so there are enough of them. -/
def readAll (r : Reader τ α) : Reader τ (List α) := fun tokens => many r tokens.length tokens

theorem readAll_flatMap {r : Reader τ α} {items : List ι} {write : ι → List τ} {value : ι → α}
    {rest : List τ} (h : ∀ x ∈ items, Reads r (write x) (value x)) (hstop : r rest = none) :
    readAll r (items.flatMap write ++ rest) = some (items.map value, rest) := by
  apply many_flatMap h hstop
  have htokens : ∀ x ∈ items, 1 ≤ (write x).length := by
    intro x hx
    apply List.length_pos_iff.mpr
    intro hnil
    have hread := h x hx rest
    rw [hnil, List.nil_append, hstop] at hread
    cases hread
  have hsum : (items.map fun x => (write x).length).length ≤
      (items.map fun x => (write x).length).sum := by
    apply List.length_le_sum_of_one_le
    intro n hn
    obtain ⟨x, hx, rfl⟩ := List.mem_map.mp hn
    exact htokens x hx
  rw [List.length_map] at hsum
  rw [List.length_append, List.length_flatMap]
  exact Nat.le_trans hsum (Nat.le_add_right _ _)

end Read

end Tokens
