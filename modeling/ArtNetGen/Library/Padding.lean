import Mathlib.Data.List.Nodup
import Mathlib.Tactic.ByContra

/-!
Vectors filled by padding and appending. A pair of an index and a value is
pushed by padding the vector with a default up to the index and appending the
value, so the value stands at its index exactly when the vector was no longer
than that. `room` is the first free place, `Lands` the place a pair gets.
-/

namespace Padding

variable {α : Type*}

def push (pad : α) (tr : List α) (item : ℕ × α) : List α :=
  tr ++ List.replicate (item.1 - tr.length) pad ++ [item.2]

/-- The first free place after the items, from the free place `n` on. -/
def room : ℕ → List (ℕ × α) → ℕ
  | n, [] => n
  | n, item :: rest => room (max n item.1 + 1) rest

theorem length_push (pad : α) (tr : List α) (item : ℕ × α) :
    (push pad tr item).length = max tr.length item.1 + 1 := by
  simp only [push, List.length_append, List.length_replicate, List.length_singleton]
  omega

theorem length_foldl_push (pad : α) (tr : List α) (items : List (ℕ × α)) :
    (items.foldl (push pad) tr).length = room tr.length items := by
  induction items generalizing tr with
  | nil => rfl
  | cons item rest ih => rw [List.foldl_cons, ih, length_push, room]

theorem le_room (n : ℕ) (items : List (ℕ × α)) : n ≤ room n items := by
  induction items generalizing n with
  | nil => exact Nat.le_refl n
  | cons item rest ih =>
      have hrest := ih (max n item.1 + 1)
      unfold room
      omega

/-- Every item needs one place past its own index and one for each item after
it. -/
theorem room_le_iff {n bound : ℕ} {items : List (ℕ × α)} :
    room n items ≤ bound ↔ n + items.length ≤ bound ∧
      ∀ front item back, items = front ++ item :: back → item.1 + back.length < bound := by
  induction items generalizing n with
  | nil => simp [room]
  | cons first rest ih =>
      unfold room
      rw [ih, List.length_cons]
      constructor
      · rintro ⟨hlen, hrest⟩
        refine ⟨by omega, fun front item back heq => ?_⟩
        cases front with
        | nil =>
            obtain ⟨rfl, rfl⟩ := List.cons.inj heq
            omega
        | cons _ front => exact hrest front item back (List.cons.inj heq).2
      · rintro ⟨hlen, hall⟩
        have hfirst := hall [] first rest rfl
        refine ⟨by omega, fun front item back heq => ?_⟩
        exact hall (first :: front) item back (by rw [heq, List.cons_append])

theorem room_zero_le_iff {bound : ℕ} {items : List (ℕ × α)} :
    room 0 items ≤ bound ↔
      ∀ front item back, items = front ++ item :: back → item.1 + back.length < bound := by
  rw [room_le_iff, and_iff_right_iff_imp]
  intro hall
  cases items with
  | nil => exact Nat.zero_le bound
  | cons first rest =>
      have hfirst := hall [] first rest rfl
      simp only [List.length_cons]
      omega

/-- The place an item gets behind the items in front of it. -/
def Lands (n : ℕ) (items : List (ℕ × α)) (place : ℕ) (item : ℕ × α) : Prop :=
  ∃ front back, items = front ++ item :: back ∧ place = max (room n front) item.1

theorem lands_cons {n place : ℕ} {first item : ℕ × α} {rest : List (ℕ × α)} :
    Lands n (first :: rest) place item ↔
      (item = first ∧ place = max n first.1) ∨
        Lands (max n first.1 + 1) rest place item := by
  constructor
  · rintro ⟨front, back, heq, hplace⟩
    cases front with
    | nil =>
        obtain ⟨rfl, rfl⟩ := List.cons.inj heq
        exact .inl ⟨rfl, hplace⟩
    | cons _ front =>
        obtain ⟨rfl, htail⟩ := List.cons.inj heq
        exact .inr ⟨front, back, htail, hplace⟩
  · rintro (⟨rfl, hplace⟩ | ⟨front, back, heq, hplace⟩)
    · exact ⟨[], rest, rfl, hplace⟩
    · exact ⟨first :: front, back, by rw [heq, List.cons_append], hplace⟩

theorem Lands.le {n place : ℕ} {item : ℕ × α} {items : List (ℕ × α)}
    (h : Lands n items place item) : n ≤ place ∧ item.1 ≤ place := by
  obtain ⟨front, back, -, rfl⟩ := h
  have hroom := le_room n front
  exact ⟨by omega, by omega⟩

theorem Lands.mem {n place : ℕ} {item : ℕ × α} {items : List (ℕ × α)}
    (h : Lands n items place item) : item ∈ items := by
  obtain ⟨front, back, rfl, -⟩ := h
  exact List.mem_append_right front List.mem_cons_self

theorem exists_lands {n : ℕ} {item : ℕ × α} {items : List (ℕ × α)} (h : item ∈ items) :
    ∃ place, Lands n items place item := by
  obtain ⟨front, back, heq⟩ := List.append_of_mem h
  exact ⟨_, front, back, heq, rfl⟩

/-- No place is given twice. -/
theorem Lands.unique {n place : ℕ} {item item' : ℕ × α} {items : List (ℕ × α)}
    (h : Lands n items place item) (h' : Lands n items place item') : item = item' := by
  induction items generalizing n with
  | nil => exact absurd h.mem List.not_mem_nil
  | cons first rest ih =>
      rcases lands_cons.mp h with ⟨rfl, hp⟩ | hrest
      · rcases lands_cons.mp h' with ⟨rfl, -⟩ | hrest'
        · rfl
        · have hle := hrest'.le
          omega
      · rcases lands_cons.mp h' with ⟨rfl, hp⟩ | hrest'
        · have hle := hrest.le
          omega
        · exact ih hrest hrest'

theorem getElem?_push_of_lt {pad : α} {tr : List α} {item : ℕ × α} {x : ℕ}
    (hx : x < tr.length) : (push pad tr item)[x]? = tr[x]? := by
  unfold push
  rw [List.append_assoc, List.getElem?_append_left hx]

theorem getElem?_push_place (pad : α) (tr : List α) (item : ℕ × α) :
    (push pad tr item)[max tr.length item.1]? = some item.2 := by
  have hlen : (tr ++ List.replicate (item.1 - tr.length) pad).length = max tr.length item.1 := by
    simp only [List.length_append, List.length_replicate]
    omega
  unfold push
  rw [List.getElem?_append_right (by omega), hlen, Nat.sub_self]
  rfl

theorem getElem?_push_pad {pad : α} {tr : List α} {item : ℕ × α} {x : ℕ}
    (hle : tr.length ≤ x) (hlt : x < max tr.length item.1) :
    (push pad tr item)[x]? = some pad := by
  have hpad : x - tr.length < item.1 - tr.length := by omega
  rw [push, List.append_assoc, List.getElem?_append_right hle,
    List.getElem?_append_left (by simpa using hpad), List.getElem?_replicate_of_lt hpad]

/-- What stood in the vector stays. -/
theorem getElem?_foldl_push_of_lt {pad : α} {tr : List α} {items : List (ℕ × α)} {x : ℕ}
    (hx : x < tr.length) : (items.foldl (push pad) tr)[x]? = tr[x]? := by
  induction items generalizing tr with
  | nil => rfl
  | cons item rest ih =>
      have hlen := length_push pad tr item
      rw [List.foldl_cons, ih (by omega), getElem?_push_of_lt hx]

/-- An item stands where it lands. -/
theorem getElem?_of_lands {pad : α} {tr : List α} {items : List (ℕ × α)} {place : ℕ}
    {item : ℕ × α} (h : Lands tr.length items place item) :
    (items.foldl (push pad) tr)[place]? = some item.2 := by
  induction items generalizing tr with
  | nil => exact absurd h.mem List.not_mem_nil
  | cons first rest ih =>
      rw [List.foldl_cons]
      have hlen := length_push pad tr first
      rcases lands_cons.mp h with ⟨rfl, rfl⟩ | hrest
      · rw [getElem?_foldl_push_of_lt (by omega), getElem?_push_place]
      · rw [← hlen] at hrest
        exact ih hrest

/-- The other places hold the default. -/
theorem getElem?_of_not_lands {pad : α} {tr : List α} {items : List (ℕ × α)} {x : ℕ}
    (hle : tr.length ≤ x) (hlt : x < room tr.length items)
    (h : ∀ item, ¬ Lands tr.length items x item) :
    (items.foldl (push pad) tr)[x]? = some pad := by
  induction items generalizing tr with
  | nil => exact absurd hlt (by rw [room]; omega)
  | cons first rest ih =>
      rw [List.foldl_cons]
      have hlen := length_push pad tr first
      have hne : x ≠ max tr.length first.1 := fun heq =>
        h first (lands_cons.mpr (.inl ⟨rfl, heq⟩))
      by_cases hx : x < max tr.length first.1
      · rw [getElem?_foldl_push_of_lt (by omega), getElem?_push_pad hle hx]
      · apply ih (by omega) (by rwa [hlen])
        intro item hitem
        rw [hlen] at hitem
        exact h item (lands_cons.mpr (.inr hitem))

/-! A vector filled from the start. -/

theorem getElem?_of_lands_zero {pad : α} {items : List (ℕ × α)} {place : ℕ} {item : ℕ × α}
    (h : Lands 0 items place item) : (items.foldl (push pad) [])[place]? = some item.2 :=
  @getElem?_of_lands α pad [] items place item h

theorem getElem?_of_not_lands_zero (pad : α) {items : List (ℕ × α)} {x : ℕ}
    (hlt : x < room 0 items) (h : ∀ item, ¬ Lands 0 items x item) :
    (items.foldl (push pad) [])[x]? = some pad :=
  @getElem?_of_not_lands α pad [] items x (Nat.zero_le x) hlt h

/-- An item that occurs once gets one place. -/
theorem Lands.place_unique {n place place' : ℕ} {item : ℕ × α} {items : List (ℕ × α)}
    (hnodup : items.Nodup) (h : Lands n items place item) (h' : Lands n items place' item) :
    place = place' := by
  induction items generalizing n with
  | nil => exact absurd h.mem List.not_mem_nil
  | cons first rest ih =>
      obtain ⟨hfirst, hrest⟩ := List.nodup_cons.mp hnodup
      rcases lands_cons.mp h with ⟨rfl, hp⟩ | hl
      · rcases lands_cons.mp h' with ⟨-, hp'⟩ | hl'
        · rw [hp, hp']
        · exact absurd hl'.mem hfirst
      · rcases lands_cons.mp h' with ⟨rfl, -⟩ | hl'
        · exact absurd hl.mem hfirst
        · exact ih hrest hl hl'

/-- The value that the items give to an index. -/
def lookup (pad : α) (items : List (ℕ × α)) (x : ℕ) : α :=
  ((items.find? fun item => item.1 = x).map Prod.snd).getD pad

theorem lookup_eq_of_mem {pad : α} {items : List (ℕ × α)} (hkeys : (items.map Prod.fst).Nodup)
    {item : ℕ × α} (h : item ∈ items) : lookup pad items item.1 = item.2 := by
  have hsome : (items.find? fun other => other.1 = item.1).isSome :=
    List.find?_isSome.mpr ⟨item, h, by simp⟩
  obtain ⟨found, hfound⟩ := Option.isSome_iff_exists.mp hsome
  have hkey : found.1 = item.1 := by simpa using List.find?_some hfound
  obtain rfl : found = item :=
    List.inj_on_of_nodup_map hkeys (List.mem_of_find?_eq_some hfound) h hkey
  rw [lookup, hfound]
  rfl

theorem exists_of_lookup_ne {pad : α} {items : List (ℕ × α)} {x : ℕ}
    (h : lookup pad items x ≠ pad) : ∃ item ∈ items, item.1 = x := by
  cases hfound : items.find? fun item => item.1 = x with
  | none => exact absurd (by rw [lookup, hfound]; rfl) h
  | some item =>
      exact ⟨item, List.mem_of_find?_eq_some hfound, by simpa using List.find?_some hfound⟩

/-- The items fill the places up to `bound` in order: the last of these places
is reached, and every item in that range whose value is not the default has an
index that exceeds each earlier one by more than the number of items between
the two. -/
structure InPlace (pad : α) (bound : ℕ) (items : List (ℕ × α)) : Prop where
  placed : ∀ before earlier between item back,
    items = before ++ earlier :: between ++ item :: back →
      item.1 ≤ bound → item.2 ≠ pad → earlier.1 + between.length < item.1
  reached : ∃ front item back, items = front ++ item :: back ∧ bound ≤ item.1 + back.length

theorem reached_iff {bound : ℕ} {items : List (ℕ × α)} :
    (∃ front item back, items = front ++ item :: back ∧ bound ≤ item.1 + back.length) ↔
      bound < room 0 items := by
  rw [← Nat.not_le, room_zero_le_iff]
  constructor
  · rintro ⟨front, item, back, heq, hle⟩ hall
    exact absurd (hall front item back heq) (Nat.not_lt.mpr hle)
  · intro hnot
    by_contra hnone
    refine hnot fun front item back heq => Nat.not_le.mp fun hle => ?_
    exact hnone ⟨front, item, back, heq, hle⟩

theorem placed_iff {pad : α} {bound : ℕ} {items : List (ℕ × α)} :
    (∀ before earlier between item back, items = before ++ earlier :: between ++ item :: back →
        item.1 ≤ bound → item.2 ≠ pad → earlier.1 + between.length < item.1) ↔
      ∀ place item, Lands 0 items place item → item.1 ≤ bound → item.2 ≠ pad →
        place = item.1 := by
  constructor
  · rintro hall place item ⟨front, back, heq, rfl⟩ hbound hpad
    have hroom : room 0 front ≤ item.1 :=
      room_zero_le_iff.mpr fun before earlier between hfront =>
        hall before earlier between item back (by rw [heq, hfront]) hbound hpad
    omega
  · intro hall before earlier between item back heq hbound hpad
    have hown := hall _ item ⟨before ++ earlier :: between, back, heq, rfl⟩ hbound hpad
    have hroom : room 0 (before ++ earlier :: between) ≤ item.1 := by omega
    exact room_zero_le_iff.mp hroom before earlier between rfl

/-- The vector reads back what the items say, at every place up to `bound`, if
and only if the items are in place. -/
theorem foldl_push_eq_lookup_iff {pad : α} {bound : ℕ} {items : List (ℕ × α)}
    (hkeys : (items.map Prod.fst).Nodup) :
    (∀ x ≤ bound, (items.foldl (push pad) [])[x]? = some (lookup pad items x)) ↔
      InPlace pad bound items := by
  have hnodup : items.Nodup := List.Nodup.of_map Prod.fst hkeys
  constructor
  · intro hread
    refine ⟨placed_iff.mpr ?_, reached_iff.mpr ?_⟩
    · intro place
      -- A displaced item leaves its own index to one displaced before it.
      induction place using Nat.strongRecOn with
      | ind place ih =>
        intro item hlands hbound hpad
        by_contra hne
        have hlt : item.1 < place := Nat.lt_of_le_of_ne hlands.le.2 (Ne.symm hne)
        have hown := hread item.1 hbound
        rw [lookup_eq_of_mem hkeys hlands.mem] at hown
        by_cases hother : ∃ other, Lands 0 items item.1 other
        · obtain ⟨other, hother⟩ := hother
          have hvalue : other.2 = item.2 :=
            Option.some.inj ((getElem?_of_lands_zero hother).symm.trans hown)
          have hkey : item.1 = other.1 :=
            ih item.1 hlt other hother (Nat.le_trans hother.le.2 hbound) (by rwa [hvalue])
          obtain rfl : item = other :=
            List.inj_on_of_nodup_map hkeys hlands.mem hother.mem hkey
          exact hne (hlands.place_unique hnodup hother)
        · have hroom : item.1 < room 0 items := by
            have hlen := length_foldl_push pad [] items
            rw [List.length_nil] at hlen
            rw [← hlen]
            exact (List.getElem?_eq_some_iff.mp hown).1
          have hdefault := getElem?_of_not_lands_zero pad hroom fun other h => hother ⟨other, h⟩
          exact hpad (Option.some.inj (hown.symm.trans hdefault))
    · have hlast := (List.getElem?_eq_some_iff.mp (hread bound (Nat.le_refl bound))).1
      rwa [length_foldl_push] at hlast
  · rintro ⟨hplaced, hreached⟩ x hx
    have hown := placed_iff.mp hplaced
    have hroom : x < room 0 items := Nat.lt_of_le_of_lt hx (reached_iff.mp hreached)
    by_cases hdefault : lookup pad items x = pad
    · rw [hdefault]
      by_cases hlands : ∃ item, Lands 0 items x item
      · obtain ⟨item, hitem⟩ := hlands
        have hpad : item.2 = pad := by
          by_contra hne
          have hkey := hown x item hitem (Nat.le_trans hitem.le.2 hx) hne
          rw [hkey, lookup_eq_of_mem hkeys hitem.mem] at hdefault
          exact hne hdefault
        rw [getElem?_of_lands_zero hitem, hpad]
      · exact getElem?_of_not_lands_zero pad hroom fun item h => hlands ⟨item, h⟩
    · obtain ⟨item, hmem, rfl⟩ := exists_of_lookup_ne hdefault
      rw [lookup_eq_of_mem hkeys hmem] at hdefault ⊢
      obtain ⟨place, hlands⟩ := exists_lands (n := 0) hmem
      obtain rfl := hown place item hlands hx hdefault
      exact getElem?_of_lands_zero hlands

end Padding
