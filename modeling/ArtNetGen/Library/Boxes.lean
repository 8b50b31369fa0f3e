import Mathlib.Order.Bounds.Basic

/-!
Bounding boxes. A set of places with two coordinates has as its box the least
and the greatest values of both. A place is covered when it lies in the box, and
two sets have the same box when each covers the other.
-/

namespace Boxes

variable {ι α : Type*} [LinearOrder α] {x y : ι → α} {s t : Set ι} {a b : ι}

/-- The place `b` lies in the box of `s`. -/
structure Covers (x y : ι → α) (s : Set ι) (b : ι) : Prop where
  left : ∃ a ∈ s, x a ≤ x b
  below : ∃ a ∈ s, y a ≤ y b
  right : ∃ a ∈ s, x b ≤ x a
  above : ∃ a ∈ s, y b ≤ y a

structure IsBox (x y : ι → α) (s : Set ι) (lx ly ux uy : α) : Prop where
  left : IsLeast (x '' s) lx
  below : IsLeast (y '' s) ly
  right : IsGreatest (x '' s) ux
  above : IsGreatest (y '' s) uy

/-! ## Covering -/

theorem Covers.of_mem (h : b ∈ s) : Covers x y s b :=
  ⟨⟨b, h, le_rfl⟩, ⟨b, h, le_rfl⟩, ⟨b, h, le_rfl⟩, ⟨b, h, le_rfl⟩⟩

/-- Only where the places lie matters. -/
theorem Covers.congr {x' y' : ι → α} {b' : ι} (h : Covers x y s b)
    (hs : ∀ a ∈ s, ∃ a' ∈ t, x' a' = x a ∧ y' a' = y a) (hb : x' b' = x b ∧ y' b' = y b) :
    Covers x' y' t b' := by
  obtain ⟨⟨a, ha, hleft⟩, ⟨c, hc, hbelow⟩, ⟨d, hd, hright⟩, ⟨e, he, habove⟩⟩ := h
  obtain ⟨a', ha', hax, -⟩ := hs a ha
  obtain ⟨c', hc', -, hcy⟩ := hs c hc
  obtain ⟨d', hd', hdx, -⟩ := hs d hd
  obtain ⟨e', he', -, hey⟩ := hs e he
  rw [← hb.1, ← hax] at hleft
  rw [← hb.2, ← hcy] at hbelow
  rw [← hb.1, ← hdx] at hright
  rw [← hb.2, ← hey] at habove
  exact ⟨⟨a', ha', hleft⟩, ⟨c', hc', hbelow⟩, ⟨d', hd', hright⟩, ⟨e', he', habove⟩⟩

/-- A place that lies where a member of the set does. -/
theorem Covers.of_same (ha : a ∈ s) (hx : x a = x b) (hy : y a = y b) : Covers x y s b :=
  ⟨⟨a, ha, hx.le⟩, ⟨a, ha, hy.le⟩, ⟨a, ha, hx.ge⟩, ⟨a, ha, hy.ge⟩⟩

/-- A set that lies in one point covers that point only. -/
theorem covers_point_iff (hs : ∀ c ∈ s, x c = x a ∧ y c = y a) (ha : a ∈ s) :
    Covers x y s b ↔ x b = x a ∧ y b = y a := by
  constructor
  · rintro ⟨⟨c, hc, hleft⟩, ⟨d, hd, hbelow⟩, ⟨e, he, hright⟩, ⟨f, hf, habove⟩⟩
    rw [(hs c hc).1] at hleft
    rw [(hs d hd).2] at hbelow
    rw [(hs e he).1] at hright
    rw [(hs f hf).2] at habove
    exact ⟨le_antisymm hright hleft, le_antisymm habove hbelow⟩
  · rintro ⟨hx, hy⟩
    exact .of_same ha hx.symm hy.symm

/-! ## Boxes -/

theorem isBox_singleton (a : ι) : IsBox x y {a} (x a) (y a) (x a) (y a) := by
  constructor <;> rw [Set.image_singleton]
  · exact isLeast_singleton
  · exact isLeast_singleton
  · exact isGreatest_singleton
  · exact isGreatest_singleton

/-- A box grows by a place. -/
theorem IsBox.insert {lx ly ux uy : α} (h : IsBox x y s lx ly ux uy) (a : ι) :
    IsBox x y (insert a s) (min (x a) lx) (min (y a) ly) (max (x a) ux) (max (y a) uy) := by
  constructor <;> rw [Set.image_insert_eq]
  · exact h.left.insert (x a)
  · exact h.below.insert (y a)
  · exact h.right.insert (x a)
  · exact h.above.insert (y a)

theorem isLeast_image_iff {f : ι → α} {l : α} (h : IsLeast (f '' s) l) :
    IsLeast (f '' t) l ↔
      (∀ b ∈ t, ∃ a ∈ s, f a ≤ f b) ∧ ∀ b ∈ s, ∃ a ∈ t, f a ≤ f b := by
  obtain ⟨⟨a, ha, rfl⟩, hleast⟩ := h
  have hall : ∀ b ∈ s, f a ≤ f b := fun b hb => hleast (Set.mem_image_of_mem f hb)
  constructor
  · rintro ⟨⟨a', ha', heq⟩, hleast'⟩
    have hall' : ∀ b ∈ t, f a ≤ f b := fun b hb => hleast' (Set.mem_image_of_mem f hb)
    exact ⟨fun b hb => ⟨a, ha, hall' b hb⟩, fun b hb => ⟨a', ha', heq.trans_le (hall b hb)⟩⟩
  · rintro ⟨hfrom, hto⟩
    have hall' : ∀ b ∈ t, f a ≤ f b := fun b hb => by
      obtain ⟨c, hc, hle⟩ := hfrom b hb
      exact (hall c hc).trans hle
    obtain ⟨a', ha', hle⟩ := hto a ha
    refine ⟨⟨a', ha', le_antisymm hle (hall' a' ha')⟩, ?_⟩
    rintro _ ⟨b, hb, rfl⟩
    exact hall' b hb

theorem isGreatest_image_iff {f : ι → α} {u : α} (h : IsGreatest (f '' s) u) :
    IsGreatest (f '' t) u ↔
      (∀ b ∈ t, ∃ a ∈ s, f b ≤ f a) ∧ ∀ b ∈ s, ∃ a ∈ t, f b ≤ f a :=
  @isLeast_image_iff ι αᵒᵈ _ s t f u h

/-- The box of `s` is the box of `t` exactly when each set covers the other. -/
theorem IsBox.iff {lx ly ux uy : α} (h : IsBox x y s lx ly ux uy) :
    IsBox x y t lx ly ux uy ↔ (∀ b ∈ t, Covers x y s b) ∧ ∀ b ∈ s, Covers x y t b := by
  have hleft := @isLeast_image_iff _ _ _ s t x lx h.left
  have hbelow := @isLeast_image_iff _ _ _ s t y ly h.below
  have hright := @isGreatest_image_iff _ _ _ s t x ux h.right
  have habove := @isGreatest_image_iff _ _ _ s t y uy h.above
  constructor
  · intro hbox
    obtain ⟨hleft1, hleft2⟩ := hleft.mp hbox.left
    obtain ⟨hbelow1, hbelow2⟩ := hbelow.mp hbox.below
    obtain ⟨hright1, hright2⟩ := hright.mp hbox.right
    obtain ⟨habove1, habove2⟩ := habove.mp hbox.above
    exact ⟨fun b hb => ⟨hleft1 b hb, hbelow1 b hb, hright1 b hb, habove1 b hb⟩,
      fun b hb => ⟨hleft2 b hb, hbelow2 b hb, hright2 b hb, habove2 b hb⟩⟩
  · rintro ⟨hto, hfrom⟩
    exact ⟨hleft.mpr ⟨fun b hb => (hto b hb).left, fun b hb => (hfrom b hb).left⟩,
      hbelow.mpr ⟨fun b hb => (hto b hb).below, fun b hb => (hfrom b hb).below⟩,
      hright.mpr ⟨fun b hb => (hto b hb).right, fun b hb => (hfrom b hb).right⟩,
      habove.mpr ⟨fun b hb => (hto b hb).above, fun b hb => (hfrom b hb).above⟩⟩

/-- Only the coordinates on the set matter. -/
theorem IsBox.congr {x' y' : ι → α} {lx ly ux uy : α} (h : IsBox x y s lx ly ux uy)
    (hx : ∀ a ∈ s, x' a = x a) (hy : ∀ a ∈ s, y' a = y a) : IsBox x' y' s lx ly ux uy := by
  constructor
  · rw [Set.image_congr hx]
    exact h.left
  · rw [Set.image_congr hy]
    exact h.below
  · rw [Set.image_congr hx]
    exact h.right
  · rw [Set.image_congr hy]
    exact h.above

end Boxes
