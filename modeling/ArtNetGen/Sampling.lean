import ArtNetGen.Distribution
import ArtNetGen.Library.Cumulative

/-!
`Distribution::sample`, which draws a value by how far it is below its target.
The loop lays the half-open intervals `lb[x]..ub[x]` end to end, one for each
value and as long as its deficit. The number drawn is then looked up by
`std::lower_bound`, which finds the interval of the number before it.
-/

namespace Artnetgen

namespace Distribution

open Cumulative

/-- The local variables of `sample` in its loop. -/
structure SampleBounds where
  lb : List ℤ := []
  ub : List ℤ := []
  maxRand : ℤ := 0

/-- One turn of the loop. The vectors grow here instead of being filled with
zeros first. -/
def pushBound (d : Distribution) (b : SampleBounds) (x : ℕ) : Option SampleBounds := do
  let dY ← d.delta x
  let dY : ℤ := if dY < 0 then dY.natAbs else 0
  let lb ← (if x = 0 then some 0 else b.ub[x - 1]?)
  let ub := lb + dY
  return { lb := b.lb ++ [lb], ub := b.ub ++ [ub], maxRand := max b.maxRand ub }

/-- `max_ + 1`, the number of values the loop goes over. -/
def numValues (d : Distribution) : ℕ := (d.xMax + 1).toNat

def sampleBounds (d : Distribution) : Option SampleBounds :=
  (List.range d.numValues).foldlM d.pushBound {}

/-- `std::lower_bound` on a sorted vector: the position of the first entry that
is not less than `v`, or the end. -/
def lowerBound (l : List ℤ) (v : ℤ) : ℕ := l.findIdx fun a => v ≤ a

/-- `Distribution::sample`, given what `rand` returns. The remainder by a
`maxRand` of 0 is undefined. -/
def sample (d : Distribution) (rand : ℕ) : Option ℕ := do
  let b ← d.sampleBounds
  if b.maxRand = 0 then none else
  let rv := (rand : ℤ) % b.maxRand
  return lowerBound b.ub rv

/-- How many items are missing at `x`. -/
def deficit (d : Distribution) (x : ℕ) : ℕ :=
  ((d.info[x]?).map fun info => (info.target - info.count).toNat).getD 0

/-- How many items are missing in all. -/
def missing (d : Distribution) : ℕ := below d.deficit d.numValues

/-- There is an entry for every value up to the largest. -/
def Complete (d : Distribution) : Prop := d.numValues ≤ d.info.length

instance (d : Distribution) : Decidable d.Complete :=
  inferInstanceAs (Decidable (d.numValues ≤ d.info.length))

/-- Every value is drawn by as many of the numbers below `maxRand` as items are
missing there, and never when none is. -/
def Proportional (d : Distribution) : Prop :=
  ∃ b, d.sampleBounds = some b ∧ 0 < b.maxRand ∧
    (∀ x : ℕ, (x : ℤ) ≤ d.xMax →
      ((Finset.range b.maxRand.toNat).filter fun rv => d.sample rv = some x).card =
        d.deficit x) ∧
    ∀ x : ℕ, d.deficit x = 0 → ∀ rand, d.sample rand ≠ some x

variable {d : Distribution} {x n : ℕ}

theorem lt_numValues : x < d.numValues ↔ (x : ℤ) ≤ d.xMax := by
  unfold numValues
  omega

/-- Every table that `init` fills is complete. -/
theorem init_complete {d' : Distribution} {min max totalCnt : ℤ} {info : List DistributionInfo}
    (h : d.init min max totalCnt info = some d') : d'.Complete := by
  simp only [init, Option.bind_eq_bind, Option.bind_eq_some_iff] at h
  obtain ⟨⟨entries, tot⟩, hfold, entries', hentries, heq⟩ := h
  obtain ⟨rest, hrest, hlen, -⟩ := foldlM_pushBucket hfold
  have hlength := congrArg List.length (setFrontCount_target hentries)
  simp only [Option.pure_def, Option.some.injEq] at heq
  subst heq
  rw [List.length_map, List.length_map, hrest, List.length_append, hlen,
    List.length_range] at hlength
  unfold Complete numValues
  dsimp only
  omega

theorem SameTargets.complete {d' : Distribution} (h : SameTargets d d') (hd : d.Complete) :
    d'.Complete := by
  unfold Complete numValues
  rw [h.xMax, h.length]
  exact hd

/-! ## The intervals -/

theorem deficit_of_delta {dY : ℤ} (h : d.delta x = some dY) :
    (d.deficit x : ℤ) = if dY < 0 then (dY.natAbs : ℤ) else 0 := by
  unfold delta at h
  obtain ⟨info, hinfo, rfl⟩ := Option.map_eq_some_iff.mp h
  unfold deficit
  rw [hinfo, Option.map_some, Option.getD_some]
  split <;> omega

/-- Where `n` entries can be read, the loop lays out their deficits. -/
theorem foldlM_pushBound (hn : n ≤ d.info.length) :
    (List.range n).foldlM d.pushBound {} = some
      { lb := (List.range n).map fun x => (below d.deficit x : ℤ)
        ub := (List.range n).map fun x => (below d.deficit (x + 1) : ℤ)
        maxRand := below d.deficit n } := by
  induction n with
  | zero => rfl
  | succ n ih =>
      obtain ⟨dY, hdY⟩ := delta_isDefined (show n < d.info.length from hn)
      have hdeficit := deficit_of_delta hdY
      have hsum : (below d.deficit (n + 1) : ℤ) = below d.deficit n + d.deficit n := by
        rw [below_succ]
        exact Int.natCast_add _ _
      have hlb : (if n = 0 then some (0 : ℤ) else
          ((List.range n).map fun x => (below d.deficit (x + 1) : ℤ))[n - 1]?) =
            some (below d.deficit n : ℤ) := by
        cases n with
        | zero => simp [below_zero]
        | succ n => simp
      rw [List.range_succ, Loop.foldlM_append_eq_some]
      refine ⟨_, ih (Nat.le_of_succ_le hn), ?_⟩
      rw [Loop.foldlM_cons_eq_some]
      refine ⟨_, ?_, rfl⟩
      simp only [pushBound, hdY, Option.bind_eq_bind, Option.bind_some, hlb, ← hdeficit, ← hsum,
        List.map_append, List.map_singleton, Option.pure_def]
      rw [max_eq_right]
      exact_mod_cast below_mono d.deficit (Nat.le_succ n)

theorem sampleBounds_eq (h : d.Complete) :
    d.sampleBounds = some
      { lb := (List.range d.numValues).map fun x => (below d.deficit x : ℤ)
        ub := (List.range d.numValues).map fun x => (below d.deficit (x + 1) : ℤ)
        maxRand := d.missing } :=
  foldlM_pushBound h

theorem sampleBounds_complete {b : SampleBounds} (h : d.sampleBounds = some b) :
    d.Complete := by
  unfold Complete
  by_contra hlt
  have hmem : d.info.length ∈ List.range d.numValues :=
    List.mem_range.mpr (Nat.lt_of_not_le hlt)
  obtain ⟨mid, mid', hstep⟩ := Loop.exists_step h hmem
  simp only [pushBound, delta, Option.bind_eq_bind, Option.bind_eq_some_iff] at hstep
  obtain ⟨dY, hdY, -⟩ := hstep
  rw [List.getElem?_eq_none le_rfl, Option.map_none] at hdY
  cases hdY

/-- The vector that `std::lower_bound` searches is sorted. -/
theorem sampleBounds_sorted {b : SampleBounds} (h : d.sampleBounds = some b) :
    b.ub.Pairwise (· ≤ ·) := by
  obtain rfl := Option.some.inj ((sampleBounds_eq (sampleBounds_complete h)).symm.trans h)
  apply List.pairwise_map.mpr
  apply List.pairwise_lt_range.imp
  intro x y hlt
  exact_mod_cast below_mono d.deficit (Nat.succ_le_succ hlt.le)

theorem lowerBound_eq_reaching (w : ℕ → ℕ) (n v : ℕ) :
    lowerBound ((List.range n).map fun x => (below w (x + 1) : ℤ)) v = reaching w n v := by
  unfold lowerBound reaching
  rw [List.findIdx_map]
  congr 1
  funext x
  simp

theorem sample_eq (h : d.Complete) (hpos : 0 < d.missing) (rand : ℕ) :
    d.sample rand = some (reaching d.deficit d.numValues (rand % d.missing)) := by
  have hne : (d.missing : ℤ) ≠ 0 := by omega
  unfold sample
  rw [sampleBounds_eq h, Option.bind_eq_bind, Option.bind_some, if_neg hne, ← Int.natCast_emod]
  exact congrArg some (lowerBound_eq_reaching d.deficit d.numValues (rand % d.missing))

/-- A table that lacks items at some value gives `rand` a range. -/
theorem missing_pos (hbelow : ∃ x : ℕ, (x : ℤ) ≤ d.xMax ∧ 0 < d.deficit x) : 0 < d.missing := by
  obtain ⟨x, hx, hdeficit⟩ := hbelow
  exact below_pos_of_weight (lt_numValues.mpr hx) hdeficit

/-- Whatever is missing, the number 0 draws the value 0. -/
theorem sample_zero {b : SampleBounds} (hb : d.sampleBounds = some b) (hpos : 0 < b.maxRand) :
    d.sample 0 = some 0 := by
  have h := sampleBounds_complete hb
  obtain rfl := Option.some.inj ((sampleBounds_eq h).symm.trans hb)
  rw [sample_eq h (Int.natCast_pos.mp hpos), Nat.zero_mod, reaching_zero]

theorem card_sample_eq (h : d.Complete) (hpos : 0 < d.missing) (x : ℕ) :
    ((Finset.range d.missing).filter fun rv => d.sample rv = some x).card =
      ((Finset.range (below d.deficit d.numValues)).filter fun rv =>
        reaching d.deficit d.numValues rv = x).card := by
  apply congrArg Finset.card
  apply Finset.filter_congr
  intro rv hrv
  rw [sample_eq h hpos, Nat.mod_eq_of_lt (Finset.mem_range.mp hrv), Option.some.injEq]

/-- What every value gets: 0 gets one number more than items are missing, and
the last value at which items are missing gets one less. -/
theorem card_sample (h : d.Complete) (hbelow : ∃ x : ℕ, (x : ℤ) ≤ d.xMax ∧ 0 < d.deficit x) :
    ∃ last, IsGreatest {x : ℕ | (x : ℤ) ≤ d.xMax ∧ 0 < d.deficit x} last ∧
      ∀ x : ℕ, (x : ℤ) ≤ d.xMax →
        ((Finset.range d.missing).filter fun rv => d.sample rv = some x).card +
            (if last = x then 1 else 0) = d.deficit x + if x = 0 then 1 else 0 := by
  have hpos := missing_pos hbelow
  obtain ⟨m, hm⟩ : ∃ m, d.missing = m + 1 := ⟨d.missing - 1, by omega⟩
  refine ⟨owner d.deficit d.numValues m, ?_, ?_⟩
  · simpa only [lt_numValues] using owner_last hm
  · intro x hx
    rw [card_sample_eq h hpos]
    exact card_reaching hm (lt_numValues.mpr hx)

/-- Drawing in proportion is a matter of the numbers below `missing` alone: a
value that has none of them is not drawn at all. -/
theorem proportional_iff_card (h : d.Complete) (hpos : 0 < d.missing) :
    d.Proportional ↔ ∀ x < d.numValues,
      ((Finset.range (below d.deficit d.numValues)).filter fun rv =>
        reaching d.deficit d.numValues rv = x).card = d.deficit x := by
  constructor
  · rintro ⟨b, hb, -, hcard, -⟩ x hx
    obtain rfl := Option.some.inj ((sampleBounds_eq h).symm.trans hb)
    rw [← card_sample_eq h hpos]
    exact hcard x (lt_numValues.mp hx)
  · intro hcard
    refine ⟨_, sampleBounds_eq h, Int.natCast_pos.mpr hpos, ?_, ?_⟩
    · intro x hx
      dsimp only
      rw [Int.toNat_natCast, card_sample_eq h hpos]
      exact hcard x (lt_numValues.mpr hx)
    · intro x hx rand hrand
      rw [sample_eq h hpos, Option.some.injEq] at hrand
      have hlt := Nat.mod_lt rand hpos
      have hempty := hcard x (hrand ▸ reaching_lt hlt)
      rw [hx, Finset.card_eq_zero, Finset.filter_eq_empty_iff] at hempty
      exact hempty (Finset.mem_range.mpr hlt) hrand

/-- Where a value is below its target, `sample` draws in proportion exactly when
no value but 0 is. -/
theorem proportional_iff (d : Distribution)
    (hbelow : ∃ x : ℕ, (x : ℤ) ≤ d.xMax ∧ 0 < d.deficit x) :
    d.Proportional ↔
      d.Complete ∧ ∀ x : ℕ, 0 < x → (x : ℤ) ≤ d.xMax → d.deficit x = 0 := by
  have hpos := missing_pos hbelow
  have hiff := card_reaching_eq_iff hpos
  constructor
  · intro hprop
    obtain ⟨b, hb, -⟩ := id hprop
    have h := sampleBounds_complete hb
    have hcard := (proportional_iff_card h hpos).mp hprop
    exact ⟨h, fun x hxpos hx => hiff.mp hcard x (lt_numValues.mpr hx) hxpos⟩
  · rintro ⟨h, hnone⟩
    apply (proportional_iff_card h hpos).mpr
    apply hiff.mpr
    intro x hx hxpos
    exact hnone x hxpos (lt_numValues.mp hx)

/-! Two items that are to be spread over the values 0 and 1. -/

/-- Both start at 0. -/
def evenTable : Distribution :=
  (init {} 0 1 2 [⟨0, 0, 0, 1 / 2⟩, ⟨1, 0, 0, 1 / 2⟩]).get (by decide +kernel)

/-- Both have gone to 1. -/
def movedTable : Distribution :=
  ((evenTable.addCount 0 (-2)).bind fun d => d.addCount 1 2).get (by decide +kernel)

theorem proportional_iff_moved : movedTable.Proportional := by
  apply (proportional_iff movedTable ⟨0, by decide +kernel, by decide +kernel⟩).mpr
  refine ⟨by decide +kernel, fun x hxpos hx => ?_⟩
  have hmax : movedTable.xMax = 1 := by decide +kernel
  obtain rfl : x = 1 := by omega
  decide +kernel

/-- Only 1 is below its target, but 0 is all that `sample` returns. -/
theorem evenTable_misdraws :
    init {} 0 1 2 [⟨0, 0, 0, 1 / 2⟩, ⟨1, 0, 0, 1 / 2⟩] = some evenTable ∧
      (∃ x : ℕ, (x : ℤ) ≤ evenTable.xMax ∧ 0 < evenTable.deficit x) ∧
      evenTable.deficit 0 = 0 ∧ (∀ rand, evenTable.sample rand = some 0) ∧
      ¬ evenTable.Proportional := by
  have hbelow : ∃ x : ℕ, (x : ℤ) ≤ evenTable.xMax ∧ 0 < evenTable.deficit x :=
    ⟨1, by decide +kernel, by decide +kernel⟩
  have hzero : evenTable.deficit 0 = 0 := by decide +kernel
  have hone : evenTable.missing = 1 := by decide +kernel
  have hall : ∀ rand, evenTable.sample rand = some 0 := by
    intro rand
    rw [sample_eq (by decide +kernel) (missing_pos hbelow), hone, Nat.mod_one, reaching_zero]
  refine ⟨(Option.some_get _).symm, hbelow, hzero, hall, ?_⟩
  rintro ⟨-, -, -, -, hnever⟩
  exact hnever 0 hzero 0 (hall 0)

end Distribution

end Artnetgen
