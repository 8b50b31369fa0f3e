import ArtNetGen.Spec
import ArtNetGen.Library.Padding

/-!
Which histogram lines `Distribution::init` reads back. The lines are padded
and appended to a vector that the bucket loop then indexes with the values up
to `max`, so what it finds depends on the order of the lines and on how far
they reach.
-/

namespace Artnetgen

/-- A line as the item that `init` pushes. -/
def DistributionInfo.item (line : DistributionInfo) : ℕ × ℚ := (line.value, line.ratio)

/-- The ratio the lines give to a value, and 0 for a value without a line. -/
def ratioOf (lines : List DistributionInfo) (value : ℕ) : ℚ :=
  ((lines.find? fun line => line.value = value).map (·.ratio)).getD 0

def totalRatio (lines : List DistributionInfo) : ℚ := (lines.map (·.ratio)).sum

/-- The lines reach `max`, and every line in `0..max` with weight has a value
that exceeds the value of each earlier line by more than the number of lines
between the two. -/
structure Ascending (max : ℕ) (lines : List DistributionInfo) : Prop where
  placed : ∀ before earlier between line back,
    lines = before ++ earlier :: between ++ line :: back →
      line.value ≤ max → line.ratio ≠ 0 → earlier.value + between.length < line.value
  reached : ∃ front line back, lines = front ++ line :: back ∧ max ≤ line.value + back.length

theorem ascending_iff {max : ℕ} {lines : List DistributionInfo} :
    Ascending max lines ↔ Padding.InPlace 0 max (lines.map DistributionInfo.item) := by
  constructor
  · rintro ⟨hplaced, hreached⟩
    refine ⟨fun before earlier between item back heq hle hne => ?_, ?_⟩
    · obtain ⟨front, back', rfl, hfront, hback⟩ := List.map_eq_append_iff.mp heq
      obtain ⟨before', rest, rfl, -, hrest⟩ := List.map_eq_append_iff.mp hfront
      obtain ⟨earlier', between', rfl, rfl, rfl⟩ := List.map_eq_cons_iff.mp hrest
      obtain ⟨line, back'', rfl, rfl, -⟩ := List.map_eq_cons_iff.mp hback
      rw [List.length_map]
      exact hplaced before' earlier' between' line back'' rfl hle hne
    · obtain ⟨front, line, back, rfl, hle⟩ := hreached
      exact ⟨_, line.item, _, by rw [List.map_append, List.map_cons], by rwa [List.length_map]⟩
  · rintro ⟨hplaced, front, item, back, heq, hle⟩
    refine ⟨fun before earlier between line back heq hle hne => ?_, ?_⟩
    · have h := hplaced (before.map DistributionInfo.item) earlier.item
        (between.map DistributionInfo.item) line.item (back.map DistributionInfo.item)
        (by rw [heq]; simp) hle hne
      rwa [List.length_map] at h
    · obtain ⟨front', rest, rfl, -, hrest⟩ := List.map_eq_append_iff.mp heq
      obtain ⟨line, back', rfl, rfl, rfl⟩ := List.map_eq_cons_iff.mp hrest
      exact ⟨front', line, back', rfl, by rwa [List.length_map] at hle⟩

theorem lookup_item (lines : List DistributionInfo) (value : ℕ) :
    Padding.lookup 0 (lines.map DistributionInfo.item) value = ratioOf lines value := by
  unfold Padding.lookup
  rw [ratioOf, List.find?_map, Option.map_map]
  rfl

namespace Distribution

theorem foldl_pushRatio (lines : List DistributionInfo) (tr : List ℚ) :
    lines.foldl pushRatio tr =
      (lines.map DistributionInfo.item).foldl (Padding.push 0) tr := by
  rw [List.foldl_map]
  rfl

theorem pushBucket_entry {tr : List ℚ} {totalTarRatio : ℚ} {totalCnt : ℤ} {value : ℕ}
    {s s' : List DistributionInfo × ℤ}
    (h : pushBucket tr totalTarRatio totalCnt s value = some s') :
    ∃ r info, tr[value]? = some r ∧ s'.1 = s.1 ++ [info] ∧ info.value = value ∧
      info.ratio = r / totalTarRatio := by
  simp only [pushBucket, Option.bind_eq_bind, Option.bind_eq_some_iff] at h
  obtain ⟨r, hr, h⟩ := h
  split at h
  · cases h
  · simp only [Option.pure_def, Option.some.injEq] at h
    subst h
    exact ⟨r, _, hr, rfl, rfl, rfl⟩

/-- A bucket is made exactly when its value has an element of `tr`. -/
theorem pushBucket_isDefined_iff {tr : List ℚ} {totalTarRatio : ℚ} (htot : totalTarRatio ≠ 0)
    (totalCnt : ℤ) (s : List DistributionInfo × ℤ) (value : ℕ) :
    (∃ s', pushBucket tr totalTarRatio totalCnt s value = some s') ↔ value < tr.length := by
  constructor
  · rintro ⟨s', h⟩
    obtain ⟨r, info, hr, -⟩ := pushBucket_entry h
    exact (List.getElem?_eq_some_iff.mp hr).1
  · intro hlt
    simp [pushBucket, List.getElem?_eq_getElem hlt, htot]

/-- The bucket loop reads every value, and its entries carry the values in
order with their shares. -/
theorem foldlM_pushBucket_entries {tr : List ℚ} {totalTarRatio : ℚ} {totalCnt : ℤ}
    {values : List ℕ} {s s' : List DistributionInfo × ℤ}
    (h : values.foldlM (pushBucket tr totalTarRatio totalCnt) s = some s') :
    (∀ value ∈ values, value < tr.length) ∧
      s'.1.map (fun info => (info.value, info.ratio)) =
        s.1.map (fun info => (info.value, info.ratio)) ++
          values.map fun value => (value, tr.getD value 0 / totalTarRatio) := by
  induction values generalizing s with
  | nil =>
      obtain rfl : s = s' := by simpa using h
      simp
  | cons value values ih =>
      obtain ⟨mid, hmid, hrest⟩ := Loop.foldlM_cons_eq_some.mp h
      obtain ⟨r, info, hr, hinfo, hvalue, hratio⟩ := pushBucket_entry hmid
      obtain ⟨hlt, heq⟩ := ih hrest
      refine ⟨List.forall_mem_cons.mpr ⟨(List.getElem?_eq_some_iff.mp hr).1, hlt⟩, ?_⟩
      rw [heq, hinfo, List.map_append, List.append_assoc]
      simp [hvalue, hratio, hr]

theorem foldlM_pushBucket_isDefined {tr : List ℚ} {totalTarRatio : ℚ}
    (htot : totalTarRatio ≠ 0) (totalCnt : ℤ) {values : List ℕ} (s : List DistributionInfo × ℤ)
    (h : ∀ value ∈ values, value < tr.length) :
    ∃ s', values.foldlM (pushBucket tr totalTarRatio totalCnt) s = some s' := by
  obtain ⟨s', hs', -⟩ := Loop.isDefined (fun _ => True) (s := s) (fun value hvalue s _ => by
    obtain ⟨s', hs'⟩ := (pushBucket_isDefined_iff htot totalCnt s value).mpr (h value hvalue)
    exact ⟨s', hs', trivial⟩) trivial
  exact ⟨s', hs'⟩

theorem setFrontCount_entries {totalCnt : ℤ} {entries entries' : List DistributionInfo}
    (h : setFrontCount totalCnt entries = some entries') :
    entries'.map (fun info => (info.value, info.ratio)) =
      entries.map fun info => (info.value, info.ratio) := by
  cases entries with
  | nil =>
      simp only [setFrontCount] at h
      split at h
      · cases h
      · simp only [Option.some.injEq] at h
        rw [← h]
  | cons front rest =>
      simp only [setFrontCount] at h
      split at h <;> simp only [Option.some.injEq] at h <;> subst h <;> rfl

theorem setFrontCount_isDefined (totalCnt : ℤ) {entries : List DistributionInfo}
    (h : entries ≠ []) : ∃ entries', setFrontCount totalCnt entries = some entries' := by
  cases entries with
  | nil => exact absurd rfl h
  | cons front rest =>
      simp only [setFrontCount]
      split <;> exact ⟨_, rfl⟩

/-- What `init` appends to a table: one entry for each value up to `max`, in
order, with its share of the weight. -/
theorem init_entries {d d' : Distribution} {min max totalCnt : ℤ}
    {lines : List DistributionInfo} (h : d.init min max totalCnt lines = some d') :
    d'.info.map (fun info => (info.value, info.ratio)) =
      d.info.map (fun info => (info.value, info.ratio)) ++
        (List.range (max + 1).toNat).map fun value =>
          (value, (lines.foldl pushRatio []).getD value 0 / totalRatio lines) := by
  simp only [init, Option.bind_eq_bind, Option.bind_eq_some_iff] at h
  obtain ⟨⟨entries, tot⟩, hfold, entries', hentries, heq⟩ := h
  simp only [Option.pure_def, Option.some.injEq] at heq
  subst heq
  rw [setFrontCount_entries hentries]
  exact (foldlM_pushBucket_entries hfold).2

theorem init_values {d d' : Distribution} {min max totalCnt : ℤ}
    {lines : List DistributionInfo} (h : d.init min max totalCnt lines = some d') :
    d'.info.map (·.value) = d.info.map (·.value) ++ List.range (max + 1).toNat := by
  have heq := congrArg (List.map Prod.fst) (init_entries h)
  simpa [Function.comp_def] using heq

theorem init_length {d d' : Distribution} {min max totalCnt : ℤ}
    {lines : List DistributionInfo} (h : d.init min max totalCnt lines = some d') :
    d'.info.length = d.info.length + (max + 1).toNat := by
  have heq := congrArg List.length (init_values h)
  simpa using heq

theorem init_xMax {d d' : Distribution} {min max totalCnt : ℤ}
    {lines : List DistributionInfo} (h : d.init min max totalCnt lines = some d') :
    d'.xMax = max := by
  simp only [init, Option.bind_eq_bind, Option.bind_eq_some_iff, Option.pure_def,
    Option.some.injEq] at h
  obtain ⟨-, -, -, -, rfl⟩ := h
  rfl

theorem init_totalCnt {d d' : Distribution} {min max totalCnt : ℤ}
    {lines : List DistributionInfo} (h : d.init min max totalCnt lines = some d') :
    d'.totalCnt = totalCnt := by
  simp only [init, Option.bind_eq_bind, Option.bind_eq_some_iff, Option.pure_def,
    Option.some.injEq] at h
  obtain ⟨-, -, -, -, rfl⟩ := h
  rfl

/-- An empty table keeps nothing of the earlier state. -/
theorem init_of_empty {d : Distribution} (hd : d.info = []) (min max totalCnt : ℤ)
    (lines : List DistributionInfo) :
    d.init min max totalCnt lines = Distribution.init {} min max totalCnt lines := by
  simp only [init, hd]

/-- `init` reads `tr` in bounds exactly when the values up to `max` are in
`tr`. -/
theorem init_isDefined_iff {lines : List DistributionInfo} (htot : totalRatio lines ≠ 0)
    (d : Distribution) (min totalCnt : ℤ) (max : ℕ) :
    (∃ d', d.init min max totalCnt lines = some d') ↔
      max < (lines.foldl pushRatio []).length := by
  have hrange : ((max : ℤ) + 1).toNat = max + 1 := by omega
  simp only [init, Option.bind_eq_bind, Option.bind_eq_some_iff, hrange]
  constructor
  · rintro ⟨d', ⟨entries, tot⟩, hfold, -⟩
    exact (foldlM_pushBucket_entries hfold).1 max List.self_mem_range_succ
  · intro hlt
    have hvalues : ∀ value ∈ List.range (max + 1), value < (lines.foldl pushRatio []).length :=
      fun value hvalue => Nat.lt_of_le_of_lt (Nat.le_of_lt_succ (List.mem_range.mp hvalue)) hlt
    obtain ⟨s', hs'⟩ := foldlM_pushBucket_isDefined htot totalCnt (d.info, 0) hvalues
    have hne : s'.1 ≠ [] := by
      intro hnil
      have hlen := congrArg List.length (foldlM_pushBucket_entries hs').2
      simp [hnil] at hlen
    obtain ⟨entries', hentries⟩ := setFrontCount_isDefined totalCnt hne
    exact ⟨_, s', hs', entries', hentries, rfl⟩

/-- The shares are those of the lines, and no read of `tr` is out of range, if
and only if the lines ascend and reach `max`. -/
theorem init_ratio_iff (lines : List DistributionInfo)
    (hvalues : (lines.map (·.value)).Nodup) (htot : totalRatio lines ≠ 0)
    (min totalCnt : ℤ) (max : ℕ) :
    (∃ d, Distribution.init {} min max totalCnt lines = some d ∧ ∀ value ≤ max,
        (d.info[value]?).map (·.ratio) = some (ratioOf lines value / totalRatio lines)) ↔
      Ascending max lines := by
  have hkeys : ((lines.map DistributionInfo.item).map Prod.fst).Nodup := by
    rw [List.map_map]
    exact hvalues
  have hentry : ∀ d, Distribution.init {} min max totalCnt lines = some d →
      ∀ value ≤ max, (d.info[value]?).map (·.ratio) =
        some ((lines.foldl pushRatio []).getD value 0 / totalRatio lines) := by
    intro d hd value hvalue
    have heq := congrArg (fun entries => (entries[value]?).map Prod.snd) (init_entries hd)
    have hrange : ((max : ℤ) + 1).toNat = max + 1 := by omega
    have hlt : value < max + 1 := Nat.lt_succ_of_le hvalue
    simpa [hrange, hlt, Function.comp_def] using heq
  rw [ascending_iff, ← Padding.foldl_push_eq_lookup_iff hkeys, ← foldl_pushRatio]
  simp only [lookup_item]
  constructor
  · rintro ⟨d, hd, hratio⟩ value hvalue
    have hlast := (init_isDefined_iff htot {} min totalCnt max).mp ⟨d, hd⟩
    have hlt : value < (lines.foldl pushRatio []).length := Nat.lt_of_le_of_lt hvalue hlast
    have heq := (hentry d hd value hvalue).symm.trans (hratio value hvalue)
    rw [Option.some.injEq, div_left_inj' htot, List.getD_eq_getElem?_getD, List.getElem?_eq_getElem hlt,
      Option.getD_some] at heq
    rw [List.getElem?_eq_getElem hlt, heq]
  · intro hread
    obtain ⟨d, hd⟩ := (init_isDefined_iff htot {} min totalCnt max).mpr
      (List.getElem?_eq_some_iff.mp (hread max (Nat.le_refl max))).1
    refine ⟨d, hd, fun value hvalue => ?_⟩
    rw [hentry d hd value hvalue, List.getD_eq_getElem?_getD, hread value hvalue]
    rfl

theorem init_ratio_iff_even :
    Ascending 1 [⟨0, 2, 0, 1 / 2⟩, ⟨1, 2, 0, 1 / 2⟩] :=
  (init_ratio_iff [⟨0, 2, 0, 1 / 2⟩, ⟨1, 2, 0, 1 / 2⟩] (by decide) (by decide +kernel) 0 4 1).mp
    ⟨(Distribution.init {} 0 1 4 [⟨0, 2, 0, 1 / 2⟩, ⟨1, 2, 0, 1 / 2⟩]).get (by decide +kernel),
      (Option.some_get _).symm, by decide +kernel⟩

end Distribution

/-! Two `FANIN` lines with the larger value first: the second line lands behind
the table and value 0 keeps its padding. -/

def turnedSpec : List SpecLine :=
  [.fanin 1 2 (1 / 2), .fanin 0 2 (1 / 2), .fanout 0 2 (1 / 2), .fanout 1 2 (1 / 2),
    .netbbox 0 4 1, .window 0 2 1]

def turnedAng : ArtNetGen :=
  (ArtNetGen.readSpec { libs := [] } turnedSpec).get (by decide +kernel)

theorem turnedSpec_misread :
    ArtNetGen.readSpec { libs := [] } turnedSpec = some turnedAng ∧
      (turnedAng.fanIns.map (·.value)).Nodup ∧
      (turnedAng.fiDist.info[0]?).map (·.ratio) = some 0 ∧
      ratioOf turnedAng.fanIns 0 / totalRatio turnedAng.fanIns = 1 / 2 :=
  ⟨(Option.some_get _).symm, by decide +kernel, by decide +kernel, by decide +kernel⟩

end Artnetgen
