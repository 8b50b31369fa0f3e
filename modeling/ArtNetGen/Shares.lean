import ArtNetGen.CreateSpec
import Mathlib.Data.List.GetD

/-!
The distributions that are dealt out by the ceiling rule: the tables that
`Distribution::init` fills and the samples drawn from them, and the buckets of
`makeFoissonDistribution` and `makeExpDistribution`. All three follow the rule
of `Apportion.deal`, so what holds of it holds of them.
-/

namespace Artnetgen

open Apportion

namespace Distribution

theorem sum_pushRatio (info : List DistributionInfo) (tr : List ℚ) :
    (info.foldl pushRatio tr).sum = tr.sum + (info.map (·.ratio)).sum := by
  induction info generalizing tr with
  | nil => simp
  | cons line info ih =>
      rw [List.foldl_cons, ih, pushRatio, List.map_cons, List.sum_cons]
      simp [add_assoc]

/-- The buckets follow the rule, one position of `tr` after the other. -/
theorem foldlM_pushBucket_deal {tr : List ℚ} {totalTarRatio : ℚ} (hratio : totalTarRatio ≠ 0)
    {totalCnt : ℤ} (rest before : List ℚ) (htr : tr = before ++ rest)
    (s : List DistributionInfo × ℤ) :
    ∃ entries given, (List.range' before.length rest.length).foldlM
        (pushBucket tr totalTarRatio totalCnt) s = some (s.1 ++ entries, given) ∧
      entries.map (·.target) =
        deal totalCnt s.2 (rest.map fun w => w / totalTarRatio * totalCnt) := by
  induction rest generalizing before s with
  | nil => exact ⟨[], s.2, by simp, rfl⟩
  | cons w rest ih =>
      obtain ⟨mid, hmid, hentry⟩ : ∃ mid,
          pushBucket tr totalTarRatio totalCnt s before.length = some mid ∧
            ∃ entry, mid.1 = s.1 ++ [entry] ∧
              entry.target = grant totalCnt s.2 (w / totalTarRatio * totalCnt) ∧
              mid.2 = s.2 + grant totalCnt s.2 (w / totalTarRatio * totalCnt) := by
        have hread : tr[before.length]? = some w := by
          rw [htr, List.getElem?_append_right (Nat.le_refl _), Nat.sub_self]
          rfl
        simp only [pushBucket, hread, if_neg hratio, Option.bind_eq_bind, Option.bind_some,
          Option.pure_def, Option.some.injEq, exists_eq_left']
        refine ⟨_, rfl, ?_, ?_⟩ <;> rw [grant, mul_comm (totalCnt : ℚ)]
      obtain ⟨entry, hmid1, htarget, hmid2⟩ := hentry
      obtain ⟨entries, given, hfold, htargets⟩ := ih (before ++ [w]) (by simp [htr]) mid
      refine ⟨entry :: entries, given, ?_, ?_⟩
      · rw [List.length_append, List.length_singleton] at hfold
        rw [List.length_cons, List.range'_succ, List.foldlM_cons, hmid, Option.bind_eq_bind,
          Option.bind_some, hfold, hmid1, List.append_assoc, List.singleton_append]
      · rw [List.map_cons, htargets, htarget, hmid2, List.map_cons, deal]

/-- `init` on weights for the values `0..max`. -/
theorem init_deal {d : Distribution} (hd : d.info = []) {weights : List ℚ} {n : ℤ}
    (hsum : 0 < weights.sum) (min : ℤ) {info : List DistributionInfo}
    (hinfo : info.foldl pushRatio [] = weights) :
    ∃ d', d.init min (weights.length - 1) n info = some d' ∧ d'.xMax = weights.length - 1 ∧
      d'.info.map (·.target) = deal n 0 (weights.map fun w => w / weights.sum * n) := by
  have htotal : (info.map (·.ratio)).sum = weights.sum := by
    rw [← hinfo, sum_pushRatio, List.sum_nil, zero_add]
  obtain ⟨entries, given, hfold, htargets⟩ :=
    @foldlM_pushBucket_deal weights weights.sum hsum.ne' n weights [] rfl ([], 0)
  obtain ⟨w, rest, hcons⟩ : ∃ w rest, weights = w :: rest := by
    apply List.exists_cons_of_ne_nil
    rintro rfl
    exact lt_irrefl 0 hsum
  obtain ⟨front, tail, rfl⟩ : ∃ front tail, entries = front :: tail := by
    apply List.exists_cons_of_ne_nil
    rintro rfl
    rw [hcons] at htargets
    cases htargets
  have hlength : ((weights.length : ℤ) - 1 + 1).toNat = weights.length := by omega
  obtain ⟨entries', hfront⟩ : ∃ entries', setFrontCount n (front :: tail) = some entries' := by
    rw [setFrontCount]
    split <;> exact ⟨_, rfl⟩
  refine ⟨⟨min, weights.length - 1, n, entries'⟩, ?_, rfl, ?_⟩
  · rw [List.length_nil, ← List.range_eq_range', List.nil_append] at hfold
    simp only [init, hd, hinfo, htotal, hlength, hfold, hfront, Option.bind_eq_bind,
      Option.bind_some, Option.pure_def]
  · rw [setFrontCount_target hfront, htargets]

/-- The loop of `getSamplingVector`. -/
theorem foldlM_sampling {d : Distribution} {t : ℕ → ℤ} {values : List ℕ}
    (h : ∀ x ∈ values, d.target x = some (t x) ∧ 0 ≤ t x) (sampling : List ℕ) :
    values.foldlM (fun sampling x => do
        let cnt ← d.target x
        if cnt < 0 then none else some (sampling ++ List.replicate cnt.toNat x)) sampling =
      some (sampling ++ values.flatMap fun x => List.replicate (t x).toNat x) := by
  induction values generalizing sampling with
  | nil => simp
  | cons x values ih =>
      obtain ⟨htarget, hnonneg⟩ := h x List.mem_cons_self
      have hstep : (do
          let cnt ← d.target x
          if cnt < 0 then none else some (sampling ++ List.replicate cnt.toNat x)) =
            some (sampling ++ List.replicate (t x).toNat x) := by
        rw [htarget]
        exact if_neg (Int.not_lt.mpr hnonneg)
      rw [List.foldlM_cons, hstep, List.flatMap_cons, ← List.append_assoc]
      exact ih (fun y hy => h y (List.mem_cons_of_mem _ hy)) _

theorem count_flatMap_replicate (t : ℕ → ℕ) (k y : ℕ) :
    ((List.range k).flatMap fun x => List.replicate (t x) x).count y = if y < k then t y else 0 := by
  induction k with
  | zero => rfl
  | succ k ih =>
      rw [List.range_succ, List.flatMap_append, List.count_append, ih, List.flatMap_singleton,
        List.count_replicate]
      by_cases hy : y = k
      · simp [hy]
      · have hky : k ≠ y := Ne.symm hy
        have hlt : y < k + 1 ↔ y < k := by omega
        simp [hky, hlt]

/-- Each value is drawn as often as its target says. -/
theorem samplingVector_spec {d : Distribution} {counts : List ℤ}
    (htargets : d.info.map (·.target) = counts) (hmax : d.xMax = counts.length - 1)
    (hnonneg : ∀ cnt ∈ counts, 0 ≤ cnt) :
    ∃ sampling, d.samplingVector = some sampling ∧ (sampling.length : ℤ) = counts.sum ∧
      ∀ x, (sampling.count x : ℤ) = (d.target x).getD 0 := by
  have htarget : ∀ x, d.target x = counts[x]? := fun x => by
    rw [← htargets, target, List.getElem?_map]
  have hvalues : ∀ x ∈ List.range counts.length,
      d.target x = some (counts.getD x 0) ∧ 0 ≤ counts.getD x 0 := by
    intro x hx
    have hlt := List.mem_range.mp hx
    rw [htarget, List.getD_eq_getElem _ _ hlt, List.getElem?_eq_getElem hlt]
    exact ⟨rfl, hnonneg _ (List.getElem_mem hlt)⟩
  have hrange : (d.xMax + 1).toNat = counts.length := by omega
  refine ⟨_, by rw [samplingVector, hrange, foldlM_sampling hvalues, List.nil_append], ?_,
    fun x => ?_⟩
  · rw [List.length_flatMap]
    simp only [List.length_replicate]
    have hcast : ∀ l : List ℕ, (∀ x ∈ l, 0 ≤ counts.getD x 0) →
        (((l.map fun x => (counts.getD x 0).toNat).sum : ℕ) : ℤ) =
          (l.map fun x => counts.getD x 0).sum := by
      intro l
      induction l with
      | nil => simp
      | cons x l ih =>
          intro hl
          have hx := hl x List.mem_cons_self
          rw [List.map_cons, List.map_cons, List.sum_cons, List.sum_cons, Nat.cast_add,
            ih fun y hy => hl y (List.mem_cons_of_mem _ hy), Int.toNat_of_nonneg hx]
    rw [hcast _ fun x hx => (hvalues x hx).2, sum_range_getD counts (Nat.le_refl _)]
  · rw [count_flatMap_replicate, htarget]
    split
    · next hlt =>
        have hx := (hvalues x (List.mem_range.mpr hlt)).2
        rw [Int.toNat_of_nonneg hx, List.getElem?_eq_getElem hlt, List.getD_eq_getElem _ _ hlt]
        rfl
    · next hge =>
        rw [List.getElem?_eq_none (Nat.not_lt.mp hge)]
        rfl

end Distribution

/-- The buckets that a search has filled. -/
theorem makeSamples_fair {tolerance avgVal : ℚ} {weights : List ℚ} {minVal : ℕ} {n : ℤ}
    {samples : ℕ → ℤ} (hn : 0 ≤ n) (hpos : ∀ w ∈ weights, 0 ≤ w) (hsum : 0 < weights.sum)
    (h : makeSamples tolerance weights minVal avgVal n = some samples) :
    Fair n weights ((List.range' minVal weights.length).map samples) := by
  unfold makeSamples at h
  split at h
  · obtain rfl := Option.some.inj h
    have hfair := deal_fair hn hpos hsum
    convert hfair using 1
    apply List.ext_getElem
    · rw [List.length_map, List.length_range', hfair.length]
    · intro x hx hx'
      rw [List.getElem_map, List.getElem_range', Nat.one_mul, if_pos (Nat.le_add_right _ _),
        Nat.add_sub_cancel_left, List.getD_eq_getElem _ _ hx']
  · cases h

/-- Rounding up with a cut-off deals out exactly the total, wherever the source
does it, and the samples of a table are its targets. -/
theorem apportioned {n : ℤ} {weights : List ℚ} (hn : 0 ≤ n) (hpos : ∀ w ∈ weights, 0 ≤ w)
    (hsum : 0 < weights.sum) :
    (∀ (d : Distribution) (min : ℤ) (info : List DistributionInfo), d.info = [] →
      info.foldl Distribution.pushRatio [] = weights →
        ∃ d' sampling, d.init min (weights.length - 1) n info = some d' ∧
          Fair n weights (d'.info.map (·.target)) ∧ d'.samplingVector = some sampling ∧
          ∀ shuffled : List ℕ, shuffled.Perm sampling → (shuffled.length : ℤ) = n ∧
            ∀ x, (shuffled.count x : ℤ) = (d'.target x).getD 0) ∧
    (∀ (weight : ℕ → ℚ) (minVal maxVal : ℕ) (avgVal : ℚ) (samples : ℕ → ℤ),
      (List.range (maxVal + 1 - minVal)).map weight = weights →
      makeFoissonDistribution weight minVal maxVal avgVal n = some samples →
        Fair n weights ((List.range' minVal weights.length).map samples)) ∧
    (∀ (weight : ℕ → ℚ) (minVal maxVal : ℕ) (avgVal : ℚ) (samples : ℕ → ℤ),
      (List.range (maxVal - minVal)).map weight = weights →
      makeExpDistribution weight minVal maxVal avgVal n = some samples →
        Fair n weights ((List.range' minVal weights.length).map samples)) := by
  refine ⟨?_, ?_, ?_⟩
  · intro d min info hd hinfo
    obtain ⟨d', hinit, hmax, htargets⟩ := Distribution.init_deal hd hsum min hinfo
    have hfair := deal_fair hn hpos hsum
    rw [← htargets] at hfair
    obtain ⟨sampling, hsampling, hlength, hcount⟩ :=
      Distribution.samplingVector_spec rfl (hfair.length ▸ hmax) hfair.nonneg
    refine ⟨d', sampling, hinit, hfair, hsampling, fun shuffled hperm => ⟨?_, fun x => ?_⟩⟩
    · rw [hperm.length_eq, hlength, hfair.sum]
    · rw [hperm.count_eq, hcount]
  · intro weight minVal maxVal avgVal samples hweights hsamples
    unfold makeFoissonDistribution at hsamples
    rw [hweights] at hsamples
    exact makeSamples_fair hn hpos hsum hsamples
  · intro weight minVal maxVal avgVal samples hweights hsamples
    unfold makeExpDistribution at hsamples
    rw [hweights] at hsamples
    exact makeSamples_fair hn hpos hsum hsamples

/-- Ten items for the weights 1, 0 and 2. -/
theorem apportioned_ten :
    (∃ d sampling, Distribution.init {} 0 2 10 [⟨0, 0, 0, 1⟩, ⟨2, 0, 0, 2⟩] = some d ∧
      Fair 10 [1, 0, 2] (d.info.map (·.target)) ∧ d.samplingVector = some sampling ∧
      sampling.length = 10 ∧ d.info.map (·.target) = [4, 0, 6]) ∧
    (∃ samples, makeFoissonDistribution (fun x => [1, 0, 2].getD x 0) 1 3 (7 / 3) 10 =
      some samples ∧ Fair 10 [1, 0, 2] ((List.range' 1 3).map samples)) ∧
    ∃ samples, makeExpDistribution (fun x => [1, 0, 2].getD x 0) 0 3 (4 / 3) 10 =
      some samples ∧ Fair 10 [1, 0, 2] ((List.range' 0 3).map samples) := by
  obtain ⟨hinit, hfoisson, hexp⟩ := @apportioned 10 [1, 0, 2] (by decide) (by decide)
    (by decide +kernel)
  obtain ⟨d, sampling, hd, hfair, hsampling, hshuffled⟩ :=
    hinit {} 0 [⟨0, 0, 0, 1⟩, ⟨2, 0, 0, 2⟩] rfl rfl
  refine ⟨⟨d, sampling, hd, hfair, hsampling, ?_, ?_⟩, ?_, ?_⟩
  · exact_mod_cast (hshuffled sampling (.refl _)).1
  · have htargets : (Distribution.init {} 0 2 10 [⟨0, 0, 0, 1⟩, ⟨2, 0, 0, 2⟩]).map
        (fun d => d.info.map (·.target)) = some [4, 0, 6] := by decide +kernel
    have hd' : Distribution.init {} 0 2 10 [⟨0, 0, 0, 1⟩, ⟨2, 0, 0, 2⟩] = some d := hd
    rw [hd'] at htargets
    exact Option.some.inj htargets
  · obtain ⟨samples, h⟩ := Option.isSome_iff_exists.mp
      (by decide +kernel : (makeFoissonDistribution (fun x => [1, 0, 2].getD x 0) 1 3 (7 / 3)
        10).isSome = true)
    exact ⟨samples, h, hfoisson _ 1 3 _ samples (by decide +kernel) h⟩
  · obtain ⟨samples, h⟩ := Option.isSome_iff_exists.mp
      (by decide +kernel : (makeExpDistribution (fun x => [1, 0, 2].getD x 0) 0 3 (4 / 3)
        10).isSome = true)
    exact ⟨samples, h, hexp _ 0 3 _ samples (by decide +kernel) h⟩

end Artnetgen
