import ArtNetGen.Library.Loop
import Mathlib.Data.Rat.Floor
import Mathlib.Data.List.Nodup
import Mathlib.Logic.Function.Basic

/-!
The histograms of the generator. A distribution holds one entry per value
`0..max` with the number of items that should have the value and the number
that have it. Indexing outside the table has no defined result in the source,
so every access here is partial. Ratios are exact rationals.
-/

namespace Artnetgen

structure DistributionInfo where
  value : ℕ
  target : ℤ
  count : ℤ
  ratio : ℚ
  deriving DecidableEq

structure Distribution where
  xMin : ℤ := 0
  xMax : ℤ := 0
  totalCnt : ℤ := 0
  info : List DistributionInfo := []

namespace Distribution

def target (d : Distribution) (x : ℕ) : Option ℤ := (d.info[x]?).map (·.target)

def count (d : Distribution) (x : ℕ) : Option ℤ := (d.info[x]?).map (·.count)

def delta (d : Distribution) (x : ℕ) : Option ℤ :=
  (d.info[x]?).map fun info => info.count - info.target

/-- `incr` and `decr` with their default amount 1 are `addCount` at `1` and
`-1`. -/
def addCount (d : Distribution) (x : ℕ) (cnt : ℤ) : Option Distribution :=
  (d.info[x]?).map fun info =>
    { d with info := d.info.set x { info with count := info.count + cnt } }

def incr (d : Distribution) (x : ℕ) : Option Distribution := d.addCount x 1

def decr (d : Distribution) (x : ℕ) : Option Distribution := d.addCount x (-1)

/-- Over an empty population the average is no number. -/
def targetAvg (d : Distribution) : Option ℚ :=
  if d.totalCnt = 0 then none
  else some ((d.info.map fun info => (info.value : ℚ) * info.target).sum / d.totalCnt)

/-- The positions of `tr`: a line is padded up to its value and then appended,
so it lands on its value only when the vector is no longer than that. -/
def pushRatio (tr : List ℚ) (info : DistributionInfo) : List ℚ :=
  tr ++ List.replicate (info.value - tr.length) 0 ++ [info.ratio]

/-- One bucket of `init`: the ceiling of its share, clipped to what is left.
Ratios that sum to zero have no shares. -/
def pushBucket (tr : List ℚ) (totalTarRatio : ℚ) (totalCnt : ℤ)
    (s : List DistributionInfo × ℤ) (value : ℕ) : Option (List DistributionInfo × ℤ) := do
  let r ← tr[value]?
  if totalTarRatio = 0 then none else
  let ratio := r / totalTarRatio
  let target := ⌈(totalCnt : ℚ) * ratio⌉
  let target := if s.2 + target > totalCnt then totalCnt - s.2 else target
  return (s.1 ++ [⟨value, target, 0, ratio⟩], s.2 + target)

/-- The items that have no value yet are counted in the first entry, if there
are any. -/
def setFrontCount (totalCnt : ℤ) : List DistributionInfo → Option (List DistributionInfo)
  | [] => if totalCnt > 0 then none else some []
  | front :: rest =>
      if totalCnt > 0 then some ({ front with count := totalCnt } :: rest)
      else some (front :: rest)

/-- `Distribution::init`. The entries are appended to those already there;
reading `tr` past its end and taking the front of an empty table are
undefined. -/
def init (d : Distribution) (min max totalCnt : ℤ) (info : List DistributionInfo) :
    Option Distribution := do
  let totalTarRatio := (info.map (·.ratio)).sum
  let tr := info.foldl pushRatio []
  let (entries, _) ← (List.range (max + 1).toNat).foldlM
    (pushBucket tr totalTarRatio totalCnt) (d.info, 0)
  let entries ← setFrontCount totalCnt entries
  return { xMin := min, xMax := max, totalCnt, info := entries }

/-- `getSamplingVector` before its shuffle: each value as often as its target
asks. A negative target is no valid length. -/
def samplingVector (d : Distribution) : Option (List ℕ) :=
  (List.range (d.xMax + 1).toNat).foldlM (fun sampling x => do
    let cnt ← d.target x
    if cnt < 0 then none else some (sampling ++ List.replicate cnt.toNat x)) []

/-! The table after `init`. -/

/-- A bucket never takes more than what is left. -/
theorem pushBucket_spec {tr : List ℚ} {totalTarRatio : ℚ} {totalCnt : ℤ} {value : ℕ}
    {s s' : List DistributionInfo × ℤ}
    (h : pushBucket tr totalTarRatio totalCnt s value = some s') :
    ∃ info, s'.1 = s.1 ++ [info] ∧ info.count = 0 ∧ s.2 + info.target ≤ totalCnt := by
  simp only [pushBucket, Option.bind_eq_bind, Option.bind_eq_some_iff] at h
  obtain ⟨r, -, h⟩ := h
  split at h
  · cases h
  · simp only [Option.pure_def, Option.some.injEq] at h
    subst h
    refine ⟨_, rfl, rfl, ?_⟩
    dsimp only
    split <;> omega

theorem foldlM_pushBucket {tr : List ℚ} {totalTarRatio : ℚ} {totalCnt : ℤ}
    {values : List ℕ} {s s' : List DistributionInfo × ℤ}
    (h : values.foldlM (pushBucket tr totalTarRatio totalCnt) s = some s') :
    ∃ rest, s'.1 = s.1 ++ rest ∧ rest.length = values.length ∧
      ∀ info ∈ rest, info.count = 0 := by
  induction values generalizing s with
  | nil =>
      obtain rfl : s = s' := by simpa using h
      exact ⟨[], by simp, rfl, by simp⟩
  | cons value values ih =>
      obtain ⟨mid, hmid, hrest⟩ := Loop.foldlM_cons_eq_some.mp h
      obtain ⟨info, hinfo, hcount, -⟩ := pushBucket_spec hmid
      obtain ⟨rest, heq, hlen, hzero⟩ := ih hrest
      refine ⟨info :: rest, by rw [heq, hinfo, List.append_assoc, List.singleton_append],
        by simp [hlen], ?_⟩
      simpa [hcount] using hzero

/-- One entry per value up to `max`, and every item in entry 0. -/
def FreshTable (d : Distribution) (max totalCnt : ℤ) : Prop :=
  d.info.length = (max + 1).toNat ∧
    ∀ x < d.info.length, d.count x = some (if x = 0 then Max.max totalCnt 0 else 0)

theorem init_spec {d d' : Distribution} {min max totalCnt : ℤ} {info : List DistributionInfo}
    (hd : d.info = []) (h : d.init min max totalCnt info = some d') :
    d'.xMax = max ∧ d'.totalCnt = totalCnt ∧ d'.FreshTable max totalCnt := by
  simp only [init, hd, Option.bind_eq_bind, Option.bind_eq_some_iff] at h
  obtain ⟨⟨entries, tot⟩, hfold, entries', hentries, heq⟩ := h
  obtain ⟨rest, hrest, hlen, hzero⟩ := foldlM_pushBucket hfold
  simp only [List.nil_append, List.length_range] at hrest hlen
  subst hrest
  simp only [Option.pure_def, Option.some.injEq] at heq
  subst heq
  cases entries with
  | nil =>
      simp only [setFrontCount] at hentries
      split at hentries
      · cases hentries
      · simp only [Option.some.injEq] at hentries
        subst hentries
        exact ⟨rfl, rfl, hlen, fun x hx => absurd hx (Nat.not_lt_zero x)⟩
  | cons front tail =>
      have htail : ∀ x (hx : x < tail.length), tail[x].count = 0 := fun x hx =>
        hzero _ (List.mem_cons_of_mem _ (List.getElem_mem hx))
      simp only [setFrontCount] at hentries
      split at hentries <;> simp only [Option.some.injEq] at hentries <;> subst hentries
      · next hpos =>
          refine ⟨rfl, rfl, by simpa using hlen, fun x hx => ?_⟩
          cases x with
          | zero => simp [count, max_eq_left hpos.le]
          | succ x =>
              have hx' : x < tail.length := by simpa using hx
              simp [count, List.getElem?_eq_getElem hx', htail x hx']
      · next hneg =>
          refine ⟨rfl, rfl, hlen, fun x hx => ?_⟩
          cases x with
          | zero =>
              have hmax : Max.max totalCnt 0 = 0 := max_eq_right (by omega)
              simp [count, hzero front List.mem_cons_self, hmax]
          | succ x =>
              have hx' : x < tail.length := by simpa using hx
              simp [count, List.getElem?_eq_getElem hx', htail x hx']

theorem setFrontCount_target {totalCnt : ℤ} {entries entries' : List DistributionInfo}
    (h : setFrontCount totalCnt entries = some entries') :
    entries'.map (·.target) = entries.map (·.target) := by
  cases entries with
  | nil =>
      simp only [setFrontCount] at h
      split at h
      · cases h
      · simp only [Option.some.injEq] at h
        rw [← h]
  | cons front rest =>
      simp only [setFrontCount] at h
      split at h <;> simp only [Option.some.injEq] at h <;> subst h <;> rfl

/-- The first entry is not asked for more items than there are. -/
theorem init_target_zero {d d' : Distribution} {min max totalCnt : ℤ}
    {info : List DistributionInfo} (hd : d.info = []) (hmax : 0 ≤ max)
    (h : d.init min max totalCnt info = some d') :
    ∃ t, d'.target 0 = some t ∧ t ≤ totalCnt := by
  simp only [init, hd, Option.bind_eq_bind, Option.bind_eq_some_iff] at h
  obtain ⟨⟨entries, tot⟩, hfold, entries', hentries, heq⟩ := h
  simp only [Option.pure_def, Option.some.injEq] at heq
  subst heq
  obtain ⟨n, hn⟩ : ∃ n, (max + 1).toNat = n + 1 := ⟨max.toNat, by omega⟩
  rw [hn, List.range_succ_eq_map] at hfold
  obtain ⟨mid, hmid, hrest⟩ := Loop.foldlM_cons_eq_some.mp hfold
  obtain ⟨first, hfirst, -, hle⟩ := pushBucket_spec hmid
  obtain ⟨rest, heq, -, -⟩ := foldlM_pushBucket hrest
  dsimp only at heq hle
  rw [hfirst, List.nil_append, List.singleton_append] at heq
  have htargets := setFrontCount_target hentries
  rw [heq, List.map_cons] at htargets
  refine ⟨first.target, ?_, by omega⟩
  unfold target
  rw [← List.getElem?_map, htargets]
  rfl

/-! The table after an update. -/

theorem addCount_eq_some {d d' : Distribution} {x : ℕ} {cnt : ℤ} :
    d.addCount x cnt = some d' ↔ ∃ info, d.info[x]? = some info ∧
      d' = { d with info := d.info.set x { info with count := info.count + cnt } } := by
  simp [addCount, eq_comm]

theorem addCount_isDefined {d : Distribution} {x : ℕ} (hx : x < d.info.length) (cnt : ℤ) :
    ∃ d', d.addCount x cnt = some d' :=
  ⟨_, addCount_eq_some.mpr ⟨_, List.getElem?_eq_getElem hx, rfl⟩⟩

/-- Counting leaves everything but one count alone. -/
structure SameTargets (d d' : Distribution) : Prop where
  xMax : d'.xMax = d.xMax
  totalCnt : d'.totalCnt = d.totalCnt
  length : d'.info.length = d.info.length
  target : ∀ x, d'.target x = d.target x

theorem SameTargets.refl (d : Distribution) : SameTargets d d := ⟨rfl, rfl, rfl, fun _ => rfl⟩

theorem SameTargets.trans {d d' d'' : Distribution} (h : SameTargets d d')
    (h' : SameTargets d' d'') : SameTargets d d'' :=
  ⟨h'.xMax.trans h.xMax, h'.totalCnt.trans h.totalCnt, h'.length.trans h.length,
    fun x => (h'.target x).trans (h.target x)⟩

theorem addCount_spec {d d' : Distribution} {x : ℕ} {cnt : ℤ}
    (h : d.addCount x cnt = some d') :
    SameTargets d d' ∧
      ∀ y, d'.count y = (d.count y).map fun c => if y = x then c + cnt else c := by
  obtain ⟨info, hinfo, rfl⟩ := addCount_eq_some.mp h
  have hx : x < d.info.length := (List.getElem?_eq_some_iff.mp hinfo).1
  refine ⟨⟨rfl, rfl, by simp, fun y => ?_⟩, fun y => ?_⟩
  · by_cases hy : y = x
    · subst hy
      simp [target, List.getElem?_set_self hx, hinfo]
    · simp [target, List.getElem?_set_ne (Ne.symm hy)]
  · by_cases hy : y = x
    · subst hy
      simp [count, List.getElem?_set_self hx, hinfo]
    · simp [count, List.getElem?_set_ne (Ne.symm hy), hy, Function.comp_def]

/-- A sampling vector exists only if no target is negative. -/
theorem target_nonneg_of_samplingVector {d : Distribution} {l : List ℕ}
    (h : d.samplingVector = some l) {x : ℕ} {t : ℤ} (hx : x < (d.xMax + 1).toNat)
    (ht : d.target x = some t) : 0 ≤ t := by
  unfold samplingVector at h
  obtain ⟨mid, mid', hstep⟩ := Loop.exists_step h (List.mem_range.mpr hx)
  simp only [ht, Option.bind_eq_bind, Option.bind_some] at hstep
  split at hstep
  · cases hstep
  · omega

theorem delta_isDefined {d : Distribution} {x : ℕ} (hx : x < d.info.length) :
    ∃ dx, d.delta x = some dx :=
  ⟨_, by rw [delta, List.getElem?_eq_getElem hx]; rfl⟩

/-- The counts are those of `key` over the items `items`, and every key has an
entry. -/
structure Tallies (d : Distribution) (items : List ℕ) (key : ℕ → ℕ) : Prop where
  count : ∀ x, x < d.info.length → d.count x = some (items.countP fun v => key v = x : ℤ)
  inRange : ∀ v ∈ items, key v < d.info.length

/-- A fresh table counts items that all have value 0. -/
theorem Tallies.of_init {d : Distribution} {totalCnt : ℤ} {items : List ℕ} {key : ℕ → ℕ}
    (hcount : ∀ x < d.info.length, d.count x = some (if x = 0 then max totalCnt 0 else 0))
    (hitems : items.length = totalCnt.toNat) (hkey : ∀ v ∈ items, key v = 0)
    (hpos : ∀ v ∈ items, 0 < d.info.length) : d.Tallies items key := by
  refine ⟨fun x hx => ?_, fun v hv => by rw [hkey v hv]; exact hpos v hv⟩
  rw [hcount x hx]
  by_cases hx0 : x = 0
  · have hall : items.countP (fun v => key v = x) = items.length :=
      List.countP_eq_length.mpr fun v hv => by simp [hkey v hv, hx0]
    rw [hall, hitems, if_pos hx0, Int.toNat_eq_max]
  · have hnone : items.countP (fun v => key v = x) = 0 :=
      List.countP_eq_zero.mpr fun v hv => by simp [hkey v hv, Ne.symm hx0]
    simp [hnone, hx0]

theorem countP_update (items : List ℕ) (hitems : items.Nodup) (key : ℕ → ℕ) {v : ℕ}
    (hv : v ∈ items) (b x : ℕ) :
    (items.countP (fun w => Function.update key v b w = x) : ℤ) =
      (items.countP (fun w => key w = x) : ℤ) - (if x = key v then 1 else 0) +
        if x = b then 1 else 0 := by
  induction items with
  | nil => simp at hv
  | cons w rest ih =>
      obtain ⟨hw, hrest⟩ := List.nodup_cons.mp hitems
      simp only [List.countP_cons]
      by_cases hwv : w = v
      · subst hwv
        have hsame : rest.countP (fun u => Function.update key w b u = x) =
            rest.countP (fun u => key u = x) := by
          refine List.countP_congr (fun u hu => ?_)
          have hne : u ≠ w := fun heq => hw (heq ▸ hu)
          simp [hne]
        rw [hsame]
        by_cases hkey : key w = x <;> by_cases hb : b = x <;>
          simp [hkey, hb, eq_comm] <;> omega
      · have hmem : v ∈ rest := (List.mem_cons.mp hv).resolve_left (Ne.symm hwv)
        have hrec := ih hrest hmem
        simp only [Function.update_of_ne hwv]
        push_cast
        omega

/-- Taking one item out of its bucket and putting it into another keeps the
tally. -/
theorem Tallies.move {d d1 d2 : Distribution} {items : List ℕ} {key : ℕ → ℕ}
    (h : d.Tallies items key) (hitems : items.Nodup) {v b : ℕ} (hv : v ∈ items)
    (hb : b < d.info.length) (hdecr : d.decr (key v) = some d1)
    (hincr : d1.incr b = some d2) :
    d2.Tallies items (Function.update key v b) := by
  obtain ⟨hsame1, hcount1⟩ := addCount_spec hdecr
  obtain ⟨hsame2, hcount2⟩ := addCount_spec hincr
  have hlen : d2.info.length = d.info.length := hsame2.length.trans hsame1.length
  refine ⟨fun x hx => ?_, fun w hw => ?_⟩
  · rw [hlen] at hx
    rw [hcount2, hcount1, h.count x hx, countP_update items hitems key hv b x]
    simp only [Option.map_some, Option.some.injEq]
    split <;> split <;> omega
  · rw [hlen]
    by_cases hwv : w = v
    · simpa [hwv] using hb
    · simpa [hwv] using h.inRange w hw

end Distribution

end Artnetgen
