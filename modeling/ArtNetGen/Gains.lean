import ArtNetGen.MatchingRun

/-!
What `getMaxGain` returns. Of every fan-out class it looks at one source only,
the first that gains most by reaching the bin, and it returns the best of the
pairs these sources have. The gain of the pair is the error that connecting it
removes.
-/

namespace Artnetgen

namespace Netlist

variable {addr : NodeId ↪ ℕ} {nl : Netlist}

/-- The three gains of joining `src` to `snk` in `sinkBin`. -/
def pairGain (nl : Netlist) (sinkBin : BinId) (src snk : NodeId) : Option ℤ := do
  let foG ← nl.fanoutGain (nl.numFanouts src) (nl.numFanouts src + 1)
  let bboxG ← nl.localBboxG src sinkBin
  let fiG ← nl.faninGain (nl.numFanins snk) (nl.numFanins snk + 1)
  return fiG + foG + bboxG

/-! ## The source of a class -/

/-- `src` comes first among the sources of the list that gain most by reaching
the bin. -/
def LeadsIn (nl : Netlist) (sinkBin : BinId) (candiSrcs : List NodeId) (src : NodeId) : Prop :=
  nl.type src ≠ .primaryOut ∧ ∃ before after, candiSrcs = before ++ src :: after ∧
    (∀ src' ∈ before, nl.type src' ≠ .primaryOut → ∀ g g',
      nl.localBboxG src sinkBin = some g → nl.localBboxG src' sinkBin = some g' → g' < g) ∧
    ∀ src' ∈ after, nl.type src' ≠ .primaryOut → ∀ g g',
      nl.localBboxG src sinkBin = some g → nl.localBboxG src' sinkBin = some g' → g' ≤ g

theorem LeadsIn.mem {sinkBin : BinId} {l : List NodeId} {src : NodeId}
    (h : nl.LeadsIn sinkBin l src) : src ∈ l := by
  obtain ⟨-, before, after, rfl, -⟩ := h
  exact List.mem_append_right before List.mem_cons_self

theorem LeadsIn.max {sinkBin : BinId} {l : List NodeId} {src src' : NodeId}
    (h : nl.LeadsIn sinkBin l src) (hmem : src' ∈ l) (htype : nl.type src' ≠ .primaryOut)
    {g g' : ℤ} (hg : nl.localBboxG src sinkBin = some g)
    (hg' : nl.localBboxG src' sinkBin = some g') : g' ≤ g := by
  obtain ⟨-, before, after, rfl, hbefore, hafter⟩ := h
  rcases List.mem_append.mp hmem with hmem | hmem
  · exact (hbefore src' hmem htype g g' hg hg').le
  · rcases List.mem_cons.mp hmem with rfl | hmem
    · exact (Option.some.inj (hg'.symm.trans hg)).le
    · exact hafter src' hmem htype g g' hg hg'

/-- A list has one leading source at most. -/
theorem LeadsIn.unique {sinkBin : BinId} {l : List NodeId} {src src' : NodeId}
    (h : nl.LeadsIn sinkBin l src) (h' : nl.LeadsIn sinkBin l src') {g g' : ℤ}
    (hg : nl.localBboxG src sinkBin = some g) (hg' : nl.localBboxG src' sinkBin = some g') :
    src = src' := by
  have hle := h.max h'.mem h'.1 hg hg'
  have hle' := h'.max h.mem h.1 hg' hg
  obtain ⟨htype, before, after, rfl, hbefore, -⟩ := h
  obtain ⟨htype', before', after', hsplit, hbefore', -⟩ := h'
  -- Whichever comes first, the other one would have to gain more.
  rcases List.append_eq_append_iff.mp hsplit with ⟨mid, rfl, hmid⟩ | ⟨mid, rfl, hmid⟩
  · cases mid with
    | nil =>
        rw [List.nil_append] at hmid
        exact (List.cons.inj hmid).1
    | cons first mid =>
        obtain rfl := (List.cons.inj hmid).1
        have hlt := hbefore' src (List.mem_append_right before List.mem_cons_self) htype g' g hg' hg
        omega
  · cases mid with
    | nil =>
        rw [List.nil_append] at hmid
        exact (List.cons.inj hmid).1.symm
    | cons first mid =>
        obtain rfl := (List.cons.inj hmid).1
        have hlt := hbefore src' (List.mem_append_right before' List.mem_cons_self) htype' g g' hg
          hg'
        omega

/-- The leading source keeps the lead if the next one gains no more. -/
theorem LeadsIn.append {sinkBin : BinId} {l : List NodeId} {first src : NodeId}
    (h : nl.LeadsIn sinkBin l first)
    (hle : nl.type src ≠ .primaryOut → ∀ g g', nl.localBboxG first sinkBin = some g →
      nl.localBboxG src sinkBin = some g' → g' ≤ g) :
    nl.LeadsIn sinkBin (l ++ [src]) first := by
  obtain ⟨htype, before, after, rfl, hbefore, hafter⟩ := h
  refine ⟨htype, before, after ++ [src], by simp, hbefore, fun s hs => ?_⟩
  rcases List.mem_append.mp hs with hs | hs
  · exact hafter s hs
  · rw [List.mem_singleton.mp hs]
    exact hle

/-- The loop over the sources ends with the leading one, if any source is no
port. -/
theorem localMaxSrc_leads {sinkBin : BinId} {l : List NodeId}
    (hdef : ∀ src ∈ l, ∃ g, nl.localBboxG src sinkBin = some g) :
    (∃ g src, nl.localMaxSrc sinkBin l = some (some (g, src)) ∧
        nl.localBboxG src sinkBin = some g ∧ nl.LeadsIn sinkBin l src) ∨
      nl.localMaxSrc sinkBin l = some none ∧ ∀ src ∈ l, nl.type src = .primaryOut := by
  induction l using List.reverseRecOn with
  | nil => exact Or.inr ⟨rfl, fun src hsrc => absurd hsrc List.not_mem_nil⟩
  | append_singleton l src ih =>
      have hlast : nl.localMaxSrc sinkBin (l ++ [src]) =
          (nl.localMaxSrc sinkBin l).bind fun best =>
            if nl.type src = .primaryOut then some best
            else (nl.localBboxG src sinkBin).map fun localBboxG =>
              if best.all fun b => b.1 < localBboxG then some (localBboxG, src) else best := by
        rw [localMaxSrc, List.foldlM_append, localMaxSrc]
        simp only [List.foldlM_cons, List.foldlM_nil, Option.bind_eq_bind, Option.pure_def]
        simp
      obtain ⟨gsrc, hgsrc⟩ := hdef src (List.mem_append_right l List.mem_cons_self)
      rcases ih fun s hs => hdef s (List.mem_append_left [src] hs) with
        ⟨g, first, hmax, hg, hleads⟩ | ⟨hnone, hports⟩
      · rw [hmax, Option.bind_some] at hlast
        by_cases htype : nl.type src = .primaryOut
        · rw [if_pos htype] at hlast
          exact Or.inl ⟨g, first, hlast, hg, hleads.append fun hne => absurd htype hne⟩
        rw [if_neg htype, hgsrc, Option.map_some] at hlast
        by_cases hlt : g < gsrc
        · refine Or.inl ⟨gsrc, src, by simp [hlast, hlt], hgsrc, htype, l, [], rfl, ?_,
            fun s hs => absurd hs List.not_mem_nil⟩
          intro s hs htype' g1 g2 hg1 hg2
          obtain rfl := Option.some.inj (hgsrc.symm.trans hg1)
          exact (hleads.max hs htype' hg hg2).trans_lt hlt
        · refine Or.inl ⟨g, first, by simp [hlast, hlt], hg, hleads.append ?_⟩
          intro _ g1 g2 hg1 hg2
          obtain rfl := Option.some.inj (hg.symm.trans hg1)
          obtain rfl := Option.some.inj (hgsrc.symm.trans hg2)
          exact Int.not_lt.mp hlt
      · rw [hnone, Option.bind_some] at hlast
        by_cases htype : nl.type src = .primaryOut
        · rw [if_pos htype] at hlast
          refine Or.inr ⟨hlast, fun s hs => ?_⟩
          rcases List.mem_append.mp hs with hs | hs
          · exact hports s hs
          · rw [List.mem_singleton.mp hs, htype]
        · rw [if_neg htype, hgsrc, Option.map_some] at hlast
          refine Or.inl ⟨gsrc, src, hlast, hgsrc, htype, l, [], rfl, ?_,
            fun s hs => absurd hs List.not_mem_nil⟩
          intro s hs htype'
          exact absurd (hports s hs) htype'

/-- `src` leads its class for the bin, in the order of the shuffle. -/
def Leads (nl : Netlist) (c : Turn) (srcBin sinkBin : BinId) (src : NodeId) : Prop :=
  ∃ candiSrcs, (nl.bin srcBin).fo2Nodes (nl.numFanouts src) = some candiSrcs ∧
    nl.LeadsIn sinkBin ((c.srcs srcBin sinkBin (nl.numFanouts src)).val candiSrcs) src

/-! ## The pairs that are compared -/

/-- The pairs `getMaxGain` comes to: a leading source and a sink that passes
the exceptions. -/
structure Examined (addr : NodeId ↪ ℕ) (nl : Netlist) (c : Turn) (srcBin sinkBin : BinId)
    (src snk : NodeId) : Prop where
  srcMem : src < nl.size
  snkMem : snk < nl.size
  inSrcBin : nl.binOf src = srcBin
  inSinkBin : nl.binOf snk = sinkBin
  fanout : (nl.numFanouts src : ℤ) < nl.foDist.xMax
  fanin : (nl.numFanins snk : ℤ) < nl.fiDist.xMax
  leads : nl.Leads c srcBin sinkBin src
  mayConnect : nl.mayConnect addr srcBin sinkBin src snk = true

theorem Examined.linkable {c : Turn} {srcBin sinkBin : BinId} {src snk : NodeId}
    (h : Examined addr nl c srcBin sinkBin src snk) : nl.Linkable src snk := by
  refine ⟨h.srcMem, h.snkMem, h.fanout, h.fanin, ?_⟩
  rintro rfl
  obtain ⟨_, -, htype, -⟩ := h.leads
  obtain ⟨-, -, horder, -⟩ := (mayConnect_iff nl _ _ _ _).mp h.mayConnect
  exact (horder htype (h.inSrcBin.symm.trans h.inSinkBin)).false

theorem pairAt_value {c : Turn} {srcBin sinkBin : BinId} {fo fi : ℕ} {foG bboxG : ℤ}
    {src : NodeId} {l : List Gain}
    (h : nl.pairAt addr c srcBin sinkBin fo foG bboxG src fi = some l) {g : Gain} (hg : g ∈ l) :
    ∃ fiG, nl.faninGain fi (fi + 1) = some fiG ∧ g.value = fiG + foG + bboxG := by
  simp only [pairAt, Option.bind_eq_bind, Option.bind_eq_some_iff] at h
  obtain ⟨candiSinks, -, h⟩ := h
  split at h
  · obtain rfl := Option.some.inj h
    cases hg
  · obtain ⟨fiG, hfiG, h⟩ := Option.bind_eq_some_iff.mp h
    obtain rfl := Option.some.inj h
    obtain ⟨snk, -, rfl⟩ := Option.map_eq_some_iff.mp (Option.mem_toList.mp hg)
    exact ⟨fiG, hfiG, rfl⟩

/-- The pairs of one class of sources. -/
theorem pairsAt_examined (hc : nl.Consistent) (hw : Wired addr nl) (c : Turn)
    {srcBin sinkBin : BinId} (hb : srcBin < nl.numBins) (hb' : sinkBin < nl.numBins) {fo : ℕ}
    (hfo : fo < nl.foDist.xMax.toNat) :
    ∃ l, nl.pairsAt addr c srcBin sinkBin fo = some l ∧
      (∀ g ∈ l, nl.numFanouts g.n1 = fo ∧ Examined addr nl c srcBin sinkBin g.n1 g.n2 ∧
        nl.pairGain sinkBin g.n1 g.n2 = some g.value) ∧
      ∀ src snk, nl.numFanouts src = fo → Examined addr nl c srcBin sinkBin src snk →
        ∃ g ∈ l, nl.pairGain sinkBin src snk = some g.value := by
  have hfo' : fo < (nl.foDist.xMax + 1).toNat := by omega
  obtain ⟨candiSrcs, hcandi, -, hmem⟩ := hc.fo2Nodes hb hfo'
  obtain ⟨foG, hfoG⟩ := hc.tallied.fanoutGain_isDefined hfo
  by_cases hempty : candiSrcs = []
  · refine ⟨[], by simp [pairsAt, hcandi, hempty], nofun, fun src snk heq h => ?_⟩
    have hin := (hmem src).mpr ⟨h.srcMem, h.inSrcBin, heq⟩
    rw [hempty] at hin
    cases hin
  have hperm := (c.srcs srcBin sinkBin fo).2 candiSrcs
  have hdef : ∀ src ∈ (c.srcs srcBin sinkBin fo).val candiSrcs,
      ∃ g, nl.localBboxG src sinkBin = some g := fun src hsrc =>
    hc.localBboxG_isDefined hw ((hmem src).mp (hperm.mem_iff.mp hsrc)).1 hb'
  have hleading : ∀ {src}, nl.numFanouts src = fo → nl.Leads c srcBin sinkBin src →
      nl.LeadsIn sinkBin ((c.srcs srcBin sinkBin fo).val candiSrcs) src := by
    rintro src rfl ⟨candiSrcs', hcandi', hleads⟩
    obtain rfl := Option.some.inj (hcandi.symm.trans hcandi')
    exact hleads
  rcases localMaxSrc_leads hdef with ⟨bboxG, first, hmax, hg, hleads⟩ | ⟨hnone, hports⟩
  · obtain ⟨hlt, hbin, hfanout⟩ := (hmem first).mp (hperm.mem_iff.mp hleads.mem)
    have hspec : ∀ fi ∈ List.range nl.fiDist.xMax.toNat, _ := fun fi hfi =>
      pairAt_spec addr hc c srcBin hb' fo foG bboxG first (List.mem_range.mp hfi)
    obtain ⟨l, hl⟩ := Loop.collect_isDefined fun fi hfi => (hspec fi hfi).imp fun _ h => h.1
    have hgain : ∀ {snk fiG}, nl.faninGain (nl.numFanins snk) (nl.numFanins snk + 1) = some fiG →
        nl.pairGain sinkBin first snk = some (fiG + foG + bboxG) := by
      intro snk fiG hfiG
      simp only [pairGain, hfanout, hfoG, hg, hfiG, Option.bind_eq_bind, Option.bind_some,
        Option.pure_def]
    refine ⟨l, by simp [pairsAt, hcandi, hempty, hfoG, hmax, hl], fun g hgl => ?_,
      fun src snk heq h => ?_⟩
    · obtain ⟨fi, hfi, l', hl', hin⟩ := (Loop.mem_collect hl g).mp hgl
      obtain ⟨l'', hl'', hfound, -⟩ := hspec fi hfi
      obtain rfl : l' = l'' := Option.some.inj (hl'.symm.trans hl'')
      obtain ⟨hn1, hlt2, hbin2, hfanin2, hmay⟩ := hfound g hin
      obtain ⟨fiG, hfiG, hvalue⟩ := pairAt_value hl' hin
      have hfi' := List.mem_range.mp hfi
      rw [hn1]
      refine ⟨hfanout, ⟨hlt, hlt2, hbin, hbin2, by omega, by omega, ?_, hmay⟩, ?_⟩
      · exact ⟨candiSrcs, hfanout ▸ hcandi, hfanout ▸ hleads⟩
      · rw [hvalue]
        exact hgain (hfanin2.symm ▸ hfiG)
    · -- The source is the leading one, and a sink of the class is found.
      obtain ⟨g', hg'⟩ := hdef src (hleading heq h.leads).mem
      obtain rfl := hleads.unique (hleading heq h.leads) hg hg'
      have hfanin := h.fanin
      have hfi : nl.numFanins snk ∈ List.range nl.fiDist.xMax.toNat :=
        List.mem_range.mpr (by omega)
      obtain ⟨l', hl', -, hnonempty⟩ := hspec _ hfi
      obtain ⟨g, hgl⟩ := List.exists_mem_of_ne_nil l'
        (hnonempty snk h.snkMem h.inSinkBin rfl h.mayConnect)
      obtain ⟨fiG, hfiG, hvalue⟩ := pairAt_value hl' hgl
      refine ⟨g, (Loop.mem_collect hl g).mpr ⟨_, hfi, l', hl', hgl⟩, ?_⟩
      rw [hvalue]
      exact hgain hfiG
  · refine ⟨[], by simp [pairsAt, hcandi, hempty, hfoG, hnone], nofun, fun src snk heq h => ?_⟩
    have hleads := hleading heq h.leads
    exact absurd (hports src hleads.mem) hleads.1

theorem pairs_examined (hc : nl.Consistent) (hw : Wired addr nl) (c : Turn)
    {srcBin sinkBin : BinId} (hb : srcBin < nl.numBins) (hb' : sinkBin < nl.numBins) :
    ∃ l, nl.pairs addr c srcBin sinkBin = some l ∧
      (∀ g ∈ l, Examined addr nl c srcBin sinkBin g.n1 g.n2 ∧
        nl.pairGain sinkBin g.n1 g.n2 = some g.value) ∧
      ∀ src snk, Examined addr nl c srcBin sinkBin src snk →
        ∃ g ∈ l, nl.pairGain sinkBin src snk = some g.value := by
  have hone : ∀ fo ∈ List.range nl.foDist.xMax.toNat, _ := fun fo hfo =>
    pairsAt_examined hc hw c hb hb' (List.mem_range.mp hfo)
  obtain ⟨l, hl⟩ := Loop.collect_isDefined fun fo hfo => (hone fo hfo).imp fun _ h => h.1
  refine ⟨l, hl, fun g hgl => ?_, fun src snk h => ?_⟩
  · obtain ⟨fo, hfo, l', hl', hin⟩ := (Loop.mem_collect hl g).mp hgl
    obtain ⟨l'', hl'', hsound, -⟩ := hone fo hfo
    obtain rfl : l' = l'' := Option.some.inj (hl'.symm.trans hl'')
    exact (hsound g hin).2
  · have hfanout := h.fanout
    have hfo : nl.numFanouts src ∈ List.range nl.foDist.xMax.toNat :=
      List.mem_range.mpr (by omega)
    obtain ⟨l', hl', -, hcomplete⟩ := hone _ hfo
    obtain ⟨g, hgl, hvalue⟩ := hcomplete src snk rfl h
    exact ⟨g, (Loop.mem_collect hl g).mpr ⟨_, hfo, l', hl', hgl⟩, hvalue⟩

/-- `getMaxGain` returns the best examined pair, if there is one. -/
theorem getMaxGain_examined (hc : nl.Consistent) (hw : Wired addr nl) (c : Turn)
    {srcBin sinkBin : BinId} (hb : srcBin < nl.numBins) (hb' : sinkBin < nl.numBins) :
    (∃ g, nl.getMaxGain addr c srcBin sinkBin = some (some g) ∧
        Examined addr nl c srcBin sinkBin g.n1 g.n2 ∧
        nl.pairGain sinkBin g.n1 g.n2 = some g.value ∧
        ∀ src snk, Examined addr nl c srcBin sinkBin src snk →
          ∃ v ≤ g.value, nl.pairGain sinkBin src snk = some v) ∨
      nl.getMaxGain addr c srcBin sinkBin = some none ∧
        ∀ src snk, ¬ Examined addr nl c srcBin sinkBin src snk := by
  obtain ⟨l, hl, hsound, hcomplete⟩ := pairs_examined hc hw c hb hb'
  have hmax : nl.getMaxGain addr c srcBin sinkBin = some (l.argmax Gain.value) := by
    rw [getMaxGain_eq, hl, Option.map_some, Loop.foldl_keepMax]
  cases hbest : l.argmax Gain.value with
  | none =>
      obtain rfl := List.argmax_eq_none.mp hbest
      refine Or.inr ⟨hmax.trans (by rw [hbest]), fun src snk h => ?_⟩
      obtain ⟨g, hg, -⟩ := hcomplete src snk h
      cases hg
  | some g =>
      obtain ⟨hmem, hall, -⟩ := List.argmax_eq_some_iff.mp hbest
      obtain ⟨hexamined, hvalue⟩ := hsound g hmem
      refine Or.inl ⟨g, hmax.trans (by rw [hbest]), hexamined, hvalue, fun src snk h => ?_⟩
      obtain ⟨g', hg', hvalue'⟩ := hcomplete src snk h
      exact ⟨g'.value, hall g' hg', hvalue'⟩

end Netlist

/-! ## The error that an edge removes -/

namespace Distribution

/-- How far the table is from its targets. -/
def error (d : Distribution) : ℤ := (d.info.map fun info => |info.count - info.target|).sum

theorem delta_addCount {d d' : Distribution} {x : ℕ} {cnt : ℤ} (h : d.addCount x cnt = some d')
    (y : ℕ) : d'.delta y = (d.delta y).map fun δ => if y = x then δ + cnt else δ := by
  obtain ⟨info, hinfo, rfl⟩ := addCount_eq_some.mp h
  have hx : x < d.info.length := (List.getElem?_eq_some_iff.mp hinfo).1
  unfold delta
  by_cases hy : y = x
  · subst hy
    simp only [List.getElem?_set_self hx, hinfo, Option.map_some, if_true]
    exact congrArg some (by ring)
  · simp [List.getElem?_set_ne (Ne.symm hy), hy, Function.comp_def]

theorem error_addCount {d d' : Distribution} {x : ℕ} {cnt : ℤ} (h : d.addCount x cnt = some d') :
    ∃ δ, d.delta x = some δ ∧ d'.error = d.error - |δ| + |δ + cnt| := by
  obtain ⟨info, hinfo, rfl⟩ := addCount_eq_some.mp h
  obtain ⟨hx, hget⟩ := List.getElem?_eq_some_iff.mp hinfo
  refine ⟨info.count - info.target, by rw [delta, hinfo, Option.map_some], ?_⟩
  unfold error
  rw [List.map_set, List.sum_set', dif_pos (by rwa [List.length_map]), List.getElem_map, hget]
  have hcnt : info.count + cnt - info.target = info.count - info.target + cnt := by ring
  rw [hcnt]
  ring

/-- Moving an item between two entries removes what `deltaErr` says. -/
theorem error_move {d d1 d2 : Distribution} {x1 x2 : ℕ} (hne : x1 ≠ x2)
    (hdecr : d.decr x1 = some d1) (hincr : d1.incr x2 = some d2) {g : ℤ}
    (hg : d.deltaErr x1 x2 = some g) : d2.error = d.error - g := by
  simp only [deltaErr, Option.bind_eq_bind, Option.bind_eq_some_iff, Option.pure_def,
    Option.some.injEq] at hg
  obtain ⟨δ1, hδ1, δ2, hδ2, rfl⟩ := hg
  obtain ⟨δ, hδ, herror1⟩ := error_addCount hdecr
  obtain rfl := Option.some.inj (hδ1.symm.trans hδ)
  obtain ⟨δ', hδ', herror2⟩ := error_addCount hincr
  rw [delta_addCount hdecr, hδ2, Option.map_some, if_neg hne.symm, Option.some.injEq] at hδ'
  rw [herror2, herror1, ← hδ', sub_eq_add_neg δ1 1]
  ring

/-- An item that comes back changes nothing. -/
theorem error_return {d d1 d2 : Distribution} {x : ℕ} (hdecr : d.decr x = some d1)
    (hincr : d1.incr x = some d2) : d2.error = d.error := by
  obtain ⟨δ, hδ, herror1⟩ := error_addCount hdecr
  obtain ⟨δ', hδ', herror2⟩ := error_addCount hincr
  rw [delta_addCount hdecr, hδ, Option.map_some, if_pos rfl, Option.some.injEq] at hδ'
  have hback : δ' + 1 = δ := by omega
  rw [herror2, herror1, hδ', hback]
  ring

end Distribution

namespace Netlist

variable {addr : NodeId ↪ ℕ} {nl nl' : Netlist} {src snk : NodeId}

/-- The error of the three histograms that `getMaxGain` looks at. -/
def distError (nl : Netlist) : ℤ := nl.fiDist.error + nl.foDist.error + nl.bboxDist.error

/-- The box that `getMaxGain` expects is the box that `connect` makes. -/
theorem addEdge_bboxSize_src (nl : Netlist) (src snk : NodeId) :
    let n := nl.node src
    (nl.addEdge src snk).bboxSize src =
      (max n.ux (nl.x snk) - min n.lx (nl.x snk)) + (max n.uy (nl.y snk) - min n.ly (nl.y snk)) := by
  obtain ⟨hlx, hly, hux, huy⟩ := nl.addEdge_box src snk src
  rw [if_pos rfl] at hlx hly hux huy
  simp only [bboxSize, Node.bboxSize, hlx, hly, hux, huy, max_comm, min_comm]

theorem error_bbox {bbox1 bbox2 : Distribution} {g : ℤ}
    (hdecr : nl.bboxDist.decr (nl.bboxSize src) = some bbox1)
    (hincr : bbox1.incr ((nl.addEdge src snk).bboxSize src) = some bbox2)
    (hg : nl.localBboxG src (nl.binOf snk) = some g) : bbox2.error = nl.bboxDist.error - g := by
  have hsize := nl.addEdge_bboxSize_src src snk
  dsimp only at hsize
  simp only [localBboxG] at hg
  change (if nl.bboxSize src < _ then _ else _) = _ at hg
  rw [← Netlist.x, ← Netlist.y, ← hsize] at hg
  split at hg
  · next hlt => exact Distribution.error_move hlt.ne hdecr hincr hg
  · next hge =>
      have hkept : (nl.addEdge src snk).bboxSize src = nl.bboxSize src := by
        apply le_antisymm (Nat.not_lt.mp hge)
        rw [hsize]
        change (nl.node src).bboxSize ≤ _
        unfold Node.bboxSize
        omega
      rw [hkept] at hincr
      rw [Distribution.error_return hdecr hincr, ← Option.some.inj hg, sub_zero]

/-- Connecting a pair removes its gain less the rewards. -/
theorem connect_error {v : ℤ} (hgain : nl.pairGain (nl.binOf snk) src snk = some v)
    (h : nl.connect src snk = some nl') :
    nl'.distError = nl.distError -
      (v - 16 * (if nl.sinks src = [] then 1 else 0) -
        16 * (if nl.sources snk = [] then 1 else 0)) := by
  simp only [pairGain, fanoutGain, faninGain, Option.bind_eq_bind, Option.bind_eq_some_iff,
    Option.pure_def, Option.some.injEq] at hgain
  obtain ⟨foG, ⟨foErr, hfoErr, rfl⟩, bboxG, hbboxG, fiG, ⟨fiErr, hfiErr, rfl⟩, rfl⟩ := hgain
  obtain ⟨⟨fi, hfi, hfi'⟩, ⟨fo, hfo, hfo'⟩, ⟨bbox, hbbox, hbbox'⟩, -⟩ := connect_dists h
  have herrorFi := Distribution.error_move (Nat.succ_ne_self _).symm hfi hfi' hfiErr
  have herrorFo := Distribution.error_move (Nat.succ_ne_self _).symm hfo hfo' hfoErr
  have herrorBbox := error_bbox hbbox hbbox' hbboxG
  have hsinks : nl.sinks src = [] ↔ nl.numFanouts src = 0 := List.length_eq_zero_iff.symm
  have hsources : nl.sources snk = [] ↔ nl.numFanins snk = 0 := List.length_eq_zero_iff.symm
  rw [distError, herrorFi, herrorFo, herrorBbox, distError]
  simp only [hsinks, hsources]
  split <;> split <;> ring

end Netlist

namespace Matching

open Netlist

/-- In every state of the loop, connecting the pair that `getMaxGain` returns
removes its gain, less 16 for each end that had no connection, from the error of
the histograms. -/
theorem gain_removed (addr : NodeId ↪ ℕ) (ang : ArtNetGen) (s : Matching)
    (h : Reachable addr ang s) (c : Turn) {srcBin sinkBin : BinId}
    (hb : srcBin < s.netlist.numBins) (hb' : sinkBin < s.netlist.numBins) {g : Gain}
    (hg : s.netlist.getMaxGain addr c srcBin sinkBin = some (some g)) :
    ∃ nl, s.netlist.connect g.n1 g.n2 = some nl ∧
      nl.distError = s.netlist.distError -
        (g.value - 16 * (if s.netlist.sinks g.n1 = [] then 1 else 0) -
          16 * (if s.netlist.sources g.n2 = [] then 1 else 0)) := by
  have hc := h.inv.consistent
  have hw := h.inv.wired
  rcases getMaxGain_examined hc hw c hb hb' with ⟨g', hg', hexamined, hvalue, -⟩ | ⟨hnil, -⟩
  · obtain rfl := Option.some.inj (Option.some.inj (hg'.symm.trans hg))
    obtain ⟨nl, hnl, -, -⟩ := connect_isDefined hc hw hexamined.linkable
    exact ⟨nl, hnl, connect_error (hexamined.inSinkBin.symm ▸ hvalue) hnl⟩
  · rw [hnil] at hg
    cases hg

theorem gain_removed_small :
    ∃ g nl, smallStart.netlist.getMaxGain (.refl ℕ) (.favouring 0 0) 0 0 = some (some g) ∧
      smallStart.netlist.connect g.n1 g.n2 = some nl ∧
      nl.distError = smallStart.netlist.distError -
        (g.value - 16 * (if smallStart.netlist.sinks g.n1 = [] then 1 else 0) -
          16 * (if smallStart.netlist.sources g.n2 = [] then 1 else 0)) := by
  obtain ⟨g, hg⟩ : ∃ g, smallStart.netlist.getMaxGain (.refl ℕ) (.favouring 0 0) 0 0 =
      some (some g) := by
    refine ⟨⟨36, 0, 1⟩, ?_⟩
    decide +kernel
  obtain ⟨nl, hnl, herror⟩ := gain_removed (.refl ℕ) smallAng smallStart smallStart_reachable
    (.favouring 0 0) (by decide +kernel) (by decide +kernel) hg
  exact ⟨g, nl, hg, hnl, herror⟩

end Matching

namespace Netlist

variable {addr : NodeId ↪ ℕ} {nl : Netlist}

/-! ## A best pair -/

/-- The pairs `getMaxGain` is to choose from. -/
structure Pairable (addr : NodeId ↪ ℕ) (nl : Netlist) (srcBin sinkBin : BinId)
    (src snk : NodeId) : Prop where
  srcMem : src < nl.size
  inSrcBin : nl.binOf src = srcBin
  srcType : nl.type src ≠ .primaryOut
  fanout : (nl.numFanouts src : ℤ) < nl.foDist.xMax
  snkMem : snk < nl.size
  inSinkBin : nl.binOf snk = sinkBin
  snkType : nl.type snk ≠ .primaryIn
  fanin : (nl.numFanins snk : ℤ) < nl.fiDist.xMax
  free : nl.type snk = .primaryOut ∧ nl.sources snk = [] ∨
    snk ∉ nl.sinks src ∧ (srcBin = sinkBin → addr src < addr snk)

theorem Examined.pairable {c : Turn} {srcBin sinkBin : BinId} {src snk : NodeId}
    (h : Examined addr nl c srcBin sinkBin src snk) :
    Pairable addr nl srcBin sinkBin src snk := by
  obtain ⟨hsnk, hport, horder, hnew⟩ := (mayConnect_iff nl _ _ _ _).mp h.mayConnect
  obtain ⟨_, -, hsrc, -⟩ := h.leads
  refine ⟨h.srcMem, h.inSrcBin, hsrc, h.fanout, h.snkMem, h.inSinkBin, hsnk, h.fanin, ?_⟩
  by_cases htype : nl.type snk = .primaryOut
  · exact Or.inl ⟨htype, hport htype⟩
  · exact Or.inr ⟨hnew htype, horder htype⟩

/-- A pair of largest gain is returned, or there is none to return. -/
def ReturnsBest (addr : NodeId ↪ ℕ) (nl : Netlist) (c : Turn) (srcBin sinkBin : BinId) : Prop :=
  (∃ g, nl.getMaxGain addr c srcBin sinkBin = some (some g) ∧
      Pairable addr nl srcBin sinkBin g.n1 g.n2 ∧
      nl.pairGain sinkBin g.n1 g.n2 = some g.value ∧
      ∀ src snk, Pairable addr nl srcBin sinkBin src snk →
        ∃ v ≤ g.value, nl.pairGain sinkBin src snk = some v) ∨
    nl.getMaxGain addr c srcBin sinkBin = some none ∧
      ∀ src snk, ¬ Pairable addr nl srcBin sinkBin src snk

/-- An eligible pair has a gain. -/
theorem Pairable.pairGain_isDefined (hc : nl.Consistent) (hw : Wired addr nl)
    {srcBin sinkBin : BinId} (hb' : sinkBin < nl.numBins) {src snk : NodeId}
    (h : Pairable addr nl srcBin sinkBin src snk) :
    ∃ v, nl.pairGain sinkBin src snk = some v := by
  have hfanout := h.fanout
  have hfanin := h.fanin
  obtain ⟨foG, hfoG⟩ := @Tallied.fanoutGain_isDefined _ hc.tallied (nl.numFanouts src) (by omega)
  obtain ⟨fiG, hfiG⟩ := @Tallied.faninGain_isDefined _ hc.tallied (nl.numFanins snk) (by omega)
  obtain ⟨bboxG, hbboxG⟩ := hc.localBboxG_isDefined hw h.srcMem hb'
  refine ⟨fiG + foG + bboxG, ?_⟩
  simp only [pairGain, hfoG, hfiG, hbboxG, Option.bind_eq_bind, Option.bind_some, Option.pure_def]

end Netlist

namespace Matching

open Netlist

/-- `getMaxGain` returns a best pair exactly when no pair gains more than all
pairs with a leading source. -/
theorem returnsBest_iff (addr : NodeId ↪ ℕ) (ang : ArtNetGen) (s : Matching)
    (h : Reachable addr ang s) (c : Turn) {srcBin sinkBin : BinId}
    (hb : srcBin < s.netlist.numBins) (hb' : sinkBin < s.netlist.numBins) :
    ReturnsBest addr s.netlist c srcBin sinkBin ↔
      ∀ src snk, Pairable addr s.netlist srcBin sinkBin src snk →
        ∃ src' snk', Examined addr s.netlist c srcBin sinkBin src' snk' ∧
          ∃ v v', s.netlist.pairGain sinkBin src snk = some v ∧
            s.netlist.pairGain sinkBin src' snk' = some v' ∧ v ≤ v' := by
  have hc := h.inv.consistent
  have hw := h.inv.wired
  have hspec := getMaxGain_examined hc hw c hb hb'
  constructor
  · rintro (⟨g, hg, -, -, hall⟩ | ⟨-, hnone⟩) src snk hpair
    · obtain ⟨v, hle, hv⟩ := hall src snk hpair
      rcases hspec with ⟨g', hg', hexamined, hvalue, -⟩ | ⟨hnil, -⟩
      · rw [hg', Option.some.injEq, Option.some.injEq] at hg
        exact ⟨g'.n1, g'.n2, hexamined, v, g'.value, hv, hvalue, hg ▸ hle⟩
      · rw [hnil] at hg
        cases hg
    · exact absurd hpair (hnone src snk)
  · intro hmatched
    rcases hspec with ⟨g, hg, hexamined, hvalue, hall⟩ | ⟨hnil, hnone⟩
    · refine Or.inl ⟨g, hg, hexamined.pairable, hvalue, fun src snk hpair => ?_⟩
      obtain ⟨src', snk', hexamined', v, v', hv, hv', hle⟩ := hmatched src snk hpair
      obtain ⟨v'', hle', hv''⟩ := hall src' snk' hexamined'
      obtain rfl := Option.some.inj (hv'.symm.trans hv'')
      exact ⟨v, hle.trans hle', hv⟩
    · refine Or.inr ⟨hnil, fun src snk hpair => ?_⟩
      obtain ⟨src', snk', hexamined', -⟩ := hmatched src snk hpair
      exact hnone src' snk' hexamined'

theorem returnsBest_iff_small :
    ReturnsBest (.refl ℕ) smallStart.netlist (.favouring 0 0) 0 0 ↔
      ∀ src snk, Pairable (.refl ℕ) smallStart.netlist 0 0 src snk →
        ∃ src' snk', Examined (.refl ℕ) smallStart.netlist (.favouring 0 0) 0 0 src' snk' ∧
          ∃ v v', smallStart.netlist.pairGain 0 src snk = some v ∧
            smallStart.netlist.pairGain 0 src' snk' = some v' ∧ v ≤ v' :=
  returnsBest_iff (.refl ℕ) smallAng smallStart smallStart_reachable (.favouring 0 0)
    (by decide +kernel) (by decide +kernel)

/-- The gate comes first among the sources of the bin, and no sink of the bin
has a higher address. The input before it could drive it. -/
theorem smallStart_missed :
    ArtNetGen.init { libs := [] } smallSpec = some smallAng ∧
      Reachable (.refl ℕ) smallAng smallStart ∧
      smallStart.netlist.getMaxGain (.refl ℕ) (.favouring 1 0) 0 0 = some none ∧
      Pairable (.refl ℕ) smallStart.netlist 0 0 0 1 ∧
      ¬ ReturnsBest (.refl ℕ) smallStart.netlist (.favouring 1 0) 0 0 := by
  have hnone : smallStart.netlist.getMaxGain (.refl ℕ) (.favouring 1 0) 0 0 = some none := by
    decide +kernel
  have hpair : Pairable (.refl ℕ) smallStart.netlist 0 0 0 1 := by
    refine ⟨by decide +kernel, by decide +kernel, by decide +kernel, by decide +kernel,
      by decide +kernel, by decide +kernel, by decide +kernel, by decide +kernel, Or.inr ⟨?_, ?_⟩⟩
    · decide +kernel
    · exact fun _ => Nat.zero_lt_one
  refine ⟨(Option.some_get _).symm, smallStart_reachable, hnone, hpair, ?_⟩
  rintro (⟨g, hg, -⟩ | ⟨-, hall⟩)
  · rw [hnone] at hg
    cases hg
  · exact hall 0 1 hpair

end Matching

end Artnetgen
