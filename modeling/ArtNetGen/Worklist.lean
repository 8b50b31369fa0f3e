import ArtNetGen.Cutting

/-!
The worklist of the merge passes. It lists the registers exactly, and the two
counters are the numbers of gates and registers, at every visit of both passes:
so what is erased from it is always found.
-/

namespace Artnetgen

namespace Netlist

variable {nl nl' : Netlist}

/-! ## The numbers of gates and registers -/

theorem countP_pair {l : List NodeId} (hl : l.Nodup) {n1 n2 : NodeId} (hne : n1 ≠ n2)
    (h1 : n1 ∈ l) (h2 : n2 ∈ l) : (l.countP fun v => decide (v = n1 ∨ v = n2)) = 2 := by
  have hone : ∀ n ∈ l, (l.countP fun v => decide (v = n)) = 1 := fun n hn =>
    (Counts.countP_eq_one_iff hl).mpr ⟨n, hn, by simp, by simp⟩
  rw [Counts.countP_or fun v _ hv hv' => hne (hv.symm.trans hv'), hone n1 h1, hone n2 h2]

theorem numOf_retyped {n1 n2 : NodeId} {binOf : NodeId → BinId} {graph : Adjacency NodeId}
    (h : Becomes nl nl' (nl.size + 1) (nl.retyped [n1, n2]) binOf graph) (hne : n1 ≠ n2)
    (hlt1 : n1 < nl.size) (hlt2 : n2 < nl.size) (hseq1 : nl.type n1 = .sequential)
    (hseq2 : nl.type n2 = .sequential) :
    nl'.numOf .combinational = nl.numOf .combinational + 2 ∧
      nl'.numOf .sequential + 1 = nl.numOf .sequential := by
  have hpair := countP_pair List.nodup_range hne (List.mem_range.mpr hlt1)
    (List.mem_range.mpr hlt2)
  have hnew : nl'.type nl.size = .sequential := by
    rw [h.type, retyped, if_neg (by simp [hlt1.ne', hlt2.ne']), if_pos rfl]
  have hold : ∀ v < nl.size, nl'.type v = if v = n1 ∨ v = n2 then .combinational else nl.type v := by
    intro v hv
    rw [h.type, retyped, if_neg hv.ne]
    simp only [List.mem_cons, List.not_mem_nil, or_false]
  have hsplit : ∀ t, nl'.numOf t = ((List.range nl.size).countP fun v => decide (nl'.type v = t)) +
      if t = .sequential then 1 else 0 := by
    intro t
    unfold numOf
    rw [nodes, h.size, List.range_succ, List.countP_append, List.countP_singleton, hnew]
    simp [eq_comm]
  constructor
  · have hother : ¬ NodeType.combinational = .sequential := by decide
    rw [hsplit, if_neg hother, Nat.add_zero, numOf, nodes, ← hpair, Nat.add_comm,
      ← Counts.countP_or]
    · apply List.countP_congr
      intro v hv
      rw [decide_eq_true_eq, decide_eq_true_eq, hold v (List.mem_range.mp hv)]
      split
      · next hin => simp [hin]
      · next hout => simp [hout]
    · rintro v - (rfl | rfl) hcomb
      · rw [hseq1] at hcomb
        cases hcomb
      · rw [hseq2] at hcomb
        cases hcomb
  · have htwo : 1 + 1 = (List.range nl.size).countP fun v => decide (v = n1 ∨ v = n2) := hpair.symm
    rw [hsplit, if_pos rfl, Nat.add_assoc, htwo, numOf, nodes, Nat.add_comm, ← Counts.countP_or]
    · apply List.countP_congr
      intro v hv
      rw [decide_eq_true_eq, decide_eq_true_eq, hold v (List.mem_range.mp hv)]
      split
      · next hin =>
          rcases hin with rfl | rfl
          · simp [hseq1]
          · simp [hseq2]
      · next hout => simp [hout]
    · intro v hv hin hseq
      rw [hold v (List.mem_range.mp hv), if_pos hin] at hseq
      cases hseq

end Netlist

namespace Fitting

variable {s s' : Fitting} {front : Bool} {combRatio : ℚ} {c : Pass}

/-- The worklist lists the registers, each once under the index of its bin, and
the counters are right. -/
structure Exact (s : Fitting) : Prop where
  listed : s.Listed s.netlist.nodes
  comb : s.numCombNodes = s.netlist.numOf .combinational
  sequ : s.numSequNodes = s.netlist.numOf .sequential

/-! ## The start -/

theorem count_counters {node : NodeId} (h : s.count node = some s') :
    s'.netlist = s.netlist ∧
      s'.numCombNodes = s.numCombNodes + (if s.netlist.type node = .combinational then 1 else 0) ∧
      s'.numSequNodes = s.numSequNodes + if s.netlist.type node = .sequential then 1 else 0 := by
  unfold Fitting.count at h
  split at h
  · next htype =>
      simp only [Option.bind_eq_bind, Option.bind_eq_some_iff, Option.pure_def,
        Option.some.injEq] at h
      obtain ⟨id, -, rfl⟩ := h
      simp [htype]
  · next htype =>
      obtain rfl := Option.some.inj h
      simp [htype]
  · next hseq hcomb =>
      obtain rfl := Option.some.inj h
      rw [if_neg fun heq => hcomb heq, if_neg fun heq => hseq heq, add_zero, add_zero]
      exact ⟨rfl, rfl, rfl⟩

theorem counts_counters (l : List NodeId) (h : l.foldlM Fitting.count s = some s') :
    s'.netlist = s.netlist ∧
      s'.numCombNodes = s.numCombNodes +
        (l.countP fun v => decide (s.netlist.type v = .combinational) : ℕ) ∧
      s'.numSequNodes = s.numSequNodes +
        (l.countP fun v => decide (s.netlist.type v = .sequential) : ℕ) := by
  induction l generalizing s with
  | nil =>
      obtain rfl := Option.some.inj h
      simp
  | cons node rest ih =>
      obtain ⟨mid, hmid, hrest⟩ := Loop.foldlM_cons_eq_some.mp h
      obtain ⟨hnetlist, hcomb, hsequ⟩ := count_counters hmid
      obtain ⟨hnetlist', hcomb', hsequ'⟩ := ih hrest
      rw [hnetlist] at hnetlist' hcomb' hsequ'
      refine ⟨hnetlist', ?_, ?_⟩
      · rw [hcomb', hcomb, List.countP_cons]
        simp only [decide_eq_true_eq]
        split <;> push_cast <;> omega
      · rw [hsequ', hsequ, List.countP_cons]
        simp only [decide_eq_true_eq]
        split <;> push_cast <;> omega

theorem start_exact {nl : Netlist} (h : start nl = some s) : s.Exact := by
  obtain ⟨hlisted, hnetlist⟩ := start_listed h
  simp only [start, Option.bind_eq_bind, Option.bind_eq_some_iff, Option.pure_def,
    Option.some.injEq] at h
  obtain ⟨s0, hs0, rfl⟩ := h
  obtain ⟨-, hcomb, hsequ⟩ := counts_counters nl.nodes hs0
  dsimp only at hnetlist hcomb hsequ
  rw [zero_add] at hcomb hsequ
  subst hnetlist
  exact ⟨hlisted, hcomb, hsequ⟩

/-! ## A visit -/

theorem Exact.merge (h : s.Exact) {n1 n2 : NodeId} (hne : n1 ≠ n2)
    (hlisted : ∀ v ∈ [n1, n2], ∃ idx, v ∈ s.targets idx)
    (hmerge : s.merge n1 n2 front = some s') : s'.Exact := by
  have hpair : ∃ nl n, s.netlist.mergePair n1 n2 front = some (nl, n) := by
    simp only [Fitting.merge, Option.bind_eq_bind, Option.bind_eq_some_iff] at hmerge
    obtain ⟨⟨nl, n⟩, hpair, -⟩ := hmerge
    exact ⟨nl, n, hpair⟩
  obtain ⟨nl, n, hpair⟩ := hpair
  obtain ⟨_, _, _, s'', -, -, -, -, -, hmerged, rfl, hlisted', hcomb, hsequ⟩ :=
    h.listed.merge hne hlisted hpair
  obtain rfl := Option.some.inj (hmerged.symm.trans hmerge)
  obtain ⟨idx1, hin1⟩ := hlisted n1 (by simp)
  obtain ⟨idx2, hin2⟩ := hlisted n2 (by simp)
  obtain ⟨hnode1, hseq1, -⟩ := (h.listed.mem idx1 n1).mp hin1
  obtain ⟨hnode2, hseq2, -⟩ := (h.listed.mem idx2 n2).mp hin2
  have hlt1 := List.mem_range.mp hnode1
  have hlt2 := List.mem_range.mp hnode2
  obtain ⟨-, graph, hbecomes⟩ := Netlist.mergePair_placed hne hlt1 hlt2 hpair
  obtain ⟨hcombs, hsequs⟩ := Netlist.numOf_retyped hbecomes hne hlt1 hlt2 hseq1 hseq2
  refine ⟨hlisted', ?_, ?_⟩
  · rw [hcomb, h.comb, hcombs]
    push_cast
    rfl
  · rw [hsequ, h.sequ, ← hsequs]
    push_cast
    omega

theorem Exact.visit (h : s.Exact) {v : ℕ × BinId}
    (hvisit : visit front combRatio c s v = some s') : s'.Exact := by
  unfold Fitting.visit at hvisit
  split at hvisit
  · exact Option.some.inj hvisit ▸ h
  · cases hpick : s.pick front c v.1 v.2 with
    | none =>
        rw [hpick] at hvisit
        exact Option.some.inj hvisit ▸ h
    | some pair =>
        obtain ⟨n1, n2⟩ := pair
        rw [hpick] at hvisit
        obtain ⟨hne, hlisted⟩ := h.listed.pick hpick
        exact h.merge hne hlisted hvisit

theorem Exact.visits (h : s.Exact) {l : List (ℕ × BinId)}
    (hvisits : l.foldlM (Fitting.visit front combRatio c) s = some s') : s'.Exact :=
  Loop.invariant Exact (fun _ _ _ _ ht hvisit => ht.visit hvisit) h hvisits

/-- Whatever pair a visit merges, both nodes are registers and are found on the
worklist when they are to be erased from it. -/
structure Safe (s : Fitting) (front : Bool) (c : Pass) (v : ℕ × BinId) : Prop where
  registers : ∀ n1 n2, s.pick front c v.1 v.2 = some (n1, n2) →
    n1 ≠ n2 ∧ ∀ t ∈ [n1, n2], t ∈ s.netlist.nodes ∧ s.netlist.type t = .sequential
  found : ∀ n1 n2, s.pick front c v.1 v.2 = some (n1, n2) →
    ∀ nl n3, s.netlist.mergePair n1 n2 front = some (nl, n3) →
      ∃ idx1 idx2 targets, nl.targetIdx n1 = some idx1 ∧ nl.targetIdx n2 = some idx2 ∧
        n1 ∈ s.targets idx1 ∧ eraseTarget s.targets idx1 n1 = some targets ∧ n2 ∈ targets idx2

theorem Exact.safe (h : s.Exact) (v : ℕ × BinId) : s.Safe front c v := by
  refine ⟨fun n1 n2 hpick => ?_, fun n1 n2 hpick nl n3 hpair => ?_⟩
  · obtain ⟨hne, hlisted⟩ := h.listed.pick hpick
    refine ⟨hne, fun t ht => ?_⟩
    obtain ⟨idx, hin⟩ := hlisted t ht
    obtain ⟨hnode, hseq, -⟩ := (h.listed.mem idx t).mp hin
    exact ⟨hnode, hseq⟩
  · obtain ⟨hne, hlisted⟩ := h.listed.pick hpick
    obtain ⟨idx1, idx2, targets, _, hidx1, hidx2, hin1, herase, hin2, -⟩ :=
      h.listed.merge hne hlisted hpair
    exact ⟨idx1, idx2, targets, hidx1, hidx2, hin1, herase, hin2⟩

/-- At every visit of the front pass, and of the back pass after it, the worklist
and the counters are exact and what is erased is there. -/
theorem passes_exact (nl : Netlist) (combRatio : ℚ) (front back : Pass) (atFront : Fitting)
    (hstart : start nl = some atFront) :
    (∀ done rest s, Fitting.visits atFront.netlist front = done ++ rest →
      done.foldlM (Fitting.visit true combRatio front) atFront = some s →
        s.Exact ∧ ∀ v ∈ rest, s.Safe true front v) ∧
    ∀ atBack, atFront.pass true combRatio front = some atBack →
      ∀ done rest s, Fitting.visits atBack.netlist back = done ++ rest →
        done.foldlM (Fitting.visit false combRatio back) atBack = some s →
          s.Exact ∧ ∀ v ∈ rest, s.Safe false back v := by
  have hexact := start_exact hstart
  refine ⟨fun done rest s _ hs => ?_, fun atBack hpass done rest s _ hs => ?_⟩
  · have hs' := hexact.visits hs
    exact ⟨hs', fun v _ => hs'.safe v⟩
  · have hs' := (hexact.visits hpass).visits hs
    exact ⟨hs', fun v _ => hs'.safe v⟩

end Fitting

/-- The run that merges two registers. -/
theorem Fitting.passes_exact_deep : deepRun.atBack.Exact ∧ deepRun.fitted.Exact := by
  obtain ⟨hfront, hback⟩ := Fitting.passes_exact deepRun.cutNetlist deepAng.combRatio
    deepRun.front deepRun.back deepRun.atFront deepRun.start
  exact ⟨(hfront _ [] _ (List.append_nil _).symm deepRun.frontPass).1,
    (hback _ deepRun.frontPass _ [] _ (List.append_nil _).symm deepRun.backPass).1⟩

end Artnetgen
