import ArtNetGen.Candidates
import ArtNetGen.Naming
import ArtNetGen.Library.Walk
import Mathlib.Data.Prod.Lex

/-!
The runs of `distMatching`. A turn either adds the edge of an eligible pair or
only reshuffles the bins; from this follow the invariants of every reachable
state, and that no table is ever read out of range.
-/

namespace Artnetgen

namespace Matching

variable {addr : NodeId ↪ ℕ}

/-- What holds before and after every turn. -/
structure Inv (addr : NodeId ↪ ℕ) (s : Matching) : Prop where
  consistent : s.netlist.Consistent
  wired : Netlist.Wired addr s.netlist
  types : ∀ v, s.netlist.type v = .primaryIn ∨ s.netlist.type v = .primaryOut ∨
    s.netlist.type v = .combinational
  srcBins : ∀ b, b ∈ s.srcBins ↔ b < s.netlist.numBins
  named : s.netlist.Named

/-- All candidates of a turn are eligible pairs at the drawn length. -/
theorem Inv.candidates {s : Matching} (h : s.Inv addr) (c : Turn) (edgeLength : ℕ) :
    ∃ cs, s.candidates addr c edgeLength = some cs ∧
      ∀ g ∈ cs, Netlist.Eligible addr s.netlist g.n1 g.n2 ∧
        s.netlist.At edgeLength (s.netlist.binOf g.n1) (s.netlist.binOf g.n2) := by
  have hbin : ∀ b ∈ c.srcBins.val s.srcBins, b < s.netlist.numBins := fun b hb =>
    (h.srcBins b).mp ((c.srcBins.2 s.srcBins).mem_iff.mp hb)
  -- One source bin.
  have hone : ∀ b ∈ c.srcBins.val s.srcBins,
      ∃ l, candidatesAt addr s.netlist c edgeLength b = some l ∧
        ∀ g ∈ l, Netlist.Eligible addr s.netlist g.n1 g.n2 ∧
          s.netlist.At edgeLength (s.netlist.binOf g.n1) (s.netlist.binOf g.n2) := by
    intro b hb
    obtain ⟨sinkBins, hsinkBins, hmem⟩ := h.consistent.placed.getSinkBins b edgeLength
    have hat : ∀ b' ∈ (c.sinkBins b).val sinkBins, s.netlist.At edgeLength b b' := fun b' hb' =>
      (hmem b').mp (((c.sinkBins b).2 sinkBins).mem_iff.mp hb')
    obtain ⟨l, hl⟩ := Loop.collect_isDefined fun b' hb' =>
      (Netlist.pairs_spec h.consistent h.wired c (hbin b hb) (hat b' hb')).imp fun _ h => h.1
    refine ⟨l, by simp [candidatesAt, hsinkBins, hl], fun g hg => ?_⟩
    obtain ⟨b', hb', l', hl', hin⟩ := (Loop.mem_collect hl g).mp hg
    obtain ⟨l'', hl'', hspec⟩ :=
      Netlist.pairs_spec h.consistent h.wired c (hbin b hb) (hat b' hb')
    obtain rfl : l' = l'' := Option.some.inj (hl'.symm.trans hl'')
    obtain ⟨heligible, hn1, hn2⟩ := hspec g hin
    exact ⟨heligible, hn1.symm ▸ hn2.symm ▸ hat b' hb'⟩
  obtain ⟨cs, hcs⟩ := Loop.collect_isDefined fun b hb => (hone b hb).imp fun _ h => h.1
  refine ⟨cs, hcs, fun g hg => ?_⟩
  obtain ⟨b, hb, l, hl, hin⟩ := (Loop.mem_collect hcs g).mp hg
  obtain ⟨l', hl', hspec⟩ := hone b hb
  obtain rfl : l = l' := Option.some.inj (hl.symm.trans hl')
  exact hspec g hin

/-- What a turn does: it draws a length, and connects the best candidate at
that length if there is one. -/
inductive Turned (addr : NodeId ↪ ℕ) (s : Matching) (c : Turn) : Matching → Prop where
  | retry {edgeLength : ℕ}
      (hdraw : s.edgeSampling[c.rand % s.edgeSampling.length]? = some edgeLength)
      (hnone : s.candidates addr c edgeLength = some []) :
      Turned addr s c { s with srcBins := c.srcBins.val s.srcBins }
  | connect {edgeLength : ℕ} {cs : List Gain} {g : Gain} {nl : Netlist}
      (hdraw : s.edgeSampling[c.rand % s.edgeSampling.length]? = some edgeLength)
      (hcs : s.candidates addr c edgeLength = some cs)
      (hbest : cs.argmax Gain.value = some g)
      (heligible : Netlist.Eligible addr s.netlist g.n1 g.n2)
      (hat : s.netlist.At edgeLength (s.netlist.binOf g.n1) (s.netlist.binOf g.n2))
      (hconnected : Netlist.Connected s.netlist nl g.n1 g.n2)
      (hconsistent : nl.Consistent) :
      Turned addr s c { s with
        netlist := nl
        srcBins := c.srcBins.val s.srcBins
        curEdgeCnt := s.curEdgeCnt + 1 }

/-- With something to draw from, every turn is defined. -/
theorem Inv.turn {s : Matching} (h : s.Inv addr) (hsampling : s.edgeSampling ≠ []) (c : Turn) :
    ∃ s', s.turn addr c = some s' ∧ Turned addr s c s' := by
  have hlt : c.rand % s.edgeSampling.length < s.edgeSampling.length :=
    Nat.mod_lt _ (List.length_pos_iff.mpr hsampling)
  have hdraw := List.getElem?_eq_getElem hlt
  obtain ⟨cs, hcs, hspec⟩ := h.candidates c s.edgeSampling[c.rand % s.edgeSampling.length]
  have hmax : s.maxGain addr c s.edgeSampling[c.rand % s.edgeSampling.length] =
      some (cs.argmax Gain.value) := by
    rw [maxGain_eq, hcs]
    rfl
  cases hbest : cs.argmax Gain.value with
  | none =>
      obtain rfl := List.argmax_eq_none.mp hbest
      refine ⟨_, ?_, .retry hdraw hcs⟩
      simp [Matching.turn, hdraw, hmax]
  | some g =>
      obtain ⟨heligible, hat⟩ := hspec g (List.argmax_eq_some_iff.mp hbest).1
      obtain ⟨nl, hnl, hconnected, hconsistent⟩ :=
        Netlist.connect_isDefined h.consistent h.wired heligible.joinable.linkable
      refine ⟨_, ?_, .connect hdraw hcs hbest heligible hat hconnected hconsistent⟩
      simp [Matching.turn, hdraw, hmax, hbest, hnl]

theorem Inv.turned {s s' : Matching} {c : Turn} (h : s.Inv addr) (hturn : Turned addr s c s') :
    s'.Inv addr := by
  have hbins : ∀ b, b ∈ c.srcBins.val s.srcBins ↔ b < s.netlist.numBins := fun b =>
    (c.srcBins.2 s.srcBins).mem_iff.trans (h.srcBins b)
  cases hturn with
  | retry hdraw hnone => exact ⟨h.consistent, h.wired, h.types, hbins, h.named⟩
  | connect hdraw hcs hbest heligible hat hconnected hconsistent =>
      refine ⟨hconsistent, hconnected.wired h.wired heligible.joinable,
        hconnected.type ▸ h.types, fun b => ?_, h.named.connected hconnected⟩
      rw [hbins b, Netlist.numBins, Netlist.numBins, hconnected.layoutDimX,
        hconnected.layoutDimY]

/-- A step of the machine is a turn, unless the loop has returned. -/
theorem Inv.step_cases {s s' : Matching} {c : Turn} (h : s.Inv addr)
    (hstep : s.step addr c = some s') :
    (s.Returned ∧ s' = s) ∨ (s.curEdgeCnt < s.tarEdgeCnt ∧ Turned addr s c s') := by
  simp only [step] at hstep
  split at hstep
  · next hlt =>
      by_cases hsampling : s.edgeSampling = []
      · simp [Matching.turn, hsampling] at hstep
      · obtain ⟨s'', hs'', hturned⟩ := h.turn hsampling c
        obtain rfl : s'' = s' := Option.some.inj (hs''.symm.trans hstep)
        exact Or.inr ⟨hlt, hturned⟩
  · next hge =>
      simp only [Option.some.injEq] at hstep
      exact Or.inl ⟨Int.not_lt.mp hge, hstep.symm⟩

theorem Inv.step {s s' : Matching} {c : Turn} (h : s.Inv addr)
    (hstep : s.step addr c = some s') : s'.Inv addr := by
  rcases h.step_cases hstep with ⟨-, rfl⟩ | ⟨-, hturned⟩
  · exact h
  · exact h.turned hturned

theorem Inv.run {s s' : Matching} {turns : List Turn} (h : s.Inv addr)
    (hrun : turns.foldlM (Matching.step addr) s = some s') : s'.Inv addr :=
  Loop.invariant (Matching.Inv addr) (fun _ _ _ _ hinv hstep => hinv.step hstep) h hrun

/-- Without edges there is nothing to violate. -/
theorem wired_of_unconnected {nl : Netlist} (hc : nl.Consistent)
    (h : ∀ v, nl.sources v = [] ∧ nl.sinks v = []) : Netlist.Wired addr nl where
  simple := by
    refine ⟨fun u v => ?_, fun u v => ?_, fun u => ?_⟩
    · change (nl.sinks u).count v = (nl.sources v).count u
      rw [(h u).2, (h v).1, List.count_nil, List.count_nil]
    · change (nl.sinks u).count v ≤ 1
      rw [(h u).2, List.count_nil]
      exact Nat.zero_le 1
    · change u ∉ nl.sinks u
      rw [(h u).2]
      exact List.not_mem_nil
  fresh v _ := h v
  primaryIn v _ := (h v).1
  primaryOut v _ := by
    rw [← Netlist.length_sources, (h v).1, (h v).2]
    exact ⟨rfl, Nat.zero_le 1⟩
  monotone u v hv := by
    rw [(h u).2] at hv
    cases hv
  order u v hv := by
    rw [(h u).2] at hv
    cases hv
  fanin v hv := by
    have hrange := hc.tallied.fi.inRange v (List.mem_range.mpr hv)
    rw [hc.tallied.fiLength] at hrange
    rw [← Netlist.length_sources, (h v).1, List.length_nil]
    omega
  fanout v hv := by
    have hrange := hc.tallied.fo.inRange v (List.mem_range.mpr hv)
    rw [hc.tallied.foLength] at hrange
    rw [← Netlist.length_sinks, (h v).2, List.length_nil]
    omega

/-- The state in which the loop is entered. -/
theorem enter_spec {ang : ArtNetGen} {s : Matching} (h : enter ang = some s) :
    ∃ nl, Netlist.initializeNetlist ang = some nl ∧ nl.Initialized ∧
      Netlist.SameShape nl s.netlist ∧ s.netlist.Named ∧
      (∀ v, s.netlist.type v = .primaryIn ∨ s.netlist.type v = .primaryOut ∨
        s.netlist.type v = .combinational) ∧
      s.netlist.edgeDist.samplingVector = some s.edgeSampling ∧
      s.tarEdgeCnt = s.netlist.edgeDist.totalCnt ∧ s.curEdgeCnt = 0 ∧
      s.srcBins = s.netlist.bins := by
  simp only [enter, start, Option.bind_eq_bind, Option.bind_eq_some_iff, Option.pure_def,
    Option.some.injEq] at h
  obtain ⟨nl, hnl, nl0, hnl0, sampling, hsampling, rfl⟩ := h
  have hinit := Netlist.initializeNetlist_spec hnl
  obtain ⟨hshape, htype⟩ := Netlist.setPrimaryIO_spec hnl0
  refine ⟨nl, hnl, hinit, hshape, Netlist.setPrimaryIO_named hinit hnl0, fun v => ?_, hsampling,
    rfl, rfl, rfl⟩
  rw [← hinit.combinational v]
  exact htype v

theorem enter_inv {ang : ArtNetGen} {s : Matching} (h : enter ang = some s) : s.Inv addr := by
  obtain ⟨nl, -, hinit, hshape, hnamed, htypes, -, -, -, hbins⟩ := enter_spec h
  have hc := hshape.consistent hinit.consistent
  refine ⟨hc, wired_of_unconnected hc fun v => ?_, htypes, fun b => ?_, hnamed⟩
  · obtain ⟨hsources, hsinks⟩ := hinit.unconnected v
    exact ⟨(congrFun (congrArg Adjacency.sources hshape.graph) v).trans hsources,
      (congrFun (congrArg Adjacency.sinks hshape.graph) v).trans hsinks⟩
  · rw [hbins]
    exact List.mem_range

theorem Reachable.step {ang : ArtNetGen} {s s' : Matching} {c : Turn}
    (h : Reachable addr ang s) (hstep : s.step addr c = some s') : Reachable addr ang s' := by
  obtain ⟨s0, hs0, turns, hrun⟩ := h
  exact ⟨s0, hs0, turns ++ [c],
    Loop.foldlM_append_eq_some.mpr ⟨s, hrun, Loop.foldlM_cons_eq_some.mpr ⟨s', hstep, rfl⟩⟩⟩

theorem Reachable.inv {ang : ArtNetGen} {s : Matching} (h : Reachable addr ang s) :
    s.Inv addr := by
  obtain ⟨s0, hs0, turns, hrun⟩ := h
  exact (enter_inv hs0).run hrun

end Matching

namespace Netlist

variable {addr : NodeId ↪ ℕ} {nl : Netlist}

/-- `u` drives `v`. -/
def Drives (nl : Netlist) (u v : NodeId) : Prop := v ∈ nl.sinks u

/-- Edges run from lower to higher bins and, inside a bin, to higher addresses,
except that an output may lie anywhere in the bin. An output drives nothing, so
the exception closes no cycle. -/
theorem Wired.acyclic (hw : Wired addr nl) (hp : nl.Placed) : Walks.Acyclic nl.Drives := by
  have hlt : ∀ u v, nl.Drives u v → u < nl.size ∧ v < nl.size := by
    intro u v hv
    refine ⟨?_, hw.sinks_lt hv⟩
    by_contra hge
    have hsinks : nl.sinks u = [] := (hw.fresh u (Nat.le_of_not_lt hge)).2
    unfold Drives at hv
    rw [hsinks] at hv
    cases hv
  have hinner : Walks.Acyclic fun u v => nl.Drives u v ∧ nl.type v ≠ .primaryOut := by
    apply Walks.acyclic_of_rank (fun v => toLex (nl.x v + nl.y v, addr v))
    rintro u v ⟨hv, htype⟩
    obtain ⟨hx, hy⟩ := hw.monotone u v hv
    rw [Prod.Lex.toLex_lt_toLex]
    by_cases hbin : nl.binOf u = nl.binOf v
    · refine Or.inr ⟨?_, hw.order u v hv htype hbin⟩
      simp only [x, y, hbin]
    · refine Or.inl (lt_of_le_of_ne (Nat.add_le_add hx hy) fun hsum => hbin ?_)
      obtain ⟨hu, hv'⟩ := hlt u v hv
      dsimp only at hsum
      exact hp.bin_injective (hp.inGrid u hu) (hp.inGrid v hv')
        (show nl.x u = nl.x v by omega) (show nl.y u = nl.y v by omega)
  apply hinner.of_inner
  rintro u v hv - ⟨w, hw'⟩
  refine ⟨hv, fun htype => ?_⟩
  unfold Drives at hw'
  rw [(hw.primaryOut v htype).1] at hw'
  cases hw'

/-- Histograms, indices and boxes say what the graph says. -/
structure Tracks (nl : Netlist) : Prop where
  oneBin : ∀ v < nl.size, ∃! b, b < nl.numBins ∧ v ∈ (nl.bin b).nodes
  listedOnce : ∀ b < nl.numBins, (nl.bin b).nodes.Nodup
  fiCount : ∀ x < nl.fiDist.info.length,
    nl.fiDist.count x = some (nl.nodes.countP fun v => (nl.sources v).length = x : ℤ)
  foCount : ∀ x < nl.foDist.info.length,
    nl.foDist.count x = some (nl.nodes.countP fun v => (nl.sinks v).length = x : ℤ)
  bboxCount : ∀ x < nl.bboxDist.info.length,
    nl.bboxDist.count x = some (nl.nodes.countP fun v => (nl.node v).bboxSize = x : ℤ)
  inTables : ∀ v < nl.size, (nl.sources v).length < nl.fiDist.info.length ∧
    (nl.sinks v).length < nl.foDist.info.length ∧
    (nl.node v).bboxSize < nl.bboxDist.info.length
  fi2Nodes : ∀ b < nl.numBins, ∀ k l, (nl.bin b).fi2Nodes k = some l →
    l.Nodup ∧ ∀ v, v ∈ l ↔ v < nl.size ∧ nl.binOf v = b ∧ (nl.sources v).length = k
  fo2Nodes : ∀ b < nl.numBins, ∀ k l, (nl.bin b).fo2Nodes k = some l →
    l.Nodup ∧ ∀ v, v ∈ l ↔ v < nl.size ∧ nl.binOf v = b ∧ (nl.sinks v).length = k
  boxed : ∀ v < nl.size, nl.BoxedAt v

theorem Consistent.tracks (h : nl.Consistent) : nl.Tracks where
  oneBin v hv := by
    refine ⟨nl.binOf v, ⟨h.placed.inGrid v hv, ?_⟩, fun b ⟨hb, hmem⟩ => ?_⟩
    · exact ((h.placed.members _ (h.placed.inGrid v hv)).2 v).mpr ⟨hv, rfl⟩
    · exact (((h.placed.members b hb).2 v).mp hmem).2.symm
  listedOnce b hb := (h.placed.members b hb).1
  fiCount := h.tallied.fi.count
  foCount := h.tallied.fo.count
  bboxCount := h.tallied.bbox.count
  inTables v hv := by
    have hmem : v ∈ nl.nodes := List.mem_range.mpr hv
    exact ⟨h.tallied.fi.inRange v hmem, h.tallied.fo.inRange v hmem,
      h.tallied.bbox.inRange v hmem⟩
  fi2Nodes b hb k l hl := by
    have hk : k < (nl.fiDist.xMax + 1).toNat := by
      rw [← (h.indexed.fi b hb).2.1]
      exact (List.getElem?_eq_some_iff.mp hl).1
    obtain ⟨l', hl', hspec⟩ := h.fi2Nodes hb hk
    obtain rfl : l = l' := Option.some.inj (hl.symm.trans hl')
    exact hspec
  fo2Nodes b hb k l hl := by
    have hk : k < (nl.foDist.xMax + 1).toNat := by
      rw [← (h.indexed.fo b hb).2.1]
      exact (List.getElem?_eq_some_iff.mp hl).1
    obtain ⟨l', hl', hspec⟩ := h.fo2Nodes hb hk
    obtain rfl : l = l' := Option.some.inj (hl.symm.trans hl')
    exact hspec
  boxed := h.boxed

end Netlist

/-! ## Every reachable state -/

/-- In every state of the loop the graph is acyclic, its ports are legal, its
edges run to the right and upwards, and the fan limits hold. -/
theorem Matching.legal_of_reachable (addr : NodeId ↪ ℕ) (ang : ArtNetGen) (s : Matching)
    (h : Reachable addr ang s) :
    Walks.Acyclic s.netlist.Drives ∧ (∀ v, ¬ s.netlist.Drives v v) ∧
      (∀ v, s.netlist.type v = .primaryIn → s.netlist.sources v = []) ∧
      (∀ v, s.netlist.type v = .primaryOut →
        s.netlist.sinks v = [] ∧ (s.netlist.sources v).length ≤ 1) ∧
      (∀ u v, s.netlist.Drives u v →
        s.netlist.x u ≤ s.netlist.x v ∧ s.netlist.y u ≤ s.netlist.y v) ∧
      ∀ v < s.netlist.size, ((s.netlist.sources v).length : ℤ) ≤ s.netlist.fiDist.xMax ∧
        ((s.netlist.sinks v).length : ℤ) ≤ s.netlist.foDist.xMax := by
  have hinv := h.inv
  have hw := hinv.wired
  exact ⟨hw.acyclic hinv.consistent.placed, hw.simple.irreflexive, hw.primaryIn, hw.primaryOut,
    fun u v => hw.monotone u v, fun v hv => ⟨hw.fanin v hv, hw.fanout v hv⟩⟩

/-- From the end of `initialize` on, the tables track the graph, and as long as
there is an edge length to draw every turn finds all its indices in range. -/
theorem Matching.tracks_of_reachable (addr : NodeId ↪ ℕ) (ang : ArtNetGen) :
    (∀ nl, Netlist.initializeNetlist ang = some nl → nl.Tracks) ∧
      ∀ s, Reachable addr ang s → s.netlist.Tracks ∧
        (s.edgeSampling ≠ [] → ∀ c, ∃ s', s.step addr c = some s') := by
  refine ⟨fun nl hnl => (Netlist.initializeNetlist_spec hnl).consistent.tracks, fun s h => ?_⟩
  refine ⟨h.inv.consistent.tracks, fun hsampling c => ?_⟩
  simp only [step]
  split
  · exact (h.inv.turn hsampling c).imp fun _ h => h.1
  · exact ⟨s, rfl⟩

/-! A grid of two bins with three nodes: an input and a gate in the first bin,
an output in the second. -/

def smallSpec : List SpecLine :=
  [.fanin 0 1 (1 / 4), .fanin 1 3 (3 / 4), .fanin 2 0 0,
    .fanout 0 1 (1 / 3), .fanout 1 1 (1 / 3), .fanout 2 1 (1 / 3),
    .window 0 1 (1 / 2), .window 1 1 (1 / 2), .window 2 0 0, .window 3 0 0,
    .netbbox 0 1 (1 / 2), .netbbox 1 1 (1 / 2), .netbbox 2 0 0, .netbbox 3 0 0,
    .combRatio 1, .ipadCount 1, .opadCount 1]

def smallAng : ArtNetGen := (ArtNetGen.init { libs := [] } smallSpec).get (by decide +kernel)

theorem smallAng_enters : (Matching.enter smallAng).isSome = true := by decide +kernel

def smallStart : Matching := (Matching.enter smallAng).get smallAng_enters

theorem smallStart_reachable : Matching.Reachable (.refl ℕ) smallAng smallStart :=
  ⟨smallStart, (Option.some_get _).symm, [], rfl⟩

/-- First the gate is driven by the input, then the output by the gate. -/
def smallTurns : List Turn := [.favouring 0 0, .favouring 1 1]

def smallEnd : Matching :=
  (smallTurns.foldlM (Matching.step (.refl ℕ)) smallStart).get (by decide +kernel)

theorem smallEnd_reachable : Matching.Reachable (.refl ℕ) smallAng smallEnd :=
  ⟨smallStart, (Option.some_get _).symm, smallTurns, (Option.some_get _).symm⟩

theorem Matching.legal_of_reachable_small : ¬ smallStart.netlist.Drives 0 0 :=
  (Matching.legal_of_reachable (.refl ℕ) smallAng smallStart smallStart_reachable).2.1 0

theorem Matching.tracks_of_reachable_small : smallStart.netlist.Tracks :=
  ((Matching.tracks_of_reachable (.refl ℕ) smallAng).2 smallStart smallStart_reachable).1

end Artnetgen
