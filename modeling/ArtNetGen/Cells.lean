import ArtNetGen.Library.RoundRobin
import ArtNetGen.Mapping

/-!
How `technologyMapping` deals the cells of a class out. The targets are shares
rounded up, so together they are enough for all nodes, and the inner loop always
finds a cell within one round.
-/

namespace Artnetgen

open RoundRobin

/-- The inner loop, ended after `fuel` turns: the cell it stops at and `idxIter`
behind it. -/
def Dealing.nextMaster (masters : List DbMaster) (targetCnt currentCnt : DbMaster → ℤ) :
    ℕ → ℕ → Option (DbMaster × ℕ) :=
  seek masters fun master => decide (targetCnt master - currentCnt master > 0)

/-- The step of the outer loop takes one round of the inner loop at most. -/
theorem Dealing.deal_eq {masters : List DbMaster} {targetCnt : DbMaster → ℤ} {s : Dealing}
    (hidx : s.idxIter < masters.length) (target : NodeId) :
    s.deal masters targetCnt target =
      (nextMaster masters targetCnt s.currentCnt masters.length s.idxIter).map
        fun (master, idxIter) => {
          netlist := s.netlist.setDbMaster target master
          idxIter
          currentCnt := Function.update s.currentCnt master (s.currentCnt master + 1) } := by
  unfold nextMaster
  rw [seek_eq_find hidx, Option.map_map]
  rfl

namespace Netlist

/-- The target of a cell among those of its class, for `numNodes` nodes. -/
def targetOf (ratio : DbMaster → ℚ) (masters : List DbMaster) (numNodes : ℕ)
    (master : DbMaster) : ℤ :=
  ⌈(numNodes : ℚ) * ratio master / (masters.map ratio).sum⌉

/-! ## The targets -/

theorem countTargets_fold {masters : List DbMaster} (hnodup : masters.Nodup) (d : ℚ) (n : ℕ)
    (ratio : DbMaster → ℚ) (cnt : DbMaster → ℤ) (m : DbMaster) :
    let counts := masters.foldl (fun (master2ratio, targetCnt) master =>
      let ratio := master2ratio master / d
      (Function.update master2ratio master ratio,
        Function.update targetCnt master ⌈ratio * n⌉)) (ratio, cnt)
    counts.1 m = (if m ∈ masters then ratio m / d else ratio m) ∧
      counts.2 m = if m ∈ masters then ⌈ratio m / d * n⌉ else cnt m := by
  induction masters generalizing ratio cnt with
  | nil => exact ⟨rfl, rfl⟩
  | cons first rest ih =>
      obtain ⟨hfirst, hrest⟩ := List.nodup_cons.mp hnodup
      obtain ⟨hratio, hcnt⟩ := ih hrest (Function.update ratio first (ratio first / d))
        (Function.update cnt first ⌈ratio first / d * n⌉)
      dsimp only at hratio hcnt ⊢
      rw [List.foldl_cons, hratio, hcnt]
      by_cases hm : m = first
      · subst hm
        simp [hfirst]
      · simp [hm]

theorem countTargets_ratio (nl : Netlist) {masters : List DbMaster} (hnodup : masters.Nodup)
    (n : ℕ) (m : DbMaster) :
    (nl.countTargets masters n).1 m =
      if m ∈ masters then nl.master2ratio m / (masters.map nl.master2ratio).sum
      else nl.master2ratio m :=
  (countTargets_fold hnodup _ n nl.master2ratio (fun _ => 0) m).1

theorem countTargets_target (nl : Netlist) {masters : List DbMaster} (hnodup : masters.Nodup)
    (n : ℕ) {m : DbMaster} (hm : m ∈ masters) :
    (nl.countTargets masters n).2 m = targetOf nl.master2ratio masters n m := by
  have htarget := (countTargets_fold hnodup (masters.map nl.master2ratio).sum n nl.master2ratio
    (fun _ => 0) m).2
  rw [if_pos hm, div_mul_comm, mul_comm, ← mul_div_assoc, mul_comm] at htarget
  unfold targetOf
  exact htarget

/-- The cells of a class as a spec offers them: distinct, with positive ratios,
and some if there are nodes to be dealt to. -/
structure Offered (ratio : DbMaster → ℚ) (masters : List DbMaster) (targets : List NodeId) :
    Prop where
  nonempty : targets ≠ [] → masters ≠ []
  nodup : masters.Nodup
  pos : ∀ m ∈ masters, 0 < ratio m

namespace Offered

variable {ratio : DbMaster → ℚ} {masters : List DbMaster} {targets : List NodeId}

theorem sum_pos (h : Offered ratio masters targets) (hne : masters ≠ []) :
    0 < (masters.map ratio).sum := by
  refine List.sum_pos _ (fun x hx => ?_) (by simpa using hne)
  obtain ⟨m, hm, rfl⟩ := List.mem_map.mp hx
  exact h.pos m hm

theorem targetOf_nonneg (h : Offered ratio masters targets) (n : ℕ) {m : DbMaster}
    (hm : m ∈ masters) : 0 ≤ targetOf ratio masters n m := by
  have hsum := h.sum_pos (List.ne_nil_of_mem hm)
  have hpos := h.pos m hm
  exact Int.ceil_nonneg (by positivity)

theorem targets_sum (h : Offered ratio masters targets) (hne : masters ≠ []) (n : ℕ) :
    (n : ℤ) ≤ (masters.map (targetOf ratio masters n)).sum ∧
      (masters.map (targetOf ratio masters n)).sum ≤ n + (masters.length - 1 : ℤ) := by
  have hshares : ((masters.map ratio).map fun w => (n : ℚ) * w / (masters.map ratio).sum).sum =
      n := sum_shares (h.sum_pos hne).ne' n
  have hceil : masters.map (targetOf ratio masters n) =
      ((masters.map ratio).map fun w => (n : ℚ) * w / (masters.map ratio).sum).map
        fun share => ⌈share⌉ := by
    rw [List.map_map, List.map_map]
    rfl
  constructor
  · have hle := sum_le_sum_ceil
      ((masters.map ratio).map fun w => (n : ℚ) * w / (masters.map ratio).sum)
    rw [hshares, ← hceil] at hle
    exact_mod_cast hle
  · have hlt := @sum_ceil_lt
      ((masters.map ratio).map fun w => (n : ℚ) * w / (masters.map ratio).sum) (by simpa using hne)
    rw [hshares, ← hceil, List.length_map, List.length_map] at hlt
    have hlt' : (masters.map (targetOf ratio masters n)).sum < (n : ℤ) + masters.length := by
      exact_mod_cast hlt
    omega

end Offered

/-! ## The outer loop -/

/-- The state once the nodes `done` have their cells. -/
structure DealtSoFar (nl : Netlist) (masters : List DbMaster) (targetCnt : DbMaster → ℤ)
    (done : List NodeId) (s : Dealing) : Prop where
  idxIter : s.idxIter < masters.length
  served : Served masters targetCnt s.currentCnt done.length
  counted : ∀ m, s.currentCnt m =
    (done.countP fun v => decide ((s.netlist.node v).master = some m) : ℤ)
  mastered : ∀ v ∈ done, ∃ m ∈ masters, (s.netlist.node v).master = some m
  frame : ∀ v, v ∉ done → s.netlist.node v = nl.node v

theorem DealtSoFar.deal {nl : Netlist} {masters : List DbMaster} {targetCnt : DbMaster → ℤ}
    {done : List NodeId} {s : Dealing} (h : DealtSoFar nl masters targetCnt done s)
    (hnodup : masters.Nodup) (hless : (done.length : ℤ) < (masters.map targetCnt).sum)
    {target : NodeId} (hnew : target ∉ done) :
    ∃ s', s.deal masters targetCnt target = some s' ∧
      DealtSoFar nl masters targetCnt (done ++ [target]) s' := by
  obtain ⟨a, ha, hlt⟩ := h.served.exists_lt hless
  obtain ⟨m, k, hfind, hm, hopen⟩ := @exists_find _ masters
    (fun master => decide (targetCnt master - s.currentCnt master > 0)) s.idxIter
    ⟨a, ha, decide_eq_true (by omega)⟩
  have hlt' : s.currentCnt m < targetCnt m := by
    have hgt := of_decide_eq_true hopen
    omega
  refine ⟨{
    netlist := s.netlist.setDbMaster target m
    idxIter := (s.idxIter + k + 1) % masters.length
    currentCnt := Function.update s.currentCnt m (s.currentCnt m + 1) },
    by rw [Dealing.deal, hfind]; rfl, ?_⟩
  have hkept : ∀ v, v ≠ target → (s.netlist.setDbMaster target m).node v = s.netlist.node v :=
    fun v hv => (modify_node _ _ _ _).trans (if_neg hv)
  have hgiven : ((s.netlist.setDbMaster target m).node target).master = some m := by
    unfold setDbMaster
    rw [modify_node, if_pos rfl]
  refine ⟨Nat.mod_lt _ (List.length_pos_of_mem hm), ?_, fun c => ?_, fun v hv => ?_,
    fun v hv => ?_⟩
  · rw [List.length_append]
    exact h.served.serve hnodup hm hlt'
  · -- Only the count of the cell dealt has gone up.
    have hdone : (done.countP fun v =>
        decide (((s.netlist.setDbMaster target m).node v).master = some c)) =
        done.countP fun v => decide ((s.netlist.node v).master = some c) := by
      apply List.countP_congr
      intro v hv
      rw [hkept v fun heq => hnew (heq ▸ hv)]
    rw [List.countP_append, hdone, List.countP_singleton, hgiven, Nat.cast_add, ← h.counted c]
    by_cases hc : c = m
    · subst hc
      simp
    · have hne : ¬ (some m = some c) := fun heq => hc (Option.some.inj heq).symm
      simp [Function.update_of_ne hc, hne]
  · rcases List.mem_append.mp hv with hv | hv
    · obtain ⟨c, hc, hmaster⟩ := h.mastered v hv
      exact ⟨c, hc, by rw [hkept v fun heq => hnew (heq ▸ hv), hmaster]⟩
    · obtain rfl := List.mem_singleton.mp hv
      exact ⟨m, hm, hgiven⟩
  · rw [List.mem_append, List.mem_singleton, not_or] at hv
    exact (hkept v hv.2).trans (h.frame v hv.1)

theorem dealt_prefix {nl : Netlist} {masters : List DbMaster} {targetCnt : DbMaster → ℤ}
    {start : Dealing} (hnodup : masters.Nodup)
    (hstart : DealtSoFar nl masters targetCnt [] start) (done : List NodeId)
    (hdone : done.Nodup) (henough : (done.length : ℤ) ≤ (masters.map targetCnt).sum) :
    ∃ s, done.foldlM (Dealing.deal masters targetCnt) start = some s ∧
      DealtSoFar nl masters targetCnt done s := by
  induction done using List.reverseRecOn with
  | nil => exact ⟨start, rfl, hstart⟩
  | append_singleton done target ih =>
      rw [List.length_append, List.length_singleton, Nat.cast_succ] at henough
      obtain ⟨s, hs, hsofar⟩ := ih hdone.of_append_left (by omega)
      have hnew : target ∉ done := fun hin =>
        List.disjoint_of_nodup_append hdone hin (List.mem_singleton_self target)
      obtain ⟨s', hs', hsofar'⟩ := hsofar.deal hnodup (by omega) hnew
      refine ⟨s', ?_, hsofar'⟩
      exact Loop.foldlM_append_eq_some.mpr ⟨s, hs, by simpa using hs'⟩

theorem deals_ratio {masters : List DbMaster} {targetCnt : DbMaster → ℤ} {targets : List NodeId}
    {s s' : Dealing} (h : targets.foldlM (Dealing.deal masters targetCnt) s = some s') :
    s'.netlist.master2ratio = s.netlist.master2ratio := by
  refine Loop.invariant (fun t : Dealing => t.netlist.master2ratio = s.netlist.master2ratio)
    (fun target _ t t' ht hdeal => ?_) rfl h
  simp only [Dealing.deal, Option.map_eq_some_iff] at hdeal
  obtain ⟨_, -, rfl⟩ := hdeal
  exact ht

/-! ## A class -/

/-- Every node has a cell of the list, every cell has its target or misses it by
less than there are cells. -/
structure DealtOut (ratio : DbMaster → ℚ) (masters : List DbMaster) (targets : List NodeId)
    (nl : Netlist) : Prop where
  mastered : ∀ v ∈ targets, ∃ m ∈ masters, (nl.node v).master = some m
  le : ∀ m ∈ masters, (targets.countP fun v => decide ((nl.node v).master = some m) : ℤ) ≤
    targetOf ratio masters targets.length m
  ge : ∀ m ∈ masters, targetOf ratio masters targets.length m - (masters.length - 1 : ℤ) ≤
    (targets.countP fun v => decide ((nl.node v).master = some m) : ℤ)

/-- Whenever a node is next, the inner loop ends within one round. -/
def Prompt (nl : Netlist) (masters : List DbMaster) (targets : List NodeId) : Prop :=
  ∀ done target rest, targets = done ++ target :: rest →
    ∃ s s' master idxIter,
      done.foldlM (Dealing.deal masters (nl.countTargets masters targets.length).2)
        { netlist := { nl with master2ratio := (nl.countTargets masters targets.length).1 } } =
          some s ∧
      Dealing.nextMaster masters (nl.countTargets masters targets.length).2 s.currentCnt
        masters.length s.idxIter = some (master, idxIter) ∧
      s.deal masters (nl.countTargets masters targets.length).2 target = some s' ∧
      s'.netlist = s.netlist.setDbMaster target master

theorem DealtOut.congr {ratio : DbMaster → ℚ} {masters : List DbMaster} {targets : List NodeId}
    {nl nl' : Netlist} (h : DealtOut ratio masters targets nl)
    (hsame : ∀ v ∈ targets, nl'.node v = nl.node v) : DealtOut ratio masters targets nl' := by
  have hcount : ∀ m, (targets.countP fun v => decide ((nl'.node v).master = some m)) =
      targets.countP fun v => decide ((nl.node v).master = some m) := by
    intro m
    apply List.countP_congr
    intro v hv
    rw [hsame v hv]
  refine ⟨fun v hv => ?_, fun m hm => ?_, fun m hm => ?_⟩
  · rw [hsame v hv]
    exact h.mastered v hv
  · rw [hcount]
    exact h.le m hm
  · rw [hcount]
    exact h.ge m hm

theorem dealMasters_spec (nl : Netlist) {masters : List DbMaster} {targets : List NodeId}
    (hoffer : Offered nl.master2ratio masters targets) (htargets : targets.Nodup) :
    ∃ nl', nl.dealMasters masters targets = some nl' ∧
      nl'.master2ratio = (nl.countTargets masters targets.length).1 ∧
      DealtOut nl.master2ratio masters targets nl' ∧ Prompt nl masters targets ∧
      ∀ v, v ∉ targets → nl'.node v = nl.node v := by
  set targetCnt := (nl.countTargets masters targets.length).2 with hcnt
  set start : Dealing :=
    { netlist := { nl with master2ratio := (nl.countTargets masters targets.length).1 } }
  by_cases hmasters : masters = []
  · have hnone : targets = [] := by
      by_contra hsome
      exact hoffer.nonempty hsome hmasters
    subst hnone hmasters
    refine ⟨start.netlist, rfl, rfl, ⟨by simp, by simp, by simp⟩, ?_, fun _ _ => rfl⟩
    intro done target rest hsplit
    simp at hsplit
  have htargetCnt : masters.map targetCnt =
      masters.map (targetOf nl.master2ratio masters targets.length) :=
    List.map_congr_left fun m hm => nl.countTargets_target hoffer.nodup targets.length hm
  obtain ⟨henough, hslack⟩ := hoffer.targets_sum hmasters targets.length
  rw [← htargetCnt] at henough hslack
  have hstart : DealtSoFar nl masters targetCnt [] start := by
    refine ⟨List.length_pos_of_ne_nil hmasters, Served.zero fun m hm => ?_, fun _ => rfl,
      by simp, fun _ _ => rfl⟩
    rw [hcnt, nl.countTargets_target hoffer.nodup targets.length hm]
    exact hoffer.targetOf_nonneg targets.length hm
  have hprompt : Prompt nl masters targets := by
    intro done target rest hsplit
    have hlength : done.length < targets.length := by
      rw [hsplit, List.length_append, List.length_cons]
      omega
    rw [hsplit] at htargets
    obtain ⟨s, hs, hsofar⟩ := dealt_prefix hoffer.nodup hstart done htargets.of_append_left
      (by omega)
    have hnew : target ∉ done := fun hin =>
      List.disjoint_of_nodup_append htargets hin List.mem_cons_self
    obtain ⟨s', hs', -⟩ := hsofar.deal hoffer.nodup (by omega) hnew
    have hdeal := hs'
    rw [Dealing.deal_eq hsofar.idxIter, Option.map_eq_some_iff] at hdeal
    obtain ⟨⟨master, idxIter⟩, hnext, rfl⟩ := hdeal
    exact ⟨s, _, master, idxIter, hs, hnext, hs', rfl⟩
  obtain ⟨s, hs, hsofar⟩ := dealt_prefix hoffer.nodup hstart targets htargets henough
  refine ⟨s.netlist, ?_, ?_, ⟨hsofar.mastered, fun m hm => ?_, fun m hm => ?_⟩, hprompt,
    hsofar.frame⟩
  · rw [dealMasters, hs]
    rfl
  · exact deals_ratio hs
  · rw [← hsofar.counted m, ← nl.countTargets_target hoffer.nodup targets.length hm]
    exact hsofar.served.le m hm
  · rw [← hsofar.counted m, ← nl.countTargets_target hoffer.nodup targets.length hm]
    exact hsofar.served.sub_le hslack hm

/-- Both loops of a class end, the inner loop within one round for each node;
every node gets a cell, and the cells are dealt out in the ratios that the loop
finds: for the combinational cells these are the ratios given, unless a cell is
among the sequential ones too. -/
theorem dealClass_proportional (nl0 nl : Netlist) (fi : ℕ) (sequMasters combMasters : List DbMaster)
    (hsequ : nl.fi2SequMasters[fi]? = some sequMasters)
    (hcomb : nl.fi2CombMasters[fi]? = some combMasters)
    (hsequOffer : Offered nl.master2ratio sequMasters (nl0.fi2Nodes .sequential fi))
    (hcombOffer : Offered nl.master2ratio combMasters (nl0.fi2Nodes .combinational fi)) :
    ∃ mid nl', nl.dealMasters sequMasters (nl0.fi2Nodes .sequential fi) = some mid ∧
      nl.Prompt sequMasters (nl0.fi2Nodes .sequential fi) ∧
      mid.Prompt combMasters (nl0.fi2Nodes .combinational fi) ∧
      dealClass nl0 nl fi = some nl' ∧
      DealtOut nl.master2ratio sequMasters (nl0.fi2Nodes .sequential fi) nl' ∧
      DealtOut mid.master2ratio combMasters (nl0.fi2Nodes .combinational fi) nl' ∧
      ∀ m, m ∉ sequMasters → mid.master2ratio m = nl.master2ratio m := by
  have hnodes : ∀ type, (nl0.fi2Nodes type fi).Nodup := fun type => List.nodup_range.filter _
  obtain ⟨mid, hmid, hratio, hdealt, hprompt, -⟩ :=
    nl.dealMasters_spec hsequOffer (hnodes .sequential)
  have hlists : mid.fi2CombMasters = nl.fi2CombMasters := by
    obtain ⟨_, _, rfl⟩ := dealMasters_cells hmid
    rfl
  have hkept : ∀ m, mid.master2ratio m = if m ∈ sequMasters then
      nl.master2ratio m / (sequMasters.map nl.master2ratio).sum else nl.master2ratio m := by
    rw [hratio]
    exact nl.countTargets_ratio hsequOffer.nodup _
  have hcombOffer' : Offered mid.master2ratio combMasters (nl0.fi2Nodes .combinational fi) := by
    refine ⟨hcombOffer.nonempty, hcombOffer.nodup, fun m hm => ?_⟩
    rw [hkept]
    split
    · next hin =>
        exact div_pos (hsequOffer.pos m hin) (hsequOffer.sum_pos (List.ne_nil_of_mem hin))
    · exact hcombOffer.pos m hm
  obtain ⟨nl', hnl', -, hdealt', hprompt', hframe⟩ :=
    mid.dealMasters_spec hcombOffer' (hnodes .combinational)
  refine ⟨mid, nl', hmid, hprompt, hprompt', ?_, hdealt.congr fun v hv => ?_, hdealt',
    fun m hm => (hkept m).trans (if_neg hm)⟩
  · simp only [dealClass, hsequ, Option.bind_eq_bind, Option.bind_some, hmid, hlists, hcomb]
    exact hnl'
  · -- A register is no gate, so the second loop passes it over.
    apply hframe v
    intro hin
    have hseq : nl0.type v = .sequential := (of_decide_eq_true (List.mem_filter.mp hv).2).1
    have hgate : nl0.type v = .combinational := (of_decide_eq_true (List.mem_filter.mp hin).2).1
    rw [hseq] at hgate
    cases hgate

/-- The registers' cells have a clock pin, the gates' cells have none. -/
structure Filed (nl : Netlist) : Prop where
  sequ : ∀ masters ∈ nl.fi2SequMasters, ∀ m ∈ masters, 0 < (getPortInfo m).inputClock
  comb : ∀ masters ∈ nl.fi2CombMasters, ∀ m ∈ masters, ¬ 0 < (getPortInfo m).inputClock

theorem Filed.fileMaster {nl nl' : Netlist} {info : MasterInfo} (h : nl.Filed)
    (hfile : nl.fileMaster info = some nl') : nl'.Filed := by
  simp only [Netlist.fileMaster] at hfile
  split at hfile
  · obtain rfl := Option.some.inj hfile
    exact ⟨h.sequ, h.comb⟩
  · split at hfile <;>
      simp only [Option.bind_eq_bind, Option.bind_eq_some_iff, Option.pure_def,
        Option.some.injEq] at hfile <;> obtain ⟨masters, hmasters, rfl⟩ := hfile
    · next hclock =>
        refine ⟨fun l hl m hm => ?_, h.comb⟩
        rcases List.mem_or_eq_of_mem_set hl with hold | rfl
        · exact h.sequ l hold m hm
        · rcases List.mem_append.mp hm with hold | hnew
          · exact h.sequ masters (List.mem_of_getElem? hmasters) m hold
          · exact List.mem_singleton.mp hnew ▸ hclock
    · next hnone =>
        refine ⟨h.sequ, fun l hl m hm => ?_⟩
        rcases List.mem_or_eq_of_mem_set hl with hold | rfl
        · exact h.comb l hold m hm
        · rcases List.mem_append.mp hm with hold | hnew
          · exact h.comb masters (List.mem_of_getElem? hmasters) m hold
          · exact List.mem_singleton.mp hnew ▸ hnone

/-- No cell is offered both to the registers and to the gates. -/
theorem initOnlyUseMasters_apart {nl nl' : Netlist} {ang : ArtNetGen}
    (h : nl.initOnlyUseMasters ang = some nl') :
    ∀ sequMasters ∈ nl'.fi2SequMasters, ∀ combMasters ∈ nl'.fi2CombMasters,
      ∀ m ∈ combMasters, m ∉ sequMasters := by
  unfold initOnlyUseMasters at h
  have hfiled : nl'.Filed := by
    refine Loop.invariant Filed (fun _ _ _ _ ht hfile => ht.fileMaster hfile) ⟨?_, ?_⟩ h <;>
      intro l hl m hm <;> rw [List.eq_of_mem_replicate hl] at hm <;> cases hm
  exact fun sequMasters hsequ combMasters hcomb m hm hin =>
    hfiled.comb combMasters hcomb m hm (hfiled.sequ sequMasters hsequ m hin)

end Netlist

/-! Three gates with two cells, one of which is to be used twice as often. -/

def invCell : DbMaster where
  name := "INV"
  mTerms := [⟨"A", .signal, .input⟩, ⟨"ZN", .signal, .output⟩]
  nodup := by decide

def bufCell : DbMaster where
  name := "BUF"
  mTerms := [⟨"A", .signal, .input⟩, ⟨"Z", .signal, .output⟩]
  nodup := DbMaster.nodup_inOut

def threeGates : Netlist where
  layoutDimX := 1
  layoutDimY := 1
  size := 3
  node := fun _ => { sources := [0] }
  fi2SequMasters := [[], []]
  fi2CombMasters := [[], [invCell, bufCell]]
  master2ratio := fun master => if master = invCell then 2 else 1

theorem Netlist.dealClass_proportional_threeGates :
    ∃ nl', Netlist.dealClass threeGates threeGates 1 = some nl' ∧
      ∀ v ∈ threeGates.fi2Nodes .combinational 1,
        ∃ m ∈ [invCell, bufCell], (nl'.node v).master = some m := by
  have hpos : ∀ m ∈ [invCell, bufCell], 0 < threeGates.master2ratio m := by
    intro m _
    unfold threeGates
    dsimp only
    split
    · exact two_pos
    · exact one_pos
  obtain ⟨mid, nl', -, -, -, hdeal, -, hcomb, -⟩ := Netlist.dealClass_proportional threeGates
    threeGates 1 [] [invCell, bufCell] rfl rfl ⟨fun h => absurd (by decide) h, by decide, nofun⟩
    ⟨fun _ => nofun, by decide, hpos⟩
  exact ⟨nl', hdeal, hcomb.mastered⟩

end Artnetgen
