import ArtNetGen.Extract

/-!
What the extractor counts. It reads a block in which no signal net has two
outputs to the end, and reaches no pin twice from an instance.
-/

namespace Artnetgen

namespace DbBlock

variable {b : DbBlock} {source : ℤ × ℤ}

/-! ## What the extractor counts -/

/-- No net of a signal output has another output pin. -/
def OneDriver (b : DbBlock) : Prop :=
  ∀ t ∈ b.iTerms, t.Drives → ∀ n, t.net = some n → ∀ t' ∈ b.iTerms, t'.net = some n →
    t'.mTerm.ioType = .output → t' = t

/-- What is counted instance by instance. -/
structure Counted (b : DbBlock) (insts : List (DbInst × ℕ)) (s s' : Extraction) : Prop where
  fanout : s'.fanoutDistribution =
    (insts.map fun inst => ((min (b.instEdgelens inst).length specMaxFanouts : ℕ) : ℤ)).foldl
      Tally.add s.fanoutDistribution
  combinational : s'.numCombinational =
    s.numCombinational + insts.countP fun inst => !b.isSequential inst.1.master
  sequential : s'.numSequential =
    s.numSequential + insts.countP fun inst => b.isSequential inst.1.master

theorem mem_iTerms {t : DbITerm} : t ∈ b.iTerms ↔ ∃ inst, b.insts[t.inst]? = some inst ∧
    t.mTerm ∈ inst.master.mTerms ∧ t.net = inst.net t.mTerm := by
  unfold iTerms
  rw [List.mem_flatMap]
  constructor
  · rintro ⟨⟨inst, i⟩, hinst, ht⟩
    obtain ⟨term, hterm, rfl⟩ := List.mem_map.mp ht
    exact ⟨inst, List.mk_mem_zipIdx_iff_getElem?.mp hinst, hterm, rfl⟩
  · rintro ⟨inst, hinst, hterm, hnet⟩
    refine ⟨(inst, t.inst), List.mk_mem_zipIdx_iff_getElem?.mpr hinst, ?_⟩
    apply List.mem_map.mpr
    refine ⟨t.mTerm, hterm, ?_⟩
    rw [← hnet]

/-- A pin is known by its instance and its name. -/
theorem iTerm_ext {t t' : DbITerm} (ht : t ∈ b.iTerms) (ht' : t' ∈ b.iTerms)
    (hinst : t.inst = t'.inst) (hname : t.mTerm.name = t'.mTerm.name) : t = t' := by
  obtain ⟨inst, hget, hterm, hnet⟩ := mem_iTerms.mp ht
  obtain ⟨inst', hget', hterm', hnet'⟩ := mem_iTerms.mp ht'
  rw [← hinst] at hget'
  obtain rfl := Option.some.inj (hget.symm.trans hget')
  have hsame := List.inj_on_of_nodup_map inst.master.nodup hterm hterm' hname
  cases t
  cases t'
  simp_all

theorem getITerms_nodup (inst : DbInst) (i : ℕ) : (inst.getITerms i).Nodup := by
  apply inst.master.nodup.of_map.map
  intro term term' heq
  exact congrArg DbITerm.mTerm heq

theorem iTerms_nodup (b : DbBlock) : b.iTerms.Nodup := by
  unfold iTerms
  rw [List.nodup_flatMap]
  constructor
  · exact fun inst _ => getITerms_nodup inst.1 inst.2
  · have hindex : b.insts.zipIdx.Pairwise fun inst inst' => inst.2 ≠ inst'.2 := by
      rw [← List.pairwise_map (R := (· ≠ ·)), List.zipIdx_map_snd]
      exact List.nodup_range'
    refine hindex.imp fun {inst inst'} hne t ht ht' => ?_
    obtain ⟨_, -, rfl⟩ := List.mem_map.mp ht
    obtain ⟨_, -, heq⟩ := List.mem_map.mp ht'
    exact hne (congrArg DbITerm.inst heq).symm

theorem mem_reached {iterms : List DbITerm} {x : DbITerm} : x ∈ b.reached iterms ↔
    ∃ t ∈ iterms, t.Drives ∧ ∃ n, t.net = some n ∧ x ∈ b.iTerms ∧ x.net = some n := by
  unfold reached
  rw [List.mem_flatMap]
  refine exists_congr fun t => and_congr_right fun _ => ?_
  cases hnet : t.net with
  | none => simp
  | some n =>
      dsimp only
      split
      · next hdrives => simp [hdrives, mem_netITerms]
      · next hdrives => simp [hdrives]

/-- With one driver for each net no pin is reached twice. -/
theorem reached_nodup (h : b.OneDriver) {inst : DbInst × ℕ} (hinst : inst ∈ b.insts.zipIdx) :
    (b.reached (inst.1.getITerms inst.2)).Nodup := by
  have hsub : ∀ t ∈ inst.1.getITerms inst.2, t ∈ b.iTerms := fun t ht =>
    List.mem_flatMap.mpr ⟨inst, hinst, ht⟩
  unfold reached
  rw [List.nodup_flatMap]
  constructor
  · intro t _
    split
    · split
      · exact ((b.iTermOrder _).2 _).nodup_iff.mpr (b.iTerms_nodup.filter _)
      · exact List.nodup_nil
    · exact List.nodup_nil
  · refine (getITerms_nodup inst.1 inst.2).imp_of_mem fun {t t'} ht ht' hne x hx hx' => ?_
    have hone : ∀ t ∈ inst.1.getITerms inst.2, x ∈ b.reached [t] →
        t.Drives ∧ x.net = t.net ∧ x.net ≠ none := by
      intro t _ hx
      obtain ⟨_, hmem, hdrives, n, hn, -, hxn⟩ := mem_reached.mp hx
      obtain rfl := List.mem_singleton.mp hmem
      exact ⟨hdrives, hxn.trans hn.symm, by simp [hxn]⟩
    obtain ⟨hdrives, hnet, hsome⟩ := hone t ht (by simpa [reached] using hx)
    obtain ⟨hdrives', hnet', -⟩ := hone t' ht' (by simpa [reached] using hx')
    obtain ⟨n, hn⟩ := Option.ne_none_iff_exists'.mp hsome
    apply hne
    exact (h t (hsub t ht) hdrives n (hnet.symm.trans hn) t' (hsub t' ht')
      (hnet'.symm.trans hn) hdrives'.2).symm

end DbBlock

end Artnetgen
