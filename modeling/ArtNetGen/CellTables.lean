import ArtNetGen.Cells
import ArtNetGen.PathRun

/-!
Which cell an instance gets. `initOnlyUseMasters` files the cells by kind and
number of signal inputs, `technologyMapping` deals every class out of its own
file, and `setDontUse` takes entries out before either.
-/

namespace Artnetgen

/-! ## Terminals as `getPortInfo` counts them -/

/-- A name that makes a terminal a scan input. -/
def DbMTerm.scanNamed (term : DbMTerm) : Prop := term.name = "si" ∨ term.name = "ssb"

instance (term : DbMTerm) : Decidable term.scanNamed := inferInstanceAs (Decidable (_ ∨ _))

/-- A loop that counts in one of its variables. -/
theorem PortInfo.foldl_count (field : PortInfo → ℕ) (p : DbMTerm → Bool)
    (hstep : ∀ io term, field (PortInfo.count io term) = field io + (p term).toNat)
    (terms : List DbMTerm) (io : PortInfo) :
    field (terms.foldl PortInfo.count io) = field io + terms.countP p := by
  induction terms generalizing io with
  | nil => rfl
  | cons term rest ih =>
      rw [List.foldl_cons, ih, hstep, List.countP_cons, Nat.add_assoc]
      cases p term <;> simp [Nat.add_comm]

theorem PortInfo.count_field {field : PortInfo → ℕ} {sig : DbSigType} {io : DbIoType}
    (hstep : ∀ s term, field (PortInfo.count s term) = field s +
      (decide (¬ term.scanNamed ∧ term.sigType = sig ∧ term.ioType = io)).toNat)
    (hstart : field {} = 0) (master : DbMaster)
    (hnone : ∀ term ∈ master.mTerms, ¬ term.scanNamed) :
    field (getPortInfo master) = (master.mTerms.filter fun term =>
      decide (term.sigType = sig ∧ term.ioType = io)).length := by
  rw [getPortInfo, PortInfo.foldl_count field _ hstep, hstart, Nat.zero_add,
    List.countP_eq_length_filter]
  congr 1
  apply List.filter_congr
  intro term hterm
  simp [hnone term hterm]

/-- A cell without scan inputs has no terminal of a scan input's name. -/
theorem not_scanNamed {master : DbMaster} (h : (getPortInfo master).inputScan = 0) :
    ∀ term ∈ master.mTerms, ¬ term.scanNamed := by
  have hcount := PortInfo.foldl_count PortInfo.inputScan
    (fun term => decide (term.scanNamed ∨ (term.sigType = .scan ∧ term.ioType = .input)))
    (fun io term => by
      obtain ⟨name, sig, dir⟩ := term
      unfold PortInfo.count DbMTerm.scanNamed
      by_cases hname : name = "si" ∨ name = "ssb"
      · simp [hname]
      · cases sig <;> cases dir <;> simp [hname])
    master.mTerms {}
  rw [← getPortInfo, h] at hcount
  intro term hterm hscan
  have hzero : master.mTerms.countP (fun term => decide
      (term.scanNamed ∨ (term.sigType = .scan ∧ term.ioType = .input))) = 0 := by
    simpa using hcount.symm
  have hnot := List.countP_eq_zero.mp hzero term hterm
  simp [hscan] at hnot

/-- The signal terminals of a supported cell and its clock pins are those that
mapping sees. -/
theorem getPortInfo_pins {master : DbMaster} (h : (getPortInfo master).inputScan = 0) :
    (getPortInfo master).inputSignal = (master.pins .signal .input).length ∧
      (getPortInfo master).outputSignal = (master.pins .signal .output).length ∧
      (getPortInfo master).inputClock = (master.pins .clock .input).length := by
  have hnone := not_scanNamed h
  simp only [DbMaster.pins, pinsOf, List.length_map]
  refine ⟨PortInfo.count_field ?_ rfl master hnone, PortInfo.count_field ?_ rfl master hnone,
    PortInfo.count_field ?_ rfl master hnone⟩
  all_goals
    intro io term
    obtain ⟨name, sig, dir⟩ := term
    unfold PortInfo.count DbMTerm.scanNamed
    by_cases hname : name = "si" ∨ name = "ssb"
    · simp [hname]
    · cases sig <;> cases dir <;> simp [hname]

/-! ## Files -/

theorem MasterInfo.isIn_iff {sequential : Bool} {fi : ℕ} {info : MasterInfo} :
    info.isIn sequential fi = true ↔ (getPortInfo info.master).supported = true ∧
      decide ((getPortInfo info.master).inputClock > 0) = sequential ∧
      (getPortInfo info.master).inputSignal = fi := by
  simp [MasterInfo.isIn, and_assoc]

/-- The cells of one kind and number of signal inputs, in their order. -/
def cellsOf (masters : List MasterInfo) (sequential : Bool) (fi : ℕ) : List DbMaster :=
  (masters.filter (MasterInfo.isIn sequential fi)).map (·.master)

theorem cellsOf_cons (info : MasterInfo) (rest : List MasterInfo) (sequential : Bool) (fi : ℕ) :
    cellsOf (info :: rest) sequential fi =
      (if info.isIn sequential fi then [info.master] else []) ++ cellsOf rest sequential fi := by
  unfold cellsOf
  rw [List.filter_cons]
  split
  · rfl
  · rfl

theorem mem_cellsOf {masters : List MasterInfo} {sequential : Bool} {fi : ℕ} {m : DbMaster} :
    m ∈ cellsOf masters sequential fi ↔
      ∃ info ∈ masters, info.isIn sequential fi = true ∧ info.master = m := by
  simp [cellsOf, and_assoc]

namespace Netlist

variable {nl nl' mid : Netlist}

/-- `fi2SequMasters_` or `fi2CombMasters_`. -/
def table (nl : Netlist) (sequential : Bool) : List (List DbMaster) :=
  if sequential then nl.fi2SequMasters else nl.fi2CombMasters

theorem fileMaster_table {info : MasterInfo} (h : nl.fileMaster info = some nl')
    (sequential : Bool) (fi : ℕ) :
    (nl'.table sequential)[fi]? = (nl.table sequential)[fi]?.map
      (· ++ if info.isIn sequential fi then [info.master] else []) := by
  have hset : ∀ (l : List (List DbMaster)) (k : ℕ) (masters : List DbMaster),
      l[k]? = some masters → (l.set k (masters ++ [info.master]))[fi]? =
        l[fi]?.map (· ++ if k = fi then [info.master] else []) := by
    intro l k masters hmasters
    rw [List.getElem?_set']
    by_cases hk : k = fi
    · rw [← hk, hmasters]
      simp
    · simp [hk]
  simp only [fileMaster] at h
  cases hsupported : (getPortInfo info.master).supported with
  | false =>
      simp only [hsupported, Bool.not_false, if_true, Option.some.injEq] at h
      subst h
      have hnot : info.isIn sequential fi = false := by simp [MasterInfo.isIn, hsupported]
      unfold table
      simp [hnot]
  | true =>
      simp only [hsupported, Bool.not_true, Bool.false_eq_true, if_false] at h
      split at h <;>
        simp only [Option.bind_eq_bind, Option.bind_eq_some_iff, Option.pure_def,
          Option.some.injEq] at h <;> obtain ⟨masters, hmasters, rfl⟩ := h
      · next hclock =>
          have hin : info.isIn sequential fi = true ↔
              sequential = true ∧ (getPortInfo info.master).inputSignal = fi := by
            rw [MasterInfo.isIn_iff, hsupported, decide_eq_true hclock]
            simp [eq_comm]
          cases sequential
          · have hnot : ¬ info.isIn false fi = true := by simp [hin]
            simp [table, hnot]
          · simp only [table, if_true, hset _ _ _ hmasters, hin, true_and]
      · next hclock =>
          have hin : info.isIn sequential fi = true ↔
              sequential = false ∧ (getPortInfo info.master).inputSignal = fi := by
            rw [MasterInfo.isIn_iff, hsupported, decide_eq_false hclock]
            simp [eq_comm]
          cases sequential
          · simp only [table, Bool.false_eq_true, if_false, hset _ _ _ hmasters, hin, true_and]
          · have hnot : ¬ info.isIn true fi = true := by simp [hin]
            simp [table, hnot]

/-- Every file holds the cells of its class in their order. -/
theorem initOnlyUseMasters_table {ang : ArtNetGen} (h : nl.initOnlyUseMasters ang = some nl')
    (sequential : Bool) (fi : ℕ) :
    (nl'.table sequential)[fi]? =
      if fi < (nl.fiDist.xMax + 1).toNat then some (cellsOf ang.masters sequential fi)
      else none := by
  unfold initOnlyUseMasters at h
  have hrun := Loop.relates (fun masters nl nl' => (nl'.table sequential)[fi]? =
      (nl.table sequential)[fi]?.map (· ++ cellsOf masters sequential fi))
    (fun nl => by simp [cellsOf]) (fun info rest nl mid nl' hstep hrest => by
      rw [hrest, fileMaster_table hstep, cellsOf_cons, Option.map_map]
      congr 1
      funext masters
      simp) h
  rw [hrun]
  split
  · next hfi => cases sequential <;> simp [table, hfi]
  · next hfi => cases sequential <;> simp [table, hfi]

/-! ## Cells -/

/-- A dealing gives the nodes of its list cells of its file and leaves the others
alone. -/
theorem dealMasters_mastered {masters : List DbMaster} {targets : List NodeId}
    (h : nl.dealMasters masters targets = some nl') :
    (∀ v ∈ targets, ∃ m ∈ masters, (nl'.node v).master = some m) ∧
      ∀ v, v ∉ targets → nl'.node v = nl.node v := by
  simp only [dealMasters, Option.map_eq_some_iff] at h
  obtain ⟨s, hs, rfl⟩ := h
  refine Loop.relates (fun targets s s' =>
    (∀ v ∈ targets, ∃ m ∈ masters, (s'.netlist.node v).master = some m) ∧
      ∀ v, v ∉ targets → s'.netlist.node v = s.netlist.node v) ?_ ?_ hs
  · exact fun s => ⟨fun v hv => absurd hv List.not_mem_nil, fun _ _ => rfl⟩
  · intro target rest s mid s' hdeal hrest
    simp only [Dealing.deal, Option.map_eq_some_iff] at hdeal
    obtain ⟨⟨master, k⟩, hfind, rfl⟩ := hdeal
    have hmaster : master ∈ masters := by
      have hmem := List.mem_of_find?_eq_some hfind
      rw [List.mem_zipIdx_iff_getElem?] at hmem
      exact List.mem_rotate.mp (List.mem_of_getElem? hmem)
    have hgiven : ∀ v, (s.netlist.setDbMaster target master).node v =
        if v = target then { s.netlist.node v with master := some master }
        else s.netlist.node v := by
      intro v
      unfold setDbMaster
      rw [modify_node]
      split
      · next hv => rw [hv]
      · rfl
    refine ⟨fun v hv => ?_, fun v hv => ?_⟩
    · by_cases hin : v ∈ rest
      · exact hrest.1 v hin
      · have htarget : v = target := (List.mem_cons.mp hv).resolve_right hin
        refine ⟨master, hmaster, ?_⟩
        rw [hrest.2 v hin]
        change ((s.netlist.setDbMaster target master).node v).master = _
        rw [hgiven, if_pos htarget]
    · rw [List.mem_cons, not_or] at hv
      rw [hrest.2 v hv.2]
      change (s.netlist.setDbMaster target master).node v = _
      rw [hgiven, if_neg hv.1]

theorem SameButCells.table (h : SameButCells nl nl') (sequential : Bool) :
    nl'.table sequential = nl.table sequential := by
  obtain ⟨_, _, rfl⟩ := h
  rfl

/-- The nodes of a class get cells of their kind's file. -/
theorem dealClass_mastered {nl0 : Netlist} {fi : ℕ} (h : dealClass nl0 nl fi = some nl') :
    (∀ v < nl0.size, (nl0.type v).IsInstance → (nl0.node v).numFanins = fi →
        ∃ masters, (nl.table (decide (nl0.type v = .sequential)))[fi]? = some masters ∧
          ∃ m ∈ masters, (nl'.node v).master = some m) ∧
      ∀ v, (nl0.node v).numFanins ≠ fi → nl'.node v = nl.node v := by
  simp only [dealClass, Option.bind_eq_bind, Option.bind_eq_some_iff] at h
  obtain ⟨sequMasters, hsequMasters, mid, hsequ, combMasters, hcombMasters, hcomb⟩ := h
  obtain ⟨hsequ', hsequFrame⟩ := dealMasters_mastered hsequ
  obtain ⟨hcomb', hcombFrame⟩ := dealMasters_mastered hcomb
  have htable : mid.fi2CombMasters = nl.fi2CombMasters :=
    (dealMasters_cells hsequ).table false
  have hmem : ∀ v type, v ∈ nl0.fi2Nodes type fi ↔
      v < nl0.size ∧ nl0.type v = type ∧ (nl0.node v).numFanins = fi := fun v type => by
    simp [fi2Nodes, nodes]
  refine ⟨fun v hv hinst hfi => ?_, fun v hfi => ?_⟩
  · rcases hinst with hgate | hregister
    · refine ⟨combMasters, ?_, hcomb' v ((hmem v _).mpr ⟨hv, hgate, hfi⟩)⟩
      rw [hgate]
      change nl.fi2CombMasters[fi]? = some combMasters
      rw [← htable, hcombMasters]
    · obtain ⟨m, hm, hmaster⟩ := hsequ' v ((hmem v _).mpr ⟨hv, hregister, hfi⟩)
      refine ⟨sequMasters, ?_, m, hm, ?_⟩
      · rw [hregister]
        exact hsequMasters
      · rw [hcombFrame v, hmaster]
        intro hin
        have hgate := ((hmem v _).mp hin).2.1
        rw [hregister] at hgate
        cases hgate
  · rw [hcombFrame v fun hin => hfi ((hmem v _).mp hin).2.2,
      hsequFrame v fun hin => hfi ((hmem v _).mp hin).2.2]

/-- Every instance gets a cell of the file for its kind and its sources. -/
theorem chooseCells_mastered (h : nl.chooseCells = some mid) {v : NodeId} (hv : v < nl.size)
    (hinst : (nl.type v).IsInstance) :
    ∃ masters,
      (nl.table (decide (nl.type v = .sequential)))[(nl.node v).numFanins]? = some masters ∧
        ∃ m ∈ masters, (mid.node v).master = some m := by
  simp only [chooseCells, Option.bind_eq_bind] at h
  split at h
  · cases h
  · next hrange =>
      simp only [Option.bind_eq_some_iff] at h
      obtain ⟨origin, -, h⟩ := h
      have hmem : (nl.node v).numFanins ∈ List.range (nl.fiDist.xMax + 1).toNat := by
        simp only [List.any_eq_true, decide_eq_true_eq, not_exists, not_and, not_lt] at hrange
        have hle := hrange v (List.mem_range.mpr hv) hinst
        rw [List.mem_range]
        omega
      have hrun := Loop.relates (fun classes s s' =>
        (∀ sequential, s'.table sequential = s.table sequential) ∧
          ((nl.node v).numFanins ∈ classes → ∃ masters,
            (s.table (decide (nl.type v = .sequential)))[(nl.node v).numFanins]? = some masters ∧
              ∃ m ∈ masters, (s'.node v).master = some m) ∧
          ((nl.node v).numFanins ∉ classes → s'.node v = s.node v))
        (fun s => ⟨fun _ => rfl, fun hin => absurd hin List.not_mem_nil, fun _ => rfl⟩)
        (fun fi rest s mid s' hdeal hrest => by
          obtain ⟨htable, hgiven, hkept⟩ := hrest
          have htable' := (dealClass_cells hdeal).table
          obtain ⟨hmaster, hframe⟩ := dealClass_mastered hdeal
          refine ⟨fun sequential => (htable sequential).trans (htable' sequential),
            fun hin => ?_, fun hnot => ?_⟩
          · by_cases hlater : (nl.node v).numFanins ∈ rest
            · rw [← htable']
              exact hgiven hlater
            · have hfi := (List.mem_cons.mp hin).resolve_right hlater
              rw [hkept hlater, hfi]
              exact hmaster v hv hinst hfi
          · rw [List.mem_cons, not_or] at hnot
            rw [hkept hnot.2, hframe v hnot.1]) h
      exact hrun.2.1 hmem

end Netlist

/-! ## Cells that are not to be used -/

namespace ArtNetGen

variable {ang : ArtNetGen}

/-- Every call takes one entry of its name out, as long as there is one. -/
theorem countP_setDontUse (names : List String) (ang : ArtNetGen) (name : String) :
    (names.foldl setDontUse ang).masters.countP (fun info => info.master.name == name) =
      ang.masters.countP (fun info => info.master.name == name) - names.count name := by
  induction names generalizing ang with
  | nil => simp
  | cons first rest ih =>
      rw [List.foldl_cons, ih, List.count_cons]
      unfold setDontUse
      dsimp only
      rcases List.exists_or_eq_self_of_eraseP (fun info => info.master.name == first) ang.masters
        with hsame | ⟨info, before, after, -, hinfo, hlist, herased⟩
      · rw [hsame]
        by_cases hname : first = name
        · subst hname
          have hnone : ang.masters.countP (fun info => info.master.name == first) = 0 := by
            rw [List.countP_eq_zero]
            intro info hmem hinfo
            have hlength := List.length_eraseP_of_mem
              (p := fun info => info.master.name == first) hmem hinfo
            rw [hsame] at hlength
            have hpos := List.length_pos_of_mem hmem
            omega
          rw [hnone, Nat.zero_sub, Nat.zero_sub]
        · simp [hname]
      · rw [herased, hlist]
        simp only [beq_iff_eq] at hinfo
        by_cases hname : first = name
        · simp [hinfo, hname, Nat.add_sub_add_right, ← Nat.add_assoc]
        · simp [hinfo, hname]

theorem setDontUse_sublist (names : List String) (ang : ArtNetGen) :
    (names.foldl setDontUse ang).masters.Sublist ang.masters := by
  induction names generalizing ang with
  | nil => exact List.Sublist.refl _
  | cons name rest ih => exact (ih (ang.setDontUse name)).trans List.eraseP_sublist

theorem mem_setDontUse {names : List String} {info : MasterInfo}
    (h : info ∈ (names.foldl setDontUse ang).masters) : info ∈ ang.masters :=
  (setDontUse_sublist names ang).subset h

/-- The order of the calls makes no difference. -/
theorem setDontUse_perm {names names' : List String} (h : names.Perm names') (ang : ArtNetGen) :
    names.foldl setDontUse ang = names'.foldl setDontUse ang := by
  refine h.foldl_eq' (fun a _ b _ ang => ?_) ang
  unfold setDontUse
  by_cases hab : a = b
  · rw [hab]
  · congr 1
    apply List.eraseP_comm
    intro info _
    by_cases ha : info.master.name = a
    · simp [ha, hab]
    · simp [ha]

end ArtNetGen

end Artnetgen
