import ArtNetGen.Connect

/-!
Names. Every port is called after its place in the list of inputs or outputs,
which keeps ports apart, and no node is called like the terminal of a port.
-/

namespace Artnetgen

namespace Netlist

structure Named (nl : Netlist) : Prop where
  plain : ∀ v, (nl.node v).Plain
  ins : ∀ v < nl.size, nl.type v = .primaryIn →
    ∃ i : ℕ, nl.primIns[i]? = some v ∧ nl.name v = "in" ++ toString i
  outs : ∀ v < nl.size, nl.type v = .primaryOut →
    ∃ i : ℕ, nl.primOuts[i]? = some v ∧ nl.name v = "out" ++ toString i
  outType : ∀ v ∈ nl.primOuts, v < nl.size ∧ nl.type v = .primaryOut

variable {nl nl' : Netlist}

/-- What names depend on. -/
theorem Named.congr (h : nl.Named) (hplain : ∀ v, (nl'.node v).Plain)
    (hstrip : ∀ v < nl.size, (nl'.node v).strip = (nl.node v).strip)
    (hports : nl'.primIns = nl.primIns ∧ nl'.primOuts = nl.primOuts)
    (hin : ∀ v < nl'.size, nl'.type v = .primaryIn → v < nl.size ∧ nl.type v = .primaryIn)
    (hout : ∀ v < nl'.size, nl'.type v = .primaryOut → v < nl.size ∧ nl.type v = .primaryOut)
    (houtType : ∀ v < nl.size, nl.type v = .primaryOut →
      v < nl'.size ∧ nl'.type v = .primaryOut) : nl'.Named := by
  have hname : ∀ v < nl.size, nl'.name v = nl.name v := fun v hv =>
    Node.name_of_strip (hstrip v hv)
  refine ⟨hplain, fun v hv htype => ?_, fun v hv htype => ?_, fun v hv => ?_⟩
  · obtain ⟨hlt, htype'⟩ := hin v hv htype
    rw [hports.1, hname v hlt]
    exact h.ins v hlt htype'
  · obtain ⟨hlt, htype'⟩ := hout v hv htype
    rw [hports.2, hname v hlt]
    exact h.outs v hlt htype'
  · rw [hports.2] at hv
    obtain ⟨hlt, htype⟩ := h.outType v hv
    exact houtType v hlt htype

/-- Two ports of one name are the same port. -/
theorem Named.in_injective (h : nl.Named) {u v : NodeId} (hu : u < nl.size) (hv : v < nl.size)
    (hut : nl.type u = .primaryIn) (hvt : nl.type v = .primaryIn)
    (hname : nl.name u = nl.name v) : u = v := by
  obtain ⟨i, hi, hui⟩ := h.ins u hu hut
  obtain ⟨j, hj, hvj⟩ := h.ins v hv hvt
  obtain rfl := Names.numbered_injective "in" (hui.symm.trans (hname.trans hvj))
  exact Option.some.inj (hi.symm.trans hj)

theorem Named.out_injective (h : nl.Named) {u v : NodeId} (hu : u < nl.size) (hv : v < nl.size)
    (hut : nl.type u = .primaryOut) (hvt : nl.type v = .primaryOut)
    (hname : nl.name u = nl.name v) : u = v := by
  obtain ⟨i, hi, hui⟩ := h.outs u hu hut
  obtain ⟨j, hj, hvj⟩ := h.outs v hv hvt
  obtain rfl := Names.numbered_injective "out" (hui.symm.trans (hname.trans hvj))
  exact Option.some.inj (hi.symm.trans hj)

/-! ## Ports get their names -/

/-- A node of the list is called after one of its places in it. -/
theorem nameAll_name (stem : String) (pins : List NodeId) (nl : Netlist) (v : NodeId) :
    (∃ i : ℕ, pins[i]? = some v ∧
        (nameAll stem pins nl).node v = { nl.node v with name := stem ++ toString i }) ∨
      (v ∉ pins ∧ (nameAll stem pins nl).node v = nl.node v) := by
  unfold nameAll
  -- In general for any list of nodes with numbers.
  have hall : ∀ l : List (NodeId × ℕ), ∀ nl : Netlist,
      (∃ i, (v, i) ∈ l ∧ (l.foldl (fun nl pin => nl.setName pin.1 (stem ++ toString pin.2)) nl).node v =
          { nl.node v with name := stem ++ toString i }) ∨
        ((∀ i, (v, i) ∉ l) ∧
          (l.foldl (fun nl pin => nl.setName pin.1 (stem ++ toString pin.2)) nl).node v = nl.node v) := by
    intro l
    induction l with
    | nil => exact fun nl => Or.inr ⟨by simp, rfl⟩
    | cons head rest ih =>
        intro nl
        obtain ⟨pin, i⟩ := head
        have hhead : (nl.setName pin (stem ++ toString i)).node v =
            if v = pin then { nl.node v with name := stem ++ toString i } else nl.node v := by
          unfold setName
          rw [modify_node]
          split
          · next heq => rw [heq]
          · rfl
        rw [List.foldl_cons]
        rcases ih (nl.setName pin (stem ++ toString i)) with ⟨j, hj, hnode⟩ | ⟨hnone, hnode⟩
        · refine Or.inl ⟨j, List.mem_cons_of_mem _ hj, hnode.trans ?_⟩
          rw [hhead]
          split <;> rfl
        · by_cases hv : v = pin
          · refine Or.inl ⟨i, hv ▸ List.mem_cons_self, hnode.trans ?_⟩
            rw [hhead, if_pos hv]
          · refine Or.inr ⟨fun j hj => ?_, hnode.trans ?_⟩
            · rcases List.mem_cons.mp hj with heq | hj
              · exact hv (congrArg Prod.fst heq)
              · exact hnone j hj
            · rw [hhead, if_neg hv]
  rcases hall pins.zipIdx nl with ⟨i, hi, hnode⟩ | ⟨hnone, hnode⟩
  · exact Or.inl ⟨i, List.mem_zipIdx_iff_getElem?.mp hi, hnode⟩
  · refine Or.inr ⟨fun hv => ?_, hnode⟩
    obtain ⟨i, hi⟩ := List.mem_iff_getElem?.mp hv
    exact hnone i (List.mem_zipIdx_iff_getElem?.mpr hi)

theorem nameAll_plain {stem : String} (hstem : ∀ i : ℕ, stem ++ toString i ≠ "PIN")
    (pins : List NodeId) (h : ∀ v, (nl.node v).Plain) (v : NodeId) :
    ((nameAll stem pins nl).node v).Plain := by
  rcases nameAll_name stem pins nl v with ⟨i, -, hnode⟩ | ⟨-, hnode⟩ <;> rw [hnode]
  · exact (h v).rename rfl (hstem i)
  · exact h v

theorem nameAll_ports (stem : String) (pins : List NodeId) (nl : Netlist) :
    (nameAll stem pins nl).primIns = nl.primIns ∧ (nameAll stem pins nl).primOuts = nl.primOuts := by
  unfold nameAll
  generalize pins.zipIdx = named
  induction named generalizing nl with
  | nil => exact ⟨rfl, rfl⟩
  | cons pin rest ih => exact ih (nl.setName pin.1 (stem ++ toString pin.2))

theorem takeCandidates_mem (type : NodeType) (pinCnt : ℤ) (candidates : List NodeId)
    (s : Netlist × List NodeId) {v : NodeId} (h : v ∈ (takeCandidates type pinCnt candidates s).1.2) :
    v ∈ s.2 ∨ v ∈ candidates := by
  induction candidates generalizing s with
  | nil => exact Or.inl h
  | cons node rest ih =>
      obtain ⟨nl, pins⟩ := s
      have hone : v ∈ pins ++ [node] → v ∈ pins ∨ v ∈ node :: rest := by
        rw [List.mem_append, List.mem_singleton, List.mem_cons]
        exact Or.imp_right Or.inl
      simp only [takeCandidates] at h
      split at h
      · exact hone h
      · exact (ih _ h).elim hone fun hin => Or.inr (List.mem_cons_of_mem _ hin)

/-- Only nodes of the bins are taken. -/
theorem takePins_mem {index : Bin → Option (List NodeId)} {type : NodeType} {pinCnt : ℤ}
    {cells : List (ℕ × ℕ)} {s s' : Netlist × List NodeId} {P : NodeId → Prop}
    (hindex : ∀ b < s.1.numBins, ∀ c, index (s.1.bin b) = some c → ∀ v ∈ c, P v)
    (hs : ∀ v ∈ s.2, P v) (h : takePins index type pinCnt cells s = some s') :
    ∀ v ∈ s'.2, P v := by
  induction cells generalizing s with
  | nil => cases h
  | cons cell rest ih =>
      simp only [takePins, Option.bind_eq_bind, Option.bind_eq_some_iff] at h
      obtain ⟨b, hb, candidates, hcandidates, h⟩ := h
      have htaken : ∀ v ∈ (takeCandidates type pinCnt candidates s).1.2, P v := fun v hv =>
        (takeCandidates_mem type pinCnt candidates s hv).elim (hs v)
          (hindex b (getBin_eq_some hb).1 candidates hcandidates v)
      have hshape := (takeCandidates_takes type pinCnt candidates s).1
      split at h
      · next heq =>
          rw [Prod.mk.eta] at heq
          rw [heq] at htaken
          exact Option.some.inj h ▸ htaken
      · next heq =>
          rw [Prod.mk.eta] at heq
          rw [heq] at htaken hshape
          refine ih ?_ htaken h
          rw [hshape.bin, hshape.tables.numBins]
          exact hindex

/-- Inputs and outputs get different stems, and a node that is taken for both
ends up as an output. -/
theorem setPrimaryIO_named {ang : ArtNetGen} (hinit : nl.Initialized)
    (h : nl.setPrimaryIO ang = some nl') : nl'.Named := by
  simp only [ setPrimaryIO, Option.bind_eq_bind, Option.bind_eq_some_iff, Option.pure_def,
    Option.some.injEq] at h
  obtain ⟨⟨nl1, primIns⟩, hins, ⟨nl2, primOuts⟩, houts, rfl⟩ := h
  obtain ⟨hshape1, houts1, hstrip1, primIns, rfl, htype1⟩ := takePins_takes hins
  dsimp only at hshape1 houts1 hstrip1 htype1
  rw [houts1, hinit.noPorts.2] at houts
  have hlt : ∀ v ∈ primOuts, v < nl.size := by
    refine takePins_mem (P := fun v => v < nl.size) (fun b hb c hc v hv => ?_) (by simp) houts
    dsimp only at hb hc
    rw [hshape1.tables.numBins] at hb
    rw [hshape1.bin] at hc
    have hbin := (((hinit.consistent.indexed.fo b hb).1.slot 0 c hc).2 v).mp hv
    exact (((hinit.consistent.placed.members b hb).2 v).mp hbin.1).1
  obtain ⟨hshape2, -, hstrip2, taken2, htaken2, htype2⟩ := takePins_takes houts
  dsimp only at hshape2 hstrip2 htaken2 htype2
  rw [List.nil_append] at htaken2
  subst htaken2
  dsimp only
  rw [hinit.noPorts.1, List.nil_append]
  have hplain : ∀ v, (nl2.node v).Plain := fun v =>
    (hinit.plain v).congr ((hstrip2 v).trans (hstrip1 v))
  have hplainIn := @nameAll_plain { nl2 with primIns, primOuts } "in"
    (fun i => Names.append_ne_left (a := "in") (c := 'i') (d := 'P') rfl rfl (by decide) _)
    primIns hplain
  have hplainOut := nameAll_plain
    (fun i => Names.append_ne_left (a := "out") (c := 'o') (d := 'P') rfl rfl (by decide) _)
    primOuts hplainIn
  obtain ⟨hshapeIn, htypeIn⟩ := nameAll_shape "in" primIns { nl2 with primIns, primOuts }
  obtain ⟨hshapeOut, htypeOut⟩ := nameAll_shape "out" primOuts
    (nameAll "in" primIns { nl2 with primIns, primOuts })
  obtain ⟨hportsIn, houtsIn⟩ := nameAll_ports "in" primIns { nl2 with primIns, primOuts }
  obtain ⟨hportsOut, houtsOut⟩ := nameAll_ports "out" primOuts
    (nameAll "in" primIns { nl2 with primIns, primOuts })
  have htype : ∀ v, (nameAll "out" primOuts
      (nameAll "in" primIns { nl2 with primIns, primOuts })).type v =
        if v ∈ primOuts then .primaryOut else if v ∈ primIns then .primaryIn
        else .combinational := by
    intro v
    rw [htypeOut, htypeIn]
    change nl2.type v = _
    rw [htype2, htype1, hinit.combinational]
  refine ⟨hplainOut, fun v _ hv => ?_, fun v _ hv => ?_, fun v hv => ?_⟩
  · rw [htype] at hv
    have hout : v ∉ primOuts := fun hmem => by simp [hmem] at hv
    have hin : v ∈ primIns := by
      by_contra hmem
      simp [hout, hmem] at hv
    rcases nameAll_name "out" primOuts (nameAll "in" primIns { nl2 with primIns, primOuts }) v with
      ⟨i, hi, -⟩ | ⟨-, hnode⟩
    · exact absurd (List.mem_of_getElem? hi) hout
    · rcases nameAll_name "in" primIns { nl2 with primIns, primOuts } v with
        ⟨i, hi, hnode'⟩ | ⟨hnot, -⟩
      · refine ⟨i, ?_, ?_⟩
        · rw [hportsOut, hportsIn]
          exact hi
        · unfold name
          rw [hnode, hnode']
      · exact absurd hin hnot
  · rw [htype] at hv
    have hout : v ∈ primOuts := by
      by_contra hmem
      rw [if_neg hmem] at hv
      split at hv <;> cases hv
    rcases nameAll_name "out" primOuts (nameAll "in" primIns { nl2 with primIns, primOuts }) v with
      ⟨i, hi, hnode⟩ | ⟨hnot, -⟩
    · refine ⟨i, ?_, ?_⟩
      · rw [houtsOut, houtsIn]
        exact hi
      · unfold name
        rw [hnode]
    · exact absurd hout hnot
  · rw [houtsOut, houtsIn] at hv
    rw [htype, if_pos hv, hshapeOut.tables.size, hshapeIn.tables.size]
    refine ⟨?_, rfl⟩
    change v < nl2.size
    rw [hshape2.tables.size, hshape1.tables.size]
    exact hlt v hv

/-- An edge changes no names. -/
theorem Named.connected {src snk : NodeId} (h : nl.Named) (hc : Connected nl nl' src snk) :
    nl'.Named := by
  have hstrip : ∀ v, (nl'.node v).strip = (nl.node v).strip := fun v => by
    rw [hc.node, addEdge, addSource_strip, addSink_strip]
  refine h.congr (fun v => (h.plain v).congr (hstrip v)) (fun v _ => hstrip v) hc.ports ?_ ?_ ?_
  · rw [hc.type, hc.size]
    exact fun v hv htype => ⟨hv, htype⟩
  · rw [hc.type, hc.size]
    exact fun v hv htype => ⟨hv, htype⟩
  · rw [hc.type, hc.size]
    exact fun v hv htype => ⟨hv, htype⟩

end Netlist

end Artnetgen
