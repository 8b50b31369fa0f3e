import ArtNetGen.Naming
import ArtNetGen.Library.Filing

/-!
Which nodes become ports. The inputs are a prefix of the nodes along the bottom
row, the outputs a prefix of those down the last column, and the two walks end
in the same bin.
-/

namespace Artnetgen

namespace Netlist

variable {nl nl' : Netlist}

/-! ## Unconnected nodes are filed in the order of the bin -/

/-- Every bin files its nodes under fan-in and fan-out 0, in its own order. -/
structure Unsorted (nl : Netlist) : Prop where
  unconnected : ∀ v, nl.sources v = [] ∧ nl.sinks v = []
  fi : ∀ b c, (nl.bin b).fi2Nodes 0 = some c → c = (nl.bin b).nodes
  fo : ∀ b c, (nl.bin b).fo2Nodes 0 = some c → c = (nl.bin b).nodes

/-- Filing under 0 appends to the first slot. -/
theorem insert_zero {t t' : ClassTable NodeId} {v : NodeId} (h : t.insert v 0 = some t')
    {c : List NodeId} (hc : t'.slots[0]? = some c) :
    ∃ slot, t.slots[0]? = some slot ∧ c = slot ++ [v] := by
  obtain ⟨slot, hslot, rfl⟩ := Option.map_eq_some_iff.mp h
  have hlt : 0 < t.slots.length := (List.getElem?_eq_some_iff.mp hslot).1
  rw [List.getElem?_set_self hlt, Option.some.injEq] at hc
  exact ⟨slot, hslot, hc.symm⟩

theorem Unsorted.placeNode {b : BinId} {v : NodeId} (h : nl.Unsorted)
    (hplace : nl.placeNode b v = some nl') : nl'.Unsorted := by
  obtain ⟨fi, fo, hfi, hfo, rfl⟩ := placeNode_eq_some hplace
  have hfi0 : nl.numFanins v = 0 := List.length_eq_zero_iff.mpr (h.unconnected v).1
  have hfo0 : nl.numFanouts v = 0 := List.length_eq_zero_iff.mpr (h.unconnected v).2
  rw [hfi0] at hfi
  rw [hfo0] at hfo
  refine ⟨fun w => ?_, fun b' c hc => ?_, fun b' c hc => ?_⟩
  · have hw := h.unconnected w
    by_cases hwv : w = v
    · subst hwv
      simpa [sources, sinks, Node.setBbox] using hw
    · simpa [sources, sinks, hwv] using hw
  · by_cases hb : b' = b
    · subst hb
      simp only [Function.update_self, Bin.fi2Nodes] at hc ⊢
      obtain ⟨slot, hslot, rfl⟩ := insert_zero hfi hc
      rw [h.fi b' slot hslot]
    · simp only [Function.update_of_ne hb] at hc ⊢
      exact h.fi b' c hc
  · by_cases hb : b' = b
    · subst hb
      simp only [Function.update_self, Bin.fo2Nodes] at hc ⊢
      obtain ⟨slot, hslot, rfl⟩ := insert_zero hfo hc
      rw [h.fo b' slot hslot]
    · simp only [Function.update_of_ne hb] at hc ⊢
      exact h.fo b' c hc

theorem initializeNetlist_unsorted {ang : ArtNetGen} (h : initializeNetlist ang = some nl) :
    nl.Unsorted := by
  simp only [initializeNetlist] at h
  split at h
  · cases h
  simp only [Option.bind_eq_bind, Option.bind_eq_some_iff] at h
  obtain ⟨fiDist, -, foDist, -, bboxDist, -, avg, -, edgeDist, -, emptyBin, hempty, hplace⟩ := h
  simp only [Bin.init] at hempty
  split at hempty
  · cases hempty
  simp only [Option.some.injEq] at hempty
  subst hempty
  refine Loop.invariant Unsorted (fun i _ nl nl' hnl hblock => ?_) ?_ hplace
  · simp only [placeBlock, Option.bind_eq_bind, Option.bind_eq_some_iff] at hblock
    obtain ⟨b, -, hnodes⟩ := hblock
    exact Loop.invariant Unsorted (fun _ _ _ _ hmid hnode => hmid.placeNode hnode) hnl hnodes
  · refine ⟨fun v => ⟨rfl, rfl⟩, fun b c hc => ?_, fun b c hc => ?_⟩
    · simp only [Bin.fi2Nodes, ClassTable.empty] at hc
      exact List.eq_of_mem_replicate (List.mem_of_getElem? hc)
    · simp only [Bin.fo2Nodes, ClassTable.empty] at hc
      exact List.eq_of_mem_replicate (List.mem_of_getElem? hc)

/-! ## The walks -/

/-- The nodes at the given coordinates. -/
def nodesAt (nl : Netlist) (cell : ℕ × ℕ) : List NodeId :=
  ((nl.getBin cell.1 cell.2).map fun b => (nl.bin b).nodes).getD []

/-- The nodes along a walk. -/
def nodesAlong (nl : Netlist) (cells : List (ℕ × ℕ)) : List NodeId := cells.flatMap nl.nodesAt

theorem SameShape.nodesAlong (h : SameShape nl nl') (cells : List (ℕ × ℕ)) :
    nl'.nodesAlong cells = nl.nodesAlong cells := by
  have hget : ∀ x y, nl'.getBin x y = nl.getBin x y := fun x y => by
    simp only [getBin, numBins, h.tables.layoutDimX, h.tables.layoutDimY, h.bin]
    exact if_congr Iff.rfl rfl rfl
  have hat : nl'.nodesAt = nl.nodesAt := funext fun cell => by
    rw [nodesAt, nodesAt, hget, h.bin]
  rw [Netlist.nodesAlong, Netlist.nodesAlong, hat]

/-- The length at which a list of pins is long enough: the first node is taken
before the count is looked at. -/
def quota (pinCnt : ℤ) : ℕ := (max 1 pinCnt).toNat

theorem takeCandidates_take (type : NodeType) (pinCnt : ℤ) (candidates : List NodeId)
    (nl : Netlist) (pins : List NodeId) (hlt : 0 ≤ pinCnt → pins.length < quota pinCnt) :
    ((takeCandidates type pinCnt candidates (nl, pins)).2 = true ∧ 0 ≤ pinCnt ∧
        quota pinCnt ≤ pins.length + candidates.length ∧
        (takeCandidates type pinCnt candidates (nl, pins)).1.2 =
          pins ++ candidates.take (quota pinCnt - pins.length)) ∨
      ((takeCandidates type pinCnt candidates (nl, pins)).2 = false ∧
        (0 ≤ pinCnt → pins.length + candidates.length < quota pinCnt) ∧
        (takeCandidates type pinCnt candidates (nl, pins)).1.2 = pins ++ candidates) := by
  induction candidates generalizing nl pins with
  | nil => exact .inr ⟨rfl, hlt, (List.append_nil pins).symm⟩
  | cons node rest ih =>
      have hlen : (pins ++ [node]).length = pins.length + 1 := by simp
      simp only [takeCandidates, hlen]
      split
      · next hdone =>
          have hquota : quota pinCnt = pins.length + 1 := by
            have hpins := hlt hdone.1
            have hle := hdone.2
            rw [quota] at hpins ⊢
            omega
          refine .inl ⟨rfl, hdone.1, by rw [hquota, List.length_cons]; omega, ?_⟩
          rw [hquota, Nat.add_sub_cancel_left]
          rfl
      · next hmore =>
          have hlt' : 0 ≤ pinCnt → (pins ++ [node]).length < quota pinCnt := by
            intro hpos
            have hnot : ¬ pinCnt ≤ ((pins.length + 1 : ℕ) : ℤ) := fun hle => hmore ⟨hpos, hle⟩
            rw [hlen, quota]
            omega
          rcases ih (nl.setType node type) (pins ++ [node]) hlt' with
            ⟨hdone, hpos, hquota, htaken⟩ | ⟨hdone, hquota, htaken⟩
          · rw [hlen] at hquota htaken
            refine .inl ⟨hdone, hpos, by rw [List.length_cons]; omega, ?_⟩
            obtain ⟨k, hk⟩ : ∃ k, quota pinCnt - pins.length = k + 1 :=
              ⟨quota pinCnt - pins.length - 1, by have := hlt hpos; omega⟩
            have hk' : quota pinCnt - (pins.length + 1) = k := by omega
            rw [htaken, hk, hk', List.take_succ_cons, List.append_assoc, List.singleton_append]
          · rw [hlen] at hquota
            refine .inr ⟨hdone, fun hpos => ?_, ?_⟩
            · have := hquota hpos
              rw [List.length_cons]
              omega
            · rw [htaken, List.append_assoc, List.singleton_append]

/-- A walk that ends takes a prefix of the nodes along it, just long enough. -/
theorem takePins_take {index : Bin → Option (List NodeId)} {type : NodeType} {pinCnt : ℤ}
    {cells : List (ℕ × ℕ)} {nl : Netlist} {pins : List NodeId} {s' : Netlist × List NodeId}
    (hindex : ∀ b c, index (nl.bin b) = some c → c = (nl.bin b).nodes)
    (hlt : 0 ≤ pinCnt → pins.length < quota pinCnt)
    (h : takePins index type pinCnt cells (nl, pins) = some s') :
    0 ≤ pinCnt ∧ quota pinCnt ≤ pins.length + (nl.nodesAlong cells).length ∧
      s'.2 = pins ++ (nl.nodesAlong cells).take (quota pinCnt - pins.length) := by
  induction cells generalizing nl pins with
  | nil => cases h
  | cons cell rest ih =>
      simp only [takePins, Option.bind_eq_bind, Option.bind_eq_some_iff] at h
      obtain ⟨b, hb, candidates, hcandidates, h⟩ := h
      have hnodes : nl.nodesAt cell = candidates := by
        unfold nodesAt
        rw [hb, hindex b candidates hcandidates]
        rfl
      have halong : nl.nodesAlong (cell :: rest) = candidates ++ nl.nodesAlong rest := by
        rw [nodesAlong, List.flatMap_cons, hnodes, nodesAlong]
      have hshape := (takeCandidates_takes type pinCnt candidates (nl, pins)).1
      rw [halong, List.length_append]
      rcases takeCandidates_take type pinCnt candidates nl pins hlt with
        ⟨hdone, hpos, hquota, htaken⟩ | ⟨hdone, hquota, htaken⟩
      · generalize takeCandidates type pinCnt candidates (nl, pins) = result at h hdone htaken
        obtain ⟨s, done⟩ := result
        subst hdone
        simp only [Option.some.injEq] at h
        subst h
        refine ⟨hpos, by omega, ?_⟩
        rw [htaken, List.take_append_of_le_length (by omega)]
      · generalize takeCandidates type pinCnt candidates (nl, pins) = result
          at h hdone htaken hshape
        obtain ⟨⟨mid, pins'⟩, done⟩ := result
        subst hdone
        dsimp only at h htaken hshape
        subst htaken
        have hbin : mid.bin = nl.bin := hshape.bin
        obtain ⟨hpos, hle, hpins⟩ := ih (fun b c hc => by rw [hbin] at hc ⊢; exact hindex b c hc)
          (fun hpos => by rw [List.length_append]; exact hquota hpos) h
        rw [hshape.nodesAlong, List.length_append] at hle
        rw [hshape.nodesAlong, List.length_append] at hpins
        have hlong := hquota hpos
        have htake : (candidates ++ nl.nodesAlong rest).take (quota pinCnt - pins.length) =
            candidates ++
              (nl.nodesAlong rest).take (quota pinCnt - (pins.length + candidates.length)) := by
          have hall : candidates.length ≤ quota pinCnt - pins.length := by omega
          rw [List.take_append, List.take_of_length_le hall, Nat.sub_sub]
        exact ⟨hpos, by omega, by rw [hpins, htake, List.append_assoc]⟩

/-! ## The two walks meet in the last bin of the bottom row -/

/-- The bins of the bottom row before the last one. -/
def leftOfCorner (nl : Netlist) : List (ℕ × ℕ) :=
  (List.range (nl.layoutDimX - 1)).map fun x => (x, 0)

/-- The bins of the last column before the bottom one, from the top. -/
def aboveCorner (nl : Netlist) : List (ℕ × ℕ) :=
  (List.range (nl.layoutDimY - 1)).reverse.map fun y => (nl.layoutDimX - 1, y + 1)

def corner (nl : Netlist) : ℕ × ℕ := (nl.layoutDimX - 1, 0)

theorem bottom_eq (hX : 0 < nl.layoutDimX) :
    (List.range nl.layoutDimX).map (fun x => (x, 0)) = nl.leftOfCorner ++ [nl.corner] := by
  obtain ⟨n, hn⟩ : ∃ n, nl.layoutDimX = n + 1 := ⟨nl.layoutDimX - 1, by omega⟩
  unfold leftOfCorner
  rw [corner, hn, List.range_succ, List.map_append, Nat.add_sub_cancel]
  rfl

theorem last_eq (hY : 0 < nl.layoutDimY) :
    (List.range nl.layoutDimY).reverse.map (fun y => (nl.layoutDimX - 1, y)) =
      nl.aboveCorner ++ [nl.corner] := by
  obtain ⟨m, hm⟩ : ∃ m, nl.layoutDimY = m + 1 := ⟨nl.layoutDimY - 1, by omega⟩
  rw [aboveCorner, corner, hm, List.range_succ_eq_map, List.reverse_cons, List.map_append,
    Nat.add_sub_cancel, ← List.map_reverse, List.map_map]
  rfl

theorem coords_of_mem_nodesAt (h : nl.Placed) {cell : ℕ × ℕ} {v : NodeId}
    (hv : v ∈ nl.nodesAt cell) : v < nl.size ∧ (nl.x v, nl.y v) = cell := by
  unfold nodesAt at hv
  cases hb : nl.getBin cell.1 cell.2 with
  | none => simp [hb] at hv
  | some b =>
      rw [hb, Option.map_some, Option.getD_some] at hv
      obtain ⟨hlt, hx, hy⟩ := getBin_eq_some hb
      obtain ⟨hsize, hbin⟩ := ((h.members b hlt).2 v).mp hv
      refine ⟨hsize, ?_⟩
      unfold x
      rw [y, hbin, hx, hy]

theorem coords_of_mem_nodesAlong (h : nl.Placed) {cells : List (ℕ × ℕ)} {v : NodeId}
    (hv : v ∈ nl.nodesAlong cells) : v < nl.size ∧ (nl.x v, nl.y v) ∈ cells := by
  obtain ⟨cell, hcell, hv⟩ := List.mem_flatMap.mp hv
  obtain ⟨hlt, rfl⟩ := coords_of_mem_nodesAt h hv
  exact ⟨hlt, hcell⟩

theorem nodesAt_nodup (h : nl.Placed) (cell : ℕ × ℕ) : (nl.nodesAt cell).Nodup := by
  unfold nodesAt
  cases hb : nl.getBin cell.1 cell.2 with
  | none => exact List.nodup_nil
  | some b => exact (h.members b (getBin_eq_some hb).1).1

theorem nodesAlong_nodup (h : nl.Placed) {cells : List (ℕ × ℕ)} (hcells : cells.Nodup) :
    (nl.nodesAlong cells).Nodup := by
  have hfile : ∀ cell ∈ cells, ∀ v ∈ nl.nodesAt cell, (fun v => (nl.x v, nl.y v)) v = cell :=
    fun cell _ v hv => (coords_of_mem_nodesAt h hv).2
  have hfiles := (Filing.nodup_map_flatMap_iff id (fun v w (hvw : v = w) => by rw [hvw]) hcells
    hfile).mpr fun cell _ => by
      rw [List.map_id]
      exact nodesAt_nodup h cell
  rwa [List.map_id] at hfiles

/-- Prefixes of two lists that share nothing but their last part meet exactly
when both reach into it. -/
theorem disjoint_take_iff {α : Type*} {l u c : List α} {m n : ℕ} (hlu : l.Disjoint (u ++ c))
    (huc : u.Disjoint (l ++ c)) (hm : m ≤ (l ++ c).length) (hn : n ≤ (u ++ c).length) :
    ((l ++ c).take m).Disjoint ((u ++ c).take n) ↔ m ≤ l.length ∨ n ≤ u.length := by
  constructor
  · intro hdisjoint
    by_contra hboth
    obtain ⟨hml, hnu⟩ := not_or.mp hboth
    rw [List.length_append] at hm hn
    cases c with
    | nil =>
        rw [List.length_nil] at hm
        omega
    | cons a rest =>
        have hfirst : ∀ (front : List α) (k : ℕ), ¬ k ≤ front.length →
            a ∈ (front ++ a :: rest).take k := by
          intro front k hk
          obtain ⟨j, hj⟩ : ∃ j, k - front.length = j + 1 := ⟨k - front.length - 1, by omega⟩
          rw [List.take_append, hj, List.take_succ_cons]
          exact List.mem_append_right _ List.mem_cons_self
        exact hdisjoint (hfirst l m hml) (hfirst u n hnu)
  · rintro (hml | hnu) a ha ha'
    · rw [List.take_append_of_le_length hml] at ha
      exact hlu (List.mem_of_mem_take ha) (List.mem_of_mem_take ha')
    · rw [List.take_append_of_le_length hnu] at ha'
      exact huc (List.mem_of_mem_take ha') (List.mem_of_mem_take ha)

/-! ## The lists of ports -/

/-- Which nodes become ports, and the type every node ends up with. -/
structure PortsTaken (ang : ArtNetGen) (nl nl' : Netlist) : Prop where
  size : nl'.size = nl.size
  inCnt : 0 ≤ ang.inputPinCnt ∧
    quota ang.inputPinCnt ≤ (nl.nodesAlong (nl.leftOfCorner ++ [nl.corner])).length
  outCnt : 0 ≤ ang.outputPinCnt ∧
    quota ang.outputPinCnt ≤ (nl.nodesAlong (nl.aboveCorner ++ [nl.corner])).length
  primIns : nl'.primIns =
    (nl.nodesAlong (nl.leftOfCorner ++ [nl.corner])).take (quota ang.inputPinCnt)
  primOuts : nl'.primOuts =
    (nl.nodesAlong (nl.aboveCorner ++ [nl.corner])).take (quota ang.outputPinCnt)
  type : ∀ v, nl'.type v = if v ∈ nl'.primOuts then .primaryOut
    else if v ∈ nl'.primIns then .primaryIn else .combinational

theorem quota_pos (pinCnt : ℤ) : ([] : List NodeId).length < quota pinCnt := by
  unfold quota
  rw [List.length_nil]
  omega

theorem setPrimaryIO_taken {ang : ArtNetGen} (hinit : nl.Initialized) (hfiled : nl.Unsorted)
    (h : nl.setPrimaryIO ang = some nl') : PortsTaken ang nl nl' := by
  simp only [ setPrimaryIO, Option.bind_eq_bind, Option.bind_eq_some_iff, Option.pure_def,
    Option.some.injEq, bottom_eq hinit.posX, hinit.noPorts.1] at h
  obtain ⟨⟨nl1, primIns⟩, hins, ⟨nl2, primOuts⟩, houts, rfl⟩ := h
  obtain ⟨hshape1, hports1, -, taken1, htaken1, htype1⟩ := takePins_takes hins
  obtain ⟨hinPos, hinCnt, hinList⟩ :=
    takePins_take hfiled.fi (fun _ => quota_pos ang.inputPinCnt) hins
  dsimp only at hshape1 hports1 htaken1 htype1 hinList houts
  rw [hports1, hinit.noPorts.2, hshape1.tables.layoutDimX, hshape1.tables.layoutDimY,
    last_eq hinit.posY] at houts
  obtain ⟨hshape2, -, -, taken2, htaken2, htype2⟩ := takePins_takes houts
  obtain ⟨houtPos, houtCnt, houtList⟩ := takePins_take
    (fun b c hc => by rw [hshape1.bin] at hc ⊢; exact hfiled.fo b c hc)
    (fun _ => quota_pos ang.outputPinCnt) houts
  dsimp only at hshape2 htaken2 htype2 houtList
  rw [hshape1.nodesAlong] at houtCnt houtList
  rw [List.length_nil, Nat.zero_add] at hinCnt houtCnt
  rw [List.nil_append] at htaken1 htaken2 hinList houtList
  rw [List.length_nil, Nat.sub_zero] at hinList houtList
  subst htaken1 htaken2
  obtain ⟨hshapeIn, htypeIn⟩ := nameAll_shape "in" primIns { nl2 with primIns, primOuts }
  obtain ⟨hshapeOut, htypeOut⟩ := nameAll_shape "out" primOuts
    (nameAll "in" primIns { nl2 with primIns, primOuts })
  obtain ⟨hportsIn, houtsIn⟩ := nameAll_ports "in" primIns { nl2 with primIns, primOuts }
  obtain ⟨hportsOut, houtsOut⟩ := nameAll_ports "out" primOuts
    (nameAll "in" primIns { nl2 with primIns, primOuts })
  refine ⟨?_, ⟨hinPos, hinCnt⟩, ⟨houtPos, houtCnt⟩, ?_, ?_, fun v => ?_⟩
  · rw [hshapeOut.tables.size, hshapeIn.tables.size]
    change nl2.size = nl.size
    rw [hshape2.tables.size, hshape1.tables.size]
  · rw [hportsOut, hportsIn]
    exact hinList
  · rw [houtsOut, houtsIn]
    exact houtList
  · rw [houtsOut, houtsIn, hportsOut, hportsIn, htypeOut, htypeIn]
    change nl2.type v = _
    rw [htype2, htype1, hinit.combinational]

/-- Inputs and outputs are apart, each listed once under a name of its kind,
everything else is combinational, and a positive pin count is met exactly. -/
structure PortsApart (ang : ArtNetGen) (nl : Netlist) : Prop where
  disjoint : nl.primIns.Disjoint nl.primOuts
  nodup : nl.primIns.Nodup ∧ nl.primOuts.Nodup
  ins : ∀ v ∈ nl.primIns, nl.type v = .primaryIn ∧ ∃ i : ℕ, nl.name v = "in" ++ toString i
  outs : ∀ v ∈ nl.primOuts, nl.type v = .primaryOut ∧ ∃ i : ℕ, nl.name v = "out" ++ toString i
  others : ∀ v < nl.size, v ∉ nl.primIns → v ∉ nl.primOuts → nl.type v = .combinational
  inCnt : 1 ≤ ang.inputPinCnt → (nl.primIns.length : ℤ) = ang.inputPinCnt
  outCnt : 1 ≤ ang.outputPinCnt → (nl.primOuts.length : ℤ) = ang.outputPinCnt

theorem leftOfCorner_nodup (nl : Netlist) : (nl.leftOfCorner ++ [nl.corner]).Nodup := by
  refine List.Nodup.append ?_ (List.nodup_singleton _) fun cell hcell hcorner => ?_
  · exact List.nodup_range.map fun _ _ heq => congrArg Prod.fst heq
  · obtain ⟨x, hx, rfl⟩ := List.mem_map.mp hcell
    have heq := congrArg Prod.fst (List.mem_singleton.mp hcorner)
    have hlt := List.mem_range.mp hx
    simp only [corner] at heq
    omega

theorem aboveCorner_nodup (nl : Netlist) : (nl.aboveCorner ++ [nl.corner]).Nodup := by
  refine List.Nodup.append ?_ (List.nodup_singleton _) fun cell hcell hcorner => ?_
  · apply (List.nodup_reverse.mpr List.nodup_range).map
    intro _ _ heq
    exact Nat.succ_injective (congrArg Prod.snd heq)
  · obtain ⟨y, -, rfl⟩ := List.mem_map.mp hcell
    exact absurd (congrArg Prod.snd (List.mem_singleton.mp hcorner)) (Nat.succ_ne_zero y)

theorem nodesAlong_append (nl : Netlist) (cells cells' : List (ℕ × ℕ)) :
    nl.nodesAlong (cells ++ cells') = nl.nodesAlong cells ++ nl.nodesAlong cells' :=
  List.flatMap_append

/-- Walks over different bins take different nodes. -/
theorem nodesAlong_disjoint (h : nl.Placed) {cells cells' : List (ℕ × ℕ)}
    (hcells : cells.Disjoint cells') :
    (nl.nodesAlong cells).Disjoint (nl.nodesAlong cells') := fun _ hv hv' =>
  hcells (coords_of_mem_nodesAlong h hv).2 (coords_of_mem_nodesAlong h hv').2

/-- Inputs and outputs keep apart exactly when the bins before the corner hold
enough nodes for the inputs or for the outputs. -/
theorem setPrimaryIO_apart_iff (ang : ArtNetGen) (nl nl' : Netlist)
    (hinit : initializeNetlist ang = some nl) (h : nl.setPrimaryIO ang = some nl') :
    PortsApart ang nl' ↔
      max 1 ang.inputPinCnt ≤ ((nl.nodesAlong nl.leftOfCorner).length : ℤ) ∨
        max 1 ang.outputPinCnt ≤ ((nl.nodesAlong nl.aboveCorner).length : ℤ) := by
  have hspec := initializeNetlist_spec hinit
  have hplaced := hspec.consistent.placed
  have htaken := setPrimaryIO_taken hspec (initializeNetlist_unsorted hinit) h
  have hnamed := setPrimaryIO_named hspec h
  have hleft : nl.leftOfCorner.Disjoint (nl.aboveCorner ++ [nl.corner]) := by
    intro cell hcell hcell'
    obtain ⟨x, hx, rfl⟩ := List.mem_map.mp hcell
    have hlt := List.mem_range.mp hx
    simp only [aboveCorner, corner, List.mem_append, List.mem_map, List.mem_singleton,
      Prod.mk.injEq] at hcell'
    omega
  have habove : nl.aboveCorner.Disjoint (nl.leftOfCorner ++ [nl.corner]) := by
    intro cell hcell hcell'
    obtain ⟨y, -, rfl⟩ := List.mem_map.mp hcell
    simp only [leftOfCorner, corner, List.mem_append, List.mem_map, List.mem_singleton,
      Prod.mk.injEq] at hcell'
    omega
  have hdisjoint : nl'.primIns.Disjoint nl'.primOuts ↔
      quota ang.inputPinCnt ≤ (nl.nodesAlong nl.leftOfCorner).length ∨
        quota ang.outputPinCnt ≤ (nl.nodesAlong nl.aboveCorner).length := by
    have hin := htaken.inCnt.2
    have hout := htaken.outCnt.2
    have hl := nodesAlong_disjoint hplaced hleft
    have hu := nodesAlong_disjoint hplaced habove
    rw [htaken.primIns, htaken.primOuts]
    rw [nodesAlong_append] at hin hout hl hu ⊢
    rw [nodesAlong_append]
    exact disjoint_take_iff hl hu hin hout
  have hcond : (max 1 ang.inputPinCnt ≤ ((nl.nodesAlong nl.leftOfCorner).length : ℤ) ∨
      max 1 ang.outputPinCnt ≤ ((nl.nodesAlong nl.aboveCorner).length : ℤ)) ↔
        nl'.primIns.Disjoint nl'.primOuts := by
    rw [hdisjoint, quota, quota]
    omega
  rw [hcond]
  refine ⟨PortsApart.disjoint, fun hapart => ?_⟩
  have hsize : ∀ v, v ∈ nl'.primIns → v < nl'.size := by
    intro v hv
    rw [htaken.primIns] at hv
    rw [htaken.size]
    exact (coords_of_mem_nodesAlong hplaced (List.mem_of_mem_take hv)).1
  have hinType : ∀ v ∈ nl'.primIns, nl'.type v = .primaryIn := fun v hv => by
    rw [htaken.type, if_neg fun hout => hapart hv hout, if_pos hv]
  refine ⟨hapart, ⟨?_, ?_⟩, fun v hv => ⟨hinType v hv, ?_⟩, fun v hv => ?_,
    fun v _ hin hout => ?_, fun hpos => ?_, fun hpos => ?_⟩
  · rw [htaken.primIns]
    exact (nodesAlong_nodup hplaced nl.leftOfCorner_nodup).sublist (List.take_sublist _ _)
  · rw [htaken.primOuts]
    exact (nodesAlong_nodup hplaced nl.aboveCorner_nodup).sublist (List.take_sublist _ _)
  · obtain ⟨i, -, hname⟩ := hnamed.ins v (hsize v hv) (hinType v hv)
    exact ⟨i, hname⟩
  · obtain ⟨hlt, htype⟩ := hnamed.outType v hv
    obtain ⟨i, -, hname⟩ := hnamed.outs v hlt htype
    exact ⟨htype, i, hname⟩
  · rw [htaken.type, if_neg hout, if_neg hin]
  · rw [htaken.primIns, List.length_take_of_le htaken.inCnt.2, quota]
    omega
  · rw [htaken.primOuts, List.length_take_of_le htaken.outCnt.2, quota]
    omega

/-! Two nodes in two bins, both asked for as inputs and one as an output: the
node in the corner is taken twice. -/

def cornerSpec : List SpecLine :=
  [.fanin 0 3 1, .fanout 0 3 1, .netbbox 0 3 1, .netbbox 3 0 0, .window 0 0 1, .window 3 0 0,
    .ipadCount 2, .opadCount 1]

def cornerAng : ArtNetGen := (ArtNetGen.init { libs := [] } cornerSpec).get (by decide +kernel)

def cornerStart : Netlist := (initializeNetlist cornerAng).get (by decide +kernel)

def cornerEnd : Netlist := (cornerStart.setPrimaryIO cornerAng).get (by decide +kernel)

theorem cornerEnd_shared :
    ArtNetGen.init { libs := [] } cornerSpec = some cornerAng ∧
      initializeNetlist cornerAng = some cornerStart ∧
      cornerStart.setPrimaryIO cornerAng = some cornerEnd ∧ cornerEnd.primIns = [0, 1] ∧
      cornerEnd.primOuts = [1] ∧ cornerEnd.type 1 = .primaryOut ∧ cornerEnd.name 1 = "out0" :=
  ⟨(Option.some_get _).symm, (Option.some_get _).symm, (Option.some_get _).symm,
    by decide +kernel, by decide +kernel, by decide +kernel, by decide +kernel⟩

theorem setPrimaryIO_apart_iff_corner : ¬ PortsApart cornerAng cornerEnd :=
  mt (setPrimaryIO_apart_iff cornerAng cornerStart cornerEnd (Option.some_get _).symm
    (Option.some_get _).symm).mp (by decide +kernel)

end Netlist

end Artnetgen
