import ArtNetGen.Terminals

/-!
The mapped netlist. Choosing cells adds the two controls and leaves the
connections alone; mapping binds every node on its own and hangs the clock and
reset pins on the controls.
-/

namespace Artnetgen

open Bindings

namespace Netlist

variable {nl nl' mid : Netlist} {clkIn : NodeId}

/-! ## Cells -/

/-- The netlists differ in the cells of their nodes only. -/
def SameButCells (nl nl' : Netlist) : Prop :=
  ∃ (cells : NodeId → Option DbMaster) (master2ratio : DbMaster → ℚ),
    nl' = { nl with node := fun v => { nl.node v with master := cells v }, master2ratio }

theorem SameButCells.refl (nl : Netlist) : SameButCells nl nl :=
  ⟨fun v => (nl.node v).master, nl.master2ratio, rfl⟩

theorem SameButCells.trans {nl'' : Netlist} (h : SameButCells nl nl')
    (h' : SameButCells nl' nl'') : SameButCells nl nl'' := by
  obtain ⟨_, _, rfl⟩ := h
  obtain ⟨cells, ratio, rfl⟩ := h'
  exact ⟨cells, ratio, rfl⟩

theorem setDbMaster_cells (nl : Netlist) (v : NodeId) (master : DbMaster) :
    SameButCells nl (nl.setDbMaster v master) := by
  refine ⟨Function.update (fun w => (nl.node w).master) v (some master), nl.master2ratio, ?_⟩
  unfold setDbMaster
  rw [modify]
  congr 1
  funext w
  by_cases hw : w = v
  · rw [hw, Function.update_self, Function.update_self]
  · rw [Function.update_of_ne hw, Function.update_of_ne hw]

theorem dealMasters_cells {masters : List DbMaster} {targets : List NodeId}
    (h : nl.dealMasters masters targets = some nl') : SameButCells nl nl' := by
  simp only [dealMasters, Option.map_eq_some_iff] at h
  obtain ⟨s, hs, rfl⟩ := h
  refine Loop.invariant (fun s : Dealing => SameButCells nl s.netlist) ?_ ?_ hs
  · intro target _ s s' hcells hdeal
    simp only [Dealing.deal, Option.map_eq_some_iff] at hdeal
    obtain ⟨⟨master, k⟩, -, rfl⟩ := hdeal
    exact hcells.trans (setDbMaster_cells _ _ _)
  · exact ⟨fun v => (nl.node v).master, _, rfl⟩

theorem dealClass_cells {nl0 : Netlist} {fi : ℕ} (h : dealClass nl0 nl fi = some nl') :
    SameButCells nl nl' := by
  simp only [dealClass, Option.bind_eq_bind, Option.bind_eq_some_iff] at h
  obtain ⟨_, -, nl1, hsequ, _, -, hcomb⟩ := h
  exact (dealMasters_cells hsequ).trans (dealMasters_cells hcomb)

/-- The node that stands for a control. -/
def controlNode (nl : Netlist) (type : NodeType) (name : String) (b : BinId) : Node where
  name := name
  type := type
  bin := b
  lx := (nl.bin b).x
  ly := (nl.bin b).y
  ux := (nl.bin b).x
  uy := (nl.bin b).y

theorem addControl_eq (nl : Netlist) (type : NodeType) (name : String) (b : BinId) :
    nl.addControl type name b = { nl with
      size := nl.size + 1
      primIns := nl.primIns ++ [nl.size]
      node := Function.update nl.node nl.size (nl.controlNode type name b) } := by
  simp [addControl, newNode, setName, setType, setBin, modify, Node.setBbox, controlNode]

theorem chooseCells_eq (h : nl.chooseCells = some mid) :
    ∃ (cells : NodeId → Option DbMaster) (master2ratio : DbMaster → ℚ) (b : BinId), mid = { nl with
      size := nl.size + 2
      primIns := nl.primIns ++ [nl.size, nl.size + 1]
      node := fun v => { Function.update (Function.update nl.node nl.size
        (nl.controlNode .clockIn "clk" b)) (nl.size + 1) (nl.controlNode .resetIn "rst" b) v with
          master := cells v }
      master2ratio } := by
  simp only [chooseCells, Option.bind_eq_bind] at h
  split at h
  · cases h
  · simp only [Option.bind_eq_some_iff] at h
    obtain ⟨origin, -, h⟩ := h
    obtain ⟨cells, ratio, rfl⟩ := Loop.invariant
      (SameButCells ((nl.addControl .clockIn "clk" origin).addControl .resetIn "rst" origin))
      (fun _ _ _ _ hcells hdeal => hcells.trans (dealClass_cells hdeal)) (.refl _) h
    refine ⟨cells, ratio, origin, ?_⟩
    rw [addControl_eq, addControl_eq]
    simp [controlNode]

/-- What mapping relies on: the connections agree, the two controls are the last
nodes and not connected yet, and the ports have their names. -/
structure Prepared (nl : Netlist) (clkIn : NodeId) : Prop where
  size : nl.size = clkIn + 2
  mirrored : nl.graph.Mirrored
  lt : ∀ u v, v ∈ nl.sinks u → u < clkIn ∧ v < clkIn
  noControl : ∀ v < clkIn, (nl.type v).isControl = false
  clk : nl.type clkIn = .clockIn ∧ nl.name clkIn = "clk"
  rst : nl.type (clkIn + 1) = .resetIn ∧ nl.name (clkIn + 1) = "rst"
  named : nl.Named

/-- The netlist whose terminals are to be mapped: a finished netlist with cells
and the two controls. -/
structure Chosen (nl : Netlist) (clkIn : NodeId) : Prop where
  size : nl.size = clkIn + 2
  simple : nl.graph.Simple
  lt : ∀ u v, v ∈ nl.sinks u → u < clkIn ∧ v < clkIn
  ported : nl.graph.Ported {v | nl.type v = .primaryIn} {v | nl.type v = .primaryOut}
  noControl : ∀ v < clkIn, (nl.type v).isControl = false
  clk : nl.type clkIn = .clockIn ∧ nl.name clkIn = "clk"
  rst : nl.type (clkIn + 1) = .resetIn ∧ nl.name (clkIn + 1) = "rst"
  named : nl.Named

theorem Chosen.prepared (hc : nl.Chosen clkIn) : nl.Prepared clkIn :=
  ⟨hc.size, hc.simple.mirrored, hc.lt, hc.noControl, hc.clk, hc.rst, hc.named⟩

instance : Coe (nl.Chosen clkIn) (nl.Prepared clkIn) := ⟨Chosen.prepared⟩

/-- The chosen netlist has two more nodes, and cells. -/
structure Controls (nl mid : Netlist) (b : BinId) : Prop where
  size : mid.size = nl.size + 2
  ins : mid.primIns = nl.primIns ++ [nl.size, nl.size + 1]
  outs : mid.primOuts = nl.primOuts
  clk : ∃ master, mid.node nl.size = { nl.controlNode .clockIn "clk" b with master }
  rst : ∃ master, mid.node (nl.size + 1) = { nl.controlNode .resetIn "rst" b with master }
  old : ∀ v, v ≠ nl.size → v ≠ nl.size + 1 → ∃ master, mid.node v = { nl.node v with master }

theorem chooseCells_controls (h : nl.chooseCells = some mid) : ∃ b, Controls nl mid b := by
  obtain ⟨cells, ratio, b, hmid⟩ := chooseCells_eq h
  refine ⟨b, by rw [hmid], by rw [hmid], by rw [hmid], ⟨cells nl.size, ?_⟩,
    ⟨cells (nl.size + 1), ?_⟩, fun v hv hv' => ⟨cells v, ?_⟩⟩
  · simp [hmid]
  · simp [hmid]
  · rw [hmid]
    dsimp only
    rw [Function.update_of_ne hv', Function.update_of_ne hv]

namespace Controls

variable {b : BinId}

theorem clk_type (h : Controls nl mid b) :
    mid.type nl.size = .clockIn ∧ mid.name nl.size = "clk" := by
  obtain ⟨_, hclk⟩ := h.clk
  unfold type
  rw [name, hclk]
  exact ⟨rfl, rfl⟩

theorem rst_type (h : Controls nl mid b) :
    mid.type (nl.size + 1) = .resetIn ∧ mid.name (nl.size + 1) = "rst" := by
  obtain ⟨_, hrst⟩ := h.rst
  unfold type
  rw [name, hrst]
  exact ⟨rfl, rfl⟩

theorem old_of_lt (h : Controls nl mid b) {v : NodeId} (hv : v < nl.size) :
    ∃ master, mid.node v = { nl.node v with master } :=
  h.old v hv.ne (hv.trans (Nat.lt_succ_self _)).ne

theorem type_of_lt (h : Controls nl mid b) {v : NodeId} (hv : v < nl.size) :
    mid.type v = nl.type v := by
  obtain ⟨_, hold⟩ := h.old_of_lt hv
  rw [type, hold]
  rfl

/-- Inputs and outputs are old nodes. -/
theorem port (h : Controls nl mid b) {v : ℕ} {t : NodeType} (ht : t = .primaryIn ∨ t = .primaryOut)
    (htype : mid.type v = t) :
    (v < mid.size → v < nl.size) ∧ nl.type v = t ∧ mid.name v = nl.name v := by
  have hclk : v ≠ nl.size := by
    rintro rfl
    rw [h.clk_type.1] at htype
    rcases ht with rfl | rfl <;> cases htype
  have hrst : v ≠ nl.size + 1 := by
    rintro rfl
    rw [h.rst_type.1] at htype
    rcases ht with rfl | rfl <;> cases htype
  obtain ⟨_, hold⟩ := h.old v hclk hrst
  have hsize := h.size
  unfold type at htype
  rw [hold] at htype
  refine ⟨fun hlt => ?_, htype, by rw [name, hold, name]⟩
  change ¬ v = nl.size at hclk
  change ¬ v = nl.size + 1 at hrst
  omega

/-- The controls are not connected yet, and their places were free. -/
theorem graph (h : Controls nl mid b) (hfresh : ∀ v, nl.size ≤ v → nl.graph.Fresh v) :
    mid.graph = nl.graph := by
  obtain ⟨_, hclk⟩ := h.clk
  obtain ⟨_, hrst⟩ := h.rst
  refine congrArg₂ Adjacency.mk (funext fun v => ?_) (funext fun v => ?_)
  · by_cases hv : v = nl.size
    · unfold sources
      rw [hv, hclk]
      exact (hfresh nl.size le_rfl).1.symm
    · by_cases hv' : v = nl.size + 1
      · unfold sources
        rw [hv', hrst]
        exact (hfresh (nl.size + 1) (Nat.le_succ _)).1.symm
      · obtain ⟨_, hold⟩ := h.old v hv hv'
        rw [sources, hold, sources]
  · by_cases hv : v = nl.size
    · unfold sinks
      rw [hv, hclk]
      exact (hfresh nl.size le_rfl).2.symm
    · by_cases hv' : v = nl.size + 1
      · unfold sinks
        rw [hv', hrst]
        exact (hfresh (nl.size + 1) (Nat.le_succ _)).2.symm
      · obtain ⟨_, hold⟩ := h.old v hv hv'
        rw [sinks, hold, sinks]

theorem plain (h : Controls nl mid b) (hn : nl.Named) (v : NodeId) : (mid.node v).Plain := by
  by_cases hv : v = nl.size
  · obtain ⟨_, hclk⟩ := h.clk
    rw [hv, hclk]
    exact ⟨rfl, (by decide : "clk" ≠ "PIN")⟩
  · by_cases hv' : v = nl.size + 1
    · obtain ⟨_, hrst⟩ := h.rst
      rw [hv', hrst]
      exact ⟨rfl, (by decide : "rst" ≠ "PIN")⟩
    · obtain ⟨_, hold⟩ := h.old v hv hv'
      rw [hold]
      exact (hn.plain v).congr rfl

theorem named (h : Controls nl mid b) (hn : nl.Named) : mid.Named := by
  refine ⟨h.plain hn, fun v hv htype => ?_, fun v hv htype => ?_, fun v hv => ?_⟩
  · obtain ⟨hvlt, htype', hname⟩ := h.port (Or.inl rfl) htype
    obtain ⟨i, hi, hnamed⟩ := hn.ins v (hvlt hv) htype'
    refine ⟨i, ?_, hname.trans hnamed⟩
    rw [h.ins]
    exact (List.getElem?_append_left (List.getElem?_eq_some_iff.mp hi).1).trans hi
  · obtain ⟨hvlt, htype', hname⟩ := h.port (Or.inr rfl) htype
    obtain ⟨i, hi, hnamed⟩ := hn.outs v (hvlt hv) htype'
    refine ⟨i, ?_, hname.trans hnamed⟩
    rw [h.outs]
    exact hi
  · obtain ⟨hvlt, htype⟩ := hn.outType v (h.outs ▸ hv)
    refine ⟨hvlt.trans (h.size ▸ Nat.lt_add_of_pos_right Nat.two_pos), ?_⟩
    rw [h.type_of_lt hvlt]
    exact htype

end Controls

theorem sortable_of_noControl (hmirrored : nl.graph.Mirrored)
    (hfresh : ∀ v, nl.size ≤ v → nl.graph.Fresh v)
    (hcontrol : ∀ v < nl.size, (nl.type v).isControl = false) : nl.Sortable := by
  refine ⟨hmirrored, hfresh, fun u hu => ?_⟩
  have hout : nl.size ≤ u := Nat.not_lt.mp fun hlt => by
    rw [hcontrol u hlt] at hu
    cases hu
  have hsinks : nl.sinks u = [] := (hfresh u hout).2
  refine ⟨(hfresh u hout).1, fun v hv => ?_⟩
  rw [hsinks] at hv
  cases hv

theorem chooseCells_prepared (hmirrored : nl.graph.Mirrored)
    (hfresh : ∀ v, nl.size ≤ v → nl.graph.Fresh v)
    (hcontrol : ∀ v < nl.size, (nl.type v).isControl = false) (hn : nl.Named)
    (h : nl.chooseCells = some mid) : mid.Prepared nl.size := by
  obtain ⟨b, hc⟩ := chooseCells_controls h
  have hsortable := sortable_of_noControl hmirrored hfresh hcontrol
  have hgraph := hc.graph hfresh
  have hsinks : mid.sinks = nl.sinks := congrArg Adjacency.sinks hgraph
  refine ⟨hc.size, hgraph ▸ hmirrored, fun u v hv => hsortable.lt (hsinks ▸ hv), fun v hv => ?_,
    hc.clk_type, hc.rst_type, hc.named hn⟩
  rw [hc.type_of_lt hv]
  exact hcontrol v hv

theorem chooseCells_chosen (hl : nl.Legal) (hn : nl.Named) (h : nl.chooseCells = some mid) :
    mid.Chosen nl.size := by
  obtain ⟨b, hc⟩ := chooseCells_controls h
  have hgraph := hc.graph hl.sound.fresh
  have hsinks : mid.sinks = nl.sinks := congrArg Adjacency.sinks hgraph
  refine ⟨hc.size, hgraph ▸ hl.sound.simple, fun u v hv => hl.sortable.lt (hsinks ▸ hv), ?_,
    fun v hv => ?_, hc.clk_type, hc.rst_type, hc.named hn⟩
  · rw [hgraph]
    exact hl.sound.ported.mono (fun v hv => (hc.port (Or.inl rfl) hv).2.1)
      fun v hv => (hc.port (Or.inr rfl) hv).2.1
  · rw [hc.type_of_lt hv]
    exact hl.noControl v

/-! ## All nodes -/

/-- The nodes below `k` that have pins of the given use, each once for each
pin. -/
def pinSinks (nl : Netlist) (sig : DbSigType) (k : ℕ) : List NodeId :=
  (List.range k).flatMap fun v => ((nl.node v).pins sig .input).map fun _ => v

theorem mem_pinSinks {sig : DbSigType} {k : ℕ} {v : NodeId} :
    v ∈ nl.pinSinks sig k ↔ v < k ∧ (nl.node v).pins sig .input ≠ [] := by
  simp only [pinSinks, List.mem_flatMap, List.mem_range, List.mem_map, exists_and_right]
  constructor
  · rintro ⟨u, hu, ⟨pin, hpin⟩, rfl⟩
    exact ⟨hu, List.ne_nil_of_mem hpin⟩
  · rintro ⟨hv, hpins⟩
    exact ⟨v, hv, List.exists_mem_of_ne_nil _ hpins, rfl⟩

/-- The nodes before `k` are mapped. -/
structure MappedTo (clkIn : NodeId) (nl nl' : Netlist) (k : ℕ) : Prop where
  keeps : Keeps nl nl'
  size : nl'.size = nl.size
  done : ∀ v < k, (nl.node v).Mappable ∧ nl'.node v = (nl.node v).mapped clkIn (clkIn + 1)
  todo : ∀ v, k ≤ v → v < clkIn → nl'.node v = nl.node v
  clk : Node.Grown (nl.node clkIn) (nl'.node clkIn) (nl.pinSinks .clock k)
  rst : Node.Grown (nl.node (clkIn + 1)) (nl'.node (clkIn + 1)) (nl.pinSinks .reset k)

theorem MappedTo.succ {nl'' : Netlist} {k : ℕ} (hplain : ∀ v, (nl.node v).Plain) (hk : k < clkIn)
    (h : MappedTo clkIn nl nl' k)
    (hstep : nl'.mappingTerms clkIn (clkIn + 1) k = some nl'') : MappedTo clkIn nl nl'' (k + 1) := by
  have hclk : k ≠ clkIn := hk.ne
  have hrst : k ≠ clkIn + 1 := (hk.trans (Nat.lt_succ_self _)).ne
  have hnode : nl'.node k = nl.node k := h.todo k le_rfl hk
  obtain ⟨hkeeps, hsize, hmappable, hmapped, hgrown, hgrown', hothers⟩ :=
    mappingTerms_nodeMapped (hnode ▸ hplain k) (Nat.succ_ne_self clkIn).symm
      (fun hk => (hk.elim hclk hrst).elim) hstep
  rw [hnode] at hmappable hmapped hgrown hgrown'
  have hsucc : ∀ sig, nl.pinSinks sig (k + 1) =
      nl.pinSinks sig k ++ ((nl.node k).pins sig .input).map fun _ => k := fun sig => by
    simp [pinSinks, List.range_succ]
  refine ⟨h.keeps.trans hkeeps, hsize.trans h.size, fun v hv => ?_, fun v hv hvclk => ?_, ?_, ?_⟩
  · rcases Nat.lt_succ_iff_lt_or_eq.mp hv with hv | rfl
    · have hv' := hv.trans hk
      rw [hothers v hv.ne hv'.ne (hv'.trans (Nat.lt_succ_self _)).ne]
      exact h.done v hv
    · exact ⟨hmappable, hmapped⟩
  · have hv' : k ≠ v := (Nat.lt_of_succ_le hv).ne
    rw [hothers v hv'.symm hvclk.ne (hvclk.trans (Nat.lt_succ_self _)).ne]
    exact h.todo v (Nat.le_of_succ_le hv) hvclk
  · rw [hsucc]
    exact h.clk.trans (hgrown hclk)
  · rw [hsucc]
    exact h.rst.trans (hgrown' hrst)

theorem mappedTo {k : ℕ} (hplain : ∀ v, (nl.node v).Plain) (hk : k ≤ clkIn)
    (h : (List.range k).foldlM (mappingTerms clkIn (clkIn + 1)) nl = some nl') :
    MappedTo clkIn nl nl' k := by
  induction k generalizing nl' with
  | zero =>
      obtain rfl : nl = nl' := by simpa using h
      exact ⟨rfl, rfl, nofun, fun _ _ _ => rfl, .refl _, .refl _⟩
  | succ k ih =>
      rw [List.range_succ, Loop.foldlM_append_eq_some] at h
      obtain ⟨cur, hcur, hlast⟩ := h
      obtain ⟨nl'', hstep, hend⟩ := Loop.foldlM_cons_eq_some.mp hlast
      obtain rfl : nl'' = nl' := by simpa using hend
      exact (ih (Nat.le_of_succ_le hk) hcur).succ hplain hk hstep

/-- All nodes are mapped, the controls with the sinks that the others have given
them. -/
structure Mapped (clkIn : NodeId) (nl nl' : Netlist) : Prop where
  keeps : Keeps nl nl'
  size : nl'.size = nl.size
  node : ∀ v < clkIn, (nl.node v).Mappable ∧ nl'.node v = (nl.node v).mapped clkIn (clkIn + 1)
  clk : ∃ n, Node.Grown (nl.node clkIn) n (nl.pinSinks .clock clkIn) ∧
    nl'.node clkIn = n.mapped clkIn (clkIn + 1)
  rst : ∃ n, Node.Grown (nl.node (clkIn + 1)) n (nl.pinSinks .reset clkIn) ∧
    nl'.node (clkIn + 1) = n.mapped clkIn (clkIn + 1)

theorem Prepared.mapped (hc : nl.Prepared clkIn)
    (h : nl.nodes.foldlM (mappingTerms clkIn (clkIn + 1)) nl = some nl') :
    Mapped clkIn nl nl' := by
  unfold nodes at h
  rw [hc.size, List.range_succ, List.range_succ, Loop.foldlM_append_eq_some] at h
  obtain ⟨cur2, h, hlast⟩ := h
  rw [Loop.foldlM_append_eq_some] at h
  obtain ⟨cur1, hcur, hlast'⟩ := h
  obtain ⟨_, hclk, hend⟩ := Loop.foldlM_cons_eq_some.mp hlast'
  obtain rfl : _ = cur2 := by simpa using hend
  obtain ⟨_, hrst, hend⟩ := Loop.foldlM_cons_eq_some.mp hlast
  obtain rfl : _ = nl' := by simpa using hend
  obtain ⟨hkeeps, hsize, hdone, -, hgrown, hgrown'⟩ := mappedTo hc.named.plain le_rfl hcur
  have hne : clkIn ≠ clkIn + 1 := (Nat.succ_ne_self clkIn).symm
  have hclkPins := Node.pins_of_control (Or.inl hc.clk.1)
  have hrstPins := Node.pins_of_control (Or.inr hc.rst.1)
  have hclkStep := mappingTerms_nodeMapped (hgrown.plain (hc.named.plain clkIn)) hne
    (fun _ => by rw [hgrown.pins]; exact ⟨hclkPins.1, hclkPins.2⟩) hclk
  have hgrown'' := hgrown'.trans (hclkStep.rst hne)
  rw [hgrown.pins, hclkPins.2, List.map_nil, List.append_nil] at hgrown''
  have hrstStep := mappingTerms_nodeMapped (hgrown''.plain (hc.named.plain (clkIn + 1))) hne
    (fun _ => by rw [hgrown''.pins]; exact ⟨hrstPins.1, hrstPins.2⟩) hrst
  refine ⟨(hkeeps.trans hclkStep.keeps).trans hrstStep.keeps,
    hrstStep.size.trans (hclkStep.size.trans hsize), fun v hv => ?_, ?_, ?_⟩
  · have hv' : v < clkIn + 1 := hv.trans (Nat.lt_succ_self _)
    rw [hrstStep.others v hv'.ne hv.ne hv'.ne, hclkStep.others v hv.ne hv.ne hv'.ne]
    exact hdone v hv
  · have hbox := hrstStep.clk hne.symm
    rw [hgrown''.pins, hrstPins.1, hclkStep.node, List.map_nil] at hbox
    obtain ⟨n, hn, heq⟩ := hbox.mapped
    have hall := hgrown.trans hn
    rw [List.append_nil] at hall
    exact ⟨n, hall, heq⟩
  · exact ⟨_, hgrown'', hrstStep.node⟩

/-! ## The mapped netlist -/

/-- The sinks with the output terminals that drive them. -/
def shares (nl : Netlist) (v : NodeId) : List (NodeId × String) :=
  spread (nl.sinks v) ((nl.node v).pins .signal .output)

/-- The sources with the input terminals that they are meant for. -/
def inputs (nl : Netlist) (v : NodeId) : List (NodeId × String) :=
  (nl.sources v).zip ((nl.node v).pins .signal .input)

theorem map_fst_shares {v : NodeId} (h : (nl.node v).Mappable) :
    (nl.shares v).map Prod.fst = nl.sinks v := map_fst_spread h.outputs

theorem map_fst_inputs {v : NodeId} (h : (nl.node v).Mappable) :
    (nl.inputs v).map Prod.fst = nl.sources v := List.map_fst_zip h.inputs.ge

/-- A node is one of the finished netlist or a control. -/
theorem Prepared.node_cases (hc : nl.Prepared clkIn) {v : NodeId} (hv : v < nl.size) :
    v < clkIn ∨ v = clkIn ∨ v = clkIn + 1 := by
  rw [hc.size] at hv
  rcases Nat.lt_succ_iff_lt_or_eq.mp hv with hv | hv
  · exact (Nat.lt_succ_iff_lt_or_eq.mp hv).imp_right Or.inl
  · exact Or.inr (Or.inr hv)

theorem Prepared.clk_lt (hc : nl.Prepared clkIn) : clkIn < nl.size := by
  rw [hc.size]
  exact Nat.lt_add_of_pos_right Nat.two_pos

theorem Prepared.rst_lt (hc : nl.Prepared clkIn) : clkIn + 1 < nl.size := by
  rw [hc.size]
  exact Nat.lt_succ_self _

theorem Prepared.lt_size (hc : nl.Prepared clkIn) {v : NodeId} (hv : v < clkIn) : v < nl.size :=
  hv.trans hc.clk_lt

theorem Mapped.same (h : Mapped clkIn nl nl') (hc : nl.Prepared clkIn) {v : NodeId}
    (hv : v < nl.size) :
    nl'.type v = nl.type v ∧ nl'.name v = nl.name v ∧ (nl'.node v).pins = (nl.node v).pins := by
  rcases hc.node_cases hv with hv | rfl | rfl
  · unfold type
    rw [name, (h.node v hv).2]
    exact ⟨rfl, rfl, rfl⟩
  · obtain ⟨n, ⟨_, _, _, _, rfl⟩, hn⟩ := h.clk
    unfold type
    rw [name, hn]
    exact ⟨rfl, rfl, rfl⟩
  · obtain ⟨n, ⟨_, _, _, _, rfl⟩, hn⟩ := h.rst
    unfold type
    rw [name, hn]
    exact ⟨rfl, rfl, rfl⟩

section Edges

variable {u v : NodeId}

theorem Mapped.sinks (h : Mapped clkIn nl nl') (hv : v < clkIn) : nl'.sinks v = nl.sinks v := by
  unfold Netlist.sinks
  rw [(h.node v hv).2]
  rfl

theorem Prepared.sinks_control (hc : nl.Prepared clkIn) (hu : clkIn ≤ u) : nl.sinks u = [] :=
  List.eq_nil_iff_forall_not_mem.mpr fun v hv => absurd (hc.lt u v hv).1 (Nat.not_lt.mpr hu)

theorem Prepared.mem_iff (hc : nl.Prepared clkIn) : v ∈ nl.sinks u ↔ u ∈ nl.sources v :=
  hc.mirrored.mem_iff

theorem Mapped.sinks_clk (h : Mapped clkIn nl nl') (hc : nl.Prepared clkIn) :
    nl'.sinks clkIn = nl.pinSinks .clock clkIn := by
  obtain ⟨n, ⟨_, _, _, _, rfl⟩, hn⟩ := h.clk
  have hnone : (nl.node clkIn).sinks = [] := hc.sinks_control le_rfl
  unfold Netlist.sinks
  rw [hn]
  exact congrArg (· ++ _) hnone

theorem Mapped.sinks_rst (h : Mapped clkIn nl nl') (hc : nl.Prepared clkIn) :
    nl'.sinks (clkIn + 1) = nl.pinSinks .reset clkIn := by
  obtain ⟨n, ⟨_, _, _, _, rfl⟩, hn⟩ := h.rst
  have hnone : (nl.node (clkIn + 1)).sinks = [] := hc.sinks_control (Nat.le_succ clkIn)
  unfold Netlist.sinks
  rw [hn]
  exact congrArg (· ++ _) hnone

/-- The edges of the mapped netlist. -/
theorem Mapped.mem_sinks (h : Mapped clkIn nl nl') (hc : nl.Prepared clkIn) (hu : u < nl.size) :
    v ∈ nl'.sinks u ↔ v ∈ nl.sinks u ∨ (v < clkIn ∧
      ((u = clkIn ∧ (nl.node v).pins .clock .input ≠ []) ∨
        (u = clkIn + 1 ∧ (nl.node v).pins .reset .input ≠ []))) := by
  rcases hc.node_cases hu with hu | rfl | rfl
  · rw [h.sinks hu]
    have hne : u ≠ clkIn := hu.ne
    have hne' : u ≠ clkIn + 1 := (hu.trans (Nat.lt_succ_self _)).ne
    simp [hne, hne']
  · rw [h.sinks_clk hc, mem_pinSinks, hc.sinks_control le_rfl]
    simp
  · rw [h.sinks_rst hc, mem_pinSinks, hc.sinks_control (Nat.le_succ clkIn)]
    simp

theorem Mapped.mem_sources (h : Mapped clkIn nl nl') (hv : v < clkIn) :
    u ∈ nl'.sources v ↔ u ∈ nl.sources v ∨
      (u = clkIn ∧ (nl.node v).pins .clock .input ≠ []) ∨
        (u = clkIn + 1 ∧ (nl.node v).pins .reset .input ≠ []) := by
  have hpins : ∀ (l : List String) (w : NodeId), (∃ pin, pin ∈ l ∧ w = u) ↔ u = w ∧ l ≠ [] :=
    fun l w => ⟨fun ⟨_, hpin, heq⟩ => ⟨heq.symm, List.ne_nil_of_mem hpin⟩,
      fun ⟨heq, hne⟩ => (List.exists_mem_of_ne_nil l hne).imp fun _ hpin => ⟨hpin, heq.symm⟩⟩
  rw [Netlist.sources, (h.node v hv).2]
  simp only [Node.mapped, Node.control, Node.bound, List.mem_append, List.mem_map, hpins, or_assoc]
  rfl

end Edges

/-! ## What terminals are bound to -/

section Terms

variable {u v : NodeId}

theorem Chosen.simple_sinks (hc : nl.Chosen clkIn) (v : NodeId) : (nl.sinks v).Nodup :=
  hc.simple.sinks_nodup v

/-- Entries for the controls do not touch other neighbours. -/
theorem Mapped.getTerm_of_lt (h : Mapped clkIn nl nl') (hv : v < clkIn) (hu : u < clkIn) :
    nl'.getTerm v u = bindAll (bindAll (fun _ => "") (nl.inputs v)) (nl.shares v) u := by
  have hclk : u ≠ clkIn := hu.ne
  have hrst : u ≠ clkIn + 1 := (hu.trans (Nat.lt_succ_self _)).ne
  unfold getTerm
  rw [(h.node v hv).2, Node.mapped, Node.control, Node.control, Node.bound]
  dsimp only
  rw [bindAll_of_not_mem, bindAll_of_not_mem, Node.entries, bindAll_append]
  · rfl
  · simp [hclk]
  · simp [hrst]

/-- A sink is driven by the output terminal whose block it is in. -/
theorem Mapped.getTerm_sink (h : Mapped clkIn nl nl') (hc : nl.Chosen clkIn)
    (hv : v ∈ nl.sinks u) : (v, nl'.getTerm u v) ∈ nl.shares u := by
  obtain ⟨hu, hvlt⟩ := hc.lt u v hv
  rw [h.getTerm_of_lt hu hvlt]
  apply bindAll_mem
  rwa [map_fst_shares (h.node u hu).1]

/-- A source that is no sink as well drives the input terminal it is meant for. -/
theorem Mapped.getTerm_source (h : Mapped clkIn nl nl') (hc : nl.Chosen clkIn)
    (hu : u ∈ nl.sources v) (hnot : u ∉ nl.sinks v) :
    (u, nl'.getTerm v u) ∈ nl.inputs v := by
  obtain ⟨hult, hv⟩ := hc.lt u v (hc.prepared.mem_iff.mpr hu)
  have hmappable := (h.node v hv).1
  rw [h.getTerm_of_lt hv hult, bindAll_of_not_mem]
  · apply bindAll_mem
    rwa [map_fst_inputs hmappable]
  · rwa [map_fst_shares hmappable]

theorem Mapped.getTerm_clk (h : Mapped clkIn nl nl') (hv : v < clkIn)
    (hpins : (nl.node v).pins .clock .input ≠ []) :
    ((nl.node v).pins .clock .input).getLast? = some (nl'.getTerm v clkIn) := by
  unfold getTerm
  rw [(h.node v hv).2, Node.mapped, Node.control]
  dsimp only
  rw [bindAll_of_not_mem]
  · exact bindAll_const hpins
  · simp

theorem Mapped.getTerm_rst (h : Mapped clkIn nl nl') (hv : v < clkIn)
    (hpins : (nl.node v).pins .reset .input ≠ []) :
    ((nl.node v).pins .reset .input).getLast? = some (nl'.getTerm v (clkIn + 1)) := by
  unfold getTerm
  rw [(h.node v hv).2, Node.mapped, Node.control]
  exact bindAll_const hpins

end Terms

end Netlist

end Artnetgen
