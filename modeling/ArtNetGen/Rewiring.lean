import ArtNetGen.Netlist
import ArtNetGen.Library.Names

/-!
The three ways in which timing-path construction adds a register:
`createMergeNode` for two and for three nodes, and `insertSequentialNode`, each
in front of or behind its targets. They edit both adjacency lists one entry at a
time; the lemmas say that the graph ends up spliced.
-/

namespace Artnetgen

namespace Netlist

/-- The nodes of `l` that `std::find` does not find in the list yet. -/
def pushNew (acc l : List NodeId) : List NodeId :=
  l.foldl (fun acc node => if node ∈ acc then acc else acc ++ [node]) acc

/-- A new node in a bin, as `new Node`, `setBin`, `setBbox` and `Bin::addNode`
make it. The last resets the box. -/
def createNode (nl : Netlist) (type : NodeType) (b : BinId) (name : String)
    (lx ly ux uy : ℕ) : Option Netlist :=
  let n := nl.size
  ((((nl.newNode.setType n type).setBin n b).setBbox n lx ly ux uy).setName n name).addNode b n

/-- The rewiring of `createMergeNode` around the new node `n`. -/
def merge (nl : Netlist) (n : NodeId) (targets : List NodeId) (front : Bool) : Netlist :=
  if front then
    let sources := targets.foldl (fun acc t => pushNew acc (nl.sources t)) []
    let nl := nl.addSources n sources
    let nl := targets.foldl (fun nl t => nl.addSink n t) nl
    let nl := targets.foldl (fun nl t => nl.removeAllSources t) nl
    targets.foldl (fun nl t => nl.addSource t n) nl
  else
    let sinks := targets.foldl (fun acc t => pushNew acc (nl.sinks t)) []
    let nl := nl.addSinks n sinks
    let nl := targets.foldl (fun nl t => nl.addSource n t) nl
    let nl := targets.foldl (fun nl t => nl.removeAllSinks t) nl
    targets.foldl (fun nl t => nl.addSink t n) nl

/-- The common body of the two overloads; the node's position is the old
size. -/
def createMergeNodeAt (nl : Netlist) (b : BinId) (targets : List NodeId) (front : Bool) :
    Option (Netlist × NodeId) := do
  let n := nl.size
  let least (f : Node → ℕ) : ℕ := (targets.tail.map fun t => f (nl.node t)).foldl min
    (f (nl.node (targets.headD 0)))
  let largest (f : Node → ℕ) : ℕ := (targets.tail.map fun t => f (nl.node t)).foldl max
    (f (nl.node (targets.headD 0)))
  let nl ← nl.createNode .sequential b ("merge" ++ toString nl.size)
    (least Node.lx) (least Node.ly) (largest Node.ux) (largest Node.uy)
  let nl := nl.merge n targets front
  let nl ← (targets ++ [n]).foldlM (fun nl v => nl.update (nl.binOf v) v) nl
  return (nl, n)

/-- `createMergeNode(n1, n2, front)`. -/
def createMergeNode (nl : Netlist) (n1 n2 : NodeId) (front : Bool) :
    Option (Netlist × NodeId) :=
  nl.createMergeNodeAt (nl.binOf n1) [n1, n2] front

/-- `createMergeNode(n1, n2, n3, front)`. -/
def createMergeNode3 (nl : Netlist) (n1 n2 n3 : NodeId) (front : Bool) :
    Option (Netlist × NodeId) := do
  let centerX := (nl.x n1 + nl.x n2 + nl.x n3) / 3
  let centerY := (nl.y n1 + nl.y n2 + nl.y n3) / 3
  let b ← nl.getBin centerX centerY
  nl.createMergeNodeAt b [n1, n2, n3] front

/-- In front of the target; a gate collects several sources first. The gate is
filed in its bin only after it is connected, and it gets no name. -/
def insertFront (nl : Netlist) (seqn target : NodeId) : Option Netlist :=
  let sources := nl.sources target
  let finish (nl : Netlist) : Netlist :=
    ((nl.addSink seqn target).removeAllSources target).addSource target seqn
  if sources.length > 1 then
    let combn := nl.size
    let b := nl.binOf target
    let (x, y) := (nl.x target, nl.y target)
    let nl := ((nl.newNode.setType combn .combinational).setBin combn b).setBbox combn x y x y
    let nl := ((nl.addSources combn sources).addSink combn seqn).addSource seqn combn
    (nl.addNode b combn).map finish
  else some (finish (nl.addSources seqn sources))

def insertBack (nl : Netlist) (seqn target : NodeId) : Netlist :=
  let nl := (nl.addSinks seqn (nl.sinks target)).addSource seqn target
  (nl.removeAllSinks target).addSink target seqn

def insertSequentialNode (nl : Netlist) (target : NodeId) (front : Bool) : Option Netlist := do
  let seqn := nl.size
  let (x, y) := (nl.x target, nl.y target)
  let nl ← nl.createNode .sequential (nl.binOf target) ("s" ++ toString nl.size) x y x y
  let nl ← if front then nl.insertFront seqn target else some (nl.insertBack seqn target)
  let nl ← nl.update (nl.binOf seqn) seqn
  nl.update (nl.binOf target) target

/-! ## What the operations leave alone -/

/-- The netlists differ in their nodes and bins only. -/
def Keeps (nl nl' : Netlist) : Prop :=
  nl' = { nl with size := nl'.size, node := nl'.node, bin := nl'.bin }

theorem Keeps.refl (nl : Netlist) : Keeps nl nl := rfl

theorem Keeps.trans {nl nl' nl'' : Netlist} (h : Keeps nl nl') (h' : Keeps nl' nl'') :
    Keeps nl nl'' := by
  unfold Keeps
  rw [h', h]

/-- What does not depend on the nodes and bins is the same. -/
theorem Keeps.congr {β : Type} {nl nl' : Netlist} (h : Keeps nl nl') (f : Netlist → β)
    (hf : ∀ (nl : Netlist) size node bin, f { nl with size, node, bin } = f nl) :
    f nl' = f nl := by
  unfold Keeps at h
  rw [h, hf]

/-- Only connections and boxes differ. -/
structure Rewired (nl nl' : Netlist) : Prop where
  keeps : Keeps nl nl'
  size : nl'.size = nl.size
  bin : nl'.bin = nl.bin
  type : nl'.type = nl.type
  binOf : nl'.binOf = nl.binOf
  strip : ∀ v, (nl'.node v).strip = (nl.node v).strip

theorem Rewired.refl (nl : Netlist) : Rewired nl nl := ⟨rfl, rfl, rfl, rfl, rfl, fun _ => rfl⟩

theorem Rewired.trans {nl nl' nl'' : Netlist} (h : Rewired nl nl') (h' : Rewired nl' nl'') :
    Rewired nl nl'' :=
  ⟨h.keeps.trans h'.keeps, h'.size.trans h.size, h'.bin.trans h.bin, h'.type.trans h.type,
    h'.binOf.trans h.binOf, fun v => (h'.strip v).trans (h.strip v)⟩

theorem rewired_modify (nl : Netlist) (v : NodeId) (f : Node → Node)
    (htype : ∀ n, (f n).type = n.type) (hbin : ∀ n, (f n).bin = n.bin)
    (hstrip : ∀ n, (f n).strip = n.strip) : Rewired nl (nl.modify v f) :=
  ⟨rfl, rfl, rfl, nl.modify_kept Node.type v f htype, nl.modify_kept Node.bin v f hbin,
    fun w => nl.modify_strip v f w hstrip⟩

theorem rewired_foldl {β : Type} {f : Netlist → β → Netlist} (h : ∀ nl x, Rewired nl (f nl x))
    (l : List β) (nl : Netlist) : Rewired nl (l.foldl f nl) := by
  induction l generalizing nl with
  | nil => exact .refl nl
  | cons x rest ih => exact (h nl x).trans (ih _)

theorem rewired_addSource (nl : Netlist) (v source : NodeId) :
    Rewired nl (nl.addSource v source) := nl.rewired_modify v _ (fun _ => rfl) (fun _ => rfl) fun _ => rfl

theorem rewired_addSink (nl : Netlist) (v sink : NodeId) : Rewired nl (nl.addSink v sink) :=
  nl.rewired_modify v _ (fun _ => rfl) (fun _ => rfl) fun _ => rfl

theorem rewired_pushSink (nl : Netlist) (v sink : NodeId) : Rewired nl (nl.pushSink v sink) :=
  nl.rewired_modify v _ (fun _ => rfl) (fun _ => rfl) fun _ => rfl

theorem rewired_removeSource (nl : Netlist) (v target : NodeId) :
    Rewired nl (nl.removeSource v target) := nl.rewired_modify v _ (fun _ => rfl) (fun _ => rfl) fun _ => rfl

theorem rewired_removeSink (nl : Netlist) (v target : NodeId) :
    Rewired nl (nl.removeSink v target) := nl.rewired_modify v _ (fun _ => rfl) (fun _ => rfl) fun _ => rfl

theorem rewired_addSources (nl : Netlist) (v : NodeId) (sources : List NodeId) :
    Rewired nl (nl.addSources v sources) :=
  rewired_foldl (fun nl source => (nl.rewired_addSource v source).trans
    (rewired_addSink _ source v)) sources nl

theorem rewired_addSinks (nl : Netlist) (v : NodeId) (sinks : List NodeId) :
    Rewired nl (nl.addSinks v sinks) :=
  rewired_foldl (fun nl sink => (nl.rewired_pushSink v sink).trans
    (rewired_addSource _ sink v)) sinks nl

theorem rewired_removeAllSources (nl : Netlist) (v : NodeId) :
    Rewired nl (nl.removeAllSources v) :=
  (rewired_foldl (fun nl source => nl.rewired_removeSink source v) (nl.sources v) nl).trans
    (rewired_modify _ v (fun n => { n with sources := [] }) (fun _ => rfl) (fun _ => rfl) fun _ => rfl)

theorem rewired_removeAllSinks (nl : Netlist) (v : NodeId) :
    Rewired nl (nl.removeAllSinks v) :=
  (rewired_foldl (fun nl sink => nl.rewired_removeSource sink v) (nl.sinks v) nl).trans
    (rewired_modify _ v (fun n => { n with sinks := [] }) (fun _ => rfl) (fun _ => rfl) fun _ => rfl)

theorem rewired_merge (nl : Netlist) (n : NodeId) (targets : List NodeId) (front : Bool) :
    Rewired nl (nl.merge n targets front) := by
  cases front
  · exact (nl.rewired_addSinks n _).trans
      ((rewired_foldl (fun nl t => nl.rewired_addSource n t) targets _).trans
        ((rewired_foldl (fun nl t => nl.rewired_removeAllSinks t) targets _).trans
          (rewired_foldl (fun nl t => nl.rewired_addSink t n) targets _)))
  · exact (nl.rewired_addSources n _).trans
      ((rewired_foldl (fun nl t => nl.rewired_addSink n t) targets _).trans
        ((rewired_foldl (fun nl t => nl.rewired_removeAllSources t) targets _).trans
          (rewired_foldl (fun nl t => nl.rewired_addSource t n) targets _)))

theorem rewired_insertBack (nl : Netlist) (seqn target : NodeId) :
    Rewired nl (nl.insertBack seqn target) :=
  (nl.rewired_addSinks seqn _).trans ((rewired_addSource _ seqn target).trans
    ((rewired_removeAllSinks _ target).trans (rewired_addSink _ target seqn)))

/-! ## The graph after the operations -/

theorem foldl_graph {β : Type} {f : Netlist → β → Netlist}
    {g : Adjacency NodeId → β → Adjacency NodeId} (h : ∀ nl x, (f nl x).graph = g nl.graph x)
    (l : List β) (nl : Netlist) : (l.foldl f nl).graph = l.foldl g nl.graph := by
  induction l generalizing nl with
  | nil => rfl
  | cons x rest ih => rw [List.foldl_cons, List.foldl_cons, ih, h]

@[simp] theorem addSources_graph (nl : Netlist) (v : NodeId) (sources : List NodeId) :
    (nl.addSources v sources).graph = nl.graph.addSources v sources :=
  foldl_graph (fun nl source => by rw [addSink_graph, addSource_graph]) sources nl

@[simp] theorem addSinks_graph (nl : Netlist) (v : NodeId) (sinks : List NodeId) :
    (nl.addSinks v sinks).graph = nl.graph.addSinks v sinks :=
  foldl_graph (fun nl sink => by rw [addSource_graph, pushSink_graph]) sinks nl

@[simp] theorem removeAllSources_graph (nl : Netlist) (v : NodeId) :
    (nl.removeAllSources v).graph = nl.graph.removeAllSources v := by
  have hfold : ((nl.sources v).foldl (fun nl source => nl.removeSink source v) nl).graph =
      (nl.sources v).foldl (fun g source => g.removeSink source v) nl.graph :=
    foldl_graph (fun nl source => removeSink_graph nl source v) (nl.sources v) nl
  unfold removeAllSources
  rw [modify_graph, Adjacency.removeAllSources]
  refine congrArg₂ Adjacency.mk ?_ ?_
  · exact congrArg (Function.update · v []) (congrArg Adjacency.sources hfold)
  · exact (Function.update_eq_self v _).trans (congrArg Adjacency.sinks hfold)

@[simp] theorem removeAllSinks_graph (nl : Netlist) (v : NodeId) :
    (nl.removeAllSinks v).graph = nl.graph.removeAllSinks v := by
  have hfold : ((nl.sinks v).foldl (fun nl sink => nl.removeSource sink v) nl).graph =
      (nl.sinks v).foldl (fun g sink => g.removeSource sink v) nl.graph :=
    foldl_graph (fun nl sink => removeSource_graph nl sink v) (nl.sinks v) nl
  unfold removeAllSinks
  rw [modify_graph, Adjacency.removeAllSinks]
  refine congrArg₂ Adjacency.mk ?_ ?_
  · exact (Function.update_eq_self v _).trans (congrArg Adjacency.sources hfold)
  · exact congrArg (Function.update · v []) (congrArg Adjacency.sinks hfold)

/-- The sources, or sinks, of all targets, each once. -/
def gather (neighbours : NodeId → List NodeId) (targets : List NodeId) : List NodeId :=
  targets.foldl (fun acc t => pushNew acc (neighbours t)) []

theorem merge_front_graph (nl : Netlist) (n : NodeId) (targets : List NodeId) :
    (nl.merge n targets true).graph =
      nl.graph.spliceFront (gather nl.sources targets) targets n := by
  simp only [merge, if_true, Adjacency.spliceFront, gather]
  rw [foldl_graph (g := fun g t => g.addSource t n) fun nl t => addSource_graph nl t n,
    foldl_graph (g := fun g t => g.removeAllSources t) fun nl t => removeAllSources_graph nl t,
    foldl_graph (g := fun g t => g.addSink n t) fun nl t => addSink_graph nl n t,
    addSources_graph]

theorem merge_back_graph (nl : Netlist) (n : NodeId) (targets : List NodeId) :
    (nl.merge n targets false).graph =
      nl.graph.spliceBack (gather nl.sinks targets) targets n := by
  simp only [merge, Bool.false_eq_true, if_false, Adjacency.spliceBack, gather]
  rw [foldl_graph (g := fun g t => g.addSink t n) fun nl t => addSink_graph nl t n,
    foldl_graph (g := fun g t => g.removeAllSinks t) fun nl t => removeAllSinks_graph nl t,
    foldl_graph (g := fun g t => g.addSource n t) fun nl t => addSource_graph nl n t,
    addSinks_graph]

theorem insertBack_graph (nl : Netlist) (seqn target : NodeId) :
    (nl.insertBack seqn target).graph =
      nl.graph.spliceBack (nl.sinks target) [target] seqn := by
  simp only [insertBack, addSink_graph, removeAllSinks_graph, addSource_graph, addSinks_graph,
    Adjacency.spliceBack, List.foldl_cons, List.foldl_nil]

theorem mem_pushNew {acc l : List NodeId} {v : NodeId} :
    v ∈ pushNew acc l ↔ v ∈ acc ∨ v ∈ l := by
  induction l generalizing acc with
  | nil => simp [pushNew]
  | cons node rest ih =>
      unfold pushNew
      rw [List.foldl_cons, ← pushNew, ih]
      split <;> grind

theorem nodup_pushNew {acc l : List NodeId} (h : acc.Nodup) : (pushNew acc l).Nodup := by
  induction l generalizing acc with
  | nil => exact h
  | cons node rest ih =>
      unfold pushNew
      rw [List.foldl_cons, ← pushNew]
      split
      · exact ih h
      · next hnew =>
          exact ih (h.append (List.nodup_singleton node) (by simpa using hnew))

theorem mem_gather {neighbours : NodeId → List NodeId} {targets : List NodeId} {v : NodeId} :
    v ∈ gather neighbours targets ↔ ∃ t ∈ targets, v ∈ neighbours t := by
  induction targets using List.reverseRecOn with
  | nil => simp [gather]
  | append_singleton rest t ih =>
      unfold gather
      rw [List.foldl_append, List.foldl_cons, List.foldl_nil, mem_pushNew, ← gather, ih]
      simp only [List.mem_append, List.mem_singleton]
      grind

theorem nodup_gather (neighbours : NodeId → List NodeId) (targets : List NodeId) :
    (gather neighbours targets).Nodup := by
  induction targets using List.reverseRecOn with
  | nil => exact List.nodup_nil
  | append_singleton rest t ih =>
      unfold gather
      rw [List.foldl_append, List.foldl_cons, List.foldl_nil]
      exact nodup_pushNew ih

/-! ## The operations as a whole -/

/-- The netlist that comes out: its size, types, places and graph. The grid and
the names of the old nodes do not change, and new nodes are plain. -/
structure Becomes (nl nl' : Netlist) (size : ℕ) (type : NodeId → NodeType)
    (binOf : NodeId → BinId) (graph : Adjacency NodeId) : Prop where
  keeps : Keeps nl nl'
  size : nl'.size = size
  type : nl'.type = type
  binOf : nl'.binOf = binOf
  graph : nl'.graph = graph
  coords : ∀ b, (nl'.bin b).x = (nl.bin b).x ∧ (nl'.bin b).y = (nl.bin b).y
  le : nl.size ≤ nl'.size
  strip : ∀ v < nl.size, (nl'.node v).strip = (nl.node v).strip
  plain : (∀ v, (nl.node v).Plain) → ∀ v, (nl'.node v).Plain

/-- Nothing has changed that counts. -/
abbrev Stays (nl nl' : Netlist) : Prop := Becomes nl nl' nl.size nl.type nl.binOf nl.graph

variable {nl nl' nl'' : Netlist} {size : ℕ} {type : NodeId → NodeType}
  {binOf : NodeId → BinId} {graph : Adjacency NodeId}

theorem Becomes.trans {size' : ℕ} {type' : NodeId → NodeType} {binOf' : NodeId → BinId}
    {graph' : Adjacency NodeId} (h : Becomes nl nl' size type binOf graph)
    (h' : Becomes nl' nl'' size' type' binOf' graph') :
    Becomes nl nl'' size' type' binOf' graph' where
  keeps := h.keeps.trans h'.keeps
  size := h'.size
  type := h'.type
  binOf := h'.binOf
  graph := h'.graph
  coords b := ⟨(h'.coords b).1.trans (h.coords b).1, (h'.coords b).2.trans (h.coords b).2⟩
  le := h.le.trans h'.le
  strip v hv := (h'.strip v (hv.trans_le h.le)).trans (h.strip v hv)
  plain hplain := h'.plain (h.plain hplain)

theorem Becomes.stays (h : Becomes nl nl' size type binOf graph) (h' : Stays nl' nl'') :
    Becomes nl nl'' size type binOf graph := by
  have htrans := h.trans h'
  rwa [h.size, h.type, h.binOf, h.graph] at htrans

theorem Rewired.becomes (h : Rewired nl nl') :
    Becomes nl nl' nl.size nl.type nl.binOf nl'.graph :=
  ⟨h.keeps, h.size, h.type, h.binOf, rfl, fun b => by rw [h.bin]; exact ⟨rfl, rfl⟩,
    h.size.symm.le, fun v _ => h.strip v, fun hplain v => (hplain v).congr (h.strip v)⟩

/-- Rewiring after the netlist has become what it is. -/
theorem Becomes.rewired (h : Becomes nl nl' size type binOf graph) (h' : Rewired nl' nl'') :
    Becomes nl nl'' size type binOf nl''.graph := by
  have htrans := h.trans h'.becomes
  rwa [h.size, h.type, h.binOf] at htrans

theorem addNode_becomes {b : BinId} {v : NodeId} (h : nl.addNode b v = some nl') :
    Becomes nl nl' nl.size nl.type (Function.update nl.binOf v b) nl.graph := by
  simp only [addNode, Option.bind_eq_bind, Option.bind_eq_some_iff, Option.pure_def,
    Option.some.injEq] at h
  obtain ⟨fi, -, fo, -, rfl⟩ := h
  refine ⟨rfl, rfl, setBin_type _ v b, setBin_binOf _ v b, setBin_graph _ v b, fun c => ?_, le_rfl,
    fun w _ => setBin_strip _ v b w, fun hplain w => (hplain w).congr (setBin_strip _ v b w)⟩
  by_cases hc : c = b <;> simp [setBin, hc]

theorem update_stays {b : BinId} {v : NodeId} (h : nl.update b v = some nl') : Stays nl nl' := by
  simp only [update, Option.bind_eq_bind, Option.bind_eq_some_iff, Option.pure_def,
    Option.some.injEq] at h
  obtain ⟨fi, -, fo, -, rfl⟩ := h
  refine ⟨rfl, rfl, rfl, rfl, rfl, fun c => ?_, le_rfl, fun _ _ => rfl, fun hplain => hplain⟩
  by_cases hc : c = b <;> simp [hc]

theorem updates_stays {l : List NodeId}
    (h : l.foldlM (fun nl v => nl.update (nl.binOf v) v) nl = some nl') : Stays nl nl' :=
  Loop.invariant (Stays nl) (fun _ _ _ _ h1 h2 => h1.stays (update_stays h2))
    (Rewired.refl nl).becomes h

/-- A new node is isolated. -/
theorem newNode_graph (hfresh : nl.graph.Fresh nl.size) : nl.newNode.graph = nl.graph := by
  obtain ⟨hsources, hsinks⟩ := hfresh
  change nl.sources nl.size = [] at hsources
  change nl.sinks nl.size = [] at hsinks
  refine congrArg₂ Adjacency.mk ?_ ?_ <;> funext v <;> by_cases hv : v = nl.size
  · rw [hv, hsources]
    simp [newNode, sources]
  · simp [newNode, sources, hv]
  · rw [hv, hsinks]
    simp [newNode, sinks]
  · simp [newNode, sinks, hv]

/-- The new node once it has its type, its bin and its box. -/
theorem newNode_placed (nl : Netlist) (t : NodeType) (b : BinId) (lx ly ux uy : ℕ) :
    Becomes nl (((nl.newNode.setType nl.size t).setBin nl.size b).setBbox nl.size lx ly ux uy)
      (nl.size + 1) (Function.update nl.type nl.size t) (Function.update nl.binOf nl.size b)
      nl.newNode.graph := by
  refine ⟨rfl, rfl, ?_, ?_, ?_, fun _ => ⟨rfl, rfl⟩, Nat.le_succ _, fun v hv => ?_,
    fun hplain v => ?_⟩
  · rw [setBbox_type, setBin_type, setType_type]
    funext v
    by_cases hv : v = nl.size
    · simp [hv]
    · simp [hv, newNode, Netlist.type]
  · rw [setBbox_binOf, setBin_binOf, setType_binOf]
    funext v
    by_cases hv : v = nl.size
    · simp [hv]
    · simp [hv, newNode, Netlist.binOf]
  · rw [setBbox_graph, setBin_graph, setType_graph]
  · rw [setBbox_strip, setBin_strip, setType_strip, newNode_node, if_neg hv.ne]
  · by_cases hv : v = nl.size
    · apply Node.plain_default.congr
      rw [setBbox_strip, setBin_strip, setType_strip, newNode_node, if_pos hv]
    · apply (hplain v).congr
      rw [setBbox_strip, setBin_strip, setType_strip, newNode_node, if_neg hv]

theorem newNode_becomes (hfresh : nl.graph.Fresh nl.size) (t : NodeType) (b : BinId)
    (lx ly ux uy : ℕ) :
    Becomes nl (((nl.newNode.setType nl.size t).setBin nl.size b).setBbox nl.size lx ly ux uy)
      (nl.size + 1) (Function.update nl.type nl.size t) (Function.update nl.binOf nl.size b)
      nl.graph := by
  have hplaced := nl.newNode_placed t b lx ly ux uy
  rwa [newNode_graph hfresh] at hplaced

/-- Naming a node that is new. -/
theorem Becomes.setName (h : Becomes nl nl' size type binOf graph) {v : NodeId}
    (hv : nl.size ≤ v) {name : String} (hname : name ≠ "PIN") :
    Becomes nl (nl'.setName v name) size type binOf graph := by
  refine ⟨h.keeps.trans rfl, h.size, ?_, ?_, ?_, h.coords, h.le, fun w hw => ?_,
    fun hplain w => ?_⟩
  · rw [setName_type, h.type]
  · rw [setName_binOf, h.binOf]
  · rw [setName_graph, h.graph]
  · unfold Netlist.setName
    rw [modify_node, if_neg (hw.trans_le hv).ne]
    exact h.strip w hw
  · unfold Netlist.setName
    rw [modify_node]
    split
    · exact (h.plain hplain v).rename rfl hname
    · exact h.plain hplain w

theorem merge_ne_pin (n : ℕ) : "merge" ++ toString n ≠ "PIN" :=
  Names.append_ne_left (c := 'm') (d := 'P') rfl rfl (by decide) _

theorem s_ne_pin (n : ℕ) : "s" ++ toString n ≠ "PIN" :=
  Names.append_ne_left (c := 's') (d := 'P') rfl rfl (by decide) _

/-- Filing a node in the bin it already points to. -/
theorem Becomes.addNode {b : BinId} {v : NodeId} (h : Becomes nl nl' size type binOf graph)
    (hb : binOf v = b) (hadd : nl'.addNode b v = some nl'') :
    Becomes nl nl'' size type binOf graph := by
  have htrans := h.trans (addNode_becomes hadd)
  rwa [h.size, h.type, h.binOf, h.graph, ← hb, Function.update_eq_self] at htrans

theorem createNode_placed {t : NodeType} {b : BinId} {name : String} {lx ly ux uy : ℕ}
    (hname : name ≠ "PIN") (h : nl.createNode t b name lx ly ux uy = some nl') :
    Becomes nl nl' (nl.size + 1) (Function.update nl.type nl.size t)
      (Function.update nl.binOf nl.size b) nl.newNode.graph :=
  ((nl.newNode_placed t b lx ly ux uy).setName le_rfl hname).addNode (Function.update_self ..) h

theorem createNode_becomes {t : NodeType} {b : BinId} {name : String} {lx ly ux uy : ℕ}
    (hfresh : nl.graph.Fresh nl.size) (hname : name ≠ "PIN")
    (h : nl.createNode t b name lx ly ux uy = some nl') :
    Becomes nl nl' (nl.size + 1) (Function.update nl.type nl.size t)
      (Function.update nl.binOf nl.size b) nl.graph := by
  have hplaced := createNode_placed hname h
  rwa [newNode_graph hfresh] at hplaced

/-- Types and places do not depend on the connections. -/
theorem createMergeNodeAt_placed {b : BinId} {targets : List NodeId} {front : Bool} {n : NodeId}
    (h : nl.createMergeNodeAt b targets front = some (nl', n)) :
    n = nl.size ∧ Becomes nl nl' (nl.size + 1) (Function.update nl.type nl.size .sequential)
      (Function.update nl.binOf nl.size b) nl'.graph := by
  simp only [createMergeNodeAt, Option.bind_eq_bind, Option.bind_eq_some_iff, Option.pure_def,
    Option.some.injEq, Prod.mk.injEq] at h
  obtain ⟨nl1, hnl1, nl2, hnl2, rfl, rfl⟩ := h
  have hcreate := createNode_placed (merge_ne_pin _) hnl1
  have hmerge := hcreate.rewired (nl1.rewired_merge nl.size targets front)
  have hstays := hmerge.stays (updates_stays hnl2)
  rw [← hstays.graph] at hstays
  exact ⟨rfl, hstays⟩

theorem createMergeNodeAt_becomes {b : BinId} {targets : List NodeId} {front : Bool}
    {n : NodeId} (hfresh : nl.graph.Fresh nl.size)
    (h : nl.createMergeNodeAt b targets front = some (nl', n)) :
    n = nl.size ∧ Becomes nl nl' (nl.size + 1) (Function.update nl.type nl.size .sequential)
      (Function.update nl.binOf nl.size b)
      (if front then nl.graph.spliceFront (gather nl.sources targets) targets nl.size
        else nl.graph.spliceBack (gather nl.sinks targets) targets nl.size) := by
  simp only [createMergeNodeAt, Option.bind_eq_bind, Option.bind_eq_some_iff, Option.pure_def,
    Option.some.injEq, Prod.mk.injEq] at h
  obtain ⟨nl1, hnl1, nl2, hnl2, rfl, rfl⟩ := h
  have hcreate := createNode_becomes hfresh (merge_ne_pin _) hnl1
  have hsources : nl1.sources = nl.sources := congrArg Adjacency.sources hcreate.graph
  have hsinks : nl1.sinks = nl.sinks := congrArg Adjacency.sinks hcreate.graph
  have hmerge := hcreate.rewired (nl1.rewired_merge nl.size targets front)
  refine ⟨rfl, ?_⟩
  cases front
  · rw [merge_back_graph, hcreate.graph, hsinks] at hmerge
    exact hmerge.stays (updates_stays hnl2)
  · rw [merge_front_graph, hcreate.graph, hsources] at hmerge
    exact hmerge.stays (updates_stays hnl2)

/-- In front of a target with at most one source the register takes the source
over; otherwise a gate collects the sources for it. -/
theorem insertFront_becomes {seqn target : NodeId} (hfresh : nl.graph.Fresh nl.size)
    (h : nl.insertFront seqn target = some nl') :
    ((nl.sources target).length ≤ 1 ∧ Becomes nl nl' nl.size nl.type nl.binOf
        (nl.graph.spliceFront (nl.sources target) [target] seqn)) ∨
      (1 < (nl.sources target).length ∧ Becomes nl nl' (nl.size + 1)
        (Function.update nl.type nl.size .combinational)
        (Function.update nl.binOf nl.size (nl.binOf target))
        (nl.graph.gateFront target nl.size seqn)) := by
  simp only [insertFront] at h
  split at h
  · next hmany =>
      obtain ⟨nl1, hnl1, rfl⟩ := Option.map_eq_some_iff.mp h
      have hnew := newNode_becomes hfresh .combinational (nl.binOf target) (nl.x target)
        (nl.y target) (nl.x target) (nl.y target)
      have hcollect := hnew.rewired (((rewired_addSources _ nl.size (nl.sources target)).trans
        (rewired_addSink _ nl.size seqn)).trans (rewired_addSource _ seqn nl.size))
      have hadd := hcollect.addNode (Function.update_self ..) hnl1
      have hfinish := hadd.rewired (((nl1.rewired_addSink seqn target).trans
        (rewired_removeAllSources _ target)).trans (rewired_addSource _ target seqn))
      simp only [addSource_graph, removeAllSources_graph, addSink_graph] at hfinish
      rw [hadd.graph, addSource_graph, addSink_graph, addSources_graph, hnew.graph] at hfinish
      exact Or.inr ⟨hmany, hfinish⟩
  · next hfew =>
      obtain rfl := Option.some.inj h
      have hfinish := (((nl.rewired_addSources seqn (nl.sources target)).trans
        (rewired_addSink _ seqn target)).trans
        ((rewired_removeAllSources _ target).trans (rewired_addSource _ target seqn))).becomes
      simp only [addSource_graph, removeAllSources_graph, addSink_graph, addSources_graph]
        at hfinish
      exact Or.inl ⟨Nat.not_lt.mp hfew, hfinish⟩

theorem insertSequentialNode_front_becomes {target : NodeId} (hlt : target < nl.size)
    (hfresh : ∀ v, nl.size ≤ v → nl.graph.Fresh v)
    (h : nl.insertSequentialNode target true = some nl') :
    ((nl.sources target).length ≤ 1 ∧ Becomes nl nl' (nl.size + 1)
        (Function.update nl.type nl.size .sequential)
        (Function.update nl.binOf nl.size (nl.binOf target))
        (nl.graph.spliceFront (nl.sources target) [target] nl.size)) ∨
      (1 < (nl.sources target).length ∧ Becomes nl nl' (nl.size + 2)
        (Function.update (Function.update nl.type nl.size .sequential) (nl.size + 1)
          .combinational)
        (Function.update (Function.update nl.binOf nl.size (nl.binOf target)) (nl.size + 1)
          (nl.binOf target))
        (nl.graph.gateFront target (nl.size + 1) nl.size)) := by
  simp only [insertSequentialNode, Option.bind_eq_bind, Option.bind_eq_some_iff, if_true] at h
  obtain ⟨nl1, hnl1, nl2, hnl2, nl3, hnl3, hnl'⟩ := h
  have hcreate := createNode_becomes (hfresh _ le_rfl) (s_ne_pin _) hnl1
  have hsources : nl1.sources = nl.sources := congrArg Adjacency.sources hcreate.graph
  have hfresh1 : nl1.graph.Fresh nl1.size := by
    rw [hcreate.graph, hcreate.size]
    exact hfresh _ (Nat.le_succ _)
  have hplace : nl1.binOf target = nl.binOf target := by
    rw [hcreate.binOf, Function.update_of_ne hlt.ne]
  rcases insertFront_becomes hfresh1 hnl2 with ⟨hle, hinsert⟩ | ⟨hmany, hinsert⟩ <;>
    rw [hsources, hcreate.graph, hcreate.size, hcreate.type, hcreate.binOf] at *
  · exact Or.inl ⟨hle, (hcreate.trans hinsert).stays ((update_stays hnl3).stays
      (update_stays hnl'))⟩
  · rw [hplace] at hinsert
    exact Or.inr ⟨hmany, (hcreate.trans hinsert).stays ((update_stays hnl3).stays
      (update_stays hnl'))⟩

/-- Behind the target. -/
theorem insertSequentialNode_back_becomes {target : NodeId} (hfresh : nl.graph.Fresh nl.size)
    (h : nl.insertSequentialNode target false = some nl') :
    Becomes nl nl' (nl.size + 1) (Function.update nl.type nl.size .sequential)
      (Function.update nl.binOf nl.size (nl.binOf target))
      (nl.graph.spliceBack (nl.sinks target) [target] nl.size) := by
  simp only [insertSequentialNode, Option.bind_eq_bind, Option.bind_eq_some_iff,
    Bool.false_eq_true, if_false, Option.some.injEq] at h
  obtain ⟨nl1, hnl1, nl2, rfl, nl3, hnl3, hnl'⟩ := h
  have hcreate := createNode_becomes hfresh (s_ne_pin _) hnl1
  have hsinks : nl1.sinks = nl.sinks := congrArg Adjacency.sinks hcreate.graph
  have hinsert := hcreate.rewired (nl1.rewired_insertBack nl.size target)
  rw [insertBack_graph, hcreate.graph, hsinks] at hinsert
  exact hinsert.stays ((update_stays hnl3).stays (update_stays hnl'))

end Netlist

end Artnetgen
