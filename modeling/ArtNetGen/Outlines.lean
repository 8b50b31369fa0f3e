import ArtNetGen.Placement
import ArtNetGen.Rewiring
import ArtNetGen.Library.Boxes

/-!
The boxes of the nodes while registers are added. A box grows when `addSink`
gives its node a sink, and never shrinks. `addSinks` and the removals leave the
boxes alone, and `addNode` resets the box of the node it adds.
-/

namespace Artnetgen

namespace Netlist

/-- The box of `v` is that of the nodes in `s`. -/
def HullAt (nl : Netlist) (s : Set NodeId) (v : NodeId) : Prop :=
  Boxes.IsBox nl.x nl.y s (nl.node v).lx (nl.node v).ly (nl.node v).ux (nl.node v).uy

/-- A driver and its sinks. -/
def net (nl : Netlist) (v : NodeId) : Set NodeId := insert v {w | w ∈ nl.sinks v}

theorem mem_net {nl : Netlist} {v w : NodeId} : w ∈ nl.net v ↔ w = v ∨ w ∈ nl.sinks v := Iff.rfl

theorem netBins_eq_image (nl : Netlist) (v : NodeId) : nl.netBins v = nl.binOf '' nl.net v := by
  unfold net
  rw [Set.image_insert_eq]
  rfl

theorem boxedAt_iff {nl : Netlist} {v : NodeId} : nl.BoxedAt v ↔ nl.HullAt (nl.net v) v := by
  have himage : ∀ f : BinId → ℕ, f '' nl.netBins v = (fun w => f (nl.binOf w)) '' nl.net v :=
    fun f => by rw [netBins_eq_image, Set.image_image]
  have hx := himage fun b => (nl.bin b).x
  have hy := himage fun b => (nl.bin b).y
  constructor
  · rintro ⟨hlx, hly, hux, huy⟩
    rw [hx] at hlx hux
    rw [hy] at hly huy
    exact ⟨hlx, hly, hux, huy⟩
  · rintro ⟨hlx, hly, hux, huy⟩
    constructor
    · rw [hx]
      exact hlx
    · rw [hy]
      exact hly
    · rw [hx]
      exact hux
    · rw [hy]
      exact huy

/-- A node that has been given a hull is boxed when its net has the same hull. -/
theorem HullAt.boxedAt_iff {nl : Netlist} {s : Set NodeId} {v : NodeId} (h : nl.HullAt s v) :
    nl.BoxedAt v ↔ (∀ w ∈ nl.net v, Boxes.Covers nl.x nl.y s w) ∧
      ∀ w ∈ s, Boxes.Covers nl.x nl.y (nl.net v) w :=
  Netlist.boxedAt_iff.trans (Boxes.IsBox.iff h)

/-! ## Growing boxes -/

/-- The box of `v` has taken in the places of the nodes `w` with `R v w`. -/
def Grows (nl nl' : Netlist) (R : NodeId → NodeId → Prop) : Prop :=
  ∀ v s, nl.HullAt s v → nl'.HullAt ({w | R v w} ∪ s) v

variable {nl nl' nl'' : Netlist} {R R' : NodeId → NodeId → Prop}

theorem Grows.congr (h : Grows nl nl' R) (hR : ∀ v w, R' v w ↔ R v w) : Grows nl nl' R' := by
  intro v s hs
  have hsame : {w | R' v w} = {w | R v w} := Set.ext (hR v)
  rw [hsame]
  exact h v s hs

theorem Grows.trans (h : Grows nl nl' R) (h' : Grows nl' nl'' R') :
    Grows nl nl'' fun v w => R' v w ∨ R v w := by
  intro v s hs
  have hboth := h' v _ (h v s hs)
  rw [← Set.union_assoc] at hboth
  exact hboth

/-- Neither the boxes nor the places have changed. -/
theorem grows_of_same (hx : nl'.x = nl.x) (hy : nl'.y = nl.y)
    (hbox : ∀ v, (nl'.node v).lx = (nl.node v).lx ∧ (nl'.node v).ly = (nl.node v).ly ∧
      (nl'.node v).ux = (nl.node v).ux ∧ (nl'.node v).uy = (nl.node v).uy) :
    Grows nl nl' fun _ _ => False := by
  intro v s hs
  obtain ⟨hlx, hly, hux, huy⟩ := hbox v
  rw [Set.ofPred_false, Set.empty_union, HullAt, hx, hy, hlx, hly, hux, huy]
  exact hs

theorem Grows.refl (nl : Netlist) : Grows nl nl fun _ _ => False :=
  grows_of_same rfl rfl fun _ => ⟨rfl, rfl, rfl, rfl⟩

theorem modify_x (nl : Netlist) (v : NodeId) (f : Node → Node) (hbin : ∀ n, (f n).bin = n.bin) :
    (nl.modify v f).x = nl.x ∧ (nl.modify v f).y = nl.y := by
  have hbinOf := nl.modify_kept Node.bin v f hbin
  constructor <;> funext w
  · exact congrArg (fun b => (nl.bin b).x) (congrFun hbinOf w)
  · exact congrArg (fun b => (nl.bin b).y) (congrFun hbinOf w)

/-- An edit that touches neither place nor box. -/
theorem grows_modify (nl : Netlist) (v : NodeId) (f : Node → Node)
    (hbin : ∀ n, (f n).bin = n.bin)
    (hbox : ∀ n, (f n).lx = n.lx ∧ (f n).ly = n.ly ∧ (f n).ux = n.ux ∧ (f n).uy = n.uy) :
    Grows nl (nl.modify v f) fun _ _ => False := by
  obtain ⟨hx, hy⟩ := nl.modify_x v f hbin
  apply grows_of_same hx hy
  intro w
  rw [modify_node]
  split
  · next heq => exact heq ▸ hbox (nl.node v)
  · exact ⟨rfl, rfl, rfl, rfl⟩

theorem grows_addSource (nl : Netlist) (v source : NodeId) :
    Grows nl (nl.addSource v source) fun _ _ => False :=
  nl.grows_modify v _ (fun _ => rfl) fun _ => ⟨rfl, rfl, rfl, rfl⟩

theorem grows_pushSink (nl : Netlist) (v sink : NodeId) :
    Grows nl (nl.pushSink v sink) fun _ _ => False :=
  nl.grows_modify v _ (fun _ => rfl) fun _ => ⟨rfl, rfl, rfl, rfl⟩

theorem grows_removeSource (nl : Netlist) (v target : NodeId) :
    Grows nl (nl.removeSource v target) fun _ _ => False :=
  nl.grows_modify v _ (fun _ => rfl) fun _ => ⟨rfl, rfl, rfl, rfl⟩

theorem grows_removeSink (nl : Netlist) (v target : NodeId) :
    Grows nl (nl.removeSink v target) fun _ _ => False :=
  nl.grows_modify v _ (fun _ => rfl) fun _ => ⟨rfl, rfl, rfl, rfl⟩

/-- Only `addSink` makes a box larger. -/
theorem grows_addSink (nl : Netlist) (v sink : NodeId) :
    Grows nl (nl.addSink v sink) fun u w => u = v ∧ w = sink := by
  intro u s hs
  obtain ⟨hx, hy⟩ := nl.modify_x v (fun n =>
    { n with
      sinks := n.sinks ++ [sink]
      lx := min (nl.x sink) n.lx
      ly := min (nl.y sink) n.ly
      ux := max (nl.x sink) n.ux
      uy := max (nl.y sink) n.uy }) fun _ => rfl
  unfold HullAt
  rw [addSink, hx, hy, modify_node]
  by_cases hu : u = v
  · subst hu
    simp only [true_and, if_true, Set.ofPred_eq_eq_singleton, Set.singleton_union]
    exact Boxes.IsBox.insert hs sink
  · simp only [hu, false_and, if_false, Set.ofPred_false, Set.empty_union]
    exact hs

theorem grows_foldl {β : Type} {f : Netlist → β → Netlist} {R : β → NodeId → NodeId → Prop}
    (h : ∀ nl x, Grows nl (f nl x) (R x)) (l : List β) (nl : Netlist) :
    Grows nl (l.foldl f nl) fun v w => ∃ x ∈ l, R x v w := by
  induction l generalizing nl with
  | nil => exact (Grows.refl nl).congr (by simp)
  | cons x rest ih =>
      apply ((h nl x).trans (ih _)).congr
      intro v w
      rw [List.exists_mem_cons_iff, or_comm]

theorem grows_addSources (nl : Netlist) (v : NodeId) (sources : List NodeId) :
    Grows nl (nl.addSources v sources) fun u w => u ∈ sources ∧ w = v := by
  have hstep : ∀ nl source, Grows nl ((addSource nl v source).addSink source v)
      fun u w => u = source ∧ w = v := fun nl source =>
    ((nl.grows_addSource v source).trans (grows_addSink _ source v)).congr (by simp)
  exact (grows_foldl hstep sources nl).congr (by simp)

theorem grows_addSinks (nl : Netlist) (v : NodeId) (sinks : List NodeId) :
    Grows nl (nl.addSinks v sinks) fun _ _ => False := by
  have hstep : ∀ nl sink, Grows nl ((pushSink nl v sink).addSource sink v) fun _ _ => False :=
    fun nl sink => ((nl.grows_pushSink v sink).trans (grows_addSource _ sink v)).congr (by simp)
  exact (grows_foldl hstep sinks nl).congr (by simp)

theorem grows_removeAllSources (nl : Netlist) (v : NodeId) :
    Grows nl (nl.removeAllSources v) fun _ _ => False := by
  have hfold := grows_foldl (fun nl source => nl.grows_removeSink source v) (nl.sources v) nl
  refine (hfold.trans (grows_modify _ v (fun n => { n with sources := [] }) (fun _ => rfl)
    fun _ => ⟨rfl, rfl, rfl, rfl⟩)).congr (by simp)

theorem grows_removeAllSinks (nl : Netlist) (v : NodeId) :
    Grows nl (nl.removeAllSinks v) fun _ _ => False := by
  have hfold := grows_foldl (fun nl sink => nl.grows_removeSource sink v) (nl.sinks v) nl
  refine (hfold.trans (grows_modify _ v (fun n => { n with sinks := [] }) (fun _ => rfl)
    fun _ => ⟨rfl, rfl, rfl, rfl⟩)).congr (by simp)

theorem grows_merge_front (nl : Netlist) (n : NodeId) (targets : List NodeId) :
    Grows nl (nl.merge n targets true) fun v w =>
      (v = n ∧ w ∈ targets) ∨ (v ∈ gather nl.sources targets ∧ w = n) := by
  have hsources := nl.grows_addSources n (gather nl.sources targets)
  have hsinks := grows_foldl (fun nl t => nl.grows_addSink n t) targets
    (nl.addSources n (gather nl.sources targets))
  have hremove := grows_foldl (fun nl t => nl.grows_removeAllSources t) targets
    (targets.foldl (fun nl t => nl.addSink n t) (nl.addSources n (gather nl.sources targets)))
  refine (((hsources.trans hsinks).trans hremove).trans
    (grows_foldl (fun nl t => nl.grows_addSource t n) targets _)).congr fun v w => ?_
  simp only [and_false, exists_false, false_or]
  exact or_congr_left ⟨fun h => ⟨w, h.2, h.1, rfl⟩, fun ⟨_, ht, hv, hw⟩ => ⟨hv, hw ▸ ht⟩⟩

theorem grows_merge_back (nl : Netlist) (n : NodeId) (targets : List NodeId) :
    Grows nl (nl.merge n targets false) fun v w => v ∈ targets ∧ w = n := by
  have hsinks := nl.grows_addSinks n (gather nl.sinks targets)
  have hsources := grows_foldl (fun nl t => nl.grows_addSource n t) targets
    (nl.addSinks n (gather nl.sinks targets))
  have hremove := grows_foldl (fun nl t => nl.grows_removeAllSinks t) targets
    (targets.foldl (fun nl t => nl.addSource n t) (nl.addSinks n (gather nl.sinks targets)))
  refine (((hsinks.trans hsources).trans hremove).trans
    (grows_foldl (fun nl t => nl.grows_addSink t n) targets _)).congr fun v w => ?_
  simp

theorem grows_insertBack (nl : Netlist) (seqn target : NodeId) :
    Grows nl (nl.insertBack seqn target) fun v w => v = target ∧ w = seqn := by
  have hwire := (nl.grows_addSinks seqn (nl.sinks target)).trans (grows_addSource _ seqn target)
  apply ((hwire.trans (grows_removeAllSinks _ target)).trans (grows_addSink _ target seqn)).congr
  intro v w
  simp

/-! ## New nodes -/

theorem Becomes.x_eq {size : ℕ} {type : NodeId → NodeType} {binOf : NodeId → BinId}
    {graph : Adjacency NodeId} (h : Becomes nl nl' size type binOf graph) {v : NodeId}
    (hv : binOf v = nl.binOf v) : nl'.x v = nl.x v ∧ nl'.y v = nl.y v := by
  rw [x, y, x, y, h.binOf, hv]
  exact h.coords _

/-- An update moves a node between the classes of its bin and nothing else. -/
theorem grows_update {b : BinId} {v : NodeId} (h : nl.update b v = some nl') :
    Grows nl nl' fun _ _ => False := by
  have hstays := update_stays h
  simp only [Netlist.update, Option.bind_eq_bind, Option.bind_eq_some_iff, Option.pure_def,
    Option.some.injEq] at h
  obtain ⟨fi, -, fo, -, rfl⟩ := h
  exact grows_of_same (funext fun w => (hstays.x_eq rfl).1) (funext fun w => (hstays.x_eq rfl).2)
    fun _ => ⟨rfl, rfl, rfl, rfl⟩

theorem grows_updates {l : List NodeId}
    (h : l.foldlM (fun nl v => nl.update (nl.binOf v) v) nl = some nl') :
    Grows nl nl' fun _ _ => False :=
  Loop.invariant (fun nl' => Grows nl nl' fun _ _ => False)
    (fun _ _ _ _ h1 h2 => (h1.trans (grows_update h2)).congr (by simp)) (Grows.refl nl) h

/-- Filing a node in the bin it points to resets its box and no other. -/
theorem addNode_hull {b : BinId} {v : NodeId} (h : nl.addNode b v = some nl')
    (hb : nl.binOf v = b) :
    nl'.HullAt {v} v ∧ ∀ w ≠ v, ∀ s, nl.HullAt s w → nl'.HullAt s w := by
  have hbecomes := addNode_becomes h
  have hplace : Function.update nl.binOf v b = nl.binOf := by rw [← hb, Function.update_eq_self]
  have hx : nl'.x = nl.x := funext fun w => (hbecomes.x_eq (congrFun hplace w)).1
  have hy : nl'.y = nl.y := funext fun w => (hbecomes.x_eq (congrFun hplace w)).2
  simp only [Netlist.addNode, Option.bind_eq_bind, Option.bind_eq_some_iff, Option.pure_def,
    Option.some.injEq] at h
  obtain ⟨fi, -, fo, -, rfl⟩ := h
  refine ⟨?_, fun w hw s hs => ?_⟩
  · unfold HullAt
    rw [hx, hy, setBin, modify_node, if_pos rfl]
    simp only [Node.setBbox, Function.update_self]
    rw [← hb]
    exact Boxes.isBox_singleton v
  · unfold HullAt
    rw [hx, hy, setBin, modify_node, if_neg hw]
    exact hs

/-- A new node is no part of the nets so far. -/
theorem newNode_hull (nl : Netlist) (t : NodeType) (b : BinId) (lx ly ux uy : ℕ) {v : NodeId}
    {s : Set NodeId} (hv : v ≠ nl.size) (hnew : nl.size ∉ s) (hs : nl.HullAt s v) :
    (((nl.newNode.setType nl.size t).setBin nl.size b).setBbox nl.size lx ly ux uy).HullAt s v := by
  have hplaced := nl.newNode_placed t b lx ly ux uy
  have hold : ∀ w ∈ s, _ := fun w hw =>
    hplaced.x_eq (Function.update_of_ne (fun heq : w = nl.size => hnew (heq ▸ hw)) b nl.binOf)
  have hnode : (((nl.newNode.setType nl.size t).setBin nl.size b).setBbox nl.size
      lx ly ux uy).node v = nl.node v := by
    rw [setBbox, modify_node, if_neg hv, setBin, modify_node, if_neg hv, setType, modify_node,
      if_neg hv, newNode_node, if_neg hv]
  unfold HullAt
  rw [hnode]
  exact Boxes.IsBox.congr hs (fun w hw => (hold w hw).1) fun w hw => (hold w hw).2

/-- A new node is boxed at its bin whatever box it is given. -/
theorem createNode_hull {t : NodeType} {b : BinId} {name : String} {lx ly ux uy : ℕ}
    (h : nl.createNode t b name lx ly ux uy = some nl') :
    nl'.HullAt {nl.size} nl.size ∧
      ∀ v ≠ nl.size, ∀ s, nl.size ∉ s → nl.HullAt s v → nl'.HullAt s v := by
  have hplaced := nl.newNode_placed t b lx ly ux uy
  have hname := grows_modify (((nl.newNode.setType nl.size t).setBin nl.size b).setBbox nl.size
    lx ly ux uy) nl.size (fun n => { n with name }) (fun _ => rfl) fun _ => ⟨rfl, rfl, rfl, rfl⟩
  obtain ⟨hnew, hold⟩ := addNode_hull h (by
    rw [setName_binOf, hplaced.binOf, Function.update_self])
  refine ⟨hnew, fun v hv s hs hhull => hold v hv s ?_⟩
  have hnamed := hname v s (nl.newNode_hull t b lx ly ux uy hv hs hhull)
  rwa [Set.ofPred_false, Set.empty_union] at hnamed

end Netlist

end Artnetgen
