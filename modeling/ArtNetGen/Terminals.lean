import ArtNetGen.TechMapping
import ArtNetGen.Rework
import ArtNetGen.Library.Bindings

/-!
What the terminals of a node get bound to. `node2term_` has one entry for each
neighbour, which the loops over the sources, the sinks, the clock pins and the
reset pins write in this order.
-/

namespace Artnetgen

open Bindings

/-- The names of the terminals of one use and direction. -/
def pinsOf (terms : List DbMTerm) (sig : DbSigType) (io : DbIoType) : List String :=
  (terms.filter fun term => decide (term.sigType = sig ∧ term.ioType = io)).map (·.name)

def DbMaster.pins (master : DbMaster) : DbSigType → DbIoType → List String :=
  pinsOf master.mTerms

/-- No pin is listed twice, or under two kinds. -/
theorem DbMaster.pins_nodup (master : DbMaster) (sig : DbSigType) (io : DbIoType) :
    (master.pins sig io).Nodup :=
  master.nodup.sublist (List.filter_sublist.map _)

theorem DbMaster.kind_unique (master : DbMaster) {sig sig' : DbSigType} {io io' : DbIoType}
    {pin : String} (h : pin ∈ master.pins sig io) (h' : pin ∈ master.pins sig' io') :
    sig = sig' ∧ io = io' := by
  simp only [pins, pinsOf, List.mem_map, List.mem_filter, decide_eq_true_eq] at h h'
  obtain ⟨term, ⟨hmem, rfl, rfl⟩, rfl⟩ := h
  obtain ⟨term', ⟨hmem', rfl, rfl⟩, hname⟩ := h'
  obtain rfl := List.inj_on_of_nodup_map master.nodup hmem' hmem hname
  exact ⟨rfl, rfl⟩

namespace Node

/-- The terminals that `mappingTerms` sees: those of the cell, or the one of a
port. -/
def pins (n : Node) (sig : DbSigType) (io : DbIoType) : List String :=
  match n.type with
  | .primaryIn | .clockIn | .resetIn => if sig = .signal ∧ io = .output then ["PIN"] else []
  | .primaryOut => if sig = .signal ∧ io = .input then ["PIN"] else []
  | .combinational | .sequential => (n.master.map fun master => master.pins sig io).getD []

/-- A control has no clock or reset pins. -/
theorem pins_of_control {n : Node} (h : n.type = .clockIn ∨ n.type = .resetIn) :
    n.pins .clock .input = [] ∧ n.pins .reset .input = [] := by
  rcases h with h | h <;> simp [pins, h]

theorem foldl_collectTerm (terms : List DbMTerm) (n : Node) :
    terms.foldl collectTerm n = { n with
      inSigTerms := n.inSigTerms ++ pinsOf terms .signal .input
      outSigTerms := n.outSigTerms ++ pinsOf terms .signal .output
      inClkTerms := n.inClkTerms ++ pinsOf terms .clock .input
      inRstTerms := n.inRstTerms ++ pinsOf terms .reset .input } := by
  induction terms generalizing n with
  | nil => simp [pinsOf]
  | cons term rest ih =>
      obtain ⟨name, sig, io⟩ := term
      rw [List.foldl_cons, ih]
      cases sig <;> cases io <;> simp [collectTerm, pinsOf]

/-- Nothing is bound yet. -/
theorem Plain.unmapped {n : Node} (h : n.Plain) : n.inSigTerms = [] ∧ n.outSigTerms = [] ∧
    n.inClkTerms = [] ∧ n.inRstTerms = [] ∧ n.node2term = fun _ => "" := by
  have hstrip := h.1
  refine ⟨?_, ?_, ?_, ?_, ?_⟩
  · exact congrArg Node.inSigTerms hstrip
  · exact congrArg Node.outSigTerms hstrip
  · exact congrArg Node.inClkTerms hstrip
  · exact congrArg Node.inRstTerms hstrip
  · exact congrArg Node.node2term hstrip

theorem Plain.collectTerms {n n' : Node} (h : n.Plain) (hterms : n.collectTerms = some n') :
    (n.type.IsInstance → ∃ master, n.master = some master) ∧ n' = { n with
      inSigTerms := n.pins .signal .input
      outSigTerms := n.pins .signal .output
      inClkTerms := n.pins .clock .input
      inRstTerms := n.pins .reset .input } := by
  obtain ⟨hin, hout, hclk, hrst, -⟩ := h.unmapped
  obtain ⟨name, master, _, _, _, _, node2term, type, _, _, _, _, _, sources, sinks⟩ := n
  dsimp only at hin hout hclk hrst
  subst hin hout hclk hrst
  cases type with
  | combinational | sequential =>
      cases master with
      | none => cases hterms
      | some master =>
          obtain rfl := Option.some.inj hterms
          exact ⟨fun _ => ⟨master, rfl⟩, foldl_collectTerm master.mTerms _⟩
  | primaryIn | primaryOut | clockIn | resetIn =>
      obtain rfl := Option.some.inj hterms
      exact ⟨fun hinst => (by cases hinst <;> contradiction), rfl⟩

theorem foldl_bindTerm (entries : List (NodeId × String)) (n : Node) :
    entries.foldl (fun n entry => n.bindTerm entry.1 entry.2) n =
      { n with node2term := bindAll n.node2term entries } := by
  induction entries generalizing n with
  | nil => rfl
  | cons entry rest ih =>
      rw [List.foldl_cons, ih]
      rfl

theorem bindSources_eq (n : Node) :
    n.bindSources = { n with node2term := bindAll n.node2term (n.sources.zip n.inSigTerms) } :=
  foldl_bindTerm _ n

theorem bindSinks_eq (n : Node) :
    n.bindSinks = { n with node2term := bindAll n.node2term (spread n.sinks n.outSigTerms) } := by
  rw [← foldl_bindTerm, spread, List.foldl_flatMap, bindSinks]
  apply List.foldl_ext _ _ _
  intro bound entry _
  dsimp only
  generalize (n.sinks.length + n.outSigTerms.length - 1) / n.outSigTerms.length = width
  have hblock : min n.sinks.length ((entry.2 + 1) * width) - entry.2 * width =
      min width (n.sinks.drop (entry.2 * width)).length := by
    rw [← Nat.sub_min_sub_right, Nat.succ_mul, Nat.add_sub_cancel_left, List.length_drop,
      Nat.min_comm]
  rw [hblock, ← List.take_eq_take_min, List.foldl_map]

/-- The entries for the neighbours, sources first. -/
def entries (n : Node) : List (NodeId × String) :=
  n.sources.zip (n.pins .signal .input) ++ spread n.sinks (n.pins .signal .output)

/-- What has to hold of a node for `mappingTerms` to go through. -/
structure Mappable (n : Node) : Prop where
  master : n.type.IsInstance → ∃ master, n.master = some master
  inputs : (n.pins .signal .input).length = n.sources.length
  outputs : n.sinks ≠ [] → n.pins .signal .output ≠ []

/-- The node after `mapTerms`. -/
def bound (n : Node) : Node :=
  { n with
    inSigTerms := n.pins .signal .input
    outSigTerms := n.pins .signal .output
    inClkTerms := n.pins .clock .input
    inRstTerms := n.pins .reset .input
    node2term := bindAll (fun _ => "") n.entries }

/-- The pins of a control are bound. -/
def control (n : Node) (driver : NodeId) (terms : List String) : Node :=
  { n with
    node2term := bindAll n.node2term (terms.map fun term => (driver, term))
    sources := n.sources ++ terms.map fun _ => driver }

/-- The node after `mappingTerms`. -/
def mapped (n : Node) (clkIn rstIn : NodeId) : Node :=
  (n.bound.control clkIn (n.pins .clock .input)).control rstIn (n.pins .reset .input)

theorem control_nil (n : Node) (driver : NodeId) : n.control driver [] = n := by
  simp [control, bindAll]

theorem Plain.mapTerms {n n' : Node} (h : n.Plain) (hmap : n.mapTerms = some n') :
    n.Mappable ∧ n' = n.bound := by
  simp only [Node.mapTerms, Option.bind_eq_bind, Option.bind_eq_some_iff] at hmap
  obtain ⟨n1, hterms, hmap⟩ := hmap
  obtain ⟨hmaster, rfl⟩ := h.collectTerms hterms
  split at hmap
  · cases hmap
  · next hlength =>
      split at hmap
      · cases hmap
      · next houts =>
          refine ⟨⟨hmaster, not_not.mp hlength, fun hsinks hnone => houts ⟨?_, ?_⟩⟩, ?_⟩
          · exact List.length_pos_of_ne_nil hsinks
          · exact List.length_eq_zero_iff.mpr hnone
          · rw [← Option.some.inj hmap, bindSinks_eq, bindSources_eq, bound, entries,
              bindAll_append, h.unmapped.2.2.2.2]

/-- The node has got more sinks. -/
def Grown (n n' : Node) (extra : List NodeId) : Prop :=
  ∃ lx ly ux uy, n' = { n with sinks := n.sinks ++ extra, lx, ly, ux, uy }

theorem Grown.refl (n : Node) : Grown n n [] :=
  ⟨n.lx, n.ly, n.ux, n.uy, by rw [List.append_nil]⟩

theorem Grown.trans {n n' n'' : Node} {extra extra' : List NodeId} (h : Grown n n' extra)
    (h' : Grown n' n'' extra') : Grown n n'' (extra ++ extra') := by
  obtain ⟨_, _, _, _, rfl⟩ := h
  obtain ⟨_, _, _, _, rfl⟩ := h'
  exact ⟨_, _, _, _, by rw [List.append_assoc]⟩

theorem Grown.pins {n n' : Node} {extra : List NodeId} (h : Grown n n' extra) :
    n'.pins = n.pins := by
  obtain ⟨_, _, _, _, rfl⟩ := h
  rfl

theorem Grown.plain {n n' : Node} {extra : List NodeId} (h : Grown n n' extra)
    (hplain : n.Plain) : n'.Plain := by
  obtain ⟨_, _, _, _, rfl⟩ := h
  exact hplain.congr rfl

/-- More sinks before and after make no difference if there are none. -/
theorem Grown.mapped {n n' : Node} {clkIn rstIn : NodeId}
    (h : Grown (n.mapped clkIn rstIn) n' []) :
    ∃ m, Grown n m [] ∧ n' = m.mapped clkIn rstIn := by
  obtain ⟨lx, ly, ux, uy, rfl⟩ := h
  refine ⟨{ n with lx, ly, ux, uy }, ⟨lx, ly, ux, uy, by rw [List.append_nil]⟩, ?_⟩
  rw [List.append_nil]
  rfl

end Node

namespace Netlist

variable {nl nl' : Netlist} {v clkIn rstIn : NodeId}

/-! ## One node -/

/-- The pins of one control have been bound. -/
structure Controlled (nl nl' : Netlist) (v driver : NodeId) (terms : List String) : Prop where
  keeps : Keeps nl nl'
  size : nl'.size = nl.size
  node : nl'.node v = (nl.node v).control driver terms
  grown : Node.Grown (nl.node driver) (nl'.node driver) (terms.map fun _ => v)
  others : ∀ w, w ≠ v → w ≠ driver → nl'.node w = nl.node w

theorem bindControl_controlled (nl : Netlist) {v driver : NodeId} (hne : v ≠ driver)
    (term : String) : Controlled nl (nl.bindControl v driver term) v driver [term] := by
  refine ⟨rfl, rfl, ?_, ?_, fun w hv hdriver => ?_⟩
  · simp only [bindControl, addSource, addSink, modify_node, if_neg hne, if_true]
    rfl
  · simp only [bindControl, addSource, addSink, modify_node, if_neg hne.symm, if_true]
    exact ⟨_, _, _, _, rfl⟩
  · simp only [bindControl, addSource, addSink, modify_node, if_neg hv, if_neg hdriver]

theorem foldl_bindControl {v driver : NodeId} (hne : v ≠ driver) (terms : List String)
    (nl : Netlist) :
    Controlled nl (terms.foldl (fun nl term => nl.bindControl v driver term) nl) v driver
      terms := by
  induction terms generalizing nl with
  | nil => exact ⟨rfl, rfl, (Node.control_nil _ _).symm, .refl _, fun _ _ _ => rfl⟩
  | cons term rest ih =>
      have hstep := nl.bindControl_controlled hne term
      have hrest := ih (nl.bindControl v driver term)
      refine ⟨hstep.keeps.trans hrest.keeps, hrest.size.trans hstep.size, ?_,
        hstep.grown.trans hrest.grown,
        fun w hv hdriver => (hrest.others w hv hdriver).trans (hstep.others w hv hdriver)⟩
      rw [List.foldl_cons, hrest.node, hstep.node]
      simp [Node.control, bindAll]

/-- `mappingTerms` at one node. -/
structure NodeMapped (clkIn rstIn : NodeId) (nl nl' : Netlist) (v : NodeId) : Prop where
  keeps : Keeps nl nl'
  size : nl'.size = nl.size
  mappable : (nl.node v).Mappable
  node : nl'.node v = (nl.node v).mapped clkIn rstIn
  clk : v ≠ clkIn → Node.Grown (nl.node clkIn) (nl'.node clkIn)
    (((nl.node v).pins .clock .input).map fun _ => v)
  rst : v ≠ rstIn → Node.Grown (nl.node rstIn) (nl'.node rstIn)
    (((nl.node v).pins .reset .input).map fun _ => v)
  others : ∀ w, w ≠ v → w ≠ clkIn → w ≠ rstIn → nl'.node w = nl.node w

theorem mappingTerms_nodeMapped (hplain : (nl.node v).Plain) (hcontrols : clkIn ≠ rstIn)
    (hport : v = clkIn ∨ v = rstIn →
      (nl.node v).pins .clock .input = [] ∧ (nl.node v).pins .reset .input = [])
    (h : nl.mappingTerms clkIn rstIn v = some nl') : NodeMapped clkIn rstIn nl nl' v := by
  simp only [mappingTerms, Option.bind_eq_bind, Option.bind_eq_some_iff, Option.pure_def,
    Option.some.injEq] at h
  obtain ⟨n, hn, h⟩ := h
  obtain ⟨hmappable, rfl⟩ := hplain.mapTerms hn
  have hself : ∀ w, (nl.modify v fun _ => (nl.node v).bound).node w =
      if w = v then (nl.node v).bound else nl.node w := nl.modify_node v _
  change ((nl.node v).pins .reset .input).foldl (fun nl term => nl.bindControl v rstIn term)
    (((nl.node v).pins .clock .input).foldl (fun nl term => nl.bindControl v clkIn term)
      (nl.modify v fun _ => (nl.node v).bound)) = nl' at h
  by_cases hv : v = clkIn ∨ v = rstIn
  · obtain ⟨hclk, hrst⟩ := hport hv
    rw [hclk, hrst] at h
    subst h
    refine ⟨rfl, rfl, hmappable, ?_, fun hne => ?_, fun hne => ?_, fun w hw _ _ => ?_⟩
    · rw [List.foldl_nil, List.foldl_nil, hself, if_pos rfl, Node.mapped, hclk, hrst,
        Node.control_nil, Node.control_nil]
    · rw [List.foldl_nil, List.foldl_nil, hself, if_neg hne.symm, hclk]
      exact .refl _
    · rw [List.foldl_nil, List.foldl_nil, hself, if_neg hne.symm, hrst]
      exact .refl _
    · rw [List.foldl_nil, List.foldl_nil, hself, if_neg hw]
  · rw [not_or] at hv
    have hclk := foldl_bindControl hv.1 ((nl.node v).pins .clock .input)
      (nl.modify v fun _ => (nl.node v).bound)
    have hrst := foldl_bindControl hv.2 ((nl.node v).pins .reset .input)
      (((nl.node v).pins .clock .input).foldl (fun nl term => nl.bindControl v clkIn term)
        (nl.modify v fun _ => (nl.node v).bound))
    rw [h] at hrst
    refine ⟨hclk.keeps.trans hrst.keeps, hrst.size.trans hclk.size, hmappable, ?_, fun _ => ?_,
      fun _ => ?_, fun w hw hwclk hwrst => ?_⟩
    · rw [hrst.node, hclk.node, hself, if_pos rfl, Node.mapped]
    · rw [hrst.others clkIn (Ne.symm hv.1) hcontrols]
      have hgrown := hclk.grown
      rwa [hself, if_neg (Ne.symm hv.1)] at hgrown
    · have hgrown := hrst.grown
      rwa [hclk.others rstIn (Ne.symm hv.2) hcontrols.symm, hself, if_neg (Ne.symm hv.2)] at hgrown
    · rw [hrst.others w hw hwrst, hclk.others w hw hwclk, hself, if_neg hw]

end Netlist

end Artnetgen
