import ArtNetGen.Rework

/-!
What `createMergeNode` does to the lists of sources and sinks, entry by entry.
In front and behind it does the same with the two sides exchanged.
-/

namespace Artnetgen

namespace Netlist

variable {nl nl' : Netlist}

/-- The entries of both lists, each once. -/
def union (l m : List NodeId) : List NodeId := l ++ m.filter fun v => decide (v ∉ l)

theorem mem_union {l m : List NodeId} {v : NodeId} : v ∈ union l m ↔ v ∈ l ∨ v ∈ m := by
  unfold union
  rw [List.mem_append, List.mem_filter, decide_eq_true_eq]
  tauto

theorem pushNew_eq_union {l : List NodeId} (hl : l.Nodup) (acc : List NodeId) :
    pushNew acc l = union acc l := by
  induction l generalizing acc with
  | nil => exact (List.append_nil acc).symm
  | cons v rest ih =>
      obtain ⟨hv, hrest⟩ := List.nodup_cons.mp hl
      unfold pushNew
      rw [List.foldl_cons, ← pushNew, union]
      split
      · next hin => rw [ih hrest, union, List.filter_cons_of_neg (by simpa using hin)]
      · next hnew =>
          have hsame : (rest.filter fun w => decide (w ∉ acc ++ [v])) =
              rest.filter fun w => decide (w ∉ acc) := by
            apply List.filter_congr
            intro w hw
            have hne : w ≠ v := fun heq => hv (heq ▸ hw)
            simp [hne]
          rw [ih hrest, union, hsame, List.filter_cons_of_pos (by simpa using hnew),
            List.append_assoc, List.singleton_append]

theorem gather_pair {neighbours : NodeId → List NodeId} (h : ∀ v, (neighbours v).Nodup)
    (n1 n2 : NodeId) : gather neighbours [n1, n2] = union (neighbours n1) (neighbours n2) := by
  rw [gather, List.foldl_cons, List.foldl_cons, List.foldl_nil, pushNew_eq_union (h n1),
    pushNew_eq_union (h n2)]
  simp [union]

/-- The node `n3` has taken the sources of `n1` and `n2` over and stands between
them and the two. -/
structure Merged (sources sinks sources' sinks' : NodeId → List NodeId) (n1 n2 n3 : NodeId) :
    Prop where
  collects : sources' n3 = union (sources n1) (sources n2)
  drives : sinks' n3 = [n1, n2]
  first : sources' n1 = [n3]
  second : sources' n2 = [n3]
  redirects : ∀ u ∈ union (sources n1) (sources n2),
    sinks' u = ((sinks u).filter fun v => decide (v ≠ n1 ∧ v ≠ n2)) ++ [n3]
  keepsSources : ∀ v, v ≠ n1 → v ≠ n2 → v ≠ n3 → sources' v = sources v
  keepsSinks : ∀ u, u ∉ union (sources n1) (sources n2) → u ≠ n3 → sinks' u = sinks u

theorem merged_spliceFront {g : Adjacency NodeId} (hg : g.Simple) {n1 n2 n3 : NodeId}
    (hfresh : g.Fresh n3) (hne : n1 ≠ n2) (hne1 : n1 ≠ n3) (hne2 : n2 ≠ n3) :
    Merged g.sources g.sinks (g.spliceFront (gather g.sources [n1, n2]) [n1, n2] n3).sources
      (g.spliceFront (gather g.sources [n1, n2]) [n1, n2] n3).sinks n1 n2 n3 := by
  have hl : [n1, n2].Nodup := by simpa using hne
  have hnot : n3 ∉ [n1, n2] := by simpa using ⟨hne1.symm, hne2.symm⟩
  have hc := nodup_gather g.sources [n1, n2]
  have hnodec : n3 ∉ gather g.sources [n1, n2] := fun hin => by
    obtain ⟨t, -, ht⟩ := mem_gather.mp hin
    exact hfresh.not_mem_sources hg.mirrored t ht
  have hunion := gather_pair hg.sources_nodup n1 n2
  have hsources := fun v =>
    Adjacency.spliceFront_sources g (gather g.sources [n1, n2]) [n1, n2] n3 v hfresh.1 hl hnot
  have hsinks := Adjacency.spliceFront_sinks hg.mirrored hfresh hc hnodec hl hnot
  refine ⟨?_, ?_, ?_, ?_, fun u hu => ?_, fun v hv1 hv2 hv3 => ?_, fun u hu hu3 => ?_⟩
  · rw [hsources, if_pos rfl, hunion]
  · rw [hsinks, if_pos rfl]
  · rw [hsources, if_neg hne1, if_pos (by simp)]
  · rw [hsources, if_neg hne2, if_pos (by simp)]
  · have hu3 : u ≠ n3 := fun heq => hnodec (by rw [hunion]; exact heq ▸ hu)
    rw [hsinks, if_neg hu3, if_pos (by rw [hunion]; exact hu)]
    simp
  · rw [hsources, if_neg hv3, if_neg (by simp [hv1, hv2])]
  · rw [hsinks, if_neg hu3, if_neg (by rw [hunion]; exact hu)]
    -- What collects nothing drives neither node.
    refine List.filter_eq_self.mpr fun v hv => decide_eq_true fun hin => hu ?_
    have hsource : u ∈ g.sources v := hg.mirrored.mem_iff.mp hv
    rw [mem_union]
    simp only [List.mem_cons, List.not_mem_nil, or_false] at hin
    rcases hin with rfl | rfl
    · exact Or.inl hsource
    · exact Or.inr hsource

theorem merged_spliceBack {g : Adjacency NodeId} (hg : g.Simple) {n1 n2 n3 : NodeId}
    (hfresh : g.Fresh n3) (hne : n1 ≠ n2) (hne1 : n1 ≠ n3) (hne2 : n2 ≠ n3) :
    Merged g.sinks g.sources (g.spliceBack (gather g.sinks [n1, n2]) [n1, n2] n3).sinks
      (g.spliceBack (gather g.sinks [n1, n2]) [n1, n2] n3).sources n1 n2 n3 := by
  have hflip := merged_spliceFront hg.flip hfresh.flip hne hne1 hne2
  rw [Adjacency.flip_sources, ← Adjacency.flip_spliceBack] at hflip
  exact hflip

/-! ## Degrees -/

/-- The nodes around a merge keep their numbers of neighbours unless they have
lost two connections and got one back. -/
theorem Merged.degrees_iff {sources sinks sources' sinks' : NodeId → List NodeId}
    {n1 n2 n3 : NodeId} (h : Merged sources sinks sources' sinks' n1 n2 n3) (hne : n1 ≠ n2)
    (hmirrored : ∀ u v, v ∈ sinks u ↔ u ∈ sources v) (hnodup : ∀ u, (sinks u).Nodup)
    (hirreflexive : ∀ u, u ∉ sources u) (hlt : ∀ u v, u ∈ sources v → u < n3) :
    (∀ v < n3, v ∉ [n1, n2] → (sources' v).length = (sources v).length ∧
      (sinks' v).length = (sinks v).length) ↔ ∀ u ∈ sources n1, u ∉ sources n2 := by
  have hsources : ∀ v < n3, v ∉ [n1, n2] → (sources' v).length = (sources v).length := by
    intro v hv hout
    obtain ⟨hv1, hv2⟩ : v ≠ n1 ∧ v ≠ n2 := by simpa using hout
    rw [h.keepsSources v hv1 hv2 hv.ne]
  have hsinks : ∀ u < n3, (sinks' u).length = (sinks u).length ↔
      ¬(u ∈ sources n1 ∧ u ∈ sources n2) := by
    intro u hu
    by_cases hin : u ∈ union (sources n1) (sources n2)
    · have hlength := Adjacency.length_filter_add (hnodup u)
        (by simpa using hne : [n1, n2].Nodup)
      have hkept : ((sinks u).filter fun v => decide (v ≠ n1 ∧ v ≠ n2)) =
          (sinks u).filter fun v => decide (v ∉ [n1, n2]) :=
        List.filter_congr fun v _ => by simp
      rw [h.redirects u hin, hkept, List.length_append, List.length_singleton, ← hlength,
        Nat.add_right_inj]
      rw [mem_union] at hin
      simp only [hmirrored]
      rcases hin with hin | hin
      · by_cases hboth : u ∈ sources n2 <;> simp [hin, hboth]
      · by_cases hboth : u ∈ sources n1 <;> simp [hin, hboth]
    · rw [h.keepsSinks u hin hu.ne]
      rw [mem_union, not_or] at hin
      simp [hin.1]
  constructor
  · intro hall u hu1 hu2
    have hult := hlt u n1 hu1
    have hout : u ∉ [n1, n2] := by
      intro hmem
      rcases List.mem_pair.mp hmem with rfl | rfl
      · exact hirreflexive u hu1
      · exact hirreflexive u hu2
    exact (hsinks u hult).mp (hall u hult hout).2 ⟨hu1, hu2⟩
  · exact fun hdisjoint v hv hout => ⟨hsources v hv hout,
      (hsinks v hv).mpr fun hboth => hdisjoint v hboth.1 hboth.2⟩

/-! ## Reachability -/

theorem Merged.reaches {sources sinks sources' sinks' : NodeId → List NodeId} {n1 n2 n3 : NodeId}
    (h : Merged sources sinks sources' sinks' n1 n2 n3) {u v : NodeId} (hu : u ≠ n3)
    (hv : v ∈ sinks u) : Relation.ReflTransGen (fun a b => b ∈ sinks' a) u v := by
  by_cases hin : u ∈ union (sources n1) (sources n2)
  · have hvia : n3 ∈ sinks' u := by
      rw [h.redirects u hin]
      simp
    by_cases hpair : v = n1 ∨ v = n2
    · have hlast : v ∈ sinks' n3 := by
        rw [h.drives]
        simpa using hpair
      exact .tail (.single hvia) hlast
    · rw [not_or] at hpair
      refine .single ?_
      rw [h.redirects u hin, List.mem_append, List.mem_filter]
      exact Or.inl ⟨hv, decide_eq_true hpair⟩
  · refine .single ?_
    rwa [h.keepsSinks u hin hu]

/-- An edge leads from an old node to an old node. -/
theorem Drives.lt {u v : NodeId} (h : nl.Drives u v) (hsimple : nl.graph.Simple)
    (hfresh : ∀ v, nl.size ≤ v → nl.graph.Fresh v) : u < nl.size ∧ v < nl.size := by
  constructor <;> by_contra hge
  · have hsinks : nl.sinks u = [] := (hfresh u (Nat.not_lt.mp hge)).2
    unfold Drives at h
    rw [hsinks] at h
    cases h
  · exact (hfresh v (Nat.not_lt.mp hge)).not_mem_sinks hsimple.mirrored u h

theorem createMergeNode_front_lists {n1 n2 n3 : NodeId} (hsimple : nl.graph.Simple)
    (hfresh : nl.graph.Fresh nl.size) (hne : n1 ≠ n2) (hlt1 : n1 < nl.size) (hlt2 : n2 < nl.size)
    (h : nl.createMergeNode n1 n2 true = some (nl', n3)) :
    Merged nl.sources nl.sinks nl'.sources nl'.sinks n1 n2 nl.size := by
  obtain ⟨-, hbecomes⟩ := createMergeNodeAt_becomes hfresh h
  have hgraph := hbecomes.graph
  rw [if_pos rfl] at hgraph
  have hmerged := merged_spliceFront hsimple hfresh hne hlt1.ne hlt2.ne
  change Merged nl.sources nl.sinks (nl.graph.spliceFront (gather nl.sources [n1, n2])
    [n1, n2] nl.size).sources (nl.graph.spliceFront (gather nl.sources [n1, n2])
    [n1, n2] nl.size).sinks n1 n2 nl.size at hmerged
  rw [← hgraph] at hmerged
  exact hmerged

theorem createMergeNode_back_lists {n1 n2 n3 : NodeId} (hsimple : nl.graph.Simple)
    (hfresh : nl.graph.Fresh nl.size) (hne : n1 ≠ n2) (hlt1 : n1 < nl.size) (hlt2 : n2 < nl.size)
    (h : nl.createMergeNode n1 n2 false = some (nl', n3)) :
    Merged nl.sinks nl.sources nl'.sinks nl'.sources n1 n2 nl.size := by
  obtain ⟨-, hbecomes⟩ := createMergeNodeAt_becomes hfresh h
  have hgraph := hbecomes.graph
  rw [if_neg nofun] at hgraph
  have hmerged := merged_spliceBack hsimple hfresh hne hlt1.ne hlt2.ne
  change Merged nl.sinks nl.sources (nl.graph.spliceBack (gather nl.sinks [n1, n2])
    [n1, n2] nl.size).sinks (nl.graph.spliceBack (gather nl.sinks [n1, n2])
    [n1, n2] nl.size).sources n1 n2 nl.size at hmerged
  rw [← hgraph] at hmerged
  exact hmerged

theorem createMergeNode_mirrored {n1 n2 n3 : NodeId} {front : Bool} (hsimple : nl.graph.Simple)
    (hfresh : nl.graph.Fresh nl.size) (hne : n1 ≠ n2) (hlt1 : n1 < nl.size) (hlt2 : n2 < nl.size)
    (h : nl.createMergeNode n1 n2 front = some (nl', n3)) : nl'.graph.Mirrored := by
  obtain ⟨-, hbecomes⟩ := createMergeNodeAt_becomes hfresh h
  have hl : [n1, n2].Nodup := by simpa using hne
  have hnot : nl.size ∉ [n1, n2] := by simp [hlt1.ne', hlt2.ne']
  rw [hbecomes.graph]
  cases front with
  | true =>
      refine (hsimple.spliceFront hfresh (nodup_gather _ _) (fun hin => ?_) hl hnot).mirrored
      obtain ⟨t, -, ht⟩ := mem_gather.mp hin
      exact hfresh.not_mem_sources hsimple.mirrored t ht
  | false =>
      refine (hsimple.spliceBack hfresh (nodup_gather _ _) (fun hin => ?_) hl hnot).mirrored
      obtain ⟨t, -, ht⟩ := mem_gather.mp hin
      exact hfresh.not_mem_sinks hsimple.mirrored t ht

/-- The lists after a merge, and that no path is lost. -/
theorem createMergeNode_merged (nl nl' : Netlist) (n1 n2 n3 : NodeId) (front : Bool)
    (hsimple : nl.graph.Simple) (hfresh : ∀ v, nl.size ≤ v → nl.graph.Fresh v) (hne : n1 ≠ n2)
    (hlt1 : n1 < nl.size) (hlt2 : n2 < nl.size)
    (h : nl.createMergeNode n1 n2 front = some (nl', n3)) :
    n3 = nl.size ∧
    (if front then Merged nl.sources nl.sinks nl'.sources nl'.sinks n1 n2 n3
      else Merged nl.sinks nl.sources nl'.sinks nl'.sources n1 n2 n3) ∧
    ∀ u < nl.size, ∀ v, Relation.ReflTransGen nl.Drives u v →
      Relation.ReflTransGen nl'.Drives u v := by
  obtain ⟨rfl, -⟩ := createMergeNodeAt_becomes (hfresh _ le_rfl) h
  have hmirrored := createMergeNode_mirrored hsimple (hfresh _ le_rfl) hne hlt1 hlt2 h
  have hold := fun u v (hv : nl.Drives u v) => hv.lt hsimple hfresh
  have hedge : (if front then Merged nl.sources nl.sinks nl'.sources nl'.sinks n1 n2 nl.size
        else Merged nl.sinks nl.sources nl'.sinks nl'.sources n1 n2 nl.size) ∧
      ∀ u v, nl.Drives u v → Relation.ReflTransGen nl'.Drives u v := by
    cases front with
    | true =>
        have hmerged := createMergeNode_front_lists hsimple (hfresh _ le_rfl) hne hlt1 hlt2 h
        exact ⟨hmerged, fun u v hv => hmerged.reaches (hold u v hv).1.ne hv⟩
    | false =>
        have hmerged := createMergeNode_back_lists hsimple (hfresh _ le_rfl) hne hlt1 hlt2 h
        refine ⟨hmerged, fun u v hv => ?_⟩
        have hback := hmerged.reaches (hold u v hv).2.ne (hsimple.mirrored.mem_iff.mp hv)
        have hforth : ∀ a b, b ∈ nl'.sources a → nl'.Drives b a := fun a b hab =>
          hmirrored.mem_iff.mpr hab
        exact Relation.ReflTransGen.mono (fun a b hab => hforth b a hab) u v
          (Relation.ReflTransGen.swap u v hback)
  obtain ⟨hmerged, hsteps⟩ := hedge
  refine ⟨rfl, hmerged, fun u _ v hpath => ?_⟩
  induction hpath with
  | refl => exact .refl
  | tail _ hlast ih => exact ih.trans (hsteps _ _ hlast)

end Netlist

theorem Netlist.createMergeNode_merged_small :
    (smallMerged.1.sinks smallMerged.2) = [4, 3] := by
  have hedits : Relation.ReflTransGen Edit smallEnd.netlist smallEnclosed :=
    .tail (.single (@Edit.insert _ 1 false _ (by decide +kernel) (by decide +kernel)
      (Option.some_get _).symm))
      (@Edit.insert _ 1 true _ (by decide +kernel) (by decide +kernel) (Option.some_get _).symm)
  have hsound := smallEnd_reachable.inv.wired.sound.edits hedits
  obtain ⟨-, hmerged, -⟩ := Netlist.createMergeNode_merged smallEnclosed smallMerged.1 4 3
    smallMerged.2 true hsound.simple hsound.fresh (by decide) (by decide +kernel)
    (by decide +kernel) (Option.some_get _).symm
  exact hmerged.drives

end Artnetgen
