import Mathlib.Logic.Relation
import Mathlib.Order.WellFoundedSet

/-!
Walks of a given length in a relation, and when a change of the relation keeps
it free of cycles. Every vertex of a cycle has an edge in and an edge out, so
only edges that can be continued on both ends matter.
-/

namespace Walks

variable {α : Type*}

/-- `Walk E k u v`: a walk of `k` edges of `E` from `u` to `v`. -/
inductive Walk (E : α → α → Prop) : ℕ → α → α → Prop where
  | nil (u : α) : Walk E 0 u u
  | snoc {k : ℕ} {u v w : α} : Walk E k u v → E v w → Walk E (k + 1) u w

variable {E E' : α → α → Prop}

theorem Walk.append {k m : ℕ} {u v w : α} (left : Walk E k u v)
    (right : Walk E m v w) : Walk E (k + m) u w := by
  induction right with
  | nil _ => exact left
  | snoc _ edge ih => exact (ih left).snoc edge

theorem Walk.cons {k : ℕ} {u v w : α} (edge : E u v) (right : Walk E k v w) :
    Walk E (k + 1) u w := by
  have h := ((Walk.nil u).snoc edge).append right
  rwa [show 0 + 1 + k = k + 1 by omega] at h

theorem Walk.mono (h : ∀ a b, E a b → E' a b) {k : ℕ} {u v : α}
    (walk : Walk E k u v) : Walk E' k u v := by
  induction walk with
  | nil u => exact .nil u
  | snoc _ edge ih => exact ih.snoc (h _ _ edge)

/-- The first edge of a nonempty walk. -/
theorem Walk.uncons {k : ℕ} {u w : α} (walk : Walk E (k + 1) u w) :
    ∃ v, E u v ∧ Walk E k v w := by
  induction k generalizing w with
  | zero =>
      cases walk with
      | snoc before edge =>
          cases before
          exact ⟨w, edge, .nil w⟩
  | succ k ih =>
      cases walk with
      | snoc before edge =>
          obtain ⟨v, first, rest⟩ := ih before
          exact ⟨v, first, rest.snoc edge⟩

/-- No walk is longer than `T`. -/
def Bounded (E : α → α → Prop) (T : ℕ) : Prop := ∀ k u v, Walk E k u v → k ≤ T

def Acyclic (E : α → α → Prop) : Prop := ∀ v, ¬ Relation.TransGen E v v

theorem Acyclic.mono (hE : Acyclic E) (h : ∀ a b, E' a b → E a b) : Acyclic E' :=
  fun v hv => hE v (Relation.TransGen.mono h v v hv)

/-- The vertex lies on a cycle or behind one. -/
def Blocked (E : α → α → Prop) (v : α) : Prop :=
  ∃ w, Relation.TransGen E w w ∧ Relation.ReflTransGen E w v

theorem Acyclic.not_blocked (hE : Acyclic E) (v : α) : ¬ Blocked E v :=
  fun ⟨w, hw, _⟩ => hE w hw

/-- A set that contains the predecessors of its members, with a rank that every
edge into the set increases, has no blocked member. -/
theorem not_blocked_of_rank {β : Type*} [Preorder β] {s : Set α} (rank : α → β)
    (h : ∀ a b, b ∈ s → E a b → a ∈ s ∧ rank a < rank b) {v : α} (hv : v ∈ s) :
    ¬ Blocked E v := by
  rintro ⟨w, hcycle, hpath⟩
  have hw : w ∈ s := by
    induction hpath with
    | refl => exact hv
    | tail _ edge ih => exact ih (h _ _ hv edge).1
  have hlt : ∀ u, Relation.TransGen E u w → rank u < rank w := by
    have hback : ∀ u, Relation.TransGen E u w → u ∈ s ∧ rank u < rank w := by
      intro u hu
      induction hu using Relation.TransGen.head_induction_on with
      | single edge => exact h _ _ hw edge
      | head edge _ ih => exact ⟨(h _ _ ih.1 edge).1, (h _ _ ih.1 edge).2.trans ih.2⟩
    exact fun u hu => (hback u hu).2
  exact lt_irrefl _ (hlt w hcycle)

/-- A rank that every edge increases rules out cycles. -/
theorem acyclic_of_rank {β : Type*} [Preorder β] (rank : α → β)
    (h : ∀ a b, E a b → rank a < rank b) : Acyclic E := by
  intro v hv
  have hlt : ∀ w, Relation.TransGen E v w → rank v < rank w := by
    intro w hw
    induction hw with
    | single edge => exact h _ _ edge
    | tail _ edge ih => exact ih.trans (h _ _ edge)
  exact lt_irrefl _ (hlt v hv)

/-- Cycles only use edges with a predecessor and a successor edge. If all such
edges of the new relation are old, no cycle is created. -/
theorem Acyclic.of_inner (hE : Acyclic E)
    (h : ∀ a b, E' a b → (∃ c, E' c a) → (∃ d, E' b d) → E a b) : Acyclic E' := by
  have hinner : ∀ {a b : α}, Relation.TransGen E' a b → (∃ c, E' c a) →
      (∃ d, E' b d) → Relation.TransGen E a b := by
    intro a b hab hin
    induction hab with
    | single edge => exact fun hout => .single (h _ _ edge hin hout)
    | tail before edge ih =>
        intro hout
        obtain ⟨c, _, last⟩ := Relation.TransGen.tail'_iff.mp before
        exact (ih ⟨_, edge⟩).tail (h _ _ edge ⟨c, last⟩ hout)
  intro v hv
  obtain ⟨c, _, last⟩ := Relation.TransGen.tail'_iff.mp hv
  obtain ⟨d, first, _⟩ := Relation.TransGen.head'_iff.mp hv
  exact hE v (hinner hv ⟨c, last⟩ ⟨d, first⟩)

/-- A finite nonempty set of vertices contains one without a predecessor in
the set. -/
theorem Acyclic.exists_source (hE : Acyclic E) {s : Set α} (hfinite : s.Finite)
    (hne : s.Nonempty) : ∃ v ∈ s, ∀ u ∈ s, ¬ E u v := by
  have hstrict : IsStrictOrder α (Relation.TransGen E) :=
    { irrefl := hE, trans := fun _ _ _ => Relation.TransGen.trans }
  have hwf : s.WellFoundedOn (Relation.TransGen E) := hfinite.wellFoundedOn
  obtain ⟨v, hv⟩ := hne
  obtain ⟨⟨m, hm⟩, _, hmin⟩ := hwf.has_min Set.univ ⟨⟨v, hv⟩, Set.mem_univ _⟩
  refine ⟨m, hm, fun u hu edge => ?_⟩
  exact hmin ⟨u, hu⟩ (Set.mem_univ _) (Relation.TransGen.single edge)

/-- A finite set, every member of which has a predecessor in it, is blocked. -/
theorem blocked_of_predecessors {s : Set α} (hfinite : s.Finite)
    (h : ∀ v ∈ s, ∃ u ∈ s, E u v) {v : α} (hv : v ∈ s) : Blocked E v := by
  by_contra hnot
  -- Edges between members from which `v` is reached make no cycle.
  have hacyclic : Acyclic fun a b => E a b ∧ Relation.ReflTransGen E b v := by
    intro w hw
    have hcycle : Relation.TransGen E w w := Relation.TransGen.mono (fun _ _ hab => hab.1) w w hw
    obtain ⟨u, -, -, hreach⟩ := Relation.TransGen.tail'_iff.mp hw
    exact hnot ⟨w, hcycle, hreach⟩
  obtain ⟨m, ⟨hm, hreach⟩, hmin⟩ := hacyclic.exists_source
    (s := {w | w ∈ s ∧ Relation.ReflTransGen E w v}) (hfinite.subset fun w hw => hw.1)
    ⟨v, hv, .refl⟩
  obtain ⟨u, hu, edge⟩ := h m hm
  exact hmin u ⟨hu, .head edge hreach⟩ ⟨edge, hreach⟩

end Walks
