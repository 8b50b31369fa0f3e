import Mathlib.Data.List.Nodup

/-!
Lists joined from one file for each key, where every entry tells which file it
is from. Such a join keeps its files apart: each is read back by filtering for
its key.
-/

namespace Filing

variable {α β κ : Type*} {key : α → κ} {keys : List κ} {f g : κ → List α}

/-- Nothing occurs twice in the join when nothing occurs twice in a file. -/
theorem nodup_map_flatMap_iff (item : α → β) (hitem : ∀ a b, item a = item b → key a = key b)
    (hkeys : keys.Nodup) (hf : ∀ k ∈ keys, ∀ a ∈ f k, key a = k) :
    ((keys.flatMap f).map item).Nodup ↔ ∀ k ∈ keys, ((f k).map item).Nodup := by
  rw [List.map_flatMap, List.nodup_flatMap, and_iff_left_iff_imp]
  intro _
  refine hkeys.imp_of_mem fun {k k'} hk hk' hne b hb hb' => ?_
  obtain ⟨a, ha, rfl⟩ := List.mem_map.mp hb
  obtain ⟨a', ha', heq⟩ := List.mem_map.mp hb'
  apply hne
  rw [← hf k hk a ha, ← hf k' hk' a' ha']
  exact hitem a a' heq.symm

variable [DecidableEq κ]

theorem filter_file {k k' : κ} (hf : ∀ a ∈ f k', key a = k') :
    (f k').filter (fun a => key a = k) = if k' = k then f k' else [] := by
  split
  · next heq =>
      apply List.filter_eq_self.mpr
      intro a ha
      simp [hf a ha, heq]
  · next hne =>
      apply List.filter_eq_nil_iff.mpr
      intro a ha
      simp [hf a ha, hne]

/-- Filtering the join for a key reads its file back. -/
theorem filter_flatMap (hkeys : keys.Nodup) (hf : ∀ k ∈ keys, ∀ a ∈ f k, key a = k) {k : κ}
    (hk : k ∈ keys) : (keys.flatMap f).filter (fun a => key a = k) = f k := by
  induction keys with
  | nil => cases hk
  | cons first rest ih =>
      obtain ⟨hfirst, hrest⟩ := List.nodup_cons.mp hkeys
      rw [List.flatMap_cons, List.filter_append, filter_file (hf first List.mem_cons_self)]
      rcases List.mem_cons.mp hk with rfl | hk
      · have hnone : (rest.flatMap f).filter (fun a => key a = k) = [] := by
          apply List.filter_eq_nil_iff.mpr
          intro a ha
          obtain ⟨k', hk', ha'⟩ := List.mem_flatMap.mp ha
          have hne : k' ≠ k := fun heq => hfirst (heq ▸ hk')
          simp [hf k' (List.mem_cons_of_mem _ hk') a ha', hne]
        rw [if_pos rfl, hnone, List.append_nil]
      · have hne : first ≠ k := fun heq => hfirst (heq ▸ hk)
        rw [if_neg hne, List.nil_append]
        exact ih hrest (fun k hk => hf k (List.mem_cons_of_mem _ hk)) hk

/-- Two joins are the same when their files are. -/
theorem flatMap_eq_iff (hkeys : keys.Nodup) (hf : ∀ k ∈ keys, ∀ a ∈ f k, key a = k)
    (hg : ∀ k ∈ keys, ∀ a ∈ g k, key a = k) :
    keys.flatMap f = keys.flatMap g ↔ ∀ k ∈ keys, f k = g k := by
  constructor
  · intro heq k hk
    rw [← filter_flatMap hkeys hf hk, heq, filter_flatMap hkeys hg hk]
  · intro heq
    exact List.flatMap_congr heq

end Filing
