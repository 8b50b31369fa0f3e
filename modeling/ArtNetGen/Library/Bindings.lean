import Mathlib.Data.List.Nodup
import Mathlib.Logic.Function.Basic

/-!
A map written entry by entry: the last entry for a key counts. Entries come from
pairing keys with labels one to one, or from sharing the keys out among the
labels in blocks.
-/

namespace Bindings

variable {κ τ : Type*}

section BindAll

variable [DecidableEq κ]

def bindAll (f : κ → τ) (entries : List (κ × τ)) : κ → τ :=
  entries.foldl (fun f entry => Function.update f entry.1 entry.2) f

theorem bindAll_append (f : κ → τ) (entries entries' : List (κ × τ)) :
    bindAll f (entries ++ entries') = bindAll (bindAll f entries) entries' :=
  List.foldl_append

theorem bindAll_of_not_mem {f : κ → τ} {entries : List (κ × τ)} {k : κ}
    (h : k ∉ entries.map Prod.fst) : bindAll f entries k = f k := by
  induction entries generalizing f with
  | nil => rfl
  | cons entry rest ih =>
      rw [List.map_cons, List.mem_cons, not_or] at h
      exact (ih h.2).trans (Function.update_of_ne h.1 _ _)

/-- A key that occurs is bound as one of its entries says. -/
theorem bindAll_mem {f : κ → τ} {entries : List (κ × τ)} {k : κ}
    (h : k ∈ entries.map Prod.fst) : (k, bindAll f entries k) ∈ entries := by
  induction entries generalizing f with
  | nil => cases h
  | cons entry rest ih =>
      by_cases hrest : k ∈ rest.map Prod.fst
      · exact List.mem_cons_of_mem _ (ih hrest)
      · have hk : k = entry.1 := (List.mem_cons.mp h).resolve_right hrest
        have hbound : bindAll f (entry :: rest) k = entry.2 := by
          unfold bindAll
          rw [List.foldl_cons]
          apply (bindAll_of_not_mem hrest).trans
          rw [hk, Function.update_self]
        rw [hbound, hk]
        exact List.mem_cons_self

/-- A neighbour keeps what it had or has one of the entries for it. -/
theorem bindAll_cases {f : κ → τ} (entries : List (κ × τ)) (k : κ) :
    bindAll f entries k = f k ∨ (k, bindAll f entries k) ∈ entries := by
  by_cases hmem : k ∈ entries.map Prod.fst
  · exact Or.inr (bindAll_mem hmem)
  · exact Or.inl (bindAll_of_not_mem hmem)

/-- Of several entries for one key the last counts. -/
theorem bindAll_const {f : κ → τ} {k : κ} {labels : List τ} (h : labels ≠ []) :
    labels.getLast? = some (bindAll f (labels.map fun label => (k, label)) k) := by
  obtain ⟨rest, label, rfl⟩ := (List.eq_nil_or_concat labels).resolve_left h
  rw [List.concat_eq_append, List.getLast?_concat, List.map_append, bindAll_append]
  simp [bindAll]

end BindAll

/-! ## Blocks -/

/-- The keys shared out among the labels, block by block. -/
def spread (keys : List κ) (labels : List τ) : List (κ × τ) :=
  let width := (keys.length + labels.length - 1) / labels.length
  labels.zipIdx.flatMap fun (label, i) =>
    ((keys.drop (i * width)).take width).map fun k => (k, label)

theorem flatMap_blocks (keys : List κ) (width n : ℕ) :
    ((List.range n).flatMap fun i => (keys.drop (i * width)).take width) =
      keys.take (n * width) := by
  induction n with
  | zero => simp
  | succ n ih => simp [List.range_succ, ih, Nat.succ_mul, List.take_add]

/-- As there are enough blocks, every key gets a label. -/
theorem map_fst_spread {keys : List κ} {labels : List τ} (h : keys ≠ [] → labels ≠ []) :
    (spread keys labels).map Prod.fst = keys := by
  have hwide : keys.length ≤
      labels.length * ((keys.length + labels.length - 1) / labels.length) := by
    rcases eq_or_ne keys [] with rfl | hkeys
    · exact Nat.zero_le _
    · have hpos := List.length_pos_of_ne_nil (h hkeys)
      have hdiv := Nat.div_add_mod (keys.length + labels.length - 1) labels.length
      have hmod := Nat.mod_lt (keys.length + labels.length - 1) hpos
      omega
  have hindex : (spread keys labels).map Prod.fst =
      (labels.zipIdx.map Prod.snd).flatMap fun i =>
        (keys.drop (i * ((keys.length + labels.length - 1) / labels.length))).take
          ((keys.length + labels.length - 1) / labels.length) := by
    rw [List.flatMap_map]
    simp [spread, List.map_flatMap, Function.comp_def]
  rw [hindex, List.zipIdx_map_snd, ← List.range_eq_range', flatMap_blocks,
    List.take_of_length_le hwide]

theorem label_mem_of_spread {keys : List κ} {labels : List τ} {k : κ} {t : τ}
    (h : (k, t) ∈ spread keys labels) : t ∈ labels := by
  simp only [spread, List.mem_flatMap, List.mem_map, Prod.mk.injEq] at h
  obtain ⟨⟨label, i⟩, hlabel, -, -, -, rfl⟩ := h
  exact List.fst_mem_of_mem_zipIdx hlabel

end Bindings
