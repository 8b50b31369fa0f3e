import Mathlib.Data.List.MinMax

/-!
Loops whose body may have no defined result. A run of a machine over a list of
inputs and a `for` loop with a fallible body are the same thing here, a monadic
fold in `Option`; the rules below carry an invariant through it, show that it
is defined, and follow a condition on its single steps.
-/

namespace Loop

variable {σ ι : Type*} {step : σ → ι → Option σ}

theorem foldlM_cons_eq_some {i : ι} {rest : List ι} {s s' : σ} :
    (i :: rest).foldlM step s = some s' ↔
      ∃ mid, step s i = some mid ∧ rest.foldlM step mid = some s' := by
  simp [List.foldlM_cons, Option.bind_eq_some_iff]

/-- What every defined step preserves, a defined run preserves. -/
theorem invariant (Inv : σ → Prop) {l : List ι} {s s' : σ}
    (hstep : ∀ i ∈ l, ∀ s s', Inv s → step s i = some s' → Inv s')
    (hs : Inv s) (hrun : l.foldlM step s = some s') : Inv s' := by
  induction l generalizing s with
  | nil =>
      obtain rfl : s = s' := by simpa using hrun
      exact hs
  | cons i rest ih =>
      obtain ⟨mid, hmid, hrest⟩ := foldlM_cons_eq_some.mp hrun
      exact ih (fun i hi => hstep i (List.mem_cons_of_mem _ hi))
        (hstep i List.mem_cons_self s mid hs hmid) hrest

/-- A defined run has taken a defined step at every input. -/
theorem exists_step {l : List ι} {s s' : σ} (hrun : l.foldlM step s = some s') {i : ι}
    (hi : i ∈ l) : ∃ mid mid', step mid i = some mid' := by
  induction l generalizing s with
  | nil => cases hi
  | cons j rest ih =>
      obtain ⟨mid, hmid, hrest⟩ := foldlM_cons_eq_some.mp hrun
      rcases List.mem_cons.mp hi with rfl | hi
      · exact ⟨s, mid, hmid⟩
      · exact ih hrest hi

/-- A run is defined when each step is, from every state the invariant
allows. -/
theorem isDefined (Inv : σ → Prop) {l : List ι} {s : σ}
    (hstep : ∀ i ∈ l, ∀ s, Inv s → ∃ s', step s i = some s' ∧ Inv s')
    (hs : Inv s) : ∃ s', l.foldlM step s = some s' ∧ Inv s' := by
  induction l generalizing s with
  | nil => exact ⟨s, rfl, hs⟩
  | cons i rest ih =>
      obtain ⟨mid, hmid, hinv⟩ := hstep i List.mem_cons_self s hs
      obtain ⟨s', hrest, hinv'⟩ := ih (fun i hi => hstep i (List.mem_cons_of_mem _ hi)) hinv
      exact ⟨s', foldlM_cons_eq_some.mpr ⟨mid, hmid, hrest⟩, hinv'⟩

/-- A loop whose steps never fail ends. -/
theorem total {l : List ι} (hstep : ∀ i ∈ l, ∀ s, ∃ s', step s i = some s') (s : σ) :
    ∃ s', l.foldlM step s = some s' := by
  have htrue : ∀ i ∈ l, ∀ s, True → ∃ s', step s i = some s' ∧ True :=
    fun i hi s _ => (hstep i hi s).imp fun _ h => ⟨h, trivial⟩
  obtain ⟨s', hs', -⟩ := isDefined (fun _ => True) htrue (trivial : (fun _ => True) s)
  exact ⟨s', hs'⟩

theorem foldlM_append_eq_some {l m : List ι} {s s' : σ} :
    (l ++ m).foldlM step s = some s' ↔
      ∃ mid, l.foldlM step s = some mid ∧ m.foldlM step mid = some s' := by
  simp [List.foldlM_append, Option.bind_eq_some_iff]

/-- What a run does, when it is known what the empty run does and how a step
goes before a run. -/
theorem relates (R : List ι → σ → σ → Prop) (hnil : ∀ s, R [] s s)
    (hcons : ∀ i rest s mid s', step s i = some mid → R rest mid s' → R (i :: rest) s s')
    {l : List ι} {s s' : σ} (hrun : l.foldlM step s = some s') : R l s s' := by
  induction l generalizing s with
  | nil =>
      obtain rfl : s = s' := by simpa using hrun
      exact hnil s
  | cons i rest ih =>
      obtain ⟨mid, hmid, hrest⟩ := foldlM_cons_eq_some.mp hrun
      exact hcons i rest s mid s' hmid (ih hrest)

/-! A loop whose body folds a list of its own collects those lists. -/

variable {β : Type*}

/-- A map goes through if every item does. -/
theorem mapM_eq_some {f : ι → Option β} {g : ι → β} {l : List ι}
    (h : ∀ i ∈ l, f i = some (g i)) : l.mapM f = some (l.map g) := by
  induction l with
  | nil => rfl
  | cons i rest ih =>
      rw [List.mapM_cons, h i List.mem_cons_self, ih fun i hi => h i (List.mem_cons_of_mem _ hi)]
      rfl

/-- The lists that `f` yields over `l`, joined. -/
def collect (f : ι → Option (List β)) : List ι → Option (List β)
  | [] => some []
  | i :: rest => do
      let head ← f i
      let tail ← collect f rest
      return head ++ tail

theorem foldlM_eq_collect {f : ι → Option (List β)} {g : σ → β → σ} {l : List ι} {s : σ}
    (h : ∀ i ∈ l, ∀ s, step s i = (f i).map fun c => c.foldl g s) :
    l.foldlM step s = (collect f l).map fun cs => cs.foldl g s := by
  induction l generalizing s with
  | nil => rfl
  | cons i rest ih =>
      rw [List.foldlM_cons, h i List.mem_cons_self, collect]
      cases f i with
      | none => rfl
      | some c =>
          simp only [Option.map_some, Option.bind_eq_bind, Option.bind_some]
          rw [ih fun i hi => h i (List.mem_cons_of_mem _ hi)]
          cases collect f rest <;> simp [List.foldl_append]

theorem mem_collect {f : ι → Option (List β)} {l : List ι} {cs : List β}
    (h : collect f l = some cs) (x : β) :
    x ∈ cs ↔ ∃ i ∈ l, ∃ c, f i = some c ∧ x ∈ c := by
  induction l generalizing cs with
  | nil =>
      obtain rfl : [] = cs := by simpa [collect] using h
      simp
  | cons i rest ih =>
      simp only [collect, Option.bind_eq_bind, Option.bind_eq_some_iff, Option.pure_def,
        Option.some.injEq] at h
      obtain ⟨head, hhead, tail, htail, rfl⟩ := h
      simp [ih htail, hhead]

theorem collect_isDefined {f : ι → Option (List β)} {l : List ι}
    (h : ∀ i ∈ l, ∃ c, f i = some c) : ∃ cs, collect f l = some cs := by
  induction l with
  | nil => exact ⟨[], rfl⟩
  | cons i rest ih =>
      obtain ⟨c, hc⟩ := h i List.mem_cons_self
      obtain ⟨cs, hcs⟩ := ih fun i hi => h i (List.mem_cons_of_mem _ hi)
      exact ⟨c ++ cs, by rw [collect, hc, hcs]; rfl⟩

/-! A loop that keeps the first element with the largest value. -/

section KeepMax

variable {α γ : Type*} [LinearOrder γ] {f : α → γ}

/-- A later element replaces the best one only if it is strictly better. -/
def keepMax (f : α → γ) (best : Option α) (a : α) : Option α :=
  if best.all fun b => f b < f a then some a else best

@[simp] theorem keepMax_none (a : α) : keepMax f none a = some a := rfl

@[simp] theorem keepMax_some (b a : α) :
    keepMax f (some b) a = if f b < f a then some a else some b := by
  simp [keepMax]

theorem foldl_keepMax (l : List α) : l.foldl (keepMax f) none = l.argmax f := by
  induction l using List.reverseRecOn with
  | nil => rfl
  | append_singleton l a ih =>
      rw [List.foldl_append, List.argmax_concat, ih]
      cases l.argmax f <;> simp

end KeepMax

/-! Conditions on the single steps of a run. -/

/-- `Along P step l s`: every step of the run over `l` from `s` starts in a
state and with an input that satisfy `P`. -/
def Along (P : σ → ι → Prop) (step : σ → ι → Option σ) : List ι → σ → Prop
  | [], _ => True
  | i :: rest, s => P s i ∧ ∀ s', step s i = some s' → Along P step rest s'

/-- An invariant that a step keeps whenever its condition holds is kept by
every run along which the condition holds. -/
theorem Along.invariant {P : σ → ι → Prop} (Inv : σ → Prop)
    (hstep : ∀ s i s', Inv s → P s i → step s i = some s' → Inv s')
    {l : List ι} {s s' : σ} (hs : Inv s) (hrun : l.foldlM step s = some s')
    (halong : Along P step l s) : Inv s' := by
  induction l generalizing s with
  | nil =>
      obtain rfl : s = s' := by simpa using hrun
      exact hs
  | cons i rest ih =>
      obtain ⟨mid, hmid, hrest⟩ := foldlM_cons_eq_some.mp hrun
      exact ih (hstep s i mid hs halong.1 hmid) hrest (halong.2 mid hmid)

/-- The converse direction: when a property of the final state can only come
from states with the property, and a step with the property on both ends
satisfies the condition, every run ending in the property satisfies the
condition all along. -/
theorem Along.of_final {P : σ → ι → Prop} (Inv Good : σ → Prop)
    (hstep : ∀ s i s', Inv s → step s i = some s' → Inv s')
    (hback : ∀ s i s', Inv s → step s i = some s' → Good s' → Good s ∧ P s i)
    {l : List ι} {s s' : σ} (hs : Inv s) (hrun : l.foldlM step s = some s')
    (hgood : Good s') : Good s ∧ Along P step l s := by
  induction l generalizing s with
  | nil =>
      obtain rfl : s = s' := by simpa using hrun
      exact ⟨hgood, trivial⟩
  | cons i rest ih =>
      obtain ⟨mid, hmid, hrest⟩ := foldlM_cons_eq_some.mp hrun
      obtain ⟨hgoodMid, halong⟩ := ih (hstep s i mid hs hmid) hrest
      obtain ⟨hgoodS, hp⟩ := hback s i mid hs hmid hgoodMid
      refine ⟨hgoodS, hp, fun s'' hs'' => ?_⟩
      obtain rfl : mid = s'' := Option.some.inj (hmid.symm.trans hs'')
      exact halong

end Loop
