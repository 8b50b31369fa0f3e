import ArtNetGen.Buckets
import ArtNetGen.Library.Filing

/-!
What `ArtNetGen::init` makes of an object that has been used before. The cells
named by `ONLY_USE` are appended to those already there and every table is
appended to what it held, so the outcome is that of a fresh object only under
conditions on the earlier state.
-/

namespace Artnetgen

namespace SpecLine

def faninValue : SpecLine → Option ℕ
  | .fanin value _ _ => some value
  | _ => none

def fanoutValue : SpecLine → Option ℕ
  | .fanout value _ _ => some value
  | _ => none

def netbboxValue : SpecLine → Option ℕ
  | .netbbox value _ _ => some value
  | _ => none

def windowValue : SpecLine → Option ℕ
  | .window value _ _ => some value
  | _ => none

end SpecLine

/-- The local variables of `readSpec` after one more line. -/
def SpecLines.read (v : SpecLines) : SpecLine → SpecLines
  | .fanin value target ratio => { v with
      totInstCnt := v.totInstCnt + target
      maxFi := max value v.maxFi
      fanIns := v.fanIns ++ [⟨value, target, 0, ratio⟩] }
  | .fanout value target ratio => { v with
      maxFo := max value v.maxFo
      fanOuts := v.fanOuts ++ [⟨value, target, 0, ratio⟩] }
  | .window value target ratio => { v with
      maxWindow := max value v.maxWindow
      windows := v.windows ++ [⟨value, target, 0, ratio⟩] }
  | .netbbox value target ratio => { v with
      maxBbox := max value v.maxBbox
      netBboxes := v.netBboxes ++ [⟨value, target, 0, ratio⟩] }
  | _ => v

def specLines (spec : List SpecLine) : SpecLines := spec.foldl SpecLines.read {}

/-- A maximum over the lines of one kind is at least `k` when it was before or
some line of the kind is. -/
theorem le_foldl_read {top : SpecLines → ℤ} {valueOf : SpecLine → Option ℕ}
    (htop : ∀ v line, top (v.read line) =
      match valueOf line with | some value => max (value : ℤ) (top v) | none => top v)
    (k : ℤ) (spec : List SpecLine) (v : SpecLines) :
    k ≤ top (spec.foldl SpecLines.read v) ↔
      k ≤ top v ∨ ∃ line ∈ spec, ∃ value, valueOf line = some value ∧ k ≤ (value : ℤ) := by
  induction spec generalizing v with
  | nil => simp
  | cons line rest ih =>
      rw [List.foldl_cons, ih, htop]
      cases hline : valueOf line with
      | none => simp [hline]
      | some value =>
          simp only [List.mem_cons, exists_eq_or_imp, hline, Option.some.injEq, exists_eq_left']
          rw [le_max_iff, or_comm (a := k ≤ (value : ℤ)), or_assoc]

/-- The tables of the lines of one kind. -/
theorem le_top_iff {top : SpecLines → ℤ} {valueOf : SpecLine → Option ℕ}
    (htop : ∀ v line, top (v.read line) =
      match valueOf line with | some value => max (value : ℤ) (top v) | none => top v)
    (hstart : top {} = intMin) {k : ℤ} (hk : intMin < k) (spec : List SpecLine) :
    k ≤ top (specLines spec) ↔
      ∃ line ∈ spec, ∃ value, valueOf line = some value ∧ k ≤ (value : ℤ) := by
  unfold specLines
  rw [le_foldl_read htop, or_iff_right_iff_imp]
  intro h
  rw [hstart] at h
  omega

namespace ArtNetGen

/-- The cells that the `ONLY_USE` lines name. -/
def named (ang : ArtNetGen) (spec : List SpecLine) : List MasterInfo :=
  spec.filterMap fun
    | .onlyUse masterName ratio => (ang.findMaster masterName).map (⟨·, ratio⟩)
    | _ => none

/-- The cells of the libraries, each as the database finds it by its name. -/
def available (ang : ArtNetGen) : List MasterInfo :=
  (ang.libs.flatten.map (·.name)).filterMap fun name => (ang.findMaster name).map (⟨·, 1⟩)

/-- The cells `checkMasters` keeps for one kind and fan-in. -/
def selection (only total : List MasterInfo) (k : ℕ × Bool) : List MasterInfo :=
  if (only.filter (MasterInfo.isIn k.2 k.1)).isEmpty then total.filter (MasterInfo.isIn k.2 k.1)
  else only.filter (MasterInfo.isIn k.2 k.1)

/-- The kinds and fan-ins in the order in which `checkMasters` goes through
them. -/
def kinds (maxFi : ℤ) : List (ℕ × Bool) :=
  (List.range' 1 maxFi.toNat).flatMap fun x => [(x, false), (x, true)]

theorem findMaster_spec {ang : ArtNetGen} {name : String} {master : DbMaster}
    (h : ang.findMaster name = some master) : master ∈ ang.libs.flatten ∧ master.name = name := by
  have hname := List.find?_some h
  rw [beq_iff_eq] at hname
  exact ⟨List.mem_of_find?_eq_some h, hname⟩

theorem findMaster_isSome (ang : ArtNetGen) {name : String}
    (h : name ∈ ang.libs.flatten.map (·.name)) : ∃ master, ang.findMaster name = some master := by
  obtain ⟨master, hmem, rfl⟩ := List.mem_map.mp h
  exact Option.isSome_iff_exists.mp (List.find?_isSome.mpr ⟨master, hmem, by simp⟩)

theorem mapM_eq_filterMap {α β : Type*} {f : α → Option β} {l : List α}
    (h : ∀ a ∈ l, ∃ b, f a = some b) : l.mapM f = some (l.filterMap f) := by
  induction l with
  | nil => rfl
  | cons a rest ih =>
      obtain ⟨b, hb⟩ := h a List.mem_cons_self
      rw [List.mapM_cons, hb, ih fun a ha => h a (List.mem_cons_of_mem _ ha),
        List.filterMap_cons_some hb]
      rfl

theorem checkMasters_eq (ang : ArtNetGen) :
    ang.checkMasters = some { ang with
      masters := (kinds ang.fiDist.xMax).flatMap (selection ang.masters ang.available) } := by
  have htotal : (ang.libs.flatten.map (·.name)).mapM (fun name =>
      (ang.findMaster name).map fun master => (⟨master, 1⟩ : MasterInfo)) =
        some ang.available := by
    apply mapM_eq_filterMap
    intro name hname
    obtain ⟨master, hmaster⟩ := ang.findMaster_isSome hname
    exact ⟨⟨master, 1⟩, by rw [hmaster]; rfl⟩
  simp only [checkMasters, Option.bind_eq_bind, htotal, Option.bind_some, kinds,
    List.flatMap_assoc, Option.pure_def]
  simp [selection]

/-! Each cell tells the list it is kept in. -/

def kindOf (info : MasterInfo) : ℕ × Bool :=
  ((getPortInfo info.master).inputSignal, decide ((getPortInfo info.master).inputClock > 0))

theorem kindOf_of_isIn {k : ℕ × Bool} {info : MasterInfo} (h : info.isIn k.2 k.1 = true) :
    kindOf info = k := by
  simp only [MasterInfo.isIn, Bool.and_eq_true, beq_iff_eq, decide_eq_true_eq] at h
  exact Prod.ext h.2 h.1.2

theorem kindOf_of_mem_selection {only total : List MasterInfo} {k : ℕ × Bool}
    {info : MasterInfo} (h : info ∈ selection only total k) : kindOf info = k := by
  unfold selection at h
  split at h <;> exact kindOf_of_isIn (List.mem_filter.mp h).2

theorem mem_kinds {maxFi : ℤ} {k : ℕ × Bool} : k ∈ kinds maxFi ↔ 1 ≤ k.1 ∧ (k.1 : ℤ) ≤ maxFi := by
  obtain ⟨x, sequential⟩ := k
  simp only [kinds, List.mem_flatMap, List.mem_range'_1, List.mem_cons, Prod.mk.injEq,
    List.not_mem_nil, or_false]
  constructor
  · rintro ⟨x', ⟨hle, hlt⟩, ⟨rfl, -⟩ | ⟨rfl, -⟩⟩ <;> exact ⟨hle, by omega⟩
  · rintro ⟨hle, hmax⟩
    refine ⟨x, ⟨hle, by omega⟩, ?_⟩
    cases sequential <;> simp

theorem kinds_nodup (maxFi : ℤ) : (kinds maxFi).Nodup := by
  unfold kinds
  rw [List.nodup_flatMap]
  refine ⟨fun x _ => by simp, ?_⟩
  refine (List.nodup_range' (s := 1) (n := maxFi.toNat)).imp fun {x y} hne k hk hk' => ?_
  simp only [List.mem_cons, List.not_mem_nil, or_false] at hk hk'
  rcases hk with rfl | rfl <;> rcases hk' with h | h <;>
    exact hne (congrArg Prod.fst h)

/-! ## Reading the lines -/

/-- What one line does to the object and to the local variables. -/
theorem readLine_spec {ang ang' : ArtNetGen} {v v' : SpecLines} {line : SpecLine}
    (h : readLine (ang, v) line = some (ang', v')) :
    v' = v.read line ∧ ang'.libs = ang.libs ∧
      ang'.masters = ang.masters ++ ang.named [line] ∧ ang'.fiDist = ang.fiDist ∧
      ang'.foDist = ang.foDist ∧ ang'.bboxDist = ang.bboxDist ∧
      ang'.edgeDist = ang.edgeDist := by
  cases line with
  | onlyUse masterName ratio =>
      simp only [readLine, Option.bind_eq_bind, Option.bind_eq_some_iff, Option.pure_def,
        Option.some.injEq, Prod.mk.injEq] at h
      obtain ⟨master, hmaster, rfl, rfl⟩ := h
      exact ⟨rfl, rfl, by simp [named, hmaster], rfl, rfl, rfl, rfl⟩
  | _ =>
      simp only [readLine, Option.some.injEq, Prod.mk.injEq] at h
      obtain ⟨rfl, rfl⟩ := h
      exact ⟨rfl, rfl, by simp [named], rfl, rfl, rfl, rfl⟩

theorem named_cons (ang : ArtNetGen) (line : SpecLine) (rest : List SpecLine) :
    ang.named (line :: rest) = ang.named [line] ++ ang.named rest := by
  rw [named, named, named, ← List.filterMap_append, List.singleton_append]

theorem named_congr {ang ang' : ArtNetGen} (h : ang'.libs = ang.libs) (spec : List SpecLine) :
    ang'.named spec = ang.named spec := by
  simp only [named, findMaster, h]

theorem foldlM_readLine_spec {ang ang' : ArtNetGen} {v v' : SpecLines} {spec : List SpecLine}
    (h : spec.foldlM readLine (ang, v) = some (ang', v')) :
    v' = spec.foldl SpecLines.read v ∧ ang'.libs = ang.libs ∧
      ang'.masters = ang.masters ++ ang.named spec ∧ ang'.fiDist = ang.fiDist ∧
      ang'.foDist = ang.foDist ∧ ang'.bboxDist = ang.bboxDist ∧
      ang'.edgeDist = ang.edgeDist := by
  induction spec generalizing ang v with
  | nil =>
      simp only [List.foldlM_nil, Option.pure_def, Option.some.injEq, Prod.mk.injEq] at h
      obtain ⟨rfl, rfl⟩ := h
      exact ⟨rfl, rfl, by simp [named], rfl, rfl, rfl, rfl⟩
  | cons line rest ih =>
      obtain ⟨⟨mid, w⟩, hmid, hrest⟩ := Loop.foldlM_cons_eq_some.mp h
      obtain ⟨rfl, hlibs, hmasters, hfi, hfo, hbbox, hedge⟩ := readLine_spec hmid
      obtain ⟨hv, hlibs', hmasters', hfi', hfo', hbbox', hedge'⟩ := ih hrest
      refine ⟨hv, hlibs'.trans hlibs, ?_, hfi'.trans hfi, hfo'.trans hfo, hbbox'.trans hbbox,
        hedge'.trans hedge⟩
      rw [hmasters', hmasters, named_congr hlibs, List.append_assoc, named_cons ang line rest]

/-- A line fails for want of a cell in the libraries only. -/
theorem foldlM_readLine_isDefined {ang ang' other : ArtNetGen} {v v' w : SpecLines}
    {spec : List SpecLine} (hlibs : other.libs = ang.libs)
    (h : spec.foldlM readLine (ang, v) = some (ang', v')) :
    ∃ s, spec.foldlM readLine (other, w) = some s := by
  induction spec generalizing ang other v w with
  | nil => exact ⟨_, rfl⟩
  | cons line rest ih =>
      obtain ⟨⟨mid, u⟩, hmid, hrest⟩ := Loop.foldlM_cons_eq_some.mp h
      have hstep : ∃ other' w', readLine (other, w) line = some (other', w') := by
        cases line with
        | onlyUse masterName ratio =>
            simp only [readLine, Option.bind_eq_bind, Option.bind_eq_some_iff] at hmid ⊢
            obtain ⟨master, hmaster, -⟩ := hmid
            unfold findMaster at hmaster
            rw [← hlibs] at hmaster
            exact ⟨_, _, master, hmaster, rfl⟩
        | _ => exact ⟨_, _, rfl⟩
      obtain ⟨other', w', hother⟩ := hstep
      have hlibs' : other'.libs = mid.libs := by
        rw [(readLine_spec hother).2.1, (readLine_spec hmid).2.1, hlibs]
      obtain ⟨s, hs⟩ := ih (w := w') hlibs' hrest
      exact ⟨s, Loop.foldlM_cons_eq_some.mpr ⟨_, hother, hs⟩⟩

/-- The tables of `ang'` are those that `init` appends to the tables of
`ang`. -/
structure Tabulated (ang : ArtNetGen) (spec : List SpecLine) (ang' : ArtNetGen) : Prop where
  fiDist : ang.fiDist.init 0 (specLines spec).maxFi (specLines spec).totInstCnt
    (specLines spec).fanIns = some ang'.fiDist
  foDist : ang.foDist.init 0 (specLines spec).maxFo (specLines spec).totInstCnt
    (specLines spec).fanOuts = some ang'.foDist
  bboxDist : ang.bboxDist.init 0 (specLines spec).maxBbox (specLines spec).totInstCnt
    (specLines spec).netBboxes = some ang'.bboxDist
  edgeDist : ∃ avg, ang'.fiDist.targetAvg = some avg ∧
    ang.edgeDist.init 0 (specLines spec).maxWindow ⌈((specLines spec).totInstCnt : ℚ) * avg⌉
      (specLines spec).windows = some ang'.edgeDist

theorem readSpec_spec {ang ang' : ArtNetGen} {spec : List SpecLine}
    (h : ang.readSpec spec = some ang') :
    ang'.libs = ang.libs ∧ ang'.masters = ang.masters ++ ang.named spec ∧
      Tabulated ang spec ang' := by
  simp only [readSpec, Option.bind_eq_bind, Option.bind_eq_some_iff, Option.pure_def,
    Option.some.injEq] at h
  obtain ⟨⟨mid, v⟩, hlines, fiDist, hfi, foDist, hfo, bboxDist, hbbox, avg, havg, edgeDist,
    hedge, rfl⟩ := h
  obtain ⟨rfl, hlibs, hmasters, hfi', hfo', hbbox', hedge'⟩ := foldlM_readLine_spec hlines
  rw [hfi'] at hfi
  rw [hfo'] at hfo
  rw [hbbox'] at hbbox
  rw [hedge'] at hedge
  exact ⟨hlibs, hmasters, hfi, hfo, hbbox, avg, havg, hedge⟩

/-- The object as `init` leaves it. -/
theorem init_spec {ang ang' : ArtNetGen} {spec : List SpecLine}
    (h : ang.init spec = some ang') :
    Tabulated ang spec ang' ∧
      ang'.masters = (kinds ang'.fiDist.xMax).flatMap
        (selection (ang.masters ++ ang.named spec) ang.available) := by
  simp only [init, Option.bind_eq_bind, Option.bind_eq_some_iff] at h
  obtain ⟨mid, hmid, hcheck⟩ := h
  obtain ⟨hlibs, hmasters, htables⟩ := readSpec_spec hmid
  rw [checkMasters_eq, Option.some.injEq] at hcheck
  subst hcheck
  refine ⟨⟨htables.fiDist, htables.foDist, htables.bboxDist, htables.edgeDist⟩, ?_⟩
  have havailable : mid.available = ang.available := by simp only [available, findMaster, hlibs]
  rw [hmasters, havailable]

/-! ## The fresh object -/

def fresh (ang : ArtNetGen) : ArtNetGen := { libs := ang.libs }

theorem readSpec_fresh_isDefined {ang ang' : ArtNetGen} {spec : List SpecLine}
    (hfi : ang.fiDist.info = []) (hfo : ang.foDist.info = []) (hbbox : ang.bboxDist.info = [])
    (hedge : ang.edgeDist.info = []) (h : ang.readSpec spec = some ang') :
    ∃ other, ang.fresh.readSpec spec = some other := by
  have htables := (readSpec_spec h).2.2
  obtain ⟨avg, havg, hedge'⟩ := htables.edgeDist
  have hfi' := htables.fiDist
  have hfo' := htables.foDist
  have hbbox' := htables.bboxDist
  rw [Distribution.init_of_empty hfi] at hfi'
  rw [Distribution.init_of_empty hfo] at hfo'
  rw [Distribution.init_of_empty hbbox] at hbbox'
  rw [Distribution.init_of_empty hedge] at hedge'
  simp only [readSpec, Option.bind_eq_bind, Option.bind_eq_some_iff] at h
  obtain ⟨⟨mid, v⟩, hlines, -⟩ := h
  obtain ⟨⟨other, w⟩, hother⟩ :=
    foldlM_readLine_isDefined (show ang.fresh.libs = ang.libs from rfl) (w := {}) hlines
  obtain ⟨rfl, -, -, hf, hg, hb, he⟩ := foldlM_readLine_spec hother
  simp only [readSpec, Option.bind_eq_bind, Option.bind_eq_some_iff]
  refine ⟨_, (other, _), hother, ang'.fiDist, ?_, ang'.foDist, ?_, ang'.bboxDist, ?_, avg, havg,
    ang'.edgeDist, ?_, rfl⟩
  · rw [hf]; exact hfi'
  · rw [hg]; exact hfo'
  · rw [hb]; exact hbbox'
  · rw [he]; exact hedge'

theorem init_isDefined_of_readSpec {ang mid : ArtNetGen} {spec : List SpecLine}
    (h : ang.readSpec spec = some mid) : ∃ ang', ang.init spec = some ang' := by
  unfold init
  rw [h, Option.bind_eq_bind, Option.bind_some, checkMasters_eq]
  exact ⟨_, rfl⟩

/-- The members named by the tables and the cells are those of a fresh
object. -/
def AsFresh (ang : ArtNetGen) (spec : List SpecLine) (ang' : ArtNetGen) : Prop :=
  ∃ other, ang.fresh.init spec = some other ∧ ang'.masters = other.masters ∧
    ang'.fiDist = other.fiDist ∧ ang'.foDist = other.foDist ∧
    ang'.bboxDist = other.bboxDist ∧ ang'.edgeDist = other.edgeDist

/-- One entry for each value up to the maximum, under its value. -/
def Indexed (d : Distribution) : Prop :=
  (d.info.length : ℤ) = d.xMax + 1 ∧ ∀ x (entry : DistributionInfo),
    d.info[x]? = some entry → entry.value = x

/-- A fan-in for which `checkMasters` keeps cells. -/
def InRange (spec : List SpecLine) (x : ℕ) : Prop :=
  1 ≤ x ∧ ∃ line ∈ spec, ∃ value, line.faninValue = some value ∧ x ≤ value

/-- The tables are empty and the spec has a line for each of them; for every
kind and fan-in in use there are no cells from before, or only those that the
libraries give when no `ONLY_USE` line names one; and no cell is named or found
twice where it is used. -/
structure Restartable (ang : ArtNetGen) (spec : List SpecLine) : Prop where
  empty : ang.fiDist.info = [] ∧ ang.foDist.info = [] ∧ ang.bboxDist.info = [] ∧
    ang.edgeDist.info = []
  lines : (∃ line ∈ spec, line.faninValue.isSome) ∧ (∃ line ∈ spec, line.fanoutValue.isSome) ∧
    (∃ line ∈ spec, line.netbboxValue.isSome) ∧ ∃ line ∈ spec, line.windowValue.isSome
  earlier : ∀ x sequential, InRange spec x →
    ang.masters.filter (MasterInfo.isIn sequential x) = [] ∨
      ((ang.named spec).filter (MasterInfo.isIn sequential x) = [] ∧
        ang.masters.filter (MasterInfo.isIn sequential x) =
          ang.available.filter (MasterInfo.isIn sequential x))
  namedOnce : ∀ x sequential, InRange spec x →
    (((ang.named spec).filter (MasterInfo.isIn sequential x)).map (·.master)).Nodup
  foundOnce : ∀ x sequential, InRange spec x →
    (ang.named spec).filter (MasterInfo.isIn sequential x) = [] →
      ((ang.available.filter (MasterInfo.isIn sequential x)).map (·.master)).Nodup

theorem maxFi_read (v : SpecLines) (line : SpecLine) :
    (v.read line).maxFi = match line.faninValue with
      | some value => max (value : ℤ) v.maxFi
      | none => v.maxFi := by
  cases line <;> rfl

theorem maxFo_read (v : SpecLines) (line : SpecLine) :
    (v.read line).maxFo = match line.fanoutValue with
      | some value => max (value : ℤ) v.maxFo
      | none => v.maxFo := by
  cases line <;> rfl

theorem maxBbox_read (v : SpecLines) (line : SpecLine) :
    (v.read line).maxBbox = match line.netbboxValue with
      | some value => max (value : ℤ) v.maxBbox
      | none => v.maxBbox := by
  cases line <;> rfl

theorem maxWindow_read (v : SpecLines) (line : SpecLine) :
    (v.read line).maxWindow = match line.windowValue with
      | some value => max (value : ℤ) v.maxWindow
      | none => v.maxWindow := by
  cases line <;> rfl

theorem le_maxFi_iff {spec : List SpecLine} {k : ℤ} (hk : intMin < k) :
    k ≤ (specLines spec).maxFi ↔
      ∃ line ∈ spec, ∃ value, line.faninValue = some value ∧ k ≤ (value : ℤ) :=
  le_top_iff maxFi_read rfl hk spec

theorem mem_kinds_maxFi {spec : List SpecLine} {k : ℕ × Bool} :
    k ∈ kinds (specLines spec).maxFi ↔ InRange spec k.1 := by
  have hmin : intMin < (k.1 : ℤ) := by simp only [intMin]; omega
  rw [mem_kinds, le_maxFi_iff hmin]
  simp only [Nat.cast_le, InRange]

/-- A table whose maximum comes from lines of its kind has entries under their
values exactly when it was empty and there is such a line. -/
theorem indexed_iff {top : SpecLines → ℤ} {valueOf : SpecLine → Option ℕ}
    (htop : ∀ v line, top (v.read line) =
      match valueOf line with | some value => max (value : ℤ) (top v) | none => top v)
    (hstart : top {} = intMin) {spec : List SpecLine} {d d' : Distribution} {totalCnt : ℤ}
    {lines : List DistributionInfo} (hempty : d.info = [])
    (h : d.init 0 (top (specLines spec)) totalCnt lines = some d') :
    Indexed d' ↔ ∃ line ∈ spec, (valueOf line).isSome := by
  have hlen := Distribution.init_length h
  have hxMax := Distribution.init_xMax h
  have hnonneg := le_top_iff (k := 0) htop hstart (by decide) spec
  have hline : (∃ line ∈ spec, (valueOf line).isSome) ↔ 0 ≤ top (specLines spec) := by
    rw [hnonneg]
    simp [Option.isSome_iff_exists]
  have habove := le_top_iff (k := -1) htop hstart (by decide) spec
  have hat : -1 ≤ top (specLines spec) → 0 ≤ top (specLines spec) := by
    intro hle
    obtain ⟨line, hmem, value, hvalue, -⟩ := habove.mp hle
    exact hnonneg.mpr ⟨line, hmem, value, hvalue, Int.natCast_nonneg value⟩
  rw [hempty, List.length_nil] at hlen
  rw [hline]
  constructor
  · rintro ⟨hcount, -⟩
    rw [hxMax] at hcount
    exact hat (by omega)
  · intro hmax
    refine ⟨by rw [hlen, hxMax, Nat.zero_add, Int.toNat_of_nonneg (by linarith)],
      fun x info hinfo => ?_⟩
    have hvalues := Distribution.init_values h
    rw [hempty, List.map_nil, List.nil_append] at hvalues
    have hx := congrArg (fun values => values[x]?) hvalues
    have hlt : x < d'.info.length := (List.getElem?_eq_some_iff.mp hinfo).1
    have hlt' : x < (top (specLines spec) + 1).toNat := by rwa [hlen, Nat.zero_add] at hlt
    simpa [hinfo, hlt'] using hx

theorem empty_of_init {d d' other : Distribution} {max totalCnt totalCnt' : ℤ}
    {lines : List DistributionInfo} (h : d.init 0 max totalCnt lines = some d')
    (h' : Distribution.init {} 0 max totalCnt' lines = some other) (heq : d' = other) :
    d.info = [] := by
  have hlen := Distribution.init_length h
  have hlen' := Distribution.init_length h'
  have hnil : ({} : Distribution).info.length = 0 := rfl
  rw [heq] at hlen
  exact List.eq_nil_of_length_eq_zero (by omega)

theorem selection_append_eq_iff {earlier only total : List MasterInfo} {k : ℕ × Bool} :
    selection (earlier ++ only) total k = selection only total k ↔
      earlier.filter (MasterInfo.isIn k.2 k.1) = [] ∨
        (only.filter (MasterInfo.isIn k.2 k.1) = [] ∧
          earlier.filter (MasterInfo.isIn k.2 k.1) = total.filter (MasterInfo.isIn k.2 k.1)) := by
  rw [selection, selection, List.filter_append]
  by_cases hearlier : earlier.filter (MasterInfo.isIn k.2 k.1) = []
  · simp [hearlier]
  · by_cases honly : only.filter (MasterInfo.isIn k.2 k.1) = []
    · simp [hearlier, honly]
    · simp [hearlier, honly]

theorem nodup_selection_iff {only total : List MasterInfo} {k : ℕ × Bool} :
    ((selection only total k).map (·.master)).Nodup ↔
      ((only.filter (MasterInfo.isIn k.2 k.1)).map (·.master)).Nodup ∧
        (only.filter (MasterInfo.isIn k.2 k.1) = [] →
          ((total.filter (MasterInfo.isIn k.2 k.1)).map (·.master)).Nodup) := by
  unfold selection
  by_cases honly : only.filter (MasterInfo.isIn k.2 k.1) = []
  · simp [honly]
  · simp [honly]

theorem kindOf_eq_of_master {info info' : MasterInfo} (h : info.master = info'.master) :
    kindOf info = kindOf info' := by
  rw [kindOf, kindOf, h]

/-- Running `init` on a used object gives what it gives on a fresh one, with no
cell twice and full tables, exactly when the object and the spec meet
`Restartable`. -/
theorem init_idempotent_iff (ang ang' : ArtNetGen) (spec : List SpecLine)
    (h : ang.init spec = some ang') :
    (AsFresh ang spec ang' ∧ (ang'.masters.map (·.master)).Nodup ∧ Indexed ang'.fiDist ∧
        Indexed ang'.foDist ∧ Indexed ang'.bboxDist ∧ Indexed ang'.edgeDist) ↔
      Restartable ang spec := by
  obtain ⟨htables, hmasters⟩ := init_spec h
  obtain ⟨avg, havg, hedge⟩ := htables.edgeDist
  rw [Distribution.init_xMax htables.fiDist] at hmasters
  have hkind : ∀ only, ∀ k ∈ kinds (specLines spec).maxFi,
      ∀ info ∈ selection only ang.available k, kindOf info = k :=
    fun _ _ _ _ hinfo => kindOf_of_mem_selection hinfo
  constructor
  · rintro ⟨⟨other, hother, hm, hfi, hfo, hbbox, he⟩, hnodup, ifi, ifo, ibbox, iedge⟩
    obtain ⟨otables, omasters⟩ := init_spec hother
    obtain ⟨avg', -, oedge⟩ := otables.edgeDist
    rw [Distribution.init_xMax otables.fiDist] at omasters
    have efi := empty_of_init htables.fiDist otables.fiDist hfi
    have efo := empty_of_init htables.foDist otables.foDist hfo
    have ebbox := empty_of_init htables.bboxDist otables.bboxDist hbbox
    have eedge := empty_of_init hedge oedge he
    have hnamed : ang.fresh.masters ++ ang.fresh.named spec = ang.named spec := rfl
    rw [hnamed] at omasters
    have hfiles := (Filing.flatMap_eq_iff (kinds_nodup _) (hkind _) (hkind _)).mp
      ((hmasters.symm.trans hm).trans omasters)
    have honce := (Filing.nodup_map_flatMap_iff (·.master) (fun _ _ => kindOf_eq_of_master)
      (kinds_nodup _) (hkind (ang.named spec))).mp (by rwa [hm, omasters] at hnodup)
    refine ⟨⟨efi, efo, ebbox, eedge⟩,
      ⟨(indexed_iff maxFi_read rfl efi htables.fiDist).mp ifi,
        (indexed_iff maxFo_read rfl efo htables.foDist).mp ifo,
        (indexed_iff maxBbox_read rfl ebbox htables.bboxDist).mp ibbox,
        (indexed_iff maxWindow_read rfl eedge hedge).mp iedge⟩, ?_, ?_, ?_⟩
    · intro x sequential hx
      exact selection_append_eq_iff.mp (hfiles (x, sequential) (mem_kinds_maxFi.mpr hx))
    · intro x sequential hx
      exact (nodup_selection_iff.mp (honce (x, sequential) (mem_kinds_maxFi.mpr hx))).1
    · intro x sequential hx
      exact (nodup_selection_iff.mp (honce (x, sequential) (mem_kinds_maxFi.mpr hx))).2
  · rintro ⟨⟨efi, efo, ebbox, eedge⟩, ⟨lfi, lfo, lbbox, ledge⟩, hearlier, hnamed, hfound⟩
    have hsame : ang'.masters = (kinds (specLines spec).maxFi).flatMap
        (selection (ang.named spec) ang.available) := by
      rw [hmasters]
      apply (Filing.flatMap_eq_iff (kinds_nodup _) (hkind _) (hkind _)).mpr
      intro k hk
      exact selection_append_eq_iff.mpr (hearlier k.1 k.2 (mem_kinds_maxFi.mp hk))
    refine ⟨?_, ?_, (indexed_iff maxFi_read rfl efi htables.fiDist).mpr lfi,
      (indexed_iff maxFo_read rfl efo htables.foDist).mpr lfo,
      (indexed_iff maxBbox_read rfl ebbox htables.bboxDist).mpr lbbox,
      (indexed_iff maxWindow_read rfl eedge hedge).mpr ledge⟩
    · obtain ⟨mid, hmid, -⟩ := Option.bind_eq_some_iff.mp h
      obtain ⟨other, hread⟩ := readSpec_fresh_isDefined efi efo ebbox eedge hmid
      obtain ⟨other, hother⟩ := init_isDefined_of_readSpec hread
      obtain ⟨otables, omasters⟩ := init_spec hother
      obtain ⟨avg', oavg, oedge⟩ := otables.edgeDist
      have hfi : ang'.fiDist = other.fiDist := by
        have hnew := htables.fiDist
        rw [Distribution.init_of_empty efi] at hnew
        exact Option.some.inj (hnew.symm.trans otables.fiDist)
      have hfo : ang'.foDist = other.foDist := by
        have hnew := htables.foDist
        rw [Distribution.init_of_empty efo] at hnew
        exact Option.some.inj (hnew.symm.trans otables.foDist)
      have hbbox : ang'.bboxDist = other.bboxDist := by
        have hnew := htables.bboxDist
        rw [Distribution.init_of_empty ebbox] at hnew
        exact Option.some.inj (hnew.symm.trans otables.bboxDist)
      rw [Distribution.init_xMax otables.fiDist] at omasters
      rw [hfi, oavg, Option.some.injEq] at havg
      rw [Distribution.init_of_empty eedge, ← havg] at hedge
      exact ⟨other, hother, hsame.trans omasters.symm, hfi, hfo, hbbox,
        Option.some.inj (hedge.symm.trans oedge)⟩
    · rw [hsame]
      refine (Filing.nodup_map_flatMap_iff (·.master) (fun _ _ => kindOf_eq_of_master)
        (kinds_nodup _) (hkind _)).mpr fun k hk => nodup_selection_iff.mpr ⟨?_, ?_⟩
      · exact hnamed k.1 k.2 (mem_kinds_maxFi.mp hk)
      · exact hfound k.1 k.2 (mem_kinds_maxFi.mp hk)

end ArtNetGen

/-! A spec that names one cell, read once and then a second time. -/

def inverter : DbMaster where
  name := "INV"
  mTerms := [⟨"A", .signal, .input⟩, ⟨"Z", .signal, .output⟩]
  nodup := DbMaster.nodup_inOut

def inverterSpec : List SpecLine :=
  [.onlyUse "INV" (1 / 2), .fanin 0 2 (1 / 2), .fanin 1 2 (1 / 2), .fanout 0 2 (1 / 2),
    .fanout 1 2 (1 / 2), .netbbox 0 4 1, .window 0 2 1]

def onceAng : ArtNetGen :=
  (ArtNetGen.init { libs := [[inverter]] } inverterSpec).get (by decide +kernel)

def twiceAng : ArtNetGen := (onceAng.init inverterSpec).get (by decide +kernel)

theorem twiceAng_repeats :
    ArtNetGen.init { libs := [[inverter]] } inverterSpec = some onceAng ∧
      onceAng.init inverterSpec = some twiceAng ∧
      onceAng.masters.map (fun info => info.master.name) = ["INV"] ∧
      twiceAng.masters.map (fun info => info.master.name) = ["INV", "INV"] ∧
      (twiceAng.setDontUse "INV").masters.map (fun info => info.master.name) = ["INV"] ∧
      onceAng.fiDist.info.map (·.value) = [0, 1] ∧
      twiceAng.fiDist.info.map (·.value) = [0, 1, 0, 1] :=
  ⟨(Option.some_get _).symm, (Option.some_get _).symm, by decide +kernel, by decide +kernel,
    by decide +kernel, by decide +kernel, by decide +kernel⟩

theorem ArtNetGen.init_idempotent_iff_twice : ¬ onceAng.Restartable inverterSpec :=
  fun hrestart => absurd
    ((ArtNetGen.init_idempotent_iff onceAng twiceAng inverterSpec
      (Option.some_get _).symm).mpr hrestart).2.2.1.1 (by decide +kernel)

end Artnetgen
