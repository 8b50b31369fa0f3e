import ArtNetGen.CreateSpec
import ArtNetGen.Extract
import ArtNetGen.Library.Stream

/-!
The spec file as a text. `createSpec` and `writeSpec` put its lines into a stream,
reals with six digits; `readSpec` takes them apart again item by item.
-/

namespace Artnetgen

open Decimal Stream

/-- How a stream prints reals: how it rounds, and what it prints for a quotient
by 0. -/
structure Printer where
  rounding : Rounding
  undefined : ℚ → List Char
  isUndefined : ∀ a, String.ofList (undefined a) ∈ ["nan", "-nan", "inf", "-inf"]

/-- The precision of a stream that nobody has set. -/
def precision : ℕ := 6

theorem precision_pos : 0 < precision := by decide

/-- The double that is printed for a real. -/
def Printer.double (pr : Printer) (x : ℚ) : ℚ := pr.rounding.nearest precision x

inductive SpecItem where
  | word (w : String)
  | int (n : ℤ)
  | double (x : ℚ)
  | quotient (a b : ℚ)

def SpecItem.print (pr : Printer) : SpecItem → List Char
  | .word w => w.toList
  | .int n => printInt n
  | .double x => printRat pr.rounding precision x
  | .quotient a b => if b = 0 then pr.undefined a else printRat pr.rounding precision (a / b)

/-- What is put into the stream in front of an `endl`, a blank in front of each
item. -/
structure SpecRow where
  key : String
  items : List SpecItem

def printItems (pr : Printer) (items : List SpecItem) : List Char :=
  items.flatMap fun item => ' ' :: item.print pr

def SpecRow.print (pr : Printer) (row : SpecRow) : List Char :=
  row.key.toList ++ printItems pr row.items

def specText (pr : Printer) (rows : List SpecRow) : String :=
  String.ofList ((rows.map (SpecRow.print pr)).flatMap fun line => line ++ ['\n'])

/-! ## The writers -/

/-- `for(x = 0; x <= max; x++)` over one distribution. -/
def histogramRows (key : String) (dist : ℕ → ℤ) (max : ℕ) (total : ℤ) : List SpecRow :=
  (List.range (max + 1)).map fun x : ℕ => ⟨key, [.int x, .int (dist x), .quotient (dist x) total]⟩

/-- The mean of the lines of one distribution. -/
def averageItem (dist : ℕ → ℤ) (max : ℕ) : SpecItem :=
  .quotient ((List.range (max + 1)).map fun x : ℕ => (x : ℚ) * dist x).sum
    ((List.range (max + 1)).map dist).sum

/-- The lines of `createSpec`. -/
def SpecRequest.rows (r : SpecRequest) (ang : ArtNetGen) (order : Iteration String)
    (avgGateDelay : ℚ)
    (faninDistribution fanoutDistribution bboxDistribution edgelenDistribution : ℕ → ℤ) :
    List SpecRow :=
  let found := r.onlyUse.filter fun line => (ang.findMaster line.1).isSome
  let counts : String → ℤ := found.foldl (fun counts line =>
    Function.update counts line.1 line.2) fun _ => 0
  [⟨"CELL_COUNT", [.int r.numInsts]⟩, ⟨"COMB_RATIO", [.double r.combRatio]⟩,
      ⟨"IPAD_COUNT", [.int (r.numIOs.tdiv 2)]⟩, ⟨"OPAD_COUNT", [.int (r.numIOs.tdiv 2)]⟩,
      ⟨"AVG_FANIN", [.double r.avgNetDeg]⟩, ⟨"AVG_FANOUT", [.double r.avgNetDeg]⟩,
      ⟨"AVG_BBOX", [.double r.avgBbox]⟩, ⟨"AVG_EDGELEN", [.double r.avgBbox]⟩,
      ⟨"AVG_TOPO_ORDER", [.double r.avgTopoOrder]⟩, ⟨"AVG_GATE_DELAY", [.double avgGateDelay]⟩] ++
    (order.1 (found.map Prod.fst).dedup).map (fun name =>
      ⟨"ONLY_USE", [.word name, .int (counts name), .quotient (counts name) r.numInsts]⟩) ++
    histogramRows "FANIN" faninDistribution ang.specMaxFanins r.numInsts ++
    histogramRows "FANOUT" fanoutDistribution specMaxFanouts r.numInsts ++
    histogramRows "NETBBOX" bboxDistribution (specMaxBbox r.numInsts) r.numInsts ++
    histogramRows "WINDOW" edgelenDistribution (specMaxBbox r.numInsts) r.numEdges

/-- The lines of `writeSpec`. -/
def Extraction.rows (s : Extraction) (ang : ArtNetGen) (b : DbBlock) (order : Iteration String)
    (avgGateDelay avgTopoOrder : ℚ) : List SpecRow :=
  let numInsts := b.insts.length
  let maxBbox := specMaxBbox numInsts
  (order.1 b.masterNames).map (fun name => ⟨"ONLY_USE",
      [.word name, .int (s.onlyUseMasters name), .quotient (s.onlyUseMasters name) numInsts]⟩) ++
    histogramRows "FANIN" (fun x => s.faninDistribution x) ang.specMaxFanins numInsts ++
    histogramRows "FANOUT" (fun x => s.fanoutDistribution x) specMaxFanouts numInsts ++
    histogramRows "NETBBOX" (fun x => s.bboxDistribution x) maxBbox numInsts ++
    histogramRows "WINDOW" (fun x => s.edgelenDistribution x) maxBbox s.numEdges ++
    [⟨"CELL_COUNT", [.int numInsts]⟩, ⟨"COMB_RATIO", [.quotient s.numCombinational numInsts]⟩,
      ⟨"IPAD_COUNT", [.int (b.numBTerms .input)]⟩, ⟨"OPAD_COUNT", [.int (b.numBTerms .output)]⟩,
      ⟨"AVG_FANIN", [averageItem (fun x => s.faninDistribution x) ang.specMaxFanins]⟩,
      ⟨"AVG_FANOUT", [averageItem (fun x => s.fanoutDistribution x) specMaxFanouts]⟩,
      ⟨"AVG_BBOX", [averageItem (fun x => s.bboxDistribution x) maxBbox]⟩,
      ⟨"AVG_EDGELEN", [averageItem (fun x => s.edgelenDistribution x) maxBbox]⟩,
      ⟨"AVG_GATE_DELAY", [.double avgGateDelay]⟩, ⟨"AVG_TOPO_ORDER", [.double avgTopoOrder]⟩]

/-- The text that `writeSpec` writes. -/
def ArtNetGen.writeSpecText (ang : ArtNetGen) (pr : Printer) (b : DbBlock)
    (order : Iteration String) (avgGateDelay : ℚ) : Option String := do
  let s ← b.extract
  let avgTopoOrder ← b.analyzeTopologicalOrder
  return specText pr (s.rows ang b order avgGateDelay avgTopoOrder)

/-! ## The reader -/

/-- `ss >> value >> target >> ratio`. To a negative value a table is padded without
end. -/
def readBucket (mk : ℕ → ℤ → ℚ → SpecLine) (ss : State) : Option SpecLine := do
  let (value, ss) ← int intMin intMax ss
  let (target, ss) ← int intMin intMax ss
  let (ratio, _) ← double ss
  if value < 0 then none else some (mk value.toNat target ratio)

/-- The branches of `readSpec`. The value behind `CELL_COUNT` is not used. -/
def readMode (modeStr : String) (ss : State) : Option SpecLine :=
  match modeStr with
  | "CELL_COUNT" => some (.cellCount (((int intMin intMax ss).map Prod.fst).getD 0))
  | "COMB_RATIO" => (double ss).map fun value => .combRatio value.1
  | "ONLY_USE" => (double (word ss).2).map fun ratio => .onlyUse (word ss).1 ratio.1
  | "FANIN" => readBucket .fanin ss
  | "FANOUT" => readBucket .fanout ss
  | "WINDOW" => readBucket .window ss
  | "NETBBOX" => readBucket .netbbox ss
  | "IPAD_COUNT" => (int intMin intMax ss).map fun value => .ipadCount value.1
  | "OPAD_COUNT" => (int intMin intMax ss).map fun value => .opadCount value.1
  | "AVG_GATE_DELAY" => (double ss).map fun value => .avgGateDelay value.1
  | "AVG_TOPO_ORDER" => (double ss).map fun value => .avgTopoOrder value.1
  | _ => some .other

def parseLine (line : List Char) : Option SpecLine :=
  readMode (word ⟨line, true⟩).1 (word ⟨line, true⟩).2

def parseSpec (text : String) : Option (List SpecLine) := (getlines text.toList).mapM parseLine

variable {pr : Printer} {rest : List Char} {n : ℤ} {x a b : ℚ} {items : List SpecItem}

theorem Printer.undefined_cases (pr : Printer) (a : ℚ) :
    pr.undefined a = "nan".toList ∨ pr.undefined a = "-nan".toList ∨
      pr.undefined a = "inf".toList ∨ pr.undefined a = "-inf".toList := by
  have hmem := pr.isUndefined a
  simp only [List.mem_cons, List.not_mem_nil, or_false] at hmem
  rcases hmem with h | h | h | h
  · exact Or.inl (by rw [← h, String.toList_ofList])
  · exact Or.inr (Or.inl (by rw [← h, String.toList_ofList]))
  · exact Or.inr (Or.inr (Or.inl (by rw [← h, String.toList_ofList])))
  · exact Or.inr (Or.inr (Or.inr (by rw [← h, String.toList_ofList])))

theorem Printer.isWord_undefined (pr : Printer) (a : ℚ) : IsWord (pr.undefined a) := by
  rcases pr.undefined_cases a with h | h | h | h <;> rw [h] <;> decide

/-- It is read as 0, as the quotient is here. -/
theorem Printer.readRat_undefined (pr : Printer) (a : ℚ) (rest : List Char) :
    readRat (pr.undefined a ++ rest) = none := by
  rcases pr.undefined_cases a with h | h | h | h <;> rw [h] <;> rfl

/-- No item is empty or has a blank in it. -/
def SpecItem.IsSolid : SpecItem → Prop
  | .word w => IsWord w.toList
  | _ => True

theorem SpecItem.IsSolid.isWord {item : SpecItem} (h : item.IsSolid) (pr : Printer) :
    IsWord (item.print pr) := by
  cases item with
  | word w => exact h
  | int n => exact isWord_printInt n
  | double x => exact isWord_printRat _ precision_pos x
  | quotient a b =>
      rw [SpecItem.print]
      split
      · exact pr.isWord_undefined a
      · exact isWord_printRat _ precision_pos _

theorem blank_printItems (pr : Printer) (items : List SpecItem) : Blank (printItems pr items) := by
  cases items with
  | nil => exact .nil
  | cons item items => exact .space _

theorem printItems_cons (pr : Printer) (item : SpecItem) (items : List SpecItem) :
    printItems pr (item :: items) = ' ' :: (item.print pr ++ printItems pr items) := rfl

theorem int_item (hlow : intMin ≤ n) (hhigh : n ≤ intMax) :
    int intMin intMax ⟨printItems pr (.int n :: items), true⟩ =
      some (n, ⟨printItems pr items, true⟩) :=
  int_printInt hlow hhigh (blank_printItems pr items)

theorem double_item :
    Stream.double ⟨printItems pr (.double x :: items), true⟩ =
      some (pr.double x, ⟨printItems pr items, true⟩) :=
  double_printRat _ precision_pos x (blank_printItems pr items)

theorem double_int_item :
    Stream.double ⟨printItems pr (.int n :: items), true⟩ =
      some ((n : ℚ), ⟨printItems pr items, true⟩) :=
  double_printInt n (blank_printItems pr items)

theorem double_quotient_item :
    (Stream.double ⟨printItems pr (.quotient a b :: items), true⟩).map Prod.fst =
      some (pr.double (a / b)) := by
  rw [printItems_cons, SpecItem.print]
  split
  · next hzero =>
      rw [double_none (pr.isWord_undefined a) (pr.readRat_undefined a _), hzero, div_zero,
        Printer.double, Rounding.nearest_zero]
      rfl
  · rw [double_printRat _ precision_pos _ (blank_printItems pr items)]
    rfl

theorem word_item {w : String} (h : IsWord w.toList) :
    word ⟨printItems pr (.word w :: items), true⟩ = (w, ⟨printItems pr items, true⟩) := by
  have hspace : ∀ c ∈ [' '], isSpace c = true := List.forall_mem_singleton.mpr rfl
  have hword := word_append h hspace (blank_printItems pr items)
  rwa [String.ofList_toList] at hword

/-! ## Rows -/

/-- The reader makes this line of the row. -/
structure SpecRow.IsRead (pr : Printer) (row : SpecRow) (line : SpecLine) : Prop where
  solid : '\n' ∉ row.print pr
  parse : parseLine (row.print pr) = some line

theorem not_mem_of_isWord {w : List Char} (h : IsWord w) : '\n' ∉ w := by
  intro hmem
  have hsolid := h.solid '\n' hmem
  revert hsolid
  decide

/-- A row is read by what its key asks for. -/
theorem SpecRow.isRead {row : SpecRow} {line : SpecLine} (hkey : IsWord row.key.toList)
    (hitems : ∀ item ∈ row.items, item.IsSolid)
    (hread : readMode row.key ⟨printItems pr row.items, true⟩ = some line) :
    row.IsRead pr line := by
  refine ⟨?_, ?_⟩
  · unfold SpecRow.print printItems
    intro hmem
    rcases List.mem_append.mp hmem with hmem | hmem
    · exact not_mem_of_isWord hkey hmem
    · obtain ⟨item, hitem, hmem⟩ := List.mem_flatMap.mp hmem
      rcases List.mem_cons.mp hmem with heq | hmem
      · cases heq
      · exact not_mem_of_isWord ((hitems item hitem).isWord pr) hmem
  · have hnone : ∀ c ∈ ([] : List Char), isSpace c = true := by simp
    have hword := word_append hkey hnone (blank_printItems pr row.items)
    rw [List.nil_append, String.ofList_toList] at hword
    unfold parseLine SpecRow.print
    rw [hword]
    exact hread

theorem parseSpec_specText {rows : List SpecRow} {lines : List SpecLine}
    (h : List.Forall₂ (SpecRow.IsRead pr) rows lines) :
    parseSpec (specText pr rows) = some lines := by
  have hlines : getlines (specText pr rows).toList = rows.map (SpecRow.print pr) := by
    unfold specText
    rw [String.toList_ofList]
    apply getlines_flatMap
    intro line hline
    obtain ⟨row, hrow, rfl⟩ := List.mem_map.mp hline
    induction h with
    | nil => cases hrow
    | cons hread _ ih =>
        rcases List.mem_cons.mp hrow with rfl | hrow
        · exact hread.solid
        · exact ih hrow (List.mem_map_of_mem hrow)
  unfold parseSpec
  rw [hlines]
  clear hlines
  induction h with
  | nil => rfl
  | cons hread _ ih =>
      rw [List.map_cons, List.mapM_cons, hread.parse, ih]
      rfl

/-- What the reader makes of a line that has been written. Behind `ONLY_USE` it
takes the count, which is written first, for the ratio. -/
def SpecLine.readAs (pr : Printer) (numInsts : ℕ) : SpecLine → SpecLine
  | .combRatio value => .combRatio (pr.double value)
  | .onlyUse masterName ratio => .onlyUse masterName (ratio * numInsts)
  | .fanin value target ratio => .fanin value target (pr.double ratio)
  | .fanout value target ratio => .fanout value target (pr.double ratio)
  | .window value target ratio => .window value target (pr.double ratio)
  | .netbbox value target ratio => .netbbox value target (pr.double ratio)
  | .avgGateDelay value => .avgGateDelay (pr.double value)
  | .avgTopoOrder value => .avgTopoOrder (pr.double value)
  | line => line

theorem readBucket_items {mk : ℕ → ℤ → ℚ → SpecLine} {value : ℕ} {cnt : ℤ}
    (hvalue : (value : ℤ) ≤ intMax) (hlow : intMin ≤ cnt) (hhigh : cnt ≤ intMax) :
    readBucket mk ⟨printItems pr [.int value, .int cnt, .quotient a b], true⟩ =
      some (mk value cnt (pr.double (a / b))) := by
  have hmin : intMin ≤ (value : ℤ) := by
    unfold intMin
    omega
  obtain ⟨⟨ratio, ss⟩, hratio, heq⟩ := Option.map_eq_some_iff.mp
    (@double_quotient_item pr a b [])
  obtain rfl : ratio = pr.double (a / b) := heq
  unfold readBucket
  simp only [Option.bind_eq_bind, int_item hmin hvalue, int_item hlow hhigh, Option.bind_some,
    hratio]
  rw [if_neg (by omega), Int.toNat_natCast]

theorem forall₂_map {α : Type*} {R : SpecRow → SpecLine → Prop} {row : α → SpecRow}
    {line : α → SpecLine} {l : List α} (h : ∀ x ∈ l, R (row x) (line x)) :
    List.Forall₂ R (l.map row) (l.map line) := by
  rw [List.forall₂_map_left_iff, List.forall₂_map_right_iff, List.forall₂_same]
  exact h

/-- The rows of a histogram are read as its lines. -/
theorem histogramRows_isRead {key : String} {mk : ℕ → ℤ → ℚ → SpecLine} {dist : ℕ → ℤ} {max n : ℕ}
    {total : ℤ} (hkey : IsWord key.toList) (hmode : ∀ ss, readMode key ss = readBucket mk ss)
    (hround : ∀ value target ratio,
      (mk value target ratio).readAs pr n = mk value target (pr.double ratio))
    (hmax : (max : ℤ) ≤ intMax) (hdist : ∀ x, 0 ≤ dist x ∧ dist x ≤ intMax) :
    List.Forall₂ (SpecRow.IsRead pr) (histogramRows key dist max total)
      ((histogramLines mk dist max total).map (SpecLine.readAs pr n)) := by
  unfold histogramRows histogramLines
  rw [List.map_map]
  apply forall₂_map
  intro x hx
  have hle : (x : ℤ) ≤ intMax := by
    have hlt := List.mem_range.mp hx
    omega
  have hmin : intMin ≤ dist x := le_trans (by decide) (hdist x).1
  apply SpecRow.isRead hkey
  · intro item hitem
    simp only [List.mem_cons, List.not_mem_nil, or_false] at hitem
    rcases hitem with rfl | rfl | rfl <;> trivial
  · rw [hmode, readBucket_items hle hmin (hdist x).2, Function.comp_apply, hround]

theorem onlyUse_isRead {name : String} {cnt : ℤ} {n : ℕ} (hname : IsWord name.toList)
    (hn : n = 0 → cnt = 0) :
    SpecRow.IsRead pr ⟨"ONLY_USE", [.word name, .int cnt, .quotient cnt n]⟩
      ((SpecLine.onlyUse name (cnt / n)).readAs pr n) := by
  have hcnt : (cnt : ℚ) / n * n = cnt := by
    rcases Nat.eq_zero_or_pos n with hzero | hpos
    · rw [hzero, hn hzero, Int.cast_zero, zero_div, zero_mul]
    · exact div_mul_cancel₀ _ (Nat.cast_ne_zero.mpr hpos.ne')
  have hkey : IsWord "ONLY_USE".toList := by decide
  have hmode : ∀ ss, readMode "ONLY_USE" ss =
      (Stream.double (word ss).2).map fun ratio => .onlyUse (word ss).1 ratio.1 := fun _ => rfl
  apply SpecRow.isRead hkey
  · intro item hitem
    simp only [List.mem_cons, List.not_mem_nil, or_false] at hitem
    rcases hitem with rfl | rfl | rfl
    · exact hname
    · trivial
    · trivial
  · rw [hmode, word_item hname, double_int_item, Option.map_some, SpecLine.readAs, hcnt]

/-- Rows with a single number. -/
theorem int_isRead {key : String} {mk : ℤ → SpecLine} (hkey : IsWord key.toList)
    (hmode : ∀ ss, readMode key ss = (int intMin intMax ss).map fun value => mk value.1)
    (hlow : intMin ≤ n) (hhigh : n ≤ intMax) : SpecRow.IsRead pr ⟨key, [.int n]⟩ (mk n) := by
  apply SpecRow.isRead hkey
  · intro item hitem
    rw [List.mem_singleton.mp hitem]
    trivial
  · rw [hmode, int_item hlow hhigh, Option.map_some]

theorem double_isRead {key : String} {mk : ℚ → SpecLine} {item : SpecItem}
    (hkey : IsWord key.toList)
    (hmode : ∀ ss, readMode key ss = (Stream.double ss).map fun value => mk value.1)
    (hitem : item = .double x ∨ ∃ a b, item = .quotient a b ∧ x = a / b) :
    SpecRow.IsRead pr ⟨key, [item]⟩ (mk (pr.double x)) := by
  apply SpecRow.isRead hkey
  · intro item' hitem'
    rw [List.mem_singleton.mp hitem']
    rcases hitem with rfl | ⟨a, b, rfl, -⟩ <;> trivial
  · rw [hmode]
    rcases hitem with rfl | ⟨a, b, rfl, rfl⟩
    · rw [double_item, Option.map_some]
    · obtain ⟨⟨value, ss⟩, hvalue, heq⟩ := Option.map_eq_some_iff.mp
        (@double_quotient_item pr a b [])
      obtain rfl : value = pr.double (a / b) := heq
      rw [hvalue, Option.map_some]

/-- Rows that nobody reads. -/
theorem other_isRead {key : String} {item : SpecItem} (hkey : IsWord key.toList)
    (hmode : ∀ ss, readMode key ss = some .other) (hitem : item.IsSolid) :
    SpecRow.IsRead pr ⟨key, [item]⟩ .other := by
  apply SpecRow.isRead hkey
  · intro item' hitem'
    rw [List.mem_singleton.mp hitem']
    exact hitem
  · exact hmode _

theorem cellCount_isRead (hlow : intMin ≤ n) (hhigh : n ≤ intMax) :
    SpecRow.IsRead pr ⟨"CELL_COUNT", [.int n]⟩ (.cellCount n) := by
  have hkey : IsWord "CELL_COUNT".toList := by decide
  have hmode : ∀ ss, readMode "CELL_COUNT" ss =
      some (.cellCount (((int intMin intMax ss).map Prod.fst).getD 0)) := fun _ => rfl
  apply SpecRow.isRead hkey
  · intro item hitem
    rw [List.mem_singleton.mp hitem]
    trivial
  · rw [hmode, int_item hlow hhigh]
    rfl

/-! ## The files -/

theorem growDims_sum (bins fuel : ℕ) (dim : ℕ × ℕ) :
    (growDims bins fuel dim).1 + (growDims bins fuel dim).2 ≤ dim.1 + dim.2 + fuel := by
  induction fuel generalizing dim with
  | zero => exact le_rfl
  | succ fuel ih =>
      unfold growDims
      split
      · have hgrown := ih (growDim dim)
        have hstep : (growDim dim).1 + (growDim dim).2 = dim.1 + dim.2 + 1 := by
          unfold growDim
          split <;> dsimp only <;> omega
        omega
      · omega

/-- The grid is small. -/
theorem specMaxBbox_le_intMax {n : ℕ} (h : (n : ℤ) ≤ intMax) : (specMaxBbox n : ℤ) ≤ intMax := by
  have hsqrt : Nat.sqrt n < 50000 := by
    unfold intMax at h
    rw [Nat.sqrt_lt]
    omega
  have hceil : ceilSqrt n ≤ 50000 := by
    unfold ceilSqrt
    split <;> omega
  have hsum := growDims_sum (ceilSqrt n) (ceilSqrt n) (1, 1)
  have hmax : specMaxBbox n ≤ 2 + ceilSqrt n := hsum
  unfold intMax
  omega

theorem specMaxFanins_le_intMax (ang : ArtNetGen) : (ang.specMaxFanins : ℤ) ≤ intMax := by
  have hle : ang.specMaxFanins ≤ 6 := Nat.min_le_left _ _
  unfold intMax
  omega

/-- The counts of a histogram fit into an `int`. -/
def FitsInt (dist : ℕ → ℤ) : Prop := ∀ x, 0 ≤ dist x ∧ dist x ≤ intMax

theorem intMin_le_natCast (n : ℕ) : intMin ≤ (n : ℤ) := by
  unfold intMin
  omega

theorem SpecRequest.rows_isRead {r : SpecRequest} {ang : ArtNetGen} {order : Iteration String}
    {avgGateDelay : ℚ} {fanin fanout bbox edgelen : ℕ → ℤ} (hpos : 0 < r.numInsts)
    (hinsts : (r.numInsts : ℤ) ≤ intMax) (hios : |r.numIOs| ≤ intMax)
    (hnames : ∀ name, (ang.findMaster name).isSome = true → IsWord name.toList)
    (hfanin : FitsInt fanin) (hfanout : FitsInt fanout) (hbbox : FitsInt bbox)
    (hedgelen : FitsInt edgelen) :
    List.Forall₂ (SpecRow.IsRead pr) (r.rows ang order avgGateDelay fanin fanout bbox edgelen)
      ((r.lines ang order avgGateDelay fanin fanout bbox edgelen).map
        (SpecLine.readAs pr r.numInsts)) := by
  have hmaxBbox := specMaxBbox_le_intMax hinsts
  have hpads : intMin ≤ r.numIOs.tdiv 2 ∧ r.numIOs.tdiv 2 ≤ intMax := by
    have hhalf : (r.numIOs.tdiv 2).natAbs = r.numIOs.natAbs / 2 := Int.natAbs_tdiv _ _
    rw [Int.abs_eq_natAbs] at hios
    unfold intMin
    unfold intMax at hios ⊢
    omega
  unfold rows lines onlyUseLines
  simp only [List.map_append]
  refine List.rel_append (List.rel_append (List.rel_append (List.rel_append (List.rel_append
    ?_ ?_) ?_) ?_) ?_) ?_
  · refine .cons (cellCount_isRead (intMin_le_natCast _) hinsts) (.cons ?_ (.cons ?_ (.cons ?_
      (.cons ?_ (.cons ?_ (.cons ?_ (.cons ?_ (.cons ?_ (.cons ?_ .nil)))))))))
    · exact double_isRead (by decide) (fun _ => rfl) (Or.inl rfl)
    · exact int_isRead (by decide) (fun _ => rfl) hpads.1 hpads.2
    · exact int_isRead (by decide) (fun _ => rfl) hpads.1 hpads.2
    · exact other_isRead (by decide) (fun _ => rfl) trivial
    · exact other_isRead (by decide) (fun _ => rfl) trivial
    · exact other_isRead (by decide) (fun _ => rfl) trivial
    · exact other_isRead (by decide) (fun _ => rfl) trivial
    · exact double_isRead (by decide) (fun _ => rfl) (Or.inl rfl)
    · exact double_isRead (by decide) (fun _ => rfl) (Or.inl rfl)
  · rw [List.map_map]
    apply forall₂_map
    intro name hname
    have hfound := List.mem_dedup.mp ((order.2 _).mem_iff.mp hname)
    obtain ⟨item, hitem, rfl⟩ := List.mem_map.mp hfound
    exact onlyUse_isRead (hnames _ (List.mem_filter.mp hitem).2) fun hzero => absurd hzero hpos.ne'
  · exact histogramRows_isRead (by decide) (fun _ => rfl) (fun _ _ _ => rfl)
      (specMaxFanins_le_intMax ang) hfanin
  · exact histogramRows_isRead (by decide) (fun _ => rfl) (fun _ _ _ => rfl) (by decide) hfanout
  · exact histogramRows_isRead (by decide) (fun _ => rfl) (fun _ _ _ => rfl) hmaxBbox hbbox
  · exact histogramRows_isRead (by decide) (fun _ => rfl) (fun _ _ _ => rfl) hmaxBbox hedgelen

theorem Extraction.rows_isRead {s : Extraction} {ang : ArtNetGen} {b : DbBlock}
    {order : Iteration String} {avgGateDelay avgTopoOrder : ℚ}
    (hinsts : (b.insts.length : ℤ) ≤ intMax) (hterms : (b.bTerms.length : ℤ) ≤ intMax)
    (hnames : ∀ inst ∈ b.insts, IsWord inst.master.name.toList)
    (hfanin : FitsInt fun x => s.faninDistribution x)
    (hfanout : FitsInt fun x => s.fanoutDistribution x)
    (hbbox : FitsInt fun x => s.bboxDistribution x)
    (hedgelen : FitsInt fun x => s.edgelenDistribution x) :
    List.Forall₂ (SpecRow.IsRead pr) (s.rows ang b order avgGateDelay avgTopoOrder)
      ((s.lines ang b order avgGateDelay avgTopoOrder).map
        (SpecLine.readAs pr b.insts.length)) := by
  have hmaxBbox := specMaxBbox_le_intMax hinsts
  have hpads : ∀ ioType, (b.numBTerms ioType : ℤ) ≤ intMax := by
    intro ioType
    have hcount : b.numBTerms ioType ≤ b.signalBTerms.length := List.countP_le_length
    have hfilter : b.signalBTerms.length ≤ b.bTerms.length := List.length_filter_le _ _
    omega
  unfold rows lines
  simp only [List.map_append]
  refine List.rel_append (List.rel_append (List.rel_append (List.rel_append (List.rel_append
    ?_ ?_) ?_) ?_) ?_) ?_
  · rw [List.map_map]
    apply forall₂_map
    intro name hname
    have hmem := List.mem_dedup.mp ((order.2 _).mem_iff.mp hname)
    obtain ⟨inst, hinst, rfl⟩ := List.mem_map.mp hmem
    apply onlyUse_isRead (hnames inst hinst)
    intro hzero
    rw [List.eq_nil_of_length_eq_zero hzero] at hinst
    cases hinst
  · exact histogramRows_isRead (by decide) (fun _ => rfl) (fun _ _ _ => rfl)
      (specMaxFanins_le_intMax ang) hfanin
  · exact histogramRows_isRead (by decide) (fun _ => rfl) (fun _ _ _ => rfl) (by decide) hfanout
  · exact histogramRows_isRead (by decide) (fun _ => rfl) (fun _ _ _ => rfl) hmaxBbox hbbox
  · exact histogramRows_isRead (by decide) (fun _ => rfl) (fun _ _ _ => rfl) hmaxBbox hedgelen
  · refine .cons (cellCount_isRead (intMin_le_natCast _) hinsts) (.cons ?_ (.cons ?_ (.cons ?_
      (.cons ?_ (.cons ?_ (.cons ?_ (.cons ?_ (.cons ?_ (.cons ?_ .nil)))))))))
    · exact double_isRead (by decide) (fun _ => rfl) (Or.inr ⟨_, _, rfl, rfl⟩)
    · exact int_isRead (by decide) (fun _ => rfl) (intMin_le_natCast _) (hpads _)
    · exact int_isRead (by decide) (fun _ => rfl) (intMin_le_natCast _) (hpads _)
    · exact other_isRead (by decide) (fun _ => rfl) trivial
    · exact other_isRead (by decide) (fun _ => rfl) trivial
    · exact other_isRead (by decide) (fun _ => rfl) trivial
    · exact other_isRead (by decide) (fun _ => rfl) trivial
    · exact double_isRead (by decide) (fun _ => rfl) (Or.inl rfl)
    · exact double_isRead (by decide) (fun _ => rfl) (Or.inl rfl)

/-! ## Counts -/

/-- What has been counted from nothing is no more than there are keys. -/
theorem fitsInt_foldl_add {keys : List ℤ} {dist : ℤ → ℤ}
    (h : dist = keys.foldl Tally.add fun _ => 0) (hlen : (keys.length : ℤ) ≤ intMax) :
    FitsInt fun x => dist x := by
  intro x
  have hcount := Tally.foldl_add keys (fun _ => 0) x
  have hle : keys.count (x : ℤ) ≤ keys.length := List.count_le_length
  rw [← h, zero_add] at hcount
  dsimp only
  rw [hcount]
  omega

/-- What the reader makes of the text of a design. -/
theorem ArtNetGen.parse_writeSpecText {ang : ArtNetGen} {pr : Printer} {b : DbBlock}
    {order : Iteration String} {avgGateDelay : ℚ} (hinsts : (b.insts.length : ℤ) ≤ intMax)
    (hterms : (b.bTerms.length : ℤ) ≤ intMax)
    (hedges : ((b.insts.zipIdx.flatMap b.instEdgelens).length : ℤ) ≤ intMax)
    (hnames : ∀ inst ∈ b.insts, IsWord inst.master.name.toList) {text : String}
    (h : ang.writeSpecText pr b order avgGateDelay = some text) :
    ∃ s avgTopoOrder, b.extract = some s ∧ b.analyzeTopologicalOrder = some avgTopoOrder ∧
      parseSpec text = some ((s.lines ang b order avgGateDelay avgTopoOrder).map
        (SpecLine.readAs pr b.insts.length)) := by
  simp only [writeSpecText, Option.bind_eq_bind, Option.bind_eq_some_iff, Option.pure_def,
    Option.some.injEq] at h
  obtain ⟨s, hs, avgTopoOrder, havg, rfl⟩ := h
  have hrun := DbBlock.extract_extracted hs
  obtain ⟨fanouts, hlength, -, hfanouts⟩ := hrun.fanout
  have hzip : (b.insts.zipIdx.length : ℤ) ≤ intMax := by
    rw [List.length_zipIdx]
    exact hinsts
  refine ⟨s, avgTopoOrder, hs, havg,
    parseSpec_specText (Extraction.rows_isRead hinsts hterms hnames ?_ ?_ ?_ ?_)⟩
  · exact fitsInt_foldl_add hrun.fanin (by rw [List.length_map]; exact hzip)
  · exact fitsInt_foldl_add hfanouts (by rw [hlength]; exact hzip)
  · exact fitsInt_foldl_add hrun.bbox (by rw [List.length_map]; exact hzip)
  · exact fitsInt_foldl_add hrun.edgelen hedges

/-- `readSpec` reads what `writeSpec` has written: names and integers as they
were, reals with six digits. -/
theorem ArtNetGen.writeSpecText_reads (ang : ArtNetGen) (pr : Printer) (b : DbBlock)
    (order : Iteration String) (avgGateDelay : ℚ) (hinsts : (b.insts.length : ℤ) ≤ intMax)
    (hterms : (b.bTerms.length : ℤ) ≤ intMax)
    (hedges : ((b.insts.zipIdx.flatMap b.instEdgelens).length : ℤ) ≤ intMax)
    (hnames : ∀ inst ∈ b.insts, IsWord inst.master.name.toList) {text : String}
    (h : ang.writeSpecText pr b order avgGateDelay = some text) :
    ∃ file, ang.writeSpec b order avgGateDelay = some file ∧
      parseSpec text = some (file.map (SpecLine.readAs pr b.insts.length)) := by
  obtain ⟨s, avgTopoOrder, hs, havg, hparse⟩ := parse_writeSpecText hinsts hterms hedges hnames h
  refine ⟨_, ?_, hparse⟩
  unfold writeSpec
  simp only [hs, havg, Option.bind_eq_bind, Option.bind_some, Option.pure_def]

/-- Halves are rounded up, and no quotient by 0 is a number. -/
def plainPrinter : Printer where
  rounding := halfUp
  undefined _ := "-nan".toList
  isUndefined _ := by simp

example : specText plainPrinter (histogramRows "FANIN" (fun x => [1, 2].getD x 0) 1 3) =
    "FANIN 0 1 0.333333\nFANIN 1 2 0.666667\n" := by decide +kernel

theorem ArtNetGen.writeSpecText_reads_buffered :
    ∃ text file, bufferLib.writeSpecText plainPrinter buffered keepOrder (1 / 10) = some text ∧
      bufferLib.writeSpec buffered keepOrder (1 / 10) = some file ∧
      parseSpec text = some (file.map (SpecLine.readAs plainPrinter buffered.insts.length)) := by
  have hwritten : (bufferLib.writeSpecText plainPrinter buffered keepOrder (1 / 10)).isSome =
      true := by
    decide
  obtain ⟨text, htext⟩ := Option.isSome_iff_exists.mp hwritten
  obtain ⟨file, hfile, hparse⟩ := ArtNetGen.writeSpecText_reads bufferLib plainPrinter buffered
    keepOrder (1 / 10) (by decide) (by decide) (by decide) (by decide) htext
  exact ⟨text, file, htext, hfile, hparse⟩

end Artnetgen
