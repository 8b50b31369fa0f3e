import Mathlib.Data.Int.Log
import Mathlib.Data.List.DropRight
import Mathlib.Data.Rat.Floor
import Mathlib.Tactic.Linarith
import Mathlib.Tactic.FieldSimp
import Mathlib.Tactic.Ring

/-!
Numbers as texts. An integer is printed digit by digit. Of a rational the leading
digits are printed, with a point or with a power of ten behind them, and zeros at
the end are left out. A reader takes as much of a text as looks like a number.
-/

namespace Decimal

open Nat (ofDigitChars toDigits)

/-! ## Reading -/

def readSign : List Char → ℤ × List Char
  | '-' :: rest => (-1, rest)
  | '+' :: rest => (1, rest)
  | text => (1, text)

def readDigits (text : List Char) : List Char × List Char :=
  (text.takeWhile Char.isDigit, text.dropWhile Char.isDigit)

def readFrac : List Char → List Char × List Char
  | '.' :: rest => readDigits rest
  | text => ([], text)

def readExp : List Char → Option (ℤ × List Char)
  | [] => some (0, [])
  | c :: rest =>
      if c = 'e' ∨ c = 'E' then
        let (sign, rest) := readSign rest
        let (ds, rest) := readDigits rest
        if ds = [] then none else some (sign * ofDigitChars 10 ds 0, rest)
      else some (0, c :: rest)

def readInt (text : List Char) : Option (ℤ × List Char) :=
  let (sign, text) := readSign text
  let (ds, rest) := readDigits text
  if ds = [] then none else some (sign * ofDigitChars 10 ds 0, rest)

/-- What the digits in front of a point and behind it stand for. -/
def value (int frac : List Char) : ℚ :=
  ofDigitChars 10 (int ++ frac) 0 * 10 ^ (-(frac.length : ℤ))

def readRat (text : List Char) : Option (ℚ × List Char) :=
  let (sign, text) := readSign text
  let (int, text) := readDigits text
  let (frac, text) := readFrac text
  if int ++ frac = [] then none
  else (readExp text).map fun exp => (sign * value int frac * 10 ^ exp.1, exp.2)

/-! ## Printing -/

def printInt (n : ℤ) : List Char :=
  if n < 0 then '-' :: toDigits 10 n.natAbs else toDigits 10 n.natAbs

/-- A nearest integer to `x * 10 ^ k`; which one, when two are equally near, may
depend on both. -/
structure Rounding where
  digits : ℚ → ℤ → ℕ
  near : ∀ x k, 0 ≤ x → |x * 10 ^ k - digits x k| ≤ 1 / 2

namespace Rounding

variable (r : Rounding) (p : ℕ) (x : ℚ)

/-- The first `p` digits and the power of ten of the first of them. -/
def sig : ℕ × ℤ :=
  let e := Int.log 10 x
  let d := r.digits x (p - 1 - e)
  if d = 10 ^ p then (10 ^ (p - 1), e + 1) else (d, e)

end Rounding

/-- A point behind the first `k` digits; zeros at the end are left out. -/
def pointed (ds : List Char) (k : ℕ) : List Char :=
  let frac := (ds.drop k).rdropWhile (· == '0')
  ds.take k ++ if frac = [] then [] else '.' :: frac

/-- At least two digits. -/
def printExp (e : ℤ) : List Char :=
  let ds := toDigits 10 e.natAbs
  'e' :: (if e < 0 then '-' else '+') :: if ds.length < 2 then '0' :: ds else ds

/-- A positive number. -/
def printPos (r : Rounding) (p : ℕ) (x : ℚ) : List Char :=
  let (d, e) := r.sig p x
  let ds := toDigits 10 d
  if e < -4 ∨ p ≤ e then pointed ds 1 ++ printExp e
  else if e < 0 then pointed (List.replicate e.natAbs '0' ++ ds) 1
  else pointed ds (e.natAbs + 1)

def printRat (r : Rounding) (p : ℕ) (x : ℚ) : List Char :=
  if x < 0 then '-' :: printPos r p (-x) else if x = 0 then ['0'] else printPos r p x

/-- The number that is printed for a positive one. -/
def Rounding.nearestPos (r : Rounding) (p : ℕ) (x : ℚ) : ℚ :=
  (r.sig p x).1 * 10 ^ ((r.sig p x).2 - (p - 1))

/-- The number that is printed. -/
def Rounding.nearest (r : Rounding) (p : ℕ) (x : ℚ) : ℚ :=
  if x < 0 then -r.nearestPos p (-x) else if x = 0 then 0 else r.nearestPos p x

/-- An integer with a point and zeros behind it. -/
def printFixed (k : ℕ) (n : ℤ) : List Char := printInt n ++ '.' :: List.replicate k '0'

/-- Halves are rounded up. -/
def halfUp : Rounding where
  digits x k := ⌊x * 10 ^ k + 1 / 2⌋₊
  near x k hx := by
    have hpos : (0 : ℚ) ≤ x * 10 ^ k + 1 / 2 :=
      add_nonneg (mul_nonneg hx (zpow_nonneg (by norm_num) k)) (by norm_num)
    have hle := Nat.floor_le hpos
    have hlt := Nat.lt_floor_add_one (x * 10 ^ k + 1 / 2)
    rw [abs_le]
    constructor <;> linarith

/-! ## Digits -/

/-- A number that stands there does not go on. -/
def Ends (rest : List Char) : Prop :=
  ∀ c ∈ rest.head?, c.isDigit = false ∧ c ≠ '.' ∧ c ≠ 'e' ∧ c ≠ 'E'

variable {ds int frac rest : List Char} {k p : ℕ} {x : ℚ} {e : ℤ} {r : Rounding}

theorem readDigits_append (hds : ∀ c ∈ ds, c.isDigit) (hrest : ∀ c ∈ rest.head?, c.isDigit = false) :
    readDigits (ds ++ rest) = (ds, rest) := by
  have htake : rest.takeWhile Char.isDigit = [] := by
    cases rest with
    | nil => rfl
    | cons c rest => exact List.takeWhile_cons_of_neg (by simp [hrest c rfl])
  have hdrop : rest.dropWhile Char.isDigit = rest := by
    cases rest with
    | nil => rfl
    | cons c rest => exact List.dropWhile_cons_of_neg (by simp [hrest c rfl])
  unfold readDigits
  rw [List.takeWhile_append_of_pos hds, List.dropWhile_append_of_pos hds, htake, hdrop,
    List.append_nil]

theorem readSign_of_digit {text : List Char} (h : ∀ c ∈ text.head?, c.isDigit) :
    readSign text = (1, text) := by
  unfold readSign
  split
  · exact absurd (h '-' rfl) (by decide)
  · exact absurd (h '+' rfl) (by decide)
  · rfl

theorem readSign_neg (rest : List Char) : readSign ('-' :: rest) = (-1, rest) := rfl

theorem readSign_pos (rest : List Char) : readSign ('+' :: rest) = (1, rest) := rfl

theorem isDigit_toDigits (n : ℕ) : ∀ c ∈ toDigits 10 n, c.isDigit :=
  fun _ => Nat.isDigit_of_mem_toDigits (by norm_num) le_rfl

theorem ofDigitChars_toDigits (n : ℕ) : ofDigitChars 10 (toDigits 10 n) 0 = n :=
  Nat.ofDigitChars_toDigits (by norm_num) le_rfl

theorem head_isDigit (hne : ds ≠ []) (hds : ∀ c ∈ ds, c.isDigit) (rest : List Char) :
    ∀ c ∈ (ds ++ rest).head?, c.isDigit := by
  obtain ⟨d, front, rfl⟩ := List.exists_cons_of_ne_nil hne
  intro c hc
  obtain rfl : d = c := by simpa using hc
  exact hds d List.mem_cons_self

theorem readInt_signed {text : List Char} {sign : ℤ} {n : ℕ}
    (hsign : readSign text = (sign, toDigits 10 n ++ rest))
    (hrest : ∀ c ∈ rest.head?, c.isDigit = false) : readInt text = some (sign * n, rest) := by
  unfold readInt
  rw [hsign]
  dsimp only
  rw [readDigits_append (isDigit_toDigits n) hrest, if_neg Nat.toDigits_ne_nil,
    ofDigitChars_toDigits]

/-- An integer is read as it was printed. -/
theorem readInt_printInt (n : ℤ) (hrest : ∀ c ∈ rest.head?, c.isDigit = false) :
    readInt (printInt n ++ rest) = some (n, rest) := by
  unfold printInt
  split
  · next hneg =>
      rw [List.cons_append, readInt_signed (readSign_neg _) hrest, Int.ofNat_natAbs_of_nonpos hneg.le, neg_one_mul,
        neg_neg]
  · next hpos =>
      have hsign := readSign_of_digit
        (head_isDigit Nat.toDigits_ne_nil (isDigit_toDigits n.natAbs) rest)
      rw [readInt_signed hsign hrest, Int.natAbs_of_nonneg (not_lt.mp hpos), one_mul]

/-! ## Points and powers of ten -/

theorem pointed_spec (ds : List Char) (k : ℕ) :
    ∃ frac m, pointed ds k = ds.take k ++ (if frac = [] then [] else '.' :: frac) ∧
      ds.drop k = frac ++ List.replicate m '0' := by
  refine ⟨(ds.drop k).rdropWhile (· == '0'), ((ds.drop k).rtakeWhile (· == '0')).length, rfl, ?_⟩
  have hzeros : (ds.drop k).rtakeWhile (· == '0') =
      List.replicate ((ds.drop k).rtakeWhile (· == '0')).length '0' := by
    apply List.eq_replicate_of_mem
    intro c hc
    have hzero := List.mem_rtakeWhile_imp hc
    exact eq_of_beq hzero
  rw [← hzeros, List.rdropWhile_append_rtakeWhile]

/-- Zeros at the end make no difference. -/
theorem value_append_zeros (int frac : List Char) (m : ℕ) :
    value int (frac ++ List.replicate m '0') = value int frac := by
  unfold value
  rw [← List.append_assoc, Nat.ofDigitChars_append, Nat.ofDigitChars_replicate_zero,
    List.length_append, List.length_replicate]
  push_cast
  rw [neg_add, zpow_add₀ (by norm_num), zpow_neg, zpow_neg, zpow_natCast, zpow_natCast]
  field_simp

/-- What is read of a number with a point. -/
theorem readRat_pointed {text : List Char} {sign : ℤ}
    (hsign : readSign text = (sign, pointed ds k ++ rest)) (hds : ∀ c ∈ ds, c.isDigit) (hk : 0 < k) (hlen : k ≤ ds.length)
    (hrest : ∀ c ∈ rest.head?, c.isDigit = false ∧ c ≠ '.') :
    readRat text = (readExp rest).map fun exp =>
      ((sign : ℚ) * (ofDigitChars 10 ds 0 * 10 ^ ((k : ℤ) - ds.length)) * 10 ^ exp.1, exp.2) := by
  obtain ⟨frac, m, hpointed, hdrop⟩ := pointed_spec ds k
  have hfrac : ∀ c ∈ frac, c.isDigit := fun c hc =>
    hds c (List.mem_of_mem_drop (hdrop ▸ List.mem_append_left _ hc))
  have htake : ∀ c ∈ ds.take k, c.isDigit := fun c hc => hds c (List.mem_of_mem_take hc)
  have hne : ds.take k ++ frac ≠ [] := by
    intro hnil
    have hlength := congrArg List.length (List.append_eq_nil_iff.mp hnil).1
    rw [List.length_take, Nat.min_eq_left hlen] at hlength
    exact absurd hlength (Nat.pos_iff_ne_zero.mp hk)
  have hvalue : value (ds.take k) frac = ofDigitChars 10 ds 0 * 10 ^ ((k : ℤ) - ds.length) := by
    rw [← value_append_zeros _ _ m, ← hdrop]
    unfold value
    rw [List.take_append_drop, List.length_drop, Nat.cast_sub hlen, neg_sub]
  have htail : ∃ tail, pointed ds k ++ rest = ds.take k ++ tail ∧ readFrac tail = (frac, rest) ∧
      ∀ c ∈ tail.head?, c.isDigit = false := by
    refine ⟨(if frac = [] then [] else '.' :: frac) ++ rest, ?_, ?_, ?_⟩
    · rw [hpointed, List.append_assoc]
    · split
      · next hnil =>
          unfold readFrac
          rw [List.nil_append, hnil]
          split
          · exact absurd rfl (hrest '.' rfl).2
          · rfl
      · exact readDigits_append hfrac fun c hc => (hrest c hc).1
    · split
      · exact fun c hc => (hrest c hc).1
      · rintro c ⟨rfl⟩
        rfl
  obtain ⟨tail, htext, hread, hhead⟩ := htail
  unfold readRat
  rw [hsign]
  dsimp only
  rw [htext, readDigits_append htake hhead]
  dsimp only
  rw [hread, if_neg hne, hvalue]

theorem readExp_of_ends (h : Ends rest) : readExp rest = some (0, rest) := by
  unfold readExp
  split
  · rfl
  · next c rest =>
      have hc := h c rfl
      rw [if_neg (not_or.mpr ⟨hc.2.2.1, hc.2.2.2⟩)]

theorem readExp_printExp (e : ℤ) (hrest : ∀ c ∈ rest.head?, c.isDigit = false) :
    readExp (printExp e ++ rest) = some (e, rest) := by
  have hpadded : ∃ ds, printExp e = 'e' :: (if e < 0 then '-' else '+') :: ds ∧ ds ≠ [] ∧
      (∀ c ∈ ds, c.isDigit) ∧ ofDigitChars 10 ds 0 = e.natAbs := by
    refine ⟨_, rfl, ?_⟩
    split
    · refine ⟨List.cons_ne_nil _ _, ?_, ?_⟩
      · intro c hc
        rcases List.mem_cons.mp hc with rfl | hc
        · rfl
        · exact isDigit_toDigits _ c hc
      · rw [Nat.ofDigitChars_cons]
        exact ofDigitChars_toDigits _
    · exact ⟨Nat.toDigits_ne_nil, isDigit_toDigits _, ofDigitChars_toDigits _⟩
  obtain ⟨ds, hprint, hne, hds, hvalue⟩ := hpadded
  rw [hprint]
  unfold readExp
  simp only [List.cons_append, true_or, if_true]
  split
  · next hneg =>
      rw [readSign_neg, readDigits_append hds hrest, if_neg hne, hvalue,
        Int.ofNat_natAbs_of_nonpos hneg.le, neg_one_mul, neg_neg]
  · next hpos =>
      rw [readSign_pos, readDigits_append hds hrest, if_neg hne, hvalue, Int.natAbs_of_nonneg (not_lt.mp hpos),
        one_mul]

/-! ## Rounding -/

namespace Rounding

theorem le_digits {n : ℕ} {e : ℤ} (h0 : 0 ≤ x) (h : (n : ℚ) ≤ x * 10 ^ e) : n ≤ r.digits x e := by
  have hnear := abs_le.mp (r.near x e h0)
  have hlt : (n : ℚ) < r.digits x e + 1 := by linarith
  exact Nat.le_of_lt_succ (by exact_mod_cast hlt)

theorem digits_le {n : ℕ} {e : ℤ} (h0 : 0 ≤ x) (h : x * 10 ^ e ≤ n) : r.digits x e ≤ n := by
  have hnear := abs_le.mp (r.near x e h0)
  have hlt : (r.digits x e : ℚ) < n + 1 := by linarith
  exact Nat.le_of_lt_succ (by exact_mod_cast hlt)

theorem ten_zpow_pos (e : ℤ) : (0 : ℚ) < 10 ^ e := zpow_pos (by norm_num) e

/-- There are `p` digits before a carry. -/
theorem digits_bounds (r : Rounding) (hp : 0 < p) (hx : 0 < x) :
    10 ^ (p - 1) ≤ r.digits x (p - 1 - Int.log 10 x) ∧
      r.digits x (p - 1 - Int.log 10 x) ≤ 10 ^ p := by
  have hlow : (10 : ℚ) ^ Int.log 10 x ≤ x := by exact_mod_cast Int.zpow_log_le_self (by norm_num) hx
  have hhigh : x < (10 : ℚ) ^ (Int.log 10 x + 1) := by
    exact_mod_cast Int.lt_zpow_succ_log_self (by norm_num) x
  have hpos := ten_zpow_pos (p - 1 - Int.log 10 x)
  constructor
  · apply le_digits hx.le
    calc ((10 ^ (p - 1) : ℕ) : ℚ) = 10 ^ ((p : ℤ) - 1) := by
          rw [Nat.cast_pow, ← zpow_natCast, Nat.cast_sub hp]
          rfl
      _ = 10 ^ Int.log 10 x * 10 ^ ((p : ℤ) - 1 - Int.log 10 x) := by
          rw [← zpow_add₀ (by norm_num)]
          congr 1
          ring
      _ ≤ x * 10 ^ ((p : ℤ) - 1 - Int.log 10 x) := mul_le_mul_of_nonneg_right hlow hpos.le
  · apply digits_le hx.le
    calc x * 10 ^ ((p : ℤ) - 1 - Int.log 10 x)
        ≤ 10 ^ (Int.log 10 x + 1) * 10 ^ ((p : ℤ) - 1 - Int.log 10 x) :=
          mul_le_mul_of_nonneg_right hhigh.le hpos.le
      _ = 10 ^ (p : ℤ) := by
          rw [← zpow_add₀ (by norm_num)]
          congr 1
          ring
      _ = ((10 ^ p : ℕ) : ℚ) := by rw [zpow_natCast, Nat.cast_pow, Nat.cast_ofNat]

theorem sig_bounds (r : Rounding) (hp : 0 < p) (hx : 0 < x) :
    10 ^ (p - 1) ≤ (r.sig p x).1 ∧ (r.sig p x).1 < 10 ^ p := by
  obtain ⟨hlow, hhigh⟩ := r.digits_bounds hp hx
  unfold sig
  dsimp only
  split
  · exact ⟨le_rfl, Nat.pow_lt_pow_right (by norm_num) (Nat.sub_lt hp Nat.one_pos)⟩
  · next hne => exact ⟨hlow, Nat.lt_of_le_of_ne hhigh hne⟩

@[simp] theorem nearest_zero (r : Rounding) (p : ℕ) : r.nearest p 0 = 0 := by simp [nearest]

end Rounding

/-! ## What is printed is read -/

theorem length_toDigits {n : ℕ} (hp : 0 < p) (hlow : 10 ^ (p - 1) ≤ n) (hhigh : n < 10 ^ p) :
    (toDigits 10 n).length = p := by
  have hle := (Nat.length_toDigits_le_iff (by norm_num) hp).mpr hhigh
  rcases Nat.lt_or_ge (toDigits 10 n).length p with hlt | hge
  · rcases Nat.eq_zero_or_pos (p - 1) with hzero | hpos
    · have := Nat.length_toDigits_pos (b := 10) (n := n)
      omega
    · have := (Nat.length_toDigits_le_iff (n := n) (by norm_num) hpos).mp (Nat.le_sub_one_of_lt hlt)
      omega
  · exact le_antisymm hle hge

/-- It begins with a digit. -/
theorem pointed_head (hds : ∀ c ∈ ds, c.isDigit) (hk : 0 < k) (hlen : k ≤ ds.length)
    (rest : List Char) : ∀ c ∈ (pointed ds k ++ rest).head?, c.isDigit := by
  unfold pointed
  dsimp only
  rw [List.append_assoc]
  apply head_isDigit
  · intro hnil
    have hlength := congrArg List.length hnil
    rw [List.length_take, Nat.min_eq_left hlen] at hlength
    exact absurd hlength (Nat.pos_iff_ne_zero.mp hk)
  · exact fun c hc => hds c (List.mem_of_mem_take hc)

/-- The three ways in which a positive number is printed are one: digits with a
point, and what may stand behind them. -/
theorem printPos_spec (r : Rounding) (hp : 0 < p) (hx : 0 < x) :
    ∃ ds k exp e, printPos r p x = pointed ds k ++ exp ∧ (∀ c ∈ ds, c.isDigit) ∧ 0 < k ∧
      k ≤ ds.length ∧
      (∀ rest, Ends rest → readExp (exp ++ rest) = some (e, rest) ∧
        ∀ c ∈ (exp ++ rest).head?, c.isDigit = false ∧ c ≠ '.') ∧
      (ofDigitChars 10 ds 0 : ℚ) * 10 ^ ((k : ℤ) - ds.length) * 10 ^ e = r.nearestPos p x := by
  obtain ⟨hlow, hhigh⟩ := r.sig_bounds hp hx
  have hlen := length_toDigits hp hlow hhigh
  have hds := isDigit_toDigits (r.sig p x).1
  have hplain : ∀ rest, Ends rest → readExp ([] ++ rest) = some (0, rest) ∧
      ∀ c ∈ ([] ++ rest).head?, c.isDigit = false ∧ c ≠ '.' :=
    fun rest hrest => ⟨readExp_of_ends hrest, fun c hc => ⟨(hrest c hc).1, (hrest c hc).2.1⟩⟩
  unfold printPos
  dsimp only
  split
  · refine ⟨_, 1, _, (r.sig p x).2, rfl, hds, Nat.one_pos, hlen.symm ▸ hp, fun rest hrest => ⟨?_, ?_⟩, ?_⟩
    · exact readExp_printExp _ fun c hc => (hrest c hc).1
    · rintro c ⟨rfl⟩
      exact ⟨rfl, by decide⟩
    · rw [ofDigitChars_toDigits, hlen, mul_assoc, ← zpow_add₀ (by norm_num), Rounding.nearestPos]
      congr 2
      push_cast
      ring
  · split
    · next hneg =>
        refine ⟨_, 1, [], 0, (List.append_nil _).symm, ?_, Nat.one_pos, ?_, hplain, ?_⟩
        · intro c hc
          rcases List.mem_append.mp hc with hzero | hc
          · rw [(List.mem_replicate.mp hzero).2]
            rfl
          · exact hds c hc
        · rw [List.length_append, hlen]
          omega
        · rw [Nat.ofDigitChars_append, Nat.ofDigitChars_replicate_zero, Nat.mul_zero,
            ofDigitChars_toDigits, List.length_append, List.length_replicate, hlen, zpow_zero,
            mul_one, Rounding.nearestPos]
          congr 2
          omega
    · next hfixed hpos =>
        refine ⟨_, _, [], 0, (List.append_nil _).symm, hds, Nat.succ_pos _, ?_, hplain, ?_⟩
        · rw [hlen]
          omega
        · rw [ofDigitChars_toDigits, hlen, zpow_zero, mul_one, Rounding.nearestPos]
          congr 2
          omega

/-- A number is read as the nearest one with so many digits. -/
theorem readRat_printRat (r : Rounding) (hp : 0 < p) (x : ℚ) (hrest : Ends rest) :
    readRat (printRat r p x ++ rest) = some (r.nearest p x, rest) := by
  have hread : ∀ {text : List Char} {sign : ℤ} {y : ℚ}, 0 < y →
      readSign text = (sign, printPos r p y ++ rest) →
      readRat text = some (sign * r.nearestPos p y, rest) := by
    intro text sign y hy hsign
    obtain ⟨ds, k, exp, e, hprint, hds, hk, hlen, hexp, hvalue⟩ := printPos_spec r hp hy
    rw [hprint, List.append_assoc] at hsign
    rw [readRat_pointed hsign hds hk hlen (hexp rest hrest).2, (hexp rest hrest).1, Option.map_some,
      mul_assoc, hvalue]
  unfold printRat Rounding.nearest
  split
  · next hneg =>
      rw [List.cons_append, hread (neg_pos.mpr hneg) (readSign_neg _), Int.cast_neg, Int.cast_one,
        neg_one_mul]
  · split
    · have hsign : readSign (['0'] ++ rest) = (1, pointed ['0'] 1 ++ rest) := rfl
      have hzero : ∀ c ∈ ['0'], c.isDigit := List.forall_mem_singleton.mpr rfl
      rw [readRat_pointed hsign hzero Nat.one_pos le_rfl
        fun c hc => ⟨(hrest c hc).1, (hrest c hc).2.1⟩, readExp_of_ends hrest]
      simp [Nat.ofDigitChars_cons]
    · next hpos hzero =>
        have hx : 0 < x := lt_of_le_of_ne (not_lt.mp hpos) (Ne.symm hzero)
        obtain ⟨ds, k, exp, e, hprint, hds, hk, hlen, -, -⟩ := printPos_spec r hp hx
        have hhead : ∀ c ∈ (printPos r p x ++ rest).head?, c.isDigit := by
          rw [hprint, List.append_assoc]
          exact pointed_head hds hk hlen _
        rw [hread hx (readSign_of_digit hhead), Int.cast_one, one_mul]

section Int

variable {n : ℤ} {tail : List Char}

/-- The sign goes in front of what the digits are read as. -/
theorem readRat_signed (h : ∀ {text : List Char} {sign : ℤ},
      readSign text = (sign, toDigits 10 n.natAbs ++ tail) →
        readRat text = some (sign * (n.natAbs : ℚ), rest)) :
    readRat (printInt n ++ tail) = some ((n : ℚ), rest) := by
  unfold printInt
  split
  · next hneg =>
      rw [List.cons_append, h (readSign_neg _), ← Int.cast_natCast,
        Int.ofNat_natAbs_of_nonpos hneg.le]
      simp
  · next hpos =>
      have hdigits := isDigit_toDigits n.natAbs
      rw [h (readSign_of_digit (head_isDigit Nat.toDigits_ne_nil hdigits tail)),
        ← Int.cast_natCast, Int.natAbs_of_nonneg (not_lt.mp hpos)]
      simp

/-- An integer may be read as a rational. -/
theorem readRat_printInt (n : ℤ) (hrest : Ends rest) :
    readRat (printInt n ++ rest) = some ((n : ℚ), rest) := by
  have hpoint : ∀ ds : List Char, pointed ds ds.length = ds := by
    intro ds
    unfold pointed
    simp
  have hdigits := isDigit_toDigits n.natAbs
  have hlen : 0 < (toDigits 10 n.natAbs).length := Nat.length_toDigits_pos
  apply readRat_signed
  intro text sign hsign
  rw [← hpoint (toDigits 10 n.natAbs)] at hsign
  rw [readRat_pointed hsign hdigits hlen le_rfl
    fun c hc => ⟨(hrest c hc).1, (hrest c hc).2.1⟩, readExp_of_ends hrest, ofDigitChars_toDigits]
  simp

/-- Zeros behind the point change nothing. -/
theorem readRat_printFixed (k : ℕ) (n : ℤ) : readRat (printFixed k n) = some ((n : ℚ), []) := by
  have hdigits := isDigit_toDigits n.natAbs
  have hne : toDigits 10 n.natAbs ≠ [] := Nat.toDigits_ne_nil
  have hpoint : ∀ c ∈ ('.' :: List.replicate k '0').head?, c.isDigit = false := by
    rintro c ⟨rfl⟩
    rfl
  have hfrac : readFrac ('.' :: List.replicate k '0') = (List.replicate k '0', []) := by
    have hzeros : ∀ c ∈ List.replicate k '0', c.isDigit := by
      intro c hc
      rw [List.eq_of_mem_replicate hc]
      rfl
    have hread := @readDigits_append _ [] hzeros fun _ h => by cases h
    rwa [List.append_nil] at hread
  have hvalue : value (toDigits 10 n.natAbs) (List.replicate k '0') = n.natAbs := by
    rw [← List.nil_append (List.replicate k '0'), value_append_zeros]
    unfold value
    rw [List.append_nil, ofDigitChars_toDigits]
    simp
  apply readRat_signed
  intro text sign hsign
  unfold readRat
  rw [hsign]
  dsimp only
  rw [readDigits_append hdigits hpoint]
  dsimp only
  rw [hfrac]
  dsimp only
  rw [if_neg (by simp [hne]), hvalue]
  simp [readExp]

end Int

/-! ## Characters -/

/-- What numbers are written with. -/
def IsNumeric (c : Char) : Prop := c.isDigit ∨ c = '-' ∨ c = '+' ∨ c = '.' ∨ c = 'e'

theorem isNumeric_toDigits (n : ℕ) : ∀ c ∈ toDigits 10 n, IsNumeric c :=
  fun c hc => Or.inl (isDigit_toDigits n c hc)

theorem printInt_ne_nil (n : ℤ) : printInt n ≠ [] := by
  unfold printInt
  split
  · exact List.cons_ne_nil _ _
  · exact Nat.toDigits_ne_nil

theorem isNumeric_printInt (n : ℤ) : ∀ c ∈ printInt n, IsNumeric c := by
  intro c hc
  unfold printInt at hc
  split at hc
  · rcases List.mem_cons.mp hc with rfl | hc
    · exact Or.inr (Or.inl rfl)
    · exact isNumeric_toDigits _ c hc
  · exact isNumeric_toDigits _ c hc

theorem isNumeric_pointed (hds : ∀ c ∈ ds, IsNumeric c) (k : ℕ) : ∀ c ∈ pointed ds k, IsNumeric c := by
  obtain ⟨frac, m, hpointed, hdrop⟩ := pointed_spec ds k
  intro c hc
  rw [hpointed] at hc
  rcases List.mem_append.mp hc with htake | hfrac
  · exact hds c (List.mem_of_mem_take htake)
  · split at hfrac
    · cases hfrac
    · rcases List.mem_cons.mp hfrac with rfl | hfrac
      · exact Or.inr (Or.inr (Or.inr (Or.inl rfl)))
      · exact hds c (List.mem_of_mem_drop (hdrop ▸ List.mem_append_left _ hfrac))

theorem isNumeric_printExp (e : ℤ) : ∀ c ∈ printExp e, IsNumeric c := by
  intro c hc
  unfold printExp at hc
  rcases List.mem_cons.mp hc with rfl | hc
  · exact Or.inr (Or.inr (Or.inr (Or.inr rfl)))
  · rcases List.mem_cons.mp hc with rfl | hc
    · split
      · exact Or.inr (Or.inl rfl)
      · exact Or.inr (Or.inr (Or.inl rfl))
    · split at hc
      · rcases List.mem_cons.mp hc with rfl | hc
        · exact Or.inl rfl
        · exact isNumeric_toDigits _ c hc
      · exact isNumeric_toDigits _ c hc

theorem isNumeric_printPos (r : Rounding) (p : ℕ) (x : ℚ) : ∀ c ∈ printPos r p x, IsNumeric c := by
  intro c hc
  unfold printPos at hc
  dsimp only at hc
  split at hc
  · rcases List.mem_append.mp hc with hc | hc
    · exact isNumeric_pointed (isNumeric_toDigits _) _ c hc
    · exact isNumeric_printExp _ c hc
  · split at hc
    · apply isNumeric_pointed _ _ c hc
      intro c hc
      rcases List.mem_append.mp hc with hc | hc
      · rw [(List.mem_replicate.mp hc).2]
        exact Or.inl rfl
      · exact isNumeric_toDigits _ c hc
    · exact isNumeric_pointed (isNumeric_toDigits _) _ c hc

theorem isNumeric_printRat (r : Rounding) (p : ℕ) (x : ℚ) : ∀ c ∈ printRat r p x, IsNumeric c := by
  intro c hc
  unfold printRat at hc
  split at hc
  · rcases List.mem_cons.mp hc with rfl | hc
    · exact Or.inr (Or.inl rfl)
    · exact isNumeric_printPos r p _ c hc
  · split at hc
    · rw [List.mem_singleton.mp hc]
      exact Or.inl rfl
    · exact isNumeric_printPos r p x c hc

/-- Something is always read back. -/
theorem printRat_ne_nil (r : Rounding) (hp : 0 < p) (x : ℚ) : printRat r p x ≠ [] := by
  have hends : Ends [] := fun c hc => by cases hc
  intro hnil
  have hread := readRat_printRat r hp x hends
  rw [hnil] at hread
  cases hread

end Decimal
