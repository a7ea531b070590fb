-- The rest of the integers of any width that fixed point uses: native operands,
-- comparison from the most significant limb down, single bits and the complement.
import Tapa.IntArith

namespace Tapa.Base

open Limbs List Nat Int

namespace int_base

variable {W W2 : Nat} {S S2 : Bool}

/-! ## Native operands -/

def of_native (W : Nat) (S : Bool) (hW : 0 < W) (x : Int) : int_base W S :=
  set_int W S hW (UInt64.ofNat (x % 2 ^ 64).toNat) (decide (x < 0))

def of_int (x : Int) : int_base 32 true := of_native 32 true (by decide) x

theorem testBit_of_native_high {x : Int} (hx : -2 ^ 63 ≤ x ∧ x < 2 ^ 63) {k : Nat} (hk : 63 ≤ k) :
    x.testBit k = decide (x < 0) := by
  have hpow : 2 ^ 63 ≤ 2 ^ k := Nat.pow_le_pow_right (by decide) hk
  cases x with
  | ofNat m =>
    have hm : m < 2 ^ k := by
      have : (m : Int) < 2 ^ 63 := hx.2
      omega
    exact testBit_lt_two_pow hm
  | negSucc m =>
    have hm : m < 2 ^ k := by
      omega
    rw [decide_eq_true (negSucc_lt_zero m)]
    show (!m.testBit k) = true
    rw [testBit_lt_two_pow hm]
    rfl

theorem value_of_native (hW : 0 < W) {x : Int} (hx : -2 ^ 63 ≤ x ∧ x < 2 ^ 63) :
    value (of_native W S hW x).v = (x % 2 ^ W).toNat := by
  apply eq_of_testBit_eq
  intro k
  have hle := le_limb_count W
  rw [of_native, set_int, value_of_limbs, testBit_mod_two_pow, testBit_toNat_emod]
  by_cases hk : k < W
  · rw [decide_eq_true hk, Bool.true_and, Bool.true_and, testBit_value]
    by_cases hlow : k / 64 = 0
    · have hlt : (x % 2 ^ 64).toNat < 2 ^ 64 := by omega
      rw [hlow, getD_cons_zero, UInt64.toNat_ofNat', mod_eq_of_lt hlt,
        testBit_toNat_emod, decide_eq_true (by omega), Bool.true_and,
        show k % 64 = k by omega]
    · obtain ⟨i, hi⟩ := exists_eq_succ_of_ne_zero hlow
      rw [testBit_of_native_high hx (by omega), hi, getD_cons_succ, getD_eq_getElem?_getD,
        getElem?_replicate, if_pos (by omega), Option.getD_some]
      by_cases hneg : x < 0
      · simp only [hneg, decide_true, if_true]
        rw [testBit_ones]
        simp only [decide_eq_true_eq]
        omega
      · simp [hneg]
  · simp [hk]

theorem toInt_of_native {hW : 0 < W} {x : Int} (hx : -2 ^ 63 ≤ x ∧ x < 2 ^ 63)
    (hfit : Fits W S x) : (of_native W S hW x).toInt = x :=
  toInt_eq_of_fits _ hfit (value_of_native hW hx)

theorem toInt_of_int {x : Int} (hlow : -2 ^ 31 ≤ x) (hhigh : x < 2 ^ 31) :
    (of_int x).toInt = x := by
  apply toInt_of_native
  · omega
  · exact ⟨hlow, hhigh⟩

theorem count_of_int {n : Nat} (hn : n < 2 ^ 31) :
    (of_int n).shift_count = n ∧ (true && (of_int n).negative) = false := by
  have hint : (of_int n).toInt = n := toInt_of_int (by omega) (by omega)
  constructor
  · rw [shift_count_eq]
    omega
  · rw [negative_eq, hint]
    simp

/-- A shift to the left by an `int` multiplies, modulo the width. -/
theorem toInt_shift_left_of_int (a : int_base W S) {n : Nat} (hn : n < 2 ^ 31) :
    (a.shift_left (of_int n)).toInt ≡ a.toInt * 2 ^ n [ZMOD 2 ^ W] := by
  obtain ⟨hcount, hsign⟩ := count_of_int hn
  rw [shift_left, hsign, hcount]
  exact (a.shifts_eq n).1

/-- A shift to the right by an `int` divides and rounds down. -/
theorem toInt_shift_right_of_int (a : int_base W S) {n : Nat} (hn : n < 2 ^ 31) :
    (a.shift_right (of_int n)).toInt = a.toInt / 2 ^ n := by
  obtain ⟨hcount, hsign⟩ := count_of_int hn
  rw [shift_right, hsign, hcount]
  exact (a.shifts_eq n).2

/-! ## Comparison -/

/-- Which signedness two types compare at. -/
def compare_is_signed (W : Nat) (S : Bool) (W2 : Nat) (S2 : Bool) : Bool :=
  if S = S2 then S
  else if W < 32 ∧ W2 < 32 then true
  else if S then !decide (W ≤ W2)
  else !decide (W2 ≤ W)

/-- The loop over limbs, from the most significant one: the first difference decides. -/
def compare_limbs : List UInt64 → List UInt64 → Int
  | x :: xs, y :: ys => if x ≠ y then if x < y then -1 else 1 else compare_limbs xs ys
  | _, _ => 0

def compare (a : int_base W S) (b : int_base W2 S2) : Int :=
  let n := (if W2 < W then W else W2) / 64 + 1
  let x := a.extend_to n
  let y := b.extend_to n
  let an := decide (shr (x.getD (n - 1) 0) 63 ≠ 0)
  let bn := decide (shr (y.getD (n - 1) 0) 63 ≠ 0)
  if compare_is_signed W S W2 S2 && an != bn then if an then -1 else 1
  else compare_limbs x.reverse y.reverse

/-- The width at which two types are tested for equality. -/
def equal_width (W W2 : Nat) : Nat :=
  if (if W2 < W then W else W2) < 64 then 64 else if W2 < W then W else W2

/-- An extension with its bits at or above the width of the test cleared. -/
def masked (EW : Nat) (limbs : List UInt64) : List UInt64 :=
  if EW % 64 ≠ 0 then limbs.modify ((EW + 63) / 64 - 1) (· &&& (shl 1 (EW % 64) - 1)) else limbs

def compare_values (a : int_base W S) (b : int_base W2 S2) : Int :=
  let EW := equal_width W W2
  let n := (EW + 63) / 64
  compare_limbs (masked EW (a.extend_to n)).reverse (masked EW (b.extend_to n)).reverse

/-- The loop finds the sign of the difference. -/
theorem compare_limbs_eq {a b : List UInt64} (h : a.length = b.length) :
    compare_limbs a b = Int.sign ((value a.reverse : Int) - value b.reverse) := by
  induction a generalizing b with
  | nil =>
    obtain rfl := length_eq_zero_iff.mp h.symm
    rfl
  | cons x xs ih =>
    cases b with
    | nil => cases h
    | cons y ys =>
      have hlen : xs.length = ys.length := by simpa using h
      have hx := value_lt xs.reverse
      have hy := value_lt ys.reverse
      simp only [length_reverse] at hx hy
      rw [← hlen] at hy
      unfold compare_limbs
      simp only [reverse_cons, value_append, length_reverse, value,
        mul_zero, add_zero]
      rw [ih hlen, ← hlen]
      generalize 2 ^ (64 * xs.length) = p at *
      by_cases heq : x = y
      · subst heq
        rw [if_neg (by simp)]
        congr 1
        omega
      · rw [if_pos heq]
        -- The more significant limb outweighs all that follow.
        by_cases hlt : x < y
        · have hstep : p * (x.toNat + 1) ≤ p * y.toNat :=
            mul_le_mul_left p (UInt64.lt_iff_toNat_lt.mp hlt)
          rw [if_pos hlt, sign_eq_neg_one_of_neg]
          rw [mul_add] at hstep
          omega
        · have hne : x.toNat ≠ y.toNat := fun h => heq (UInt64.toNat_inj.mp h)
          have hle : y.toNat + 1 ≤ x.toNat := by
            rw [UInt64.lt_iff_toNat_lt] at hlt
            omega
          have hstep : p * (y.toNat + 1) ≤ p * x.toNat := mul_le_mul_left p hle
          rw [if_neg hlt, sign_eq_one_of_pos]
          rw [mul_add] at hstep
          omega

section

variable (a : int_base W S)
include a

/-- The spare limb shows the sign. -/
theorem extend_to_sign {n : Nat} (hn : W < 64 * n) :
    decide (shr ((a.extend_to n).getD (n - 1) 0) 63 ≠ 0) = decide (a.toInt < 0) := by
  have hbit : ∀ y : UInt64, decide (shr y 63 ≠ 0) = y.toNat.testBit 63 := by
    intro y
    have hy := y.toNat_lt
    have hshr := toNat_shr y (n := 63) (by decide)
    rw [testBit_eq_decide_div_mod_eq, decide_eq_decide, ne_eq, ← UInt64.toNat_inj, hshr]
    show ¬y.toNat / 2 ^ 63 = 0 ↔ _
    omega
  have hval := testBit_value (a.extend_to n) (64 * (n - 1) + 63)
  rw [show (64 * (n - 1) + 63) / 64 = n - 1 by omega,
    show (64 * (n - 1) + 63) % 64 = 63 by omega] at hval
  rw [hbit, ← hval, testBit_extend_to, testBit_toInt, if_neg (by omega), a.negative_eq,
    decide_eq_true (by omega), Bool.true_and]

/-- With a spare bit, half of the patterns are enough for either sign. -/
theorem toInt_bounds {m : Nat} (hm : W < m) : -2 ^ (m - 1) ≤ a.toInt ∧ a.toInt < 2 ^ (m - 1) := by
  have hfit := a.toInt_fits
  have hpow := cast_two_pow_width a.pos
  have hle : (2 : Int) ^ W ≤ 2 ^ (m - 1) := pow_le_pow_right₀ (by decide) (by omega)
  unfold Fits at hfit
  split at hfit <;> omega

/-- An integer that a wider type holds is its extension, or negative by a full turn. -/
theorem cast_value_extend_to {n : Nat} (hn : W < 64 * n) : (value (a.extend_to n) : Int) =
      if a.toInt < 0 then a.toInt + 2 ^ (64 * n) else a.toInt := by
  have hbounds := a.toInt_bounds hn
  have hpow : (2 : Int) ^ (64 * n) = 2 * 2 ^ (64 * n - 1) := cast_two_pow_width (by omega)
  rw [value_extend_to, toNat_of_nonneg (emod_nonneg _ (by omega))]
  split
  · rw [← add_emod_right, emod_eq_of_lt (by omega) (by omega)]
  · rw [emod_eq_of_lt (by omega) (by omega)]

/-- Comparison reads two integers in more bits than either has. -/
theorem compare_extended (b : int_base W2 S2) : ∃ m, W < m ∧ W2 < m ∧
    a.compare b = if compare_is_signed W S W2 S2 ∧ ¬(a.toInt < 0 ↔ b.toInt < 0) then
      if a.toInt < 0 then -1 else 1
    else Int.sign ((if a.toInt < 0 then a.toInt + 2 ^ m else a.toInt) -
      (if b.toInt < 0 then b.toInt + 2 ^ m else b.toInt)) := by
  have hn1 : W < 64 * ((if W2 < W then W else W2) / 64 + 1) := by split <;> omega
  have hn2 : W2 < 64 * ((if W2 < W then W else W2) / 64 + 1) := by split <;> omega
  refine ⟨_, hn1, hn2, ?_⟩
  unfold compare
  simp only
  generalize (if W2 < W then W else W2) / 64 + 1 = n at hn1 hn2 ⊢
  rw [a.extend_to_sign hn1, b.extend_to_sign hn2, compare_limbs_eq (by simp),
    reverse_reverse, reverse_reverse, a.cast_value_extend_to hn1,
    b.cast_value_extend_to hn2]
  simp

/-- Integers of one signedness compare as the integers they stand for. -/
theorem compare_eq (b : int_base W2 S) : a.compare b = Int.sign (a.toInt - b.toInt) := by
  obtain ⟨m, -, -, hcmp⟩ := a.compare_extended b
  have hsigned : compare_is_signed W S W2 S = S := by simp [compare_is_signed]
  rw [hcmp, hsigned]
  cases S with
  | false =>
    have ha : ¬a.toInt < 0 := not_lt.mpr a.toInt_fits.1
    have hb : ¬b.toInt < 0 := not_lt.mpr b.toInt_fits.1
    simp [ha, hb]
  | true =>
    by_cases ha : a.toInt < 0 <;> by_cases hb : b.toInt < 0
    · simp only [ha, hb, if_true, not_true, and_false, if_false]
      congr 1
      omega
    · simp only [ha, hb, iff_false, not_true, not_false_iff, and_self, if_true]
      rw [sign_eq_neg_one_of_neg (by omega)]
    · simp only [ha, hb, iff_true, not_false_iff, and_self, if_true, if_false]
      rw [sign_eq_one_of_pos (by omega)]
    · simp [ha, hb]

/-- Neither integer comes before the other just where they are equal. -/
theorem compare_eq_zero (b : int_base W2 S2) : a.compare b = 0 ↔ a.toInt = b.toInt := by
  obtain ⟨m, h1, h2, hcmp⟩ := a.compare_extended b
  have ha := a.toInt_bounds h1
  have hb := b.toInt_bounds h2
  have hpow : (2 : Int) ^ m = 2 * 2 ^ (m - 1) := cast_two_pow_width (by omega)
  rw [hcmp]
  split
  · split <;> omega
  · rw [sign_eq_zero_iff_zero]
    split <;> split <;> omega

end

theorem length_masked (EW : Nat) (limbs : List UInt64) :
    (masked EW limbs).length = limbs.length := by
  unfold masked
  split <;> simp

theorem testBit_masked {EW : Nat} {limbs : List UInt64} (hlen : limbs.length = (EW + 63) / 64)
    (k : Nat) : (value (masked EW limbs)).testBit k =
      (decide (k < EW) && (value limbs).testBit k) := by
  have hlt := value_lt limbs
  have hhigh (hk : ¬k < 64 * limbs.length) : (value limbs).testBit k = false :=
    testBit_lt_two_pow (lt_of_lt_of_le hlt
      (Nat.pow_le_pow_right (by decide) (Nat.not_lt.mp hk)))
  unfold masked
  split
  · rename_i hEW
    have hmask : shl 1 (EW % 64) - 1 = top_mask EW := by rw [top_mask, if_neg hEW]
    rw [hmask, testBit_value, testBit_value, getD_eq_getElem?_getD, getElem?_modify]
    by_cases hi : (EW + 63) / 64 - 1 = k / 64
    · have hget : limbs[k / 64]? = some (limbs.get ⟨k / 64, by omega⟩) := by simp
      rw [getD_eq_getElem?_getD, hget]
      simp only [hi, if_true, Option.map_eq_map, Option.map_some, Option.getD_some]
      rw [UInt64.toNat_and, testBit_and, testBit_top_mask, Bool.and_comm]
      congr 1
      rw [← Bool.decide_and, decide_eq_decide]
      omega
    · simp only [hi, if_false, Option.map_eq_map, Option.map_id']
      rw [← getD_eq_getElem?_getD, ← testBit_value]
      by_cases hk : k < EW
      · simp [hk]
      · rw [hhigh (by omega), Bool.and_false]
  · by_cases hk : k < EW
    · simp [hk]
    · rw [hhigh (by omega), Bool.and_false]

/-- The test for equality reads an integer modulo its width. -/
theorem value_masked_extend_to (x : int_base W S) (EW : Nat) :
    value (masked EW (x.extend_to ((EW + 63) / 64))) = (x.toInt % 2 ^ EW).toNat := by
  apply eq_of_testBit_eq
  intro k
  rw [testBit_masked (length_extend_to _ _), testBit_extend_to, testBit_toNat_emod]
  by_cases hk : k < EW
  · rw [decide_eq_true (p := k < 64 * ((EW + 63) / 64)) (by omega), Bool.true_and]
  · simp [hk]

section

variable (a : int_base W S) (b : int_base W2 S2)

theorem compare_values_eq_zero_iff :
    a.compare_values b = 0 ↔ a.toInt ≡ b.toInt [ZMOD 2 ^ equal_width W W2] := by
  unfold compare_values
  generalize equal_width W W2 = EW
  rw [compare_limbs_eq (by simp [length_masked]), reverse_reverse, reverse_reverse,
    sign_eq_zero_iff_zero, value_masked_extend_to, value_masked_extend_to]
  unfold Int.ModEq
  omega

/-- Integers of one signedness are equal if they stand for one integer. -/
theorem compare_values_eq_zero (a : int_base W S) (b : int_base W2 S) :
    a.compare_values b = 0 ↔ a.toInt = b.toInt := by
  have hwide {W' : Nat} (x : int_base W' S) (h : W' ≤ equal_width W W2) :
      Fits (equal_width W W2) S x.toInt :=
    x.toInt_fits.widen id x.pos (by simpa using h)
  have hW : W ≤ equal_width W W2 := by
    unfold equal_width
    split <;> split <;> omega
  have hW2 : W2 ≤ equal_width W W2 := by
    unfold equal_width
    split <;> split <;> omega
  rw [compare_values_eq_zero_iff]
  constructor
  · exact fits_unique (lt_of_lt_of_le a.pos hW) (hwide a hW) (hwide b hW2)
  · intro h
    rw [h]

/-! ## The operators of comparison -/

def eq : Bool := a.compare_values b = 0

def ne : Bool := a.compare_values b ≠ 0

def lt : Bool := a.compare b < 0

def le : Bool := a.compare b ≤ 0

def gt : Bool := 0 < a.compare b

def ge : Bool := 0 ≤ a.compare b

end

/-- Each relation says of two integers what it says of the ones that they stand for. -/
structure Exact (a : int_base W S) (b : int_base W2 S2) : Prop where
  eq : a.eq b ↔ a.toInt = b.toInt
  ne : a.ne b ↔ a.toInt ≠ b.toInt
  lt : a.lt b ↔ a.toInt < b.toInt
  le : a.le b ↔ a.toInt ≤ b.toInt
  gt : a.gt b ↔ b.toInt < a.toInt
  ge : a.ge b ↔ b.toInt ≤ a.toInt

/-- The operators of comparison agree with each other on two integers. -/
structure Consistent (a : int_base W S) (b : int_base W2 S2) : Prop where
  trichotomy : (a.lt b ∧ ¬a.eq b ∧ ¬a.gt b) ∨ (¬a.lt b ∧ a.eq b ∧ ¬a.gt b) ∨
    (¬a.lt b ∧ ¬a.eq b ∧ a.gt b)
  ne : a.ne b ↔ ¬a.eq b
  le : a.le b ↔ ¬a.gt b
  ge : a.ge b ↔ ¬a.lt b
  exact_of_same_signedness : S = S2 → Exact a b

/-- Mixed signedness breaks agreement in one way: integers that differ by a multiple of
the width of the test for equality are equal and in order at once. -/
theorem comparisons_agree_just_where_equality_is_exact (a : int_base W S) (b : int_base W2 S2) :
    Consistent a b ↔
      (a.toInt ≡ b.toInt [ZMOD 2 ^ equal_width W W2] → a.toInt = b.toInt) := by
  have heq : a.eq b = true ↔ a.toInt ≡ b.toInt [ZMOD 2 ^ equal_width W W2] := by
    rw [eq, decide_eq_true_eq, compare_values_eq_zero_iff]
  have hzero := a.compare_eq_zero b
  constructor
  · intro h hmod
    have hlt : ¬a.lt b = true ∧ ¬a.gt b = true := by
      have := heq.mpr hmod
      rcases h.trichotomy with h | h | h
      · exact absurd this h.2.1
      · exact ⟨h.1, h.2.2⟩
      · exact absurd this h.2.1
    simp only [lt, gt, decide_eq_true_eq] at hlt
    exact hzero.mp (by omega)
  · intro h
    have hiff : a.eq b = true ↔ a.compare b = 0 := by
      rw [heq, hzero]
      exact ⟨h, fun h => h ▸ rfl⟩
    refine ⟨?_, by simp [ne, eq], ?_, ?_, ?_⟩
    · rw [hiff]
      simp only [lt, gt, decide_eq_true_eq]
      omega
    · simp only [le, gt, decide_eq_true_eq]
      omega
    · simp only [ge, lt, decide_eq_true_eq]
      omega
    · rintro rfl
      have hcmp := a.compare_eq b
      have hval := a.compare_values_eq_zero b
      constructor <;> simp only [eq, ne, lt, le, gt, ge, decide_eq_true_eq]
      · exact hval
      · exact not_congr hval
      · rw [hcmp, sign_neg_iff]
        omega
      · rw [← not_lt, hcmp, sign_pos_iff]
        omega
      · rw [hcmp, sign_pos_iff]
        omega
      · rw [← not_lt, hcmp, sign_neg_iff]
        omega

/-- All ones, of 64 bits: equal as signed and unsigned, and the signed one is greater. -/
theorem all_ones_are_equal_and_in_order :
    ¬Consistent (of_native 64 true (by decide) (-1))
      (of_native 64 false (by decide) (2 ^ 64 - 1)) := by
  intro h
  have heq : (of_native 64 true (by decide) (-1)).eq
    (of_native 64 false (by decide) (2 ^ 64 - 1)) = true := by decide +kernel
  have hgt : (of_native 64 true (by decide) (-1)).gt
    (of_native 64 false (by decide) (2 ^ 64 - 1)) = true := by decide +kernel
  rcases h.trichotomy with h | h | h
  · exact h.2.1 heq
  · exact h.2.2 hgt
  · exact h.2.1 heq

/-! ## Single bits and the complement -/

def clear_bit (W b : Nat) (out : List UInt64) : List UInt64 :=
  out.modify (b / 64) fun limb => cast W (limb &&& ~~~(shl 1 (b % 64)))

theorem testBit_clear_bit {b : Nat} {out : List UInt64} (hout : value out < 2 ^ W) (k : Nat) :
    (value (clear_bit W b out)).testBit k = (!decide (k = b) && (value out).testBit k) := by
  have hbit : (value out).testBit k = true → k < W := lt_of_testBit hout
  rw [testBit_value, getD_eq_getElem?_getD] at hbit
  rw [testBit_value, testBit_value, clear_bit, getD_eq_getElem?_getD,
    getD_eq_getElem?_getD, getElem?_modify]
  cases hget : out[k / 64]? with
  | none => simp
  | some limb =>
    rw [hget, Option.getD_some] at hbit
    by_cases hi : b / 64 = k / 64
    · have hnot : (~~~(shl 1 (b % 64))).toNat.testBit (k % 64) = !decide (k = b) := by
        rw [testBit_not _ (mod_lt _ (by decide)), testBit_shl_one]
        congr 2
        exact propext ⟨fun h => by omega, fun h => by rw [h]⟩
      simp only [hi, if_true, Option.map_eq_map, Option.map_some, Option.getD_some]
      rw [testBit_cast, UInt64.toNat_and, testBit_and, hnot, Bool.and_comm (limb.toNat.testBit _)]
      by_cases hk : k < W
      · rw [← Bool.decide_or, decide_eq_true (kept_by_cast hk), Bool.and_true]
      · rw [Bool.eq_false_iff.mpr (mt hbit hk)]
        simp
    · have hne : k ≠ b := fun h => hi (by rw [h])
      simp [hi, hne]

/-- Assign one bit; an index at or above the width fails an assertion. -/
def set_bit (x : int_base W S) (idx : Nat) (value : Bool) : int_base W S :=
  if hidx : idx < W then
    have hcount : limb_count W ≤ x.v.length := by
      rw [x.length]
      exact limb_count_le_stored W
    if value then
      { v := or_bit W idx x.v
        pos := x.pos
        length := by rw [length_or_bit, x.length]
        bounded := by
          refine Nat.lt_pow_two_of_testBit _ fun k hk => ?_
          rw [testBit_or_bit hidx hcount x.bounded, decide_eq_false (by omega), Bool.false_or]
          exact Nat.testBit_lt_two_pow
            (Nat.lt_of_lt_of_le x.bounded (Nat.pow_le_pow_right (by decide) hk)) }
    else
      { v := clear_bit W idx x.v
        pos := x.pos
        length := by rw [clear_bit, length_modify, x.length]
        bounded := by
          refine Nat.lt_pow_two_of_testBit _ fun k hk => ?_
          rw [testBit_clear_bit x.bounded, Nat.testBit_lt_two_pow
            (Nat.lt_of_lt_of_le x.bounded (Nat.pow_le_pow_right (by decide) hk)), Bool.and_false] }
  else x

/-- One bit is assigned and every other bit stays. -/
theorem get_bit_set_bit (x : int_base W S) {idx : Nat} (hidx : idx < W) (bit : Bool) (k : Nat) :
    (x.set_bit idx bit).get_bit k = if k = idx then bit else x.get_bit k := by
  rw [get_bit_eq, get_bit_eq, set_bit, dif_pos hidx]
  have hcount : limb_count W ≤ x.v.length := by
    rw [x.length]
    exact limb_count_le_stored W
  cases bit with
  | true =>
    rw [if_pos rfl, testBit_or_bit hidx hcount x.bounded]
    by_cases hk : k = idx <;> simp [hk]
  | false =>
    rw [if_neg (by decide), testBit_clear_bit x.bounded]
    by_cases hk : k = idx <;> simp [hk]

def complement (x : int_base W S) : int_base W S :=
  of_limbs W S x.pos ((x.v.take (limb_count W)).map fun limb => ~~~limb) (by
    have := limb_count_le_stored W
    rw [length_map, length_take_of_le (by rw [x.length]; omega)])

/-- The complement of zero is the largest number of its width. -/
theorem value_complement_zero {x : int_base W S} (h : value x.v = 0) :
    value x.complement.v = 2 ^ W - 1 := by
  have hcount := limb_count_le_stored W
  have hlen : (x.v.take (limb_count W)).length = limb_count W :=
    length_take_of_le (by rw [x.length]; omega)
  have hnot := value_map_not (x.v.take (limb_count W))
  rw [value_take _ (by rw [x.length]; omega), h, Nat.zero_mod, hlen] at hnot
  have hval : value ((x.v.take (limb_count W)).map fun limb => ~~~limb) =
      2 ^ (64 * limb_count W) - 1 := by omega
  obtain ⟨d, hd⟩ := Nat.exists_eq_add_of_le (le_limb_count W)
  have hpos := Nat.two_pow_pos W
  have hposd := Nat.two_pow_pos d
  rw [complement, value_of_limbs, hval, hd, Nat.pow_add]
  -- All ones, less a multiple of the width's power of two.
  obtain ⟨e, he⟩ : ∃ e, 2 ^ d = e + 1 := ⟨2 ^ d - 1, by omega⟩
  rw [he, Nat.mul_add, Nat.mul_one, Nat.add_sub_assoc (by omega), Nat.mul_add_mod,
    Nat.mod_eq_of_lt (by omega)]

end int_base

end Tapa.Base
