-- Division of the integers of any width (`divide` of `base/int.h`): one bit of the
-- quotient after another, at a common type one bit wider than both operands.
import Tapa.IntCompare

namespace Tapa.Base

open Limbs List Nat

namespace rtype

variable (W1 : Nat) (S1 : Bool) (W2 : Nat) (S2 : Bool)

def kModW2 : Nat := W2 + if !S2 && S1 then 1 else 0

/-- The signedness of the wider operand wins. -/
def kCommonSigned : Bool := if W2 < W1 then S1 else if W1 < W2 then S2 else S1 || S2

def kCommonW : Nat := (if W2 < W1 then W1 else W2) + 1

def kDivW : Nat := W1 + if S2 then 1 else 0

def kModW : Nat := if W1 < kModW2 S1 W2 S2 then W1 else kModW2 S1 W2 S2

abbrev common : Type := int_base (kCommonW W1 W2) (kCommonSigned W1 S1 W2 S2)

abbrev div : Type := int_base (kDivW W1 S2) (S1 || S2)

abbrev mod : Type := int_base (kModW W1 S1 W2 S2) S1

end rtype

namespace int_base

variable {W : Nat} {S : Bool}

/-! ## The loop -/

section

variable (x : int_base W S)

def used : List UInt64 := x.v.take (limb_count W)

theorem length_used : x.used.length = limb_count W := by
  rw [used, length_take_of_le (by rw [x.length]; exact limb_count_le_stored W)]

theorem value_used : value x.used = value x.v := by
  have hle : limb_count W ≤ x.v.length := by
    rw [x.length]
    exact limb_count_le_stored W
  rw [used, value_take _ hle, Nat.mod_eq_of_lt (Nat.lt_of_lt_of_le x.bounded
    (Nat.pow_le_pow_right (by decide) (le_limb_count W)))]

def is_zero : Bool := x.used.all (· = 0)

/-- The loop over limbs from the most significant one, for two magnitudes. -/
def geq (a b : int_base W S) : Bool := 0 ≤ compare_limbs a.used.reverse b.used.reverse

theorem geq_iff {a b : int_base W S} : a.geq b = true ↔ value b.v ≤ value a.v := by
  rw [geq, compare_limbs_eq (by simp [length_used]), reverse_reverse, reverse_reverse,
    value_used, value_used, decide_eq_true_eq, Int.sign_nonneg_iff]
  omega

theorem is_zero_iff {x : int_base W S} : x.is_zero = true ↔ value x.v = 0 := by
  rw [is_zero, ← value_used]
  induction x.used with
  | nil => simp
  | cons limb limbs ih =>
    rw [all_cons, Bool.and_eq_true, ih, decide_eq_true_eq, ← UInt64.toNat_inj, value_cons]
    show limb.toNat = 0 ∧ _ ↔ _
    omega

theorem sub_used {a b : int_base W S} (h : value b.v ≤ value a.v) :
    (sub_limbs a.used b.used).length = limb_count W ∧
      value (sub_limbs a.used b.used) = value a.v - value b.v := by
  have hsame := a.length_used.trans b.length_used.symm
  have hlen : (sub_limbs a.used b.used).length = limb_count W :=
    (length_sub_limbs_from 0 hsame).trans a.length_used
  refine ⟨hlen, ?_⟩
  have hmod := value_sub_limbs hsame
  have hlt := value_lt (sub_limbs a.used b.used)
  have ha := value_lt a.used
  rw [hlen] at hlt
  rw [value_used, value_used, ← Nat.sub_add_cancel h] at hmod
  rw [value_used] at ha
  have hcancel := Nat.ModEq.add_right_cancel' _ hmod
  exact Nat.ModEq.eq_of_lt_of_lt hcancel (by rwa [a.length_used]) (by omega)

/-- The difference of two magnitudes in the limbs in use. -/
def subtract (a b : int_base W S) (h : value b.v ≤ value a.v) : int_base W S where
  v := store W (sub_limbs a.used b.used)
  pos := a.pos
  length := length_store W (le_of_eq (sub_used h).1.symm)
  bounded := by
    obtain ⟨hlen, hval⟩ := sub_used h
    have hlt : value (sub_limbs a.used b.used) < 2 ^ W := by
      have := a.bounded
      omega
    rwa [value_store hlen hlt]

theorem value_subtract {a b : int_base W S} (h : value b.v ≤ value a.v) :
    value (a.subtract b h).v = value a.v - value b.v := by
  obtain ⟨hlen, hval⟩ := sub_used h
  have := a.bounded
  rw [← hval]
  exact value_store hlen (by omega)

/-- The remainder with the next bit of the dividend. -/
def shift_in (a r : int_base W S) (bit : Nat) : int_base W S :=
  if a.get_bit bit then (r.shl_storage 1).set_bit 0 true else r.shl_storage 1

def divide_bit (a b : int_base W S) (s : int_base W S × int_base W S) (bit : Nat) :
    int_base W S × int_base W S :=
  let r := shift_in a s.2 bit
  if h : r.geq b = true then (s.1.set_bit bit true, r.subtract b (geq_iff.mp h)) else (s.1, r)

/-- The quotient and the remainder after the `n` most significant bits. -/
def divide_bits (a b : int_base W S) (n : Nat) : int_base W S × int_base W S :=
  (List.range n).foldl (fun s k => divide_bit a b s (W - 1 - k))
    (set_int W S a.pos 0 false, set_int W S a.pos 0 false)

/-- C-semantics division at one type. -/
def divide (x d : int_base W S) : int_base W S × int_base W S :=
  if !d.is_zero then
    let s := divide_bits x.magnitude d.magnitude W
    let dividend_negative := S && x.negative
    let divisor_negative := S && d.negative
    (if dividend_negative ≠ divisor_negative then s.1.negate else s.1,
      if dividend_negative then s.2.negate else s.2)
  else (set_int W S x.pos 0 false, set_int W S x.pos 0 false)

theorem value_set_bit_true {idx : Nat} (hidx : idx < W) :
    value (x.set_bit idx true).v = value x.v ||| 2 ^ idx := by
  apply eq_of_testBit_eq
  intro k
  rw [← get_bit_eq, get_bit_set_bit x hidx, get_bit_eq, testBit_or]
  by_cases hk : k = idx <;> simp [hk, Ne.symm]

theorem value_shift_in (a r : int_base W S) (bit : Nat)
    (hroom : 2 * value r.v + value a.v / 2 ^ bit % 2 < 2 ^ W) :
    value (shift_in a r bit).v = 2 * value r.v + value a.v / 2 ^ bit % 2 := by
  have hshl : value (r.shl_storage 1).v = 2 * value r.v := by
    rw [value_shl_storage, pow_one, mod_eq_of_lt (by omega), mul_comm]
  have hget := a.get_bit_eq bit
  rw [testBit_eq_decide_div_mod_eq] at hget
  unfold shift_in
  split
  · rename_i hset
    rw [hset, eq_comm, decide_eq_true_eq] at hget
    rw [value_set_bit_true _ a.pos, hshl, hget]
    exact (two_pow_add_eq_or_of_lt (show 1 < 2 ^ 1 by decide) (value r.v)).symm
  · rename_i hset
    rw [Bool.not_eq_true] at hset
    rw [hset, eq_comm, decide_eq_false_iff_not] at hget
    omega

/-- The bits that have been seen are divided, and the quotient is in place. -/
structure Divided (a b : int_base W S) (bit : Nat) (s : int_base W S × int_base W S) : Prop where
  remainder : value s.2.v < value b.v
  quotient : ∃ p, value s.1.v = p * 2 ^ bit ∧ value a.v / 2 ^ bit = p * value b.v + value s.2.v

/-- The next bit of the dividend joins the remainder. It has room, since the remainder is never
above the bits that have been seen. -/
theorem Divided.step {a b : int_base W S} {bit : Nat} {s : int_base W S × int_base W S}
    (h : Divided a b (bit + 1) s) (hbit : bit < W) : Divided a b bit (divide_bit a b s bit) := by
  obtain ⟨hlt, p, hq, ha⟩ := h
  have hnext : value a.v / 2 ^ bit = 2 * (value a.v / 2 ^ (bit + 1)) + value a.v / 2 ^ bit % 2 := by
    rw [Nat.pow_succ, ← Nat.div_div_eq_div_mul]
    omega
  have hroom : value a.v / 2 ^ bit < 2 ^ W := Nat.lt_of_le_of_lt (Nat.div_le_self _ _) a.bounded
  have hr := value_shift_in a s.2 bit (by omega)
  have hpos := Nat.two_pow_pos bit
  unfold divide_bit
  simp only
  split
  · rename_i hge
    have hle := geq_iff.mp hge
    have hor := Nat.two_pow_add_eq_or_of_lt (show 2 ^ bit < 2 ^ (bit + 1) by omega) p
    refine ⟨?_, 2 * p + 1, ?_, ?_⟩
    · rw [value_subtract]
      omega
    · rw [value_set_bit_true _ hbit, hq, Nat.mul_comm p, ← hor]
      ring
    · have hsum : (2 * p + 1) * value b.v = 2 * (p * value b.v) + value b.v := by ring
      rw [value_subtract]
      omega
  · rename_i hge
    rw [geq_iff] at hge
    refine ⟨?_, 2 * p, ?_, ?_⟩
    · simp only
      omega
    · rw [hq]
      ring
    · simp only
      rw [Nat.mul_assoc]
      omega

theorem divide_bits_divided {a b : int_base W S} (hb : 0 < value b.v) {n : Nat} (hn : n ≤ W) :
    Divided a b (W - n) (divide_bits a b n) := by
  induction n with
  | zero =>
    have hzero := value_set_int_zero (S := S) a.pos
    refine ⟨?_, 0, ?_, ?_⟩
    · show value (set_int W S a.pos 0 false).v < _
      rwa [hzero]
    · rw [zero_mul]
      exact hzero
    · rw [Nat.sub_zero, Nat.div_eq_of_lt a.bounded, Nat.zero_mul, Nat.zero_add]
      exact hzero.symm
  | succ n ih =>
    have hprev := ih (by omega)
    rw [show W - n = W - 1 - n + 1 by omega] at hprev
    rw [divide_bits, range_succ, foldl_append, show W - (n + 1) = W - 1 - n by omega]
    exact hprev.step (by omega)

theorem value_divide_bits {a b : int_base W S} (hb : 0 < value b.v) :
    value (divide_bits a b W).1.v = value a.v / value b.v ∧
      value (divide_bits a b W).2.v = value a.v % value b.v := by
  obtain ⟨hlt, p, hq, ha⟩ := divide_bits_divided hb (le_refl W)
  rw [Nat.sub_self, Nat.pow_zero] at hq ha
  rw [Nat.div_one] at ha
  rw [hq, mul_one, ha]
  constructor
  · rw [mul_comm, mul_add_div hb, div_eq_of_lt hlt, add_zero]
  · rw [mul_comm, mul_add_mod, mod_eq_of_lt hlt]

/-! ## Truncated division -/

theorem tdiv_eq_signed (a b : Int) : a.tdiv b =
    if decide (a < 0) ≠ decide (b < 0) then -((a.natAbs / b.natAbs : Nat) : Int)
    else ((a.natAbs / b.natAbs : Nat) : Int) := by
  rw [Int.ofNat_tdiv]
  by_cases ha : a < 0 <;> by_cases hb : b < 0
  · rw [if_neg (by simp [ha, hb]), ← Int.neg_tdiv_neg, ← Int.ofNat_natAbs_of_nonpos ha.le,
      ← Int.ofNat_natAbs_of_nonpos hb.le]
  · rw [if_pos (by simp [ha, hb]), Int.ofNat_natAbs_of_nonpos ha.le,
      Int.natAbs_of_nonneg (not_lt.mp hb), Int.neg_tdiv, neg_neg]
  · rw [if_pos (by simp [ha, hb]), Int.ofNat_natAbs_of_nonpos hb.le,
      Int.natAbs_of_nonneg (not_lt.mp ha), Int.tdiv_neg, neg_neg]
  · rw [if_neg (by simp [ha, hb]), Int.natAbs_of_nonneg (not_lt.mp ha),
      Int.natAbs_of_nonneg (not_lt.mp hb)]

theorem tmod_eq_signed (a b : Int) : a.tmod b = if decide (a < 0)
    then -((a.natAbs % b.natAbs : Nat) : Int) else ((a.natAbs % b.natAbs : Nat) : Int) := by
  have habs := Int.natAbs_tmod a b
  by_cases ha : a < 0
  · have hneg := Int.tmod_nonneg b (show 0 ≤ -a by omega)
    rw [Int.neg_tmod] at hneg
    rw [if_pos (by simp [ha])]
    omega
  · have hpos := Int.tmod_nonneg b (show 0 ≤ a by omega)
    rw [if_neg (by simp [ha])]
    omega

theorem toInt_negate_if {neg : Prop} [Decidable neg] :
    (if neg then x.negate else x).toInt ≡ if neg then -(value x.v : Int) else value x.v
      [ZMOD 2 ^ W] := by
  have hx := x.value_modEq.symm
  split
  · exact (toInt_modEq x.value_negate).trans hx.neg
  · exact hx

end

/-- Division rounds toward zero, and the remainder has the sign of the dividend. -/
theorem toInt_divide {x d : int_base W S} (hd : d.toInt ≠ 0) :
    (x.divide d).1.toInt ≡ x.toInt.tdiv d.toInt [ZMOD 2 ^ W] ∧
      (x.divide d).2.toInt ≡ x.toInt.tmod d.toInt [ZMOD 2 ^ W] := by
  have hb : 0 < value d.magnitude.v := by
    rw [value_magnitude]
    omega
  have hzero : d.is_zero = false := by
    rw [← Bool.not_eq_true, is_zero_iff]
    exact fun h => hd (toInt_of_value_zero h)
  obtain ⟨hq, hr⟩ := value_divide_bits (a := x.magnitude) hb
  rw [value_magnitude, value_magnitude] at hq hr
  rw [divide, hzero, tdiv_eq_signed, tmod_eq_signed, ← hq, ← hr]
  simp only [Bool.not_false, if_true, negative_eq]
  exact ⟨toInt_negate_if _, toInt_negate_if _⟩

end int_base

/-! ## Operators on two types -/

variable {W1 W2 : Nat} {S1 S2 : Bool}

theorem rtype.kModW_pos (hW1 : 0 < W1) (hW2 : 0 < W2) : 0 < kModW W1 S1 W2 S2 := by
  unfold kModW
  split
  · exact hW1
  · exact Nat.add_pos_left hW2 _

namespace int_base

section

variable (a : int_base W1 S1) (b : int_base W2 S2)

def common : rtype.common W1 S1 W2 S2 × rtype.common W1 S1 W2 S2 :=
  (a.convert _ _ (succ_pos _), b.convert _ _ (succ_pos _))

def div : rtype.div W1 S1 S2 :=
  (divide (common a b).1 (common a b).2).1.convert _ _ (Nat.add_pos_left a.pos _)

def mod : rtype.mod W1 S1 W2 S2 :=
  (divide (common a b).1 (common a b).2).2.convert _ _ (rtype.kModW_pos a.pos b.pos)

/-- A conversion to a narrower type only reads the number modulo its width. -/
theorem value_convert_of_modEq {W : Nat} {S : Bool} (hW : 0 < W) {x : int_base W2 S2} {z : Int}
    (hle : W ≤ W2) (h : x.toInt ≡ z [ZMOD 2 ^ W2]) :
    value (x.convert W S hW).v = (z % 2 ^ W).toNat := by
  rw [value_convert, (h.of_dvd (pow_dvd_pow 2 hle)).eq]

theorem common_ne_zero {a : int_base W1 S1} {b : int_base W2 S2} (hb : b.toInt ≠ 0) :
    (common a b).2.toInt ≠ 0 := by
  have hlt : W2 < rtype.kCommonW W1 W2 := by
    unfold rtype.kCommonW
    split <;> omega
  have hbounds := b.toInt_bounds hlt
  have hpow := cast_two_pow_width (lt_of_le_of_lt (zero_le _) hlt)
  have hmod : (common a b).2.toInt ≡ b.toInt [ZMOD 2 ^ rtype.kCommonW W1 W2] :=
    toInt_modEq (value_convert _ b)
  intro h
  have hdvd := hmod.dvd
  rw [h, Int.sub_zero] at hdvd
  exact hb (Int.eq_zero_of_abs_lt_dvd hdvd (abs_lt.mpr (by omega)))

/-- The common type holds both operands, unless the wider one alone is unsigned. -/
theorem toInt_common (h : S1 = S2 ∨ W1 = W2 ∨ (if W2 < W1 then S1 else S2) = true) :
    (common a b).1.toInt = a.toInt ∧ (common a b).2.toInt = b.toInt := by
  have hsigned : (S1 = true → rtype.kCommonSigned W1 S1 W2 S2 = true) ∧
      (S2 = true → rtype.kCommonSigned W1 S1 W2 S2 = true) := by
    unfold rtype.kCommonSigned
    rcases h with rfl | rfl | h
    · simp
    · simp +contextual
    · split_ifs at h ⊢ <;> simp_all
  constructor
  · refine toInt_convert a (a.toInt_fits.widen hsigned.1 a.pos ?_)
    unfold rtype.kCommonW
    split <;> split <;> omega
  · refine toInt_convert b (b.toInt_fits.widen hsigned.2 b.pos ?_)
    unfold rtype.kCommonW
    split <;> split <;> omega

theorem fits_tdiv : Fits (rtype.kDivW W1 S2) (S1 || S2) (a.toInt.tdiv b.toInt) := by
  have hle := div_le_self a.toInt.natAbs b.toInt.natAbs
  have ha := a.toInt_fits
  have hb := b.toInt_fits
  have hpow := cast_two_pow_width a.pos
  rw [tdiv_eq_signed]
  unfold Fits rtype.kDivW at *
  generalize a.toInt.natAbs / b.toInt.natAbs = q at *
  cases S1 <;> cases S2 <;> simp at ha hb ⊢ <;> split <;> omega

theorem fits_tmod (a : int_base W1 S1) {b : int_base W2 S2} (hb : b.toInt ≠ 0) :
    Fits (rtype.kModW W1 S1 W2 S2) S1 (a.toInt.tmod b.toInt) := by
  have hle := mod_le a.toInt.natAbs b.toInt.natAbs
  have hlt := mod_lt a.toInt.natAbs (Int.natAbs_pos.mpr hb)
  have ha := a.toInt_fits
  have hb := b.toInt_fits
  have hpow := cast_two_pow_width b.pos
  have hwide : (2 : Int) ^ (W2 + 1 - 1) = 2 ^ W2 := rfl
  rw [tmod_eq_signed]
  unfold Fits rtype.kModW rtype.kModW2 at *
  generalize a.toInt.natAbs % b.toInt.natAbs = r at *
  cases S1 <;> cases S2 <;> simp at ha hb ⊢ <;> split <;> split <;> omega

/-- `/` and `%` are truncated division at the common type. They are exact where that type holds
both operands. -/
theorem division_truncates_and_is_exact (hb : b.toInt ≠ 0) :
    value (a.div b).v = ((common a b).1.toInt.tdiv (common a b).2.toInt %
        2 ^ rtype.kDivW W1 S2).toNat ∧
      value (a.mod b).v = ((common a b).1.toInt.tmod (common a b).2.toInt %
        2 ^ rtype.kModW W1 S1 W2 S2).toNat ∧
      (S1 = S2 ∨ W1 = W2 ∨ (if W2 < W1 then S1 else S2) = true →
        (a.div b).toInt = a.toInt.tdiv b.toInt ∧ (a.mod b).toInt = a.toInt.tmod b.toInt) := by
  obtain ⟨hq, hr⟩ := toInt_divide (common_ne_zero hb)
  have hdiv := value_convert_of_modEq (S := S1 || S2) (Nat.add_pos_left a.pos _)
    (show rtype.kDivW W1 S2 ≤ rtype.kCommonW W1 W2 by
      unfold rtype.kDivW rtype.kCommonW
      split <;> split <;> omega) hq
  have hmod := value_convert_of_modEq (S := S1) (rtype.kModW_pos a.pos b.pos)
    (show rtype.kModW W1 S1 W2 S2 ≤ rtype.kCommonW W1 W2 by
      unfold rtype.kModW rtype.kCommonW
      split <;> split <;> omega) hr
  refine ⟨hdiv, hmod, fun h => ?_⟩
  obtain ⟨ha, hb'⟩ := toInt_common a b h
  rw [ha, hb'] at hdiv hmod
  exact ⟨toInt_eq_of_fits _ (fits_tdiv a b) hdiv, toInt_eq_of_fits _ (fits_tmod a hb) hmod⟩

end

theorem the_most_negative_integer_over_minus_one :
    (of_native 8 true (by decide) (-1)).toInt ≠ 0 ∧
      ((of_native 8 true (by decide) (-128)).div
        (of_native 8 true (by decide) (-1))).toInt = 128 := by
  have hb : (of_native 8 true (by decide) (-1)).toInt ≠ 0 := by decide +kernel
  have ha : (of_native 8 true (by decide) (-128)).toInt.tdiv
      (of_native 8 true (by decide) (-1)).toInt = 128 := by decide +kernel
  exact ⟨hb, ((division_truncates_and_is_exact _ _ hb).2.2 (.inl rfl)).1.trans ha⟩

end int_base

end Tapa.Base
