-- Arithmetic on integers of any width: every operator computes at a width at which
-- its exact result fits, and shifts keep the width of their left operand.
import Tapa.IntBase
import Tapa.IntLimbs

namespace Tapa.Base

open Limbs List Int

/-! ## Result types -/

namespace rtype

variable (W1 : Nat) (S1 : Bool) (W2 : Nat) (S2 : Bool)

def kAdjustedW1 : Nat := W1 + if S2 && !S1 then 1 else 0

def kAdjustedW2 : Nat := W2 + if S1 && !S2 then 1 else 0

def kPlusW : Nat :=
  if kAdjustedW2 S1 W2 S2 < kAdjustedW1 W1 S1 S2 then kAdjustedW1 W1 S1 S2
  else kAdjustedW2 S1 W2 S2

abbrev mult : Type := int_base (W1 + W2) (S1 || S2)

abbrev plus : Type := int_base (kPlusW W1 S1 W2 S2 + 1) (S1 || S2)

abbrev minus : Type := int_base (kPlusW W1 S1 W2 S2 + 1) true

abbrev logic : Type := int_base (kPlusW W1 S1 W2 S2) (S1 || S2)

abbrev arg1 : Type := int_base W1 S1

end rtype

/-! ## Ranges -/

section Fits

variable {W W1 W2 : Nat} {S S1 S2 : Bool}

/-- A wider type has room, with one bit more for the sign of an unsigned value. -/
theorem Fits.widen {z : Int} (h : Fits W2 S2 z) (hS : S2 = true → S = true) (hW2 : 0 < W2)
    (hle : (W2 + if S && !S2 then 1 else 0) ≤ W) : Fits W S z := by
  have hmono {m n : Nat} (hmn : m ≤ n) : (2 : Int) ^ m ≤ 2 ^ n :=
    pow_le_pow_right₀ (by decide) hmn
  unfold Fits at h ⊢
  cases S2 with
  | true =>
    rw [hS rfl]
    simp only [if_true] at h ⊢
    have := hmono (show W2 - 1 ≤ W - 1 by omega)
    omega
  | false =>
    simp only [Bool.false_eq_true, if_false] at h
    cases S with
    | true =>
      simp only [Bool.not_false, Bool.and_true, if_true] at hle ⊢
      have := hmono (show W2 ≤ W - 1 by omega)
      omega
    | false =>
      simp only [Bool.false_eq_true, if_false, Bool.false_and, Nat.add_zero] at hle ⊢
      have := hmono hle
      omega

theorem Fits.succ {z : Int} (hW : 0 < W) (h : Fits W S z) (S' : Bool) (hS : S = true → S' = true) :
    Fits (W + 1) S' z := by
  refine h.widen hS hW ?_
  split <;> omega

/-- A product has the bits of both operands. -/
theorem Fits.mul {x y : Int} (hW1 : 0 < W1) (hW2 : 0 < W2) (hx : Fits W1 S1 x)
    (hy : Fits W2 S2 y) : Fits (W1 + W2) (S1 || S2) (x * y) := by
  obtain ⟨m, rfl⟩ : ∃ m, W1 = m + 1 := ⟨W1 - 1, by omega⟩
  obtain ⟨n, rfl⟩ : ∃ n, W2 = n + 1 := ⟨W2 - 1, by omega⟩
  have hpow : (2 : Int) ^ (m + 1 + (n + 1) - 1) = 2 * (2 ^ m * 2 ^ n) := by
    rw [show m + 1 + (n + 1) - 1 = m + n + 1 by omega, pow_succ]
    ring
  unfold Fits at *
  cases S1 <;> cases S2 <;>
    simp only [Bool.or_true, Bool.or_false, Bool.false_eq_true, if_true, if_false,
      Nat.add_sub_cancel, hpow, pow_succ] at *
  · exact ⟨by nlinarith, by rw [pow_add, pow_succ, pow_succ]; nlinarith⟩
  · constructor <;> nlinarith
  · constructor <;> nlinarith
  · constructor <;> nlinarith

end Fits

namespace int_base

variable {W W1 W2 : Nat} {S S1 S2 : Bool}

/-! ## Operators on one type -/

/-- The result of a limb loop on two extended operands. -/
def bin_op (combine : List UInt64 → List UInt64 → List UInt64)
    (hlen : ∀ a b, a.length = b.length → (combine a b).length = a.length) (x y : int_base W S) :
    int_base W S :=
  of_limbs W S x.pos (combine (x.extend_to (limb_count W)) (y.extend_to (limb_count W)))
    (by rw [hlen _ _ (by simp), length_extend_to])

/-- A result that is right modulo its width. -/
theorem value_of_limbs_of_modEq {hW : 0 < W} {out : List UInt64} {h : limb_count W ≤ out.length}
    {z : Int} (hz : (value out : Int) ≡ z [ZMOD 2 ^ W]) :
    value (of_limbs W S hW out h).v = (z % 2 ^ W).toNat := by
  have hmod : (value out : Int) % 2 ^ W = z % 2 ^ W := hz
  rw [value_of_limbs, ← hmod]
  norm_cast

theorem two_pow_dvd_limbs (W : Nat) : (2 : Int) ^ W ∣ 2 ^ (64 * limb_count W) :=
  pow_dvd_pow 2 (le_limb_count W)

theorem value_extend_to_modEq (x : int_base W S) (N : Nat) :
    (value (x.extend_to N) : Int) ≡ x.toInt [ZMOD 2 ^ (64 * N)] := by
  have hpos : (0 : Int) < 2 ^ (64 * N) := by positivity
  rw [value_extend_to, toNat_of_nonneg (emod_nonneg _ (ne_of_gt hpos))]
  exact mod_modEq _ _

theorem value_modEq (x : int_base W S) : (value x.v : Int) ≡ x.toInt [ZMOD 2 ^ W] := by
  have hpos : (0 : Int) < 2 ^ W := by positivity
  rw [← x.toInt_emod, toNat_of_nonneg (emod_nonneg _ (ne_of_gt hpos))]
  exact mod_modEq _ _

theorem value_add (x y : int_base W S) :
    value (bin_op add_limbs (fun _ _ => length_add_limbs_from 0) x y).v =
      ((x.toInt + y.toInt) % 2 ^ W).toNat := by
  refine value_of_limbs_of_modEq ?_
  have hlimbs := value_add_limbs (a := x.extend_to (limb_count W))
    (b := y.extend_to (limb_count W)) (by simp)
  rw [length_extend_to] at hlimbs
  have hint := natCast_modEq_iff.mpr hlimbs
  exact (hint.trans ((x.value_extend_to_modEq _).add (y.value_extend_to_modEq _))).of_dvd
    (two_pow_dvd_limbs W)

theorem value_sub (x y : int_base W S) :
    value (bin_op sub_limbs (fun _ _ => length_sub_limbs_from 0) x y).v =
      ((x.toInt - y.toInt) % 2 ^ W).toNat := by
  refine value_of_limbs_of_modEq ?_
  have hlimbs := value_sub_limbs (a := x.extend_to (limb_count W))
    (b := y.extend_to (limb_count W)) (by simp)
  rw [length_extend_to] at hlimbs
  have hint := natCast_modEq_iff.mpr hlimbs
  push_cast at hint
  have hsub := (hint.trans (x.value_extend_to_modEq _)).sub (y.value_extend_to_modEq _)
  rw [Int.add_sub_cancel] at hsub
  exact hsub.of_dvd (two_pow_dvd_limbs W)

theorem value_mul (int128 : Bool) (x y : int_base W S) :
    value (bin_op (mul_limbs int128) (fun _ _ => length_mul_limbs int128) x y).v =
      ((x.toInt * y.toInt) % 2 ^ W).toNat := by
  refine value_of_limbs_of_modEq ?_
  have hlimbs := value_mul_limbs int128 (a := x.extend_to (limb_count W))
    (b := y.extend_to (limb_count W)) (by simp)
  rw [length_extend_to] at hlimbs
  have hint := natCast_modEq_iff.mpr hlimbs
  exact (hint.trans ((x.value_extend_to_modEq _).mul (y.value_extend_to_modEq _))).of_dvd
    (two_pow_dvd_limbs W)

/-- A function of bits acts on the bits of the integers, those above the width too. -/
theorem testBit_bitwise {f : UInt64 → UInt64 → UInt64} {g : Bool → Bool → Bool}
    (hf : ∀ x y k, (f x y).toNat.testBit k = g (x.toNat.testBit k) (y.toNat.testBit k))
    (hg : g false false = false)
    (hlen : ∀ a b : List UInt64, a.length = b.length → (List.zipWith f a b).length = a.length)
    (x y : int_base W S) (k : Nat) :
    (bin_op (List.zipWith f) hlen x y).toInt.testBit k =
      g (x.toInt.testBit k) (y.toInt.testBit k) := by
  have hle := le_limb_count W
  have hpos := x.pos
  have hbit {k : Nat} (hk : k < W) : (value (bin_op (List.zipWith f) hlen x y).v).testBit k =
      g (x.toInt.testBit k) (y.toInt.testBit k) := by
    rw [bin_op, value_of_limbs, Nat.testBit_mod_two_pow, testBit_value_zipWith hf hg (by simp),
      testBit_extend_to, testBit_extend_to, decide_eq_true hk,
      decide_eq_true (by omega)]
    rfl
  rw [testBit_toInt]
  by_cases hk : k < W
  · rw [if_pos hk, hbit hk]
  rw [if_neg hk, negative, get_bit_eq, hbit (by omega), testBit_toInt x k, testBit_toInt y k,
    testBit_toInt x (W - 1), testBit_toInt y (W - 1), if_neg hk, if_neg hk,
    if_pos (by omega), if_pos (by omega), ← get_bit_eq, ← get_bit_eq]
  cases S with
  | true => rfl
  | false => exact hg.symm

theorem toInt_convert {hW : 0 < W} (x : int_base W2 S2) (h : Fits W S x.toInt) :
    (x.convert W S hW).toInt = x.toInt :=
  toInt_eq_of_fits _ h (value_convert hW x)

end int_base

namespace rtype

variable {W1 W2 : Nat} {S1 S2 : Bool}

theorem le_kPlusW (W1 : Nat) (S1 : Bool) (W2 : Nat) (S2 : Bool) :
    (W1 + if (S1 || S2) && !S1 then 1 else 0) ≤ kPlusW W1 S1 W2 S2 ∧
      (W2 + if (S1 || S2) && !S2 then 1 else 0) ≤ kPlusW W1 S1 W2 S2 := by
  have h1 : (W1 + if (S1 || S2) && !S1 then 1 else 0) = kAdjustedW1 W1 S1 S2 := by
    cases S1 <;> cases S2 <;> rfl
  have h2 : (W2 + if (S1 || S2) && !S2 then 1 else 0) = kAdjustedW2 S1 W2 S2 := by
    cases S1 <;> cases S2 <;> rfl
  rw [h1]
  unfold kPlusW
  split <;> omega

theorem kPlusW_pos (hW1 : 0 < W1) : 0 < kPlusW W1 S1 W2 S2 := by
  have := (le_kPlusW W1 S1 W2 S2).1
  omega

end rtype

namespace int_base

variable {W W1 W2 : Nat} {S S1 S2 : Bool}

/-! ## Operators on two types -/

section

variable (a : int_base W1 S1) (b : int_base W2 S2)

def plus : rtype.plus W1 S1 W2 S2 :=
  bin_op add_limbs (fun _ _ => length_add_limbs_from 0)
    (a.convert _ _ (Nat.succ_pos _)) (b.convert _ _ (Nat.succ_pos _))

def minus : rtype.minus W1 S1 W2 S2 :=
  bin_op sub_limbs (fun _ _ => length_sub_limbs_from 0)
    (a.convert _ _ (Nat.succ_pos _)) (b.convert _ _ (Nat.succ_pos _))

def mult (int128 : Bool) (a : int_base W1 S1) (b : int_base W2 S2) : rtype.mult W1 S1 W2 S2 :=
  bin_op (mul_limbs int128) (fun _ _ => length_mul_limbs int128)
    (a.convert _ _ (a.pos_add W2)) (b.convert _ _ (a.pos_add W2))

theorem length_zipWith_eq (f : UInt64 → UInt64 → UInt64) (a b : List UInt64)
    (h : a.length = b.length) : (List.zipWith f a b).length = a.length := by
  rw [length_zipWith, h, Nat.min_self]

/-- The loops `and_limbs`, `or_limbs` and `xor_limbs`, which differ in their operator. -/
def logic (f : UInt64 → UInt64 → UInt64) (a : int_base W1 S1) (b : int_base W2 S2) :
    rtype.logic W1 S1 W2 S2 :=
  bin_op (List.zipWith f) (length_zipWith_eq f)
    (a.convert _ _ (rtype.kPlusW_pos a.pos)) (b.convert _ _ (rtype.kPlusW_pos a.pos))

def bitand : rtype.logic W1 S1 W2 S2 := logic (· &&& ·) a b

def bitor : rtype.logic W1 S1 W2 S2 := logic (· ||| ·) a b

def bitxor : rtype.logic W1 S1 W2 S2 :=
  logic (· ^^^ ·) a b

/-- A 64-bit integer at this width, with its sign. -/
def set_int (W : Nat) (S : Bool) (hW : 0 < W) (x : UInt64) (neg : Bool) : int_base W S :=
  of_limbs W S hW (x :: List.replicate (limb_count W - 1) (if neg then ones else 0)) (by
    have := limb_count_pos W
    simp only [length_cons, length_replicate]
    omega)

/-- Zero minus the integer, at the width of that difference. -/
def unary_minus (a : int_base W S) : rtype.minus 1 false W S :=
  let zero : rtype.minus 1 false W S := set_int _ _ (Nat.succ_pos _) 0 false
  (zero.minus a).convert _ _ (Nat.succ_pos _)

/-- The operands fit into the type of a sum without its carry. -/
theorem fits_kPlusW : Fits (rtype.kPlusW W1 S1 W2 S2) (S1 || S2) a.toInt ∧
      Fits (rtype.kPlusW W1 S1 W2 S2) (S1 || S2) b.toInt := by
  obtain ⟨h1, h2⟩ := rtype.le_kPlusW W1 S1 W2 S2
  exact ⟨Fits.widen a.toInt_fits (fun h => by simp [h]) a.pos h1,
    Fits.widen b.toInt_fits (fun h => by simp [h]) b.pos h2⟩

theorem toInt_plus : (a.plus b).toInt = a.toInt + b.toInt := by
  obtain ⟨ha, hb⟩ := fits_kPlusW a b
  have hpos : 0 < rtype.kPlusW W1 S1 W2 S2 := rtype.kPlusW_pos a.pos
  have hpow := cast_two_pow_width hpos
  refine toInt_eq_of_fits _ ?_ ?_
  · unfold Fits at ha hb ⊢
    rw [Nat.add_sub_cancel]
    split
    · rename_i hS
      rw [if_pos hS] at ha hb
      omega
    · rename_i hS
      rw [if_neg hS] at ha hb
      omega
  · rw [plus, value_add, toInt_convert a (ha.succ hpos _ id), toInt_convert b (hb.succ hpos _ id)]

theorem toInt_minus : (a.minus b).toInt = a.toInt - b.toInt := by
  obtain ⟨ha, hb⟩ := fits_kPlusW a b
  have hpos : 0 < rtype.kPlusW W1 S1 W2 S2 := rtype.kPlusW_pos a.pos
  have hpow := cast_two_pow_width hpos
  refine toInt_eq_of_fits _ ?_ ?_
  · unfold Fits at ha hb ⊢
    rw [Nat.add_sub_cancel, if_pos rfl]
    split at ha
    · rename_i hS
      rw [if_pos hS] at hb
      omega
    · rename_i hS
      rw [if_neg hS] at hb
      omega
  · rw [minus, value_sub, toInt_convert a (ha.succ hpos true fun _ => rfl),
      toInt_convert b (hb.succ hpos true fun _ => rfl)]

theorem toInt_mult (int128 : Bool) (a : int_base W1 S1) (b : int_base W2 S2) :
    (a.mult int128 b).toInt = a.toInt * b.toInt := by
  have h1 := a.pos
  have h2 := b.pos
  refine toInt_eq_of_fits _ (Fits.mul h1 h2 a.toInt_fits b.toInt_fits) ?_
  rw [mult, value_mul, toInt_convert a, toInt_convert b]
  · refine b.toInt_fits.widen (fun h => by simp [h]) h2 ?_
    split <;> omega
  · refine a.toInt_fits.widen (fun h => by simp [h]) h1 ?_
    split <;> omega

theorem testBit_logic {f : UInt64 → UInt64 → UInt64} {g : Bool → Bool → Bool}
    (hf : ∀ x y k, (f x y).toNat.testBit k = g (x.toNat.testBit k) (y.toNat.testBit k))
    (hg : g false false = false) (a : int_base W1 S1) (b : int_base W2 S2) (k : Nat) :
    (logic f a b).toInt.testBit k = g (a.toInt.testBit k) (b.toInt.testBit k) := by
  obtain ⟨ha, hb⟩ := fits_kPlusW a b
  rw [logic, testBit_bitwise hf hg, toInt_convert a ha, toInt_convert b hb]

theorem toInt_bitand : (a.bitand b).toInt = Int.land a.toInt b.toInt := by
  apply int_eq_of_testBit_eq
  intro k
  rw [bitand, testBit_logic (g := and) (fun x y k => by simp) rfl, testBit_land]

theorem toInt_bitor : (a.bitor b).toInt = Int.lor a.toInt b.toInt := by
  apply int_eq_of_testBit_eq
  intro k
  rw [bitor, testBit_logic (g := or) (fun x y k => by simp) rfl, testBit_lor]

theorem toInt_bitxor : (a.bitxor b).toInt = Int.xor a.toInt b.toInt := by
  apply int_eq_of_testBit_eq
  intro k
  rw [bitxor, testBit_logic (g := Bool.xor) (fun x y k => by simp) rfl, testBit_lxor]

theorem value_set_int_zero (hW : 0 < W) : value (set_int W S hW 0 false).v = 0 := by
  rw [set_int, value_of_limbs]
  simp

theorem toInt_of_value_zero {x : int_base W S} (h : value x.v = 0) : x.toInt = 0 := by
  refine toInt_eq_of_fits x ?_ (by simp [h])
  unfold Fits
  split <;> exact ⟨by simp, by positivity⟩

theorem toInt_unary_minus (a : int_base W S) : a.unary_minus.toInt = -a.toInt := by
  have hzero : (set_int (rtype.kPlusW 1 false W S + 1) true (Nat.succ_pos _) 0 false).toInt = 0 :=
    toInt_of_value_zero (value_set_int_zero _)
  have hfit : Fits (rtype.kPlusW 1 false W S + 1) true (-a.toInt) := by
    have ha := (fits_kPlusW (set_int 1 false (by decide) 0 false) a).2
    have hpos : 0 < rtype.kPlusW 1 false W S := rtype.kPlusW_pos (by decide)
    have hpow := cast_two_pow_width hpos
    unfold Fits at ha ⊢
    rw [Nat.add_sub_cancel, if_pos rfl]
    split at ha <;> omega
  rw [unary_minus, toInt_convert, toInt_minus, hzero, zero_sub]
  rw [toInt_minus, hzero, zero_sub]
  exact hfit

/-! ## Shifts -/

/-- Add one to the limbs, as long as they wrap around. -/
def increment (W : Nat) : List UInt64 → List UInt64
  | [] => []
  | x :: xs => cast W (x + 1) :: if cast W (x + 1) = 0 then increment W xs else xs

theorem length_increment (W : Nat) (l : List UInt64) : (increment W l).length = l.length := by
  induction l with
  | nil => rfl
  | cons x xs ih =>
    unfold increment
    split <;> simp [ih]

section

variable (x : int_base W S)

/-- The limbs that `negate` leaves before the trim. -/
def negated : List UInt64 :=
  increment W ((x.v.take (limb_count W)).map fun limb => cast W (~~~limb))

theorem length_negated : x.negated.length = limb_count W := by
  have := limb_count_le_stored W
  rw [negated, length_increment, length_map, length_take_of_le (by rw [x.length]; omega)]

def negate : int_base W S :=
  of_limbs W S x.pos x.negated (Nat.le_of_eq x.length_negated.symm)

def magnitude : int_base W S := if !S || !x.negative then x else x.negate

/-- The magnitude of a count, read through 32 bits. -/
def shift_count : Nat :=
  let m := if S && x.negative then x.magnitude else x
  (m.v.getD 0 0).toNat % 2 ^ 32

/-- The limbs of a shift to the left before the trim. -/
def shl_limbs (sh : Nat) : List UInt64 :=
  let ls := sh / 64
  let bs := sh % 64
  (List.range (limb_count W)).map fun li =>
    if ls ≤ li then
      shl (x.v.getD (li - ls) 0) bs |||
        if bs ≠ 0 ∧ 1 ≤ li - ls then shr (x.v.getD (li - ls - 1) 0) (64 - bs) else 0
    else 0

def shl_storage (sh : Nat) : int_base W S :=
  if W ≤ sh then set_int W S x.pos 0 false
  else of_limbs W S x.pos (x.shl_limbs sh) (by simp [shl_limbs])

theorem value_shl_storage (sh : Nat) : value (x.shl_storage sh).v = value x.v * 2 ^ sh % 2 ^ W := by
  unfold shl_storage
  split
  · rename_i h
    obtain ⟨d, rfl⟩ := Nat.exists_eq_add_of_le h
    rw [value_set_int_zero, Nat.pow_add, Nat.mul_left_comm, Nat.mul_mod_right]
  · rw [value_of_limbs]
    apply Nat.eq_of_testBit_eq
    intro k
    rw [Nat.testBit_mod_two_pow, Nat.testBit_mod_two_pow, Nat.testBit_mul_two_pow, testBit_value]
    by_cases hk : k < W
    · have hle := le_limb_count W
      have hbs : sh % 64 < 64 := Nat.mod_lt _ (by decide)
      rw [decide_eq_true hk, Bool.true_and, Bool.true_and, shl_limbs, getD_eq_getElem?_getD,
        getElem?_map, getElem?_range (by omega), Option.map_some, Option.getD_some]
      by_cases hli : sh / 64 ≤ k / 64
      · rw [if_pos hli, UInt64.toNat_or, Nat.testBit_or, testBit_shl _ hbs,
          decide_eq_true (by omega), Bool.true_and, testBit_value]
        by_cases hlow : sh % 64 ≤ k % 64
        · -- The bit comes from the limb `ls` below.
          rw [decide_eq_true hlow, decide_eq_true (by omega), Bool.true_and,
            Bool.true_and, show (k - sh) / 64 = k / 64 - sh / 64 by omega,
            show (k - sh) % 64 = k % 64 - sh % 64 by omega]
          split
          · rw [testBit_shr _ (by omega),
              testBit_limb_ge _ (k := k % 64 + (64 - sh % 64)) (by omega),
              Bool.or_false]
          · simp
        · -- It comes from the limb below that one, if there is one.
          rw [decide_eq_false hlow, Bool.false_and, Bool.false_or]
          by_cases hsh : sh ≤ k
          · rw [if_pos (by omega), testBit_shr _ (by omega), decide_eq_true hsh, Bool.true_and,
              show (k - sh) / 64 = k / 64 - sh / 64 - 1 by omega,
              show (k - sh) % 64 = k % 64 + (64 - sh % 64) by omega]
          · rw [if_neg (by omega), decide_eq_false hsh]
            simp
      · rw [if_neg hli, decide_eq_false (by omega)]
        simp
    · simp [hk]

def shr_limbs (sh : Nat) : List UInt64 :=
  let ls := sh / 64
  let bs := sh % 64
  (List.range (limb_count W)).map fun li =>
    (if li + ls < limb_count W then shr (x.v.getD (li + ls) 0) bs else 0) |||
      if bs ≠ 0 then
        shl (if li + ls + 1 < limb_count W then x.v.getD (li + ls + 1) 0 else 0) (64 - bs)
      else 0

theorem testBit_shr_limbs (sh : Nat) {k : Nat} (hk : k < 64 * limb_count W) :
    (value (x.shr_limbs sh)).testBit k = (value x.v).testBit (k + sh) := by
  have hbs : sh % 64 < 64 := Nat.mod_lt _ (by decide)
  have hget (i : Nat) : (if i < limb_count W then x.v.getD i 0 else 0) = x.v.getD i 0 := by
    split
    · rfl
    · rw [x.getD_eq_zero (by omega)]
  have hshr (i : Nat) : (if i < limb_count W then shr (x.v.getD i 0) (sh % 64) else 0) =
      shr (x.v.getD i 0) (sh % 64) := by
    split
    · rfl
    · rw [x.getD_eq_zero (by omega)]
      simp [shr]
  rw [testBit_value, shr_limbs, getD_eq_getElem?_getD, getElem?_map,
    getElem?_range (by omega), Option.map_some, Option.getD_some, hshr, hget,
    UInt64.toNat_or, Nat.testBit_or, testBit_shr _ hbs, testBit_value]
  by_cases hlow : k % 64 + sh % 64 < 64
  · -- The bit comes from the limb `ls` above.
    rw [show (k + sh) / 64 = k / 64 + sh / 64 by omega,
      show (k + sh) % 64 = k % 64 + sh % 64 by omega]
    split
    · rw [testBit_shl _ (by omega), decide_eq_false (p := 64 - sh % 64 ≤ k % 64) (by omega)]
      simp
    · simp
  · -- It comes from the limb above that one.
    rw [testBit_limb_ge _ (by omega), if_pos (by omega),
      testBit_shl _ (by omega), decide_eq_true (by omega),
      decide_eq_true (by omega),
      show (k + sh) / 64 = k / 64 + sh / 64 + 1 by omega,
      show (k + sh) % 64 = k % 64 - (64 - sh % 64) by omega]
    rfl

def or_bit (W b : Nat) (out : List UInt64) : List UInt64 :=
  out.modify (b / 64) fun limb => cast W (limb ||| shl 1 (b % 64))

/-- The storage with the top bits set, from the highest one down. -/
def fill_top (W sh : Nat) (out : List UInt64) : List UInt64 :=
  (List.range sh).foldl (fun out k => or_bit W (W - 1 - k) out) out

theorem length_or_bit (W b : Nat) (out : List UInt64) : (or_bit W b out).length = out.length := by
  simp [or_bit]

theorem fill_top_succ (W sh : Nat) (out : List UInt64) :
    fill_top W (sh + 1) out = or_bit W (W - 1 - sh) (fill_top W sh out) := by
  simp [fill_top, range_succ]

theorem length_fill_top (W sh : Nat) (out : List UInt64) :
    (fill_top W sh out).length = out.length := by
  induction sh with
  | zero => rfl
  | succ sh ih => rw [fill_top_succ, length_or_bit, ih]

/-- A number within the width has no bit that a cast drops. -/
theorem lt_of_testBit {v : Nat} (hv : v < 2 ^ W) {k : Nat} (hk : v.testBit k = true) : k < W := by
  by_contra h
  rw [Nat.testBit_lt_two_pow (Nat.lt_of_lt_of_le hv
    (Nat.pow_le_pow_right (by decide) (Nat.not_lt.mp h)))] at hk
  cases hk

theorem kept_by_cast {k : Nat} (hk : k < W) : 64 < W ∨ k % 64 < native_bits W := by
  by_cases hwide : 64 < W
  · exact .inl hwide
  · have := native_bits_ge hwide
    exact .inr (by omega)

theorem testBit_not (x : UInt64) {j : Nat} (hj : j < 64) :
    (~~~x).toNat.testBit j = !x.toNat.testBit j := by
  show (~~~x).toBitVec.getLsbD j = !x.toBitVec.getLsbD j
  rw [UInt64.toBitVec_not, BitVec.getLsbD_not, decide_eq_true hj, Bool.true_and]

theorem testBit_shl_one (b k : Nat) :
    (shl 1 (b % 64)).toNat.testBit (k % 64) = decide (k % 64 = b % 64) := by
  rw [testBit_shl _ (Nat.mod_lt _ (by decide)), show (1 : UInt64).toNat = 1 from rfl,
    Bool.eq_iff_iff]
  simp only [Bool.and_eq_true, decide_eq_true_eq, Nat.testBit_one_eq_true_iff_self_eq_zero]
  omega

theorem testBit_or_bit {b : Nat} (hb : b < W) {out : List UInt64}
    (hlen : limb_count W ≤ out.length) (hout : value out < 2 ^ W) (k : Nat) :
    (value (or_bit W b out)).testBit k = (decide (k = b) || (value out).testBit k) := by
  have hle := le_limb_count W
  have hbit : (value out).testBit k = true → k < W := lt_of_testBit hout
  rw [testBit_value] at hbit
  rw [testBit_value, testBit_value, or_bit]
  simp only [getD_eq_getElem?_getD, getElem?_modify] at hbit ⊢
  by_cases hi : k / 64 = b / 64
  · rw [getElem?_eq_getElem (by omega)] at hbit ⊢
    simp only [Option.getD_some, Option.map_eq_map, Option.map_some, if_pos hi.symm] at hbit ⊢
    have hone : (shl 1 (b % 64)).toNat.testBit (k % 64) = decide (k = b) := by
      rw [testBit_shl_one, decide_eq_decide]
      omega
    rw [testBit_cast, UInt64.toNat_or, Nat.testBit_or, hone, Bool.or_comm (decide (k = b)),
      ← Bool.decide_or]
    by_cases hk : k < W
    · rw [decide_eq_true (kept_by_cast hk), Bool.and_true]
    · have hne : k ≠ b := by omega
      rw [Bool.eq_false_iff.mpr (mt hbit hk), decide_eq_false hne]
      rfl
  · have hne : k ≠ b := fun h => hi (by rw [h])
    simp [hne, Ne.symm hi]

/-- The top bits are set, and the number stays within its width. -/
theorem testBit_fill_top {sh : Nat} (hsh : sh ≤ W) {out : List UInt64}
    (hlen : limb_count W ≤ out.length) (hout : value out < 2 ^ W) :
    value (fill_top W sh out) < 2 ^ W ∧ ∀ k, (value (fill_top W sh out)).testBit k =
      (decide (W - sh ≤ k ∧ k < W) || (value out).testBit k) := by
  induction sh with
  | zero =>
    refine ⟨hout, fun k => ?_⟩
    rw [decide_eq_false (by omega)]
    rfl
  | succ sh ih =>
    obtain ⟨hlt, hbits⟩ := ih (by omega)
    have hbit (k : Nat) : (value (fill_top W (sh + 1) out)).testBit k =
        (decide (W - (sh + 1) ≤ k ∧ k < W) || (value out).testBit k) := by
      rw [fill_top_succ, testBit_or_bit (by omega) (by rw [length_fill_top]; exact hlen) hlt, hbits,
        ← Bool.or_assoc, ← Bool.decide_or]
      congr 1
      rw [decide_eq_decide]
      omega
    refine ⟨Nat.lt_pow_two_of_testBit _ fun k hk => ?_, hbit⟩
    rw [hbit, decide_eq_false (by omega)]
    exact Nat.testBit_lt_two_pow (Nat.lt_of_lt_of_le hout (Nat.pow_le_pow_right (by decide) hk))

theorem value_store {out : List UInt64} (hlen : out.length = limb_count W)
    (hout : value out < 2 ^ W) : value (store W out) = value out := by
  apply Nat.eq_of_testBit_eq
  intro k
  have hbit : (value out).testBit k = true → k < W := lt_of_testBit hout
  rw [testBit_value] at hbit
  rw [testBit_value, testBit_value, getD_store (Nat.le_of_eq hlen.symm)]
  split
  · rw [testBit_cast, ← Bool.decide_or]
    by_cases hk : k < W
    · rw [decide_eq_true (kept_by_cast hk), Bool.and_true]
    · rw [Bool.eq_false_iff.mpr (mt hbit hk), Bool.false_and]
  · rw [getD_eq_default _ _ (by omega)]

theorem value_shr_limbs_lt (sh : Nat) : value (x.shr_limbs sh) < 2 ^ W := by
  refine Nat.lt_pow_two_of_testBit _ fun k hk => ?_
  by_cases hlt : k < 64 * limb_count W
  · rw [testBit_shr_limbs x sh hlt]
    exact Nat.testBit_lt_two_pow
      (Nat.lt_of_lt_of_le x.bounded (Nat.pow_le_pow_right (by decide) (by omega)))
  · have hv := value_lt (x.shr_limbs sh)
    rw [show (x.shr_limbs sh).length = limb_count W by simp [shr_limbs]] at hv
    exact Nat.testBit_lt_two_pow
      (Nat.lt_of_lt_of_le hv (Nat.pow_le_pow_right (by decide) (by omega)))

def shr_storage (sh : Nat) : int_base W S :=
  if hsh : W ≤ sh then
    if S && x.negative then set_int W S x.pos ones true else set_int W S x.pos 0 false
  else
    let out := store W (x.shr_limbs sh)
    have hlen : (x.shr_limbs sh).length = limb_count W := by simp [shr_limbs]
    have hout : out.length = stored W := length_store W (Nat.le_of_eq hlen.symm)
    have hlt : value out < 2 ^ W := by
      rw [value_store hlen (x.value_shr_limbs_lt sh)]
      exact x.value_shr_limbs_lt sh
    if S && x.negative then
      { v := fill_top W sh out
        pos := x.pos
        length := by rw [length_fill_top, hout]
        bounded :=
          (testBit_fill_top (by omega) (by rw [hout]; exact limb_count_le_stored W) hlt).1 }
    else
      { v := out
        pos := x.pos
        length := hout
        bounded := hlt }

theorem testBit_set_int_ones (hW : 0 < W) {k : Nat} (hk : k < W) :
    (value (set_int W S hW ones true).v).testBit k = true := by
  have hle := le_limb_count W
  have hcount := limb_count_pos W
  have hlist : ones :: List.replicate (limb_count W - 1) (if true then ones else 0) =
      List.replicate (limb_count W) ones := by
    rw [if_pos rfl, ← replicate_succ, Nat.sub_add_cancel hcount]
  rw [set_int, value_of_limbs, Nat.testBit_mod_two_pow, decide_eq_true hk, Bool.true_and, hlist,
    testBit_value, getD_eq_getElem?_getD, getElem?_replicate, if_pos (by omega),
    Option.getD_some, testBit_ones, decide_eq_true (Nat.mod_lt _ (by decide))]

/-- An integer has the bits of its pattern, and above them its sign. -/
theorem toInt_eq_of_testBit (y : int_base W S) {z : Int}
    (hlow : ∀ k < W, (value y.v).testBit k = z.testBit k)
    (hhigh : ∀ k, W ≤ k → z.testBit k = (S && z.testBit (W - 1))) : y.toInt = z := by
  have hpos := y.pos
  apply int_eq_of_testBit_eq
  intro k
  rw [testBit_toInt]
  split
  · exact hlow k (by assumption)
  · rw [negative, get_bit_eq, hlow _ (by omega), hhigh k (by omega)]

theorem toInt_shr_storage (sh : Nat) : (x.shr_storage sh).toInt = x.toInt / 2 ^ sh := by
  have hpos := x.pos
  have hsign : x.toInt.testBit (W - 1) = x.negative := by
    rw [testBit_toInt, if_pos (by omega), negative, get_bit_eq]
  have hge {k : Nat} (hk : W ≤ k) : x.toInt.testBit k = (S && x.negative) := by
    rw [testBit_toInt, if_neg (by omega)]
  refine toInt_eq_of_testBit _ (fun k hk => ?_) fun k hk => ?_
  · rw [testBit_div_two_pow]
    unfold shr_storage
    split
    · rw [hge (by omega)]
      split
      · rename_i hneg
        rw [hneg, testBit_set_int_ones _ hk]
      · rename_i hneg
        rw [Bool.eq_false_iff.mpr hneg, value_set_int_zero, Nat.zero_testBit]
    · rename_i hsh
      have hle := le_limb_count W
      have hlen : (x.shr_limbs sh).length = limb_count W := by simp [shr_limbs]
      have hstore := value_store hlen (x.value_shr_limbs_lt sh)
      have hbit : (value (store W (x.shr_limbs sh))).testBit k = (value x.v).testBit (k + sh) := by
        rw [hstore, testBit_shr_limbs x sh (by omega)]
      simp only
      split
      · rename_i hneg
        have hcount : limb_count W ≤ (store W (x.shr_limbs sh)).length := by
          rw [length_store W (Nat.le_of_eq hlen.symm)]
          exact limb_count_le_stored W
        have hbound : value (store W (x.shr_limbs sh)) < 2 ^ W := by
          rw [hstore]
          exact x.value_shr_limbs_lt sh
        have hfill := (testBit_fill_top (Nat.le_of_not_le hsh) hcount hbound).2 k
        rw [hfill, hbit, testBit_toInt, hneg]
        by_cases hk' : k + sh < W
        · rw [if_pos hk', decide_eq_false (by omega), Bool.false_or]
        · rw [if_neg hk', decide_eq_true (by omega), Bool.true_or]
      · rename_i hneg
        rw [hbit, testBit_toInt, Bool.eq_false_iff.mpr hneg]
        split
        · rfl
        · exact Nat.testBit_lt_two_pow
            (Nat.lt_of_lt_of_le x.bounded (Nat.pow_le_pow_right (by decide) (by omega)))
  · rw [testBit_div_two_pow, testBit_div_two_pow, hge (by omega)]
    by_cases hsh : sh = 0
    · rw [hsh, Nat.add_zero, hsign]
    · rw [hge (by omega), ← Bool.and_assoc, Bool.and_self]

/-- A shift to the left multiplies, modulo the width. -/
theorem value_shl_storage_toInt (sh : Nat) :
    value (x.shl_storage sh).v = (x.toInt * 2 ^ sh % 2 ^ W).toNat := by
  have hint : ((value x.v * 2 ^ sh % 2 ^ W : Nat) : Int) = x.toInt * 2 ^ sh % 2 ^ W := by
    push_cast
    exact x.value_modEq.mul_right _
  rw [value_shl_storage, ← hint, toNat_natCast]

/-! ## Counts -/

theorem value_map_not (l : List UInt64) :
    value (l.map fun limb => ~~~limb) + value l + 1 = 2 ^ (64 * l.length) := by
  induction l with
  | nil => rfl
  | cons x xs ih =>
    have hx := x.toNat_lt
    rw [map_cons, value_cons, value_cons, length_cons, two_pow_limbs_succ, UInt64.toNat_not,
      show UInt64.size = 2 ^ 64 from rfl]
    omega

theorem value_increment (hW : 64 < W) (l : List UInt64) :
    value (increment W l) ≡ value l + 1 [MOD 2 ^ (64 * l.length)] := by
  induction l with
  | nil => exact Nat.modEq_one
  | cons x xs ih =>
    have hcast : cast W (x + 1) = x + 1 := by simp [cast, hW]
    have hx := x.toNat_lt
    have hadd : (x + 1).toNat = (x.toNat + 1) % 2 ^ 64 := by
      rfl
    unfold increment
    rw [hcast, value_cons, value_cons, length_cons, two_pow_limbs_succ]
    split
    · rename_i hzero
      -- The limb wraps around, and the next one goes on.
      have hmax : x.toNat + 1 = 2 ^ 64 := by
        rw [hzero] at hadd
        have h0 : (0 : UInt64).toNat = 0 := rfl
        omega
      have hsum : x.toNat + 2 ^ 64 * value xs + 1 = 2 ^ 64 * (value xs + 1) := by omega
      rw [hzero, hsum, show (0 : UInt64).toNat = 0 from rfl, Nat.zero_add]
      exact Nat.ModEq.mul_left' _ ih
    · rename_i hne
      have hlt : x.toNat + 1 < 2 ^ 64 := by
        by_contra hcon
        apply hne
        rw [← UInt64.toNat_inj]
        have h0 : (0 : UInt64).toNat = 0 := rfl
        omega
      rw [hadd, Nat.mod_eq_of_lt hlt, Nat.add_right_comm]

/-- The native integer of a narrow width wraps around within the width. -/
theorem negated_narrow (hW : ¬64 < W) {x : UInt64} (hx : x.toNat < 2 ^ W) :
    (cast W (cast W (~~~x) + 1)).toNat + x.toNat ≡ 0 [MOD 2 ^ W] := by
  have hge := native_bits_ge hW
  have hpow : 2 ^ W ≤ 2 ^ native_bits W := Nat.pow_le_pow_right (by decide) hge
  have h64 : native_bits W = 8 ∨ native_bits W = 16 ∨ native_bits W = 32 ∨ native_bits W = 64 := by
    unfold native_bits
    split
    · simp
    · split
      · simp
      · split <;> simp
  have hlimb (y : UInt64) : (cast W y).toNat = y.toNat % 2 ^ native_bits W := by
    have hlt : y.toNat % 2 ^ native_bits W < 2 ^ 64 :=
      Nat.lt_of_le_of_lt (Nat.mod_le _ _) y.toNat_lt
    rw [cast, if_neg hW, UInt64.toNat_ofNat', Nat.mod_eq_of_lt hlt]
  have hsum : (cast W (cast W (~~~x) + 1)).toNat + x.toNat ≡ 0 [MOD 2 ^ native_bits W] := by
    rw [hlimb, UInt64.toNat_add, hlimb, UInt64.toNat_not, show UInt64.size = 2 ^ 64 from rfl,
      show (1 : UInt64).toNat = 1 from rfl]
    unfold Nat.ModEq
    rcases h64 with h | h | h | h <;> rw [h] at hpow ⊢ <;> omega
  exact hsum.of_dvd (pow_dvd_pow 2 hge)

theorem value_negate : value x.negate.v = (-x.toInt % 2 ^ W).toNat := by
  have hcount := limb_count_le_stored W
  have hsum : value x.negated + value x.v ≡ 0 [MOD 2 ^ W] := by
    by_cases hW : 64 < W
    · have hcast : (fun limb => cast W (~~~limb)) = fun limb => ~~~limb := by
        funext limb
        simp [cast, hW]
      have hlen : (x.v.take (limb_count W)).length = limb_count W :=
        length_take_of_le (by rw [x.length]; omega)
      have hdvd : 2 ^ W ∣ 2 ^ (64 * limb_count W) := pow_dvd_pow 2 (le_limb_count W)
      have htake : value (x.v.take (limb_count W)) = value x.v := by
        rw [value_take _ (by rw [x.length]; omega), Nat.mod_eq_of_lt (Nat.lt_of_lt_of_le x.bounded
          (Nat.pow_le_pow_right (by decide) (le_limb_count W)))]
      have hnot := value_map_not (x.v.take (limb_count W))
      have hinc := value_increment hW ((x.v.take (limb_count W)).map fun limb => ~~~limb)
      rw [length_map, hlen] at hinc
      rw [hlen, htake] at hnot
      rw [negated, hcast]
      refine ((hinc.of_dvd hdvd).add_right (value x.v)).trans ?_
      rw [Nat.add_right_comm, hnot]
      exact (Nat.modEq_zero_iff_dvd.mpr hdvd)
    · have hone : stored W = 1 ∧ limb_count W = 1 := by simp [stored, limb_count, hW]
      obtain ⟨limb, hv⟩ := length_eq_one_iff.mp (x.length.trans hone.1)
      have hlt := x.bounded
      rw [hv] at hlt
      have hneg := negated_narrow hW (by simpa using hlt)
      rw [negated, hv, hone.2]
      simpa [increment] using hneg
  have hint : (value x.negated : Int) + value x.v ≡ 0 [ZMOD 2 ^ W] := by
    have := natCast_modEq_iff.mpr hsum
    exact this
  refine value_of_limbs_of_modEq ?_
  have hneg := hint.sub x.value_modEq
  rwa [Int.add_sub_cancel, Int.zero_sub] at hneg

theorem getD_zero_eq (l : List UInt64) : (l.getD 0 0).toNat = value l % 2 ^ 64 := by
  cases l with
  | nil => rfl
  | cons x xs =>
    rw [value_cons, Nat.add_mul_mod_self_left, Nat.mod_eq_of_lt x.toNat_lt]
    rfl

/-- A magnitude has room for the most negative integer too. -/
theorem value_magnitude : value x.magnitude.v = x.toInt.natAbs := by
  have hneg := x.negative_iff
  have hfit := x.toInt_fits
  have hpow := cast_two_pow_width x.pos
  unfold magnitude
  split
  · rename_i h
    rw [← Bool.not_and, Bool.not_eq_true', ← Bool.not_eq_true, Bool.and_eq_true, hneg] at h
    rw [toInt, if_neg h, natAbs_natCast]
  · rename_i h
    rw [← Bool.not_and, Bool.not_eq_true', Bool.not_eq_false, Bool.and_eq_true, hneg] at h
    have hlt : x.toInt < 0 := by
      have hv : (value x.v : Int) < 2 ^ W := by exact_mod_cast x.bounded
      rw [toInt, if_pos h]
      omega
    unfold Fits at hfit
    rw [if_pos h.1] at hfit
    rw [value_negate, emod_eq_of_lt (by omega) (by omega)]
    omega

/-- The count is the magnitude of the integer, modulo 32 bits. -/
theorem shift_count_eq : x.shift_count = x.toInt.natAbs % 2 ^ 32 := by
  have hmod (n : Nat) : n % 2 ^ 64 % 2 ^ 32 = n % 2 ^ 32 := Nat.mod_mod_of_dvd n (by decide)
  unfold shift_count
  simp only [getD_zero_eq, hmod]
  split
  · rw [value_magnitude]
  · rename_i h
    rw [Bool.and_eq_true, negative_iff] at h
    rw [toInt, if_neg h, natAbs_natCast]

end

def shift_left : rtype.arg1 W1 S1 :=
  let r : rtype.arg1 W1 S1 := a.convert _ _ a.pos
  if S2 && b.negative then r.shr_storage b.shift_count else r.shl_storage b.shift_count

def shift_right : rtype.arg1 W1 S1 :=
  let r : rtype.arg1 W1 S1 := a.convert _ _ a.pos
  if S2 && b.negative then r.shl_storage b.shift_count else r.shr_storage b.shift_count

end

theorem negative_eq (x : int_base W S) : (S && x.negative) = decide (x.toInt < 0) := by
  have hlt : (value x.v : Int) < 2 ^ W := by exact_mod_cast x.bounded
  rw [Bool.eq_iff_iff, Bool.and_eq_true, negative_iff, decide_eq_true_eq, toInt]
  split
  · rename_i h
    exact iff_of_true h (by omega)
  · rename_i h
    exact iff_of_false h (by omega)

/-- A result that is right modulo its width stands for the integer modulo it. -/
theorem toInt_modEq {x : int_base W S} {z : Int} (h : value x.v = (z % 2 ^ W).toNat) :
    x.toInt ≡ z [ZMOD 2 ^ W] := by
  have hpos : (0 : Int) < 2 ^ W := by positivity
  refine x.value_modEq.symm.trans ?_
  rw [h, toNat_of_nonneg (emod_nonneg _ (ne_of_gt hpos))]
  exact mod_modEq _ _

theorem shifts_eq (a : int_base W1 S1) (sh : Nat) :
    ((a.convert W1 S1 a.pos).shl_storage sh).toInt ≡ a.toInt * 2 ^ sh [ZMOD 2 ^ W1] ∧
      ((a.convert W1 S1 a.pos).shr_storage sh).toInt = a.toInt / 2 ^ sh := by
  have hsame : (a.convert W1 S1 a.pos).toInt = a.toInt := toInt_convert a a.toInt_fits
  refine ⟨toInt_modEq ?_, ?_⟩
  · rw [value_shl_storage_toInt, hsame]
  · rw [toInt_shr_storage, hsame]

end int_base

/-! ## Integer arithmetic is exact -/

/-- Sums, differences, products, negations and bitwise operations stand for the exact
integer. A shift multiplies modulo the width or divides and rounds down, by the
magnitude of its count modulo `2 ^ 32` and in the direction of its sign. A conversion
keeps the integer modulo its width. No stored bit is at or above the width. -/
theorem integer_arithmetic_is_exact (int128 : Bool) {W1 W2 : Nat} {S1 S2 : Bool}
    (a : int_base W1 S1) (b : int_base W2 S2) :
    ((a.plus b).toInt = a.toInt + b.toInt ∧ (a.minus b).toInt = a.toInt - b.toInt ∧
      (a.mult int128 b).toInt = a.toInt * b.toInt ∧ a.unary_minus.toInt = -a.toInt) ∧
    ((a.bitand b).toInt = Int.land a.toInt b.toInt ∧ (a.bitor b).toInt = Int.lor a.toInt b.toInt ∧
      (a.bitxor b).toInt = Int.xor a.toInt b.toInt) ∧
    (let m := b.toInt.natAbs % 2 ^ 32
      if b.toInt < 0 then
        (a.shift_left b).toInt = a.toInt / 2 ^ m ∧
          (a.shift_right b).toInt ≡ a.toInt * 2 ^ m [ZMOD 2 ^ W1]
      else
        (a.shift_left b).toInt ≡ a.toInt * 2 ^ m [ZMOD 2 ^ W1] ∧
          (a.shift_right b).toInt = a.toInt / 2 ^ m) ∧
    (∀ W S (hW : 0 < W), (a.convert W S hW).toInt ≡ a.toInt [ZMOD 2 ^ W]) ∧
    ∀ W S (x : int_base W S) k, W ≤ k → (value x.v).testBit k = false := by
  refine ⟨⟨a.toInt_plus b, a.toInt_minus b, a.toInt_mult int128 b, a.toInt_unary_minus⟩,
    ⟨a.toInt_bitand b, a.toInt_bitor b, a.toInt_bitxor b⟩, ?_, ?_, ?_⟩
  · obtain ⟨hshl, hshr⟩ := a.shifts_eq b.shift_count
    rw [b.shift_count_eq] at hshl hshr
    intro m
    unfold int_base.shift_left int_base.shift_right
    rw [b.negative_eq, b.shift_count_eq]
    split
    · rename_i hneg
      simp only [hneg, decide_true, if_true]
      exact ⟨hshr, hshl⟩
    · rename_i hneg
      simp only [hneg, decide_false, Bool.false_eq_true, if_false]
      exact ⟨hshl, hshr⟩
  · exact fun W S hW => int_base.toInt_modEq (int_base.value_convert hW a)
  · intro W S x k hk
    exact Nat.testBit_lt_two_pow
      (Nat.lt_of_lt_of_le x.bounded (Nat.pow_le_pow_right (by decide) hk))

end Tapa.Base
