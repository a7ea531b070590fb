-- Numbers in limbs of 64 bits, the least significant limb first: what a list of
-- limbs stands for, its bits, and the bits of an integer in two's complement.
import Mathlib

namespace Tapa.Limbs

open Nat

/-! ## The number of a list of limbs -/

/-- The number that a list of limbs stands for. -/
def value : List UInt64 → Nat
  | [] => 0
  | x :: xs => x.toNat + 2 ^ 64 * value xs

@[simp] theorem value_nil : value [] = 0 := rfl

section

variable (x : UInt64)

@[simp] theorem value_cons (xs : List UInt64) : value (x :: xs) = x.toNat + 2 ^ 64 * value xs := rfl

theorem two_pow_limbs_succ (n : Nat) : 2 ^ (64 * (n + 1)) = 2 ^ 64 * 2 ^ (64 * n) := by
  rw [mul_add, add_comm, pow_add]

theorem value_lt (l : List UInt64) : value l < 2 ^ (64 * l.length) := by
  induction l with
  | nil => decide
  | cons x xs ih =>
    have hx := x.toNat_lt
    rw [value_cons, List.length_cons, two_pow_limbs_succ]
    omega

theorem value_append (a b : List UInt64) :
    value (a ++ b) = value a + 2 ^ (64 * a.length) * value b := by
  induction a with
  | nil => simp
  | cons x xs ih =>
    rw [List.cons_append, value_cons, value_cons, ih, List.length_cons]
    ring

@[simp] theorem value_replicate_zero (n : Nat) : value (List.replicate n 0) = 0 := by
  induction n with
  | zero => rfl
  | succ n ih => simp [List.replicate_succ, ih]

/-- The low limbs stand for a remainder. -/
theorem value_take (l : List UInt64) {n : Nat} (hn : n ≤ l.length) :
    value (l.take n) = value l % 2 ^ (64 * n) := by
  have happ := value_append (l.take n) (l.drop n)
  have hlt := value_lt (l.take n)
  rw [List.take_append_drop, List.length_take_of_le hn] at happ
  rw [List.length_take_of_le hn] at hlt
  rw [happ, add_mul_mod_self_left, mod_eq_of_lt hlt]

/-- A bit of the number is a bit of one of the limbs. -/
theorem testBit_value (l : List UInt64) (k : Nat) :
    (value l).testBit k = (l.getD (k / 64) 0).toNat.testBit (k % 64) := by
  induction l generalizing k with
  | nil => simp
  | cons x xs ih =>
    rw [value_cons, add_comm, testBit_two_pow_mul_add _ x.toNat_lt]
    by_cases hk : k < 64
    · rw [if_pos hk, div_eq_of_lt hk, mod_eq_of_lt hk]
      rfl
    have hdiv : k / 64 = (k - 64) / 64 + 1 := by omega
    have hmod : k % 64 = (k - 64) % 64 := by omega
    rw [if_neg hk, ih, hdiv, hmod]
    rfl

/-- A function of bits, limb by limb. -/
theorem testBit_value_zipWith {f : UInt64 → UInt64 → UInt64} {g : Bool → Bool → Bool}
    (hf : ∀ x y k, (f x y).toNat.testBit k = g (x.toNat.testBit k) (y.toNat.testBit k))
    (hg : g false false = false) {a b : List UInt64} (hab : a.length = b.length) (k : Nat) :
    (value (List.zipWith f a b)).testBit k = g ((value a).testBit k) ((value b).testBit k) := by
  simp only [testBit_value, List.getD_eq_getElem?_getD, List.getElem?_zipWith]
  by_cases hk : k / 64 < a.length
  · rw [List.getElem?_eq_getElem hk, List.getElem?_eq_getElem (hab ▸ hk)]
    exact hf _ _ _
  · rw [List.getElem?_eq_none (by omega), List.getElem?_eq_none (by omega)]
    simp [hg]

/-! ## Shifts of a limb -/

/-- A limb shifted by less than its size. -/
def shl (n : Nat) : UInt64 := x <<< UInt64.ofNat n

def shr (n : Nat) : UInt64 := x >>> UInt64.ofNat n

theorem toNat_shl {n : Nat} (hn : n < 64) : (shl x n).toNat = x.toNat * 2 ^ n % 2 ^ 64 := by
  have hmod : n % 2 ^ 64 % 64 = n := by omega
  rw [shl, UInt64.toNat_shiftLeft, UInt64.toNat_ofNat', hmod, shiftLeft_eq]

theorem toNat_shr {n : Nat} (hn : n < 64) : (shr x n).toNat = x.toNat / 2 ^ n := by
  have hmod : n % 2 ^ 64 % 64 = n := by omega
  rw [shr, UInt64.toNat_shiftRight, UInt64.toNat_ofNat', hmod, shiftRight_eq_div_pow]

theorem testBit_shl {n : Nat} (hn : n < 64) (k : Nat) :
    (shl x n).toNat.testBit k = (decide (k < 64) && decide (n ≤ k) && x.toNat.testBit (k - n)) := by
  rw [toNat_shl x hn, testBit_mod_two_pow, testBit_mul_two_pow, Bool.and_assoc]

theorem testBit_shr {n : Nat} (hn : n < 64) (k : Nat) :
    (shr x n).toNat.testBit k = x.toNat.testBit (k + n) := by
  rw [toNat_shr x hn, testBit_div_two_pow]

theorem testBit_limb_ge {k : Nat} (hk : 64 ≤ k) : x.toNat.testBit k = false :=
  Nat.testBit_lt_two_pow (Nat.lt_of_lt_of_le x.toNat_lt (Nat.pow_le_pow_right (by decide) hk))

end

def ones : UInt64 := ~~~0

theorem testBit_ones (k : Nat) : ones.toNat.testBit k = decide (k < 64) := by
  have h := testBit_two_pow_sub_succ (x := 0) (n := 64) (by decide) k
  rw [show ones.toNat = 2 ^ 64 - (0 + 1) from rfl, h]
  simp

/-! ## Integers in two's complement -/

/-- Integers with the same bits are equal. -/
theorem int_eq_of_testBit_eq {a b : Int} (h : ∀ k, a.testBit k = b.testBit k) : a = b := by
  -- Far enough up, the bits of a natural number and of a negative one differ.
  have hmixed {m n : Nat} (h : ∀ k, m.testBit k = !n.testBit k) : False := by
    have hm : m.testBit (m + n) = false := testBit_lt_two_pow
      (Nat.lt_of_lt_of_le Nat.lt_two_pow_self (Nat.pow_le_pow_right (by decide) (by omega)))
    have hn : n.testBit (m + n) = false := testBit_lt_two_pow
      (Nat.lt_of_lt_of_le Nat.lt_two_pow_self (Nat.pow_le_pow_right (by decide) (by omega)))
    have hk := h (m + n)
    rw [hm, hn] at hk
    cases hk
  cases a with
  | ofNat m =>
    cases b with
    | ofNat n => rw [eq_of_testBit_eq h]
    | negSucc n => exact (hmixed h).elim
  | negSucc m =>
    cases b with
    | ofNat n => exact (hmixed fun k => (h k).symm).elim
    | negSucc n =>
      exact congrArg Int.negSucc (eq_of_testBit_eq fun k => Bool.not_inj (h k))

/-- The low bits of an integer are those of its remainder. -/
theorem testBit_toNat_emod (z : Int) (n k : Nat) :
    (z % 2 ^ n).toNat.testBit k = (decide (k < n) && z.testBit k) := by
  cases z with
  | ofNat m =>
    have hmod : ((Int.ofNat m) % 2 ^ n).toNat = m % 2 ^ n := by
      norm_cast
    rw [hmod, testBit_mod_two_pow]
    rfl
  | negSucc m =>
    have hlt : m % 2 ^ n < 2 ^ n := Nat.mod_lt _ (Nat.two_pow_pos n)
    have hmod : ((Int.negSucc m) % 2 ^ n).toNat = 2 ^ n - (m % 2 ^ n + 1) := by
      have hpos : (0 : Int) < 2 ^ n := by positivity
      rw [Int.negSucc_emod _ hpos]
      have hcast : ((m : Int) % 2 ^ n) = ((m % 2 ^ n : Nat) : Int) := by push_cast; rfl
      have hpow : ((2 ^ n : Nat) : Int) = 2 ^ n := by push_cast; rfl
      omega
    rw [hmod, testBit_two_pow_sub_succ hlt]
    by_cases hk : k < n <;> simp [hk, Int.testBit]

/-- Division by a power of two moves the bits down. -/
theorem testBit_div_two_pow (z : Int) (n k : Nat) :
    (z / 2 ^ n).testBit k = z.testBit (k + n) := by
  have hpow : z / 2 ^ n = z >>> n := by
    rw [Int.shiftRight_eq_div_pow]
    rfl
  rw [hpow]
  cases z with
  | ofNat m =>
    show (m >>> n).testBit k = m.testBit (k + n)
    rw [testBit_shiftRight, add_comm]
  | negSucc m =>
    show (!(m >>> n).testBit k) = !m.testBit (k + n)
    rw [testBit_shiftRight, add_comm]

end Tapa.Limbs
