-- The limb loops of `base/int.h`: sums and differences with a carry, and products
-- with a 128-bit integer or in halves of 32 bits. Each gives its result modulo the
-- size of its limbs.
import Tapa.Limbs

namespace Tapa.Base

open Limbs List Nat

/-! ## Sums and differences -/

def add_limb (a b carry : UInt64) : UInt64 × UInt64 :=
  let t := a + b
  let c1 : UInt64 := if t < a then 1 else 0
  let out := t + carry
  (out, c1 ||| if out < t then 1 else 0)

def add_limbs_from (carry : UInt64) : List UInt64 → List UInt64 → List UInt64
  | a :: as, b :: bs => (add_limb a b carry).1 :: add_limbs_from (add_limb a b carry).2 as bs
  | _, _ => []

def add_limbs (a b : List UInt64) : List UInt64 := add_limbs_from 0 a b

def sub_limb (a b borrow : UInt64) : UInt64 × UInt64 :=
  let t := a - b
  let b1 : UInt64 := if a < b then 1 else 0
  (t - borrow, b1 ||| if t < borrow then 1 else 0)

def sub_limbs_from (borrow : UInt64) : List UInt64 → List UInt64 → List UInt64
  | a :: as, b :: bs => (sub_limb a b borrow).1 :: sub_limbs_from (sub_limb a b borrow).2 as bs
  | _, _ => []

def sub_limbs (a b : List UInt64) : List UInt64 := sub_limbs_from 0 a b

theorem toNat_or_bits (p q : Prop) [Decidable p] [Decidable q] :
    ((if p then 1 else 0 : UInt64) ||| if q then 1 else 0).toNat = if p ∨ q then 1 else 0 := by
  by_cases hp : p <;> by_cases hq : q <;> simp [hp, hq]

theorem add_limb_spec (a b : UInt64) {carry : UInt64} (hc : carry.toNat ≤ 1) :
    (add_limb a b carry).1.toNat + 2 ^ 64 * (add_limb a b carry).2.toNat =
      a.toNat + b.toNat + carry.toNat ∧ (add_limb a b carry).2.toNat ≤ 1 := by
  have ha := a.toNat_lt
  have hb := b.toNat_lt
  simp only [add_limb, toNat_or_bits, UInt64.lt_iff_toNat_lt, UInt64.toNat_add]
  split <;> omega

theorem sub_limb_spec (a b : UInt64) {borrow : UInt64} (hc : borrow.toNat ≤ 1) :
    (sub_limb a b borrow).1.toNat + b.toNat + borrow.toNat =
      a.toNat + 2 ^ 64 * (sub_limb a b borrow).2.toNat ∧ (sub_limb a b borrow).2.toNat ≤ 1 := by
  have ha := a.toNat_lt
  have hb := b.toNat_lt
  simp only [sub_limb, toNat_or_bits, UInt64.lt_iff_toNat_lt, UInt64.toNat_sub]
  split <;> omega

variable {a b : List UInt64}

theorem length_add_limbs_from (carry : UInt64) (h : a.length = b.length) :
    (add_limbs_from carry a b).length = a.length := by
  induction a generalizing b carry with
  | nil => rfl
  | cons x a ih =>
    cases b with
    | nil => cases h
    | cons y b => simp [add_limbs_from, ih _ (Nat.succ.inj h)]

theorem length_sub_limbs_from (borrow : UInt64) (h : a.length = b.length) :
    (sub_limbs_from borrow a b).length = a.length := by
  induction a generalizing b borrow with
  | nil => rfl
  | cons x a ih =>
    cases b with
    | nil => cases h
    | cons y b => simp [sub_limbs_from, ih _ (Nat.succ.inj h)]

/-- The sum and the carry out of it. -/
theorem value_add_limbs_from (h : a.length = b.length) {carry : UInt64} (hc : carry.toNat ≤ 1) :
    ∃ out, value (add_limbs_from carry a b) + 2 ^ (64 * a.length) * out =
      value a + value b + carry.toNat := by
  induction a generalizing b carry with
  | nil =>
    cases b with
    | nil => exact ⟨carry.toNat, by simp [add_limbs_from]⟩
    | cons y b => cases h
  | cons x a ih =>
    cases b with
    | nil => cases h
    | cons y b =>
      obtain ⟨hstep, hc'⟩ := add_limb_spec x y hc
      obtain ⟨out, hout⟩ := ih (Nat.succ.inj h) hc'
      refine ⟨out, ?_⟩
      rw [add_limbs_from, value_cons, value_cons, value_cons, length_cons,
        two_pow_limbs_succ, mul_assoc]
      omega

/-- The difference and the borrow out of it. -/
theorem value_sub_limbs_from (h : a.length = b.length) {borrow : UInt64} (hc : borrow.toNat ≤ 1) :
    ∃ out, value (sub_limbs_from borrow a b) + value b + borrow.toNat =
      value a + 2 ^ (64 * a.length) * out := by
  induction a generalizing b borrow with
  | nil =>
    cases b with
    | nil => exact ⟨borrow.toNat, by simp [sub_limbs_from]⟩
    | cons y b => cases h
  | cons x a ih =>
    cases b with
    | nil => cases h
    | cons y b =>
      obtain ⟨hstep, hc'⟩ := sub_limb_spec x y hc
      obtain ⟨out, hout⟩ := ih (Nat.succ.inj h) hc'
      refine ⟨out, ?_⟩
      rw [sub_limbs_from, value_cons, value_cons, value_cons, length_cons,
        two_pow_limbs_succ, mul_assoc]
      omega

theorem value_add_limbs (h : a.length = b.length) :
    value (add_limbs a b) ≡ value a + value b [MOD 2 ^ (64 * a.length)] := by
  obtain ⟨out, hout⟩ := value_add_limbs_from h (show (0 : UInt64).toNat ≤ 1 by decide)
  have hsum : value a + value b = value (add_limbs a b) + 2 ^ (64 * a.length) * out := by
    simpa [add_limbs] using hout.symm
  rw [hsum]
  exact (add_mul_mod_self_left _ _ _).symm

theorem value_sub_limbs (h : a.length = b.length) :
    value (sub_limbs a b) + value b ≡ value a [MOD 2 ^ (64 * a.length)] := by
  obtain ⟨out, hout⟩ := value_sub_limbs_from h (show (0 : UInt64).toNat ≤ 1 by decide)
  have hsum : value (sub_limbs a b) + value b = value a + 2 ^ (64 * a.length) * out := by
    simpa [sub_limbs] using hout
  rw [hsum]
  exact add_mul_mod_self_left _ _ _

/-! ## Products -/

section

variable (a b out carry : UInt64)

/-- One limb of a product and its carry, with a 128-bit integer. -/
def mul_limb_wide : UInt64 × UInt64 :=
  let cur := a.toNat * b.toNat + out.toNat + carry.toNat
  (UInt64.ofNat cur, UInt64.ofNat (cur / 2 ^ 64))

/-- One limb of a product and its carry, in halves of 32 bits. -/
def mul_limb_halves : UInt64 × UInt64 :=
  let lo_mask : UInt64 := 0xffffffff
  let al := a &&& lo_mask
  let ah := shr a 32
  let bl := b &&& lo_mask
  let bh := shr b 32
  let ll := al * bl
  let lh := al * bh
  let hl := ah * bl
  let hh := ah * bh
  let mid := lh + hl
  let hi := hh + (if mid < lh then shl 1 32 else 0) + shr mid 32
  let lo := ll + shl mid 32
  let hi := if lo < ll then hi + 1 else hi
  let sum := lo + out
  let hi := if sum < lo then hi + 1 else hi
  let total := sum + carry
  let hi := if total < sum then hi + 1 else hi
  (total, hi)

def mul_limb (int128 : Bool) (a b out carry : UInt64) : UInt64 × UInt64 :=
  if int128 then mul_limb_wide a b out carry else mul_limb_halves a b out carry

/-- One limb of `b` times `a`, added to the limbs of the result from there on. -/
def mul_row (int128 : Bool) (b : UInt64) : UInt64 → List UInt64 → List UInt64 → List UInt64
  | carry, a :: as, out :: outs =>
    (mul_limb int128 a b out carry).1 ::
      mul_row int128 b (mul_limb int128 a b out carry).2 as outs
  | _, _, _ => []

def mul_limbs (int128 : Bool) (a b : List UInt64) : List UInt64 :=
  (List.range a.length).foldl (fun out bi =>
    if b.getD bi 0 = 0 then out
    else out.take bi ++ mul_row int128 (b.getD bi 0) 0 a (out.drop bi))
    (List.replicate a.length 0)

theorem mul_limb_bound : a.toNat * b.toNat + out.toNat + carry.toNat < 2 ^ 64 * 2 ^ 64 := by
  have ha := a.toNat_lt
  have hb := b.toNat_lt
  have ho := out.toNat_lt
  have hc := carry.toNat_lt
  have hab : a.toNat * b.toNat ≤ (2 ^ 64 - 1) * (2 ^ 64 - 1) :=
    Nat.mul_le_mul (by omega) (by omega)
  omega

theorem mul_limb_wide_spec :
    (mul_limb_wide a b out carry).1.toNat + 2 ^ 64 * (mul_limb_wide a b out carry).2.toNat =
      a.toNat * b.toNat + out.toNat + carry.toNat := by
  have hbound := mul_limb_bound a b out carry
  simp only [mul_limb_wide, UInt64.toNat_ofNat']
  omega

/-- A sum that wrapped is smaller than its operands. -/
theorem toNat_add_carry (x y : UInt64) :
    (x + y).toNat + 2 ^ 64 * (if x + y < x then 1 else 0) = x.toNat + y.toNat := by
  have hx := x.toNat_lt
  have hy := y.toNat_lt
  simp only [UInt64.lt_iff_toNat_lt, UInt64.toNat_add]
  split <;> omega

theorem ite_succ (p : Prop) [Decidable p] (x : UInt64) :
    (if p then x + 1 else x) = x + if p then 1 else 0 := by
  split <;> simp

/-- Products of halves, added with the carries between them. -/
theorem halves_spec (ll lh hl hh out carry : UInt64)
    (h : hh.toNat * 2 ^ 64 + (lh.toNat + hl.toNat) * 2 ^ 32 + ll.toNat + out.toNat +
      carry.toNat < 2 ^ 64 * 2 ^ 64) :
    let mid := lh + hl
    let lo := ll + shl mid 32
    let sum := lo + out
    let total := sum + carry
    let hi := hh + (if mid < lh then shl 1 32 else 0) + shr mid 32 + (if lo < ll then 1 else 0) +
      (if sum < lo then 1 else 0) + if total < sum then 1 else 0
    total.toNat + 2 ^ 64 * hi.toNat =
      hh.toNat * 2 ^ 64 + (lh.toNat + hl.toNat) * 2 ^ 32 + ll.toNat + out.toNat + carry.toNat := by
  intro mid lo sum total hi
  have hmid := toNat_add_carry lh hl
  have hlo := toNat_add_carry ll (shl mid 32)
  have hsum := toNat_add_carry lo out
  have htotal := toNat_add_carry sum carry
  have hshl : (shl mid 32).toNat = mid.toNat * 2 ^ 32 % 2 ^ 64 := toNat_shl _ (by decide)
  have hshr : (shr mid 32).toNat = mid.toNat / 2 ^ 32 := toNat_shr _ (by decide)
  have htop : (if mid < lh then shl 1 32 else 0 : UInt64).toNat =
      2 ^ 32 * if mid < lh then 1 else 0 := by
    split <;> rfl
  have hone (p : Prop) [Decidable p] :
      (if p then 1 else 0 : UInt64).toNat = if p then 1 else 0 := by
    split <;> rfl
  simp only [hi, UInt64.toNat_add, hshr, htop, hone]
  change mid.toNat + 2 ^ 64 * (if mid < lh then 1 else 0) = _ at hmid
  change lo.toNat + 2 ^ 64 * (if lo < ll then 1 else 0) = _ at hlo
  change sum.toNat + 2 ^ 64 * (if sum < lo then 1 else 0) = _ at hsum
  change total.toNat + 2 ^ 64 * (if total < sum then 1 else 0) = _ at htotal
  generalize (if mid < lh then 1 else 0) = k0 at *
  generalize (if lo < ll then 1 else 0) = k1 at *
  generalize (if sum < lo then 1 else 0) = k2 at *
  generalize (if total < sum then 1 else 0) = k3 at *
  omega

theorem mul_limb_halves_spec :
    (mul_limb_halves a b out carry).1.toNat + 2 ^ 64 * (mul_limb_halves a b out carry).2.toNat =
      a.toNat * b.toNat + out.toNat + carry.toNat := by
  have hbound := mul_limb_bound a b out carry
  have hmask (x : UInt64) : (x &&& 0xffffffff).toNat = x.toNat % 2 ^ 32 := by
    exact and_two_pow_sub_one_eq_mod _ 32
  have hlow (x : UInt64) : x.toNat % 2 ^ 32 < 2 ^ 32 := mod_lt _ (by decide)
  have hhigh (x : UInt64) : x.toNat / 2 ^ 32 < 2 ^ 32 := by
    have := x.toNat_lt
    omega
  -- A product of halves does not wrap.
  have hmul {x y : UInt64} (hx : x.toNat < 2 ^ 32) (hy : y.toNat < 2 ^ 32) :
      (x * y).toNat = x.toNat * y.toNat := by
    have : x.toNat * y.toNat ≤ (2 ^ 32 - 1) * (2 ^ 32 - 1) :=
      Nat.mul_le_mul (by omega) (by omega)
    rw [UInt64.toNat_mul]
    omega
  have hshr (x : UInt64) : (shr x 32).toNat = x.toNat / 2 ^ 32 := toNat_shr _ (by decide)
  have hsplit : a.toNat * b.toNat =
      (shr a 32 * shr b 32).toNat * 2 ^ 64 +
        (((a &&& 0xffffffff) * shr b 32).toNat + (shr a 32 * (b &&& 0xffffffff)).toNat) * 2 ^ 32 +
        ((a &&& 0xffffffff) * (b &&& 0xffffffff)).toNat := by
    rw [hmul, hmul, hmul, hmul] <;> simp only [hmask, hshr, hlow, hhigh]
    conv_lhs => rw [← div_add_mod a.toNat (2 ^ 32), ← div_add_mod b.toNat (2 ^ 32)]
    ring
  rw [hsplit] at hbound ⊢
  simp only [mul_limb_halves, ite_succ]
  exact halves_spec _ _ _ _ out carry hbound

end

theorem mul_limb_spec (int128 : Bool) (a b out carry : UInt64) :
    (mul_limb int128 a b out carry).1.toNat + 2 ^ 64 * (mul_limb int128 a b out carry).2.toNat =
      a.toNat * b.toNat + out.toNat + carry.toNat := by
  cases int128 with
  | true => exact mul_limb_wide_spec a b out carry
  | false => exact mul_limb_halves_spec a b out carry

theorem length_mul_row (int128 : Bool) (b carry : UInt64) {out : List UInt64}
    (h : out.length ≤ a.length) : (mul_row int128 b carry a out).length = out.length := by
  induction out generalizing a carry with
  | nil => cases a <;> rfl
  | cons o out ih =>
    cases a with
    | nil => cases h
    | cons x a => simp [mul_row, ih _ (le_of_succ_le_succ h)]

/-- A row of the product and the carry out of it. -/
theorem value_mul_row (int128 : Bool) (b carry : UInt64) {out : List UInt64}
    (h : out.length ≤ a.length) : ∃ c, value (mul_row int128 b carry a out) +
      2 ^ (64 * out.length) * c =
        value out + b.toNat * value (a.take out.length) + carry.toNat := by
  induction out generalizing a carry with
  | nil => exact ⟨carry.toNat, by cases a <;> simp [mul_row]⟩
  | cons o out ih =>
    cases a with
    | nil => cases h
    | cons x a =>
      have hstep := mul_limb_spec int128 x b o carry
      obtain ⟨c, hc⟩ := ih (mul_limb int128 x b o carry).2 (le_of_succ_le_succ h)
      refine ⟨c, ?_⟩
      rw [mul_row, value_cons, value_cons, length_cons, two_pow_limbs_succ, take_succ_cons,
        value_cons, mul_add, mul_left_comm b.toNat, mul_assoc (2 ^ 64)]
      rw [mul_comm x.toNat] at hstep
      omega

/-- The result with the first limbs of `b` multiplied. -/
theorem mul_limbs_loop (int128 : Bool) (h : a.length = b.length) {n : Nat} (hn : n ≤ a.length) :
    let out := (List.range n).foldl (fun out bi =>
      if b.getD bi 0 = 0 then out
      else out.take bi ++ mul_row int128 (b.getD bi 0) 0 a (out.drop bi))
      (List.replicate a.length 0)
    out.length = a.length ∧
      value out ≡ value a * value (b.take n) [MOD 2 ^ (64 * a.length)] := by
  induction n with
  | zero => simp [Nat.ModEq.refl]
  | succ n ih =>
    obtain ⟨hlen, hmod⟩ := ih (by omega)
    simp only [range_succ, foldl_append, foldl_cons, foldl_nil]
    generalize (List.range n).foldl (fun out bi =>
      if b.getD bi 0 = 0 then out
      else out.take bi ++ mul_row int128 (b.getD bi 0) 0 a (out.drop bi))
      (List.replicate a.length 0) = out at hlen hmod ⊢
    have hnb : n < b.length := by omega
    have htake : value (b.take (n + 1)) = value (b.take n) + 2 ^ (64 * n) * (b.getD n 0).toNat := by
      rw [take_succ_eq_append_getElem hnb, value_append, length_take_of_le (by omega),
        getD_eq_getElem _ _ hnb]
      simp
    rw [htake]
    split
    · rename_i hzero
      refine ⟨hlen, ?_⟩
      rw [hzero]
      simpa using hmod
    · have hdrop : (out.drop n).length = a.length - n := by rw [length_drop, hlen]
      obtain ⟨c, hc⟩ :=
        value_mul_row int128 (b.getD n 0) 0 (show (out.drop n).length ≤ a.length by omega)
      refine ⟨?_, ?_⟩
      · rw [length_append, length_mul_row _ _ _ (by omega), length_take]
        omega
      · -- The row stands for its limb of `b` times `a`, up to what does not fit.
        have hpow : 2 ^ (64 * a.length) = 2 ^ (64 * n) * 2 ^ (64 * (a.length - n)) := by
          rw [← pow_add]
          congr 2
          omega
        have hout : value out = value (out.take n) + 2 ^ (64 * n) * value (out.drop n) := by
          conv_lhs => rw [← take_append_drop n out]
          rw [value_append, length_take_of_le (by omega)]
        have ha : value a = value (a.take (a.length - n)) +
            2 ^ (64 * (a.length - n)) * value (a.drop (a.length - n)) := by
          conv_lhs => rw [← take_append_drop (a.length - n) a]
          rw [value_append, length_take_of_le (by omega)]
        rw [hdrop, show (0 : UInt64).toNat = 0 from rfl] at hc
        rw [value_append, length_take_of_le (by omega)]
        have hleft : value (out.take n) + 2 ^ (64 * n) *
            value (mul_row int128 (b.getD n 0) 0 a (out.drop n)) + 2 ^ (64 * a.length) * c =
              value out + 2 ^ (64 * n) * ((b.getD n 0).toNat * value (a.take (a.length - n))) := by
          rw [hpow, hout, mul_assoc, add_assoc, ← mul_add, hc]
          ring
        have hright : value a * (value (b.take n) + 2 ^ (64 * n) * (b.getD n 0).toNat) =
            value a * value (b.take n) +
              2 ^ (64 * n) * ((b.getD n 0).toNat * value (a.take (a.length - n))) +
              2 ^ (64 * a.length) * ((b.getD n 0).toNat * value (a.drop (a.length - n))) := by
          rw [mul_add, add_assoc, ha, hpow]
          ring
        refine Nat.ModEq.trans (Nat.ModEq.symm (add_mul_mod_self_left _ _ c)) ?_
        rw [hleft, hright]
        exact (hmod.add_right _).trans (Nat.ModEq.symm (add_mul_mod_self_left _ _ _))

theorem value_mul_limbs (int128 : Bool) (h : a.length = b.length) :
    value (mul_limbs int128 a b) ≡ value a * value b [MOD 2 ^ (64 * a.length)] := by
  have hloop := (mul_limbs_loop int128 h (le_refl _)).2
  rwa [h, take_length, ← h] at hloop

theorem length_mul_limbs (int128 : Bool) (h : a.length = b.length) :
    (mul_limbs int128 a b).length = a.length := (mul_limbs_loop int128 h (le_refl _)).1

end Tapa.Base
