-- Fixed-point values in software simulation (`base/fixed.h`): a conversion rounds the
-- exact value onto the target's scale, in a width that holds it, and then brings it
-- into the target's range.
import Tapa.IntCompare

namespace Tapa.Base

open Limbs int_base Int

inductive q_mode
  | rnd | rnd_zero | rnd_min_inf | rnd_inf | rnd_conv | trn | trn_zero
deriving DecidableEq, Repr

inductive o_mode
  | sat | sat_zero | sat_sym | wrap | wrap_sm
deriving DecidableEq, Repr

/-! ## The conversion -/

/-- Bit `k` of the infinite extension of the pattern. -/
def bit_at {W : Nat} {S : Bool} (x : int_base W S) (k : Int) : Bool :=
  if k < 0 then false
  else if k < W then x.get_bit k.toNat
  else S && x.get_bit (W - 1)

/-- Whether any of the bits up to `k` is set, with the same extension. -/
def any_up_to {W : Nat} {S : Bool} (x : int_base W S) (k : Int) : Bool :=
  if k < 0 then false
  else if (W : Int) ≤ k ∧ S = true ∧ x.get_bit (W - 1) = true then true
  else
    let top := (min k ((W : Int) - 1)).toNat
    (List.range (top + 1)).any x.get_bit

/-- The carry of each mode, from the sign of the value, the bit below the new lowest
one, whether any bit below that is set, and the new lowest bit. -/
def carry (q_arg : q_mode) (sign qb r odd : Bool) : Bool :=
  match q_arg with
  | .trn => false
  | .rnd => qb
  | .rnd_zero => qb && (sign || r)
  | .rnd_min_inf => qb && r
  | .rnd_inf => qb && (!sign || r)
  | .rnd_conv => qb && (odd || r)
  | .trn_zero => sign && (qb || r)

/-- The multiplier at scale `ft` that the mode makes of `m` at scale `fs`. -/
def quantize (Wq : Nat) (hWq : 0 < Wq) {Wm : Nat} {Sm : Bool} (m : int_base Wm Sm) (fs ft : Int)
    (q_arg : q_mode) : int_base Wq true :=
  let s := fs - ft
  let wide : int_base Wq true := m.convert Wq true hWq
  if s ≤ 0 then (wide.shift_left (of_int (-s))).convert Wq true hWq
  else
    let trunc : int_base Wq true :=
      (wide.shift_right (of_int (min s ((Wq : Int) - 1)))).convert Wq true hWq
    let sign := Sm && m.get_bit (Wm - 1)
    let qb := bit_at m (s - 1)
    let r := any_up_to m (s - 2)
    if carry q_arg sign qb r (trunc.get_bit 0) then
      (trunc.plus (of_native Wq true hWq 1)).convert Wq true hWq
    else trunc

/-- Bits `lo` to `hi` all assigned. -/
def set_bits {W : Nat} {S : Bool} (raw : int_base W S) (lo hi : Nat) (value : Bool) :
    int_base W S :=
  (List.range' lo (hi + 1 - lo)).foldl (fun raw b => raw.set_bit b value) raw

/-- The largest value of the target, at the width of the multiplier. -/
def range_hi (W : Nat) (S : Bool) {Wq : Nat} (hWq : 0 < Wq) : int_base Wq true :=
  let one := of_native Wq true hWq 1
  if S then ((one.shift_left (of_int ((W : Int) - 1))).minus one).convert Wq true hWq
  else ((one.shift_left (of_int W)).minus one).convert Wq true hWq

def range_lo (W : Nat) (S : Bool) {Wq : Nat} (hWq : 0 < Wq) : int_base Wq true :=
  let one := of_native Wq true hWq 1
  if S then
    (one.shift_left (of_int ((W : Int) - 1))).unary_minus.convert Wq true hWq
  else of_native Wq true hWq 0

/-- Bring the multiplier into the range of the target under a mode. -/
def overflow_adjust (W : Nat) (hW : 0 < W) (S : Bool) (O : o_mode) (N : Nat) {Wq : Nat}
    (q : int_base Wq true) (src_negative low_deleted : Bool) : int_base W S :=
  let raw : int_base W S := q.convert W S hW
  let one := of_native Wq true q.pos 1
  let hi := range_hi W S q.pos
  let lo := range_lo W S q.pos
  let overflow := decide (0 < q.compare hi)
  let underflow := decide (q.compare lo < 0)
  -- A symmetric range gives up the one extra negative value.
  let underflow := if O = .sat_sym ∧ S = true ∧ q.compare_values lo = 0 then true else underflow
  if !overflow && !underflow && decide (O ≠ .wrap_sm) && decide (O ≠ .wrap ∨ N = 0) then raw
  else
    match O with
    | .wrap =>
      if N = 0 then raw
      else if !overflow && !underflow then raw
      else if S then
        set_bits (raw.set_bit (W - 1) src_negative) (W - N) (W - 2) !src_negative
      else set_bits raw (W - N) (W - 1) true
    | .sat_zero => of_native W S hW 0
    | .wrap_sm =>
      if !S then raw
      else if !overflow && !underflow then raw
      else
        let ro := raw.get_bit (W - 1)
        if N = 0 then
          if low_deleted ≠ ro then raw.complement.set_bit (W - 1) low_deleted else raw
        else
          let raw :=
            if N = 1 ∧ src_negative ≠ ro then raw.complement
            else if 1 < N then
              let raw := if raw.get_bit (W - N) = src_negative then raw.complement else raw
              set_bits raw (W - N) (W - 2) !src_negative
            else raw
          raw.set_bit (W - 1) src_negative
    | _ =>
      if S then
        if overflow then hi.convert W S hW
        else if O = .sat_sym then
          ((lo.plus one).convert Wq true q.pos).convert W S hW
        else lo.convert W S hW
      else if overflow then (of_native W false hW 0).complement.convert W S hW
      else of_native W S hW 0

/-- Room for the source on the target's scale, for the target's range and for a carry. -/
def kWq (W2 : Nat) (Fs : Int) (W : Nat) (fwidth : Int) : Nat :=
  max (W2 + (max (fwidth - Fs) 0).toNat) W + 3

/-- A fixed-point value of `W` bits, `I` of them above the binary point. -/
structure fixed_base (W : Nat) (I : Int) (S : Bool) (Q : q_mode) (O : o_mode) (N : Nat) where
  V : int_base W S

namespace fixed_base

variable {W W2 : Nat} {I I2 : Int} {S S2 : Bool} {Q Q2 : q_mode} {O O2 : o_mode} {N N2 : Nat}

def assign_raw (hW : 0 < W) (Fs : Int) (src : int_base W2 S2) (negative : Bool) :
    fixed_base W I S Q O N :=
  let fwidth : Int := W - I
  let q := quantize (kWq W2 Fs W fwidth) (Nat.succ_pos _) src Fs fwidth Q
  let low_deleted := bit_at src (W + Fs - fwidth)
  ⟨overflow_adjust W hW S O N q negative low_deleted⟩

/-- The path every conversion from another format goes through. -/
def assign_fixed (hW : 0 < W) (x : fixed_base W2 I2 S2 Q2 O2 N2) : fixed_base W I S Q O N :=
  assign_raw hW ((W2 : Int) - I2) x.V (S2 && x.V.get_bit (W2 - 1))

/-- The number that a fixed-point value stands for. -/
def exact (x : fixed_base W I S Q O N) : ℚ := x.V.toInt * (2 : ℚ) ^ (-((W : Int) - I))

end fixed_base

/-! ## Rounding -/

/-- The integers that a mode makes of a number: the one below it, the one towards zero,
or the nearest one with the mode's choice between two that are equally near. -/
def Rounded (mode : q_mode) (x : ℚ) (q : Int) : Prop :=
  match mode with
  | .trn => q = ⌊x⌋
  | .trn_zero => q = if x < 0 then ⌈x⌉ else ⌊x⌋
  | .rnd => |x - q| ≤ 1 / 2 ∧ (|x - q| = 1 / 2 → x < q)
  | .rnd_zero => |x - q| ≤ 1 / 2 ∧ (|x - q| = 1 / 2 → |(q : ℚ)| < |x|)
  | .rnd_min_inf => |x - q| ≤ 1 / 2 ∧ (|x - q| = 1 / 2 → q < x)
  | .rnd_inf => |x - q| ≤ 1 / 2 ∧ (|x - q| = 1 / 2 → |x| < |(q : ℚ)|)
  | .rnd_conv => |x - q| ≤ 1 / 2 ∧ (|x - q| = 1 / 2 → Even q)

/-- An integer needs no rounding. -/
theorem rounded_self (mode : q_mode) (q : Int) : Rounded mode q q := by
  have hself (P : Prop) : |(q : ℚ) - q| ≤ 1 / 2 ∧ (|(q : ℚ) - q| = 1 / 2 → P) := by
    exact ⟨by norm_num, fun h => by norm_num at h⟩
  cases mode with
  | trn => exact (floor_intCast q).symm
  | trn_zero =>
    unfold Rounded
    split <;> simp
  | rnd | rnd_zero | rnd_min_inf | rnd_inf | rnd_conv => exact hself _

section Bits

variable {x e : ℚ} {f : Int}

/-- Less than half above an integer, that integer is the nearest. -/
theorem nearest_below (hx : x = f + e) (h0 : 0 ≤ e) (h1 : e < 1 / 2) (P : Prop) :
    |x - f| ≤ 1 / 2 ∧ (|x - f| = 1 / 2 → P) := by
  have habs : |x - f| = e := by
    rw [hx, add_sub_cancel_left, abs_of_nonneg h0]
  exact ⟨by linarith, fun h => by linarith⟩

/-- More than half above an integer, the next one is the nearest. -/
theorem nearest_above (hx : x = f + e) (h0 : 1 / 2 < e) (h1 : e < 1) (P : Prop) :
    |x - (f + 1 : Int)| ≤ 1 / 2 ∧ (|x - (f + 1 : Int)| = 1 / 2 → P) := by
  have habs : |x - (f + 1 : Int)| = 1 - e := by
    rw [hx, abs_of_nonpos]
    · push_cast
      ring
    · push_cast
      linarith
  exact ⟨by linarith, fun h => by linarith⟩

/-- Half way between two integers, both are nearest. -/
theorem nearest_tie (hx : x = f + 1 / 2) :
    |x - f| ≤ 1 / 2 ∧ |x - (f + 1 : Int)| ≤ 1 / 2 := by
  rw [abs_le, abs_le]
  push_cast
  exact ⟨⟨by linarith, by linarith⟩, ⟨by linarith, by linarith⟩⟩

/-- The size of a number half way between two integers, and of the two. -/
theorem tie_abs (hx : x = f + 1 / 2) : if f < 0 then
    |((f + 1 : Int) : ℚ)| < |x| ∧ |x| < |(f : ℚ)| else
    |(f : ℚ)| < |x| ∧ |x| < |((f + 1 : Int) : ℚ)| := by
  split
  · rename_i hf
    have hle : (f : ℚ) ≤ -1 := by exact_mod_cast le_sub_one_of_lt hf
    rw [abs_of_nonpos (by push_cast; linarith),
      abs_of_nonpos (by linarith), abs_of_nonpos (by linarith)]
    push_cast
    exact ⟨by linarith, by linarith⟩
  · rename_i hf
    have hle : (0 : ℚ) ≤ f := by exact_mod_cast not_lt.mp hf
    rw [abs_of_nonneg (a := ((f + 1 : Int) : ℚ)) (by push_cast; linarith),
      abs_of_nonneg (a := x) (by linarith), abs_of_nonneg (by linarith)]
    push_cast
    exact ⟨by linarith, by linarith⟩

theorem floor_of_bits (hx : x = f + e) (h0 : 0 ≤ e) (h1 : e < 1) : ⌊x⌋ = f := by
  rw [floor_eq_iff]
  exact ⟨by linarith, by linarith⟩

theorem sign_of_bits (hx : x = f + e) (h0 : 0 ≤ e) (h1 : e < 1) : x < 0 ↔ f < 0 := by
  rw [← floor_of_bits hx h0 h1, floor_lt]
  simp

/-- Towards zero, a negative number with a fraction rounds up. -/
theorem towards_zero_of_bits (hx : x = f + e) (h0 : 0 ≤ e) (h1 : e < 1) :
    (if x < 0 then ⌈x⌉ else ⌊x⌋) = f + if f < 0 ∧ e ≠ 0 then 1 else 0 := by
  simp only [sign_of_bits hx h0 h1]
  by_cases hf : f < 0
  · rw [if_pos hf, ceil_eq_iff]
    by_cases he : e = 0
    · rw [if_neg (fun h => h.2 he), add_zero]
      exact ⟨by linarith, by linarith⟩
    have hpos : 0 < e := lt_of_le_of_ne h0 (Ne.symm he)
    rw [if_pos ⟨hf, he⟩]
    push_cast
    exact ⟨by linarith, by linarith⟩
  · rw [if_neg hf, if_neg (fun h => hf h.1), add_zero, floor_of_bits hx h0 h1]

/-- The carry of a mode, from the two discarded bits, rounds as the mode says. -/
theorem rounded_carry (mode : q_mode) {qb r odd : Bool} (hx : x = f + e)
    (hlow : qb = false → 0 ≤ e ∧ e < 1 / 2 ∧ (r = true ↔ e ≠ 0))
    (hhigh : qb = true → 1 / 2 ≤ e ∧ e < 1 ∧ (r = true ↔ e ≠ 1 / 2))
    (hodd : odd = true ↔ Odd f) :
    Rounded mode x (f + if carry mode (decide (f < 0)) qb r odd then 1 else 0) := by
  have hrange : 0 ≤ e ∧ e < 1 ∧ ((qb || r) = true ↔ e ≠ 0) := by
    cases qb with
    | false =>
      obtain ⟨h0, h1, h2⟩ := hlow rfl
      exact ⟨h0, by linarith, by simpa using h2⟩
    | true =>
      obtain ⟨h0, h1, _⟩ := hhigh rfl
      exact ⟨by linarith, h1, iff_of_true rfl (by linarith)⟩
  obtain ⟨h0, h1, hzero⟩ := hrange
  by_cases htrn : mode = .trn
  · subst htrn
    simpa [Rounded, carry] using (floor_of_bits hx h0 h1).symm
  by_cases htz : mode = .trn_zero
  · subst htz
    unfold Rounded carry
    rw [towards_zero_of_bits hx h0 h1]
    simp only [Bool.and_eq_true, decide_eq_true_eq, hzero]
  -- The other modes agree but for a number half way between two integers.
  cases hqb : qb with
  | false =>
    obtain ⟨_, hlt, _⟩ := hlow hqb
    have hnear := nearest_below hx h0 hlt
    cases mode <;> simp only [carry, Bool.false_and, Bool.false_eq_true, if_false, add_zero] <;>
      first | exact hnear _ | contradiction
  | true =>
    obtain ⟨hge, _, hr⟩ := hhigh hqb
    cases hrb : r with
    | true =>
      have hgt : 1 / 2 < e := lt_of_le_of_ne hge (Ne.symm (hr.mp hrb))
      have hnear := nearest_above hx hgt h1
      cases mode <;> simp only [carry, Bool.or_true, Bool.and_true, if_true] <;>
        first | exact hnear _ | contradiction
    | false =>
      have heq : e = 1 / 2 := by
        by_contra hne
        rw [hr.mpr hne] at hrb
        cases hrb
      rw [heq] at hx
      obtain ⟨hdown, hup⟩ := nearest_tie hx
      have habs := tie_abs hx
      cases mode with
      | trn | trn_zero => contradiction
      | rnd =>
        refine ⟨hup, fun _ => ?_⟩
        simp only [carry, if_true]
        push_cast
        linarith
      | rnd_min_inf =>
        simp only [carry, Bool.and_false, Bool.false_eq_true, if_false, add_zero]
        exact ⟨hdown, fun _ => by linarith⟩
      | rnd_zero =>
        by_cases hf : f < 0
        · rw [if_pos hf] at habs
          simp only [carry, hf, decide_true, Bool.true_or, Bool.and_true, if_true]
          exact ⟨hup, fun _ => habs.1⟩
        · rw [if_neg hf] at habs
          simp only [carry, hf, decide_false, Bool.or_false, Bool.and_false, Bool.false_eq_true,
            if_false, add_zero]
          exact ⟨hdown, fun _ => habs.1⟩
      | rnd_inf =>
        by_cases hf : f < 0
        · rw [if_pos hf] at habs
          simp only [carry, hf, decide_true, Bool.not_true, Bool.or_false, Bool.and_false,
            Bool.false_eq_true, if_false, add_zero]
          exact ⟨hdown, fun _ => habs.2⟩
        · rw [if_neg hf] at habs
          simp only [carry, hf, decide_false, Bool.not_false, Bool.true_or, Bool.and_true, if_true]
          exact ⟨hup, fun _ => habs.2⟩
      | rnd_conv =>
        cases hoddb : odd with
        | true =>
          exact ⟨hup, fun _ => (hodd.mp hoddb).add_one⟩
        | false =>
          simp only [carry, Bool.or_false, Bool.and_false, Bool.false_eq_true, if_false,
            add_zero]
          refine ⟨hdown, fun _ => not_odd_iff_even.mp fun h => ?_⟩
          rw [hodd.mpr h] at hoddb
          cases hoddb

end Bits

/-! ## Quantization -/

section Quantize

variable {W : Nat} {S : Bool}

theorem bit_at_eq (x : int_base W S) (k : Nat) : bit_at x k = x.toInt.testBit k := by
  unfold bit_at
  rw [if_neg (by omega), testBit_toInt, get_bit_eq, toNat_natCast]
  by_cases hk : k < W
  · rw [if_pos hk, if_pos (by omega)]
  · rw [if_neg hk, if_neg (by omega)]
    rfl

theorem emod_two_pow_ne_zero_iff (z : Int) (k : Nat) :
    z % 2 ^ k ≠ 0 ↔ ∃ j < k, z.testBit j = true := by
  constructor
  · intro h
    obtain ⟨j, hj⟩ := Nat.exists_testBit_of_ne_zero (show (z % 2 ^ k).toNat ≠ 0 by omega)
    rw [testBit_toNat_emod, Bool.and_eq_true, decide_eq_true_eq] at hj
    exact ⟨j, hj⟩
  · rintro ⟨j, hj, hbit⟩ hzero
    have htest := testBit_toNat_emod z k j
    rw [hzero, hbit, decide_eq_true hj] at htest
    simp at htest

theorem testBit_zero_eq (z : Int) : z.testBit 0 = decide (z % 2 = 1) := by
  have hmod := testBit_toNat_emod z 1 0
  rw [Nat.testBit_zero] at hmod
  simp only [pow_one, decide_true, Bool.true_and, Nat.zero_lt_one] at hmod
  rw [← hmod, decide_eq_decide]
  omega

/-- The bits below `k` are all clear if they are a multiple of `2 ^ k`. -/
theorem any_up_to_eq (x : int_base W S) (k : Nat) :
    any_up_to x ((k : Int) - 1) = decide (x.toInt % 2 ^ k ≠ 0) := by
  have hW := x.pos
  rw [Bool.eq_iff_iff, decide_eq_true_eq, emod_two_pow_ne_zero_iff]
  unfold any_up_to
  by_cases hk : k = 0
  · subst hk
    simp
  rw [if_neg (by omega)]
  split
  · rename_i h
    obtain ⟨hle, _, hneg⟩ := h
    refine iff_of_true rfl ⟨W - 1, by omega, ?_⟩
    rw [testBit_toInt, if_pos (by omega), ← get_bit_eq, hneg]
  · rename_i h
    simp only [List.any_eq_true, List.mem_range]
    constructor
    · rintro ⟨j, hj, hbit⟩
      refine ⟨j, by omega, ?_⟩
      rw [testBit_toInt, if_pos (by omega), ← get_bit_eq, hbit]
    · rintro ⟨j, hj, hbit⟩
      rw [testBit_toInt] at hbit
      by_cases hjW : j < W
      · rw [if_pos hjW, ← get_bit_eq] at hbit
        exact ⟨j, by omega, hbit⟩
      · rw [if_neg hjW, Bool.and_eq_true] at hbit
        exact absurd ⟨by omega, hbit.1, hbit.2⟩ h

variable {z : Int}

/-- Shifted by its width or more, only the sign is left. -/
theorem ediv_two_pow_of_le {n k : Nat} (hlow : -2 ^ n ≤ z) (hhigh : z < 2 ^ n) (hk : n ≤ k) :
    z / 2 ^ k = if z < 0 then -1 else 0 := by
  have hpow : (2 : Int) ^ n ≤ 2 ^ k := pow_le_pow_right₀ (by decide) hk
  split
  · rw [ediv_eq_iff_of_pos (by positivity)]
    omega
  · exact ediv_eq_zero_of_lt (by omega) (by omega)

theorem ediv_two_pow_bounds {b : Int} {n : Nat} (hlow : -b ≤ z) (hhigh : z < b) :
    -b ≤ z / 2 ^ n ∧ z / 2 ^ n < b := by
  have hpos : (0 : Int) < 2 ^ n := by positivity
  constructor
  · rw [Int.le_ediv_iff_mul_le hpos]
    nlinarith
  · rw [Int.ediv_lt_iff_lt_mul hpos]
    nlinarith

variable {Wq : Nat}

/-- A source in a multiplier's width, with three bits to spare. -/
theorem fits_spare (hz : Fits W S z) (hWq : W + 3 ≤ Wq) :
    -2 ^ (Wq - 3) ≤ z ∧ z < 2 ^ (Wq - 3) := by
  have hpow : (2 : Int) ^ W ≤ 2 ^ (Wq - 3) := pow_le_pow_right₀ (by decide) (by omega)
  have hpow' : (2 : Int) ^ (W - 1) ≤ 2 ^ (Wq - 3) := pow_le_pow_right₀ (by decide) (by omega)
  unfold Fits at hz
  split at hz <;> omega

theorem fits_of_spare (hWq : 3 ≤ Wq) (hz : -2 ^ (Wq - 3) ≤ z ∧ z ≤ 2 ^ (Wq - 3)) :
    Fits Wq true z := by
  have hpow : (2 : Int) ^ (Wq - 3) < 2 ^ (Wq - 1) := pow_lt_pow_right₀ (by decide) (by omega)
  unfold Fits
  rw [if_pos rfl]
  omega

/-- What is discarded by a shift of `s` bits: half of the new scale if the bit below it
is set, and what is below that bit. -/
theorem discarded_bits (z : Int) {s : Nat} (hs : 0 < s) : ∃ e : ℚ,
    (z : ℚ) / 2 ^ s = (z / 2 ^ s : Int) + e ∧
      (z.testBit (s - 1) = false → 0 ≤ e ∧ e < 1 / 2 ∧ (z % 2 ^ (s - 1) ≠ 0 ↔ e ≠ 0)) ∧
      (z.testBit (s - 1) = true → 1 / 2 ≤ e ∧ e < 1 ∧ (z % 2 ^ (s - 1) ≠ 0 ↔ e ≠ 1 / 2)) := by
  obtain ⟨t, rfl⟩ : ∃ t, s = t + 1 := ⟨s - 1, by omega⟩
  rw [Nat.add_sub_cancel]
  have hbit : z.testBit t = decide (z / 2 ^ t % 2 = 1) := by
    rw [← testBit_zero_eq, testBit_div_two_pow, Nat.zero_add]
  have hf : z / 2 ^ (t + 1) = z / 2 ^ t / 2 := by
    rw [pow_succ, ediv_ediv_of_nonneg (by positivity)]
  have hsplit : z = 2 ^ t * (2 * (z / 2 ^ (t + 1)) + z / 2 ^ t % 2) + z % 2 ^ t := by
    rw [hf, mul_ediv_add_emod, mul_ediv_add_emod]
  have hpos : (0 : Int) < 2 ^ t := by positivity
  have hr0 := emod_nonneg z (ne_of_gt hpos)
  have hr1 := emod_lt_of_pos z hpos
  have hparity : z / 2 ^ t % 2 = 0 ∨ z / 2 ^ t % 2 = 1 := by omega
  generalize z / 2 ^ (t + 1) = f at hsplit ⊢
  generalize z % 2 ^ t = r at hsplit hr0 hr1 ⊢
  generalize z / 2 ^ t % 2 = b at hbit hparity hsplit
  have hr1q : (r : ℚ) < 2 ^ t := by exact_mod_cast hr1
  have hrzero : r ≠ 0 ↔ (r : ℚ) / (2 * 2 ^ t) ≠ 0 := by
    rw [Ne, Ne, div_eq_zero_iff, cast_eq_zero, or_iff_left (by positivity)]
  have hlow : 0 ≤ (r : ℚ) / (2 * 2 ^ t) := by positivity
  have hhalf : (r : ℚ) / (2 * 2 ^ t) < 1 / 2 := by
    rw [div_lt_div_iff₀ (by positivity) (by norm_num)]
    linarith
  have hexact : (z : ℚ) / 2 ^ (t + 1) = f + (b / 2 + (r : ℚ) / (2 * 2 ^ t)) := by
    rw [hsplit]
    push_cast
    field_simp
    ring
  refine ⟨_, hexact, ?_⟩
  rw [hbit]
  rcases hparity with rfl | rfl
  · refine ⟨fun _ => ?_, fun hc => absurd hc (by decide)⟩
    rw [Int.cast_zero, zero_div, zero_add]
    exact ⟨hlow, hhalf, hrzero⟩
  · refine ⟨fun hc => absurd hc (by decide), fun _ => ?_⟩
    rw [Int.cast_one]
    refine ⟨by linarith, by linarith, hrzero.trans ?_⟩
    rw [not_iff_not]
    constructor <;> intro h <;> linarith

theorem toInt_convert_of {W2 : Nat} {S2 : Bool} {hW : 0 < W} {x : int_base W2 S2}
    (hx : x.toInt = z) (hz : Fits W S z) : (x.convert W S hW).toInt = z :=
  (toInt_convert x (hx ▸ hz)).trans hx

theorem toInt_one {hWq : 0 < Wq} (h : 3 ≤ Wq) : (of_native Wq true hWq 1).toInt = 1 := by
  have hpow : (1 : Int) ≤ 2 ^ (Wq - 3) := one_le_pow₀ (by decide)
  exact toInt_of_native (by omega) (fits_of_spare h ⟨by omega, hpow⟩)

/-- The multiplier is the exact value at the new scale, rounded by the mode. -/
theorem rounded_quantize (m : int_base W S) (fs ft : Int) (q_arg : q_mode) {hWq : 0 < Wq}
    (hroom : W + (max (ft - fs) 0).toNat + 3 ≤ Wq) (hint : Wq < 2 ^ 31) :
    Rounded q_arg ((m.toInt : ℚ) * 2 ^ (ft - fs)) (quantize Wq hWq m fs ft q_arg).toInt := by
  have hspare := fits_spare m.toInt_fits (show W + 3 ≤ Wq by omega)
  have hwide : (m.convert Wq true hWq).toInt = m.toInt :=
    toInt_convert m (fits_of_spare (by omega) ⟨hspare.1, le_of_lt hspare.2⟩)
  unfold quantize
  simp only
  by_cases hs : fs - ft ≤ 0
  · -- A finer scale: the shift is exact.
    obtain ⟨n, hn⟩ : ∃ n : Nat, ft - fs = n := ⟨(ft - fs).toNat, by omega⟩
    have hval : (m.toInt : ℚ) * 2 ^ (ft - fs) = ((m.toInt * 2 ^ n : Int) : ℚ) := by
      rw [hn]
      push_cast
      rfl
    have hfit : Fits Wq true (m.toInt * 2 ^ n) := by
      have hm := fits_spare m.toInt_fits (show W + 3 ≤ W + 3 by omega)
      have hpow : (2 : Int) ^ W * 2 ^ n ≤ 2 ^ (Wq - 3) := by
        rw [← pow_add]
        exact pow_le_pow_right₀ (by decide) (by omega)
      have hpos : (0 : Int) < 2 ^ n := by positivity
      rw [Nat.add_sub_cancel] at hm
      refine fits_of_spare (by omega) ⟨?_, ?_⟩ <;> nlinarith
    have hshift := toInt_shift_left_of_int (m.convert Wq true hWq)
      (show n < 2 ^ 31 by omega)
    rw [hwide] at hshift
    have hexact := fits_unique hWq (toInt_fits _) hfit hshift
    rw [if_pos hs, show -(fs - ft) = (n : Int) by omega, toInt_convert_of hexact hfit, hval]
    exact rounded_self q_arg _
  · -- A coarser scale: the shift rounds down, and the carry corrects it.
    obtain ⟨s, hs'⟩ : ∃ s : Nat, fs - ft = s := ⟨(fs - ft).toNat, by omega⟩
    have hs0 : 0 < s := by omega
    obtain ⟨n, hn⟩ : ∃ n : Nat, min (s : Int) ((Wq : Int) - 1) = n :=
      ⟨(min (s : Int) ((Wq : Int) - 1)).toNat, by omega⟩
    have hdiv : m.toInt / 2 ^ n = m.toInt / 2 ^ s := by
      by_cases hle : s ≤ Wq - 1
      · rw [show n = s by omega]
      · rw [ediv_two_pow_of_le hspare.1 hspare.2 (show Wq - 3 ≤ n by omega),
          ediv_two_pow_of_le hspare.1 hspare.2 (show Wq - 3 ≤ s by omega)]
    have hshift := toInt_shift_right_of_int (m.convert Wq true hWq)
      (show n < 2 ^ 31 by omega)
    rw [hwide, hdiv] at hshift
    obtain ⟨hflow, hfhigh⟩ := ediv_two_pow_bounds hspare.1 hspare.2
    have htrunc : (((m.convert Wq true hWq).shift_right (of_int n)).convert Wq true
        hWq).toInt = m.toInt / 2 ^ s :=
      toInt_convert_of hshift (fits_of_spare (by omega) ⟨hflow, le_of_lt hfhigh⟩)
    rw [if_neg hs, hs', hn, show (s : Int) - 1 = ((s - 1 : Nat) : Int) by omega,
      show (s : Int) - 2 = ((s - 1 : Nat) : Int) - 1 by omega, bit_at_eq, any_up_to_eq]
    generalize ((m.convert Wq true hWq).shift_right (of_int n)).convert Wq true hWq =
      trunc at htrunc ⊢
    have hsign : (S && m.get_bit (W - 1)) = decide (m.toInt / 2 ^ s < 0) := by
      rw [show m.get_bit (W - 1) = m.negative from rfl, m.negative_eq, decide_eq_decide]
      have hpos : (0 : Int) < 2 ^ s := by positivity
      rw [Int.ediv_lt_iff_lt_mul hpos, Int.zero_mul]
    have hodd : trunc.get_bit 0 = true ↔ Odd (m.toInt / 2 ^ s) := by
      have hbit := trunc.testBit_toInt 0
      rw [if_pos hWq, htrunc] at hbit
      rw [get_bit_eq, ← hbit, odd_iff, testBit_zero_eq, decide_eq_true_eq]
    obtain ⟨e, hx, hlow, hhigh⟩ := discarded_bits m.toInt hs0
    have hval : (m.toInt : ℚ) * 2 ^ (ft - fs) = (m.toInt : ℚ) / 2 ^ s := by
      rw [show ft - fs = -(s : Int) by omega, zpow_neg, zpow_natCast, div_eq_mul_inv]
    have hround : Rounded q_arg ((m.toInt : ℚ) / 2 ^ s) (m.toInt / 2 ^ s +
        if carry q_arg (decide (m.toInt / 2 ^ s < 0)) (m.toInt.testBit (s - 1))
          (decide (m.toInt % 2 ^ (s - 1) ≠ 0)) (trunc.get_bit 0) then 1 else 0) :=
      rounded_carry q_arg hx (by simpa using hlow) (by simpa using hhigh) hodd
    rw [hval, hsign]
    split
    · rename_i hcarry
      rw [if_pos hcarry] at hround
      have hsum : (trunc.plus (of_native Wq true hWq 1)).toInt = m.toInt / 2 ^ s + 1 := by
        rw [toInt_plus, htrunc, toInt_one (by omega)]
      rw [toInt_convert_of hsum (fits_of_spare (by omega) ⟨by omega, by omega⟩)]
      exact hround
    · rename_i hcarry
      rw [if_neg hcarry, add_zero] at hround
      rw [htrunc]
      exact hround

end Quantize

/-! ## Range -/

def highest (W : Nat) (S : Bool) : Int := if S then 2 ^ (W - 1) - 1 else 2 ^ W - 1

def lowest (W : Nat) (S : Bool) : Int := if S then -2 ^ (W - 1) else 0

section Range

variable {W Wq : Nat} {S : Bool}

theorem fits_iff_range (z : Int) : Fits W S z ↔ lowest W S ≤ z ∧ z ≤ highest W S := by
  unfold Fits lowest highest
  cases S with
  | true =>
    simp only [if_true]
    omega
  | false =>
    simp only [Bool.false_eq_true, if_false]
    omega

theorem lowest_le_zero : lowest W S ≤ 0 ∧ 0 ≤ highest W S := by
  have h1 : (1 : Int) ≤ 2 ^ (W - 1) := one_le_pow₀ (by decide)
  have h2 : (1 : Int) ≤ 2 ^ W := one_le_pow₀ (by decide)
  unfold lowest highest
  split <;> omega

theorem range_spare (hroom : W + 3 ≤ Wq) :
    -2 ^ (Wq - 3) ≤ lowest W S ∧ highest W S < 2 ^ (Wq - 3) := by
  have hz := lowest_le_zero (W := W) (S := S)
  have hlow := fits_spare ((fits_iff_range _).mpr ⟨le_refl _, by omega⟩ : Fits W S (lowest W S))
    hroom
  have hhigh := fits_spare
    ((fits_iff_range _).mpr ⟨by omega, le_refl _⟩ : Fits W S (highest W S)) hroom
  exact ⟨hlow.1, hhigh.2⟩

variable {hWq : 0 < Wq}

variable {hW : 0 < W}

theorem toInt_zero : (of_native W S hW 0).toInt = 0 :=
  toInt_of_native (by omega) ((fits_iff_range 0).mpr lowest_le_zero)

theorem toInt_one_shift {n : Nat} (hn : n + 3 ≤ Wq) (hint : Wq < 2 ^ 31) :
    ((of_native Wq true hWq 1).shift_left (of_int n)).toInt = 2 ^ n := by
  have hpow : (2 : Int) ^ n ≤ 2 ^ (Wq - 3) := pow_le_pow_right₀ (by decide) (by omega)
  have hpos : (0 : Int) < 2 ^ n := by positivity
  have hshift := toInt_shift_left_of_int (of_native Wq true hWq 1)
    (show n < 2 ^ 31 by omega)
  rw [toInt_one (by omega), one_mul] at hshift
  exact fits_unique hWq (toInt_fits _)
    (fits_of_spare (by omega) ⟨by omega, hpow⟩) hshift

section

variable (hroom : W + 3 ≤ Wq) (hint : Wq < 2 ^ 31)
include hroom hint

theorem toInt_range_hi (hW : 0 < W) :
    (range_hi W S hWq).toInt = highest W S := by
  have hspare := range_spare (S := S) hroom
  have hz := lowest_le_zero (W := W) (S := S)
  have hfit : Fits Wq true (highest W S) := fits_of_spare (by omega) ⟨by omega, by omega⟩
  unfold range_hi highest at *
  cases S with
  | true =>
    simp only [if_true] at hfit ⊢
    refine toInt_convert_of ?_ hfit
    rw [show (W : Int) - 1 = ((W - 1 : Nat) : Int) by omega, toInt_minus,
      toInt_one_shift (by omega) hint, toInt_one (by omega)]
  | false =>
    simp only [Bool.false_eq_true, if_false] at hfit ⊢
    refine toInt_convert_of ?_ hfit
    rw [toInt_minus, toInt_one_shift (by omega) hint, toInt_one (by omega)]

theorem toInt_range_lo (hW : 0 < W) :
    (range_lo W S hWq).toInt = lowest W S := by
  have hspare := range_spare (S := S) hroom
  have hz := lowest_le_zero (W := W) (S := S)
  have hfit : Fits Wq true (lowest W S) := fits_of_spare (by omega) ⟨by omega, by omega⟩
  unfold range_lo lowest at *
  cases S with
  | true =>
    simp only [if_true] at hfit ⊢
    refine toInt_convert_of ?_ hfit
    rw [show (W : Int) - 1 = ((W - 1 : Nat) : Int) by omega, toInt_unary_minus,
      toInt_one_shift (by omega) hint]
  | false =>
    exact toInt_zero

/-- What the two comparisons find. -/
theorem overflow_iff (hW : 0 < W) (q : int_base Wq true) :
    (0 < q.compare (range_hi W S q.pos) ↔ highest W S < q.toInt) ∧
      (q.compare (range_lo W S q.pos) < 0 ↔ q.toInt < lowest W S) ∧
      (q.compare_values (range_lo W S q.pos) = 0 ↔ q.toInt = lowest W S) := by
  rw [compare_eq, compare_eq, compare_values_eq_zero,
    toInt_range_hi hroom hint hW, toInt_range_lo hroom hint hW, sign_pos_iff,
    sign_neg_iff]
  omega

omit hroom hint in
/-- A pattern kept as it is stands for the integer if that is in range. -/
theorem toInt_raw (q : int_base Wq true) (hlow : lowest W S ≤ q.toInt)
    (hhigh : q.toInt ≤ highest W S) : (q.convert W S hW).toInt = q.toInt :=
  toInt_convert q ((fits_iff_range _).mpr ⟨hlow, hhigh⟩)

variable (N : Nat) (q : int_base Wq true) (neg low : Bool)

theorem sat_zero_zeroes :
    (overflow_adjust W hW S .sat_zero N q neg low).toInt =
      if lowest W S ≤ q.toInt ∧ q.toInt ≤ highest W S then q.toInt else 0 := by
  obtain ⟨hover, hunder, _⟩ := overflow_iff (S := S) hroom hint hW q
  unfold overflow_adjust
  simp only [hover, hunder, reduceCtorEq, false_and, if_false, ne_eq, not_false_eq_true, true_or,
    decide_true, Bool.and_true, Bool.and_eq_true, Bool.not_eq_true', decide_eq_false_iff_not]
  by_cases hin : lowest W S ≤ q.toInt ∧ q.toInt ≤ highest W S
  · rw [if_pos ⟨by omega, by omega⟩, if_pos hin, toInt_raw q hin.1 hin.2]
  · rw [if_neg (by omega), if_neg hin, toInt_zero]

/-- Above the range, both clamps store the largest integer. -/
theorem toInt_clamped_high (hW : 0 < W) (q : int_base Wq true) :
    ((range_hi W S q.pos).convert W S hW).toInt = highest W S ∧
      (S = false → ((of_native W false hW 0).complement.convert W S hW).toInt =
        highest W S) := by
  have hz := lowest_le_zero (W := W) (S := S)
  have hfit : Fits W S (highest W S) := (fits_iff_range _).mpr ⟨by omega, le_refl _⟩
  constructor
  · exact toInt_convert_of (toInt_range_hi hroom hint hW) hfit
  · rintro rfl
    have hones : (of_native W false hW 0).complement.toInt = highest W false := by
      apply toInt_eq_of_fits _ hfit
      rw [value_complement_zero (by rw [value_of_native hW (by omega)]; simp)]
      have hpow : (1 : Int) ≤ 2 ^ W := one_le_pow₀ (by decide)
      rw [highest, if_neg (by decide), emod_eq_of_lt (by omega) (by omega)]
      have hcast : ((2 ^ W : Nat) : Int) = 2 ^ W := by push_cast; rfl
      omega
    exact toInt_convert_of hones hfit

theorem sat_clamps :
    (overflow_adjust W hW S .sat N q neg low).toInt =
      max (lowest W S) (min (highest W S) q.toInt) := by
  obtain ⟨hover, hunder, _⟩ := overflow_iff (S := S) hroom hint hW q
  obtain ⟨hhi, hones⟩ := toInt_clamped_high (S := S) hroom hint hW q
  have hz := lowest_le_zero (W := W) (S := S)
  unfold overflow_adjust
  simp only [hover, hunder, reduceCtorEq, false_and, if_false, ne_eq, not_false_eq_true, true_or,
    decide_true, Bool.and_true, Bool.and_eq_true, Bool.not_eq_true', decide_eq_false_iff_not,
    decide_eq_true_eq]
  by_cases hin : lowest W S ≤ q.toInt ∧ q.toInt ≤ highest W S
  · rw [if_pos ⟨by omega, by omega⟩, toInt_raw q hin.1 hin.2]
    omega
  rw [if_neg (by omega)]
  cases S with
  | true =>
    rw [if_pos rfl]
    by_cases habove : highest W true < q.toInt
    · rw [if_pos habove]
      omega
    · have hfit : Fits W true (lowest W true) := (fits_iff_range _).mpr ⟨le_refl _, by omega⟩
      rw [if_neg habove, toInt_convert_of (toInt_range_lo hroom hint hW) hfit]
      omega
  | false =>
    rw [if_neg (by decide)]
    by_cases habove : highest W false < q.toInt
    · rw [if_pos habove, hones rfl]
      omega
    · rw [if_neg habove, toInt_zero]
      have : lowest W false = 0 := rfl
      omega

/-- The lowest integer of a range that is symmetric, if it has negative integers. -/
def symmetricLowest (W : Nat) (S : Bool) : Int := if S then -highest W S else lowest W S

theorem sat_sym_clamps :
    (overflow_adjust W hW S .sat_sym N q neg low).toInt =
      max (symmetricLowest W S) (min (highest W S) q.toInt) := by
  cases S with
  | true =>
    obtain ⟨hover, hunder, hequal⟩ := overflow_iff (S := true) hroom hint hW q
    obtain ⟨hhi, _⟩ := toInt_clamped_high (S := true) hroom hint hW q
    have hz := lowest_le_zero (W := W) (S := true)
    unfold overflow_adjust
    simp only [hover, hunder, hequal, reduceCtorEq, true_and, ne_eq, not_false_eq_true, true_or,
      decide_true, Bool.and_true, Bool.and_eq_true, Bool.not_eq_true', decide_eq_false_iff_not,
      decide_eq_true_eq, if_true]
    have hsym : -highest W true = lowest W true + 1 := by
      unfold highest lowest
      simp only [if_true]
      omega
    simp only [symmetricLowest, if_true, hsym]
    by_cases hin : lowest W true < q.toInt ∧ q.toInt ≤ highest W true
    · rw [if_neg (show ¬q.toInt = lowest W true by omega), if_pos, toInt_raw q (by omega) hin.2]
      · omega
      · exact ⟨by omega, by simpa using le_of_lt hin.1⟩
    · rw [if_neg]
      · by_cases habove : highest W true < q.toInt
        · rw [if_pos habove]
          omega
        · have hlo : (range_lo W true q.pos).toInt = lowest W true :=
            toInt_range_lo hroom hint hW
          have hspare := range_spare (S := true) hroom
          have hsum : (((range_lo W true q.pos).plus (of_native Wq true q.pos 1)).convert
              Wq true q.pos).toInt = lowest W true + 1 := by
            refine toInt_convert_of ?_ (fits_of_spare (by omega) ⟨by omega, by omega⟩)
            rw [toInt_plus, hlo, toInt_one (by omega)]
          have hfit : Fits W true (lowest W true + 1) := by
            rw [fits_iff_range]
            omega
          rw [if_neg habove, toInt_convert_of hsum hfit]
          omega
      · rintro ⟨hno, hne⟩
        split at hne
        · cases hne
        · simp only [decide_eq_false_iff_not] at hne
          omega
  | false =>
    -- Without negative integers the range is symmetric already.
    have hsame : overflow_adjust W hW false .sat_sym N q neg low =
        overflow_adjust W hW false .sat N q neg low := by
      unfold overflow_adjust
      simp only [reduceCtorEq, Bool.false_eq_true, false_and, and_false, if_false, ne_eq]
    rw [hsame]
    exact sat_clamps hroom hint N q neg low

end

theorem wrap_keeps_low_bits (q : int_base Wq true) (neg low : Bool) :
    (overflow_adjust W hW S .wrap 0 q neg low).toInt ≡ q.toInt [ZMOD 2 ^ W] := by
  have hraw : overflow_adjust W hW S .wrap 0 q neg low = q.convert W S hW := by
    unfold overflow_adjust
    simp
  rw [hraw]
  exact toInt_modEq (value_convert hW q)

end Range

/-! ## Conversion rounds and then reduces -/

namespace fixed_base

variable {W2 N2 : Nat} {I2 : Int} {S2 : Bool} {Q2 : q_mode} {O2 : o_mode}

/-- A conversion stores the exact value of its source, in units of the target's lowest
bit and rounded by the target's mode, brought into range by the target's overflow mode.
Every width that the conversion names has to be an `int`. -/
theorem conversion_rounds_then_reduces (x : fixed_base W2 I2 S2 Q2 O2 N2) {W : Nat} (hW : 0 < W)
    (I : Int) (S : Bool) (Q : q_mode)
    (hint : kWq W2 ((W2 : Int) - I2) W ((W : Int) - I) < 2 ^ 31) :
    ∃ q : Int, Rounded Q (x.exact / 2 ^ (-((W : Int) - I))) q ∧
      (∀ N, (assign_fixed hW x : fixed_base W I S Q .sat N).V.toInt =
        max (lowest W S) (min (highest W S) q)) ∧
      (∀ N, (assign_fixed hW x : fixed_base W I S Q .sat_zero N).V.toInt =
        if lowest W S ≤ q ∧ q ≤ highest W S then q else 0) ∧
      (∀ N, (assign_fixed hW x : fixed_base W I S Q .sat_sym N).V.toInt =
        max (symmetricLowest W S) (min (highest W S) q)) ∧
      (assign_fixed hW x : fixed_base W I S Q .wrap 0).V.toInt ≡ q [ZMOD 2 ^ W] := by
  have hroomq : W2 + (max ((W : Int) - I - ((W2 : Int) - I2)) 0).toNat + 3 ≤
      kWq W2 ((W2 : Int) - I2) W ((W : Int) - I) := by
    unfold kWq
    omega
  have hroom : W + 3 ≤ kWq W2 ((W2 : Int) - I2) W ((W : Int) - I) := by
    unfold kWq
    omega
  have hround : Rounded Q ((x.V.toInt : ℚ) * 2 ^ ((W : Int) - I - ((W2 : Int) - I2)))
      (quantize (kWq W2 ((W2 : Int) - I2) W ((W : Int) - I)) (Nat.succ_pos _) x.V
        ((W2 : Int) - I2) ((W : Int) - I) Q).toInt :=
    rounded_quantize x.V _ _ Q hroomq hint
  have hscale : (x.V.toInt : ℚ) * 2 ^ ((W : Int) - I - ((W2 : Int) - I2)) =
      x.exact / 2 ^ (-((W : Int) - I)) := by
    rw [exact, div_eq_mul_inv, ← zpow_neg, mul_assoc, ← zpow_add₀ (by norm_num)]
    ring_nf
  rw [hscale] at hround
  have hV (O : o_mode) (N : Nat) : (assign_fixed hW x : fixed_base W I S Q O N).V =
      overflow_adjust W hW S O N (quantize (kWq W2 ((W2 : Int) - I2) W ((W : Int) - I))
        (Nat.succ_pos _) x.V ((W2 : Int) - I2) ((W : Int) - I) Q) (S2 && x.V.get_bit (W2 - 1))
        (bit_at x.V (W + ((W2 : Int) - I2) - ((W : Int) - I))) := rfl
  simp only [hV]
  refine ⟨_, hround, fun N => ?_, fun N => ?_, fun N => ?_, ?_⟩
  · exact sat_clamps hroom hint N _ _ _
  · exact sat_zero_zeroes hroom hint N _ _ _
  · exact sat_sym_clamps hroom hint N _ _ _
  · exact wrap_keeps_low_bits _ _ _

/-- Minus five quarters, with two bits below the binary point. -/
def minusFiveQuarters : fixed_base 4 2 true .trn .wrap 0 :=
  ⟨of_native 4 true (by decide) (-5)⟩

theorem minus_five_quarters_converts : (0 < 2 ∧ kWq 4 (4 - 2) 2 (2 - 2) < 2 ^ 31) ∧
    ∃ q : Int, Rounded .rnd_conv (minusFiveQuarters.exact / 2 ^ (-((2 : Int) - 2))) q ∧
      (assign_fixed (by decide) minusFiveQuarters : fixed_base 2 2 true .rnd_conv .sat 0).V.toInt =
        max (lowest 2 true) (min (highest 2 true) q) := by
  have hint : kWq 4 (4 - 2) 2 (2 - 2) < 2 ^ 31 := by decide
  obtain ⟨q, hq, hsat, _⟩ :=
    conversion_rounds_then_reduces minusFiveQuarters (by decide) 2 true .rnd_conv hint
  exact ⟨⟨by decide, hint⟩, q, hq, hsat 0⟩

end fixed_base

end Tapa.Base
