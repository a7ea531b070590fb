-- The integers of any width in software simulation (`base/int.h`): a pattern of
-- bits in limbs of 64 bits, or in the smallest native integer up to 64 bits. Bits
-- at or above the width are zero.
import Tapa.Limbs

namespace Tapa.Base

open Limbs List Nat

/-! ## Storage -/

def object_bytes_from : Nat → Nat → Nat → Nat
  | 0, bytes, _ => bytes
  | fuel + 1, bytes, w => if bytes * 8 < w then object_bytes_from fuel (bytes * 2) w else bytes

/-- The next power of two at or above the bytes of a width. -/
def object_bytes (w : Nat) : Nat := object_bytes_from w 1 w

section

variable (W : Nat)

def limb_count : Nat := if 64 < W then (W + 63) / 64 else 1

/-- The limbs that are stored: those in use and padding. -/
def stored : Nat := if 64 < W then object_bytes W / 8 else 1

/-- The size of the native integer of a narrow width. -/
def native_bits : Nat :=
  if W ≤ 8 then 8 else if W ≤ 16 then 16 else if W ≤ 32 then 32 else 64

/-- A limb as it is stored: a narrow width casts it to its native integer. -/
def cast (x : UInt64) : UInt64 :=
  if 64 < W then x else UInt64.ofNat (x.toNat % 2 ^ native_bits W)

def top_mask : UInt64 := if W % 64 = 0 then ones else shl 1 (W % 64) - 1

/-- The storage with the bits at or above the width cleared. -/
def trim (v : List UInt64) : List UInt64 :=
  v.modify (limb_count W - 1) fun x => cast W (x &&& cast W (top_mask W))

/-- Fresh storage with limbs assigned to it. -/
def store (out : List UInt64) : List UInt64 :=
  (out.take (limb_count W)).map (cast W) ++ List.replicate (stored W - limb_count W) 0

theorem object_bytes_from_spec (fuel : Nat) {bytes w : Nat} (hpos : 0 < bytes)
    (hfuel : w ≤ bytes * 8 + fuel) : w ≤ object_bytes_from fuel bytes w * 8 ∧
      ∃ k, object_bytes_from fuel bytes w = bytes * 2 ^ k := by
  induction fuel generalizing bytes with
  | zero => exact ⟨by simpa [object_bytes_from] using hfuel, 0, by simp [object_bytes_from]⟩
  | succ fuel ih =>
    unfold object_bytes_from
    split
    · obtain ⟨hle, k, hk⟩ := ih (show 0 < bytes * 2 by omega) (by omega)
      refine ⟨hle, k + 1, ?_⟩
      rw [hk, pow_succ, mul_assoc, mul_comm 2]
    · exact ⟨by omega, 0, by simp⟩

/-- The padding is not narrower than the value. -/
theorem limb_count_le_stored : limb_count W ≤ stored W := by
  unfold limb_count stored
  split
  · obtain ⟨hle, k, hk⟩ := object_bytes_from_spec W (w := W) one_pos (by omega)
    unfold object_bytes
    rw [hk] at hle ⊢
    -- More than 8 bytes are a power of two that 8 divides.
    have h3 : 3 ≤ k := by
      by_contra hlt
      have : 2 ^ k ≤ 2 ^ 2 := Nat.pow_le_pow_right (by decide) (by omega)
      omega
    obtain ⟨m, rfl⟩ := Nat.exists_eq_add_of_le h3
    rw [pow_add] at hle ⊢
    omega
  · exact le_refl 1

theorem limb_count_pos : 0 < limb_count W := by
  unfold limb_count
  split <;> omega

theorem le_limb_count : W ≤ 64 * limb_count W := by
  unfold limb_count
  split <;> omega

/-- Where a bit below the width is. -/
theorem lt_width_iff {W : Nat} (hW : 0 < W) (k : Nat) :
    k < W ↔ k / 64 < limb_count W - 1 ∨
      k / 64 = limb_count W - 1 ∧ (W % 64 = 0 ∨ k % 64 < W % 64) := by
  unfold limb_count
  split <;> omega

theorem native_bits_ge {W : Nat} (hW : ¬64 < W) : W ≤ native_bits W := by
  unfold native_bits
  split
  · assumption
  · split
    · assumption
    · split <;> omega

theorem testBit_cast (x : UInt64) (k : Nat) : (cast W x).toNat.testBit k =
      (x.toNat.testBit k && (decide (64 < W) || decide (k < native_bits W))) := by
  unfold cast
  split
  · rename_i hW
    simp [hW]
  rename_i hW
  have hlt : x.toNat % 2 ^ native_bits W < 2 ^ 64 :=
    lt_of_le_of_lt (mod_le _ _) x.toNat_lt
  rw [UInt64.toNat_ofNat', mod_eq_of_lt hlt]
  simp [hW, Bool.and_comm]

@[simp] theorem cast_zero : cast W 0 = 0 := by
  unfold cast
  simp

theorem testBit_top_mask (W k : Nat) :
    (top_mask W).toNat.testBit k = (decide (k < 64) && decide (W % 64 = 0 ∨ k < W % 64)) := by
  unfold top_mask
  split
  · rename_i hW
    simp [testBit_ones, hW]
  have hlt : W % 64 < 64 := mod_lt _ (by decide)
  have hpow : 2 ^ (W % 64) < 2 ^ 64 := Nat.pow_lt_pow_right (by decide) hlt
  have hshl : (shl 1 (W % 64)).toNat = 2 ^ (W % 64) := by
    rw [toNat_shl _ hlt, show (1 : UInt64).toNat = 1 from rfl, one_mul, mod_eq_of_lt hpow]
  have hpos := Nat.two_pow_pos (W % 64)
  have hval : (shl 1 (W % 64) - 1).toNat = 2 ^ (W % 64) - (0 + 1) := by
    rw [UInt64.toNat_sub, show (1 : UInt64).toNat = 1 from rfl]
    omega
  rw [hval, testBit_two_pow_sub_succ hpos, Bool.eq_iff_iff]
  simp only [zero_testBit, Bool.not_false, Bool.and_true, Bool.and_eq_true,
    decide_eq_true_eq]
  omega

theorem length_store {out : List UInt64} (h : limb_count W ≤ out.length) :
    (store W out).length = stored W := by
  have hle := limb_count_le_stored W
  simp only [store, length_append, length_map, length_take, length_replicate]
  omega

end

theorem getD_store {W : Nat} {out : List UInt64} (h : limb_count W ≤ out.length) (i : Nat) :
    (store W out).getD i 0 = if i < limb_count W then cast W (out.getD i 0) else 0 := by
  have hlen : ((out.take (limb_count W)).map (cast W)).length = limb_count W := by
    rw [length_map, length_take_of_le h]
  simp only [store, getD_eq_getElem?_getD, getElem?_append, hlen]
  split
  · rename_i hi
    rw [getElem?_map, getElem?_take_of_lt hi, getElem?_eq_getElem (by omega)]
    rfl
  · rw [getElem?_replicate]
    split <;> rfl

theorem testBit_value_trim {W : Nat} (hW : 0 < W) {v : List UInt64}
    (hlow : ∀ i, limb_count W ≤ i → v.getD i 0 = 0) (k : Nat) :
    (value (trim W v)).testBit k = (decide (k < W) && (value v).testBit k) := by
  have hk := lt_width_iff hW k
  have hk64 : k % 64 < 64 := mod_lt _ (by decide)
  have hget : (trim W v).getD (k / 64) 0 = if k / 64 = limb_count W - 1 then
      cast W (v.getD (k / 64) 0 &&& cast W (top_mask W)) else v.getD (k / 64) 0 := by
    simp only [trim, getD_eq_getElem?_getD, getElem?_modify]
    by_cases hi : k / 64 = limb_count W - 1
    · cases hv : v[k / 64]? with
      | none => simp
      | some x => simp [hi]
    · rw [if_neg hi]
      cases hv : v[k / 64]? with
      | none => rfl
      | some x => simp [Ne.symm hi]
  rw [testBit_value, testBit_value, hget]
  by_cases hi : k / 64 = limb_count W - 1
  · rw [if_pos hi, testBit_cast, UInt64.toNat_and, testBit_and, testBit_cast,
      testBit_top_mask]
    by_cases hwide : 64 < W
    · rw [Bool.eq_iff_iff]
      simp only [Bool.and_eq_true, Bool.or_eq_true, decide_eq_true_eq]
      constructor
      · rintro ⟨⟨hx, ⟨_, hm⟩, _⟩, _⟩
        exact ⟨hk.mpr (.inr ⟨hi, hm⟩), hx⟩
      · rintro ⟨hlt, hx⟩
        refine ⟨⟨hx, ⟨hk64, ?_⟩, .inl hwide⟩, .inl hwide⟩
        rcases hk.mp hlt with h' | h'
        · omega
        · exact h'.2
    · have hge := native_bits_ge hwide
      have hone : limb_count W = 1 := by simp [limb_count, hwide]
      have hkk : k % 64 = k := by omega
      rw [Bool.eq_iff_iff]
      simp only [Bool.and_eq_true, Bool.or_eq_true, decide_eq_true_eq, hkk]
      constructor
      · rintro ⟨⟨hx, ⟨_, hm⟩, _⟩, _⟩
        exact ⟨hk.mpr (.inr ⟨hi, by rwa [hkk]⟩), hx⟩
      · rintro ⟨hlt, hx⟩
        refine ⟨⟨hx, ⟨by omega, ?_⟩, .inr (by omega)⟩, .inr (by omega)⟩
        rcases hk.mp hlt with h' | h'
        · omega
        · rw [hkk] at h'
          exact h'.2
  · rw [if_neg hi]
    by_cases hlt : k < W
    · simp [hlt]
    have hge : limb_count W ≤ k / 64 := by
      by_contra hcon
      exact hlt (hk.mpr (.inl (by omega)))
    rw [hlow _ hge]
    simp

/-- Assigned and trimmed, a number is reduced to its width. -/
theorem value_trim_store {W : Nat} (hW : 0 < W) {out : List UInt64}
    (h : limb_count W ≤ out.length) : value (trim W (store W out)) = value out % 2 ^ W := by
  apply eq_of_testBit_eq
  intro k
  rw [testBit_value_trim hW, testBit_mod_two_pow, testBit_value, testBit_value, getD_store h]
  · by_cases hlt : k < W
    · have hcount := le_limb_count W
      have hnat : 64 < W ∨ k % 64 < native_bits W := by
        by_cases hwide : 64 < W
        · exact .inl hwide
        · have hge := native_bits_ge hwide
          exact .inr (by omega)
      rw [if_pos (by omega), testBit_cast, ← Bool.decide_or, decide_eq_true hnat, Bool.and_true]
    · simp [hlt]
  · intro i hi
    rw [getD_store h, if_neg (by omega)]

/-! ## Integers -/

/-- An integer of `W` bits, signed if `S`: its limbs, with no bit at or above `W`. -/
structure int_base (W : Nat) (S : Bool) where
  v : List UInt64
  pos : 0 < W
  length : v.length = stored W
  bounded : value v < 2 ^ W

namespace int_base

variable {W W2 : Nat} {S S2 : Bool}

theorem pos_add (x : int_base W S) (W2 : Nat) : 0 < W + W2 := Nat.add_pos_left x.pos W2

/-- Fresh storage with limbs assigned to it and trimmed. -/
def of_limbs (W : Nat) (S : Bool) (hW : 0 < W) (out : List UInt64)
    (h : limb_count W ≤ out.length) : int_base W S where
  v := trim W (store W out)
  pos := hW
  length := by rw [trim, length_modify, length_store W h]
  bounded := by
    rw [value_trim_store hW h]
    exact Nat.mod_lt _ (Nat.two_pow_pos W)

theorem value_of_limbs {hW : 0 < W} {out : List UInt64} {h : limb_count W ≤ out.length} :
    value (of_limbs W S hW out h).v = value out % 2 ^ W := value_trim_store hW h

section

variable (x : int_base W S)

def get_bit (idx : Nat) : Bool :=
  shr (x.v.getD (idx / 64) 0) (idx % 64) &&& 1 ≠ 0

theorem get_bit_eq (idx : Nat) : x.get_bit idx = (value x.v).testBit idx := by
  have hbit : ∀ y : UInt64, decide (y &&& 1 ≠ 0) = y.toNat.testBit 0 := by
    intro y
    rw [testBit_zero, decide_eq_decide, ne_eq, ← UInt64.toNat_inj, UInt64.toNat_and,
      show (1 : UInt64).toNat = 1 from rfl, and_one_is_mod]
    show ¬y.toNat % 2 = 0 ↔ _
    omega
  rw [get_bit, hbit, testBit_shr _ (mod_lt _ (by decide)), zero_add, testBit_value]

def negative : Bool := x.get_bit (W - 1)

/-- The integer that the pattern stands for. -/
def toInt : Int :=
  if S = true ∧ 2 ^ (W - 1) ≤ value x.v then (value x.v : Int) - 2 ^ W else value x.v

theorem two_pow_width (hW : 0 < W) : 2 ^ W = 2 * 2 ^ (W - 1) := by
  rw [← Nat.pow_succ', Nat.succ_eq_add_one, Nat.sub_add_cancel hW]

theorem negative_iff : x.negative = true ↔ 2 ^ (W - 1) ≤ value x.v := by
  have hlt := x.bounded
  have hpow := two_pow_width x.pos
  rw [negative, get_bit_eq, Nat.testBit_eq_decide_div_mod_eq, decide_eq_true_eq]
  constructor
  · intro h
    by_contra hcon
    rw [Nat.div_eq_of_lt (by omega)] at h
    cases h
  · intro h
    have : value x.v / 2 ^ (W - 1) = 1 := by
      rw [Nat.div_eq_iff (by omega)]
      omega
    rw [this]

/-- Above the width, the bits of the integer repeat its sign. -/
theorem testBit_toInt (k : Nat) :
    x.toInt.testBit k = if k < W then (value x.v).testBit k else S && x.negative := by
  have hlt := x.bounded
  have hneg := x.negative_iff
  unfold toInt
  split
  · rename_i h
    have hcast : (value x.v : Int) - 2 ^ W = Int.negSucc (2 ^ W - (value x.v + 1)) := by
      rw [Int.negSucc_eq]
      push_cast [succ_le_of_lt hlt]
      ring
    rw [hcast]
    show (!(2 ^ W - (value x.v + 1)).testBit k) = _
    rw [testBit_two_pow_sub_succ hlt, hneg.mpr h.2]
    by_cases hk : k < W <;> simp [hk, h.1]
  · rename_i h
    show (value x.v).testBit k = _
    by_cases hk : k < W
    · rw [if_pos hk]
    rw [if_neg hk, testBit_lt_two_pow (lt_of_lt_of_le hlt
      (Nat.pow_le_pow_right (by decide) (Nat.not_lt.mp hk)))]
    rw [← hneg, ← Bool.and_eq_true, Bool.not_eq_true] at h
    exact h.symm

/-- The pattern is the remainder of the integer. -/
theorem toInt_emod : (x.toInt % 2 ^ W).toNat = value x.v := by
  apply eq_of_testBit_eq
  intro k
  rw [testBit_toNat_emod, testBit_toInt]
  by_cases hk : k < W
  · simp [hk]
  · rw [testBit_lt_two_pow (lt_of_lt_of_le x.bounded
      (Nat.pow_le_pow_right (by decide) (Nat.not_lt.mp hk)))]
    simp [hk]

/-! ## Extension and conversion -/

/-- The limbs in use, copied and extended to `N` limbs. -/
def extend_to (N : Nat) (x : int_base W S) : List UInt64 :=
  let out := (List.range N).map fun li => if li < limb_count W then x.v.getD li 0 else 0
  if S && x.negative then
    let out := if W % 64 ≠ 0 then out.modify (W / 64) (· ||| shl ones (W % 64)) else out
    out.mapIdx fun li limb => if (W + 63) / 64 ≤ li then ones else limb
  else out

@[simp] theorem length_extend_to (N : Nat) (x : int_base W S) : (x.extend_to N).length = N := by
  unfold extend_to
  split
  · split <;> simp
  · simp

/-- No limb beyond those in use has a bit. -/
theorem getD_eq_zero {i : Nat} (hi : limb_count W ≤ i) : x.v.getD i 0 = 0 := by
  rw [← UInt64.toNat_inj]
  apply eq_of_testBit_eq
  intro j
  by_cases hj : j < 64
  · have hbit := testBit_value x.v (64 * i + j)
    rw [show (64 * i + j) / 64 = i by omega, show (64 * i + j) % 64 = j by omega] at hbit
    rw [← hbit, testBit_lt_two_pow (lt_of_lt_of_le x.bounded
      (Nat.pow_le_pow_right (by decide) ?_))]
    · simp
    · have := le_limb_count W
      omega
  · rw [testBit_limb_ge _ (not_lt.mp hj), testBit_limb_ge _ (not_lt.mp hj)]

theorem getD_range_map (N i : Nat) :
    ((List.range N).map fun li => if li < limb_count W then x.v.getD li 0 else 0)[i]? =
      if i < N then some (x.v.getD i 0) else none := by
  rw [getElem?_map]
  by_cases hi : i < N
  · rw [getElem?_range hi, Option.map_some]
    split
    · rfl
    · rw [x.getD_eq_zero (by omega)]
  · rw [getElem?_eq_none (by simpa using hi), if_neg hi]
    rfl

/-- An extension has the bits of the integer. -/
theorem testBit_extend_to (N k : Nat) :
    (value (x.extend_to N)).testBit k = (decide (k < 64 * N) && x.toInt.testBit k) := by
  by_cases hk : k < 64 * N
  · have hi : k / 64 < N := by omega
    have hj : k % 64 < 64 := mod_lt _ (by decide)
    rw [testBit_value, testBit_toInt, decide_eq_true hk, Bool.true_and]
    unfold extend_to
    split
    · rename_i hneg
      rw [hneg, getD_eq_getElem?_getD, getElem?_mapIdx]
      have helem : (if W % 64 ≠ 0 then
          ((List.range N).map fun li => if li < limb_count W then x.v.getD li 0 else 0).modify
            (W / 64) (· ||| shl ones (W % 64))
          else (List.range N).map fun li =>
            if li < limb_count W then x.v.getD li 0 else 0)[k / 64]? =
          some (if W % 64 ≠ 0 ∧ k / 64 = W / 64 then
            x.v.getD (k / 64) 0 ||| shl ones (W % 64) else x.v.getD (k / 64) 0) := by
        by_cases hW : W % 64 ≠ 0
        · rw [if_pos hW, getElem?_modify, getD_range_map, if_pos hi]
          by_cases heq : k / 64 = W / 64
          · simp [hW, heq]
          · simp [heq, Ne.symm heq]
        · rw [if_neg hW, getD_range_map, if_pos hi]
          simp [hW]
      rw [helem, Option.map_some, Option.getD_some]
      by_cases hfull : (W + 63) / 64 ≤ k / 64
      · rw [if_pos hfull, testBit_ones, if_neg (by omega)]
        simp [hj]
      rw [if_neg hfull]
      by_cases htop : W % 64 ≠ 0 ∧ k / 64 = W / 64
      · rw [if_pos htop, UInt64.toNat_or, testBit_or,
          testBit_shl _ (mod_lt _ (by decide)), testBit_ones, ← testBit_value]
        by_cases hkW : k < W
        · rw [if_pos hkW, decide_eq_false (p := W % 64 ≤ k % 64) (by omega)]
          simp
        · rw [if_neg hkW, decide_eq_true (p := W % 64 ≤ k % 64) (by omega),
            decide_eq_true (p := k % 64 - W % 64 < 64) (by omega), decide_eq_true hj]
          simp
      · rw [if_neg htop, ← testBit_value, if_pos (by omega)]
    · rename_i hneg
      rw [getD_eq_getElem?_getD, getD_range_map, if_pos hi, Option.getD_some, ← testBit_value]
      split
      · rfl
      rename_i hkW
      rw [testBit_lt_two_pow (lt_of_lt_of_le x.bounded
        (Nat.pow_le_pow_right (by decide) (Nat.not_lt.mp hkW)))]
      simpa using hneg
  · have hlt := value_lt (x.extend_to N)
    rw [length_extend_to] at hlt
    rw [testBit_lt_two_pow (lt_of_lt_of_le hlt
      (Nat.pow_le_pow_right (by decide) (Nat.not_lt.mp hk)))]
    simp [hk]

theorem value_extend_to (N : Nat) : value (x.extend_to N) = (x.toInt % 2 ^ (64 * N)).toNat := by
  apply eq_of_testBit_eq
  intro k
  rw [testBit_extend_to, testBit_toNat_emod]

end

theorem limb_count_mono (h : W ≤ W2) : limb_count W ≤ limb_count W2 := by
  unfold limb_count
  split <;> split <;> omega

/-- The limbs that a conversion copies. -/
def converted (W : Nat) (x : int_base W2 S2) : List UInt64 :=
  if W2 < W then x.extend_to (limb_count W) else x.v.take (limb_count W)

theorem length_converted (W : Nat) (x : int_base W2 S2) :
    (x.converted W).length = limb_count W := by
  unfold converted
  split
  · exact length_extend_to _ _
  rename_i h
  have h1 := limb_count_mono (not_lt.mp h)
  have h2 := limb_count_le_stored W2
  rw [length_take, x.length]
  omega

/-- Truncating on narrowing, value-preserving on widening. -/
def convert (W : Nat) (S : Bool) (hW : 0 < W) (x : int_base W2 S2) : int_base W S :=
  of_limbs W S hW (x.converted W) (le_of_eq (x.length_converted W).symm)

theorem value_convert (hW : 0 < W) (x : int_base W2 S2) :
    value (x.convert W S hW).v = (x.toInt % 2 ^ W).toNat := by
  apply eq_of_testBit_eq
  intro k
  have hle := le_limb_count W
  rw [convert, value_of_limbs, testBit_mod_two_pow, testBit_toNat_emod]
  by_cases hk : k < W
  · unfold converted
    split
    · rw [testBit_extend_to, decide_eq_true (p := k < 64 * limb_count W) (by omega), Bool.true_and]
    rename_i hW2
    have hlen : limb_count W ≤ x.v.length := by
      have h1 := limb_count_mono (not_lt.mp hW2)
      have h2 := limb_count_le_stored W2
      rw [x.length]
      omega
    rw [value_take _ hlen, testBit_mod_two_pow, testBit_toInt, if_pos (by omega),
      decide_eq_true (p := k < 64 * limb_count W) (by omega), Bool.true_and]
  · simp [hk]

end int_base

/-! ## Ranges -/

/-- The integers that fit into a width. -/
def Fits (W : Nat) (S : Bool) (z : Int) : Prop :=
  if S = true then -2 ^ (W - 1) ≤ z ∧ z < 2 ^ (W - 1) else 0 ≤ z ∧ z < 2 ^ W

namespace int_base

variable {W W2 : Nat} {S S2 : Bool}

theorem cast_two_pow_width (hW : 0 < W) : (2 : Int) ^ W = 2 * 2 ^ (W - 1) := by
  exact_mod_cast two_pow_width hW

theorem toInt_fits (x : int_base W S) : Fits W S x.toInt := by
  have hlt : (value x.v : Int) < 2 ^ W := by exact_mod_cast x.bounded
  have hpow := cast_two_pow_width x.pos
  have hcast : ((2 ^ (W - 1) : Nat) : Int) = 2 ^ (W - 1) := by push_cast; rfl
  unfold Fits toInt
  cases S with
  | false => simpa using hlt
  | true =>
    simp only [true_and, if_true]
    split
    · rename_i h
      omega
    · omega

/-- Of the integers with one remainder, only one fits. -/
theorem fits_unique (hW : 0 < W) {y z : Int} (hy : Fits W S y) (hz : Fits W S z)
    (hmod : y % 2 ^ W = z % 2 ^ W) : y = z := by
  have hpow := cast_two_pow_width hW
  have hdvd : (2 : Int) ^ W ∣ y - z :=
    Int.dvd_of_emod_eq_zero (Int.emod_eq_emod_iff_emod_sub_eq_zero.mp hmod)
  have hzero : y - z = 0 := by
    refine Int.eq_zero_of_abs_lt_dvd hdvd (abs_lt.mpr ?_)
    unfold Fits at hy hz
    split at hz
    · rename_i hS
      rw [if_pos hS] at hy
      omega
    · rename_i hS
      rw [if_neg hS] at hy
      omega
  omega

/-- An integer that fits is the one that its remainder stands for. -/
theorem toInt_eq_of_fits (x : int_base W S) {z : Int} (hz : Fits W S z)
    (hx : value x.v = (z % 2 ^ W).toNat) : x.toInt = z := by
  refine fits_unique x.pos x.toInt_fits hz ?_
  have h1 := x.toInt_emod
  omega

end int_base

end Tapa.Base
