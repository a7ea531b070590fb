-- Signals packed into one word and cut out of it again. The packing puts each
-- signal right above the one before it, at the size it has; the cuts are made at
-- the widths the other side expects.
import Mathlib

namespace Tapa.Bundle

open Nat

/-- A signal with its size, its value and the width of the cut for it. -/
structure Lane where
  size : Nat
  value : Nat
  width : Nat

/-- The lanes in one word, the first lane lowest. -/
def pack : List Lane → Nat
  | [] => 0
  | lane :: lanes => lane.value + 2 ^ lane.size * pack lanes

/-- The bits that all cuts take together. -/
def span (lanes : List Lane) : Nat := (lanes.map Lane.width).sum

/-- Every cut of a word, made one above the other, has the value of its lane. -/
def Delivers : List Lane → Nat → Prop
  | [], _ => True
  | lane :: lanes, word =>
    word % 2 ^ lane.width = lane.value ∧ Delivers lanes (word / 2 ^ lane.width)

/-- Every signal fits its cut, and one that is not zero stands where its cut is made. -/
def Placed : Nat → Nat → List Lane → Prop
  | _, _, [] => True
  | packed, cut, lane :: lanes => (lane.value ≠ 0 → packed = cut) ∧ lane.value < 2 ^ lane.width ∧
    Placed (packed + lane.size) (cut + lane.width) lanes

variable {lanes : List Lane}

/-- Only the bits of the cuts matter. -/
theorem delivers_mod {word width : Nat} (hwidth : span lanes ≤ width) :
    Delivers lanes (word % 2 ^ width) ↔ Delivers lanes word := by
  induction lanes generalizing word width with
  | nil => exact Iff.rfl
  | cons lane lanes ih =>
    have hspan : span (lane :: lanes) = lane.width + span lanes := by simp [span]
    obtain ⟨rest, rfl⟩ : ∃ rest, width = lane.width + rest := ⟨width - lane.width, by omega⟩
    have hlow : word % 2 ^ (lane.width + rest) % 2 ^ lane.width = word % 2 ^ lane.width :=
      mod_mod_of_dvd _ (pow_dvd_pow 2 (le_add_right _ _))
    have hhigh : word % 2 ^ (lane.width + rest) / 2 ^ lane.width =
        word / 2 ^ lane.width % 2 ^ rest := by
      rw [pow_add, mod_mul_right_div_self]
    rw [Delivers, Delivers, hlow, hhigh, ih (by omega)]

/-- The lowest bit of a word is in one place. -/
theorem exponent_le_of_odd {i j m n : Nat} (hm : Odd m) (h : 2 ^ i * m = 2 ^ j * n) : j ≤ i := by
  by_contra hlt
  obtain ⟨k, rfl⟩ : ∃ k, j = i + (k + 1) := ⟨j - i - 1, by omega⟩
  have heq : m = 2 * (2 ^ k * n) := by
    apply Nat.eq_of_mul_eq_mul_left (show 0 < 2 ^ i by positivity)
    rw [h, pow_add, pow_succ]
    ring
  rw [heq] at hm
  exact (Nat.not_odd_iff_even.mpr (even_two_mul _)) hm

/-- A value that is below the bits above it and is seen at two places has these at one. -/
theorem place_eq {packed cut size width value above above' : Nat} (hzero : value ≠ 0)
    (hsize : value < 2 ^ size) (hwidth : value < 2 ^ width)
    (h : 2 ^ packed * (value + 2 ^ size * above) = 2 ^ cut * (value + 2 ^ width * above')) :
    packed = cut := by
  obtain ⟨low, odd, hodd, rfl⟩ := Nat.exists_eq_two_pow_mul_odd hzero
  have hpos : 0 < odd := hodd.pos
  -- The lowest bit of the value is below all that is above it.
  have hbit : ∀ {n}, 2 ^ low * odd < 2 ^ n → ∀ x, ∃ m, Odd m ∧
      2 ^ low * odd + 2 ^ n * x = 2 ^ low * m := by
    intro n hn x
    have hlt : low < n := by
      rw [← Nat.pow_lt_pow_iff_right (a := 2) (by decide)]
      exact lt_of_le_of_lt (Nat.le_mul_of_pos_right _ hpos) hn
    obtain ⟨k, rfl⟩ : ∃ k, n = low + (k + 1) := ⟨n - low - 1, by omega⟩
    refine ⟨odd + 2 * (2 ^ k * x), hodd.add_even (even_two_mul _), ?_⟩
    rw [pow_add, pow_succ]
    ring
  obtain ⟨m, hm, hleft⟩ := hbit hsize above
  obtain ⟨n, hn, hright⟩ := hbit hwidth above'
  rw [hleft, hright, ← mul_assoc, ← mul_assoc, ← pow_add, ← pow_add] at h
  have h1 := exponent_le_of_odd hm h
  have h2 := exponent_le_of_odd hn h.symm
  omega

/-- Lanes that stand at one place and are cut at another arrive just if they are placed. -/
theorem delivers_at_iff (hsize : ∀ lane ∈ lanes, lane.value < 2 ^ lane.size) (packed cut : Nat) :
    (∃ word, 2 ^ packed * pack lanes = 2 ^ cut * word ∧ Delivers lanes word) ↔
      Placed packed cut lanes := by
  induction lanes generalizing packed cut with
  | nil => exact ⟨fun _ => trivial, fun _ => ⟨0, by simp [pack], trivial⟩⟩
  | cons lane lanes ih =>
    rw [List.forall_mem_cons] at hsize
    have hmove : ∀ rest, 2 ^ (packed + lane.size) * pack lanes = 2 ^ (cut + lane.width) * rest ↔
        2 ^ packed * (2 ^ lane.size * pack lanes) = 2 ^ cut * (2 ^ lane.width * rest) := by
      intro rest
      rw [pow_add, pow_add, mul_assoc, mul_assoc]
    rw [Placed, ← ih hsize.2]
    simp only [hmove]
    constructor
    · rintro ⟨word, hword, hcut, hrest⟩
      have hlt : lane.value < 2 ^ lane.width := hcut ▸ Nat.mod_lt _ (by positivity)
      have hsplit : word = lane.value + 2 ^ lane.width * (word / 2 ^ lane.width) := by
        rw [← hcut, Nat.mod_add_div]
      rw [hsplit, pack] at hword
      have hplace : lane.value ≠ 0 → packed = cut :=
        fun hzero => place_eq hzero hsize.1 hlt hword
      refine ⟨hplace, hlt, _, ?_, hrest⟩
      by_cases hzero : lane.value = 0
      · simpa [hzero] using hword
      · rw [hplace hzero] at hword ⊢
        have := Nat.eq_of_mul_eq_mul_left (by positivity) hword
        rw [Nat.add_left_cancel this]
    · rintro ⟨hplace, hlt, rest, hrest, hdelivers⟩
      refine ⟨lane.value + 2 ^ lane.width * rest, ?_, ?_, ?_⟩
      · rw [pack, mul_add, mul_add, hrest]
        by_cases hzero : lane.value = 0
        · rw [hzero, mul_zero, mul_zero]
        · rw [hplace hzero]
      · rw [add_mul_mod_self_left, mod_eq_of_lt hlt]
      · rwa [add_mul_div_left _ _ (by positivity), div_eq_of_lt hlt, zero_add]

/-- What is packed arrives exactly where it is placed. -/
theorem delivers_iff_placed (hsize : ∀ lane ∈ lanes, lane.value < 2 ^ lane.size) :
    Delivers lanes (pack lanes) ↔ Placed 0 0 lanes := by
  rw [← delivers_at_iff hsize]
  constructor
  · exact fun h => ⟨_, rfl, h⟩
  · rintro ⟨word, hword, h⟩
    rw [Nat.eq_of_mul_eq_mul_left (by positivity) hword]
    exact h

end Tapa.Bundle
