-- The integer constants of an invocation (`invoke_parser.cpp`). A constant that fits in 64
-- bits is resized to the type of its port, and is recorded as raw bits with the width of
-- the port.
import Mathlib

namespace Tapa.Frontend.Constant

/-- An integer with its width and its signedness. -/
structure APSInt where
  width : Nat
  bits : BitVec width
  isUnsigned : Bool

namespace APSInt

variable (value : APSInt)

def isNegative : Bool := !value.isUnsigned && value.bits.msb

def isZero : Bool := value.bits == 0

def getActiveBits : Nat := value.bits.toNat.size

/-- The leading bits that are copies of the sign bit. -/
def getNumSignBits : Nat :=
  value.width - (if value.bits.msb then ~~~value.bits else value.bits).toNat.size

def getSignificantBits : Nat := value.width - value.getNumSignBits + 1

def extOrTrunc (width : Nat) : APSInt where
  width := width
  bits := if value.isUnsigned then value.bits.setWidth width else value.bits.signExtend width
  isUnsigned := value.isUnsigned

def getZExtValue : BitVec 64 := value.bits.setWidth 64

/-- The number that the bits stand for. -/
def toInt : Int := if value.isUnsigned then value.bits.toNat else value.bits.toInt

end APSInt

def FitsIn64Bits (value : APSInt) : Bool :=
  if value.isNegative then value.getSignificantBits ≤ 64 else value.getActiveBits ≤ 64

/-- An integral type. An integer of `getIntWidth` bits is stored in `getTypeSize` bits. -/
inductive PortType where
  | bool
  | int (getIntWidth getTypeSize : Nat) (isSigned : Bool) (fits : getIntWidth ≤ getTypeSize)

def BitWidth : PortType → Nat
  | .bool => 8
  | .int _ getTypeSize _ _ => getTypeSize

def ConvertToPortType (value : APSInt) : PortType → BitVec 64
  | .bool => if !value.isZero then 1 else 0
  | .int getIntWidth _ isSigned _ =>
    let bits := (value.extOrTrunc 64).getZExtValue
    let converted : APSInt := ⟨64, bits, true⟩
    let converted := converted.extOrTrunc getIntWidth
    APSInt.getZExtValue { converted with isUnsigned := !isSigned }

structure Arg where
  value : BitVec 64
  width : Nat

def set_const (v : APSInt) (type : PortType) : Arg where
  value := ConvertToPortType v type
  width := BitWidth type

/-- The conversion of the language: to the value of the type that is congruent. -/
def PortType.convert : PortType → Int → Int
  | .bool, v => if v = 0 then 0 else 1
  | .int w _ isSigned _, v => if isSigned then v.bmod (2 ^ w) else v % 2 ^ w

/-- The number is the same with the bits that a wide port has above the 64 of the constant,
and with those that its type leaves unused. -/
def PortType.Extends : PortType → Int → Prop
  | .bool, _ => True
  | .int w size isSigned fits, v =>
    (v < 0 → w ≤ 64) ∧ (convert (.int w size isSigned fits) v < 0 → w = size)

variable {value : APSInt}

theorem bounds_of_fits (h : FitsIn64Bits value = true) :
    -2 ^ 63 ≤ value.toInt ∧ value.toInt < 2 ^ 64 := by
  obtain ⟨width, bits, isUnsigned⟩ := value
  have hlt := bits.isLt
  have hactive : APSInt.getActiveBits ⟨width, bits, isUnsigned⟩ ≤ 64 → bits.toNat < 2 ^ 64 :=
    Nat.size_le.mp
  cases isUnsigned with
  | true =>
    have hsmall := hactive (by simpa [FitsIn64Bits, APSInt.isNegative] using h)
    simp only [APSInt.toInt, if_true]
    omega
  | false =>
    simp only [APSInt.toInt, Bool.false_eq_true, if_false, BitVec.toInt_eq_msb_cond]
    cases hmsb : bits.msb with
    | false =>
      have hsmall := hactive (by simpa [FitsIn64Bits, APSInt.isNegative, hmsb] using h)
      simp only [Bool.false_eq_true, if_false]
      omega
    | true =>
      have hnot : (~~~bits).toNat.size ≤ width := Nat.size_le.mpr (~~~bits).isLt
      have hsign : (~~~bits).toNat.size ≤ 63 := by
        simp only [FitsIn64Bits, APSInt.isNegative, APSInt.getSignificantBits,
          APSInt.getNumSignBits, hmsb, Bool.not_false, Bool.and_self, if_true,
          decide_eq_true_eq] at h
        omega
      have hsmall := Nat.size_le.mp hsign
      rw [BitVec.toNat_not] at hsmall
      simp only [if_true]
      omega

theorem toNat_extOrTrunc : ((value.extOrTrunc 64).getZExtValue.toNat : Int) =
    value.toInt % 2 ^ 64 := by
  obtain ⟨width, bits, isUnsigned⟩ := value
  cases isUnsigned with
  | true => simp [APSInt.extOrTrunc, APSInt.getZExtValue, APSInt.toInt]
  | false =>
    have hmod := Int.emod_nonneg bits.toInt (by decide : (2 : Int) ^ 64 ≠ 0)
    simpa [APSInt.extOrTrunc, APSInt.getZExtValue, APSInt.toInt, BitVec.signExtend] using hmod

/-- What is recorded for a port of an integer, as a number. -/
theorem toNat_convertToPortType {w size : Nat} {isSigned : Bool} {fits : w ≤ size} :
    ((ConvertToPortType value (.int w size isSigned fits)).toNat : Int) =
      value.toInt % 2 ^ 64 % 2 ^ w := by
  have hmod : ∀ n : Nat, n < 2 ^ 64 → n % 2 ^ w % 2 ^ 64 = n % 2 ^ w :=
    fun n hn => Nat.mod_eq_of_lt ((Nat.mod_le n _).trans_lt hn)
  rw [← toNat_extOrTrunc]
  simp only [ConvertToPortType, APSInt.extOrTrunc, if_true]
  rw [APSInt.getZExtValue, BitVec.toNat_setWidth, BitVec.toNat_setWidth, hmod _ (BitVec.isLt _)]
  push_cast
  rfl

/-- The remainder of a small number. -/
theorem emod_of_small {v m : Int} (hlow : -m ≤ v) (hhigh : v < m) :
    v % m = if v < 0 then v + m else v := by
  split
  · rw [← Int.add_emod_right, Int.emod_eq_of_lt (by omega) (by omega)]
  · exact Int.emod_eq_of_lt (by omega) hhigh

theorem not_modEq_of_lt {a b m : Int} (hlt : a < b) (hnear : b - a < m) : ¬a ≡ b [ZMOD m] := by
  intro h
  have hzero := Int.eq_zero_of_abs_lt_dvd h.dvd (abs_lt.mpr ⟨by omega, hnear⟩)
  omega

/-- The resizing of a number to `w` bits by way of 64. -/
theorem resize_iff {w size : Nat} (fits : w ≤ size) {v : Int} (hlow : -2 ^ 63 ≤ v)
    (hhigh : v < 2 ^ 64) (isSigned : Bool) :
    v % 2 ^ 64 % 2 ^ w ≡ PortType.convert (.int w size isSigned fits) v [ZMOD 2 ^ size] ↔
      PortType.Extends (.int w size isSigned fits) v := by
  have hle : (2 : Int) ^ w ≤ 2 ^ size := pow_le_pow_right₀ (by decide) fits
  have hconvert : ∀ r, r = v % 2 ^ w → PortType.convert (.int w size isSigned fits) v =
      if isSigned ∧ ((2 : Int) ^ w + 1) / 2 ≤ r then r - 2 ^ w else r := by
    rintro r rfl
    cases isSigned with
    | false => simp [PortType.convert]
    | true =>
      simp only [PortType.convert, Int.bmod_def, if_true, true_and, ← not_lt, ite_not]
      push_cast
      rfl
  simp only [PortType.Extends]
  by_cases hw : w ≤ 64
  · have hr := Int.emod_emod_of_dvd v (pow_dvd_pow 2 hw)
    rw [hr, hconvert _ rfl]
    have hnonneg := Int.emod_nonneg v (show (2 : Int) ^ w ≠ 0 by positivity)
    have hlt := Int.emod_lt_of_pos v (show (0 : Int) < 2 ^ w by positivity)
    split
    · rcases fits.eq_or_lt with rfl | hpad
      · simp [hw, Int.ModEq]
      · have hdouble : (2 : Int) ^ (w + 1) ≤ 2 ^ size := pow_le_pow_right₀ (by decide) hpad
        rw [pow_succ] at hdouble
        have hno := not_modEq_of_lt (show v % 2 ^ w - 2 ^ w < v % 2 ^ w by omega)
          (show _ < (2 : Int) ^ size by omega)
        exact ⟨fun h => absurd h.symm hno, fun h => absurd (h.2 (by omega)) hpad.ne⟩
    · exact ⟨fun _ => ⟨fun _ => hw, fun h => absurd h (by omega)⟩, fun _ => rfl⟩
  · have hwide : (2 : Int) ^ 65 ≤ 2 ^ w := pow_le_pow_right₀ (by decide) (by omega)
    have hr : v % 2 ^ 64 % 2 ^ w = if v < 0 then v + 2 ^ 64 else v := by
      rw [emod_of_small (by omega) hhigh]
      exact Int.emod_eq_of_lt (by split <;> omega) (by split <;> omega)
    rw [hr, hconvert _ (emod_of_small (by omega) (by omega)).symm]
    by_cases hneg : v < 0
    · simp only [hneg, if_true, true_implies, hw, false_and, iff_false]
      split
      · exact fun h => not_modEq_of_lt (by omega) (by omega) h.symm
      · exact not_modEq_of_lt (by omega) (by omega)
    · have hsmall : ¬(isSigned ∧ ((2 : Int) ^ w + 1) / 2 ≤ v) := fun h => by omega
      simp [hneg, hsmall, Int.ModEq]

/-- A constant that fits is recorded for an integral port as the number that the language
converts it to, just where the bits above it are right. -/
theorem port_constants_keep_their_value_iff (value : APSInt) (type : PortType)
    (h : FitsIn64Bits value = true) :
    ((set_const value type).value.toNat : Int) ≡ type.convert value.toInt
      [ZMOD 2 ^ (set_const value type).width] ↔ type.Extends value.toInt := by
  cases type with
  | bool =>
    have hzero : value.isZero = decide (value.toInt = 0) := by
      unfold APSInt.isZero APSInt.toInt
      split
      · simp [← BitVec.toNat_inj, beq_eq_decide]
      · simp [← BitVec.toInt_inj, beq_eq_decide]
    refine ⟨fun _ => trivial, fun _ => ?_⟩
    by_cases hv : value.toInt = 0 <;>
      simp [set_const, ConvertToPortType, PortType.convert, hzero, hv]
  | int w size isSigned fits =>
    obtain ⟨hlow, hhigh⟩ := bounds_of_fits h
    simp only [set_const, toNat_convertToPortType, BitWidth]
    exact resize_iff fits hlow hhigh isSigned

/-- The constant `-1` fits, and a port of 128 bits gets `2 ^ 64 - 1` in its place. -/
theorem a_negative_constant_for_a_wide_port_is_wrong :
    let value : APSInt := ⟨32, -1, false⟩
    let type : PortType := .int 128 128 true le_rfl
    FitsIn64Bits value = true ∧ (set_const value type).value.toNat = 2 ^ 64 - 1 ∧
      type.convert value.toInt = -1 ∧
      ¬((set_const value type).value.toNat : Int) ≡ type.convert value.toInt
        [ZMOD 2 ^ (set_const value type).width] := by
  decide +kernel

theorem a_negative_constant_for_a_narrow_port :
    FitsIn64Bits ⟨32, -1, false⟩ = true ∧
      ((set_const ⟨32, -1, false⟩ (.int 16 16 false le_rfl)).value.toNat : Int) ≡ 65535
        [ZMOD 2 ^ 16] :=
  ⟨by decide +kernel, (port_constants_keep_their_value_iff ⟨32, -1, false⟩
    (.int 16 16 false le_rfl) (by decide +kernel)).mpr ⟨fun _ => by decide, fun _ => rfl⟩⟩

end Tapa.Frontend.Constant
