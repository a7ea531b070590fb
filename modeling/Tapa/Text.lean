-- Strings as lists of characters: cutting at the first occurrence of a
-- character, numbers in decimal, and the array names `base[index]suffix`.
import Mathlib

namespace Tapa.Text

/-- A string, as the list of its characters. -/
abbrev Str := List Char

instance lawfulBEqStr : LawfulBEq Str := inferInstance

/-! ## Cutting -/

/-- The text before the first `c` and the text after it. -/
def split_once (c : Char) : Str → Option (Str × Str)
  | [] => none
  | x :: xs => if x = c then some ([], xs) else (split_once c xs).map fun p => (x :: p.1, p.2)

theorem split_once_eq_some {c : Char} {s a b : Str} (h : split_once c s = some (a, b)) :
    s = a ++ c :: b ∧ c ∉ a := by
  induction s generalizing a with
  | nil => simp [split_once] at h
  | cons x xs ih =>
    unfold split_once at h
    by_cases hx : x = c
    · simp only [hx, if_true, Option.some.injEq, Prod.mk.injEq] at h
      obtain ⟨rfl, rfl⟩ := h
      simp [hx]
    · rw [if_neg hx, Option.map_eq_some_iff] at h
      obtain ⟨⟨a', b'⟩, h', heq⟩ := h
      obtain ⟨rfl, rfl⟩ := heq
      obtain ⟨h1, h2⟩ := ih h'
      refine ⟨by rw [h1]; rfl, ?_⟩
      simp only [List.mem_cons, not_or]
      exact ⟨fun hc => hx hc.symm, h2⟩

theorem split_once_append_cons {c : Char} {a : Str} (h : c ∉ a) (b : Str) :
    split_once c (a ++ c :: b) = some (a, b) := by
  induction a with
  | nil => simp [split_once]
  | cons x xs ih =>
    simp only [List.mem_cons, not_or] at h
    rw [List.cons_append, split_once, if_neg (fun hx => h.1 hx.symm), ih h.2]
    rfl

/-- What stands behind the cut does not move it. -/
theorem split_once_append {c : Char} {s a b : Str} (h : split_once c s = some (a, b)) (r : Str) :
    split_once c (s ++ r) = some (a, b ++ r) := by
  obtain ⟨hs, ha⟩ := split_once_eq_some h
  rw [hs, List.append_assoc]
  exact split_once_append_cons ha (b ++ r)

/-! ## Numbers -/

def decimal (n : Nat) : Str := Nat.toDigits 10 n

/-- The number that a list of digits stands for, most significant first. -/
def digits : Nat → Str → Option Nat
  | acc, [] => some acc
  | acc, x :: xs => if x.isDigit then digits (acc * 10 + (x.toNat - '0'.toNat)) xs else none

/-- A number of 32 bits, with an optional plus sign. -/
def parse_u32 (s : Str) : Option Nat :=
  let unsigned := match s with
    | '+' :: rest => rest
    | s => s
  if unsigned = [] then none else (digits 0 unsigned).filter fun n => n < 2 ^ 32

theorem isDigit_of_mem_decimal {c : Char} {n : Nat} (h : c ∈ decimal n) : c.isDigit = true := by
  exact Nat.isDigit_of_mem_toDigits (by decide) (by decide) h

theorem decimal_inj {m n : Nat} (h : decimal m = decimal n) : m = n := by
  have hm := Nat.ofDigitChars_ten_toDigits (n := m)
  rw [show Nat.toDigits 10 m = Nat.toDigits 10 n from h, Nat.ofDigitChars_ten_toDigits] at hm
  exact hm.symm

/-! ## Array names -/

/-- The base, the index and the suffix of a name `base[index]suffix`. -/
def split_array_index (name : Str) : Option (Str × Nat × Str) := do
  let (base, rest) ← split_once '[' name
  let (index, suffix) ← split_once ']' rest
  let idx ← parse_u32 index
  pure (base, idx, suffix)

def array_name (base : Str) (index : Nat) (suffix : Str) : Str :=
  base ++ '[' :: decimal index ++ ']' :: suffix

/-- A name in the text of an error. -/
def quoted (name : Str) : Str := '`' :: name ++ ['`']

/-- The element `offset` places after the one that `bound` names. -/
def offset_array_binding (bound : Str) (offset : Nat) : Str :=
  match split_array_index bound with
  | some (base, base_idx, suffix) => array_name base ((base_idx + offset) % 2 ^ 32) suffix
  | none => array_name bound offset []

/-- A name behind the brackets becomes part of the suffix. -/
theorem split_array_index_append {name base suffix : Str} {idx : Nat}
    (h : split_array_index name = some (base, idx, suffix)) (r : Str) :
    split_array_index (name ++ r) = some (base, idx, suffix ++ r) := by
  simp only [split_array_index, Option.bind_eq_bind, Option.bind_eq_some_iff, Prod.exists,
    Option.pure_def, Option.some.injEq, Prod.mk.injEq] at h
  obtain ⟨a, b, hopen, c, d, hclose, i, hidx, rfl, rfl, rfl⟩ := h
  simp [split_array_index, split_once_append hopen r, split_once_append hclose r, hidx]

/-- An indexed name can be offset before or after a name is put behind it. -/
theorem offset_array_binding_append {name : Str} (h : (split_array_index name).isSome)
    (offset : Nat) (r : Str) :
    offset_array_binding (name ++ r) offset = offset_array_binding name offset ++ r := by
  obtain ⟨⟨base, idx, suffix⟩, hs⟩ := Option.isSome_iff_exists.mp h
  unfold offset_array_binding
  rw [split_array_index_append hs r, hs]
  simp [array_name]

end Tapa.Text
