-- Slices and concatenations as targets of an assignment (`range_ref` and `concat_ref`
-- of `base/int.h`): loops that write one bit after the other through a reference, while
-- the source may be the integer that is written.
import Tapa.IntCompare

namespace Tapa.Base

open Limbs

namespace int_base

variable {W W1 W2 W3 : Nat} {S S1 S2 S3 : Bool}

/-! ## Reading -/

/-- The loop of every write: bit `off` of the source into bit `lo + off`. The source is
read when its bit is written. -/
def writes (lo n : Nat) (bit : int_base W S → Nat → Bool) (dst : int_base W S) : int_base W S :=
  (List.range n).foldl (fun dst off => dst.set_bit (lo + off) (bit dst off)) dst

/-- Beyond the source width: zero-extend unsigned, sign-extend signed. -/
def source_bit (x : int_base W S) (off : Nat) : Bool :=
  if W ≤ off then S && x.negative else x.get_bit off

def native_bit (bits : UInt64) (off : Nat) : Bool :=
  if off < 64 then shr bits off &&& 1 ≠ 0 else false

/-- `range_ref::value`: the selected bits, right-aligned in the parent width. -/
def range_value (x : int_base W S) (hi lo : Nat) : int_base W false :=
  writes 0 (hi + 1 - lo) (fun _ off => x.get_bit (lo + off)) (of_native W false x.pos 0)

section

variable (hi : int_base W1 S1) (lo : int_base W2 S2)

def concat_value : int_base (W1 + W2) false :=
  writes W2 W1 (fun _ b => hi.get_bit b) (writes 0 W2 (fun _ b => lo.get_bit b)
    (of_native (W1 + W2) false (hi.pos_add W2) 0))

/-- What an assignment reads: an integer other than the target, a native integer, a slice
or a concatenation. The latter two are evaluated before the first write, so they may be
parts of the target. -/
inductive Source where
  | integer {W : Nat} {S : Bool} (x : int_base W S)
  | native (bits : UInt64)
  | slice {W : Nat} {S : Bool} (x : int_base W S) (hi lo : Nat) (h : lo ≤ hi ∧ hi < W)
  | concat {W1 W2 : Nat} {S1 S2 : Bool} (hi : int_base W1 S1) (lo : int_base W2 S2)

/-- A bit of a source, extended by zero or by the sign. -/
def Source.bit : Source → Nat → Bool
  | integer x, off => x.toInt.testBit off
  | native bits, off => bits.toNat.testBit off
  | slice x hi lo _, off => decide (lo + off ≤ hi) && x.get_bit (lo + off)
  | @concat _ W2 _ _ hi lo, off => if off < W2 then lo.get_bit off else hi.get_bit (off - W2)

/-! ## Writing -/

/-- The bits that `range_ref::operator=` reads. -/
def Source.read : Source → Nat → Bool
  | integer x => x.source_bit
  | native bits => native_bit bits
  | slice x hi lo _ => (x.range_value hi lo).source_bit
  | concat hi lo => (concat_value hi lo).source_bit

def range_assign (dst : int_base W S) (hi lo : Nat) (src : Source) : int_base W S :=
  writes lo (hi + 1 - lo) (fun _ => src.read) dst

/-- `range_ref::operator=` with a reference to the integer that the slice is of. -/
def range_assign_self (dst : int_base W S) (hi lo : Nat) : int_base W S :=
  writes lo (hi + 1 - lo) source_bit dst

/-- The loop over both halves. -/
def concat_writes (bit : Nat → Bool) : int_base W1 S1 × int_base W2 S2 :=
  (List.range (W1 + W2)).foldl (fun r d =>
    if d < W2 then (r.1, r.2.set_bit d (bit d)) else (r.1.set_bit (d - W2) (bit d), r.2)) (hi, lo)

/-- The bits that `concat_ref::operator=` reads: an integer and a concatenation go through
a temporary of the full width. A slice has no overload and converts to a native integer. -/
def Source.readWide (W : Nat) (hW : 0 < W) : Source → Nat → Bool
  | integer x => (x.convert W false hW).get_bit
  | native bits => native_bit bits
  | slice x hi lo _ => native_bit ((x.range_value hi lo).v.getD 0 0)
  | concat hi lo => ((concat_value hi lo).convert W false hW).get_bit

def concat_assign (src : Source) : int_base W1 S1 × int_base W2 S2 :=
  concat_writes hi lo (src.readWide (W1 + W2) (hi.pos_add W2))

/-- The bits of a slice are the source's and every other bit stays. -/
def Sliced (dst : int_base W S) (hi lo : Nat) (bit : Nat → Bool) (result : int_base W S) : Prop :=
  ∀ k, result.get_bit k = if lo ≤ k ∧ k ≤ hi then bit (k - lo) else dst.get_bit k

/-- The low half has the low bits of the source and the high half those above. -/
def Concatenated (bit : Nat → Bool) (result : int_base W1 S1 × int_base W2 S2) : Prop :=
  ∀ k < W1 + W2, (if k < W2 then result.2.get_bit k else result.1.get_bit (k - W2)) = bit k

/-! ## The loops -/

theorem writes_succ (lo n : Nat) (bit : int_base W S → Nat → Bool) (dst : int_base W S) :
    writes lo (n + 1) bit dst =
      (writes lo n bit dst).set_bit (lo + n) (bit (writes lo n bit dst) n) := by
  simp [writes, List.range_succ]

/-- What a loop writes, if the bits it reads are those of `bit` all along. -/
theorem get_bit_writes (bit : Nat → Bool) {lo n : Nat} (hn : lo + n ≤ W)
    {read : int_base W S → Nat → Bool} {dst : int_base W S} (hread : ∀ m < n, ∀ d : int_base W S,
      (∀ k, d.get_bit k = if lo ≤ k ∧ k < lo + m then bit (k - lo) else dst.get_bit k) →
        read d m = bit m) (k : Nat) :
    (writes lo n read dst).get_bit k =
      if lo ≤ k ∧ k < lo + n then bit (k - lo) else dst.get_bit k := by
  induction n generalizing k with
  | zero => rw [if_neg (by omega), writes, List.range_zero, List.foldl_nil]
  | succ n ih =>
    have hprev := ih (by omega) fun m hm => hread m (by omega)
    rw [writes_succ, get_bit_set_bit _ (by omega), hread n (by omega) _ hprev, hprev]
    by_cases hk : k = lo + n
    · rw [if_pos hk, if_pos (by omega), hk, Nat.add_sub_cancel_left]
    · rw [if_neg hk]
      exact if_congr (by omega) rfl rfl

theorem get_bit_of_ge (x : int_base W S) {k : Nat} (hk : W ≤ k) : x.get_bit k = false := by
  rw [get_bit_eq, Nat.testBit_lt_two_pow (Nat.lt_of_lt_of_le x.bounded
    (Nat.pow_le_pow_right (by decide) hk))]

theorem source_bit_eq (x : int_base W S) (off : Nat) : x.source_bit off = x.toInt.testBit off := by
  rw [source_bit, testBit_toInt, get_bit_eq]
  split
  · rw [if_neg (by omega)]
  · rw [if_pos (by omega)]

/-- Unsigned integers are extended by zero. -/
theorem source_bit_unsigned (x : int_base W false) : x.source_bit = x.get_bit := by
  funext off
  unfold source_bit
  split
  · rw [x.get_bit_of_ge (by omega), Bool.false_and]
  · rfl

theorem native_bit_eq (bits : UInt64) (off : Nat) :
    native_bit bits off = bits.toNat.testBit off := by
  unfold native_bit
  split
  · rename_i hoff
    have hget := get_bit_eq (W := 64) (S := false) ⟨[bits], by decide, rfl, by
      simpa [value] using bits.toNat_lt⟩ off
    rw [get_bit, Nat.div_eq_of_lt hoff, Nat.mod_eq_of_lt hoff] at hget
    simpa [value] using hget
  · rw [testBit_limb_ge _ (by omega)]

theorem get_bit_zero {hW : 0 < W} (k : Nat) : (of_native W false hW 0).get_bit k = false := by
  rw [get_bit_eq, value_of_native hW (by decide)]
  simp

theorem get_bit_range_value (x : int_base W S) {hi lo : Nat} (h : lo ≤ hi ∧ hi < W) (off : Nat) :
    (x.range_value hi lo).get_bit off = (decide (lo + off ≤ hi) && x.get_bit (lo + off)) := by
  rw [range_value, get_bit_writes (fun off => x.get_bit (lo + off)) (by omega)
    (fun _ _ _ _ => rfl), get_bit_zero]
  by_cases hoff : lo + off ≤ hi
  · rw [if_pos (by omega), decide_eq_true hoff, Bool.true_and, Nat.sub_zero]
  · rw [if_neg (by omega), decide_eq_false hoff, Bool.false_and]

theorem get_bit_concat_value (k : Nat) :
    (concat_value hi lo).get_bit k = if k < W2 then lo.get_bit k else hi.get_bit (k - W2) := by
  rw [concat_value, get_bit_writes hi.get_bit (by omega) (fun _ _ _ _ => rfl),
    get_bit_writes lo.get_bit (by omega) (fun _ _ _ _ => rfl), get_bit_zero]
  by_cases hk : k < W2
  · rw [if_neg (by omega), if_pos (by omega), if_pos hk, Nat.sub_zero]
  · split
    · rfl
    · rw [if_neg (by omega), hi.get_bit_of_ge (by omega)]

theorem Source.read_eq (src : Source) (off : Nat) : src.read off = src.bit off := by
  cases src with
  | integer x => exact x.source_bit_eq off
  | native bits => exact native_bit_eq bits off
  | slice x hi lo h => rw [read, source_bit_unsigned, get_bit_range_value _ h, bit]
  | concat hi lo => rw [read, source_bit_unsigned, get_bit_concat_value, bit]

theorem get_bit_convert (x : int_base W2 S2) {hW : 0 < W} {k : Nat} (hk : k < W) :
    (x.convert W S hW).get_bit k = x.source_bit k := by
  rw [get_bit_eq, value_convert, testBit_toNat_emod, decide_eq_true hk, Bool.true_and,
    source_bit_eq]

/-- All bits of a source within 64 reach the halves of a concatenation. -/
theorem Source.readWide_eq {hW : 0 < W} (src : Source) {off : Nat} (hoff : off < W) :
    src.readWide W hW off = match src with
      | .slice .. => decide (off < 64) && src.bit off
      | _ => src.bit off := by
  cases src with
  | integer x =>
    rw [readWide, get_bit_convert x hoff]
    exact x.source_bit_eq off
  | native bits => exact native_bit_eq bits off
  | slice x hi lo h =>
    have hbit := get_bit_range_value x h off
    rw [get_bit_eq] at hbit
    rw [readWide, native_bit_eq, getD_zero_eq, Nat.testBit_mod_two_pow, hbit]
    rfl
  | concat hi lo =>
    rw [readWide, get_bit_convert _ hoff]
    exact (concat hi lo).read_eq off

/-- A slice that is assigned its own integer repeats the bits below it. -/
theorem get_bit_range_assign_self (dst : int_base W S) {hi lo : Nat} (h : lo ≤ hi ∧ hi < W)
    (k : Nat) : (range_assign_self dst hi lo).get_bit k =
      if lo ≤ k ∧ k < lo + (hi + 1 - lo) then dst.get_bit ((k - lo) % lo) else dst.get_bit k := by
  refine get_bit_writes (fun off => dst.get_bit (off % lo)) (by omega) ?_ k
  intro m hm d hd
  rw [source_bit, if_neg (by omega), hd]
  by_cases hlo : lo ≤ m
  · -- The bit was written before, from the one a period below.
    by_cases hzero : lo = 0
    · subst hzero
      rw [if_neg (by omega), Nat.mod_zero]
    · rw [if_pos (by omega), ← Nat.mod_eq_sub_mod hlo]
  · rw [if_neg (by omega), Nat.mod_eq_of_lt (by omega)]

theorem concatenated_writes (bit : Nat → Bool) : Concatenated bit (concat_writes hi lo bit) := by
  suffices h : ∀ n ≤ W1 + W2, ∀ k < n, let r := (List.range n).foldl (fun r d =>
      if d < W2 then (r.1, r.2.set_bit d (bit d)) else (r.1.set_bit (d - W2) (bit d), r.2)) (hi, lo)
      (if k < W2 then r.2.get_bit k else r.1.get_bit (k - W2)) = bit k from
    fun k hk => h _ (Nat.le_refl _) k hk
  intro n hn
  induction n with
  | zero => exact fun k hk => absurd hk (Nat.not_lt_zero k)
  | succ n ih =>
    intro k hk
    have hprev := ih (by omega) k
    simp only [List.range_succ, List.foldl_append, List.foldl_cons, List.foldl_nil] at hprev ⊢
    generalize (List.range n).foldl _ (hi, lo) = r at hprev ⊢
    by_cases hlow : n < W2
    · rw [if_pos hlow, if_pos (by omega), get_bit_set_bit _ hlow]
      by_cases heq : k = n
      · rw [if_pos heq, heq]
      · rw [if_neg heq, ← hprev (by omega), if_pos (by omega)]
    · rw [if_neg hlow]
      by_cases heq : k = n
      · rw [heq, if_neg hlow, get_bit_set_bit _ (by omega), if_pos rfl]
      rw [← hprev (by omega), get_bit_set_bit _ (by omega)]
      by_cases hk2 : k < W2
      · rw [if_pos hk2, if_pos hk2]
      · rw [if_neg hk2, if_neg hk2, if_neg (by omega)]

end

/-! ## Simultaneous assignment -/

/-- A slice gets the bits that the source had, unless the source is the integer itself and
the bits it reads do not repeat with the period of the slice's lowest index. A
concatenation gets them too, unless the source is a slice with a bit beyond 64. -/
theorem assignment_is_simultaneous_just_where_no_bit_is_lost {W W1 W2 : Nat} {S S1 S2 : Bool}
    (dst : int_base W S) (hi lo : Nat) (high : int_base W1 S1) (low : int_base W2 S2)
    (src : Source) :
    (lo ≤ hi ∧ hi < W →
      Sliced dst hi lo src.bit (range_assign dst hi lo src) ∧
      (Sliced dst hi lo dst.toInt.testBit (range_assign_self dst hi lo) ↔
        ∀ off, lo + off ≤ hi → dst.get_bit off = dst.get_bit (off % lo))) ∧
    (Concatenated src.bit (concat_assign high low src) ↔
      match src with
      | .slice .. => ∀ off < W1 + W2, 64 ≤ off → src.bit off = false
      | _ => True) := by
  refine ⟨fun h => ⟨fun k => ?_, ?_⟩, ?_⟩
  · rw [range_assign, get_bit_writes src.bit (by omega) (fun m _ _ _ => src.read_eq m)]
    exact if_congr (by omega) rfl rfl
  · have hself (off : Nat) (hoff : lo + off ≤ hi) :
        dst.toInt.testBit off = dst.get_bit off := by
      rw [← source_bit_eq, source_bit, if_neg (by omega)]
    constructor
    · intro hsim off hoff
      have hk := hsim (lo + off)
      rw [get_bit_range_assign_self dst h, if_pos (by omega), if_pos (by omega),
        Nat.add_sub_cancel_left, hself off hoff] at hk
      exact hk.symm
    · intro hperiod k
      rw [get_bit_range_assign_self dst h]
      by_cases hk : lo ≤ k ∧ k ≤ hi
      · rw [if_pos (by omega), if_pos hk, hself _ (by omega)]
        exact (hperiod _ (by omega)).symm
      · rw [if_neg (by omega), if_neg hk]
  · have hwrites := concatenated_writes high low (src.readWide _ (high.pos_add W2))
    have hiff : Concatenated src.bit (concat_assign high low src) ↔
        ∀ k < W1 + W2, src.readWide _ (high.pos_add W2) k = src.bit k :=
      forall₂_congr fun k hk => by rw [concat_assign, hwrites k hk]
    rw [hiff]
    cases src with
    | slice x h l hs =>
      refine forall₂_congr fun off hoff => ?_
      rw [Source.readWide_eq _ hoff]
      by_cases h64 : off < 64
      · simp [h64]
      · simp only [h64, decide_false, Bool.false_and, Nat.not_lt.mp h64, forall_const]
        exact eq_comm
    | _ => exact iff_of_true (fun off hoff => Source.readWide_eq _ hoff) trivial

/-- Two bits over the two low ones read nothing that they write, and a slice of one limb
fills two halves. -/
theorem two_bits_over_two_are_copied :
    Sliced (of_native 4 false (by decide) 1) 3 2 (of_native 4 false (by decide) 1).toInt.testBit
      (range_assign_self (of_native 4 false (by decide) 1) 3 2) ∧
    Concatenated (Source.slice (of_native 64 true (by decide) (-1)) 63 0 (by decide)).bit
      (concat_assign (of_native 64 true (by decide) 0) (of_native 4 false (by decide) 1)
        (.slice (of_native 64 true (by decide) (-1)) 63 0 (by decide))) := by
  have h := assignment_is_simultaneous_just_where_no_bit_is_lost
    (of_native 4 false (by decide) 1) 3 2 (of_native 64 true (by decide) 0)
    (of_native 4 false (by decide) 1)
    (.slice (of_native 64 true (by decide) (-1)) 63 0 (by decide))
  refine ⟨(h.1 (by decide)).2.mpr fun off hoff => ?_, h.2.mpr fun off _ hoff => ?_⟩
  · rw [Nat.mod_eq_of_lt (by omega)]
  · rw [Source.bit, decide_eq_false (by omega), Bool.false_and]

/-- Bits 1 to 3 of the integer 1, assigned that integer, are all set; and bit 64 of a slice
does not reach a concatenation. -/
theorem a_slice_of_itself_repeats_its_low_bit :
    (¬Sliced (of_native 4 false (by decide) 1) 3 1
      (of_native 4 false (by decide) 1).toInt.testBit
      (range_assign_self (of_native 4 false (by decide) 1) 3 1)) ∧
    ¬Concatenated
      (Source.slice (concat_value (of_native 1 false (by decide) 1)
        (of_native 64 false (by decide) 0)) 64 0 (by decide)).bit
      (concat_assign (of_native 1 false (by decide) 0) (of_native 64 false (by decide) 0)
        (Source.slice (concat_value (of_native 1 false (by decide) 1)
          (of_native 64 false (by decide) 0)) 64 0 (by decide))) := by
  constructor
  · intro h
    exact absurd (h 2) (by decide +kernel)
  · intro h
    exact absurd (h 64 (by decide)) (by decide +kernel)

end int_base

end Tapa.Base
