-- Word memories as shift registers and as ring buffers: the words in use, in
-- the order in which they went in, and what a push and a pop do to them.
import Tapa.Clock

namespace Tapa.WordMemory

open Clock List

variable {α : Type} [Inhabited α] {n : Nat}

abbrev Mem (α : Type) (n : Nat) := Fin n → α

/-- The word at address `a`. An address past the end reads no word. -/
def Mem.read (m : Mem α n) (a : Nat) : α := if h : a < n then m ⟨a, h⟩ else default

/-- The memory after a write. A write past the end changes nothing. -/
def Mem.write (m : Mem α n) (a : Nat) (x : α) : Mem α n := fun i => if i.val = a then x else m i

/-- The memory after every word moved one place up and `x` went in at 0. -/
def Mem.shiftIn (m : Mem α n) (x : α) : Mem α n := fun i =>
  if i.val = 0 then x else m.read (i.val - 1)

section

variable (m : Mem α n)
include m

theorem read_shiftIn_zero (x : α) (h : 0 < n) : (m.shiftIn x).read 0 = x := by
  simp [Mem.read, Mem.shiftIn, h]

theorem read_shiftIn_succ (x : α) (a : Nat) (h : a + 1 < n) :
    (m.shiftIn x).read (a + 1) = m.read a := by
  simp [Mem.read, Mem.shiftIn, h]

theorem read_write_self (a : Nat) (x : α) (h : a < n) : (m.write a x).read a = x := by
  simp [Mem.read, Mem.write, h]

theorem read_write_ne (a b : Nat) (x : α) (h : b ≠ a) : (m.write a x).read b = m.read b := by
  simp [Mem.read, Mem.write, h]

/-! ## Shift registers -/

/-- The `k` newest words of a shift register, oldest first. -/
def shiftWords (m : Mem α n) (k : Nat) : List α := ((List.range k).map m.read).reverse

@[simp] theorem shiftWords_zero : shiftWords m 0 = [] := rfl

@[simp] theorem shiftWords_length (k : Nat) : (shiftWords m k).length = k := by
  simp [shiftWords]

theorem shiftWords_push (x : α) (k : Nat) (h : k < n) :
    shiftWords (m.shiftIn x) (k + 1) = shiftWords m k ++ [x] := by
  unfold shiftWords
  have hrest : (List.range k).map ((m.shiftIn x).read ∘ Nat.succ) = (List.range k).map m.read := by
    apply map_congr_left
    intro i hi
    have := mem_range.mp hi
    exact read_shiftIn_succ m x i (by omega)
  rw [range_succ_eq_map, map_cons, map_map, hrest,
    read_shiftIn_zero m x (by omega), reverse_cons]

/-- The oldest word stands at the highest address in use. -/
theorem shiftWords_pop (k : Nat) : shiftWords m (k + 1) = m.read k :: shiftWords m k := by
  unfold shiftWords
  rw [range_succ, map_append, reverse_append]
  rfl

/-- One cycle of a shift register that takes `x` when `p` is high and gives
its oldest word when `o` is high. -/
theorem shiftWords_step (x : α) (k : Nat) (p o : Bool) (hp : p → k < n) (ho : o → 0 < k) :
    shiftWords m k ++ emit p x = emit o (m.read (k - 1)) ++
      shiftWords (if p then m.shiftIn x else m) (k + p.toNat - o.toNat) := by
  cases o with
  | false =>
    cases p with
    | false => simp
    | true => simpa using (shiftWords_push m x k (hp rfl)).symm
  | true =>
    obtain ⟨j, rfl⟩ : ∃ j, k = j + 1 := ⟨k - 1, by have := ho rfl; omega⟩
    cases p with
    | false => simp [shiftWords_pop]
    | true =>
      have hj : j < n := by have := hp rfl; omega
      simp [shiftWords_pop m j, shiftWords_push m x j hj]

/-! ## Ring buffers -/

/-- The `k` words of a ring buffer from address `r` on. -/
def ringWords (m : Mem α n) (r k : Nat) : List α :=
  (List.range k).map (fun i => m.read ((r + i) % n))

@[simp] theorem ringWords_zero (r : Nat) : ringWords m r 0 = [] := rfl

@[simp] theorem ringWords_length (r k : Nat) : (ringWords m r k).length = k := by
  simp [ringWords]

end

theorem ring_addr_ne {r i k : Nat} (hi : i < k) (hk : k < n) : (r + i) % n ≠ (r + k) % n := by
  intro he
  have h1 : (r + k) - (r + i) = k - i := by omega
  have h2 : (k - i) % n = 0 := by
    rw [← h1]
    exact Nat.sub_mod_eq_zero_of_mod_eq he.symm
  rw [Nat.mod_eq_of_lt (by omega)] at h2
  omega

theorem ringWords_push (m : Mem α n) (x : α) (r k : Nat) (h : k < n) :
    ringWords (m.write ((r + k) % n) x) r (k + 1) = ringWords m r k ++ [x] := by
  unfold ringWords
  have hrest : (List.range k).map (fun i => (m.write ((r + k) % n) x).read ((r + i) % n)) =
      (List.range k).map (fun i => m.read ((r + i) % n)) := by
    apply map_congr_left
    intro i hi
    exact read_write_ne m _ _ x (ring_addr_ne (mem_range.mp hi) h)
  rw [range_succ, map_append, hrest, map_singleton,
    read_write_self m _ x (Nat.mod_lt _ (by omega))]

/-- The first word of the ring stands at its read address. -/
theorem ringWords_pop (m : Mem α n) (r k : Nat) (hr : r < n) :
    ringWords m r (k + 1) = m.read r :: ringWords m ((r + 1) % n) k := by
  unfold ringWords
  have hrest : (List.range k).map ((fun i => m.read ((r + i) % n)) ∘ Nat.succ) =
      (List.range k).map (fun i => m.read (((r + 1) % n + i) % n)) := by
    apply map_congr_left
    intro i _
    simp only [Function.comp_apply, Nat.mod_add_mod]
    congr 2
    omega
  rw [range_succ_eq_map, map_cons, map_map, hrest, Nat.add_zero,
    Nat.mod_eq_of_lt hr]

/-- One cycle of a ring buffer that takes `x` when `p` is high and gives its
first word when `o` is high. -/
theorem ringWords_step (m : Mem α n) (x : α) (r k : Nat) (p o : Bool) (hr : r < n)
    (hp : p → k < n) (ho : o → 0 < k) :
    ringWords m r k ++ emit p x = emit o (m.read r) ++
      ringWords (if p then m.write ((r + k) % n) x else m) (if o then (r + 1) % n else r)
        (k + p.toNat - o.toNat) := by
  cases o with
  | false =>
    cases p with
    | false => simp
    | true => simpa using (ringWords_push m x r k (hp rfl)).symm
  | true =>
    obtain ⟨j, rfl⟩ : ∃ j, k = j + 1 := ⟨k - 1, by have := ho rfl; omega⟩
    cases p with
    | false => simp [ringWords_pop m r j hr]
    | true =>
      have hj : j < n := by have := hp rfl; omega
      have haddr : (r + (j + 1)) % n = ((r + 1) % n + j) % n := by
        rw [Nat.mod_add_mod]
        congr 1
        omega
      have hpush := ringWords_push m x ((r + 1) % n) j hj
      rw [← haddr] at hpush
      simp only [emit_true, if_true, Bool.toNat_true, Nat.add_sub_cancel]
      rw [hpush, ringWords_pop m r j hr]
      rfl

end Tapa.WordMemory
