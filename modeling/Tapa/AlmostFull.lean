-- The almost-full FIFOs of `relay_station.v`. Each lowers `if_full_n` while it
-- still has room for `GRACE_PERIOD` words, and stores every word offered to it
-- until it is full.
import Tapa.FifoStorage
import Tapa.GraceChain

namespace Tapa.Rtl

open Clock WordMemory GraceChain

variable {α : Type} [Inhabited α]

/-! ## `fifo_srl_almost_full` -/

/-- The registers of `fifo_srl_almost_full`. `out_ptr` of the core is `mOutPtr`. -/
structure fifo_srl_almost_full (α : Type) (DEPTH GRACE_PERIOD : Nat) where
  core : SrlCore α (srl_real_depth DEPTH)
  shiftReg_addr : Nat
  almost_full_q : Bool

namespace fifo_srl_almost_full

variable {DEPTH GRACE_PERIOD : Nat}

section

variable (s : fifo_srl_almost_full α DEPTH GRACE_PERIOD)

def almost_full : Bool :=
  decide (srl_real_depth DEPTH - 1 - GRACE_PERIOD - 1 ≤ s.core.out_ptr) &&
    decide (s.core.out_ptr ≠ SrlCore.ptrs (srl_real_depth DEPTH) - 1)

def if_full_n : Bool := !s.almost_full_q

def if_empty_n : Bool := s.core.internal_empty_n

def if_dout : α := s.core.mem.read s.shiftReg_addr

/-- The write enable. It looks at `internal_full_n`, and not at `if_full_n`. -/
def shiftReg_ce (i : FifoIn α) : Bool :=
  s.core.shift_reg_ce i

/-- The address register moves with the pointer. -/
def addr_next (i : FifoIn α) : Nat :=
  if i.reset then 0
  else if (i.read && s.core.internal_empty_n) && (!i.write || !s.core.internal_full_n) then
    SrlCore.addr_of (srl_real_depth DEPTH) s.core.out_ptr_minus_one
  else if (!i.read || !s.core.internal_empty_n) && (i.write && s.core.internal_full_n) then
    SrlCore.addr_of (srl_real_depth DEPTH) s.core.out_ptr_plus_one
  else s.shiftReg_addr

/-- One clock edge. `almost_full_q` has no reset of its own. -/
def step (i : FifoIn α) : fifo_srl_almost_full α DEPTH GRACE_PERIOD where
  core := s.core.step (srl_real_depth DEPTH) i
  shiftReg_addr := s.addr_next i
  almost_full_q := s.almost_full

def count : Nat := s.core.count

def words : List α := s.core.words

def rtl (α : Type) [Inhabited α] (DEPTH GRACE_PERIOD : Nat) : FifoModule α where
  State := fifo_srl_almost_full α DEPTH GRACE_PERIOD
  step := step
  if_full_n := if_full_n
  if_empty_n := fun s _ => s.if_empty_n
  if_dout := fun s _ => s.if_dout
  stored := shiftReg_ce

/-- The words and the one that `if_full_n` may still let in. -/
def weight : Nat :=
  s.core.count + s.if_full_n.toNat

/-- The core invariant, with the address register at the oldest word. -/
structure Inv (s : fifo_srl_almost_full α DEPTH GRACE_PERIOD) : Prop where
  core : s.core.Inv (srl_real_depth DEPTH)
  addr : s.shiftReg_addr = s.core.count - 1

/-- The depths for which the thresholds make sense: room for the grace words
and two more, and a depth that fits in 32 bits. -/
structure Sized (DEPTH GRACE_PERIOD : Nat) : Prop where
  four_le : 4 ≤ DEPTH
  grace : GRACE_PERIOD + 2 ≤ DEPTH
  lt : DEPTH < 2 ^ 32

theorem Sized.real {DEPTH GRACE_PERIOD : Nat} (hs : Sized DEPTH GRACE_PERIOD) :
    srl_real_depth DEPTH = DEPTH := by
  have := hs.four_le
  unfold srl_real_depth
  rw [if_neg (by omega)]

theorem Sized.core {DEPTH GRACE_PERIOD : Nat} (hs : Sized DEPTH GRACE_PERIOD) :
    SrlCore.Sized (srl_real_depth DEPTH) (srl_real_depth DEPTH) := by
  have h4 := hs.four_le
  have hlt := hs.lt
  rw [hs.real]
  exact ⟨by omega, Nat.le_refl _, hlt⟩

omit [Inhabited α] in
/-- `almost_full` goes up at `DEPTH - 1 - GRACE_PERIOD` words. -/
theorem almost_full_eq (hs : Sized DEPTH GRACE_PERIOD)
    {s : fifo_srl_almost_full α DEPTH GRACE_PERIOD} (h : Inv s) :
    s.almost_full = decide (s.count ≠ 0 ∧ DEPTH - 1 - GRACE_PERIOD ≤ s.count) := by
  have hp := SrlCore.lt_ptrs (srl_real_depth DEPTH)
  have hle := h.core.le
  have hreal := hs.real
  unfold almost_full count
  rw [h.core.ptr, ← Bool.decide_and]
  congr 1
  by_cases h0 : s.core.count = 0
  · simp [h0]
  · rw [if_neg h0]
    exact propext ⟨fun h => ⟨h0, by omega⟩, fun h => ⟨by omega, by omega⟩⟩

theorem reset_inv (hs : Sized DEPTH GRACE_PERIOD) (s : fifo_srl_almost_full α DEPTH GRACE_PERIOD)
    (i : FifoIn α) (hr : i.reset = true) : Inv (s.step i) ∧ (s.step i).words = [] := by
  obtain ⟨h, hc⟩ := SrlCore.reset_inv hs.core s.core i hr
  refine ⟨⟨h, ?_⟩, ?_⟩
  · show s.addr_next i = (s.core.step (srl_real_depth DEPTH) i).count - 1
    rw [hc]
    simp [addr_next, hr]
  · show shiftWords _ (s.core.step (srl_real_depth DEPTH) i).count = []
    rw [hc]
    rfl

omit [Inhabited α] in
/-- The address register after one live edge, by what the edge pushes and pops. -/
theorem addr_next_live (i : FifoIn α) (hl : i.Live) :
    s.addr_next i =
      match i.read && s.core.internal_empty_n, s.shiftReg_ce i with
      | true, false => SrlCore.addr_of (srl_real_depth DEPTH) s.core.out_ptr_minus_one
      | false, true => SrlCore.addr_of (srl_real_depth DEPTH) s.core.out_ptr_plus_one
      | _, _ => s.shiftReg_addr := by
  have hr : i.reset = false := hl
  unfold addr_next shiftReg_ce SrlCore.shift_reg_ce
  cases i.read <;> cases i.write <;> cases s.core.internal_empty_n <;>
    cases s.core.internal_full_n <;> simp [hr]

end

omit [Inhabited α] in
/-- The address of the pointer is that of the oldest word, and 0 for none. -/
theorem addr_of_ptr {n full : Nat} (hs : SrlCore.Sized full n) {s : SrlCore α n}
    (h : s.Inv full) : SrlCore.addr_of n s.out_ptr = s.count - 1 := by
  have hle := h.le
  have hn := hs.le
  rw [h.ptr]
  by_cases h0 : s.count = 0
  · rw [h0]
    simp [SrlCore.addr_of, SrlCore.ptrs, Nat.testBit_two_pow_sub_one]
  · rw [if_neg h0, SrlCore.addr_of_lt (by omega)]

section

variable (hs : Sized DEPTH GRACE_PERIOD)
include hs

section

variable (s : fifo_srl_almost_full α DEPTH GRACE_PERIOD) (i : FifoIn α)

theorem step_inv (h : Inv s) (hl : i.Live) : Inv (s.step i) := by
  obtain ⟨hcore, hcount⟩ := SrlCore.step_inv hs.core s.core i h.core hl
  refine ⟨hcore, ?_⟩
  show s.addr_next i = (s.core.step (srl_real_depth DEPTH) i).count - 1
  have haddr := addr_of_ptr hs.core hcore
  rw [addr_next_live s i hl]
  unfold shiftReg_ce
  -- The pointer moves on a push or a pop alone, and the address moves with it.
  cases ho : i.read && s.core.internal_empty_n <;> cases hc : s.core.shift_reg_ce i <;>
    simp only [ho, hc, Bool.toNat_true, Bool.toNat_false] at hcount
  · rw [hcount]
    exact h.addr
  · rw [← haddr, SrlCore.step_live _ s.core i hl]
    simp only [ho, hc]
  · rw [← haddr, SrlCore.step_live _ s.core i hl]
    simp only [ho, hc]
  · rw [hcount]
    exact h.addr

/-- The FIFO is a queue of the words that its write enable lets in. -/
theorem queueLaw : QueueLaw step FifoIn.Live Inv words (rtl α DEPTH GRACE_PERIOD).taken
      (rtl α DEPTH GRACE_PERIOD).given where
  keep := fun s i hi hl => step_inv hs s i hi hl
  flow := by
    intro s i hi hl
    have hdout : s.if_dout = s.core.mem.read (s.core.count - 1) := by
      unfold if_dout
      rw [hi.addr]
    simp only [FifoModule.taken, FifoModule.given, rtl]
    rw [hdout]
    exact SrlCore.step_words hs.core s.core i hi.core hl

omit [Inhabited α] in
/-- A FIFO that is not full stores every word offered to it. -/
theorem stored_of_room {s : fifo_srl_almost_full α DEPTH GRACE_PERIOD} (hi : Inv s) {i : FifoIn α}
    (hroom : i.write = true → s.count < DEPTH) : s.shiftReg_ce i = i.write := by
  have hreal := hs.real
  unfold shiftReg_ce SrlCore.shift_reg_ce
  rw [hi.core.full]
  cases hw : i.write
  · rfl
  · have := hroom hw
    unfold count at this
    simp only [Bool.true_and, decide_eq_true_eq]
    omega

/-- The FIFO keeps a grace of `GRACE_PERIOD` words. -/
theorem tailLaw :
    TailLaw step FifoIn.Live FifoIn.write FifoIn.if_din if_full_n DEPTH GRACE_PERIOD Inv words
      (rtl α DEPTH GRACE_PERIOD).given count weight where
  heavy := fun s _ => Nat.le_refl _
  keep := fun s i hi hl _ => step_inv hs s i hi hl
  flow := by
    intro s i hi hl hroom
    have h := (queueLaw hs).flow s i hi hl
    unfold FifoModule.taken at h
    rwa [show (rtl α DEPTH GRACE_PERIOD).stored s i = i.write from stored_of_room hs hi hroom] at h
  settle := by
    intro s i hi hl hroom _
    have hg := hs.grace
    have haf := almost_full_eq hs hi
    have hcount := (SrlCore.step_inv hs.core s.core i hi.core hl).2
    have hce : (s.core.shift_reg_ce i).toNat ≤ i.write.toNat := by
      unfold SrlCore.shift_reg_ce
      cases i.write <;> simp [Bool.toNat_le]
    have hw1 := Bool.toNat_le i.write
    unfold weight
    rw [show (s.step i).core.count = _ from hcount]
    have hfull : (s.step i).if_full_n = !s.almost_full := rfl
    rw [hfull, haf]
    by_cases h : s.count ≠ 0 ∧ DEPTH - 1 - GRACE_PERIOD ≤ s.count
    · left
      rw [decide_eq_true h]
      simp only [Bool.not_true, Bool.toNat_false]
      omega
    · right
      rw [decide_eq_false h]
      simp only [Bool.not_false, Bool.toNat_true]
      unfold count at h
      omega

theorem reset_weight (hr : i.reset = true) : (s.step i).weight ≤ 1 := by
  have hc : (s.step i).core.count = 0 := (SrlCore.reset_inv hs.core s.core i hr).2
  have := Bool.toNat_le (s.step i).if_full_n
  unfold weight
  omega

/-- The ready goes up one cycle after the words are few enough. -/
theorem ready_again (hi : Inv s)
    (hc : s.count + GRACE_PERIOD + 1 < DEPTH) : (s.step i).if_full_n = true := by
  show (!s.almost_full) = true
  rw [almost_full_eq hs hi, decide_eq_false (by omega)]
  rfl

end

end

end fifo_srl_almost_full

/-! ## `fifo_bram_almost_full` -/

/-- The registers of `fifo_bram_almost_full`: those of `fifo_bram`. -/
abbrev fifo_bram_almost_full (α : Type) (DEPTH ADDR_WIDTH : Nat) := fifo_bram α DEPTH ADDR_WIDTH

namespace fifo_bram_almost_full

variable {DEPTH ADDR_WIDTH GRACE_PERIOD : Nat}

def almost_full (GRACE_PERIOD : Nat) (s : fifo_bram_almost_full α DEPTH ADDR_WIDTH) : Bool :=
  decide (DEPTH - 1 - GRACE_PERIOD ≤ s.used)

/-- The ready of this FIFO comes straight from the counter. -/
def if_full_n (GRACE_PERIOD : Nat) (s : fifo_bram_almost_full α DEPTH ADDR_WIDTH) : Bool :=
  !almost_full GRACE_PERIOD s

/-- The words in the memory and one more, so that the counter never wraps. -/
def weight (s : fifo_bram_almost_full α DEPTH ADDR_WIDTH) : Nat := s.count + 1

def rtl (α : Type) [Inhabited α] (DEPTH ADDR_WIDTH GRACE_PERIOD : Nat) : FifoModule α where
  State := fifo_bram_almost_full α DEPTH ADDR_WIDTH
  step := fifo_bram.step
  if_full_n := if_full_n GRACE_PERIOD
  if_empty_n := fun s _ => s.if_empty_n
  if_dout := fun s _ => s.if_dout
  stored := fifo_bram.push

/-- A FIFO that is not full stores every word offered to it. -/
theorem stored_of_room {s : fifo_bram_almost_full α DEPTH ADDR_WIDTH} (hi : s.Inv) {i : FifoIn α}
    (hroom : i.write = true → s.count < DEPTH) : s.push i = i.write := by
  unfold fifo_bram.push FifoIn.write
  rw [hi.full, Bool.and_assoc, Bool.and_comm i.if_write_ce]
  cases hw : i.if_write && i.if_write_ce
  · simp
  · have := hroom hw
    simp only [Bool.and_true, decide_eq_true_eq]
    omega

/-- The FIFO keeps a grace of `GRACE_PERIOD` words. -/
theorem tailLaw (hs : fifo_bram.Sized DEPTH ADDR_WIDTH) (hg : GRACE_PERIOD + 2 ≤ DEPTH) :
    TailLaw fifo_bram.step FifoIn.Live FifoIn.write FifoIn.if_din (if_full_n GRACE_PERIOD) DEPTH
      GRACE_PERIOD fifo_bram.Inv fifo_bram.words (rtl α DEPTH ADDR_WIDTH GRACE_PERIOD).given
      fifo_bram.count weight where
  heavy := by
    intro s _
    have := Bool.toNat_le (if_full_n GRACE_PERIOD s)
    unfold weight
    omega
  keep := fun s i hi hl _ => (fifo_bram.step_inv hs s i hi hl).1
  flow := by
    intro s i hi hl hroom
    have h := (fifo_bram.queueLaw hs).flow s i hi hl
    unfold FifoModule.taken at h
    rwa [show (fifo_bram.rtl α DEPTH ADDR_WIDTH).stored s i = i.write from
      stored_of_room hi hroom] at h
  settle := by
    intro s i hi hl hroom hcap
    have hle := hs.le
    have hcount := (fifo_bram.step_inv hs s i hi hl).2
    have hpush : (s.push i).toNat ≤ i.write.toNat := by
      unfold fifo_bram.push FifoIn.write
      cases s.full_n <;> cases i.if_write_ce <;> cases i.if_write <;> simp
    have hw1 := Bool.toNat_le i.write
    have hused : s.used = s.count := by
      rw [hi.used, Nat.mod_eq_of_lt (by unfold weight at hcap; omega)]
    unfold weight
    unfold if_full_n almost_full
    rw [hused]
    by_cases h : DEPTH - 1 - GRACE_PERIOD ≤ s.count
    · left
      simp only [h, decide_true, Bool.not_true, Bool.toNat_false]
      omega
    · right
      omega

/-- The ready is high as long as the words are few enough. -/
theorem ready_again (hs : fifo_bram.Sized DEPTH ADDR_WIDTH)
    (s : fifo_bram_almost_full α DEPTH ADDR_WIDTH) (hi : s.Inv)
    (hc : s.count + GRACE_PERIOD + 1 < DEPTH) : if_full_n GRACE_PERIOD s = true := by
  have hle := hs.le
  unfold if_full_n almost_full
  rw [hi.used, Nat.mod_eq_of_lt (by omega), decide_eq_false (by omega)]
  rfl

end fifo_bram_almost_full

/-! ## `fifo_almost_full` -/

/-- The storage that `fifo_almost_full` generates from its parameters. The two
block RAM branches differ only in the style of the memory. -/
def fifo_almost_full (DATA_WIDTH ADDR_WIDTH DEPTH GRACE_PERIOD : Nat) :
    FifoModule (BitVec DATA_WIDTH) :=
  if 36 ≤ DATA_WIDTH ∧ 4096 ≤ DEPTH then
    fifo_bram_almost_full.rtl (BitVec DATA_WIDTH) DEPTH ADDR_WIDTH GRACE_PERIOD
  else if 128 ≤ DEPTH then
    fifo_bram_almost_full.rtl (BitVec DATA_WIDTH) DEPTH ADDR_WIDTH GRACE_PERIOD
  else fifo_srl_almost_full.rtl (BitVec DATA_WIDTH) DEPTH GRACE_PERIOD

/-- A queue module with a grace of `grace` words below its `cap` words. Its
ready is high again one cycle after the words are few enough. -/
structure FifoModule.IsTail (m : FifoModule α) (cap grace : Nat) extends m.IsQueue where
  clears : toIsQueue.Clears
  output : m.RegisteredOutput
  count : m.State → Nat
  weight : m.State → Nat
  tail : TailLaw m.step FifoIn.Live FifoIn.write FifoIn.if_din m.if_full_n cap grace inv words
    m.given count weight
  stores : ∀ s i, inv s → (i.write = true → count s < cap) → m.stored s i = i.write
  count_le : ∀ s, inv s → count s ≤ (words s).length
  reset_weight : ∀ s i, i.reset = true → weight (m.step s i) ≤ 1
  ready : ∀ s i, inv s → inv (m.step s i) → count s + grace + 1 < cap →
    count (m.step s i) + grace + 1 < cap → m.if_full_n (m.step s i) = true

def fifo_srl_almost_full.isTail {DEPTH GRACE_PERIOD : Nat}
    (hs : fifo_srl_almost_full.Sized DEPTH GRACE_PERIOD) :
    (fifo_srl_almost_full.rtl α DEPTH GRACE_PERIOD).IsTail DEPTH GRACE_PERIOD where
  inv := fifo_srl_almost_full.Inv
  words := fifo_srl_almost_full.words
  law := fifo_srl_almost_full.queueLaw hs
  reset_inv := fun s i hr => (fifo_srl_almost_full.reset_inv hs s i hr).1
  given_blind := fun _ _ => rfl
  taken_blind := fun _ _ => rfl
  clears := fun s i hr => (fifo_srl_almost_full.reset_inv hs s i hr).2
  output := fun _ _ _ => ⟨rfl, rfl⟩
  count := fifo_srl_almost_full.count
  weight := fifo_srl_almost_full.weight
  tail := fifo_srl_almost_full.tailLaw hs
  stores := fun _ _ hi hroom => fifo_srl_almost_full.stored_of_room hs hi hroom
  count_le := by
    intro s _
    show s.core.count ≤ (shiftWords s.core.mem s.core.count).length
    simp
  reset_weight := fifo_srl_almost_full.reset_weight hs
  ready := fun s i hi _ hc _ => fifo_srl_almost_full.ready_again hs s i hi hc

def fifo_bram_almost_full.isTail {DEPTH ADDR_WIDTH GRACE_PERIOD : Nat}
    (hs : fifo_bram.Sized DEPTH ADDR_WIDTH) (hg : GRACE_PERIOD + 2 ≤ DEPTH) :
    (fifo_bram_almost_full.rtl α DEPTH ADDR_WIDTH GRACE_PERIOD).IsTail DEPTH GRACE_PERIOD where
  inv := fifo_bram.Inv
  words := fifo_bram.words
  law := fifo_bram.queueLaw hs
  reset_inv := fun s i hr => (fifo_bram.reset_inv hs s i hr).1
  given_blind := fun _ _ => rfl
  taken_blind := fun _ _ => rfl
  clears := fun s i hr => (fifo_bram.reset_inv hs s i hr).2
  output := fun _ _ _ => ⟨rfl, rfl⟩
  count := fifo_bram.count
  weight := fifo_bram_almost_full.weight
  tail := fifo_bram_almost_full.tailLaw hs hg
  stores := fun _ _ hi hroom => fifo_bram_almost_full.stored_of_room hi hroom
  count_le := by
    intro s _
    show s.count ≤ (emit s.dout_valid s.dout_buf ++ ringWords s.mem s.raddr s.count).length
    simp
  reset_weight := by
    intro s i hr
    show (s.step i).count + 1 ≤ 1
    simp [fifo_bram.count, fifo_bram.step, hr]
  ready := fun _ _ _ hi _ hc => fifo_bram_almost_full.ready_again hs _ hi hc

/-- Every `fifo_almost_full` with an address for each word is such a queue. -/
def fifo_almost_full_isTail (DATA_WIDTH ADDR_WIDTH DEPTH GRACE_PERIOD : Nat) (h4 : 4 ≤ DEPTH)
    (hg : GRACE_PERIOD + 2 ≤ DEPTH) (ha : DEPTH ≤ 2 ^ ADDR_WIDTH) :
    (fifo_almost_full DATA_WIDTH ADDR_WIDTH DEPTH GRACE_PERIOD).IsTail DEPTH GRACE_PERIOD := by
  unfold fifo_almost_full
  refine if h1 : 36 ≤ DATA_WIDTH ∧ 4096 ≤ DEPTH then ?_
    else if h2 : 128 ≤ DEPTH then ?_ else ?_
  · rw [if_pos h1]
    exact fifo_bram_almost_full.isTail (.of_two_le (by omega) ha) hg
  · rw [if_neg h1, if_pos h2]
    exact fifo_bram_almost_full.isTail (.of_two_le (by omega) ha) hg
  · rw [if_neg h1, if_neg h2]
    exact fifo_srl_almost_full.isTail ⟨h4, hg, by omega⟩

end Tapa.Rtl
