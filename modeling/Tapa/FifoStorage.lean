-- The stream FIFOs of one slot: the forwarding register of depth 1, the shift
-- register and the block RAM. Each is one step a clock edge, as its always
-- blocks are, and each is shown to be a queue of its words.
import Tapa.WordMemory

namespace Tapa.Rtl

open Clock WordMemory Bool Nat

variable {α : Type}

/-! ## The ports -/

/-- The input ports of a stream FIFO in one cycle. -/
structure FifoIn (α : Type) where
  reset : Bool
  if_write_ce : Bool
  if_write : Bool
  if_din : α
  if_read_ce : Bool
  if_read : Bool

def FifoIn.write (i : FifoIn α) : Bool := i.if_write && i.if_write_ce

def FifoIn.read (i : FifoIn α) : Bool := i.if_read && i.if_read_ce

/-- A cycle with the reset low. -/
def FifoIn.Live (i : FifoIn α) : Prop := i.reset = false

/-- A FIFO module with its parameters set: its registers, its clock edge, its
output ports, and the write enable of its storage. -/
structure FifoModule (α : Type) where
  State : Type
  step : State → FifoIn α → State
  if_full_n : State → Bool
  if_empty_n : State → FifoIn α → Bool
  if_dout : State → FifoIn α → α
  stored : State → FifoIn α → Bool

namespace FifoModule

section

variable (m : FifoModule α) (s : m.State) (i : FifoIn α)

/-- The word that the storage takes at the end of a cycle. -/
def taken : List α := emit (m.stored s i) i.if_din

/-- The word that the reader takes in a cycle. -/
def given : List α :=
  emit (i.read && m.if_empty_n s i) (m.if_dout s i)

/-- The word that the writer hands over in a cycle: it asserts its write and
sees `if_full_n` high. -/
def accepted : List α :=
  emit (i.write && m.if_full_n s) i.if_din

end

/-- The reader sees registers only: the outputs of a cycle do not depend on its
inputs. -/
def RegisteredOutput (m : FifoModule α) : Prop :=
  ∀ s i j, m.if_empty_n s i = m.if_empty_n s j ∧ m.if_dout s i = m.if_dout s j

/-- A module that is, after one cycle of reset, a queue of the words its storage
takes. -/
structure IsQueue (m : FifoModule α) where
  inv : m.State → Prop
  words : m.State → List α
  law : QueueLaw m.step FifoIn.Live inv words m.taken m.given
  reset_inv : ∀ s i, i.reset = true → inv (m.step s i)
  given_blind : ∀ s i, m.given s { i with reset := false } = m.given s i
  taken_blind : ∀ s i, m.taken s { i with reset := false } = m.taken s i

variable {m : FifoModule α}

/-- Also in a cycle of reset, the reader gets the oldest word. -/
theorem IsQueue.given_isPrefix (q : m.IsQueue) {s : m.State} (i : FifoIn α) (hs : q.inv s) :
    m.given s i <+: q.words s ++ m.taken s i := by
  have h := q.law.flow s { i with reset := false } hs rfl
  rw [q.given_blind, q.taken_blind] at h
  exact ⟨_, h.symm⟩

/-- A queue that one cycle of reset empties. -/
def IsQueue.Clears {m : FifoModule α} (q : m.IsQueue) : Prop :=
  ∀ s i, i.reset = true → q.words (m.step s i) = []

/-- Right after a reset the queue holds the words of the last `k` cycles. -/
def IsQueue.Turns {m : FifoModule α} (q : m.IsQueue) (k : Nat) : Prop :=
  ∀ (s : m.State) (ins : Nat → FifoIn α) (n : Nat), 0 < n → k ≤ n → (ins (n - 1)).reset = true →
    q.words (run m.step s ins n) = window (fun c => m.taken (run m.step s ins c) (ins c)) (n - k) n

/-- With fewer than `depth` words for `k` cycles, the ready is high at their end. -/
def IsQueue.Recovers {m : FifoModule α} (q : m.IsQueue) (depth k : Nat) : Prop :=
  ∀ (s : m.State) (ins : Nat → FifoIn α) (t : Nat),
    (∀ c, t ≤ c → c ≤ t + k → q.inv (run m.step s ins c)) →
      (∀ c, t ≤ c → c ≤ t + k → (q.words (run m.step s ins c)).length < depth) →
        m.if_full_n (run m.step s ins (t + k)) = true

/-- A queue that holds `depth` words, with words on their way for `turn` cycles
and a ready that is `late` cycles old. -/
def Holds (m : FifoModule α) (depth turn late : Nat) : Prop :=
  ∃ q : m.IsQueue, q.Turns turn ∧ q.Recovers depth late

theorem IsQueue.Clears.turns {q : m.IsQueue} (h : q.Clears) : q.Turns 0 := by
  intro s ins n hn _ hr
  rw [Nat.sub_zero, window_self, run_pred _ _ _ hn]
  exact h _ _ hr

/-- From the end of a reset on, the words taken since the registers last turned
over are the words given and then the words held. -/
theorem IsQueue.Turns.conserves {q : m.IsQueue} {k : Nat} (h : q.Turns k) (s : m.State)
    (ins : Nat → FifoIn α) {n t : Nat} (hn : 0 < n) (hk : k ≤ n)
    (hreset : (ins (n - 1)).reset = true) (hlive : ∀ c, n ≤ c → c < t → (ins c).reset = false)
    (hnt : n ≤ t) :
    q.inv (run m.step s ins t) ∧
      window (fun c => m.taken (run m.step s ins c) (ins c)) (n - k) t =
        window (fun c => m.given (run m.step s ins c) (ins c)) n t ++
          q.words (run m.step s ins t) := by
  have hinv : q.inv (run m.step s ins n) := by
    rw [run_pred _ _ _ hn]
    exact q.reset_inv _ _ hreset
  have hflow := q.law.conserves hnt hinv hlive
  rw [h s ins n hn hk hreset, ← window_append _ (sub_le n k) hnt] at hflow
  exact ⟨run_keeps q.law.keep hnt hinv hlive, hflow⟩

end FifoModule

variable [Inhabited α]

/-! ## `fifo_fwd` -/

structure fifo_fwd (α : Type) where
  mem : α
  is_mem_valid : Bool

namespace fifo_fwd

def if_full_n (s : fifo_fwd α) : Bool := !s.is_mem_valid

section

variable (s : fifo_fwd α) (i : FifoIn α)

def if_empty_n : Bool := s.is_mem_valid || i.write

def if_dout : α := if s.is_mem_valid then s.mem else i.if_din

def stored : Bool := i.write && s.if_full_n

def step : fifo_fwd α :=
  if i.reset then { s with is_mem_valid := false }
  else
    { is_mem_valid :=
        if s.is_mem_valid then (if i.read then false else s.is_mem_valid)
        else if i.write && !i.read then true else s.is_mem_valid
      mem := if s.stored i then i.if_din else s.mem }

end

def words (s : fifo_fwd α) : List α := emit s.is_mem_valid s.mem

def rtl (α : Type) : FifoModule α where
  State := fifo_fwd α
  step := step
  if_full_n := if_full_n
  if_empty_n := if_empty_n
  if_dout := if_dout
  stored := stored

omit [Inhabited α] in
theorem queueLaw : QueueLaw step FifoIn.Live (fun _ : fifo_fwd α => True) words
    (rtl α).taken (rtl α).given where
  keep := fun _ _ _ _ => trivial
  flow := by
    intro s i _ hlive
    have hr : i.reset = false := hlive
    simp only [FifoModule.taken, FifoModule.given, rtl]
    unfold words stored step if_empty_n if_dout stored if_full_n
    cases hv : s.is_mem_valid <;> cases hw : i.write <;> cases hd : i.read <;> simp [hr]

def isQueue (α : Type) [Inhabited α] : (rtl α).IsQueue where
  inv := fun _ => True
  words := words
  law := queueLaw
  reset_inv := fun _ _ _ => trivial
  given_blind := fun _ _ => rfl
  taken_blind := fun _ _ => rfl

theorem isQueue_clears : (isQueue α).Clears := by
  intro s i hr
  show (step s i).words = []
  simp [words, step, hr]

end fifo_fwd

/-! ## The shift register that `fifo_srl` and `fifo_srl_almost_full` share -/

/-- The registers of a shift-register FIFO of `n` entries: the pointer to the
oldest word, the two flags, and the shift register. -/
structure SrlCore (α : Type) (n : Nat) where
  out_ptr : Nat
  internal_empty_n : Bool
  internal_full_n : Bool
  mem : Mem α n

namespace SrlCore

variable {n : Nat}

def real_addr_width (n : Nat) : Nat := Nat.clog 2 n + 1

/-- The number of values of the pointer, which has one bit more than an address. -/
def ptrs (n : Nat) : Nat := 2 ^ (real_addr_width n + 1)

def shift_reg_ce (s : SrlCore α n) (i : FifoIn α) : Bool := i.write && s.internal_full_n

def out_ptr_minus_one (s : SrlCore α n) : Nat := (s.out_ptr + ptrs n - 1) % ptrs n

def out_ptr_plus_one (s : SrlCore α n) : Nat := (s.out_ptr + 1) % ptrs n

/-- The address of a pointer: its low bits, or 0 when its top bit is high. -/
def addr_of (n ptr : Nat) : Nat :=
  if ptr.testBit (real_addr_width n) = false then ptr % 2 ^ real_addr_width n else 0

/-- One clock edge. `full` is the parameter that the pointer is compared with,
less 2 in 32 bits, to lower `internal_full_n`. -/
def step (full : Nat) (s : SrlCore α n) (i : FifoIn α) : SrlCore α n :=
  let mem := if s.shift_reg_ce i then s.mem.shiftIn i.if_din else s.mem
  if i.reset then
    { out_ptr := ptrs n - 1, internal_empty_n := false, internal_full_n := true, mem }
  else if (i.read && s.internal_empty_n) && (!i.write || !s.internal_full_n) then
    { out_ptr := s.out_ptr_minus_one
      internal_empty_n := if s.out_ptr = 0 then false else s.internal_empty_n
      internal_full_n := true
      mem }
  else if (!i.read || !s.internal_empty_n) && (i.write && s.internal_full_n) then
    { out_ptr := s.out_ptr_plus_one
      internal_empty_n := true
      internal_full_n :=
        if s.out_ptr = (full + 2 ^ 32 - 2) % 2 ^ 32 then false else s.internal_full_n
      mem }
  else { s with mem }

/-- The number of words: the pointer stands at the oldest, and at -1 for none. -/
def count (s : SrlCore α n) : Nat := s.out_ptr_plus_one

def words (s : SrlCore α n) : List α := shiftWords s.mem s.count

/-- The pointer and the flags tell the number of words, which is at most `full`. -/
structure Inv (full : Nat) (s : SrlCore α n) : Prop where
  le : s.count ≤ full
  ptr : s.out_ptr = if s.count = 0 then ptrs n - 1 else s.count - 1
  empty : s.internal_empty_n = decide (s.count ≠ 0)
  full : s.internal_full_n = decide (s.count ≠ full)

/-- The entries of a FIFO that codegen can ask for: at least two, at most as
many as the shift register has, and a number that fits in 32 bits. -/
structure Sized (full n : Nat) : Prop where
  two_le : 2 ≤ full
  le : full ≤ n
  lt : full < 2 ^ 32

theorem lt_ptrs (n : Nat) : 2 * n < ptrs n := by
  have h : n ≤ 2 ^ Nat.clog 2 n := le_pow_clog (by decide) n
  have hp : ptrs n = 4 * 2 ^ Nat.clog 2 n := by
    unfold ptrs real_addr_width
    omega
  have hpos : 0 < 2 ^ Nat.clog 2 n := Nat.two_pow_pos _
  omega

variable {k : Nat}

/-- The address of the pointer of `k + 1` words is `k`. -/
theorem addr_of_lt (h : k < n) : addr_of n k = k := by
  have hn : n ≤ 2 ^ Nat.clog 2 n := le_pow_clog (by decide) n
  have hlt : k < 2 ^ real_addr_width n := by
    unfold real_addr_width
    omega
  unfold addr_of
  rw [testBit_lt_two_pow hlt, if_pos rfl, mod_eq_of_lt hlt]

variable {s : SrlCore α n}

omit [Inhabited α] in
theorem count_of_ptr (hk : k ≤ n) (h : s.out_ptr = if k = 0 then ptrs n - 1 else k - 1) :
    s.count = k := by
  have hp := lt_ptrs n
  unfold count out_ptr_plus_one
  rw [h]
  by_cases h0 : k = 0
  · rw [if_pos h0, Nat.sub_add_cancel (by omega), Nat.mod_self, h0]
  · rw [if_neg h0, Nat.sub_add_cancel (by omega), Nat.mod_eq_of_lt (by omega)]

variable {full : Nat}

theorem reset_inv (hs : Sized full n) (s : SrlCore α n) (i : FifoIn α) (hr : i.reset = true) :
    Inv full (step full s i) ∧ (step full s i).count = 0 := by
  have h2 := hs.two_le
  have hc : (step full s i).count = 0 := by
    apply count_of_ptr (zero_le n)
    simp [step, hr]
  refine ⟨⟨by omega, ?_, ?_, ?_⟩, hc⟩
  · rw [hc]; simp [step, hr]
  · rw [hc]; simp [step, hr]
  · rw [hc]
    have : (0 : Nat) ≠ full := by omega
    simp [step, hr, this]

/-- A live edge by what it pushes and pops. A push and a pop in one cycle
leave the pointer and the flags as they are. -/
theorem step_live (full : Nat) (s : SrlCore α n) (i : FifoIn α) (hl : i.Live) :
    step full s i =
      let mem := if s.shift_reg_ce i then s.mem.shiftIn i.if_din else s.mem
      match i.read && s.internal_empty_n, s.shift_reg_ce i with
      | true, false =>
        { out_ptr := s.out_ptr_minus_one
          internal_empty_n := if s.out_ptr = 0 then false else s.internal_empty_n
          internal_full_n := true
          mem }
      | false, true =>
        { out_ptr := s.out_ptr_plus_one
          internal_empty_n := true
          internal_full_n :=
            if s.out_ptr = (full + 2 ^ 32 - 2) % 2 ^ 32 then false else s.internal_full_n
          mem }
      | _, _ => { s with mem } := by
  have hr : i.reset = false := hl
  unfold step shift_reg_ce
  cases i.read <;> cases i.write <;> cases s.internal_empty_n <;> cases s.internal_full_n <;>
    simp [hr]

omit [Inhabited α] in
/-- The flags and the pointer that go with `k` words make the invariant. -/
theorem inv_of (hs : Sized full n) (hk : k ≤ full)
    (hptr : s.out_ptr = if k = 0 then ptrs n - 1 else k - 1)
    (hemp : s.internal_empty_n = decide (k ≠ 0)) (hful : s.internal_full_n = decide (k ≠ full)) :
    Inv full s ∧ s.count = k := by
  have hc : s.count = k := count_of_ptr (le_trans hk hs.le) hptr
  exact ⟨⟨by omega, by rw [hc]; exact hptr, by rw [hc]; exact hemp, by rw [hc]; exact hful⟩, hc⟩

omit [Inhabited α] in
theorem Inv.pop_ne {i : FifoIn α} (h : Inv full s) (ho : (i.read && s.internal_empty_n) = true) :
    s.count ≠ 0 := by
  rw [and_eq_true, h.empty, decide_eq_true_eq] at ho
  exact ho.2

omit [Inhabited α] in
theorem Inv.push_ne {i : FifoIn α} (h : Inv full s) (hc : s.shift_reg_ce i = true) :
    s.count ≠ full := by
  rw [shift_reg_ce, and_eq_true, h.full, decide_eq_true_eq] at hc
  exact hc.2

/-- The count after one live edge goes up with a push and down with a pop. -/
theorem step_inv (hs : Sized full n) (s : SrlCore α n) (i : FifoIn α) (h : Inv full s)
    (hl : i.Live) :
    Inv full (step full s i) ∧ (step full s i).count =
      s.count + (s.shift_reg_ce i).toNat - (i.read && s.internal_empty_n).toNat := by
  have hp := lt_ptrs n
  have h2 := hs.two_le
  have hn := hs.le
  have h32 := hs.lt
  have hpop := h.pop_ne (i := i)
  have hpush := h.push_ne (i := i)
  obtain ⟨hle, hptr, hemp, hful⟩ := h
  -- `full - 2` never wraps, and the pointer of an empty FIFO never equals it.
  have hm : (full + 2 ^ 32 - 2) % 2 ^ 32 = full - 2 := by omega
  rw [step_live full s i hl]
  generalize s.count = k at *
  cases ho : i.read && s.internal_empty_n <;> cases hc : s.shift_reg_ce i
  · exact inv_of hs hle hptr hemp hful
  · have hk := hpush hc
    apply inv_of hs
    · simp only [toNat_true, toNat_false]; omega
    · simp only [out_ptr_plus_one, hptr]
      by_cases h0 : k = 0
      · subst h0
        rw [if_pos rfl, Nat.sub_add_cancel (by omega)]
        simp
      · rw [if_neg h0, Nat.sub_add_cancel (by omega), Nat.mod_eq_of_lt (by omega)]
        simp
    · simp
    · simp only [hm, hptr, hful, hk, ne_eq, not_false_eq_true, decide_true]
      by_cases h0 : k = 0
      · subst h0
        simp; omega
      rw [if_neg h0]
      by_cases hlast : k + 1 = full
      · rw [if_pos (by omega)]; simp [hlast]
      · rw [if_neg (by omega)]; simp [hlast]
  · have hk := hpop ho
    apply inv_of hs
    · simp only [toNat_true, toNat_false]; omega
    · simp only [out_ptr_minus_one, hptr, if_neg hk]
      by_cases h1 : k = 1
      · subst h1
        simp
      have : k - 1 + ptrs n - 1 = (k - 2) + ptrs n := by omega
      rw [this, add_mod_right, mod_eq_of_lt (by omega)]
      rw [if_neg (by simp; omega)]
      simp; omega
    · simp only [hptr, if_neg hk, hemp]
      by_cases h1 : k = 1
      · subst h1; simp
      · rw [if_neg (by omega)]; simp; omega
    · simp; omega
  · exact inv_of hs hle hptr hemp hful

/-- The words after one live edge: a pop takes the oldest off, at the pointer,
and a push puts the new one on. -/
theorem step_words (hs : Sized full n) (s : SrlCore α n) (i : FifoIn α) (h : Inv full s)
    (hl : i.Live) :
    s.words ++ emit (s.shift_reg_ce i) i.if_din =
      emit (i.read && s.internal_empty_n) (s.mem.read (s.count - 1)) ++ (step full s i).words := by
  have hmem : (step full s i).mem = if s.shift_reg_ce i then s.mem.shiftIn i.if_din else s.mem := by
    rw [step_live full s i hl]
    cases i.read && s.internal_empty_n <;> cases s.shift_reg_ce i <;> rfl
  unfold words
  rw [(step_inv hs s i h hl).2, hmem]
  apply shiftWords_step
  · intro hc
    have := h.push_ne hc
    have := h.le
    have := hs.le
    omega
  · intro ho
    have := h.pop_ne ho
    omega

/-- The word at the pointer is the oldest one. -/
theorem Inv.read_addr (hs : Sized full n) (h : Inv full s) (h0 : s.count ≠ 0) :
    s.mem.read (addr_of n s.out_ptr) = s.mem.read (s.count - 1) := by
  have := h.le
  have := hs.le
  rw [h.ptr, if_neg h0, addr_of_lt (by omega)]

end SrlCore

/-! ## `fifo_srl` -/

def srl_real_depth (DEPTH : Nat) : Nat := if DEPTH < 4 then 4 else DEPTH

abbrev fifo_srl (α : Type) (DEPTH : Nat) := SrlCore α (srl_real_depth DEPTH)

namespace fifo_srl

variable {DEPTH : Nat}

section

variable (s : fifo_srl α DEPTH)

def if_full_n : Bool := s.internal_full_n

def if_empty_n : Bool := s.internal_empty_n

/-- The address comes straight from the pointer. -/
def shift_reg_addr : Nat := SrlCore.addr_of (srl_real_depth DEPTH) s.out_ptr

def if_dout : α := s.mem.read (shift_reg_addr s)

/-- One clock edge. The pointer is compared with `DEPTH - 2`, so the FIFO holds
`DEPTH` words also when its shift register has more entries. -/
def step (i : FifoIn α) : fifo_srl α DEPTH := SrlCore.step DEPTH s i

end

def rtl (α : Type) [Inhabited α] (DEPTH : Nat) : FifoModule α where
  State := fifo_srl α DEPTH
  step := step
  if_full_n := if_full_n
  if_empty_n := fun s _ => if_empty_n s
  if_dout := fun s _ => if_dout s
  stored := SrlCore.shift_reg_ce

theorem sized (h2 : 2 ≤ DEPTH) (h : DEPTH < 2 ^ 32) :
    SrlCore.Sized DEPTH (srl_real_depth DEPTH) where
  two_le := h2
  le := by unfold srl_real_depth; split <;> omega
  lt := h

theorem queueLaw (h2 : 2 ≤ DEPTH) (h : DEPTH < 2 ^ 32) :
    QueueLaw step FifoIn.Live (SrlCore.Inv DEPTH) SrlCore.words
      (rtl α DEPTH).taken (rtl α DEPTH).given where
  keep := fun s i hi hl => (SrlCore.step_inv (sized h2 h) s i hi hl).1
  flow := by
    intro s i hi hl
    simp only [FifoModule.taken, FifoModule.given, rtl]
    rw [SrlCore.step_words (sized h2 h) s i hi hl]
    unfold if_empty_n if_dout shift_reg_addr
    cases ho : i.read && s.internal_empty_n
    · rfl
    · rw [hi.read_addr (sized h2 h) (hi.pop_ne ho)]
      rfl

def isQueue (h2 : 2 ≤ DEPTH) (h : DEPTH < 2 ^ 32) : (rtl α DEPTH).IsQueue where
  inv := SrlCore.Inv DEPTH
  words := SrlCore.words
  law := queueLaw h2 h
  reset_inv := fun s i hr => (SrlCore.reset_inv (sized h2 h) s i hr).1
  given_blind := fun _ _ => rfl
  taken_blind := fun _ _ => rfl

theorem isQueue_clears (h2 : 2 ≤ DEPTH) (h : DEPTH < 2 ^ 32) :
    (isQueue h2 h : (rtl α DEPTH).IsQueue).Clears := by
  intro s i hr
  have hc := (SrlCore.reset_inv (sized h2 h) s i hr).2
  show shiftWords _ (SrlCore.step DEPTH s i).count = []
  rw [hc]
  rfl

end fifo_srl

/-! ## `fifo_bram` -/

/-- The registers of `fifo_bram`, and of `fifo_bram_almost_full`, whose always
blocks are the same. -/
structure fifo_bram (α : Type) (DEPTH ADDR_WIDTH : Nat) where
  mem : Mem α DEPTH
  q_buf : α
  waddr : Nat
  raddr : Nat
  used : Nat
  full_n : Bool
  empty_n : Bool
  q_tmp : α
  show_ahead : Bool
  dout_buf : α
  dout_valid : Bool

namespace fifo_bram

variable {DEPTH ADDR_WIDTH : Nat}

/-- `DEPTH[ADDR_WIDTH-1:0] - 1'd1`, which wraps for a depth of `2 ^ ADDR_WIDTH`. -/
def DepthM1 (DEPTH ADDR_WIDTH : Nat) : Nat :=
  (DEPTH % 2 ^ ADDR_WIDTH + 2 ^ ADDR_WIDTH - 1) % 2 ^ ADDR_WIDTH

section

variable (s : fifo_bram α DEPTH ADDR_WIDTH)

def push (i : FifoIn α) : Bool :=
  s.full_n && i.if_write_ce && i.if_write

def pop (i : FifoIn α) : Bool :=
  s.empty_n && i.if_read_ce && (!s.dout_valid || i.if_read)

/-- The next address of a port that moves on when `go` is high. -/
def next_addr (DEPTH ADDR_WIDTH a : Nat) (go : Bool) : Nat :=
  if !go then a else if a = DepthM1 DEPTH ADDR_WIDTH then 0 else (a + 1) % 2 ^ ADDR_WIDTH

def wnext (i : FifoIn α) : Nat :=
  next_addr DEPTH ADDR_WIDTH s.waddr (s.push i)

def rnext (i : FifoIn α) : Nat :=
  next_addr DEPTH ADDR_WIDTH s.raddr (s.pop i)

def if_full_n : Bool := s.full_n

def if_empty_n : Bool := s.dout_valid

def if_dout : α := s.dout_buf

/-- One clock edge. The read of `mem` into `q_buf` sees the words from before
the edge, so a word pushed into an empty memory comes back through `q_tmp`. -/
def step (i : FifoIn α) : fifo_bram α DEPTH ADDR_WIDTH where
  waddr := if i.reset then 0 else s.wnext i
  raddr := if i.reset then 0 else s.rnext i
  used :=
    if i.reset then 0
    else if s.push i && !s.pop i then (s.used + 1) % 2 ^ ADDR_WIDTH
    else if !s.push i && s.pop i then (s.used + 2 ^ ADDR_WIDTH - 1) % 2 ^ ADDR_WIDTH
    else s.used
  full_n :=
    if i.reset then true
    else if s.push i && !s.pop i then decide (s.used ≠ DepthM1 DEPTH ADDR_WIDTH)
    else if !s.push i && s.pop i then true
    else s.full_n
  empty_n :=
    if i.reset then false
    else if s.push i && !s.pop i then true
    else if !s.push i && s.pop i then decide (s.used ≠ 1)
    else s.empty_n
  mem := if s.push i then s.mem.write s.waddr i.if_din else s.mem
  q_buf := s.mem.read (s.rnext i)
  q_tmp := if i.reset then default else if s.push i then i.if_din else s.q_tmp
  show_ahead := if i.reset then false else s.push i && decide (s.used = (s.pop i).toNat)
  dout_buf :=
    if i.reset then default
    else if s.pop i then (if s.show_ahead then s.q_tmp else s.q_buf) else s.dout_buf
  dout_valid :=
    if i.reset then false
    else if s.pop i then true
    else if i.if_read_ce && i.if_read then false
    else s.dout_valid

/-- The words in the memory. A full memory of `2 ^ ADDR_WIDTH` words has `used = 0`. -/
def count : Nat := if s.full_n then s.used else DEPTH

/-- The word that a pop takes out of the memory. -/
def front : α := if s.show_ahead then s.q_tmp else s.q_buf

def words : List α :=
  emit s.dout_valid s.dout_buf ++ ringWords s.mem s.raddr s.count

end

def rtl (α : Type) [Inhabited α] (DEPTH ADDR_WIDTH : Nat) : FifoModule α where
  State := fifo_bram α DEPTH ADDR_WIDTH
  step := step
  if_full_n := if_full_n
  if_empty_n := fun s _ => s.if_empty_n
  if_dout := fun s _ => s.if_dout
  stored := push

/-- The counter and the flags tell the number of words in the memory, the write
address follows from it, and the word read ahead is the first of them. -/
structure Inv (s : fifo_bram α DEPTH ADDR_WIDTH) : Prop where
  le : s.count ≤ DEPTH
  used : s.used = s.count % 2 ^ ADDR_WIDTH
  full : s.full_n = decide (s.count ≠ DEPTH)
  empty : s.empty_n = decide (s.count ≠ 0)
  raddr_lt : s.raddr < DEPTH
  waddr_eq : s.waddr = (s.raddr + s.count) % DEPTH
  ahead : s.count ≠ 0 → s.front = s.mem.read s.raddr

/-- The depths that codegen can ask for: a word or more, and an address for each, which has a
bit also for one word. -/
structure Sized (DEPTH ADDR_WIDTH : Nat) : Prop where
  one_le : 1 ≤ DEPTH
  le : DEPTH ≤ 2 ^ ADDR_WIDTH
  two_le : 2 ≤ 2 ^ ADDR_WIDTH

theorem Sized.of_two_le (h2 : 2 ≤ DEPTH) (hle : DEPTH ≤ 2 ^ ADDR_WIDTH) :
    Sized DEPTH ADDR_WIDTH :=
  ⟨by omega, hle, h2.trans hle⟩

theorem depthM1_eq (hs : Sized DEPTH ADDR_WIDTH) : DepthM1 DEPTH ADDR_WIDTH = DEPTH - 1 := by
  obtain ⟨h1, hle, -⟩ := hs
  unfold DepthM1
  generalize 2 ^ ADDR_WIDTH = M at *
  rcases lt_or_eq_of_le hle with h | h
  · have : DEPTH + M - 1 = (DEPTH - 1) + M := by omega
    rw [mod_eq_of_lt h, this, add_mod_right, mod_eq_of_lt (by omega)]
  · subst h
    rw [mod_self, mod_eq_of_lt (by omega)]
    omega

variable {s : fifo_bram α DEPTH ADDR_WIDTH} {i : FifoIn α}

/-- A word is at the output, or it is still in the memory and moves to the free output. -/
theorem Inv.shown (h : Inv s) (hlive : i.reset = false) (hce : i.if_read_ce = true)
    (hsome : s.words ≠ []) :
    s.dout_valid = true ∨ (s.step i).dout_valid = true := by
  cases hvalid : s.dout_valid with
  | true => exact .inl rfl
  | false =>
    have hcount : s.count ≠ 0 := fun hzero => hsome (by simp [words, hvalid, hzero])
    have hpop : s.pop i = true := by simp [pop, h.empty, hcount, hvalid, hce]
    exact .inr (by simp [step, hlive, hpop])

/-- A port that moves on goes to the next address of the ring. -/
theorem next_addr_eq (hs : Sized DEPTH ADDR_WIDTH) {a : Nat} (ha : a < DEPTH) (go : Bool) :
    next_addr DEPTH ADDR_WIDTH a go = if go then (a + 1) % DEPTH else a := by
  have hle := hs.le
  unfold next_addr
  rw [depthM1_eq hs]
  cases go with
  | false => rfl
  | true =>
    simp only [Bool.not_true, Bool.false_eq_true, if_false, if_true]
    by_cases hlast : a = DEPTH - 1
    · rw [if_pos hlast, hlast, Nat.sub_add_cancel (by omega), Nat.mod_self]
    · rw [if_neg hlast, mod_eq_of_lt (by omega), mod_eq_of_lt (by omega)]

omit [Inhabited α] in
theorem count_of (hs : Sized DEPTH ADDR_WIDTH) {k : Nat} (hk : k ≤ DEPTH)
    (hu : s.used = k % 2 ^ ADDR_WIDTH) (hf : s.full_n = decide (k ≠ DEPTH)) :
    s.count = k := by
  have hle := hs.le
  unfold count
  rw [hf, hu]
  by_cases h : k = DEPTH
  · simp [h]
  · rw [if_pos (by simpa using h), mod_eq_of_lt (by omega)]

theorem Inv.push_ne (h : Inv s) (hp : s.push i = true) : s.count ≠ DEPTH := by
  rw [push, and_eq_true, and_eq_true, h.full, decide_eq_true_eq] at hp
  exact hp.1.1

theorem Inv.pop_ne (h : Inv s) (ho : s.pop i = true) : s.count ≠ 0 := by
  rw [pop, and_eq_true, and_eq_true, h.empty, decide_eq_true_eq] at ho
  exact ho.1.1

section

variable (hs : Sized DEPTH ADDR_WIDTH)
include hs

section

variable (s : fifo_bram α DEPTH ADDR_WIDTH) (i : FifoIn α)

theorem reset_inv (hr : i.reset = true) : Inv (s.step i) ∧ (s.step i).words = [] := by
  have h1 := hs.one_le
  have hd : (0 : Nat) ≠ DEPTH := by omega
  have hc : (s.step i).count = 0 := by simp [count, step, hr]
  refine ⟨⟨by omega, ?_, ?_, ?_, ?_, ?_, ?_⟩, ?_⟩
  · rw [hc]; simp [step, hr]
  · rw [hc]; simp [step, hr, hd]
  · rw [hc]; simp [step, hr]
  · simp only [step, hr, if_true]; omega
  · rw [hc]; simp [step, hr]
  · intro h; exact absurd hc h
  · unfold words
    rw [hc]
    simp [step, hr]

/-- The counter and the flags after one live edge. -/
theorem step_count (h : Inv s) (hl : i.Live) (k : Nat)
    (hk : k = s.count + (s.push i).toNat - (s.pop i).toNat) :
    k ≤ DEPTH ∧ (s.step i).used = k % 2 ^ ADDR_WIDTH ∧
      (s.step i).full_n = decide (k ≠ DEPTH) ∧ (s.step i).empty_n = decide (k ≠ 0) := by
  have h2 := hs.two_le
  have hle := hs.le
  have hr : i.reset = false := hl
  have hp := h.push_ne (i := i)
  have ho := h.pop_ne (i := i)
  have hdm := depthM1_eq hs
  obtain ⟨hk1, hu, hf, he, -, -, -⟩ := h
  simp only [step, hr, Bool.false_eq_true, if_false, hdm, hu, hf, he]
  generalize s.count = c at *
  generalize 2 ^ ADDR_WIDTH = M at *
  cases hpush : s.push i <;> cases hpop : s.pop i
  · simp only [hpush, hpop, Bool.toNat_false, Nat.add_zero, Nat.sub_zero] at hk
    subst hk
    exact ⟨hk1, by simp, by simp, by simp⟩
  · have hc := ho hpop
    simp only [hpush, hpop, Bool.toNat_true, Bool.toNat_false] at hk
    subst hk
    refine ⟨by omega, ?_, by simp; omega, ?_⟩
    · simp only [Bool.not_true, Bool.false_eq_true, if_false, Bool.not_false, Bool.and_self,
        if_true, add_zero]
      rcases lt_or_eq_of_le (le_trans hk1 hle) with hlt | heq
      · have : c + M - 1 = (c - 1) + M := by omega
        rw [mod_eq_of_lt hlt, this, add_mod_right]
      · subst heq
        rw [mod_self, zero_add]
    · simp only [Bool.not_true, Bool.false_eq_true, if_false, Bool.not_false, Bool.and_self,
        if_true, add_zero]
      congr 1
      rcases lt_or_eq_of_le (le_trans hk1 hle) with hlt | heq
      · rw [mod_eq_of_lt hlt]
        exact propext ⟨fun h => by omega, fun h => by omega⟩
      · subst heq
        rw [mod_self]
        exact propext ⟨fun _ => by omega, fun _ => by omega⟩
  · have hc := hp hpush
    simp only [hpush, hpop, Bool.toNat_true, Bool.toNat_false] at hk
    subst hk
    refine ⟨by omega, by simp, ?_, by simp⟩
    simp only [Bool.not_false, Bool.and_self, if_true, mod_eq_of_lt (by omega : c < M)]
    congr 1
    exact propext ⟨fun h => by omega, fun h => by omega⟩
  · simp only [hpush, hpop, Bool.toNat_true, Nat.add_sub_cancel] at hk
    subst hk
    exact ⟨hk1, by simp, by simp, by simp⟩

/-- The invariant after one live edge, and the count that goes up with a push
and down with a pop. -/
theorem step_inv (h : Inv s) (hl : i.Live) :
    Inv (s.step i) ∧ (s.step i).count = s.count + (s.push i).toNat - (s.pop i).toNat := by
  have hr : i.reset = false := hl
  obtain ⟨hk, hu, hf, he⟩ := step_count hs s i h hl _ rfl
  have hc := count_of hs hk hu hf
  have hpos := h.raddr_lt
  have hp := h.push_ne (i := i)
  have ho := h.pop_ne (i := i)
  have hraddr : (s.step i).raddr = (s.raddr + (s.pop i).toNat) % DEPTH := by
    simp only [step, hr, rnext, next_addr_eq hs hpos, Bool.false_eq_true, if_false]
    cases s.pop i
    · simp [mod_eq_of_lt hpos]
    · simp
  have hwaddr : (s.step i).waddr = (s.raddr + s.count + (s.push i).toNat) % DEPTH := by
    have hw : s.waddr < DEPTH := by rw [h.waddr_eq]; exact mod_lt _ (by omega)
    simp only [step, hr, wnext, next_addr_eq hs hw, Bool.false_eq_true, if_false]
    rw [h.waddr_eq]
    cases s.push i <;> simp
  refine ⟨⟨by rw [hc]; exact hk, by rw [hc]; exact hu, by rw [hc]; exact hf,
    by rw [hc]; exact he, by rw [hraddr]; exact mod_lt _ (by omega), ?_, ?_⟩, hc⟩
  · rw [hc, hwaddr, hraddr, mod_add_mod]
    congr 1
    cases hpop : s.pop i
    · simp; omega
    · have := ho hpop
      simp only [Bool.toNat_true]
      omega
  · intro _
    rw [hraddr]
    have hrn : s.rnext i = (s.raddr + (s.pop i).toNat) % DEPTH := by
      rw [← hraddr]; simp [step, hr]
    cases hpush : s.push i with
    | false => simp [front, step, hr, hpush, hrn]
    | true =>
      have hlt : s.count < DEPTH := by have := hp hpush; have := h.le; omega
      have hus : s.used = s.count := by
        rw [h.used, mod_eq_of_lt (lt_of_lt_of_le hlt hs.le)]
      by_cases heq : s.count = (s.pop i).toNat
      · -- The pushed word is the next one out.
        have haddr : s.waddr = (s.raddr + (s.pop i).toNat) % DEPTH := by rw [h.waddr_eq, heq]
        simp only [front, step, hr, hpush, hus, heq, Bool.false_eq_true, if_false, if_true,
          decide_true, Bool.and_self]
        rw [haddr, read_write_self _ _ _ (mod_lt _ (by omega))]
      · have hne : (s.raddr + (s.pop i).toNat) % DEPTH ≠ s.waddr := by
          rw [h.waddr_eq]
          apply ring_addr_ne _ hlt
          cases hpop : s.pop i
          · simp [hpop] at heq ⊢; omega
          · have := ho hpop
            simp [hpop] at heq ⊢; omega
        simp only [front, step, hr, hpush, hus, heq, Bool.false_eq_true, if_false, if_true,
          decide_false, Bool.and_false]
        rw [hrn, read_write_ne _ _ _ _ hne]

/-- The words in the memory after one live edge. -/
theorem step_ring (h : Inv s) (hl : i.Live) :
    ringWords s.mem s.raddr s.count ++ emit (s.push i) i.if_din =
      emit (s.pop i) s.front ++ ringWords (s.step i).mem (s.step i).raddr (s.step i).count := by
  have hr : i.reset = false := hl
  have hp := h.push_ne (i := i)
  have ho := h.pop_ne (i := i)
  have hle := h.le
  have hfront : emit (s.pop i) s.front = emit (s.pop i) (s.mem.read s.raddr) := by
    cases hpop : s.pop i
    · rfl
    · rw [h.ahead (ho hpop)]
  rw [hfront, (step_inv hs s i h hl).2]
  have hstep := ringWords_step s.mem i.if_din s.raddr s.count (s.push i) (s.pop i) h.raddr_lt
    (fun hpush => by have := hp hpush; omega) (fun hpop => by have := ho hpop; omega)
  rw [hstep, ← h.waddr_eq]
  simp [step, hr, rnext, next_addr_eq hs h.raddr_lt, false_eq_true]

end

end

omit [Inhabited α] in
/-- The output register gives its word when it is read and takes the popped
word, which comes only when it is free or read. -/
theorem output_register (valid empty_n ce read : Bool) (x y : α) :
    emit valid x ++ emit (empty_n && ce && (!valid || read)) y =
      emit (read && ce && valid) x ++
        emit (if (empty_n && ce && (!valid || read)) = true then true
          else if (ce && read) = true then false else valid)
          (if (empty_n && ce && (!valid || read)) = true then y else x) := by
  cases valid <;> cases empty_n <;> cases ce <;> cases read <;> rfl

theorem queueLaw (hs : Sized DEPTH ADDR_WIDTH) :
    QueueLaw step FifoIn.Live Inv words (rtl α DEPTH ADDR_WIDTH).taken
      (rtl α DEPTH ADDR_WIDTH).given where
  keep := fun s i hi hl => (step_inv hs s i hi hl).1
  flow := by
    intro s i hi hl
    have hr : i.reset = false := hl
    simp only [FifoModule.taken, FifoModule.given, rtl]
    unfold words
    rw [List.append_assoc, step_ring hs s i hi hl]
    simp only [← List.append_assoc]
    congr 1
    simp only [step, hr, if_empty_n, if_dout, front, pop, FifoIn.read, false_eq_true, if_false]
    exact output_register _ _ _ _ _ _

def isQueue (hs : Sized DEPTH ADDR_WIDTH) : (rtl α DEPTH ADDR_WIDTH).IsQueue where
  inv := Inv
  words := words
  law := queueLaw hs
  reset_inv := fun s i hr => (reset_inv hs s i hr).1
  given_blind := fun _ _ => rfl
  taken_blind := fun _ _ => rfl

theorem isQueue_clears (hs : Sized DEPTH ADDR_WIDTH) :
    (isQueue hs : (rtl α DEPTH ADDR_WIDTH).IsQueue).Clears :=
  fun s i hr => (reset_inv hs s i hr).2

end fifo_bram

/-! ## `fifo` -/

/-- The storage that `fifo` generates from its parameters. The two block RAM
branches differ only in the style of the memory. -/
def fifo (DATA_WIDTH ADDR_WIDTH DEPTH : Nat) : FifoModule (BitVec DATA_WIDTH) :=
  if DEPTH = 1 then fifo_fwd.rtl (BitVec DATA_WIDTH)
  else if 36 ≤ DATA_WIDTH ∧ 4096 ≤ DEPTH then fifo_bram.rtl (BitVec DATA_WIDTH) DEPTH ADDR_WIDTH
  else if 128 ≤ DEPTH then fifo_bram.rtl (BitVec DATA_WIDTH) DEPTH ADDR_WIDTH
  else fifo_srl.rtl (BitVec DATA_WIDTH) DEPTH

end Tapa.Rtl
