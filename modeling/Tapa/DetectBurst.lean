-- The burst detector `detect_burst`. It merges consecutive addresses into
-- bursts. As a queue of addresses it gives the expanded bursts, so that it
-- neither loses, repeats, moves nor makes up an address.
import Tapa.Clock

namespace Tapa.Rtl

open Clock

variable {AddrWidth DataWidthBytesLog WaitTimeWidth BurstLenWidth : Nat}

/-! ## The module -/

structure detect_burst (AddrWidth DataWidthBytesLog WaitTimeWidth BurstLenWidth : Nat) where
  base_addr : BitVec AddrWidth
  base_valid : Bool
  burst_len : BitVec BurstLenWidth
  wait_time : BitVec WaitTimeWidth
  next_addr : BitVec (AddrWidth - DataWidthBytesLog)
  addr_empty_n_q : Bool
  addr_dout_q : BitVec AddrWidth

/-- The input ports of `detect_burst` in one cycle. -/
structure BurstIn (AddrWidth WaitTimeWidth BurstLenWidth : Nat) where
  rst : Bool
  max_wait_time : BitVec WaitTimeWidth
  max_burst_len : BitVec BurstLenWidth
  addr_dout : BitVec AddrWidth
  addr_empty_n : Bool
  addr_full_n : Bool
  burst_len_0_full_n : Bool
  burst_len_1_full_n : Bool

/-- No output is full. -/
def BurstIn.unblocked (i : BurstIn AddrWidth WaitTimeWidth BurstLenWidth) : Bool :=
  i.addr_full_n && i.burst_len_0_full_n && i.burst_len_1_full_n

/-- The address of a word: the bits above those of its bytes. -/
def word_addr (DataWidthBytesLog : Nat) (addr : BitVec AddrWidth) :
    BitVec (AddrWidth - DataWidthBytesLog) :=
  addr.extractLsb' DataWidthBytesLog (AddrWidth - DataWidthBytesLog)

namespace detect_burst

/-- The values that the combinational block computes. -/
structure Next (AddrWidth WaitTimeWidth BurstLenWidth : Nat) where
  write_enable : Bool
  base_addr_next : BitVec AddrWidth
  base_valid_next : Bool
  burst_len_next : BitVec BurstLenWidth
  wait_time_next : BitVec WaitTimeWidth

section

variable (s : detect_burst AddrWidth DataWidthBytesLog WaitTimeWidth BurstLenWidth)

def curr_addr : BitVec AddrWidth := s.addr_dout_q

section

variable (i : BurstIn AddrWidth WaitTimeWidth BurstLenWidth)

/-- The address goes on the pending burst: it is the next one, it starts no page
of 4096 bytes, and the burst is not at its limit. -/
def extends_burst : Bool :=
  decide (s.next_addr = word_addr DataWidthBytesLog s.curr_addr) &&
    decide (s.curr_addr.extractLsb' 0 12 ≠ 0) && decide (s.burst_len < i.max_burst_len)

def next : Next AddrWidth WaitTimeWidth BurstLenWidth :=
  if !i.unblocked then ⟨false, s.base_addr, s.base_valid, s.burst_len, s.wait_time⟩
  else if s.addr_empty_n_q then
    if !s.base_valid then ⟨false, s.curr_addr, true, s.burst_len, 0⟩
    else if s.extends_burst i then ⟨false, s.base_addr, s.base_valid, s.burst_len + 1, 0⟩
    else ⟨true, s.curr_addr, s.base_valid, 0, 0⟩
  else if s.base_valid then
    if s.wait_time < i.max_wait_time then
      ⟨false, s.base_addr, s.base_valid, s.burst_len, s.wait_time + 1⟩
    else ⟨true, s.base_addr, false, 0, 0⟩
  else ⟨false, s.base_addr, s.base_valid, s.burst_len, s.wait_time⟩

def addr_read : Bool :=
  if !i.unblocked then false else i.addr_empty_n

def write_enable : Bool :=
  (s.next i).write_enable

/-- The word address after a burst of `burst_len + 1` words. -/
def after_burst (DataWidthBytesLog : Nat) (base_addr : BitVec AddrWidth)
    (burst_len : BitVec BurstLenWidth) : BitVec (AddrWidth - DataWidthBytesLog) :=
  word_addr DataWidthBytesLog base_addr + burst_len.setWidth (AddrWidth - DataWidthBytesLog) + 1

/-- One clock edge. The registers of the input have no reset. -/
def step : detect_burst AddrWidth DataWidthBytesLog WaitTimeWidth BurstLenWidth where
  base_addr := if i.rst then 0 else (s.next i).base_addr_next
  base_valid := if i.rst then false else (s.next i).base_valid_next
  burst_len := if i.rst then 0 else (s.next i).burst_len_next
  wait_time := if i.rst then 0 else (s.next i).wait_time_next
  next_addr :=
    if i.rst then 1
    else after_burst DataWidthBytesLog (s.next i).base_addr_next (s.next i).burst_len_next
  addr_empty_n_q := if i.unblocked then i.addr_empty_n else s.addr_empty_n_q
  addr_dout_q := if i.unblocked then i.addr_dout else s.addr_dout_q

/-! ## The addresses of a burst -/

/-- The addresses of a burst of `len + 1` words. -/
def expand (DataWidthBytesLog : Nat) (base : BitVec AddrWidth) (len : BitVec BurstLenWidth) :
    List (BitVec AddrWidth) :=
  (List.range (len.toNat + 1)).map fun k =>
    base + BitVec.ofNat AddrWidth (k * 2 ^ DataWidthBytesLog)

/-- An address of a whole word. -/
def Aligned (DataWidthBytesLog : Nat) (addr : BitVec AddrWidth) : Prop :=
  addr.toNat % 2 ^ DataWidthBytesLog = 0

theorem expand_zero (base : BitVec AddrWidth) :
    expand DataWidthBytesLog base (BitVec.ofNat BurstLenWidth 0) = [base] := by
  simp [expand]

/-- A length below its limit grows without a wrap. -/
theorem toNat_succ {len limit : BitVec BurstLenWidth} (h : len < limit) :
    (len + BitVec.ofNat BurstLenWidth 1).toNat = len.toNat + 1 := by
  have hlt : len.toNat < limit.toNat := h
  rw [BitVec.toNat_add, BitVec.toNat_ofNat, Nat.add_mod_mod, Nat.mod_eq_of_lt (by omega)]

theorem expand_succ (base : BitVec AddrWidth) {len limit : BitVec BurstLenWidth}
    (h : len < limit) :
    expand DataWidthBytesLog base (len + BitVec.ofNat BurstLenWidth 1) =
      expand DataWidthBytesLog base len ++
        [base + BitVec.ofNat AddrWidth ((len.toNat + 1) * 2 ^ DataWidthBytesLog)] := by
  unfold expand
  rw [toNat_succ h, List.range_succ, List.map_append]
  rfl

theorem toNat_word_addr (h : DataWidthBytesLog ≤ AddrWidth) (addr : BitVec AddrWidth) :
    (word_addr DataWidthBytesLog addr).toNat = addr.toNat / 2 ^ DataWidthBytesLog := by
  unfold word_addr
  rw [BitVec.extractLsb'_toNat, Nat.shiftRight_eq_div_pow]
  apply Nat.mod_eq_of_lt
  apply Nat.div_lt_of_lt_mul
  rw [← Nat.pow_add, Nat.add_sub_cancel' h]
  exact addr.isLt

/-- The aligned address whose word address comes `k` after that of `base`. -/
theorem eq_add_of_word_addr {base curr : BitVec AddrWidth} {k : Nat}
    (hb : Aligned DataWidthBytesLog base) (hc : Aligned DataWidthBytesLog curr)
    (hne : curr ≠ 0)
    (h : word_addr DataWidthBytesLog base + BitVec.ofNat (AddrWidth - DataWidthBytesLog) k =
      word_addr DataWidthBytesLog curr) :
    base + BitVec.ofNat AddrWidth (k * 2 ^ DataWidthBytesLog) = curr := by
  have hwide : DataWidthBytesLog ≤ AddrWidth := by
    by_contra hnot
    have hlt : curr.toNat < 2 ^ DataWidthBytesLog :=
      Nat.lt_trans curr.isLt (Nat.pow_lt_pow_right (by decide) (by omega))
    unfold Aligned at hc
    rw [Nat.mod_eq_of_lt hlt] at hc
    exact hne (BitVec.eq_of_toNat_eq hc)
  have hpow : 2 ^ AddrWidth = 2 ^ (AddrWidth - DataWidthBytesLog) * 2 ^ DataWidthBytesLog := by
    rw [← Nat.pow_add, Nat.sub_add_cancel hwide]
  have hnat := congrArg BitVec.toNat h
  rw [BitVec.toNat_add, toNat_word_addr hwide, toNat_word_addr hwide, BitVec.toNat_ofNat,
    Nat.add_mod_mod] at hnat
  apply BitVec.eq_of_toNat_eq
  rw [BitVec.toNat_add, BitVec.toNat_ofNat, Nat.add_mod_mod]
  calc (base.toNat + k * 2 ^ DataWidthBytesLog) % 2 ^ AddrWidth
      = ((base.toNat / 2 ^ DataWidthBytesLog + k) * 2 ^ DataWidthBytesLog) % 2 ^ AddrWidth := by
        rw [Nat.add_mul, Nat.div_mul_cancel (Nat.dvd_of_mod_eq_zero hb)]
    _ = (base.toNat / 2 ^ DataWidthBytesLog + k) % 2 ^ (AddrWidth - DataWidthBytesLog) *
          2 ^ DataWidthBytesLog := by
        rw [hpow, Nat.mul_mod_mul_right]
    _ = curr.toNat := by
        rw [hnat, Nat.div_mul_cancel (Nat.dvd_of_mod_eq_zero hc)]

/-! ## The detector as a queue -/

def pending : List (BitVec AddrWidth) :=
  if s.base_valid then expand DataWidthBytesLog s.base_addr s.burst_len else []

def registered : List (BitVec AddrWidth) :=
  emit s.addr_empty_n_q s.addr_dout_q

def words : List (BitVec AddrWidth) :=
  s.pending ++ s.registered

/-- The address that the detector reads in a cycle. -/
def reads (_ : detect_burst AddrWidth DataWidthBytesLog WaitTimeWidth BurstLenWidth)
    (i : BurstIn AddrWidth WaitTimeWidth BurstLenWidth) : List (BitVec AddrWidth) :=
  emit (addr_read i) i.addr_dout

/-- The addresses of the burst that the detector writes in a cycle. -/
def emits : List (BitVec AddrWidth) :=
  if s.write_enable i then expand DataWidthBytesLog s.base_addr s.burst_len else []

end

end

/-- A cycle with the reset low, whose address, if there is one, is that of a word. -/
def Live (DataWidthBytesLog : Nat) (i : BurstIn AddrWidth WaitTimeWidth BurstLenWidth) : Prop :=
  i.rst = false ∧ (i.addr_empty_n = true → Aligned DataWidthBytesLog i.addr_dout)

structure Inv (s : detect_burst AddrWidth DataWidthBytesLog WaitTimeWidth BurstLenWidth) :
    Prop where
  next_addr : s.next_addr = after_burst DataWidthBytesLog s.base_addr s.burst_len
  no_base : s.base_valid = false → s.burst_len = 0
  base : s.base_valid = true → Aligned DataWidthBytesLog s.base_addr
  input : s.addr_empty_n_q = true → Aligned DataWidthBytesLog s.addr_dout_q

variable {s : detect_burst AddrWidth DataWidthBytesLog WaitTimeWidth BurstLenWidth}
  {i : BurstIn AddrWidth WaitTimeWidth BurstLenWidth}

/-- What an address that goes on the pending burst has passed. -/
theorem extends_burst_iff : s.extends_burst i = true ↔
    s.next_addr = word_addr DataWidthBytesLog s.addr_dout_q ∧ s.addr_dout_q.extractLsb' 0 12 ≠ 0 ∧
      s.burst_len < i.max_burst_len := by
  unfold extends_burst curr_addr
  simp only [Bool.and_eq_true, decide_eq_true_eq, and_assoc]

/-- A merged address is the one after the pending burst. -/
theorem curr_of_extends (h : Inv s) (hq : s.addr_empty_n_q = true) (hb : s.base_valid = true)
    (hext : s.extends_burst i = true) :
    s.base_addr + BitVec.ofNat AddrWidth ((s.burst_len.toNat + 1) * 2 ^ DataWidthBytesLog) =
      s.addr_dout_q := by
  obtain ⟨hnext, hpage, -⟩ := extends_burst_iff.mp hext
  apply eq_add_of_word_addr (h.base hb) (h.input hq)
  · rintro hzero
    rw [hzero] at hpage
    exact hpage (by simp)
  · rw [← hnext, h.next_addr]
    unfold after_burst
    rw [BitVec.add_assoc]
    apply BitVec.eq_of_toNat_eq
    simp

theorem expand_extends (h : Inv s) (hq : s.addr_empty_n_q = true) (hb : s.base_valid = true)
    (hext : s.extends_burst i = true) :
    expand DataWidthBytesLog s.base_addr (s.burst_len + BitVec.ofNat BurstLenWidth 1) =
      expand DataWidthBytesLog s.base_addr s.burst_len ++ [s.addr_dout_q] := by
  rw [expand_succ _ (extends_burst_iff.mp hext).2.2, curr_of_extends h hq hb hext]

/-- The addresses of the burst that will be pending. -/
def Next.pending (DataWidthBytesLog : Nat) (x : Next AddrWidth WaitTimeWidth BurstLenWidth) :
    List (BitVec AddrWidth) :=
  if x.base_valid_next then expand DataWidthBytesLog x.base_addr_next x.burst_len_next else []

/-- What one cycle does to the pending burst: the registered input goes behind
it, and what it writes comes off its front. -/
structure NextSpec (s : detect_burst AddrWidth DataWidthBytesLog WaitTimeWidth BurstLenWidth)
    (i : BurstIn AddrWidth WaitTimeWidth BurstLenWidth) : Prop where
  flow : s.pending ++ (if i.unblocked then s.registered else []) =
    s.emits i ++ (s.next i).pending DataWidthBytesLog
  no_base : (s.next i).base_valid_next = false → (s.next i).burst_len_next = 0
  base : (s.next i).base_valid_next = true → Aligned DataWidthBytesLog (s.next i).base_addr_next

variable (s i)

/-- The pending burst stays as it is, starts, grows, makes way for the next one, or is written
when the detector has waited long enough. -/
theorem next_cases :
    (∃ w, (i.unblocked = true → s.addr_empty_n_q = false) ∧
      s.next i = ⟨false, s.base_addr, s.base_valid, s.burst_len, w⟩) ∨
    (i.unblocked = true ∧ s.addr_empty_n_q = true ∧ s.base_valid = false ∧
      s.next i = ⟨false, s.addr_dout_q, true, s.burst_len, 0⟩) ∨
    (i.unblocked = true ∧ s.addr_empty_n_q = true ∧ s.base_valid = true ∧
      s.extends_burst i = true ∧ s.next i = ⟨false, s.base_addr, true, s.burst_len + 1, 0⟩) ∨
    (i.unblocked = true ∧ s.addr_empty_n_q = true ∧ s.base_valid = true ∧
      s.next i = ⟨true, s.addr_dout_q, true, 0, 0⟩) ∨
    (i.unblocked = true ∧ s.addr_empty_n_q = false ∧ s.base_valid = true ∧
      s.next i = ⟨true, s.base_addr, false, 0, 0⟩) := by
  cases hu : i.unblocked with
  | false => exact .inl ⟨_, by simp, by simp [next, hu]; rfl⟩
  | true =>
    cases hq : s.addr_empty_n_q with
    | true =>
      cases hb : s.base_valid with
      | false => simp [next, hu, hq, hb, curr_addr]
      | true => cases hx : s.extends_burst i <;> simp [next, hu, hq, hb, hx, curr_addr]
    | false =>
      cases hb : s.base_valid with
      | false => simp [next, hu, hq, hb]
      | true => by_cases hw : s.wait_time < i.max_wait_time <;> simp [next, hu, hq, hb, hw]

variable {s} in
theorem next_spec (h : Inv s) : NextSpec s i := by
  obtain ⟨w, hu, hn⟩ | ⟨hu, hq, hb, hn⟩ | ⟨hu, hq, hb, hx, hn⟩ | ⟨hu, hq, hb, hn⟩ |
    ⟨hu, hq, hb, hn⟩ := next_cases s i
  · refine ⟨?_, by rw [hn]; exact h.no_base, by rw [hn]; exact h.base⟩
    cases hb : i.unblocked <;>
      simp [emits, write_enable, hn, Next.pending, pending, registered, hb, hu]
  · refine ⟨?_, by simp [hn], fun _ => by rw [hn]; exact h.input hq⟩
    simp [emits, write_enable, hn, Next.pending, pending, registered, hu, hq, hb, h.no_base hb,
      expand_zero]
  · refine ⟨?_, by simp [hn], fun _ => by rw [hn]; exact h.base hb⟩
    simp [emits, write_enable, hn, Next.pending, pending, registered, hu, hq, hb,
      expand_extends h hq hb hx]
  · refine ⟨?_, by simp [hn], fun _ => by rw [hn]; exact h.input hq⟩
    simp [emits, write_enable, hn, Next.pending, pending, registered, hu, hq, hb, expand_zero]
  · refine ⟨?_, by simp [hn], fun hf => by simp [hn] at hf⟩
    simp [emits, write_enable, hn, Next.pending, pending, registered, hu, hq, hb]

variable {i} in
theorem step_live (hr : i.rst = false) :
    (s.step i).pending = (s.next i).pending DataWidthBytesLog := by
  simp [step, pending, Next.pending, hr]

theorem step_registered :
    s.registered ++ reads s i =
      (if i.unblocked then s.registered else []) ++ (s.step i).registered := by
  cases hu : i.unblocked <;> simp [registered, reads, addr_read, step, hu]

variable {s i}

/-- The input register holds an aligned address when it was loaded with one. -/
theorem step_input (h : s.addr_empty_n_q = true → Aligned DataWidthBytesLog s.addr_dout_q)
    (hi : i.addr_empty_n = true → Aligned DataWidthBytesLog i.addr_dout) :
    (s.step i).addr_empty_n_q = true → Aligned DataWidthBytesLog (s.step i).addr_dout_q := by
  unfold step
  cases hu : i.unblocked
  · simpa using h
  · simpa using hi

/-- The detector is a queue of addresses that gives them in expanded bursts. -/
theorem queueLaw : QueueLaw step (Live DataWidthBytesLog)
    (fun s : detect_burst AddrWidth DataWidthBytesLog WaitTimeWidth BurstLenWidth => Inv s)
    words reads emits where
  keep := by
    intro s i hs hl
    have hspec := next_spec i hs
    refine ⟨?_, ?_, ?_, step_input hs.input hl.2⟩
    · simp [step, hl.1]
    · simpa [step, hl.1] using hspec.no_base
    · simpa [step, hl.1] using hspec.base
  flow := by
    intro s i hs hl
    unfold words
    rw [List.append_assoc, step_registered, ← List.append_assoc, (next_spec i hs).flow,
      ← step_live s hl.1, List.append_assoc]

/-- A reset drops the pending burst and keeps the registered input. -/
theorem reset_inv (hr : i.rst = true)
    (hi : (s.step i).addr_empty_n_q = true → Aligned DataWidthBytesLog (s.step i).addr_dout_q) :
    Inv (s.step i) ∧ (s.step i).words = (s.step i).registered := by
  refine ⟨⟨?_, ?_, ?_, hi⟩, ?_⟩
  · simp [step, hr, after_burst, word_addr]
  · simp [step, hr]
  · simp [step, hr]
  · simp [words, pending, step, hr]

/-- The input register holds what the last unblocked cycle read. -/
theorem registered_eq_reads
    (s : detect_burst AddrWidth DataWidthBytesLog WaitTimeWidth BurstLenWidth)
    (ins : Nat → BurstIn AddrWidth WaitTimeWidth BurstLenWidth) {p n : Nat} (hp : p < n)
    (hload : (ins p).unblocked = true)
    (hblocked : ∀ c, p < c → c < n → (ins c).unblocked = false) :
    (run step s ins n).registered =
      window (fun c => reads (run step s ins c) (ins c)) p n := by
  induction n, hp using Nat.le_induction with
  | base =>
    rw [window_succ _ (Nat.le_refl p), run_succ]
    simp [registered, step, reads, addr_read, hload]
  | succ n hn ih =>
    have hb := hblocked n (by omega) (by omega)
    rw [window_succ _ (by omega), ← ih (fun c h1 h2 => hblocked c h1 (by omega)), run_succ]
    simp [registered, step, reads, addr_read, hb]

/-- From a reset on, the addresses of the bursts written, then those of the
pending burst, then the registered input are the addresses read. The register
of the input has no reset, so the last address read before the end of the reset
counts too, and there is none when the input was empty then. -/
theorem burst_detection_is_lossless
    (s : detect_burst AddrWidth DataWidthBytesLog WaitTimeWidth BurstLenWidth)
    (ins : Nat → BurstIn AddrWidth WaitTimeWidth BurstLenWidth) (n : Nat)
    (hs : s.addr_empty_n_q = true → Aligned DataWidthBytesLog s.addr_dout_q)
    (haligned : ∀ c, (ins c).addr_empty_n = true → Aligned DataWidthBytesLog (ins c).addr_dout)
    (hn : 0 < n) (hhigh : ∀ c, c < n → (ins c).rst = true)
    (hlow : ∀ c, n ≤ c → (ins c).rst = false) :
    let st := run step s ins
    let written := fun t => window (fun c => emits (st c) (ins c)) n t
    let read := fun a t => window (fun c => reads (st c) (ins c)) a t
    ∀ t, n ≤ t →
      written t ++ (st t).pending ++ (st t).registered = (st n).registered ++ read n t ∧
      ∀ p, p < n → (ins p).unblocked = true →
        (∀ c, p < c → c < n → (ins c).unblocked = false) →
          written t ++ (st t).pending ++ (st t).registered = read p t ∧
            ((ins p).addr_empty_n = false →
              written t ++ (st t).pending ++ (st t).registered = read n t) := by
  intro st written read t hnt
  have hinput : ∀ c, (st c).addr_empty_n_q = true →
      Aligned DataWidthBytesLog (st c).addr_dout_q := by
    intro c
    induction c with
    | zero => exact hs
    | succ c ih => exact step_input ih (haligned c)
  have hstart : Inv (st n) ∧ (st n).words = (st n).registered := by
    have hi := hinput n
    rw [show st n = _ from run_pred step s ins hn] at hi ⊢
    exact reset_inv (hhigh _ (by omega)) hi
  have hlaw := queueLaw.conserves hnt hstart.1 (fun c h1 _ => ⟨hlow c h1, haligned c⟩)
  have hmain : written t ++ (st t).pending ++ (st t).registered =
      (st n).registered ++ read n t := by
    rw [← hstart.2, List.append_assoc]
    exact hlaw.symm
  refine ⟨hmain, fun p hp hload hblocked => ?_⟩
  have hreg : (st n).registered = read p n := registered_eq_reads s ins hp hload hblocked
  refine ⟨?_, fun hempty => ?_⟩
  · rw [hmain, hreg]
    exact (window_append _ (by omega) hnt).symm
  · have hnil : read p n = [] := by
      refine window_eq_nil (by omega) fun c h1 h2 => ?_
      rcases Nat.eq_or_lt_of_le h1 with rfl | hlt
      · simp [reads, addr_read, hempty]
      · simp [reads, addr_read, hblocked c hlt h2]
    rw [hmain, hreg, hnil, List.nil_append]

/-- Words of 4 bytes: one burst of the addresses 4, 8 and 12, and then 32. -/
theorem a_short_trace_is_lossless :
    let ins : Nat → BurstIn 16 2 4 := fun c =>
      ⟨decide (c < 1), 1, 7, if c = 4 then 32 else BitVec.ofNat 16 (4 * c),
        decide (0 < c) && decide (c < 5), true, true, true⟩
    let st := run step (⟨0, false, 0, 0, 0, false, 0⟩ : detect_burst 16 2 2 4) ins
    window (fun c => emits (st c) (ins c)) 1 9 ++ (st 9).pending ++ (st 9).registered =
        window (fun c => reads (st c) (ins c)) 1 9 ∧
      window (fun c => reads (st c) (ins c)) 1 9 = [4, 8, 12, 32] := by
  intro ins st
  have haligned : ∀ c, (ins c).addr_empty_n = true → Aligned 2 (ins c).addr_dout := by
    intro c hc
    simp only [ins, Bool.and_eq_true, decide_eq_true_eq] at hc
    unfold Aligned
    obtain rfl | rfl | rfl | rfl : c = 1 ∨ c = 2 ∨ c = 3 ∨ c = 4 := by omega
    all_goals decide
  have hhigh : ∀ c, c < 1 → (ins c).rst = true := fun c hc => decide_eq_true hc
  have hlow : ∀ c, 1 ≤ c → (ins c).rst = false := fun c hc => decide_eq_false (by omega)
  have h := burst_detection_is_lossless ⟨0, false, 0, 0, 0, false, 0⟩ ins 1 (by simp) haligned
    (by decide) hhigh hlow 9 (by decide)
  exact ⟨(h.2 0 (by decide) rfl (fun c h1 h2 => by omega)).2 rfl, by decide⟩

end detect_burst

end Tapa.Rtl
