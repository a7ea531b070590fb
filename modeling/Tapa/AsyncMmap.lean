-- The write half of `async_mmap`. Addresses, data and last flags go through
-- queues of their own and meet again at the AXI ports: each AW burst has its
-- `AWLEN + 1` beats on W, and WLAST is high on the last of them.
import Tapa.DetectBurst
import Tapa.RelayStation

namespace Tapa.Rtl

open Clock List

/-! ## `generate_last` -/

structure generate_last (BurstLenWidth : Nat) where
  busy : Bool
  count : BitVec BurstLenWidth

/-- The input ports of `generate_last` in one cycle. -/
structure LastIn (BurstLenWidth : Nat) where
  rst : Bool
  burst_len_dout : BitVec BurstLenWidth
  burst_len_empty_n : Bool
  last_full_n : Bool

namespace generate_last

variable {BurstLenWidth : Nat}

/-- The values that the combinational block computes. -/
structure Next (BurstLenWidth : Nat) where
  busy_next : Bool
  count_next : BitVec BurstLenWidth
  burst_len_read : Bool
  last_write : Bool
  last_din : Bool

section

variable (s : generate_last BurstLenWidth)

section

variable (i : LastIn BurstLenWidth)

/-- The combinational block. Without a write, `last_din` is not driven. -/
def next : Next BurstLenWidth :=
  if i.last_full_n then
    if !s.busy then
      if i.burst_len_empty_n then
        let count_next := i.burst_len_dout
        ⟨if count_next ≠ BitVec.ofNat BurstLenWidth 0 then true else s.busy, count_next, true, true,
          decide (count_next = BitVec.ofNat BurstLenWidth 0)⟩
      else ⟨s.busy, s.count, false, false, false⟩
    else
      let count_next := s.count - BitVec.ofNat BurstLenWidth 1
      ⟨if count_next = BitVec.ofNat BurstLenWidth 0 then false else s.busy, count_next, false, true,
        decide (count_next = BitVec.ofNat BurstLenWidth 0)⟩
  else ⟨s.busy, s.count, false, false, false⟩

def step : generate_last BurstLenWidth where
  busy := if i.rst then false else (s.next i).busy_next
  count := if i.rst then 0 else (s.next i).count_next

/-- The last flags of a burst of `len + 1` beats. -/
def beats (len : Nat) : List Bool := List.replicate len false ++ [true]

theorem beats_succ (len : Nat) : beats (len + 1) = false :: beats len := rfl

@[simp] theorem beats_length (len : Nat) : (beats len).length = len + 1 := by
  simp [beats]

/-- The flag of beat `j` is high just when it is the last one. -/
theorem beats_getElem? {len j : Nat} (h : j ≤ len) : (beats len)[j]? = some (decide (j = len)) := by
  unfold beats
  rcases Nat.lt_or_eq_of_le h with hlt | rfl
  · rw [getElem?_append_left (by simpa using hlt), getElem?_replicate, if_pos hlt]
    simp [Nat.ne_of_lt hlt]
  · simp

/-- The beats of burst `k` follow those of the bursts before it. -/
theorem flatMap_beats_getElem? {bursts : List Nat} {k len j : Nat} (hk : bursts[k]? = some len)
    (hj : j ≤ len) :
    (bursts.flatMap beats)[((bursts.take k).map (· + 1)).sum + j]? = some (decide (j = len)) := by
  induction bursts generalizing k with
  | nil => simp at hk
  | cons b bursts ih =>
    rw [flatMap_cons]
    cases k with
    | zero =>
      rw [getElem?_cons_zero, Option.some.injEq] at hk
      subst hk
      rw [getElem?_append_left (by simp; omega)]
      simpa using beats_getElem? hj
    | succ k =>
      have hrest := ih (by simpa using hk)
      rw [getElem?_append_right (by simp; omega), ← hrest]
      congr 1
      simp
      omega

/-- The flags that are still to come from the burst at hand. -/
def rest : List Bool :=
  if s.busy then beats (s.count.toNat - 1) else []

/-- The flags of the burst that is read in a cycle. -/
def reads : List Bool :=
  if (s.next i).burst_len_read then beats i.burst_len_dout.toNat else []

def writes : List Bool :=
  emit (s.next i).last_write (s.next i).last_din

/-- A burst at hand has a beat to come. -/
def Inv : Prop :=
  s.busy = true → s.count ≠ BitVec.ofNat BurstLenWidth 0

theorem toNat_ne_zero {count : BitVec BurstLenWidth} (h : count ≠ BitVec.ofNat BurstLenWidth 0) :
    count.toNat ≠ 0 := by
  intro h0
  apply h
  apply BitVec.eq_of_toNat_eq
  simpa using h0

/-- The flag of the first beat, and the flags that are kept for later. -/
theorem beats_eq (count : BitVec BurstLenWidth) :
    beats count.toNat = decide (count = BitVec.ofNat BurstLenWidth 0) ::
      (if count ≠ BitVec.ofNat BurstLenWidth 0 then beats (count.toNat - 1) else []) := by
  by_cases h : count = BitVec.ofNat BurstLenWidth 0
  · simp [h, beats]
  · obtain ⟨k, hk⟩ := Nat.exists_eq_succ_of_ne_zero (toNat_ne_zero h)
    rw [hk, beats_succ]
    simp [h]

theorem toNat_sub_one {count : BitVec BurstLenWidth} (h : count ≠ BitVec.ofNat BurstLenWidth 0) :
    (count - BitVec.ofNat BurstLenWidth 1).toNat = count.toNat - 1 := by
  have hpos := toNat_ne_zero h
  have hone : (BitVec.ofNat BurstLenWidth 1).toNat = 1 := by
    exact Nat.mod_eq_of_lt (by omega)
  rw [BitVec.toNat_sub_of_le, hone]
  rw [BitVec.le_def]
  omega

/-- What one cycle does: nothing, the first flag of a new burst, or the next
flag of the burst at hand. -/
theorem next_cases : s.next i = ⟨s.busy, s.count, false, false, false⟩ ∨
      (s.busy = false ∧ i.last_full_n = true ∧ i.burst_len_empty_n = true ∧
        s.next i = ⟨decide (i.burst_len_dout ≠ BitVec.ofNat BurstLenWidth 0), i.burst_len_dout,
          true, true, decide (i.burst_len_dout = BitVec.ofNat BurstLenWidth 0)⟩) ∨
      (s.busy = true ∧ i.last_full_n = true ∧
        s.next i = ⟨decide (s.count - BitVec.ofNat BurstLenWidth 1 ≠ BitVec.ofNat BurstLenWidth 0),
          s.count - BitVec.ofNat BurstLenWidth 1, false, true,
          decide (s.count - BitVec.ofNat BurstLenWidth 1 = BitVec.ofNat BurstLenWidth 0)⟩) := by
  unfold next
  cases i.last_full_n with
  | false => simp
  | true =>
    cases hb : s.busy with
    | true =>
      right; right
      by_cases h : s.count - BitVec.ofNat BurstLenWidth 1 = BitVec.ofNat BurstLenWidth 0 <;>
        simp [h]
    | false =>
      cases i.burst_len_empty_n with
      | false | true => simp

end

theorem rest_step {i : LastIn BurstLenWidth} (hl : i.rst = false) : (s.step i).rest =
      if (s.next i).busy_next then beats ((s.next i).count_next.toNat - 1) else [] := by
  simp [rest, step, hl]

theorem queueLaw : QueueLaw step (fun i : LastIn BurstLenWidth => i.rst = false) Inv rest reads
    writes where
  keep := by
    intro s i hs hl
    rcases next_cases s i with h | ⟨_, _, _, h⟩ | ⟨_, _, h⟩
    · simpa [Inv, step, hl, h] using hs
    · simp [Inv, step, hl, h]
    · simp [Inv, step, hl, h]
  flow := by
    intro s i hs hl
    rw [rest_step s hl]
    unfold rest reads writes
    rcases next_cases s i with h | ⟨hb, _, _, h⟩ | ⟨hb, _, h⟩
    · simp [h]
    · simp [h, hb, beats_eq i.burst_len_dout]
    have hbeats := beats_eq (s.count - BitVec.ofNat BurstLenWidth 1)
    rw [toNat_sub_one (hs hb)] at hbeats
    simp only [h, hb, if_true, hbeats, toNat_sub_one (hs hb)]
    simp

theorem reset_empty {i : LastIn BurstLenWidth}
    (hr : i.rst = true) : Inv (s.step i) ∧ (s.step i).rest = [] := by
  simp [Inv, rest, step, hr]

end

theorem empty_n_of_read {s : generate_last BurstLenWidth} {i : LastIn BurstLenWidth}
    (h : (s.next i).burst_len_read = true) : i.burst_len_empty_n = true := by
  rcases next_cases s i with hn | ⟨_, _, he, _⟩ | ⟨_, _, hn⟩
  · simp [hn] at h
  · exact he
  · simp [hn] at h

/-- A flag is written only when there is room for it. -/
theorem full_n_of_write {s : generate_last BurstLenWidth} {i : LastIn BurstLenWidth}
    (h : (s.next i).last_write = true) : i.last_full_n = true := by
  rcases next_cases s i with hn | ⟨_, hf, _⟩ | ⟨_, hf, _⟩
  · simp [hn] at h
  · exact hf
  · exact hf

end generate_last

/-! ## `async_mmap` -/

/-- The parameters of `async_mmap` that its write half reads. -/
structure MmapParams where
  BufferSize : Nat
  AddrWidth : Nat
  AxiSideAddrWidth : Nat
  DataWidth : Nat
  DataWidthBytesLog : Nat
  WaitTimeWidth : Nat
  BurstLenWidth : Nat
  EnableWriteChannel : Nat
  MaxWaitTime : Nat
  MaxBurstLen : Nat

/-- The relay station between two parts of the write half. -/
def MmapParams.buffer (p : MmapParams) (DATA_WIDTH : Nat) : FifoModule (BitVec DATA_WIDTH) :=
  relay DATA_WIDTH p.BufferSize 1 p.EnableWriteChannel

def MmapParams.isRelay (p : MmapParams) (DATA_WIDTH : Nat) : (p.buffer DATA_WIDTH).IsRelay 0 :=
  relay_isRelay DATA_WIDTH p.BufferSize 1 p.EnableWriteChannel

/-- The registers of the write half of `async_mmap`. -/
structure async_mmap (p : MmapParams) where
  write_addr : (p.buffer p.AddrWidth).State
  detect_burst_write :
    detect_burst p.AddrWidth p.DataWidthBytesLog p.WaitTimeWidth p.BurstLenWidth
  burst_write_addr : (p.buffer (p.BurstLenWidth + p.AddrWidth)).State
  burst_write_len : (p.buffer p.BurstLenWidth).State
  generate_last_unit : generate_last p.BurstLenWidth
  write_req : (p.buffer p.BurstLenWidth).State
  write_data : (p.buffer p.DataWidth).State
  burst_write_last : (p.buffer 1).State
  write_resp : (p.buffer p.BurstLenWidth).State

/-- The input ports of the write half in one cycle. -/
structure MmapIn (p : MmapParams) where
  rst : Bool
  m_axi_AWREADY : Bool
  m_axi_WREADY : Bool
  m_axi_BVALID : Bool
  write_addr_din : BitVec p.AddrWidth
  write_addr_write : Bool
  write_data_din : BitVec p.DataWidth
  write_data_write : Bool
  write_resp_read : Bool

namespace async_mmap

variable {p : MmapParams} {w : Nat}

/-- The ports of a relay station. Both clock enables are tied high. -/
def port (rst write : Bool) (din : BitVec w) (read : Bool) : FifoIn (BitVec w) :=
  ⟨rst, true, write, din, true, read⟩

/-- The output of a relay station does not depend on its input, so it is read
off with any input. -/
def if_empty_n (p : MmapParams) (s : (p.buffer w).State) : Bool :=
  (p.buffer w).if_empty_n s (port false false 0 false)

def if_dout (p : MmapParams) (s : (p.buffer w).State) : BitVec w :=
  (p.buffer w).if_dout s (port false false 0 false)

section

variable (s : async_mmap p) (i : MmapIn p)

def detect_burst_write_in : BurstIn p.AddrWidth p.WaitTimeWidth p.BurstLenWidth where
  rst := i.rst
  max_wait_time := BitVec.ofNat p.WaitTimeWidth p.MaxWaitTime
  max_burst_len := BitVec.ofNat p.BurstLenWidth p.MaxBurstLen
  addr_dout := if_dout p s.write_addr
  addr_empty_n := if_empty_n p s.write_addr
  addr_full_n := (p.buffer _).if_full_n s.burst_write_addr
  burst_len_0_full_n := (p.buffer _).if_full_n s.burst_write_len
  burst_len_1_full_n := (p.buffer _).if_full_n s.write_req

/-- The burst detector writes its burst to three relay stations at once. -/
def burst_write : Bool :=
  s.detect_burst_write.write_enable (s.detect_burst_write_in i)

def generate_last_unit_in : LastIn p.BurstLenWidth where
  rst := i.rst
  burst_len_dout := if_dout p s.burst_write_len
  burst_len_empty_n := if_empty_n p s.burst_write_len
  last_full_n := (p.buffer _).if_full_n s.burst_write_last

def last_next : generate_last.Next p.BurstLenWidth :=
  s.generate_last_unit.next (s.generate_last_unit_in i)

def write_addr_in : FifoIn (BitVec p.AddrWidth) :=
  port i.rst i.write_addr_write i.write_addr_din
    (detect_burst.addr_read (s.detect_burst_write_in i))

def burst_write_addr_in : FifoIn (BitVec (p.BurstLenWidth + p.AddrWidth)) :=
  port i.rst (s.burst_write i) (s.detect_burst_write.burst_len ++ s.detect_burst_write.base_addr)
    i.m_axi_AWREADY

def burst_write_len_in : FifoIn (BitVec p.BurstLenWidth) :=
  port i.rst (s.burst_write i) s.detect_burst_write.burst_len (s.last_next i).burst_len_read

def write_req_in : FifoIn (BitVec p.BurstLenWidth) :=
  port i.rst (s.burst_write i) s.detect_burst_write.burst_len
    ((p.buffer _).if_full_n s.write_resp && i.m_axi_BVALID)

def write_data_in : FifoIn (BitVec p.DataWidth) :=
  port i.rst i.write_data_write i.write_data_din
    (i.m_axi_WREADY && if_empty_n p s.burst_write_last)

def burst_write_last_in : FifoIn (BitVec 1) :=
  port i.rst (s.last_next i).last_write (BitVec.ofBool (s.last_next i).last_din)
    (i.m_axi_WREADY && if_empty_n p s.write_data)

def write_resp_in : FifoIn (BitVec p.BurstLenWidth) :=
  port i.rst (i.m_axi_BVALID && if_empty_n p s.write_req) (if_dout p s.write_req) i.write_resp_read

def step : async_mmap p where
  write_addr := (p.buffer _).step s.write_addr (s.write_addr_in i)
  detect_burst_write := s.detect_burst_write.step (s.detect_burst_write_in i)
  burst_write_addr := (p.buffer _).step s.burst_write_addr (s.burst_write_addr_in i)
  burst_write_len := (p.buffer _).step s.burst_write_len (s.burst_write_len_in i)
  generate_last_unit := s.generate_last_unit.step (s.generate_last_unit_in i)
  write_req := (p.buffer _).step s.write_req (s.write_req_in i)
  write_data := (p.buffer _).step s.write_data (s.write_data_in i)
  burst_write_last := (p.buffer _).step s.burst_write_last (s.burst_write_last_in i)
  write_resp := (p.buffer _).step s.write_resp (s.write_resp_in i)

/-! ## The AXI ports -/

section

variable (s : async_mmap p)

def m_axi_AWVALID : Bool := if_empty_n p s.burst_write_addr

def m_axi_AWADDR : BitVec p.AxiSideAddrWidth :=
  ((if_dout p s.burst_write_addr).extractLsb' 0 p.AddrWidth).setWidth p.AxiSideAddrWidth

def m_axi_AWLEN : BitVec 8 :=
  ((if_dout p s.burst_write_addr).extractLsb' p.AddrWidth p.BurstLenWidth).setWidth 8

def m_axi_WVALID : Bool :=
  if_empty_n p s.write_data && if_empty_n p s.burst_write_last

def m_axi_WDATA : BitVec p.DataWidth := if_dout p s.write_data

def m_axi_WLAST : Bool := decide (if_dout p s.burst_write_last = 1#1)

end

/-- The burst that the AW channel takes in a cycle: its address and its length. -/
def aw : List (BitVec p.AxiSideAddrWidth × BitVec 8) :=
  emit (s.m_axi_AWVALID && i.m_axi_AWREADY) (s.m_axi_AWADDR, s.m_axi_AWLEN)

/-- The beat that the W channel takes in a cycle: its data and its last flag. -/
def beat : List (BitVec p.DataWidth × Bool) :=
  emit (s.m_axi_WVALID && i.m_axi_WREADY) (s.m_axi_WDATA, s.m_axi_WLAST)

/-- The data word that the user hands over in a cycle. -/
def data : List (BitVec p.DataWidth) :=
  emit (i.write_data_write && (p.buffer _).if_full_n s.write_data) i.write_data_din

/-- The length of the burst that the burst detector writes in a cycle. -/
def burst : List Nat :=
  emit (s.burst_write i) s.detect_burst_write.burst_len.toNat

/-! ## The relay stations in a run -/

theorem port_read (s : (p.buffer w).State) (rst write : Bool) (din : BitVec w) (read : Bool) :
    (p.buffer w).given s (port rst write din read) =
      emit (read && if_empty_n p s) (if_dout p s) := by
  obtain ⟨hempty, hdout⟩ := (p.isRelay w).output s (port rst write din read)
    (port false false 0 false)
  unfold FifoModule.given if_empty_n if_dout
  rw [hempty, hdout]
  simp [FifoIn.read, port]

theorem port_write (s : (p.buffer w).State) (rst write : Bool) (din : BitVec w) (read : Bool) :
    (p.buffer w).accepted s (port rst write din read) =
      emit (write && (p.buffer w).if_full_n s) din := by
  simp [FifoModule.accepted, FifoIn.write, port]

/-- A run that is in reset up to cycle `n` and not from there on. -/
structure Starts (ins : Nat → MmapIn p) (n : Nat) : Prop where
  pos : 0 < n
  high : (ins (n - 1)).rst = true
  low : ∀ c, n ≤ c → (ins c).rst = false

/-- From the end of the reset on, each relay station holds what it accepted and
did not deliver. -/
theorem buffer_conserves (part : async_mmap p → (p.buffer w).State) (write : async_mmap p →
      MmapIn p → Bool) (din : async_mmap p → MmapIn p → BitVec w) (read : async_mmap p →
      MmapIn p → Bool)
    (hpart : ∀ s i, part (step s i) =
      (p.buffer w).step (part s) (port i.rst (write s i) (din s i) (read s i)))
    (s : async_mmap p) (ins : Nat → MmapIn p) {n t : Nat} (h : Starts ins n) (hnt : n ≤ t) :
    let st := run step s ins
    window (fun c => emit (write (st c) (ins c) && (p.buffer w).if_full_n (part (st c)))
        (din (st c) (ins c))) n t =
      window (fun c => emit (read (st c) (ins c) && if_empty_n p (part (st c)))
        (if_dout p (part (st c)))) n t ++ (p.isRelay w).words (part (st t)) := by
  intro st
  let feed := fun s i => port i.rst (write s i) (din s i) (read s i)
  have hrun (c : Nat) : run (p.buffer w).step (part s) (fun c => feed (st c) (ins c)) c =
      part (st c) := (run_part step (p.buffer w).step part feed hpart s ins c).symm
  have hq := (p.isRelay w).conserves (part s) (fun c => feed (st c) (ins c))
    (fun _ => ⟨rfl, rfl⟩) h.pos (Nat.zero_le n) h.high h.low hnt
  simp only [hrun, feed, port_read, port_write, Nat.sub_zero] at hq
  exact hq

/-! ## The flags of the bursts -/

/-- The detector writes a burst only when all three stations take it. -/
theorem burst_write_taken :
    (s.burst_write i && (p.buffer _).if_full_n s.burst_write_addr) = s.burst_write i ∧
      (s.burst_write i && (p.buffer _).if_full_n s.burst_write_len) = s.burst_write i ∧
      (s.burst_write i && (p.buffer _).if_full_n s.write_req) = s.burst_write i := by
  have hfull : s.burst_write i = true → (s.detect_burst_write_in i).unblocked = true := by
    intro h
    by_contra hb
    rw [Bool.not_eq_true] at hb
    simp [burst_write, detect_burst.write_enable, detect_burst.next, hb] at h
  cases hw : s.burst_write i with
  | false => simp
  | true =>
    have h := hfull hw
    simp only [BurstIn.unblocked, detect_burst_write_in, Bool.and_eq_true] at h
    simp [h.1.1, h.1.2, h.2]

end

/-- The lengths that the AW channel has yet to take. -/
def held_bursts (s : async_mmap p) : List Nat :=
  ((p.isRelay _).words s.burst_write_addr).map
    fun x => (x.extractLsb' p.AddrWidth p.BurstLenWidth).toNat

/-- The flags that the W channel has yet to take. -/
def held_lasts (s : async_mmap p) : List Bool :=
  ((p.isRelay _).words s.burst_write_last).map (fun x => decide (x = 1#1)) ++
    s.generate_last_unit.rest ++
      ((p.isRelay _).words s.burst_write_len).flatMap fun x => generate_last.beats x.toNat

/-- The data words that the W channel has yet to take. -/
def held_data (s : async_mmap p) : List (BitVec p.DataWidth) := (p.isRelay _).words s.write_data

section Run

variable (s : async_mmap p) (ins : Nat → MmapIn p) {n t : Nat}

theorem data_conserves (h : Starts ins n) (hnt : n ≤ t) :
    window (fun c => data (run step s ins c) (ins c)) n t =
      (window (fun c => beat (run step s ins c) (ins c)) n t).map Prod.fst ++
        (run step s ins t).held_data := by
  have hq := buffer_conserves (fun s => s.write_data) (fun _ i => i.write_data_write)
    (fun _ i => i.write_data_din) (fun s i => i.m_axi_WREADY && if_empty_n p s.burst_write_last)
    (fun _ _ => rfl) s ins h hnt
  rw [← window_map]
  refine hq.trans ?_
  congr 1
  apply window_congr hnt
  intro c _ _
  rw [beat, emit_map]
  ac_rfl

/-- The lengths of the bursts are those that AW takes, and then those that it has yet to
take. -/
theorem lengths_conserve (h : Starts ins n) (hnt : n ≤ t) :
    let st := run step s ins
    let len := fun x : BitVec (p.BurstLenWidth + p.AddrWidth) =>
      x.extractLsb' p.AddrWidth p.BurstLenWidth
    window (fun c => emit ((st c).burst_write (ins c)) (st c).detect_burst_write.burst_len) n t =
      window (fun c => emit ((st c).m_axi_AWVALID && (ins c).m_axi_AWREADY)
        (len (if_dout p (st c).burst_write_addr))) n t ++
          ((p.isRelay _).words (st t).burst_write_addr).map len := by
  intro st len
  have hq := buffer_conserves (fun s => s.burst_write_addr) burst_write
    (fun s _ => s.detect_burst_write.burst_len ++ s.detect_burst_write.base_addr)
    (fun _ i => i.m_axi_AWREADY) (fun _ _ => rfl) s ins h hnt
  have hmap := congrArg (List.map len) hq
  rw [map_append, ← window_map, ← window_map] at hmap
  refine Eq.trans ?_ (hmap.trans ?_)
  · apply window_congr hnt
    intro c _ _
    rw [emit_map, (burst_write_taken _ _).1]
    simp only [len, BitVec.extractLsb'_append_eq_left]
    rfl
  · congr 1
    apply window_congr hnt
    intro c _ _
    rw [emit_map, Bool.and_comm]
    rfl

theorem bursts_conserve (hwidth : p.BurstLenWidth ≤ 8) (h : Starts ins n) (hnt : n ≤ t) :
    window (fun c => burst (run step s ins c) (ins c)) n t =
      (window (fun c => aw (run step s ins c) (ins c)) n t).map (fun b => b.2.toNat) ++
        (run step s ins t).held_bursts := by
  have hmap := congrArg (List.map BitVec.toNat) (lengths_conserve s ins h hnt)
  rw [map_append, ← window_map, ← window_map, map_map] at hmap
  rw [← window_map]
  refine Eq.trans (window_congr hnt fun c _ _ => (emit_map _ _ _).symm) (hmap.trans ?_)
  refine congrArg (· ++ _) (window_congr hnt fun c _ _ => ?_)
  have hawlen (s : async_mmap p) : s.m_axi_AWLEN.toNat =
      ((if_dout p s.burst_write_addr).extractLsb' p.AddrWidth p.BurstLenWidth).toNat := by
    have hlt := ((if_dout p s.burst_write_addr).extractLsb' p.AddrWidth p.BurstLenWidth).isLt
    have hpow := Nat.pow_le_pow_right (show 0 < 2 by decide) hwidth
    exact (BitVec.toNat_setWidth 8 _).trans (Nat.mod_eq_of_lt (Nat.lt_of_lt_of_le hlt hpow))
  rw [aw, emit_map, emit_map, hawlen]

/-- What `generate_last` reads is what leaves `burst_write_len`. -/
theorem reads_eq (s : async_mmap p) (i : MmapIn p) :
    s.generate_last_unit.reads (s.generate_last_unit_in i) =
      (emit ((s.last_next i).burst_len_read && if_empty_n p s.burst_write_len)
        (if_dout p s.burst_write_len)).flatMap fun x => generate_last.beats x.toNat := by
  unfold generate_last.reads
  cases hr : (s.last_next i).burst_len_read with
  | false =>
    rw [last_next] at hr
    simp [hr]
  | true =>
    have he : if_empty_n p s.burst_write_len = true := generate_last.empty_n_of_read hr
    rw [last_next] at hr
    rw [hr, he]
    simp [generate_last_unit_in]

/-- What `generate_last` writes is what `burst_write_last` takes. -/
theorem writes_eq (s : async_mmap p) (i : MmapIn p) :
    s.generate_last_unit.writes (s.generate_last_unit_in i) =
      (emit ((s.last_next i).last_write && (p.buffer _).if_full_n s.burst_write_last)
        (BitVec.ofBool (s.last_next i).last_din)).map fun x => decide (x = 1#1) := by
  have hbool (b : Bool) : decide (BitVec.ofBool b = 1#1) = b := by cases b <;> decide
  unfold generate_last.writes
  rw [emit_map, hbool]
  cases hw : (s.last_next i).last_write with
  | false =>
    rw [last_next] at hw
    simp [hw]
  | true =>
    have hf : (p.buffer 1).if_full_n s.burst_write_last = true := generate_last.full_n_of_write hw
    rw [last_next] at hw
    simp [hw, hf, last_next]

theorem generate_last_conserves (h : Starts ins n) (hnt : n ≤ t) :
    let st := run step s ins
    window (fun c => (st c).generate_last_unit.reads ((st c).generate_last_unit_in (ins c))) n t =
      window (fun c => (st c).generate_last_unit.writes ((st c).generate_last_unit_in (ins c))) n t
        ++ (st t).generate_last_unit.rest := by
  intro st
  have hrun (c : Nat) : run generate_last.step s.generate_last_unit
      (fun c => (st c).generate_last_unit_in (ins c)) c = (st c).generate_last_unit :=
    (run_part step generate_last.step (fun s => s.generate_last_unit) generate_last_unit_in
      (fun _ _ => rfl) s ins c).symm
  have hreset : generate_last.Inv (st n).generate_last_unit ∧
      (st n).generate_last_unit.rest = [] := by
    rw [show st n = _ from run_pred step s ins h.pos]
    exact generate_last.reset_empty _ h.high
  have hinv : generate_last.Inv (run generate_last.step s.generate_last_unit
      (fun c => (st c).generate_last_unit_in (ins c)) n) := by
    rw [hrun]
    exact hreset.1
  have hq := generate_last.queueLaw.conserves hnt hinv (fun c hc _ => h.low c hc)
  simp only [hrun, hreset.2, nil_append] at hq
  exact hq

theorem lasts_conserve (h : Starts ins n) (hnt : n ≤ t) :
    (window (fun c => burst (run step s ins c) (ins c)) n t).flatMap generate_last.beats =
      (window (fun c => beat (run step s ins c) (ins c)) n t).map Prod.snd ++
        (run step s ins t).held_lasts := by
  have hlen := buffer_conserves (fun s => s.burst_write_len) burst_write
    (fun s _ => s.detect_burst_write.burst_len) (fun s i => (s.last_next i).burst_len_read)
    (fun _ _ => rfl) s ins h hnt
  have hlast := buffer_conserves (fun s => s.burst_write_last)
    (fun s i => (s.last_next i).last_write) (fun s i => BitVec.ofBool (s.last_next i).last_din)
    (fun s i => i.m_axi_WREADY && if_empty_n p s.write_data) (fun _ _ => rfl) s ins h hnt
  have hgen := generate_last_conserves s ins h hnt
  simp only [reads_eq, writes_eq, window_flatMap, window_map] at hgen
  have hburst : window (fun c => burst (run step s ins c) (ins c)) n t =
      (window (fun c => emit ((run step s ins c).burst_write (ins c) &&
        (p.buffer _).if_full_n (run step s ins c).burst_write_len)
          (run step s ins c).detect_burst_write.burst_len) n t).map BitVec.toNat := by
    rw [← window_map]
    apply window_congr hnt
    intro c _ _
    rw [emit_map, (burst_write_taken _ _).2.1]
    rfl
  have hbeat : (window (fun c => beat (run step s ins c) (ins c)) n t).map Prod.snd =
      (window (fun c => emit ((ins c).m_axi_WREADY && if_empty_n p (run step s ins c).write_data &&
        if_empty_n p (run step s ins c).burst_write_last)
          (if_dout p (run step s ins c).burst_write_last)) n t).map fun x => decide (x = 1#1) := by
    rw [← window_map, ← window_map]
    apply window_congr hnt
    intro c _ _
    rw [beat, emit_map, emit_map]
    ac_rfl
  -- The flags leave the three queues one after the other.
  calc (window (fun c => burst (run step s ins c) (ins c)) n t).flatMap generate_last.beats
      = _ := by rw [hburst, hlen, flatMap_map, flatMap_append, hgen, hlast]
    _ = _ := by
        rw [hbeat, held_lasts]
        simp

end Run

/-- From the end of a reset on, the data of the beats on W are the data words of
the user in their order, and the flags of the beats are those of the bursts that
the detector wrote, of which AW takes the lengths in the same order. So burst
`k` on AW owns the next `AWLEN + 1` beats on W, and WLAST is high on the last of
them only. What W and AW have yet to take is held in the queues. -/
theorem write_bursts_are_well_formed (p : MmapParams) (hwidth : p.BurstLenWidth ≤ 8)
    (s : async_mmap p) (ins : Nat → MmapIn p) (n : Nat) (h : Starts ins n) :
    let st := run step s ins
    let user := fun t => window (fun c => data (st c) (ins c)) n t
    let bursts := fun t => window (fun c => burst (st c) (ins c)) n t
    let aws := fun t => window (fun c => aw (st c) (ins c)) n t
    let ws := fun t => window (fun c => beat (st c) (ins c)) n t
    ∀ t, n ≤ t →
      (ws t).map Prod.fst ++ (st t).held_data = user t ∧
      (aws t).map (fun b => b.2.toNat) ++ (st t).held_bursts = bursts t ∧
      (ws t).map Prod.snd ++ (st t).held_lasts = (bursts t).flatMap generate_last.beats ∧
      ∀ k b, (aws t)[k]? = some b → ∀ j x, j ≤ b.2.toNat →
        (ws t)[(((aws t).take k).map fun b => b.2.toNat + 1).sum + j]? = some x →
          x.2 = decide (j = b.2.toNat) := by
  intro st user bursts aws ws t hnt
  have hbursts : bursts t = _ := bursts_conserve s ins hwidth h hnt
  have hlasts : (bursts t).flatMap generate_last.beats = _ := lasts_conserve s ins h hnt
  refine ⟨(data_conserves s ins h hnt).symm, hbursts.symm, hlasts.symm, ?_⟩
  intro k b hk j x hj hx
  -- Burst `k` of AW is burst `k` of the detector, and the beats are its flags.
  have hkb : (bursts t)[k]? = some b.2.toNat := by
    have hlt : k < (aws t).length := (List.getElem?_eq_some_iff.mp hk).1
    rw [hbursts, getElem?_append_left (by simpa using hlt), getElem?_map, hk]
    rfl
  have htake : (bursts t).take k = ((aws t).take k).map fun b => b.2.toNat := by
    have hle : k ≤ ((aws t).map fun b => b.2.toNat).length := by
      rw [length_map]
      exact Nat.le_of_lt (List.getElem?_eq_some_iff.mp hk).1
    rw [hbursts, take_append_of_le_length hle, map_take]
  have hflag := generate_last.flatMap_beats_getElem? hkb hj
  rw [htake, map_map, hlasts, getElem?_append_left, getElem?_map] at hflag
  · have hx' : (ws t)[((((aws t).take k).map ((· + 1) ∘ fun b => b.2.toNat)).sum + j)]? =
        some x := hx
    rw [hx'] at hflag
    exact Option.some.inj hflag
  · rw [length_map]
    exact (List.getElem?_eq_some_iff.mp hx).1

def byteWords : MmapParams := ⟨1, 16, 32, 8, 0, 2, 8, 1, 0, 7⟩

def emptied : async_mmap byteWords :=
  let srl := fun w => (⟨⟨0, false, false, fun _ => 0⟩, 0, false⟩ :
    fifo_srl_almost_full (BitVec w) 7 2)
  ⟨⟨Fin.elim0, srl 16⟩, ⟨0, false, 0, 0, 0, false, 0⟩, ⟨Fin.elim0, srl 24⟩, ⟨Fin.elim0, srl 8⟩,
    ⟨false, 0⟩, ⟨Fin.elim0, srl 8⟩, ⟨Fin.elim0, srl 8⟩, ⟨Fin.elim0, srl 1⟩, ⟨Fin.elim0, srl 8⟩⟩

/-- Two words are written, and the memory answers in the cycles of `responds`. -/
def twoWords (responds : Nat → Bool) (c : Nat) : MmapIn byteWords :=
  ⟨decide (c < 2), true, true, responds c, BitVec.ofNat 16 (12 + c),
    decide (4 ≤ c) && decide (c < 6), BitVec.ofNat 8 c, decide (4 ≤ c) && decide (c < 6), true⟩

theorem twoWords_live (responds : Nat → Bool) (c : Nat) (hc : 2 ≤ c) :
    (twoWords responds c).rst = false :=
  decide_eq_false (by omega)

/-- The addresses 16 and 17 make one burst, and its two beats carry the data 4 and 5. -/
theorem a_burst_of_two_beats :
    let ins := twoWords fun _ => false
    let st := run step emptied ins
    let ws := window (fun c => beat (st c) (ins c)) 2 14
    ws = [(4, false), (5, true)] ∧
      window (fun c => aw (st c) (ins c)) 2 14 = [(16, 1)] ∧
      ws.map Prod.fst ++ (st 14).held_data = window (fun c => data (st c) (ins c)) 2 14 := by
  intro ins st ws
  have h := write_bursts_are_well_formed byteWords (by decide) emptied ins 2
    ⟨by decide, rfl, twoWords_live _⟩ 14 (by decide)
  exact ⟨by decide +kernel, by decide +kernel, h.1⟩

end async_mmap

end Tapa.Rtl
