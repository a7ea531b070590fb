-- What the memory asks of a burst: that it is no longer than the setting allows, and that it
-- stays in one page of 4096 bytes. The burst detector keeps to both just when the words fill
-- the pages.
import Tapa.DetectBurst
import Tapa.FifoChoice
import Tapa.Fallible

namespace Tapa.Rtl

open Clock Nat

/-! ## The widths that codegen asks for -/

structure MemoryGeometry where
  data_width : Nat
  channels : Option (Nat × Nat)
deriving DecidableEq

/-- The channels of a memory: none for a plain mmap. -/
def channel_shape : Option Nat → Option Nat → Except String (Option (Nat × Nat))
  | some 0, _ => .error "hmap channel count is 0"
  | none, none => .ok none
  | some count, some size => .ok (some (count, size))
  | _, _ => .error "hmap must specify both chan_count and chan_size"

def MemoryGeometry.new (data_width : Nat) (chan_count chan_size : Option Nat) :
    Except String MemoryGeometry := do
  let channels ← channel_shape chan_count chan_size
  if data_width = 0 ∨ data_width % 8 ≠ 0 then
    .error s!"M-AXI data width must be a nonzero multiple of 8 bits, got {data_width}"
  else
    match channels with
    | none => .ok ⟨data_width, channels⟩
    | some (_, size) =>
      let bytes := size * (data_width / 8)
      if bytes = 0 then .error "hmap channel size must be greater than zero"
      else if 2 ^ Nat.log2 bytes ≠ bytes then
        .error ("hmap channel byte size must be a power of two: " ++
          s!"chan_size={size} * data_width={data_width} / 8 = {bytes} bytes")
      else .ok ⟨data_width, channels⟩

/-- The width of the elements behind a bridge: that of its connection, or 64 bits where the
argument has none. -/
def bridge_data_width (conn : Option MemoryGeometry) : Nat :=
  conn.elim 64 MemoryGeometry.data_width

/-- The burst detectors of the bridge that `build_bridge_instance` adds for elements of
`data_width` bits. -/
abbrev bridge_detector (data_width : Nat) : Type :=
  detect_burst 64 (routing_id_bits (data_width / 8)) 2 8

/-- An address of a whole element. -/
def ElementAligned (data_width : Nat) (addr : BitVec 64) : Prop :=
  addr.toNat % (data_width / 8) = 0
deriving Decidable

/-- What is accepted: elements of whole bytes, in channels of a power of two of bytes. -/
theorem MemoryGeometry.new_eq_ok {data_width : Nat} {chan_count chan_size : Option Nat}
    {g : MemoryGeometry} (h : MemoryGeometry.new data_width chan_count chan_size = .ok g) :
    g.data_width = data_width ∧ 0 < data_width / 8 ∧ channel_shape chan_count chan_size =
      .ok g.channels ∧ ∀ shape, g.channels = some shape →
        2 ^ Nat.log2 (shape.2 * (data_width / 8)) = shape.2 * (data_width / 8) := by
  obtain ⟨channels, hshape, h⟩ := Fallible.bind_eq_ok.mp h
  split at h
  · cases h
  have hbytes : 0 < data_width / 8 := by omega
  cases channels with
  | none =>
    cases h
    exact ⟨rfl, hbytes, hshape, nofun⟩
  | some shape =>
    dsimp only at h
    split at h
    · cases h
    split at h
    · cases h
    rename_i hpow
    cases h
    refine ⟨rfl, hbytes, hshape, fun _ hs => ?_⟩
    cases hs
    exact not_not.mp hpow

/-- The elements of a memory have a byte or more. -/
theorem MemoryGeometry.bytes_pos {data_width : Nat} {chan_count chan_size : Option Nat}
    {g : MemoryGeometry} (h : MemoryGeometry.new data_width chan_count chan_size = .ok g) :
    0 < g.data_width / 8 := by
  obtain ⟨hwidth, hbytes, -⟩ := new_eq_ok h
  rwa [hwidth]

theorem routing_id_bits_two_pow (k : Nat) : routing_id_bits (2 ^ k) = k := by
  unfold routing_id_bits
  cases k with
  | zero => rfl
  | succ k =>
    have hpos : 0 < 2 ^ k := Nat.two_pow_pos k
    have hlog : Nat.log2 (2 ^ (k + 1) - 1) = k := by
      rw [log2_eq_iff (by rw [pow_succ]; omega)]
      omega
    rw [if_neg (by rw [pow_succ]; omega), hlog]

theorem routing_id_bits_le {n k : Nat} (h : n ≤ 2 ^ k) : routing_id_bits n ≤ k := by
  unfold routing_id_bits
  split
  · exact zero_le k
  · exact (log2_lt (by omega)).mpr (by omega)

/-! ## What a burst covers -/

section Burst

variable {AddrWidth DataWidthBytesLog WaitTimeWidth BurstLenWidth : Nat}

/-- The first byte behind a burst of `len + 1` beats. -/
def burst_end (DataWidthBytesLog : Nat) (base : BitVec AddrWidth) (len : BitVec BurstLenWidth) :
    Nat :=
  (base.toNat / 2 ^ DataWidthBytesLog + len.toNat + 1) * 2 ^ DataWidthBytesLog

/-- A burst within the limits of the bus. -/
structure ObeysAxi (DataWidthBytesLog : Nat) (limit : BitVec BurstLenWidth)
    (base : BitVec AddrWidth) (len : BitVec BurstLenWidth) : Prop where
  len_le : len ≤ limit
  one_page : ∀ a, base.toNat ≤ a → a < burst_end DataWidthBytesLog base len →
    a / 4096 = base.toNat / 4096

/-- A word ends in the page that it starts in. -/
theorem word_in_page {w p : Nat} (hw : w ∣ 4096) (hp : w ∣ p) : p % 4096 + w ≤ 4096 := by
  have hmod : w ∣ p % 4096 := (dvd_mod_iff hw).mpr hp
  have := le_of_dvd (by omega) (dvd_sub hw hmod)
  omega

namespace detect_burst

variable {s : detect_burst AddrWidth DataWidthBytesLog WaitTimeWidth BurstLenWidth}
  {i : BurstIn AddrWidth WaitTimeWidth BurstLenWidth} {limit : BitVec BurstLenWidth}

/-- The last word of a burst is an address in the page of the first. -/
def SamePage (DataWidthBytesLog : Nat) (base : BitVec AddrWidth) (len : BitVec BurstLenWidth) :
    Prop :=
  base.toNat + len.toNat * 2 ^ DataWidthBytesLog < 2 ^ AddrWidth ∧
    (base.toNat + len.toNat * 2 ^ DataWidthBytesLog) / 4096 = base.toNat / 4096

theorem samePage_zero (base : BitVec AddrWidth) :
    SamePage DataWidthBytesLog base (0 : BitVec BurstLenWidth) := by
  simp [SamePage, base.isLt]

theorem zero_le_limit (limit : BitVec BurstLenWidth) : 0 ≤ limit := by
  simp [BitVec.le_def]

/-- The pending burst keeps to the limits. -/
structure Bounded (limit : BitVec BurstLenWidth)
    (s : detect_burst AddrWidth DataWidthBytesLog WaitTimeWidth BurstLenWidth) : Prop where
  inv : Inv s
  len_le : s.burst_len ≤ limit
  page : SamePage DataWidthBytesLog s.base_addr s.burst_len

/-- A burst that grows stays in its page. The next address is no wrap around the end of the
address space, for that would be the start of a page. -/
theorem samePage_extends (hlog : DataWidthBytesLog ≤ 12) (h : Inv s)
    (hpage : SamePage DataWidthBytesLog s.base_addr s.burst_len) (hq : s.addr_empty_n_q = true)
    (hb : s.base_valid = true) (hext : s.extends_burst i = true) :
    SamePage DataWidthBytesLog s.base_addr (s.burst_len + BitVec.ofNat BurstLenWidth 1) := by
  have hcurr := congrArg BitVec.toNat (curr_of_extends h hq hb hext)
  obtain ⟨-, hstart, hlim⟩ := extends_burst_iff.mp hext
  have hstart : s.addr_dout_q.toNat % 4096 ≠ 0 := by
    intro hzero
    exact hstart (BitVec.eq_of_toNat_eq (by simpa using hzero))
  have hbase : 2 ^ DataWidthBytesLog ∣ s.base_addr.toNat := dvd_of_mod_eq_zero (h.base hb)
  have hword : 2 ^ DataWidthBytesLog ∣ 4096 := pow_dvd_pow 2 hlog
  obtain ⟨hfits, hsame⟩ := hpage
  unfold SamePage
  rw [toNat_succ hlim, add_mul, one_mul, ← add_assoc]
  rw [BitVec.toNat_add, BitVec.toNat_ofNat, add_mod_mod, add_mul, one_mul,
    ← add_assoc] at hcurr
  have hlast : 2 ^ DataWidthBytesLog ∣
      s.base_addr.toNat + s.burst_len.toNat * 2 ^ DataWidthBytesLog :=
    Nat.dvd_add hbase (Nat.dvd_mul_left _ _)
  generalize s.base_addr.toNat + s.burst_len.toNat * 2 ^ DataWidthBytesLog = last at *
  have hwide : DataWidthBytesLog ≤ AddrWidth := by
    by_contra hnot
    have hlt : s.addr_dout_q.toNat < 2 ^ DataWidthBytesLog :=
      Nat.lt_trans s.addr_dout_q.isLt (Nat.pow_lt_pow_right (by decide) (by omega))
    have hzero := h.input hq
    unfold Aligned at hzero
    rw [mod_eq_of_lt hlt] at hzero
    exact hstart (by rw [hzero])
  have hnext : last + 2 ^ DataWidthBytesLog < 2 ^ AddrWidth := by
    have hgap : 2 ^ DataWidthBytesLog ≤ 2 ^ AddrWidth - last :=
      le_of_dvd (by omega) (dvd_sub (pow_dvd_pow 2 hwide) hlast)
    by_contra hnot
    have hwrap : last + 2 ^ DataWidthBytesLog = 2 ^ AddrWidth := by omega
    rw [hwrap, mod_self] at hcurr
    exact hstart (by rw [← hcurr])
  rw [mod_eq_of_lt hnext] at hcurr
  have hroom := word_in_page hword hlast
  exact ⟨hnext, by omega⟩

/-- A clock edge keeps the pending burst within the limits, whether or not it resets. -/
theorem Bounded.step (hlog : DataWidthBytesLog ≤ 12) (h : Bounded limit s)
    (hi : i.addr_empty_n = true → Aligned DataWidthBytesLog i.addr_dout)
    (hlimit : i.max_burst_len ≤ limit) : Bounded limit (s.step i) := by
  have hinput := step_input h.inv.input hi
  cases hr : i.rst with
  | true =>
    refine ⟨(reset_inv hr hinput).1, ?_, ?_⟩
    · simpa [detect_burst.step, hr] using zero_le_limit limit
    · simpa [detect_burst.step, hr] using samePage_zero _
  | false =>
    have hnext : (s.next i).burst_len_next ≤ limit ∧
        SamePage DataWidthBytesLog (s.next i).base_addr_next (s.next i).burst_len_next := by
      obtain ⟨w, -, hn⟩ | ⟨-, hq, hb, hn⟩ | ⟨-, hq, hb, hx, hn⟩ | ⟨-, hq, hb, hn⟩ |
        ⟨-, hq, hb, hn⟩ := next_cases s i
      · rw [hn]
        exact ⟨h.len_le, h.page⟩
      · rw [hn, h.inv.no_base hb]
        exact ⟨zero_le_limit limit, samePage_zero _⟩
      · have hlt := (extends_burst_iff.mp hx).2.2
        rw [hn]
        refine ⟨?_, samePage_extends hlog h.inv h.page hq hb hx⟩
        show (s.burst_len + BitVec.ofNat BurstLenWidth 1).toNat ≤ limit.toNat
        rw [toNat_succ hlt]
        exact Nat.lt_of_lt_of_le hlt hlimit
      · rw [hn]
        exact ⟨zero_le_limit limit, samePage_zero _⟩
      · rw [hn]
        exact ⟨zero_le_limit limit, samePage_zero _⟩
    refine ⟨queueLaw.keep s i h.inv ⟨hr, hi⟩, ?_, ?_⟩
    · simpa [detect_burst.step, hr] using hnext.1
    · simpa [detect_burst.step, hr] using hnext.2

/-- Only a pending burst is written. -/
theorem base_valid_of_write_enable (h : s.write_enable i = true) : s.base_valid = true := by
  unfold write_enable at h
  obtain ⟨w, -, hn⟩ | ⟨-, -, -, hn⟩ | ⟨-, -, -, -, hn⟩ | ⟨-, -, hb, -⟩ | ⟨-, -, hb, -⟩ :=
    next_cases s i
  · simp [hn] at h
  · simp [hn] at h
  · simp [hn] at h
  · exact hb
  · exact hb

theorem Bounded.obeysAxi (hlog : DataWidthBytesLog ≤ 12) (h : Bounded limit s)
    (hwrite : s.write_enable i = true) :
    ObeysAxi DataWidthBytesLog limit s.base_addr s.burst_len := by
  refine ⟨h.len_le, fun a hle hlt => ?_⟩
  have hbase : 2 ^ DataWidthBytesLog ∣ s.base_addr.toNat :=
    dvd_of_mod_eq_zero (h.inv.base (base_valid_of_write_enable hwrite))
  have hword : 2 ^ DataWidthBytesLog ∣ 4096 := pow_dvd_pow 2 hlog
  have hend : burst_end DataWidthBytesLog s.base_addr s.burst_len =
      s.base_addr.toNat + s.burst_len.toNat * 2 ^ DataWidthBytesLog + 2 ^ DataWidthBytesLog := by
    unfold burst_end
    rw [Nat.add_mul, Nat.add_mul, Nat.div_mul_cancel hbase, Nat.one_mul]
  have hlast : 2 ^ DataWidthBytesLog ∣
      s.base_addr.toNat + s.burst_len.toNat * 2 ^ DataWidthBytesLog :=
    Nat.dvd_add hbase (Nat.dvd_mul_left _ _)
  have hsame := h.page.2
  have hroom := word_in_page hword hlast
  generalize s.base_addr.toNat + s.burst_len.toNat * 2 ^ DataWidthBytesLog = last at *
  omega

/-- From the first reset on, every burst written keeps to the limits. -/
theorem obeysAxi_run (hlog : DataWidthBytesLog ≤ 12)
    (s : detect_burst AddrWidth DataWidthBytesLog WaitTimeWidth BurstLenWidth)
    (ins : Nat → BurstIn AddrWidth WaitTimeWidth BurstLenWidth)
    (hs : s.addr_empty_n_q = true → Aligned DataWidthBytesLog s.addr_dout_q)
    (haligned : ∀ c, (ins c).addr_empty_n = true → Aligned DataWidthBytesLog (ins c).addr_dout)
    (hlimit : ∀ c, (ins c).max_burst_len ≤ limit) {n t : Nat} (hn : 0 < n)
    (hreset : (ins (n - 1)).rst = true) (hnt : n ≤ t)
    (hwrite : (run step s ins t).write_enable (ins t) = true) :
    ObeysAxi DataWidthBytesLog limit (run step s ins t).base_addr
      (run step s ins t).burst_len := by
  have hinput : ∀ c, (run step s ins c).addr_empty_n_q = true →
      Aligned DataWidthBytesLog (run step s ins c).addr_dout_q := by
    intro c
    induction c with
    | zero => exact hs
    | succ c ih => exact step_input ih (haligned c)
  have hstart : Bounded limit (run step s ins n) := by
    have hi := hinput n
    rw [run_pred step s ins hn] at hi ⊢
    refine ⟨(reset_inv hreset hi).1, ?_, ?_⟩
    · simpa [step, hreset] using zero_le_limit limit
    · simpa [step, hreset] using samePage_zero _
  have hkeep : ∀ (s : detect_burst AddrWidth DataWidthBytesLog WaitTimeWidth BurstLenWidth) i,
      Bounded limit s → (i.addr_empty_n = true → Aligned DataWidthBytesLog i.addr_dout) ∧
        i.max_burst_len ≤ limit → Bounded limit (s.step i) :=
    fun _ _ h hi => h.step hlog hi.1 hi.2
  exact (run_keeps hkeep hnt hstart fun c _ _ => ⟨haligned c, hlimit c⟩).obeysAxi hlog hwrite

end detect_burst

end Burst

/-! ## Every width -/

/-- From the first reset on, the bursts keep to the limits at every setting: whatever aligned
addresses come, and whenever the outputs are full. -/
def BurstsObey (data_width : Nat) : Prop :=
  ∀ (s : bridge_detector data_width) (ins : Nat → BurstIn 64 2 8) (limit : BitVec 8) (n : Nat),
    (s.addr_empty_n_q = true → ElementAligned data_width s.addr_dout_q) →
    (∀ c, (ins c).addr_empty_n = true → ElementAligned data_width (ins c).addr_dout) →
    (∀ c, (ins c).max_burst_len ≤ limit) → 0 < n → (ins (n - 1)).rst = true →
    ∀ t, n ≤ t → (run detect_burst.step s ins t).write_enable (ins t) = true →
      ObeysAxi (routing_id_bits (data_width / 8)) limit (run detect_burst.step s ins t).base_addr
        (run detect_burst.step s ins t).burst_len

theorem burstsObey_of_dvd {data_width : Nat} (h : data_width / 8 ∣ 4096) :
    BurstsObey data_width := by
  have hpage : data_width / 8 ∣ 2 ^ 12 := h
  obtain ⟨k, hk, hbytes⟩ := (dvd_prime_pow prime_two).mp hpage
  have hlog : routing_id_bits (data_width / 8) = k := by rw [hbytes, routing_id_bits_two_pow]
  intro s ins limit n hs haligned hlimit hn hreset t hnt hwrite
  have hsize : data_width / 8 = 2 ^ routing_id_bits (data_width / 8) := by rw [hlog, hbytes]
  have halign : ∀ addr, ElementAligned data_width addr →
      detect_burst.Aligned (routing_id_bits (data_width / 8)) addr := by
    intro addr haddr
    unfold ElementAligned at haddr
    unfold detect_burst.Aligned
    rwa [← hsize]
  exact detect_burst.obeysAxi_run (hlog.trans_le hk) s ins (fun hq => halign _ (hs hq))
    (fun c hc => halign _ (haligned c hc)) hlimit hn hreset hnt hwrite

/-- One reset, an element, perhaps another one, and then nothing. The detector does not wait. -/
def twoElements (x y : BitVec 64) (both : Bool) (c : Nat) : BurstIn 64 2 8 :=
  ⟨decide (c = 0), 0, 1, if c = 1 then x else y, decide (c = 1) || (both && decide (c = 2)),
    true, true, true⟩

def idle_detector (data_width : Nat) : bridge_detector data_width :=
  ⟨0, false, 0, 0, 0, false, 0⟩

/-- A lone element is written as a burst of its own. -/
theorem lone_burst (data_width : Nat) (x : BitVec 64) :
    let s := run detect_burst.step (idle_detector data_width) (twoElements x 0 false) 3
    s.write_enable (twoElements x 0 false 3) = true ∧ s.base_addr = x ∧ s.burst_len = 0 := by
  refine ⟨rfl, rfl, rfl⟩

/-- Two elements of words in a row are one burst. -/
theorem merged_burst (data_width : Nat) {x y : BitVec 64}
    (hnext : word_addr (routing_id_bits (data_width / 8)) x + 1 =
      word_addr (routing_id_bits (data_width / 8)) y) (hpage : y.extractLsb' 0 12 ≠ 0) :
    let s := run detect_burst.step (idle_detector data_width) (twoElements x y true) 4
    s.write_enable (twoElements x y true 4) = true ∧ s.base_addr = x ∧ s.burst_len = 1 := by
  let pending : bridge_detector data_width :=
    ⟨x, true, 0, 0, detect_burst.after_burst _ x (0 : BitVec 8), true, y⟩
  have hext : pending.extends_burst (twoElements x y true 3) = true := by
    rw [detect_burst.extends_burst_iff]
    refine ⟨?_, hpage, show (0 : BitVec 8) < 1 by decide⟩
    show detect_burst.after_burst _ x (0 : BitVec 8) = word_addr _ y
    rw [← hnext]
    simp [detect_burst.after_burst]
  have hnext : pending.next (twoElements x y true 3) = ⟨false, x, true, 1, 0⟩ := by
    show (if pending.extends_burst (twoElements x y true 3) then _ else _) = _
    rw [hext]
    rfl
  intro s
  have hs : s = ⟨x, true, 1, 0, detect_burst.after_burst _ x (1 : BitVec 8), false, y⟩ := by
    show pending.step (twoElements x y true 3) = _
    unfold detect_burst.step
    rw [hnext]
    rfl
  rw [hs]
  exact ⟨rfl, rfl, rfl⟩

/-- What is written in the run of one element or two. -/
theorem BurstsObey.twoElements {data_width : Nat} (h : BurstsObey data_width) {x y : BitVec 64}
    {both : Bool} (hx : ElementAligned data_width x) (hy : ElementAligned data_width y) {t : Nat}
    (ht : 1 ≤ t) {base : BitVec 64} {len : BitVec 8}
    (hburst : let s := run detect_burst.step (idle_detector data_width) (twoElements x y both) t
      s.write_enable (twoElements x y both t) = true ∧ s.base_addr = base ∧ s.burst_len = len) :
    ObeysAxi (routing_id_bits (data_width / 8)) 1 base len := by
  obtain ⟨hwrite, rfl, rfl⟩ := hburst
  refine h (idle_detector data_width) (Rtl.twoElements x y both) 1 1 (fun hq => by cases hq)
    (fun c _ => ?_) (fun _ => BitVec.le_refl _) (by decide) rfl t ht hwrite
  show ElementAligned data_width (if c = 1 then x else y)
  split
  · exact hx
  · exact hy

/-- The last element that starts in the first page and the one behind it, which starts in the
next page but not at its start. Their words come in a row. -/
theorem cut_elements {b w : Nat} (hb : 0 < b) (hcut : ¬ b ∣ 4096) (hlt : b < 4096) (hbw : b ≤ w)
    (hw : w ∣ 4096) :
    4096 / b * b < 4096 ∧ 4096 < 4096 / b * b + b ∧ 4096 / b * b / w + 1 = 4096 / w ∧
      (4096 / b * b + b) / w = 4096 / w := by
  have hmodlt := mod_lt 4096 hb
  have hsum : 4096 / b * b + 4096 % b = 4096 := by
    rw [mul_comm]
    exact div_add_mod 4096 b
  obtain ⟨m, hm⟩ := hw
  have hwpos : 0 < w := lt_of_lt_of_le hb hbw
  have hdiv : 4096 / w = m := by
    rw [hm]
    exact Nat.mul_div_cancel_left m hwpos
  generalize 4096 / b * b = x at *
  rw [hdiv]
  have hmpos : 0 < m := Nat.pos_of_ne_zero (by rintro rfl; omega)
  refine ⟨by omega, by omega, ?_, ?_⟩
  · have hx : x / w = m - 1 := by
      rw [Nat.div_eq_iff hwpos]
      obtain ⟨k, rfl⟩ : ∃ k, m = k + 1 := ⟨m - 1, by omega⟩
      rw [mul_add] at hm
      rw [Nat.add_sub_cancel, Nat.mul_comm]
      omega
    omega
  · rw [Nat.div_eq_iff hwpos, Nat.mul_comm]
    omega

theorem toNat_ofNat_small {a : Nat} (h : a < 8192) : (BitVec.ofNat 64 a).toNat = a :=
  mod_eq_of_lt (by omega)

theorem elementAligned_of_dvd {data_width a : Nat} (h : a < 8192) (hdvd : data_width / 8 ∣ a) :
    ElementAligned data_width (BitVec.ofNat 64 a) := by
  unfold ElementAligned
  rw [toNat_ofNat_small h]
  exact mod_eq_zero_of_dvd hdvd

/-- Small addresses of words in a row. -/
theorem word_addr_succ {log a b : Nat} (hlog : log ≤ 12) (ha : a < 8192) (hb : b < 8192)
    (h : a / 2 ^ log + 1 = b / 2 ^ log) :
    word_addr log (BitVec.ofNat 64 a) + 1 = word_addr log (BitVec.ofNat 64 b) := by
  have hwide : 2 ^ 52 ≤ 2 ^ (64 - log) := Nat.pow_le_pow_right (by decide) (by omega)
  have hle : b / 2 ^ log ≤ b := div_le_self b _
  apply BitVec.eq_of_toNat_eq
  rw [BitVec.toNat_add, detect_burst.toNat_word_addr (by omega),
    detect_burst.toNat_word_addr (by omega), toNat_ofNat_small ha, toNat_ofNat_small hb, ← h]
  show (a / 2 ^ log + 1 % 2 ^ (64 - log)) % 2 ^ (64 - log) = a / 2 ^ log + 1
  rw [add_mod_mod]
  exact mod_eq_of_lt (by omega)

/-- An element larger than a page is in two pages. -/
theorem not_burstsObey_of_large {data_width : Nat} (hlarge : 4096 < data_width / 8) :
    ¬ BurstsObey data_width := by
  intro hobey
  have hsize := le_two_pow_routing_id_bits (data_width / 8)
  have hzero : ElementAligned data_width 0 := Nat.zero_mod _
  have hone := hobey.twoElements hzero hzero (by decide) (lone_burst data_width 0)
  refine absurd (hone.one_page 4096 (by decide) ?_) (by decide)
  show 4096 < (0 / 2 ^ routing_id_bits (data_width / 8) + 0 + 1) *
    2 ^ routing_id_bits (data_width / 8)
  rw [Nat.zero_div, Nat.zero_add]
  omega

/-- Two elements that the start of a page cuts apart are merged across it. -/
theorem not_burstsObey_of_cut {data_width : Nat} (hpos : 0 < data_width / 8)
    (hcut : ¬ data_width / 8 ∣ 4096) (hsmall : data_width / 8 < 4096) :
    ¬ BurstsObey data_width := by
  intro hobey
  have hlog : routing_id_bits (data_width / 8) ≤ 12 := routing_id_bits_le hsmall.le
  have hword : 2 ^ routing_id_bits (data_width / 8) ∣ 4096 := pow_dvd_pow 2 hlog
  obtain ⟨hx, hy, hxw, hyw⟩ := cut_elements hpos hcut hsmall
    (le_two_pow_routing_id_bits (data_width / 8)) hword
  have hdvd : data_width / 8 ∣ 4096 / (data_width / 8) * (data_width / 8) := dvd_mul_left _ _
  generalize 4096 / (data_width / 8) * (data_width / 8) = first at *
  have hstart : (BitVec.ofNat 64 (first + data_width / 8)).extractLsb' 0 12 ≠ 0 := by
    intro hzero
    have hnat := congrArg BitVec.toNat hzero
    rw [BitVec.extractLsb'_toNat, toNat_ofNat_small (by omega)] at hnat
    have hmod : (first + data_width / 8) % 4096 = 0 := hnat
    omega
  have hnext := word_addr_succ hlog (by omega)
    (by omega) (hxw.trans hyw.symm)
  have hone := hobey.twoElements (elementAligned_of_dvd (by omega) hdvd)
    (elementAligned_of_dvd (by omega) (Nat.dvd_add hdvd (Nat.dvd_refl _))) (by decide)
    (merged_burst data_width hnext hstart)
  have hend : 4096 < burst_end (routing_id_bits (data_width / 8)) (BitVec.ofNat 64 first)
      (1 : BitVec 8) := by
    unfold burst_end
    rw [toNat_ofNat_small (by omega)]
    show 4096 < (first / 2 ^ routing_id_bits (data_width / 8) + 1 + 1) *
      2 ^ routing_id_bits (data_width / 8)
    rw [hxw, Nat.add_mul, Nat.div_mul_cancel hword]
    omega
  have hpage := hone.one_page 4096 (by rw [toNat_ofNat_small (by omega)]; omega) hend
  rw [toNat_ofNat_small (by omega)] at hpage
  omega

/-- The bursts keep to the limits just when a page holds a whole number of elements. -/
theorem bursts_obey_axi_just_when_elements_fill_pages (conn : Option MemoryGeometry)
    (hconn : ∀ g, conn = some g → ∃ data_width chan_count chan_size,
      MemoryGeometry.new data_width chan_count chan_size = .ok g) :
    BurstsObey (bridge_data_width conn) ↔ bridge_data_width conn / 8 ∣ 4096 := by
  have hpos : 0 < bridge_data_width conn / 8 := by
    cases conn with
    | none => decide
    | some g =>
      obtain ⟨_, _, _, hnew⟩ := hconn g rfl
      exact MemoryGeometry.bytes_pos hnew
  refine ⟨fun hobey => by_contra fun hcut => ?_, burstsObey_of_dvd⟩
  rcases lt_trichotomy (bridge_data_width conn / 8) 4096 with hlt | heq | hlarge
  · exact not_burstsObey_of_cut hpos hcut hlt hobey
  · exact hcut (heq ▸ Nat.dvd_refl 4096)
  · exact not_burstsObey_of_large hlarge hobey

/-- Elements of 512 bits fill the pages. -/
theorem wide_words_obey_axi : BurstsObey 512 :=
  (bursts_obey_axi_just_when_elements_fill_pages (some ⟨512, none⟩)
    fun _ hg => ⟨512, none, none, by cases hg; rfl⟩).mpr (by decide)

/-- Elements of 96 bits do not: those at 4092 and 4104 become one burst of two beats of 16
bytes, which starts in the first page and ends in the second. -/
theorem a_burst_of_twelve_byte_elements_leaves_its_page :
    let ins := twoElements 4092 4104 true
    let s := run detect_burst.step (idle_detector 96) ins 4
    MemoryGeometry.new 96 none none = .ok ⟨96, none⟩ ∧
      (∀ c, ElementAligned 96 (ins c).addr_dout) ∧ s.write_enable (ins 4) = true ∧
      s.base_addr = 4092 ∧ s.burst_len = 1 ∧
      ¬ ObeysAxi (routing_id_bits (96 / 8)) 1 s.base_addr s.burst_len := by
  refine ⟨rfl, fun c => ?_, by decide +kernel, by decide +kernel, by decide +kernel, fun h => ?_⟩
  · show ElementAligned 96 (if c = 1 then 4092 else 4104)
    split <;> decide
  · exact absurd (h.one_page 4096 (by decide +kernel) (by decide +kernel)) (by decide +kernel)

end Tapa.Rtl
