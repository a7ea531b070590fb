-- The crossbar of a memory argument (`m_axi.rs`): the window of addresses that each channel
-- of an hmap gets.
import Tapa.BurstLimits

namespace Tapa.Rtl

/-! ## The windows -/

def AXI_ADDR_WIDTH : Nat := 64

namespace MemoryGeometry

section

variable (g : MemoryGeometry)

/-- `MemoryGeometry::channel_addr_width`. The product of two 32-bit numbers is one of 64. -/
def channel_addr_width : Option Nat :=
  g.channels.map fun shape => Nat.log2 (shape.2 * (g.data_width / 8))

def channel_count : Nat := g.channels.elim 1 Prod.fst

/-- The width of every window of `try_build_crossbar_params`. -/
def addr_width : Nat := g.channel_addr_width.getD AXI_ADDR_WIDTH

/-- `M{idx}_BASE_ADDR`: a shift of a `u64` drops the bits that leave it. -/
def base_addr (idx : Nat) : Nat :=
  if AXI_ADDR_WIDTH ≤ g.addr_width then 0 else (idx <<< g.addr_width) % 2 ^ 64

/-- The highest bit of a channel's part of an address, in `add_m_axi_and_crossbars`. There is
none where `addr_width - 1` underflows. -/
def local_addr_msb : Option Nat :=
  if 64 ≤ g.addr_width then some (AXI_ADDR_WIDTH - 1)
  else if g.addr_width = 0 then none else some (g.addr_width - 1)

/-- `connect_bits` of `generate_crossbar_rtl`. There is none where the `u32` product
overflows. -/
def connect_bits (slaves : Nat) : Option Nat :=
  if g.channel_count * slaves < 2 ^ 32 then some (g.channel_count * slaves) else none

/-- The check of `axi_crossbar_addr` on the width of a window. A width of zero passes it and
turns the window off, and one from 1 to 11 ends the run with an error. -/
def width_in_range : Prop :=
  g.addr_width = 0 ∨ 12 ≤ g.addr_width ∧ g.addr_width ≤ AXI_ADDR_WIDTH

/-- The crossbar sends an address to a master by the bits above the width of its window. -/
def receives (idx addr : Nat) : Prop :=
  g.width_in_range ∧ g.addr_width ≠ 0 ∧ addr < 2 ^ AXI_ADDR_WIDTH ∧
    addr >>> g.addr_width = g.base_addr idx >>> g.addr_width

end

/-- The channels are `bytes` long and follow each other. Each window has the addresses of its
channel, apart from those of the others, and no number on the way to a crossbar for that
many slaves leaves its type. -/
structure Partitions (g : MemoryGeometry) (bytes slaves : Nat) : Prop where
  disjoint : ∀ i < g.channel_count, ∀ j < g.channel_count, i ≠ j → ∀ addr,
    ¬(g.receives i addr ∧ g.receives j addr)
  inside : ∀ i < g.channel_count, g.base_addr i + bytes ≤ 2 ^ AXI_ADDR_WIDTH
  exactly : ∀ i < g.channel_count, ∀ addr,
    g.receives i addr ↔ i * bytes ≤ addr ∧ addr < (i + 1) * bytes
  shifts : ∀ i < g.channel_count, g.base_addr i = i * 2 ^ g.addr_width
  subtracts : g.local_addr_msb.isSome = true
  multiplies : (g.connect_bits slaves).isSome = true

section

variable {g : MemoryGeometry} (hlt : g.addr_width < 64) {i : Nat}
  (hend : (i + 1) * 2 ^ g.addr_width ≤ 2 ^ 64)
include hlt hend

theorem base_addr_eq : g.base_addr i = i * 2 ^ g.addr_width := by
  rw [base_addr, AXI_ADDR_WIDTH, if_neg (Nat.not_le.mpr hlt), Nat.shiftLeft_eq]
  rw [Nat.add_mul] at hend
  have := Nat.two_pow_pos g.addr_width
  exact Nat.mod_eq_of_lt (by omega)

/-- A window of a page or more gets the addresses of its channel. -/
theorem receives_iff (hpage : 12 ≤ g.addr_width) {addr : Nat} :
    g.receives i addr ↔ addr / 2 ^ g.addr_width = i := by
  have hpos : 0 < 2 ^ g.addr_width := Nat.two_pow_pos _
  have hrange : g.width_in_range := .inr ⟨hpage, hlt.le⟩
  rw [receives, and_iff_right hrange, and_iff_right (by omega), base_addr_eq hlt hend,
    Nat.shiftRight_eq_div_pow, Nat.shiftRight_eq_div_pow, Nat.mul_div_cancel _ hpos,
    and_iff_right_iff_imp, AXI_ADDR_WIDTH]
  rintro rfl
  exact ((Nat.div_lt_iff_lt_mul hpos).mp (Nat.lt_succ_self _)).trans_le hend

end

/-- The windows partition the addresses of an hmap just where a channel has a page or more,
all channels together fit into 64 bits, and the connections of channels and slaves can be
counted in 32. -/
theorem windows_partition_just_where_channels_fit {data_width count size slaves : Nat}
    {g : MemoryGeometry} (hwidth : data_width < 2 ^ 32) (hsize : size < 2 ^ 32)
    (h : MemoryGeometry.new data_width (some count) (some size) = .ok g) :
    Partitions g (size * (data_width / 8)) slaves ↔
      2 ^ 12 ≤ size * (data_width / 8) ∧ count * (size * (data_width / 8)) ≤ 2 ^ 64 ∧
        count * slaves < 2 ^ 32 := by
  obtain ⟨hg, -, hshape, hpow⟩ := new_eq_ok h
  have hchan : 0 < count ∧ g.channels = some (count, size) := by
    cases count with
    | zero => cases hshape
    | succ n => exact ⟨by omega, (Except.ok.inj hshape).symm⟩
  have hcount : g.channel_count = count := by rw [channel_count, hchan.2]; rfl
  have hbytes : size * (data_width / 8) = 2 ^ g.addr_width := by
    rw [addr_width, channel_addr_width, hchan.2, hg]
    exact (hpow _ hchan.2).symm
  have hlt : g.addr_width < 64 := by
    have : size * (data_width / 8) < 2 ^ 32 * 2 ^ 32 :=
      Nat.mul_lt_mul'' hsize (by omega)
    rw [hbytes] at this
    exact (Nat.pow_lt_pow_iff_right (by decide)).mp this
  have hconnect : (g.connect_bits slaves).isSome = true ↔ count * slaves < 2 ^ 32 := by
    rw [connect_bits, hcount]
    by_cases hmul : count * slaves < 2 ^ 32 <;> simp
  rw [hbytes]
  have hpos : 0 < 2 ^ g.addr_width := Nat.two_pow_pos _
  constructor
  · -- The last address of the last channel is received, so it is one of 64 bits.
    intro hp
    have hlast := (hp.exactly (count - 1) (by omega) (count * 2 ^ g.addr_width - 1)).mpr (by
      rw [Nat.sub_add_cancel hchan.1]
      have : 1 * 2 ^ g.addr_width ≤ count * 2 ^ g.addr_width := Nat.mul_le_mul_right _ hchan.1
      rw [Nat.sub_mul]
      omega)
    have hpage : 12 ≤ g.addr_width := by
      rcases hlast.1 with h0 | hrange
      · exact absurd h0 hlast.2.1
      · exact hrange.1
    exact ⟨Nat.pow_le_pow_right (by decide) hpage, Nat.le_of_pred_lt hlast.2.2.1,
      hconnect.mp hp.multiplies⟩
  · rintro ⟨hpage, hfit, hslaves⟩
    have hle : 12 ≤ g.addr_width := (Nat.pow_le_pow_iff_right (by decide)).mp hpage
    have hend {i : Nat} (hi : i < g.channel_count) : (i + 1) * 2 ^ g.addr_width ≤ 2 ^ 64 :=
      Nat.le_trans (Nat.mul_le_mul_right _ (by omega)) hfit
    refine ⟨fun i hi j hj hij addr haddr => ?_, fun i hi => ?_, fun i hi addr => ?_,
      fun i hi => base_addr_eq hlt (hend hi), ?_, hconnect.mpr hslaves⟩
    · rw [receives_iff hlt (hend hi) hle, receives_iff hlt (hend hj) hle] at haddr
      exact hij (haddr.1.symm.trans haddr.2)
    · have hfits := hend hi
      rw [Nat.add_mul] at hfits
      rw [base_addr_eq hlt (hend hi), AXI_ADDR_WIDTH]
      omega
    · rw [receives_iff hlt (hend hi) hle, Nat.div_eq_iff hpos]
      rw [Nat.add_mul]
      omega
    · rw [local_addr_msb, if_neg (Nat.not_le.mpr hlt), if_neg (by omega)]
      rfl

theorem two_channels_partition :
    MemoryGeometry.new 32 (some 2) (some 1024) = .ok ⟨32, some (2, 1024)⟩ ∧
      Partitions ⟨32, some (2, 1024)⟩ (1024 * (32 / 8)) 3 := by
  have h : MemoryGeometry.new 32 (some 2) (some 1024) = .ok ⟨32, some (2, 1024)⟩ := rfl
  exact ⟨h, (windows_partition_just_where_channels_fit (by decide) (by decide) h).mpr (by decide)⟩

/-- A channel of one byte is accepted. Its slice of the address has no highest bit. -/
theorem a_channel_of_one_byte_underflows :
    MemoryGeometry.new 8 (some 1) (some 1) = .ok ⟨8, some (1, 1)⟩ ∧
      local_addr_msb ⟨8, some (1, 1)⟩ = none ∧ ¬Partitions ⟨8, some (1, 1)⟩ 1 1 :=
  ⟨rfl, by decide, fun h => absurd h.subtracts (by decide)⟩

end MemoryGeometry

end Tapa.Rtl
