-- The storage that codegen chooses for an internal stream, from `fifos.rs`: a
-- plain FIFO, a FIFO with a registered ready, or a crossing pipeline. When each
-- takes a word, and how many words each takes before it refuses one.
import Tapa.HsPipeline

namespace Tapa.Rtl

open Clock WordMemory GraceChain

/-! ## The choice -/

/-- `routing_id_bits`: the bits of `n - 1`. -/
def routing_id_bits (n : Nat) : Nat := if n ≤ 1 then 0 else Nat.log2 (n - 1) + 1

def fifo_addr_width (depth : Nat) : Nat := max (routing_id_bits depth) 1

def floorplanned_fifo_storage_depth (logical_depth : Nat) : Nat :=
  if logical_depth ≤ 64 then logical_depth + 5 else logical_depth

def build_fifo_instance (width depth : Nat) : FifoModule (BitVec width) :=
  fifo width (fifo_addr_width depth) depth

def build_registered_ready_fifo_instance (width logical_depth : Nat) : FifoModule (BitVec width) :=
  let storage_depth := floorplanned_fifo_storage_depth logical_depth
  fifo_almost_full width (fifo_addr_width storage_depth) storage_depth 1

def build_hs_pipeline_instance (width depth body_level : Nat) : FifoModule (BitVec width) :=
  hs_pipeline width depth body_level

/-- The storage of one internal stream. -/
def build_internal_fifo_instance (width depth : Nat) (floorplanned : Bool)
    (crossing_level : Option Nat) : FifoModule (BitVec width) :=
  match crossing_level with
  | some level => build_hs_pipeline_instance width depth level
  | none =>
    if floorplanned && floorplanned_fifo_storage_depth depth != depth then
      build_registered_ready_fifo_instance width depth
    else build_fifo_instance width depth

structure StreamIn (width : Nat) where
  reset : Bool
  write : Bool
  din : BitVec width
  read : Bool

/-- The clock enables are tied high. -/
def fifo_port_args {width : Nat} (i : StreamIn width) : FifoIn (BitVec width) :=
  ⟨i.reset, true, i.write, i.din, true, i.read⟩

variable {width : Nat}

@[simp] theorem fifo_port_args_write (i : StreamIn width) :
    (fifo_port_args i).write = i.write := Bool.and_true _

@[simp] theorem fifo_port_args_read (i : StreamIn width) :
    (fifo_port_args i).read = i.read := Bool.and_true _

/-- The choice falls on the FIFO with a registered ready. -/
def RegisteredReady (depth : Nat) (floorplanned : Bool) (crossing_level : Option Nat) : Prop :=
  crossing_level = none ∧ floorplanned = true ∧ depth ≤ 64

instance (depth : Nat) (floorplanned : Bool) (crossing_level : Option Nat) :
    Decidable (RegisteredReady depth floorplanned crossing_level) :=
  inferInstanceAs (Decidable (_ ∧ _ ∧ _))

variable {depth : Nat}

theorem storage_depth_ne :
    floorplanned_fifo_storage_depth depth ≠ depth ↔ depth ≤ 64 := by
  unfold floorplanned_fifo_storage_depth
  split <;> omega

variable {floorplanned : Bool} {crossing_level : Option Nat}

theorem registeredReady_eq (h : RegisteredReady depth floorplanned crossing_level) :
    build_internal_fifo_instance width depth floorplanned crossing_level =
      fifo_srl_almost_full.rtl (BitVec width) (depth + 5) 1 := by
  obtain ⟨rfl, rfl, hd⟩ := h
  have hne : (floorplanned_fifo_storage_depth depth != depth) = true :=
    bne_iff_ne.mpr (storage_depth_ne.mpr hd)
  unfold build_internal_fifo_instance
  simp only [hne, Bool.and_true, if_true]
  unfold build_registered_ready_fifo_instance floorplanned_fifo_storage_depth fifo_almost_full
  rw [if_pos hd, if_neg (by omega), if_neg (by omega)]

theorem plain_eq (h : ¬RegisteredReady depth floorplanned none) :
    build_internal_fifo_instance width depth floorplanned none =
      fifo width (fifo_addr_width depth) depth := by
  have hne : ¬(floorplanned && floorplanned_fifo_storage_depth depth != depth) = true := by
    rw [Bool.and_eq_true, bne_iff_ne, storage_depth_ne]
    exact fun hc => h ⟨rfl, hc.1, hc.2⟩
  unfold build_internal_fifo_instance
  simp only [if_neg hne]
  rfl

/-! ## When a word is stored -/

/-- The module takes a word exactly when it is offered and `if_full_n` is high. -/
def FifoModule.Gated {α : Type} (m : FifoModule α) : Prop :=
  ∀ s i, m.stored s i = (i.write && m.if_full_n s)

theorem fifo_bram.gated (DATA_WIDTH DEPTH ADDR_WIDTH : Nat) :
    (fifo_bram.rtl (BitVec DATA_WIDTH) DEPTH ADDR_WIDTH).Gated := by
  intro s i
  show (s.full_n && i.if_write_ce && i.if_write) = ((i.if_write && i.if_write_ce) && s.full_n)
  cases s.full_n <;> cases i.if_write_ce <;> cases i.if_write <;> rfl

theorem fifo_gated (DATA_WIDTH ADDR_WIDTH DEPTH : Nat) :
    (fifo DATA_WIDTH ADDR_WIDTH DEPTH).Gated := by
  unfold fifo
  split
  · exact fun _ _ => rfl
  split
  · exact fifo_bram.gated _ _ _
  split
  · exact fifo_bram.gated _ _ _
  · exact fun _ _ => rfl

theorem hs_pipeline_gated (DATA_WIDTH DEPTH BODY_LEVEL : Nat) :
    (hs_pipeline DATA_WIDTH DEPTH BODY_LEVEL).Gated := fun _ _ => rfl

theorem gated_of_not_registeredReady (h : ¬RegisteredReady depth floorplanned crossing_level) :
    (build_internal_fifo_instance width depth floorplanned crossing_level).Gated := by
  cases crossing_level with
  | some level => exact hs_pipeline_gated width depth level
  | none =>
    rw [plain_eq h]
    exact fifo_gated _ _ _

/-- From any reset on, and for any writer and reader, a word is stored at a clock
edge exactly when the writer offers it and `if_full_n` is high. -/
def StoresOnHandshake {width : Nat} (m : FifoModule (BitVec width)) : Prop :=
  ∀ (s : m.State) (ins : Nat → StreamIn width) (n : Nat), 0 < n →
    (∀ c, c < n → (ins c).reset = true) → (∀ c, n ≤ c → (ins c).reset = false) →
      ∀ t, n ≤ t →
        let st := run m.step s (fun c => fifo_port_args (ins c)) t
        m.stored st (fifo_port_args (ins t)) = ((ins t).write && m.if_full_n st)

theorem FifoModule.Gated.storesOnHandshake {m : FifoModule (BitVec width)} (h : m.Gated) :
    StoresOnHandshake m := by
  intro s ins n _ _ _ t _
  simp only [h _ _, fifo_port_args_write]

namespace fifo_srl_almost_full

variable {α : Type} [Inhabited α] {DEPTH : Nat}

/-- A writer that never stops and a reader that never reads. -/
def fill (width : Nat) (c : Nat) : StreamIn width := ⟨decide (c < 1), true, 0, false⟩

/-- After `k` cycles of it the FIFO holds `k` words, up to its depth. -/
theorem fill_count {width : Nat} (hs : Sized DEPTH 1)
    (s : fifo_srl_almost_full (BitVec width) DEPTH 1) {k : Nat} (hk : k ≤ DEPTH) :
    Inv (run step s (fun c => fifo_port_args (fill width c)) (k + 1)) ∧
      (run step s (fun c => fifo_port_args (fill width c)) (k + 1)).count = k := by
  induction k with
  | zero =>
    obtain ⟨hi, _⟩ := reset_inv hs s (fifo_port_args (fill width 0)) rfl
    exact ⟨hi, (SrlCore.reset_inv hs.core s.core (fifo_port_args (fill width 0)) rfl).2⟩
  | succ k ih =>
    obtain ⟨hi, hc⟩ := ih (by omega)
    have hlive : (fifo_port_args (fill width (k + 1))).Live :=
      show decide (k + 1 < 1) = false from decide_eq_false (by omega)
    have hstored := stored_of_room hs hi (i := fifo_port_args (fill width (k + 1)))
      (fun _ => by omega)
    have hcount := (SrlCore.step_inv hs.core _ _ hi.core hlive).2
    rw [show SrlCore.shift_reg_ce _ _ = true from hstored] at hcount
    refine ⟨step_inv hs _ _ hi hlive, hcount.trans ?_⟩
    show (run step s (fun c => fifo_port_args (fill width c)) (k + 1)).count + 1 - 0 = k + 1
    rw [hc, Nat.sub_zero]

/-- One cycle after the FIFO lowers its ready it still takes a word. -/
theorem not_storesOnHandshake {width : Nat} (hs : Sized DEPTH 1) :
    ¬StoresOnHandshake (rtl (BitVec width) DEPTH 1) := by
  intro h
  have h4 := hs.four_le
  let s : fifo_srl_almost_full (BitVec width) DEPTH 1 := ⟨⟨0, false, false, fun _ => 0⟩, 0, false⟩
  obtain ⟨hi, hc⟩ := fill_count hs s (show DEPTH - 2 ≤ DEPTH by omega)
  obtain ⟨hi', hc'⟩ := fill_count hs s (show DEPTH - 2 + 1 ≤ DEPTH by omega)
  have hfull : (run step s (fun c => fifo_port_args (fill width c)) (DEPTH - 2 + 1 + 1)).if_full_n =
      false := by
    show (!(run step s (fun c => fifo_port_args (fill width c)) (DEPTH - 2 + 1)).almost_full) =
      false
    rw [almost_full_eq hs hi, decide_eq_true (by omega)]
    rfl
  have hstored := stored_of_room hs hi' (i := fifo_port_args (fill width (DEPTH - 2 + 1 + 1)))
    (fun _ => by omega)
  have heq := h s (fill width) 1 (by decide) (fun c hc => decide_eq_true hc)
    (fun c hc => decide_eq_false (by omega)) (DEPTH - 2 + 1 + 1) (by omega)
  have htrue : (run step s (fun c => fifo_port_args (fill width c)) (DEPTH - 2 + 1 + 1)).shiftReg_ce
      (fifo_port_args (fill width (DEPTH - 2 + 1 + 1))) = true := hstored
  have hfalse : ((fill width (DEPTH - 2 + 1 + 1)).write &&
      (run step s (fun c => fifo_port_args (fill width c)) (DEPTH - 2 + 1 + 1)).if_full_n) =
      false := by
    rw [hfull]
    rfl
  exact absurd (htrue.symm.trans (heq.trans hfalse)) (by simp)

end fifo_srl_almost_full

theorem registeredReady_not_storesOnHandshake
    (h : RegisteredReady depth floorplanned crossing_level) :
    ¬StoresOnHandshake (build_internal_fifo_instance width depth floorplanned crossing_level) := by
  have hd := h.2.2
  rw [registeredReady_eq h]
  exact fifo_srl_almost_full.not_storesOnHandshake ⟨by omega, by omega, by omega⟩

/-- Every storage that codegen chooses stores exactly on the handshake, but for
the FIFO with a registered ready. -/
theorem a_word_is_stored_on_the_handshake (width depth : Nat) (floorplanned : Bool)
    (crossing_level : Option Nat) :
    StoresOnHandshake (build_internal_fifo_instance width depth floorplanned crossing_level) ↔
      crossing_level ≠ none ∨ floorplanned = false ∨ 64 < depth := by
  by_cases h : RegisteredReady depth floorplanned crossing_level
  · refine iff_of_false (registeredReady_not_storesOnHandshake h) ?_
    obtain ⟨hc, hf, hd⟩ := h
    rintro (h1 | h1 | h1)
    · exact h1 hc
    · rw [hf] at h1
      cases h1
    · omega
  · refine iff_of_true (gated_of_not_registeredReady h).storesOnHandshake ?_
    by_contra hno
    simp only [ne_eq, not_or, Decidable.not_not, Bool.not_eq_false, Nat.not_lt] at hno
    exact h hno

/-- A stream of depth 1 inside one slot stores a word while its ready is low. -/
theorem a_shallow_stream_stores_a_refused_word :
    ¬StoresOnHandshake (build_internal_fifo_instance 32 1 true none) :=
  registeredReady_not_storesOnHandshake ⟨rfl, rfl, by decide⟩

/-! ## The words of the chosen storage -/

/-- The cycles after which the registers in front of the storage hold new words only. -/
def turnover : Option Nat → Nat
  | none => 0
  | some body_level => body_level + 1

/-- The cycles that a change of the storage takes to reach the writer. -/
def ready_latency (depth : Nat) (floorplanned : Bool) (crossing_level : Option Nat) : Nat :=
  match crossing_level with
  | some body_level => body_level + 2
  | none => if RegisteredReady depth floorplanned none then 1 else 0

theorem le_two_pow_routing_id_bits (n : Nat) : n ≤ 2 ^ routing_id_bits n := by
  unfold routing_id_bits
  split
  · simpa
  · have := Nat.lt_log2_self (n := n - 1)
    omega

theorem le_two_pow_fifo_addr_width (depth : Nat) : depth ≤ 2 ^ fifo_addr_width depth :=
  Nat.le_trans (le_two_pow_routing_id_bits depth)
    (Nat.pow_le_pow_right (by decide) (Nat.le_max_left _ _))

/-- A plain FIFO is a queue that holds its depth. -/
theorem fifo_holds (DATA_WIDTH : Nat) {DEPTH : Nat} (h1 : 1 ≤ DEPTH) :
    (fifo DATA_WIDTH (fifo_addr_width DEPTH) DEPTH).Holds DEPTH 0 0 := by
  have haddr := le_two_pow_fifo_addr_width DEPTH
  have hbram (h2 : 2 ≤ DEPTH) :
      (fifo_bram.rtl (BitVec DATA_WIDTH) DEPTH (fifo_addr_width DEPTH)).Holds DEPTH 0 0 := by
    have hs : fifo_bram.Sized DEPTH (fifo_addr_width DEPTH) := .of_two_le h2 haddr
    refine ⟨fifo_bram.isQueue hs, (fifo_bram.isQueue_clears hs).turns, ?_⟩
    intro s ins t hinv hlen
    have hi : fifo_bram.Inv (run fifo_bram.step s ins t) := hinv t (by omega) (by omega)
    have hl : (run fifo_bram.step s ins t).words.length < DEPTH := hlen t (by omega) (by omega)
    have hle : (run fifo_bram.step s ins t).count ≤ (run fifo_bram.step s ins t).words.length := by
      simp [fifo_bram.words]
    exact hi.full.trans (decide_eq_true (by omega))
  unfold fifo
  split
  · refine ⟨fifo_fwd.isQueue _, fifo_fwd.isQueue_clears.turns, ?_⟩
    intro s ins t _ hlen
    have hl : (run fifo_fwd.step s ins t).words.length < DEPTH := hlen t (by omega) (by omega)
    show (!(run fifo_fwd.step s ins t).is_mem_valid) = true
    cases hv : (run fifo_fwd.step s ins t).is_mem_valid with
    | false => rfl
    | true =>
      simp only [fifo_fwd.words, hv, emit_true, List.length_singleton] at hl
      omega
  split
  · exact hbram (by omega)
  split
  · exact hbram (by omega)
  refine ⟨fifo_srl.isQueue (by omega) (by omega), (fifo_srl.isQueue_clears _ _).turns, ?_⟩
  intro s ins t hinv hlen
  have hi : SrlCore.Inv DEPTH (run fifo_srl.step s ins t) := hinv t (by omega) (by omega)
  have hl : (SrlCore.words (run fifo_srl.step s ins t)).length < DEPTH :=
    hlen t (by omega) (by omega)
  simp only [SrlCore.words, shiftWords_length] at hl
  exact hi.full.trans (decide_eq_true (by omega))

/-- A FIFO with a registered ready is a queue that holds its logical depth. -/
theorem registered_ready_holds (α : Type) [Inhabited α] (h : depth ≤ 64) :
    (fifo_srl_almost_full.rtl α (depth + 5) 1).Holds depth 0 1 := by
  have hs : fifo_srl_almost_full.Sized (depth + 5) 1 := ⟨by omega, by omega, by omega⟩
  have q := fifo_srl_almost_full.isTail (α := α) hs
  refine ⟨q.toIsQueue, q.clears.turns, ?_⟩
  intro s ins t hinv hlen
  have hc := q.count_le _ (hinv t (by omega) (by omega))
  have hc' := q.count_le _ (hinv (t + 1) (by omega) (by omega))
  have hl := hlen t (by omega) (by omega)
  have hl' := hlen (t + 1) (by omega) (by omega)
  rw [run_succ] at hc' hl'
  exact q.ready _ _ (hinv t (by omega) (by omega)) (hinv (t + 1) (by omega) (by omega)) (by omega)
    (by omega)

/-- A crossing is a queue that holds its logical depth. -/
theorem hs_pipeline_holds (DATA_WIDTH DEPTH BODY_LEVEL : Nat) :
    (hs_pipeline DATA_WIDTH DEPTH BODY_LEVEL).Holds DEPTH (BODY_LEVEL + 1) (BODY_LEVEL + 2) := by
  refine ⟨hs_pipeline.isQueue DATA_WIDTH DEPTH BODY_LEVEL, hs_pipeline.isQueue_turns _ _ _, ?_⟩
  exact fun s ins t hinv hlen =>
    tapa_hs_pipeline.ready_of_few (hs_pipeline.isTail DATA_WIDTH DEPTH BODY_LEVEL) rfl s ins t hinv
      hlen

/-- Whatever the choice, the storage is a queue that holds its logical depth. -/
theorem build_internal_fifo_instance_holds (width : Nat) (h1 : 1 ≤ depth ∨ floorplanned = true)
    (crossing_level : Option Nat) :
    (build_internal_fifo_instance width depth floorplanned crossing_level).Holds depth
      (turnover crossing_level) (ready_latency depth floorplanned crossing_level) := by
  cases crossing_level with
  | some level => exact hs_pipeline_holds width depth level
  | none =>
    unfold ready_latency turnover
    by_cases h : RegisteredReady depth floorplanned none
    · rw [if_pos h, registeredReady_eq h]
      exact registered_ready_holds _ h.2.2
    rw [if_neg h, plain_eq h]
    refine fifo_holds width ?_
    rcases h1 with h1 | hf
    · exact h1
    · have : ¬depth ≤ 64 := fun hd => h ⟨rfl, hf, hd⟩
      omega

/-! ## The depth of the chosen storage -/

/-- The words that the writer has handed over by cycle `t` and that the reader
has not taken. -/
def unread {α : Type} (m : FifoModule α) (s : m.State) (ins : Nat → FifoIn α) (turn n t : Nat) :
    Nat :=
  (window (fun c => m.accepted (run m.step s ins c) (ins c)) (n - turn) t).length -
    (window (fun c => m.given (run m.step s ins c) (ins c)) n t).length

section Depth

variable {α : Type} {m : FifoModule α} {depth turn late : Nat} {s : m.State}
  {ins : Nat → FifoIn α} {n t : Nat}

section

variable (hn : 0 < n) (hturn : turn ≤ n) (hreset : (ins (n - 1)).reset = true)
  (hlive : ∀ c, n ≤ c → (ins c).reset = false)
  (htaken : ∀ c, n - turn ≤ c →
    m.taken (run m.step s ins c) (ins c) = m.accepted (run m.step s ins c) (ins c))
include hn hturn hreset hlive htaken

/-- When a queue stores what it accepts, its words are the unread ones. -/
theorem unread_eq {q : m.IsQueue} (hq : q.Turns turn) (hnt : n ≤ t) :
    q.inv (run m.step s ins t) ∧
      (q.words (run m.step s ins t)).length = unread m s ins turn n t := by
  obtain ⟨hinv, heq⟩ := hq.conserves s ins hn hturn hreset (fun c hc _ => hlive c hc) hnt
  refine ⟨hinv, ?_⟩
  unfold unread
  rw [window_congr (by omega) (fun c hc _ => (htaken c hc).symm), heq, List.length_append]
  omega

/-- A queue that holds its depth and stores what it accepts recovers in time. -/
theorem ready_of_unread (hm : m.Holds depth turn late) (hnt : n ≤ t)
    (hfew : ∀ c, t ≤ c → c ≤ t + late → unread m s ins turn n c < depth) :
    m.if_full_n (run m.step s ins (t + late)) = true := by
  obtain ⟨q, hq, hrec⟩ := hm
  have hu : ∀ c, t ≤ c → c ≤ t + late → _ := fun c h1 _ =>
    unread_eq (t := c) hn hturn hreset hlive htaken hq (by omega)
  refine hrec s ins t (fun c h1 h2 => (hu c h1 h2).1) (fun c h1 h2 => ?_)
  rw [(hu c h1 h2).2]
  exact hfew c h1 h2

/-- With no reader, it is ready for as long as it has accepted fewer words. -/
theorem ready_of_accepted (hm : m.Holds depth turn late)
    (hnt : n + late ≤ t)
    (hfew : (window (fun c => m.accepted (run m.step s ins c) (ins c)) (n - turn) t).length <
      depth) :
    m.if_full_n (run m.step s ins t) = true := by
  have h := ready_of_unread hn hturn hreset hlive htaken hm (show n ≤ t - late by omega)
    (fun c h1 h2 => ?_)
  · rwa [Nat.sub_add_cancel (by omega)] at h
  · have hmono := window_length_mono (fun c => m.accepted (run m.step s ins c) (ins c))
      (show n - turn ≤ c by omega) (show c ≤ t by omega)
    unfold unread
    omega

end

/-- While the ready was high, the storage took no more than it accepted, but for
the first cycle, when the ready is still that of the reset. -/
theorem taken_le_accepted (hstored : ∀ s i, m.stored s i = true → i.write = true) (hnt : n ≤ t)
    (hready : ∀ c, n < c → c < t → m.if_full_n (run m.step s ins c) = true) :
    (window (fun c => m.taken (run m.step s ins c) (ins c)) n t).length ≤
      (window (fun c => m.accepted (run m.step s ins c) (ins c)) n t).length + 1 := by
  have hle : ∀ c, n < c → c < t → (m.taken (run m.step s ins c) (ins c)).length ≤
      (m.accepted (run m.step s ins c) (ins c)).length := by
    intro c h1 h2
    unfold FifoModule.taken FifoModule.accepted
    rw [hready c h1 h2]
    cases hst : m.stored (run m.step s ins c) (ins c) with
    | false => simp
    | true => simp [hstored _ _ hst]
  rcases Nat.lt_or_ge n t with hlt | hge
  · have hfirst :
        (window (fun c => m.taken (run m.step s ins c) (ins c)) n (n + 1)).length ≤ 1 := by
      rw [window_succ _ (Nat.le_refl n), window_self, List.nil_append]
      unfold FifoModule.taken
      rw [emit_length]
      exact Bool.toNat_le _
    have hrest := window_length_le_window (show n + 1 ≤ t by omega)
      (fun c h1 h2 => hle c (by omega) h2)
    rw [window_append _ (by omega : n ≤ n + 1) (by omega : n + 1 ≤ t), List.length_append,
      window_append (fun c => m.accepted (run m.step s ins c) (ins c)) (by omega : n ≤ n + 1)
        (by omega : n + 1 ≤ t), List.length_append]
    omega
  · obtain rfl : t = n := by omega
    simp

/-- A tail whose writer offers words only on its ready stores what it accepts. -/
theorem FifoModule.IsTail.taken_eq_accepted {cap grace : Nat} (q : m.IsTail cap grace)
    (hcap : 1 ≤ cap) (hn : 0 < n) (hreset : (ins (n - 1)).reset = true)
    (hlive : ∀ c, n ≤ c → (ins c).reset = false)
    (hwriter : ∀ c, n ≤ c → (ins c).write = true → m.if_full_n (run m.step s ins c) = true)
    {c : Nat} (hc : n ≤ c) :
    m.taken (run m.step s ins c) (ins c) = m.accepted (run m.step s ins c) (ins c) := by
  have hfits : q.inv (run m.step s ins c) ∧
      Fits cap (q.weight (run m.step s ins c)) ([] : List (Stage α)) := by
    induction c, hc using Nat.le_induction with
    | base =>
      rw [run_pred _ _ _ hn]
      have hw := q.reset_weight (run m.step s ins (n - 1)) _ hreset
      exact ⟨q.reset_inv _ _ hreset, fits_of_small (by simpa using Nat.le_trans hw hcap)⟩
    | succ c hc ih =>
      obtain ⟨hinv, hf⟩ := ih
      have hroom : (ins c).write = true → q.count (run m.step s ins c) < cap := fun h =>
        q.tail.room (x := (ins c).if_din) hinv hf (hwriter c hc) h
      exact ⟨q.tail.keep _ _ hinv (hlive c hc) hroom,
        q.tail.fits (x := (ins c).if_din) hinv (hlive c hc) hf (hwriter c hc) rfl (by simp)⟩
  have hroom : (ins c).write = true → q.count (run m.step s ins c) < cap := fun h =>
    q.tail.room (x := (ins c).if_din) hfits.1 hfits.2 (hwriter c hc) h
  have hand : ((ins c).write && m.if_full_n (run m.step s ins c)) = (ins c).write := by
    cases hw : (ins c).write with
    | false => rfl
    | true => rw [hwriter c hc hw]; rfl
  unfold FifoModule.taken FifoModule.accepted
  rw [q.stores _ _ hfits.1 hroom, hand]

end Depth

/-- The reset is high up to cycle `n` and low from then on. -/
structure ResetUntil {width : Nat} (ins : Nat → StreamIn width) (n : Nat) : Prop where
  high : ∀ c, c < n → (ins c).reset = true
  low : ∀ c, n ≤ c → (ins c).reset = false

section Chosen

variable {width : Nat} (m : FifoModule (BitVec width)) (depth turn late : Nat) (s : m.State)
  (ins : Nat → StreamIn width) (n : Nat)

/-- The words that the writer has handed over by cycle `t`. -/
def handedOver (t : Nat) : List (BitVec width) :=
  window (fun c => m.accepted (run m.step s (fun c => fifo_port_args (ins c)) c)
    (fifo_port_args (ins c))) (n - turn) t

/-- With no reader, the storage takes `depth` words before it refuses one. -/
structure AcceptsDepth : Prop where
  ready : ∀ t, n + late ≤ t → (∀ c, n ≤ c → c < t → (ins c).read = false) →
    (handedOver m turn s ins n t).length < depth →
      m.if_full_n (run m.step s (fun c => fifo_port_args (ins c)) t) = true
  eager : (∀ c, n ≤ c → (ins c).write = true) → (∀ c, n ≤ c → (ins c).read = false) →
    depth ≤ (handedOver m turn s ins n (n + late + depth)).length

/-- With fewer than `depth` words unread for `late` cycles, the ready is high. -/
def RecoversDepth : Prop :=
  ∀ t, n ≤ t →
    (∀ c, t ≤ c → c ≤ t + late →
      unread m s (fun c => fifo_port_args (ins c)) turn n c < depth) →
        m.if_full_n (run m.step s (fun c => fifo_port_args (ins c)) (t + late)) = true

variable {m depth turn late s ins n}

/-- A writer that never stops hands over a word in every cycle of a high ready. -/
theorem acceptsDepth_of_ready (hturn : turn ≤ n)
    (h : ∀ t, n + late ≤ t → (∀ c, n ≤ c → c < t → (ins c).read = false) →
      (handedOver m turn s ins n t).length < depth →
        m.if_full_n (run m.step s (fun c => fifo_port_args (ins c)) t) = true) :
    AcceptsDepth m depth turn late s ins n := by
  refine ⟨h, fun hwrite hread => ?_⟩
  have key : ∀ k ≤ depth, k ≤ (handedOver m turn s ins n (n + late + k)).length := by
    intro k
    induction k with
    | zero => intro _; omega
    | succ k ih =>
      intro hk
      have hsucc : handedOver m turn s ins n (n + late + k + 1) =
          handedOver m turn s ins n (n + late + k) ++ m.accepted _ _ :=
        window_succ _ (by omega)
      rw [← Nat.add_assoc, hsucc, List.length_append]
      rcases Nat.lt_or_ge (handedOver m turn s ins n (n + late + k)).length depth with hlt | hge
      · have hready := h (n + late + k) (by omega) (fun c h1 _ => hread c h1) hlt
        unfold FifoModule.accepted
        rw [fifo_port_args_write, hwrite _ (by omega), hready]
        simp only [Bool.and_true, emit_true, List.length_singleton]
        omega
      · omega
  exact key depth (Nat.le_refl _)

theorem keepsDepth_of_gated (hm : m.Holds depth turn late) (hg : m.Gated) (hn : turn < n)
    (hreset : ResetUntil ins n) :
    AcceptsDepth m depth turn late s ins n ∧ RecoversDepth m depth turn late s ins n := by
  have htaken : ∀ st i, m.taken st i = m.accepted st i := by
    intro st i
    unfold FifoModule.taken FifoModule.accepted
    rw [hg]
  refine ⟨acceptsDepth_of_ready (by omega) fun t ht _ hfew => ?_, fun t ht hfew => ?_⟩
  · exact ready_of_accepted (by omega) (by omega) (hreset.high _ (by omega)) hreset.low
      (fun c _ => htaken _ _) hm ht hfew
  · exact ready_of_unread (by omega) (by omega) (hreset.high _ (by omega)) hreset.low
      (fun c _ => htaken _ _) hm ht hfew

end Chosen

/-- A tail refuses a word only after it has accepted all but the grace words. Up
to the first refusal it took no more than it accepted, and one word. -/
theorem FifoModule.IsTail.accepted_of_refusal {α : Type} {m : FifoModule α} {cap grace : Nat}
    (q : m.IsTail cap grace) (hstored : ∀ s i, m.stored s i = true → i.write = true) {s : m.State}
    {ins : Nat → FifoIn α} {n t : Nat} (hn : 0 < n) (hreset : (ins (n - 1)).reset = true)
    (hlive : ∀ c, n ≤ c → (ins c).reset = false) (hnt : n < t)
    (hlow : m.if_full_n (run m.step s ins t) = false) :
    cap ≤ (window (fun c => m.accepted (run m.step s ins c) (ins c)) n t).length + grace + 2 := by
  have hex : ∃ u, n < u ∧ m.if_full_n (run m.step s ins u) = false := ⟨t, hnt, hlow⟩
  classical
  obtain ⟨hu, hfirst⟩ := Nat.find_spec hex
  have hut : Nat.find hex ≤ t := Nat.find_min' hex ⟨hnt, hlow⟩
  have hhigh : ∀ c, n < c → c < Nat.find hex → m.if_full_n (run m.step s ins c) = true := by
    intro c h1 h2
    have := Nat.find_min hex h2
    simpa [h1] using this
  generalize Nat.find hex = u at *
  -- The count is at most what was taken, which is at most what was accepted and one word.
  have hcount : ∀ c, n ≤ c → c ≤ u → q.inv (run m.step s ins c) ∧ q.count (run m.step s ins c) ≤
      (window (fun c => m.accepted (run m.step s ins c) (ins c)) n t).length + 1 := by
    intro c h1 h2
    obtain ⟨hinv, heq⟩ := q.clears.turns.conserves s ins hn (Nat.zero_le n) hreset
      (fun c hc _ => hlive c hc) h1
    have hle := q.count_le _ hinv
    have htaken := taken_le_accepted hstored h1 (fun c' h3 h4 => hhigh c' h3 (by omega))
    have hmono := window_length_mono (fun c => m.accepted (run m.step s ins c) (ins c)) h1
      (show c ≤ t by omega)
    rw [Nat.sub_zero] at heq
    rw [heq, List.length_append] at htaken
    exact ⟨hinv, by omega⟩
  by_contra hfew
  obtain ⟨hinv, hc⟩ := hcount (u - 1) (by omega) (by omega)
  obtain ⟨hinv', hc'⟩ := hcount u (by omega) (by omega)
  rw [run_pred _ _ _ (by omega : 0 < u)] at hinv' hc' hfirst
  have hready := q.ready _ _ hinv hinv' (by omega) (by omega)
  rw [hready] at hfirst
  cases hfirst

theorem registered_ready_keeps (hd : depth ≤ 64) {m : FifoModule (BitVec width)}
    (hm : m = fifo_srl_almost_full.rtl (BitVec width) (depth + 5) 1) (s : m.State)
    (ins : Nat → StreamIn width) {n : Nat} (hn : 0 < n) (hreset : ResetUntil ins n) :
    AcceptsDepth m depth 0 1 s ins n ∧
      ((∀ c, n ≤ c → (ins c).write = true →
        m.if_full_n (run m.step s (fun c => fifo_port_args (ins c)) c) = true) →
          RecoversDepth m depth 0 1 s ins n) := by
  subst hm
  have hs : fifo_srl_almost_full.Sized (depth + 5) 1 := ⟨by omega, by omega, by omega⟩
  have q := fifo_srl_almost_full.isTail (α := BitVec width) hs
  have hrst := hreset.high (n - 1) (by omega)
  refine ⟨acceptsDepth_of_ready (by omega) fun t ht _ hfew => ?_, fun hwriter t ht hfew => ?_⟩
  · by_contra hlow
    rw [Bool.not_eq_true] at hlow
    have h := q.accepted_of_refusal (fun s i h => (Bool.and_eq_true_iff.mp h).1) hn hrst hreset.low
      (show n < t by omega) hlow
    unfold handedOver at hfew
    rw [Nat.sub_zero] at hfew
    omega
  · refine ready_of_unread hn (Nat.zero_le n) hrst hreset.low (fun c hc => ?_)
      (registered_ready_holds (BitVec width) hd) ht hfew
    refine q.taken_eq_accepted (by omega) hn hrst hreset.low (fun c hc hw => ?_) hc
    exact hwriter c hc (by rwa [fifo_port_args_write] at hw)

/-- The chosen storage takes the declared depth before it refuses a word. It is
ready again when fewer words than that are unread, in every run in which the
writer of a FIFO with a registered ready offers words only on that ready. -/
theorem the_chosen_storage_keeps_its_depth (width depth : Nat) (h1 : 1 ≤ depth)
    (floorplanned : Bool) (crossing_level : Option Nat)
    (s : (build_internal_fifo_instance width depth floorplanned crossing_level).State)
    (ins : Nat → StreamIn width) (n : Nat) (hn : turnover crossing_level < n)
    (hreset : ResetUntil ins n) :
    let m := build_internal_fifo_instance width depth floorplanned crossing_level
    let late := ready_latency depth floorplanned crossing_level
    AcceptsDepth m depth (turnover crossing_level) late s ins n ∧
      ((RegisteredReady depth floorplanned crossing_level → ∀ c, n ≤ c → (ins c).write = true →
        m.if_full_n (run m.step s (fun c => fifo_port_args (ins c)) c) = true) →
          RecoversDepth m depth (turnover crossing_level) late s ins n) := by
  intro m late
  by_cases h : RegisteredReady depth floorplanned crossing_level
  · obtain ⟨rfl, hf, hd⟩ := h
    have h : RegisteredReady depth floorplanned none := ⟨rfl, hf, hd⟩
    have hlate : late = 1 := if_pos h
    rw [hlate]
    obtain ⟨ha, hr⟩ := registered_ready_keeps hd (registeredReady_eq h) s ins hn hreset
    exact ⟨ha, fun hw => hr (hw h)⟩
  · have hg : m.Gated := gated_of_not_registeredReady h
    have hm : m.Holds depth (turnover crossing_level) late :=
      build_internal_fifo_instance_holds width (.inl h1) crossing_level
    obtain ⟨ha, hr⟩ := keepsDepth_of_gated hm hg hn hreset
    exact ⟨ha, fun _ => hr⟩

/-- A crossing of depth 1 keeps its depth under a writer that never stops. -/
theorem a_pressed_crossing_keeps_its_depth :
    let m := build_internal_fifo_instance 32 1 true (some 1)
    let s : m.State :=
      ⟨⟨false, false, 0⟩, fun _ => ⟨false, false, 0⟩, (⟨⟨0, false, false, fun _ => 0⟩, 0, false⟩ :
        fifo_srl_almost_full (BitVec 32) 9 4)⟩
    let ins : Nat → StreamIn 32 := fun c => ⟨decide (c < 3), true, 0, decide (30 ≤ c)⟩
    AcceptsDepth m 1 2 3 s ins 3 ∧ RecoversDepth m 1 2 3 s ins 3 := by
  intro m s ins
  have hreset : ResetUntil ins 3 :=
    ⟨fun c hc => decide_eq_true hc, fun c hc => decide_eq_false (by omega)⟩
  obtain ⟨ha, hr⟩ := the_chosen_storage_keeps_its_depth 32 1 (by decide) true (some 1) s ins 3
    (by decide) hreset
  exact ⟨ha, hr fun h => absurd h.1 (by simp)⟩

/-- A writer that never stops, and a reader that starts in cycle 7. -/
def pressing (c : Nat) : StreamIn 32 := ⟨decide (c < 1), true, 0, decide (7 ≤ c)⟩

/-- The words that the FIFO takes while it refuses them keep its ready low, though
the reader has taken every word that was handed over. -/
theorem a_pressed_shallow_stream_stays_refused :
    let m := build_internal_fifo_instance 32 1 true none
    let s : m.State := (⟨⟨0, false, false, fun _ => 0⟩, 0, false⟩ :
      fifo_srl_almost_full (BitVec 32) 6 1)
    ResetUntil pressing 1 ∧ ¬RecoversDepth m 1 0 1 s pressing 1 := by
  intro m s
  refine ⟨⟨fun c hc => decide_eq_true hc, fun c hc => decide_eq_false (by omega)⟩, fun h => ?_⟩
  have h13 := h 12 (by decide) (fun c h1 h2 => ?_)
  · revert h13
    decide
  · obtain rfl | rfl : c = 12 ∨ c = 13 := by omega
    · decide
    · decide

end Tapa.Rtl
