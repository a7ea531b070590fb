-- The reset of a floorplanned design keeps old words out. The fabric reset
-- stays high until the delayed reset has reached every child and the last word
-- from before it has reached a tail, and only then does the next launch come.
import Tapa.FifoChoice
import Tapa.Invocation

namespace Tapa.Control

open Clock

variable {n : Nat} {children : Fin n → ChildRoutes} {F : Nat} {ins : Nat → NetworkIn n}

/-! ## The fabric reset -/

variable (children F ins)

/-- `ap_rst`, the reset of every FIFO: the inverse of the fabric reset. -/
def ap_rst (t : Nat) : Bool :=
  !(at_cycle children F ins t).global.fabric_reset_n
    ((at_cycle children F ins t).global_in children (ins t))

/-- The wire `launch_start` of the global controller. -/
def launch_start (t : Nat) : Bool :=
  (at_cycle children F ins t).global.launch_start
    ((at_cycle children F ins t).global_in children (ins t))

variable {children F ins}

/-- The flush counter counts down from the last cycle of a reset. -/
theorem flushCount_after {r : Nat} (hlow : (ins r).ap_rst_n = false) {k : Nat} (hk : k ≤ F)
    (hhigh : ∀ c, r < c → c < r + 1 + k → (ins c).ap_rst_n = true) :
    flushCount children F ins (r + 1 + k) = F - k := by
  induction k with
  | zero =>
    have hm : Moves children F ins r := moves r
    cases hm with
    | reset _ _ hflush => exact hflush
    | accept hacc => rw [hacc.2] at hlow; cases hlow
    | flush hrst | stay hrst | finish hrst | clear hrst | back hrst => rw [hrst] at hlow; cases hlow
  | succ k ih =>
    have hc := ih (by omega) (fun c h1 h2 => hhigh c h1 (by omega))
    have hrst := hhigh (r + 1 + k) (by omega) (by omega)
    have hm : Moves children F ins (r + 1 + k) := moves _
    cases hm with
    | reset h => rw [h] at hrst; cases hrst
    | flush _ _ _ hcount => rw [← Nat.add_assoc, hcount]; omega
    | accept _ _ _ _ hz | stay _ _ _ _ hz | finish _ _ _ _ hz | clear _ _ _ _ hz => omega
    | back _ _ _ hz => omega

/-- Between a reset and a launch, the fabric reset is high for the flush time
after the last cycle of the reset. -/
theorem flush_before_launch {r l : Nat} (hlow : (ins r).ap_rst_n = false) (hrl : r < l)
    (hlaunch : launch_start children F ins l = true) :
    ∃ e, r + F < e ∧ e ≤ l ∧ ap_rst children F ins (e - 1) = true := by
  -- The last cycle of reset before the launch.
  have hlast : ∃ b, r ≤ b ∧ b < l ∧ (ins b).ap_rst_n = false ∧
      ∀ c, b < c → c < l → (ins c).ap_rst_n = true := by
    clear hlaunch
    induction l, hrl using Nat.le_induction with
    | base => exact ⟨r, by omega, by omega, hlow, fun c h1 h2 => by omega⟩
    | succ l hl ih =>
      obtain ⟨b, h1, h2, h3, h4⟩ := ih
      cases hrst : (ins l).ap_rst_n with
      | false => exact ⟨l, by omega, by omega, hrst, fun c h1 h2 => by omega⟩
      | true =>
        refine ⟨b, h1, by omega, h3, fun c hc hc' => ?_⟩
        rcases Nat.lt_succ_iff_lt_or_eq.mp hc' with hlt | rfl
        · exact h4 c hc hlt
        · exact hrst
  obtain ⟨b, hrb, hbl, hb, hhigh⟩ := hlast
  have hzero : flushCount children F ins l = 0 := (accept_start_idle hlaunch).2.1
  have hle : b + F + 1 ≤ l := by
    by_contra hlt
    have hc : flushCount children F ins (b + 1 + (l - (b + 1))) = _ :=
      flushCount_after hb (by omega) (fun c h1 h2 => hhigh c h1 (by omega))
    rw [show b + 1 + (l - (b + 1)) = l by omega] at hc
    omega
  refine ⟨b + F + 1, by omega, hle, ?_⟩
  show (!((ins (b + F)).ap_rst_n && decide (flushCount children F ins (b + F) = 0))) = true
  rcases Nat.eq_zero_or_pos F with rfl | hF
  · rw [Nat.add_zero, hb]
    rfl
  have hc : flushCount children F ins (b + 1 + (F - 1)) = _ :=
    flushCount_after hb (by omega) (fun c h1 h2 => hhigh c h1 (by omega))
  rw [show b + 1 + (F - 1) = b + F by omega] at hc
  rw [decide_eq_false (by omega), Bool.and_false]
  rfl

/-! ## The words after a reset -/

open Rtl

/-- The words that a queue delivers up to cycle `t` since its last reset are, in
order, words that it took since the registers in front of it turned over. -/
theorem delivered_since_reset {α : Type} {m : FifoModule α} {q : m.IsQueue} {k : Nat}
    (hq : q.Turns k) (s : m.State) (ports : Nat → FifoIn α) {e t : Nat} (he : 0 < e) (hk : k ≤ e)
    (hreset : (ports (e - 1)).reset = true) (het : e ≤ t) :
    ∃ e', e ≤ e' ∧ e' ≤ t ∧
      window (fun c => m.given (run m.step s ports c) (ports c)) e' (t + 1) <+:
        window (fun c => m.taken (run m.step s ports c) (ports c)) (e' - k) (t + 1) := by
  have hlast : ∃ e', e ≤ e' ∧ e' ≤ t ∧ (ports (e' - 1)).reset = true ∧
      ∀ c, e' ≤ c → c < t → (ports c).reset = false := by
    induction t, het using Nat.le_induction with
    | base => exact ⟨e, by omega, by omega, hreset, fun c h1 h2 => by omega⟩
    | succ t ht ih =>
      obtain ⟨e', h1, h2, h3, h4⟩ := ih
      cases hr : (ports t).reset with
      | true => exact ⟨t + 1, by omega, by omega, hr, fun c h1 h2 => by omega⟩
      | false =>
        refine ⟨e', h1, by omega, h3, fun c hc hc' => ?_⟩
        rcases Nat.lt_succ_iff_lt_or_eq.mp hc' with hlt | rfl
        · exact h4 c hc hlt
        · exact hr
  obtain ⟨e', h1, h2, h3, h4⟩ := hlast
  obtain ⟨hinv, heq⟩ := hq.conserves s ports (by omega) (by omega) h3 h4 h2
  refine ⟨e', h1, h2, ?_⟩
  rw [window_succ _ h2, window_succ _ (by omega : e' - k ≤ t), heq, List.append_assoc]
  exact (List.prefix_append_right_inj _).mpr (q.given_isPrefix _ hinv)

/-- After a launch that follows a reset, every word that a FIFO delivers was
written after the delayed reset had reached its writer, child `i`: the words
delivered since some cycle `e` are, in order, words stored since a later cycle. -/
theorem no_word_from_before_a_reset_is_delivered (children : Fin n → ChildRoutes) (data : List Nat)
    (F : Nat) (hF : flush_cycles (List.ofFn children) data = some F) (ins : Nat → NetworkIn n)
    (i : Fin n) (width depth : Nat) (crossing_level : Option Nat)
    (hlevel : ∀ b, crossing_level = some b → b ∈ data)
    (s : (build_internal_fifo_instance width depth true crossing_level).State)
    (stream : Nat → StreamIn width) (hstream : ∀ t, (stream t).reset = ap_rst children F ins t)
    (r l : Nat) (hr : (ins r).ap_rst_n = false) (hrl : r < l)
    (hlaunch : launch_start children F ins l = true) :
    let m := build_internal_fifo_instance width depth true crossing_level
    let st := run m.step s (fun c => fifo_port_args (stream c))
    ∀ t, l ≤ t → ∃ e ≤ t, r + latency (children i).reset < e - turnover crossing_level ∧
      window (fun c => m.given (st c) (fifo_port_args (stream c))) e (t + 1) <+:
        window (fun c => m.taken (st c) (fifo_port_args (stream c)))
          (e - turnover crossing_level) (t + 1) := by
  intro m st t hlt
  obtain ⟨hpath, hdata, hway⟩ := flush_cycles_covers hF
  have hi : children i ∈ List.ofFn children := by simp
  have hturn : latency (children i).reset + turnover crossing_level ≤ F := by
    cases crossing_level with
    | none => exact hway _ hi
    | some b =>
      have := hdata _ hi b (hlevel b rfl)
      show _ + (b + 1) ≤ F
      omega
  obtain ⟨e, hre, hel, hrst⟩ := flush_before_launch hr hrl hlaunch
  obtain ⟨q, hq, _⟩ := build_internal_fifo_instance_holds width (.inr rfl) crossing_level
  obtain ⟨e', h1, h2, hprefix⟩ := delivered_since_reset hq s (fun c => fifo_port_args (stream c))
    (by omega : 0 < e) (by omega) ((hstream _).trans hrst) (by omega : e ≤ t)
  exact ⟨e', h2, by omega, hprefix⟩

/-- One child beside its controller, and a crossing that is written in every
cycle, with a reset in cycle 0 and a launch in cycle 3. -/
theorem a_crossing_forgets_the_words_of_cycle_zero :
    let child : Fin 1 → ChildRoutes := fun _ => ⟨false, none, none, none, rfl, fun _ => rfl⟩
    let ins : Nat → NetworkIn 1 := fun t => ⟨decide (0 < t), true, fun _ => true, fun _ => true⟩
    let stream : Nat → StreamIn 8 := fun t => ⟨ap_rst child 2 ins t, true, BitVec.ofNat 8 t, true⟩
    let m := build_internal_fifo_instance 8 1 true (some 0)
    let s : m.State :=
      ⟨⟨true, true, 0⟩, Fin.elim0, (⟨⟨0, false, false, fun _ => 0⟩, 0, false⟩ :
        fifo_srl_almost_full (BitVec 8) 7 2)⟩
    ∃ e ≤ 9, 0 < e - 1 ∧
      window (fun c => m.given (run m.step s (fun c => fifo_port_args (stream c)) c)
        (fifo_port_args (stream c))) e 10 <+:
      window (fun c => m.taken (run m.step s (fun c => fifo_port_args (stream c)) c)
        (fifo_port_args (stream c))) (e - 1) 10 := by
  intro child ins stream m s
  exact no_word_from_before_a_reset_is_delivered child [0] 2 (by decide) ins 0 8 1 (some 0)
    (fun b hb => by simpa using hb.symm) s stream (fun _ => rfl) 0 3 (by decide) (by decide)
    (by decide) 9 (by decide)

end Tapa.Control
