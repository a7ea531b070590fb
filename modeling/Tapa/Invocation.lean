-- The control network runs each invocation once. Seen from the global
-- controller, each local controller acts at once and only its completion is
-- late. From that view one story of each invocation holds at every cycle.
import Tapa.Control

namespace Tapa.Control

open Clock Nat

variable {n : Nat} (children : Fin n → ChildRoutes) (F : Nat) (ins : Nat → NetworkIn n)

/-! ## The run of the network -/

/-- The network before cycle `t`, from power-on. -/
def at_cycle (t : Nat) : Network n := run (Network.step children F) (Network.init children F) ins t

def globalState (t : Nat) : GlobalState := (at_cycle children F ins t).global.state

/-- The start that the global controller takes in cycle `t`. In a cycle of reset
it takes none. -/
def Accepts (t : Nat) : Prop :=
  (at_cycle children F ins t).global.accept_start
    ((at_cycle children F ins t).global_in children (ins t)) = true ∧ (ins t).ap_rst_n = true

/-- The state register of the local controller of a joined child. -/
def localState (j : Fin n) (t : Nat) : LocalState :=
  match (at_cycle children F ins t).child j with
  | .TAPA_NORMAL state => state
  | .TAPA_AUTORUN _ => .IDLE

/-! ## The view from the global controller -/

/-- The state of the local controller when the bits sent in cycle `t` reach it. -/
def retimed (j : Fin n) (t : Nat) : LocalState :=
  localState children F ins j (t + latency (children j).reset)

/-- The way to child `j` and back. -/
def delay (j : Fin n) : Nat := latency (children j).reset + latency (children j).completion

variable {children F ins}

variable {j : Fin n}

theorem child_normal (hj : (children j).is_autorun = false) (t : Nat) :
    (at_cycle children F ins t).child j = .TAPA_NORMAL (localState children F ins j t) := by
  have h : ∃ s, (at_cycle children F ins t).child j = .TAPA_NORMAL s := by
    induction t with
    | zero => exact ⟨.IDLE, by simp [at_cycle, Network.init, tapa_local_controller.init, hj]⟩
    | succ t ih =>
      obtain ⟨s, hs⟩ := ih
      refine ⟨s.step ((at_cycle children F ins t).local_in children (ins t) j), ?_⟩
      show ((at_cycle children F ins t).child j).step _ = _
      rw [hs]
      rfl
  obtain ⟨s, hs⟩ := h
  unfold localState
  rw [hs]

theorem localState_succ (hj : (children j).is_autorun = false) (t : Nat) :
    localState children F ins j (t + 1) = (localState children F ins j t).step
      ((at_cycle children F ins t).local_in children (ins t) j) := by
  have hstep : (at_cycle children F ins (t + 1)).child j =
      ((at_cycle children F ins t).child j).step
        ((at_cycle children F ins t).local_in children (ins t) j) := rfl
  rw [child_normal hj, child_normal hj] at hstep
  exact tapa_local_controller.TAPA_NORMAL.inj hstep

/-- What a local controller receives left the global controller a latency ago. -/
theorem launch_output_eq (j : Fin n) (t : Nat) :
    (at_cycle children F ins t).launch_output children (ins t) j =
      if t < latency (children j).launch then (false, false)
      else (at_cycle children F ins (t - latency (children j).launch)).launch_input children
        (ins (t - latency (children j).launch)) := by
  have h := run_part (Network.step children F) shift (fun s => s.launch j)
    (fun s i => s.launch_input children i) (fun _ _ => rfl) (Network.init children F) ins t
  unfold Network.launch_output at_cycle
  rw [h]
  exact tapped_run_shift _ _ _ t

theorem reset_n_eq (j : Fin n) (t : Nat) :
    (at_cycle children F ins t).reset_n (ins t) j =
      if t < latency (children j).reset then false
      else (ins (t - latency (children j).reset)).ap_rst_n := by
  have h := run_part (Network.step children F) shift (fun s => s.reset j)
    (fun _ i => i.ap_rst_n) (fun _ _ => rfl) (Network.init children F) ins t
  unfold Network.reset_n at_cycle
  rw [h]
  exact tapped_run_shift _ _ _ t

theorem is_done_eq (j : Fin n) (t : Nat) :
    (at_cycle children F ins t).is_done j =
      if t < latency (children j).completion then false
      else
        ((at_cycle children F ins (t - latency (children j).completion)).child j).completion := by
  have h := run_part (Network.step children F) shift (fun s => s.completion j)
    (fun s _ => (s.child j).completion) (fun _ _ => rfl) (Network.init children F) ins t
  unfold Network.is_done at_cycle
  rw [h]
  exact tapped_run_shift _ _ _ t

variable {t : Nat}

/-- Until the first bit arrives, the reset of the child is low. -/
theorem localState_early (hj : (children j).is_autorun = false)
    (ht : t ≤ latency (children j).reset) : localState children F ins j t = .IDLE := by
  cases t with
  | zero => simp [localState, at_cycle, Network.init, tapa_local_controller.init, hj]
  | succ t =>
    have hlow : ((at_cycle children F ins t).local_in children (ins t) j).reset_n = false :=
      (reset_n_eq j t).trans (if_pos (by omega))
    rw [localState_succ hj]
    unfold LocalState.step
    rw [hlow]
    rfl

theorem retimed_next (j : Fin n) (t : Nat) :
    retimed children F ins j (t + 1) =
      localState children F ins j (t + latency (children j).reset + 1) :=
  congrArg (localState children F ins j) (Nat.add_right_comm ..)

/-- In the view of the global controller, a local controller acts at once. -/
theorem retimed_succ (hj : (children j).is_autorun = false) (t : Nat) :
    retimed children F ins j (t + 1) = (retimed children F ins j t).step
      { reset_n := (ins t).ap_rst_n
        launch_start := (at_cycle children F ins t).global.accept_start
          ((at_cycle children F ins t).global_in children (ins t))
        launch_release := decide (globalState children F ins t = .RELEASING)
        child_done := (ins (t + latency (children j).reset)).child_done j
        child_ready := (ins (t + latency (children j).reset)).child_ready j } := by
  rw [retimed_next, localState_succ hj]
  unfold retimed Network.local_in
  rw [reset_n_eq, launch_output_eq, (children j).launch_eq_reset, if_neg (by omega),
    if_neg (by omega), Nat.add_sub_cancel, hj]
  rfl

theorem retimed_sub (h : latency (children j).reset ≤ t) :
    retimed children F ins j (t - latency (children j).reset) = localState children F ins j t := by
  unfold retimed
  rw [Nat.sub_add_cancel h]

theorem retimed_zero (hj : (children j).is_autorun = false) :
    retimed children F ins j 0 = .IDLE :=
  localState_early hj (by omega)

/-- The global controller sees the completion of child `j` from one delay ago. -/
theorem is_done_iff (hj : (children j).is_autorun = false) (t : Nat) :
    (at_cycle children F ins t).is_done j = true ↔
      delay children j ≤ t ∧ retimed children F ins j (t - delay children j) = .DONE := by
  rw [is_done_eq]
  unfold delay retimed
  by_cases hc : t < latency (children j).completion
  · rw [if_pos hc]
    simp only [Bool.false_eq_true, false_iff]
    omega
  · rw [if_neg hc, child_normal hj]
    simp only [tapa_local_controller.completion, decide_eq_true_eq]
    by_cases hr : latency (children j).reset + latency (children j).completion ≤ t
    · rw [show t - (latency (children j).reset + latency (children j).completion) +
        latency (children j).reset = t - latency (children j).completion by omega]
      simp [hr]
    · rw [localState_early hj (by omega)]
      simp [hr]

/-! ## One cycle of the global controller -/

variable (children F ins)

def flushCount (t : Nat) : Nat := (at_cycle children F ins t).global.flush_count

/-- The global controller sees every joined child done. -/
def AllDone (t : Nat) : Prop :=
  ∀ j, (children j).is_autorun = false → (at_cycle children F ins t).is_done j = true

/-- The global controller sees no joined child done. -/
def AllClear (t : Nat) : Prop :=
  ∀ j, (children j).is_autorun = false → (at_cycle children F ins t).is_done j = false

/-- What the global controller can do in cycle `t`. -/
inductive Moves (t : Nat) : Prop
  | reset (rst : (ins t).ap_rst_n = false) (next : globalState children F ins (t + 1) = .IDLE)
      (flush : flushCount children F ins (t + 1) = F)
  | flush (rst : (ins t).ap_rst_n = true) (pos : 0 < flushCount children F ins t)
      (next : globalState children F ins (t + 1) = globalState children F ins t)
      (count : flushCount children F ins (t + 1) = flushCount children F ins t - 1)
  | accept (acc : Accepts children F ins t) (clear : AllClear children F ins t)
      (here : globalState children F ins t = .IDLE)
      (next : globalState children F ins (t + 1) = .RUNNING)
      (zero : flushCount children F ins t = 0) (count : flushCount children F ins (t + 1) = 0)
  | stay (rst : (ins t).ap_rst_n = true) (no : ¬Accepts children F ins t)
      (undone : globalState children F ins t ≠ .DONE)
      (next : globalState children F ins (t + 1) = globalState children F ins t)
      (zero : flushCount children F ins t = 0) (count : flushCount children F ins (t + 1) = 0)
  | finish (rst : (ins t).ap_rst_n = true) (done : AllDone children F ins t)
      (here : globalState children F ins t = .RUNNING)
      (next : globalState children F ins (t + 1) = .RELEASING)
      (zero : flushCount children F ins t = 0) (count : flushCount children F ins (t + 1) = 0)
  | clear (rst : (ins t).ap_rst_n = true) (clear : AllClear children F ins t)
      (here : globalState children F ins t = .RELEASING)
      (next : globalState children F ins (t + 1) = .DONE)
      (zero : flushCount children F ins t = 0) (count : flushCount children F ins (t + 1) = 0)
  | back (rst : (ins t).ap_rst_n = true) (here : globalState children F ins t = .DONE)
      (next : globalState children F ins (t + 1) = .IDLE)
      (zero : flushCount children F ins t = 0) (count : flushCount children F ins (t + 1) = 0)

variable {children F ins}

/-- The flush counter is wide enough for its start value. -/
theorem lt_two_pow_FLUSH_WIDTH (F : Nat) : F < 2 ^ FLUSH_WIDTH F := by
  unfold FLUSH_WIDTH
  split
  · omega
  · exact lt_of_succ_le (le_pow_clog (by decide) _)

theorem global_succ (t : Nat) : (at_cycle children F ins (t + 1)).global =
    (at_cycle children F ins t).global.step F
      ((at_cycle children F ins t).global_in children (ins t)) := rfl

theorem accept_start_idle (h : (at_cycle children F ins t).global.accept_start ((at_cycle children F
    ins t).global_in children (ins t)) = true) :
    globalState children F ins t = .IDLE ∧ flushCount children F ins t = 0 ∧
      AllClear children F ins t := by
  simp only [tapa_global_controller.accept_start, tapa_global_controller.flush_done,
    Network.global_in, Bool.and_eq_true, decide_eq_true_eq] at h
  exact ⟨h.2, h.1.2.1, h.1.2.2⟩

theorem Accepts.idle (h : Accepts children F ins t) :
    globalState children F ins t = .IDLE ∧ flushCount children F ins t = 0 ∧
      AllClear children F ins t :=
  accept_start_idle h.1

theorem not_accepts {s : GlobalState} (h : globalState children F ins t = s) (hs : s ≠ .IDLE) :
    ¬Accepts children F ins t :=
  fun hacc => hs (h.symm.trans hacc.idle.1)

section

variable {s : tapa_global_controller} {i : GlobalIn}

theorem step_reset (hrst : i.ap_rst_n = false) : s.step F i = .init F := by
  rw [tapa_global_controller.step, hrst]
  rfl

/-- The counter counts down, and does not wrap around. -/
theorem step_flush (hrst : i.ap_rst_n = true) (hpos : s.flush_count ≠ 0)
    (hle : s.flush_count ≤ F) :
    (s.step F i).state = s.state ∧ (s.step F i).flush_count = s.flush_count - 1 := by
  have hF := lt_two_pow_FLUSH_WIDTH F
  simp only [tapa_global_controller.step, tapa_global_controller.flush_done, hrst, hpos]
  refine ⟨s.remember_state i, ?_⟩
  show (s.flush_count + 2 ^ FLUSH_WIDTH F - 1) % 2 ^ FLUSH_WIDTH F = _
  rw [show s.flush_count + 2 ^ FLUSH_WIDTH F - 1 = s.flush_count - 1 + 2 ^ FLUSH_WIDTH F by omega,
    add_mod_right, mod_eq_of_lt (by omega)]

theorem step_flushed (hrst : i.ap_rst_n = true) (hzero : s.flush_count = 0) :
    (s.step F i).flush_count = 0 ∧ (s.step F i).state =
      match s.state with
      | .IDLE => if s.accept_start i then .RUNNING else .IDLE
      | .RUNNING => if i.children_done then .RELEASING else .RUNNING
      | .RELEASING => if i.children_clear then .DONE else .RELEASING
      | .DONE => .IDLE := by
  simp only [tapa_global_controller.step, tapa_global_controller.flush_done, hrst, hzero]
  cases hs : s.state <;> simp only [decide_true, Bool.not_true, Bool.false_eq_true, if_false]
  case DONE => simp [hzero]
  all_goals split <;> simp [hzero, hs]

end

theorem flushCount_le (t : Nat) : flushCount children F ins t ≤ F := by
  induction t with
  | zero => exact mod_le _ _
  | succ t ih =>
    unfold flushCount at ih ⊢
    rw [global_succ]
    cases hrst : ((at_cycle children F ins t).global_in children (ins t)).ap_rst_n with
    | false =>
      rw [step_reset hrst]
      exact mod_le _ _
    | true =>
      by_cases hzero : (at_cycle children F ins t).global.flush_count = 0
      · rw [(step_flushed hrst hzero).1]
        exact zero_le _
      · rw [(step_flush hrst hzero ih).2]
        omega

theorem children_done_iff :
    ((at_cycle children F ins t).global_in children (ins t)).children_done = true ↔
      AllDone children F ins t := decide_eq_true_iff

theorem children_clear_iff :
    ((at_cycle children F ins t).global_in children (ins t)).children_clear = true ↔
      AllClear children F ins t := decide_eq_true_iff

/-- Every cycle of the global controller is one of these. -/
theorem moves (t : Nat) : Moves children F ins t := by
  cases hrst : (ins t).ap_rst_n with
  | false =>
    have hstep : (at_cycle children F ins (t + 1)).global = .init F := step_reset hrst
    refine .reset hrst (congrArg (·.state) hstep) ((congrArg (·.flush_count) hstep).trans ?_)
    exact mod_eq_of_lt (lt_two_pow_FLUSH_WIDTH F)
  | true =>
    by_cases hzero : flushCount children F ins t = 0
    · obtain ⟨hcount, hstate⟩ : flushCount children F ins (t + 1) = 0 ∧
        globalState children F ins (t + 1) = _ :=
        step_flushed (s := (at_cycle children F ins t).global) hrst hzero
      rw [show (at_cycle children F ins t).global.state = globalState children F ins t from rfl]
        at hstate
      cases hs : globalState children F ins t <;> rw [hs] at hstate
      case IDLE =>
        by_cases hacc : Accepts children F ins t
        · exact .accept hacc hacc.idle.2.2 hs (hstate.trans (if_pos hacc.1)) hzero hcount
        · refine .stay hrst hacc (by rw [hs]; simp) (hstate.trans ?_) hzero hcount
          exact (if_neg fun h => hacc ⟨h, hrst⟩).trans hs.symm
      case RUNNING =>
        by_cases hd : AllDone children F ins t
        · exact .finish hrst hd hs (hstate.trans (if_pos (children_done_iff.mpr hd))) hzero hcount
        · refine .stay hrst (not_accepts hs nofun) (by rw [hs]; simp) (hstate.trans ?_) hzero hcount
          exact (if_neg (mt children_done_iff.mp hd)).trans hs.symm
      case RELEASING =>
        by_cases hd : AllClear children F ins t
        · exact .clear hrst hd hs (hstate.trans (if_pos (children_clear_iff.mpr hd))) hzero hcount
        · refine .stay hrst (not_accepts hs nofun) (by rw [hs]; simp) (hstate.trans ?_) hzero hcount
          exact (if_neg (mt children_clear_iff.mp hd)).trans hs.symm
      case DONE => exact .back hrst hs hstate hzero hcount
    · obtain ⟨hstate, hcount⟩ : globalState children F ins (t + 1) = _ ∧
        flushCount children F ins (t + 1) = _ := step_flush hrst hzero (flushCount_le t)
      exact .flush hrst (Nat.pos_of_ne_zero hzero) hstate hcount

/-! ## One cycle of a local controller -/

/-- The child has been started and is not done. -/
def Active (s : LocalState) : Prop := s = .RUNNING ∨ s = .WAITING

section Local

variable {j : Fin n} (hj : (children j).is_autorun = false) {t : Nat}

include hj

theorem retimed_reset (hrst : (ins t).ap_rst_n = false) :
    retimed children F ins j (t + 1) = .IDLE := by
  rw [retimed_succ hj, hrst]
  rfl

theorem retimed_launch (hacc : Accepts children F ins t)
    (h : retimed children F ins j t = .IDLE) : retimed children F ins j (t + 1) = .RUNNING := by
  rw [retimed_succ hj, h, hacc.1, hacc.2]
  rfl

section

variable (hrst : (ins t).ap_rst_n = true)
include hrst

theorem retimed_idle (hno : ¬Accepts children F ins t)
    (h : retimed children F ins j t = .IDLE) : retimed children F ins j (t + 1) = .IDLE := by
  have hstart : (at_cycle children F ins t).global.accept_start
      ((at_cycle children F ins t).global_in children (ins t)) = false := by
    rw [← Bool.not_eq_true]
    exact fun h => hno ⟨h, hrst⟩
  rw [retimed_succ hj, h, hstart, hrst]
  rfl

theorem retimed_hold (hno : globalState children F ins t ≠ .RELEASING)
    (h : retimed children F ins j t = .DONE) : retimed children F ins j (t + 1) = .DONE := by
  rw [retimed_succ hj, h, hrst, decide_eq_false hno]
  rfl

theorem retimed_release (hrel : globalState children F ins t = .RELEASING)
    (h : retimed children F ins j t = .DONE) : retimed children F ins j (t + 1) = .IDLE := by
  rw [retimed_succ hj, h, hrst, decide_eq_true hrel]
  rfl

/-- A started child goes on, or signals done. -/
theorem retimed_active (h : Active (retimed children F ins j t)) :
    Active (retimed children F ins j (t + 1)) ∨ (retimed children F ins j (t + 1) = .DONE ∧
        (ins (t + latency (children j).reset)).child_done j = true) := by
  rw [retimed_succ hj, hrst]
  rcases h with h | h <;> rw [h] <;> unfold LocalState.step Active <;>
    cases (ins (t + latency (children j).reset)).child_ready j <;>
    cases (ins (t + latency (children j).reset)).child_done j <;> simp

end

/-- A child starts only on an accepted start. -/
theorem accepts_of_launch (h : retimed children F ins j t = .IDLE)
    (h' : retimed children F ins j (t + 1) = .RUNNING) : Accepts children F ins t := by
  rw [retimed_succ hj, h] at h'
  unfold LocalState.step at h'
  split at h'
  · cases h'
  rename_i hrst
  simp only at h'
  split at h'
  · rename_i hstart
    exact ⟨hstart, by simpa using hrst⟩
  · cases h'

end Local

/-! ## The story of an invocation -/

variable (children F ins)

/-- Child `j` was not done in the `k` cycles up to `t`. -/
def Quiet (j : Fin n) (t k : Nat) : Prop :=
  ∀ u, u ≤ t → t ≤ u + k → retimed children F ins j u ≠ .DONE

/-- The start accepted in cycle `a` is the last event before cycle `t`. -/
structure Opened (a t : Nat) : Prop where
  lt : a < t
  acc : Accepts children F ins a
  alone : ∀ u, a < u → u < t → ¬Accepts children F ins u ∧ (ins u).ap_rst_n = true

/-- Child `j` works from cycle `a` on and signals done for it in cycle `d`. -/
structure Finished (j : Fin n) (a d : Nat) : Prop where
  lt : a < d
  active : ∀ u, a < u → u ≤ d → Active (retimed children F ins j u)
  done : (ins (d + latency (children j).reset)).child_done j = true
  after : retimed children F ins j (d + 1) = .DONE

/-- No child runs, and no completion is left that the flush has not waited for. -/
structure IdlePhase (t : Nat) : Prop where
  idle : ∀ j, (children j).is_autorun = false → retimed children F ins j t = .IDLE
  quiet : ∀ j, (children j).is_autorun = false →
    Quiet children F ins j t (min (delay children j) (F - flushCount children F ins t))

/-- Every child works for the start of cycle `a`, or is done with it. -/
structure RunningPhase (a t : Nat) : Prop where
  opened : Opened children F ins a t
  quiet : ∀ j, (children j).is_autorun = false → Quiet children F ins j a (delay children j)
  work : ∀ j, (children j).is_autorun = false →
    (∀ u, a < u → u ≤ t → Active (retimed children F ins j u)) ∨
      ∃ d < t, Finished children F ins j a d ∧
        ∀ u, d < u → u ≤ t → retimed children F ins j u = .DONE

/-- Cycle `b` saw every child done with the start of cycle `a`, and the release
of cycle `b + 1` sends each back. -/
structure ReleasingPhase (a b t : Nat) : Prop where
  opened : Opened children F ins a t
  lt : b < t
  work : ∀ j, (children j).is_autorun = false → ∃ d, Finished children F ins j a d ∧
    d + delay children j < b ∧
    (∀ u, d < u → u ≤ b + 1 → retimed children F ins j u = .DONE) ∧
    ∀ u, b + 1 < u → u ≤ t → retimed children F ins j u = .IDLE

/-- Every child was done with the start of cycle `a` and has been sent back. -/
structure DonePhase (a t : Nat) : Prop where
  opened : Opened children F ins a t
  work : ∀ j, (children j).is_autorun = false →
    ∃ d, Finished children F ins j a d ∧ d + delay children j < t
  idle : ∀ j, (children j).is_autorun = false → retimed children F ins j t = .IDLE
  quiet : ∀ j, (children j).is_autorun = false → Quiet children F ins j t (delay children j)

/-- What holds before cycle `t`, by the state of the global controller. -/
inductive Story (t : Nat) : Prop
  | idle (here : globalState children F ins t = .IDLE) (phase : IdlePhase children F ins t)
  | running (here : globalState children F ins t = .RUNNING)
      (zero : flushCount children F ins t = 0) (a : Nat) (phase : RunningPhase children F ins a t)
  | releasing (here : globalState children F ins t = .RELEASING)
      (zero : flushCount children F ins t = 0) (a b : Nat)
      (phase : ReleasingPhase children F ins a b t)
  | done (here : globalState children F ins t = .DONE) (zero : flushCount children F ins t = 0)
      (a : Nat) (phase : DonePhase children F ins a t)

variable {children F ins}

theorem Quiet.succ {k : Nat} (h : Quiet children F ins j t k)
    (h' : retimed children F ins j (t + 1) ≠ .DONE) : Quiet children F ins j (t + 1) (k + 1) := by
  intro u hu hk
  rcases lt_or_ge t u with hlt | hge
  · obtain rfl : u = t + 1 := by omega
    exact h'
  · exact h u hge (by omega)

theorem Quiet.mono {k k' : Nat} (h : Quiet children F ins j t k) (hk : k' ≤ k) :
    Quiet children F ins j t k' :=
  fun u hu hle => h u hu (by omega)

theorem Opened.succ {a : Nat} (h : Opened children F ins a t) (hno : ¬Accepts children F ins t)
    (hrst : (ins t).ap_rst_n = true) :
    Opened children F ins a (t + 1) := by
  refine ⟨lt_succ_of_lt h.lt, h.acc, fun u h1 h2 => ?_⟩
  rcases Nat.lt_succ_iff_lt_or_eq.mp h2 with hlt | rfl
  · exact h.alone u h1 hlt
  · exact ⟨hno, hrst⟩

/-! ## Each cycle carries the story on -/

section Steps

variable {t a b : Nat}

/-- A reset sends every child back, in the cycle that its delayed reset arrives. -/
theorem idlePhase_reset (hrst : (ins t).ap_rst_n = false)
    (hflush : flushCount children F ins (t + 1) = F) : IdlePhase children F ins (t + 1) := by
  refine ⟨fun j hj => retimed_reset hj hrst, fun j hj u hu hk => ?_⟩
  obtain rfl : u = t + 1 := by omega
  rw [retimed_reset hj hrst]
  simp

/-- A cycle that starts nothing leaves every child idle. -/
theorem idlePhase_wait (hrst : (ins t).ap_rst_n = true) (hno : ¬Accepts children F ins t)
    {k : Fin n → Nat} (h : ∀ j, (children j).is_autorun = false →
      retimed children F ins j t = .IDLE ∧ Quiet children F ins j t (k j))
    (hk : ∀ j, min (delay children j) (F - flushCount children F ins (t + 1)) ≤ k j + 1) :
    IdlePhase children F ins (t + 1) := by
  have hidle : ∀ j, (children j).is_autorun = false →
      retimed children F ins j (t + 1) = .IDLE :=
    fun j hj => retimed_idle hj hrst hno (h j hj).1
  refine ⟨hidle, fun j hj => ?_⟩
  exact ((h j hj).2.succ (by rw [hidle j hj]; simp)).mono (hk j)

theorem IdlePhase.wait (h : IdlePhase children F ins t) (hrst : (ins t).ap_rst_n = true)
    (hno : ¬Accepts children F ins t)
    (hcount : flushCount children F ins (t + 1) = flushCount children F ins t - 1) :
    IdlePhase children F ins (t + 1) :=
  idlePhase_wait hrst hno (fun j hj => ⟨h.idle j hj, h.quiet j hj⟩) fun j => by omega

/-- An accepted start sets every child to work. -/
theorem IdlePhase.launch (h : IdlePhase children F ins t) (hacc : Accepts children F ins t)
    (hF : ∀ j, (children j).is_autorun = false → delay children j ≤ F) :
    RunningPhase children F ins t (t + 1) := by
  refine ⟨⟨by omega, hacc, fun u h1 h2 => by omega⟩, fun j hj => ?_, fun j hj => .inl ?_⟩
  · refine (h.quiet j hj).mono ?_
    have := hF j hj
    rw [hacc.idle.2.1]
    omega
  · intro u h1 h2
    obtain rfl : u = t + 1 := by omega
    exact .inl (retimed_launch hj hacc (h.idle j hj))

section

variable (h : RunningPhase children F ins a t)
include h

/-- While the global controller waits, each child goes on, and stays done. -/
theorem RunningPhase.work_succ
    (hrst : (ins t).ap_rst_n = true) (hrun : globalState children F ins t = .RUNNING)
    (j : Fin n) (hj : (children j).is_autorun = false) :
    (∀ u, a < u → u ≤ t + 1 → Active (retimed children F ins j u)) ∨
      ∃ d < t + 1, Finished children F ins j a d ∧
        ∀ u, d < u → u ≤ t + 1 → retimed children F ins j u = .DONE := by
  have hat := h.opened.lt
  rcases h.work j hj with hact | ⟨d, hdt, hfin, hdone⟩
  · rcases retimed_active hj hrst (hact t hat (le_refl _)) with hgo | ⟨hd, hsig⟩
    · refine .inl fun u h1 h2 => ?_
      rcases le_succ_iff.mp h2 with hu | rfl
      · exact hact u h1 hu
      · exact hgo
    · refine .inr ⟨t, by omega, ⟨hat, hact, hsig, hd⟩, fun u h1 h2 => ?_⟩
      obtain rfl : u = t + 1 := by omega
      exact hd
  · refine .inr ⟨d, by omega, hfin, fun u h1 h2 => ?_⟩
    rcases le_succ_iff.mp h2 with hu | rfl
    · exact hdone u h1 hu
    · exact retimed_hold hj hrst (by rw [hrun]; simp) (hdone t hdt (le_refl _))

theorem RunningPhase.stay (hrst : (ins t).ap_rst_n = true)
    (hrun : globalState children F ins t = .RUNNING) : RunningPhase children F ins a (t + 1) :=
  ⟨h.opened.succ (not_accepts hrun nofun) hrst, h.quiet, h.work_succ hrst hrun⟩

/-- A completion that the global controller counts was sent for its own start. -/
theorem RunningPhase.counted
    (hdone : AllDone children F ins t) (j : Fin n) (hj : (children j).is_autorun = false) :
    ∃ d, Finished children F ins j a d ∧ d + delay children j < t ∧
      ∀ u, d < u → u ≤ t → retimed children F ins j u = .DONE := by
  obtain ⟨hle, hseen⟩ := (is_done_iff hj t).mp (hdone j hj)
  have hat := h.opened.lt
  -- The bit left the child after the start, for the child was quiet until then.
  have hafter : a < t - delay children j := by
    rcases lt_or_ge a (t - delay children j) with hlt | hge
    · exact hlt
    · exact absurd hseen (h.quiet j hj _ hge (by omega))
  rcases h.work j hj with hact | ⟨d, hdt, hfin, hd⟩
  · rcases hact _ hafter (by omega) with h1 | h1 <;> rw [h1] at hseen <;> cases hseen
  refine ⟨d, hfin, ?_, hd⟩
  rcases lt_or_ge d (t - delay children j) with hlt | hge
  · omega
  · rcases hfin.active _ hafter hge with h1 | h1 <;> rw [h1] at hseen <;> cases hseen

theorem RunningPhase.finish
    (hrst : (ins t).ap_rst_n = true) (hrun : globalState children F ins t = .RUNNING)
    (hdone : AllDone children F ins t) : ReleasingPhase children F ins a t (t + 1) := by
  refine ⟨h.opened.succ (not_accepts hrun nofun) hrst, by omega, fun j hj => ?_⟩
  obtain ⟨d, hfin, hlt, hd⟩ := h.counted hdone j hj
  refine ⟨d, hfin, hlt, fun u h1 h2 => ?_, fun u h1 h2 => by omega⟩
  rcases le_succ_iff.mp h2 with hu | rfl
  · exact hd u h1 hu
  · exact retimed_hold hj hrst (by rw [hrun]; simp) (hd t (by omega) (le_refl _))

end

theorem ReleasingPhase.stay (h : ReleasingPhase children F ins a b t)
    (hrst : (ins t).ap_rst_n = true) (hrel : globalState children F ins t = .RELEASING) :
    ReleasingPhase children F ins a b (t + 1) := by
  have hno : ¬Accepts children F ins t := not_accepts hrel nofun
  have hbt := h.lt
  refine ⟨h.opened.succ hno hrst, by omega, fun j hj => ?_⟩
  obtain ⟨d, hfin, hlt, hdone, hidle⟩ := h.work j hj
  refine ⟨d, hfin, hlt, hdone, fun u h1 h2 => ?_⟩
  rcases le_succ_iff.mp h2 with hu | rfl
  · exact hidle u h1 hu
  rcases lt_or_ge (b + 1) t with hlate | hfirst
  · exact retimed_idle hj hrst hno (hidle t hlate (le_refl _))
  · exact retimed_release hj hrst hrel (hdone t (by omega) hfirst)

/-- When the global controller sees no child done, the release has come to all. -/
theorem ReleasingPhase.clear (h : ReleasingPhase children F ins a b t)
    (hrst : (ins t).ap_rst_n = true) (hrel : globalState children F ins t = .RELEASING)
    (hclear : AllClear children F ins t) : DonePhase children F ins a (t + 1) := by
  have hno : ¬Accepts children F ins t := not_accepts hrel nofun
  have hbt := h.lt
  have hback : ∀ j, (children j).is_autorun = false → b + 1 < t - delay children j ∧
      ∀ u, b + 1 < u → u ≤ t + 1 → retimed children F ins j u = .IDLE := by
    intro j hj
    obtain ⟨d, hfin, hlt, hdone, _⟩ := h.work j hj
    obtain ⟨_, _, _, _, hidle⟩ := (h.stay hrst hrel).work j hj
    refine ⟨?_, hidle⟩
    rcases lt_or_ge (b + 1) (t - delay children j) with h1 | h1
    · exact h1
    · have hseen := (is_done_iff hj t).mpr ⟨by omega, hdone _ (by omega) h1⟩
      rw [hclear j hj] at hseen
      cases hseen
  refine ⟨h.opened.succ hno hrst, fun j hj => ?_, fun j hj => ?_, fun j hj u h1 h2 => ?_⟩
  · obtain ⟨d, hfin, hlt, _⟩ := h.work j hj
    exact ⟨d, hfin, by omega⟩
  · exact (hback j hj).2 (t + 1) (by omega) (le_refl _)
  · rw [(hback j hj).2 u (by have := (hback j hj).1; omega) h1]
    simp

theorem DonePhase.back (h : DonePhase children F ins a t) (hrst : (ins t).ap_rst_n = true)
    (hdone : globalState children F ins t = .DONE) : IdlePhase children F ins (t + 1) :=
  idlePhase_wait hrst (not_accepts hdone nofun) (fun j hj => ⟨h.idle j hj, h.quiet j hj⟩)
    fun j => by omega

end Steps

theorem Story.phase {s : GlobalState} (h : Story children F ins t)
    (hs : globalState children F ins t = s) :
    match s with
    | .IDLE => IdlePhase children F ins t
    | .RUNNING => ∃ a, RunningPhase children F ins a t
    | .RELEASING => ∃ a b, ReleasingPhase children F ins a b t
    | .DONE => ∃ a, DonePhase children F ins a t := by
  cases h with
  | idle h hphase => cases h.symm.trans hs; exact hphase
  | running h _ a hphase => cases h.symm.trans hs; exact ⟨a, hphase⟩
  | releasing h _ a b hphase => cases h.symm.trans hs; exact ⟨a, b, hphase⟩
  | done h _ a hphase => cases h.symm.trans hs; exact ⟨a, hphase⟩

/-- The story holds before every cycle, when the flush time covers the way to
every joined child and back. -/
theorem story (hF : ∀ j, (children j).is_autorun = false → delay children j ≤ F) (t : Nat) :
    Story children F ins t := by
  induction t with
  | zero =>
    refine .idle rfl ⟨fun j hj => retimed_zero hj, fun j hj u hu hk => ?_⟩
    obtain rfl : u = 0 := by omega
    rw [retimed_zero hj]
    simp
  | succ t ih =>
    have hm : Moves children F ins t := moves t
    cases hm with
    | reset hrst hnext hflush => exact .idle hnext (idlePhase_reset hrst hflush)
    | flush hrst hpos hnext hcount =>
      cases ih with
      | idle hhere hphase =>
        have hno : ¬Accepts children F ins t := fun h => by
          rw [h.idle.2.1] at hpos
          omega
        exact .idle (hnext.trans hhere) (hphase.wait hrst hno hcount)
      | running _ hz | releasing _ hz | done _ hz => omega
    | accept hacc _ hhere hnext _ hcount =>
      exact .running hnext hcount t (IdlePhase.launch (ih.phase hhere) hacc hF)
    | stay hrst hno hopen hnext hz hcount =>
      cases ih with
      | idle hhere hphase =>
        exact .idle (hnext.trans hhere) (hphase.wait hrst hno (by omega))
      | running hhere _ a hphase =>
        exact .running (hnext.trans hhere) hcount a (hphase.stay hrst hhere)
      | releasing hhere _ a b hphase =>
        exact .releasing (hnext.trans hhere) hcount a b (hphase.stay hrst hhere)
      | done hhere => exact absurd hhere hopen
    | finish hrst hall hhere hnext _ hcount =>
      obtain ⟨a, hphase⟩ := ih.phase hhere
      exact .releasing hnext hcount a t (hphase.finish hrst hhere hall)
    | clear hrst hall hhere hnext _ hcount =>
      obtain ⟨a, b, hphase⟩ := ih.phase hhere
      exact .done hnext hcount a (hphase.clear hrst hhere hall)
    | back hrst hhere hnext _ _ =>
      obtain ⟨a, hphase⟩ := ih.phase hhere
      exact .idle hnext (hphase.back hrst hhere)

/-! ## Each invocation runs once -/

variable (children F ins)

/-- Child `j` gets the start of cycle `a`, works on it from then on, and signals
done for it in cycle `d`. -/
structure DoneFor (j : Fin n) (a d : Nat) : Prop where
  started : a + latency (children j).reset < d
  active : ∀ u, a + latency (children j).reset < u → u ≤ d → Active (localState children F ins j u)
  signalled : (ins d).child_done j = true
  after : localState children F ins j (d + 1) = .DONE

/-- Each accepted start is run once by each joined child. -/
structure RunsOnce : Prop where
  /-- The local controller starts its child exactly when an accepted start reaches it. -/
  launched : ∀ j, (children j).is_autorun = false → ∀ t,
    (localState children F ins j t = .IDLE ∧ localState children F ins j (t + 1) = .RUNNING) ↔
      latency (children j).reset ≤ t ∧ Accepts children F ins (t - latency (children j).reset)
  /-- `ap_done` is for the last accepted start, and comes after every done for it. -/
  joined : ∀ t, (at_cycle children F ins t).global.ap_done = true →
    ∃ a, Opened children F ins a t ∧ ∀ j, (children j).is_autorun = false →
      ∃ d, DoneFor children F ins j a d ∧ d + latency (children j).completion < t
  /-- Completions that end the run are all for the start that began it. -/
  counted : ∀ t, globalState children F ins t = .RUNNING → AllDone children F ins t →
    ∃ a, Opened children F ins a t ∧ ∀ j, (children j).is_autorun = false →
      ∃ d, DoneFor children F ins j a d ∧ d + latency (children j).completion < t
  /-- A release that a local controller takes is for the start it has done. -/
  released : ∀ j, (children j).is_autorun = false → ∀ t,
    localState children F ins j (t + latency (children j).reset) = .DONE →
      localState children F ins j (t + latency (children j).reset + 1) = .IDLE →
        (ins t).ap_rst_n = true →
          globalState children F ins t = .RELEASING ∧ ∃ a, Opened children F ins a t ∧
            ∃ d, DoneFor children F ins j a d ∧
              ∀ u, d < u → u ≤ t + latency (children j).reset →
                localState children F ins j u = .DONE
  /-- No completion is left on its way to the global controller when it accepts. -/
  quiet : ∀ j, (children j).is_autorun = false → ∀ t, Accepts children F ins t →
    ∀ u, u ≤ t + latency (children j).reset → t ≤ u + latency (children j).completion →
      localState children F ins j u ≠ .DONE

variable {children F ins}

theorem Finished.doneFor {a d : Nat} (h : Finished children F ins j a d) :
    DoneFor children F ins j a (d + latency (children j).reset) := by
  refine ⟨by have := h.lt; omega, fun u h1 h2 => ?_, h.done, ?_⟩
  · rw [← retimed_sub (by omega : latency (children j).reset ≤ u)]
    exact h.active _ (by omega) (by omega)
  · rw [← retimed_next]
    exact h.after

/-- For any number of children on any routes, with the flush time that codegen
computes, and for any starts, resets and answers of the children. -/
theorem each_invocation_runs_once (children : Fin n → ChildRoutes) (data : List Nat) (F : Nat)
    (hF : flush_cycles (List.ofFn children) data = some F) (ins : Nat → NetworkIn n) :
    RunsOnce children F ins := by
  have hdelay : ∀ j, (children j).is_autorun = false → delay children j ≤ F :=
    fun j _ => (flush_cycles_covers hF).1 _ (by simp)
  have hstory : ∀ t, Story children F ins t := story hdelay
  refine ⟨fun j hj t => ⟨fun h => ?_, fun h => ?_⟩, fun t h => ?_, fun t h hall => ?_,
    fun j hj t h h' hrst => ?_, fun j hj t hacc u h1 h2 => ?_⟩
  · obtain ⟨h, h'⟩ := h
    have hle : latency (children j).reset ≤ t := by
      rcases lt_or_ge t (latency (children j).reset) with hlt | hge
      · rw [localState_early hj hlt] at h'
        cases h'
      · exact hge
    refine ⟨hle, accepts_of_launch hj ?_ ?_⟩
    · rw [retimed_sub hle, h]
    · rw [retimed_next, Nat.sub_add_cancel hle, h']
  · obtain ⟨hle, hacc⟩ := h
    have hidle := IdlePhase.idle ((hstory _).phase hacc.idle.1) j hj
    have hrun := retimed_launch hj hacc hidle
    rw [retimed_sub hle] at hidle
    rw [retimed_next, Nat.sub_add_cancel hle] at hrun
    exact ⟨hidle, hrun⟩
  · obtain ⟨a, hphase⟩ := (hstory t).phase (of_decide_eq_true h)
    refine ⟨a, hphase.opened, fun j hj => ?_⟩
    obtain ⟨d, hfin, hlt⟩ := hphase.work j hj
    exact ⟨_, hfin.doneFor, by unfold delay at hlt; omega⟩
  · obtain ⟨a, hphase⟩ := (hstory t).phase h
    refine ⟨a, hphase.opened, fun j hj => ?_⟩
    obtain ⟨d, hfin, hlt, _⟩ := hphase.counted hall j hj
    exact ⟨_, hfin.doneFor, by unfold delay at hlt; omega⟩
  · have hrel : globalState children F ins t = .RELEASING := by
      by_contra hno
      have hd := retimed_hold hj hrst hno h
      rw [retimed_next, h'] at hd
      cases hd
    obtain ⟨a, b, hphase⟩ := (hstory t).phase hrel
    obtain ⟨d, hfin, _, hdone, hidle⟩ := hphase.work j hj
    -- The child is still done, so this is the first cycle of the release.
    have htb : t ≤ b + 1 := by
      rcases lt_or_ge (b + 1) t with hlt | hge
      · have hi := hidle t hlt (le_refl _)
        rw [retimed, h] at hi
        cases hi
      · exact hge
    refine ⟨hrel, a, hphase.opened, _, hfin.doneFor, fun u h1 h2 => ?_⟩
    rw [← retimed_sub (by omega : latency (children j).reset ≤ u)]
    exact hdone _ (by omega) (by omega)
  · have hq := IdlePhase.quiet ((hstory t).phase hacc.idle.1) j hj
    rw [hacc.idle.2.1, Nat.sub_zero, Nat.min_eq_left (hdelay j hj)] at hq
    rcases lt_or_ge u (latency (children j).reset) with hlt | hge
    · rw [localState_early hj (le_of_lt hlt)]
      simp
    · rw [← retimed_sub hge]
      exact hq _ (by omega) (by unfold delay; omega)

/-- A child in the slot of the global controller, and one two slots away. -/
def two_children : Fin 2 → ChildRoutes := fun j =>
  if j = 0 then ⟨false, none, none, none, rfl, fun _ => rfl⟩
  else ⟨false, some 1, some 1, some 0, rfl, fun h => nomatch h⟩

theorem two_children_run_each_invocation_once :
    flush_cycles (List.ofFn two_children) [3] = some 8 ∧
      RunsOnce two_children 8 (fun t => ⟨decide (t ≠ 20), true, fun _ => true, fun _ => true⟩) :=
  ⟨by decide, each_invocation_runs_once two_children [3] 8 (by decide) _⟩

end Tapa.Control
