-- The check that ends a run when a blocked stream has no kernel left to serve it
-- (`check_kernel_can_still_serve`). It adds two counters that it loads one after
-- the other, while instances move from one to the other, and compares the sum with
-- one that was taken when the stream was bound.
import Tapa.Interleaving

namespace Tapa.Host.Service

open Interleaving

/-! ## Instances, the stream and the check -/

/-- Where an instance is. Its end moves it from one counter to the other in two
steps, and between them it is in both. -/
inductive Phase where
  | unscheduled | running | finishing | finished
deriving DecidableEq

/-- Which operand of the sum is loaded first. -/
inductive Order where
  | finished_first | in_flight_first
deriving DecidableEq

/-- What the thread that binds the stream to an instance does next. -/
inductive Binder where
  | idle
  | sum_first (i : Nat) (order : Order)
  | sum_second (i : Nat) (order : Order) (loaded : Int)
  | store_bound_at (i : Nat) (sum : Int)
  | store_is_frt_arg (i : Nat)
deriving DecidableEq

/-- The instance that the stream is being bound to. -/
def Binder.target : Binder → Option Nat
  | idle => none
  | sum_first i _ | sum_second i _ _ | store_bound_at i _ | store_is_frt_arg i => some i

/-- What the blocked operation on the stream does next. The stream is one that only its
kernel instance serves, so `is_kernel_done` is false and the check begins with
`is_kernel_bound`. -/
inductive Poller where
  | idle
  | load_is_frt_arg (order : Order)
  | sum_first (order : Order)
  | sum_second (order : Order) (loaded : Int)
  | load_bound_at (sum : Int)
  | load_finished
  | load_in_flight
  | ask_blocked
  | aborted
deriving DecidableEq

/-- The counters, the instances, one stream and its two threads. The last three fields
only record: the instance that the stream is bound to, and where the instances were when
each thread loaded the first operand of its sum. -/
structure State where
  frt_instances_in_flight : Int
  frt_instances_finished : Int
  phase : Nat → Phase
  is_frt_arg : Bool
  bound_at : Int
  binder : Binder
  poller : Poller
  bound_to : Option Nat
  binder_saw : Nat → Phase
  poller_saw : Nat → Phase

def State.start : State where
  frt_instances_in_flight := 0
  frt_instances_finished := 0
  phase := fun _ => .unscheduled
  is_frt_arg := false
  bound_at := 0
  binder := .idle
  poller := .idle
  bound_to := none
  binder_saw := fun _ => .unscheduled
  poller_saw := fun _ => .unscheduled

/-- An `int` of 32 bits. -/
def wrap (x : Int) : Int := (x + 2 ^ 31) % 2 ^ 32 - 2 ^ 31

def State.first_operand (s : State) : Order → Int
  | .finished_first => s.frt_instances_finished
  | .in_flight_first => s.frt_instances_in_flight

def State.second_operand (s : State) : Order → Int
  | .finished_first => s.frt_instances_in_flight
  | .in_flight_first => s.frt_instances_finished

inductive Action where
  | bind (i : Nat) (order : Order)
  | binder
  | schedule (i : Nat)
  | finish (i : Nat)
  | leave (i : Nat)
  | check (order : Order)
  | poller (blocked : Bool)
deriving DecidableEq

def State.set_phase (s : State) (i : Nat) (p : Phase) : State :=
  { s with phase := fun j => if j = i then p else s.phase j }

/-- The next action of `get_frt_stream`. -/
def State.bind (s : State) : State :=
  match s.binder with
  | .idle => s
  | .sum_first i order =>
    { s with binder := .sum_second i order (s.first_operand order), binder_saw := s.phase }
  | .sum_second i order loaded =>
    { s with binder := .store_bound_at i (wrap (loaded + s.second_operand order)) }
  | .store_bound_at i sum =>
    { s with bound_at := sum, bound_to := some i, binder := .store_is_frt_arg i }
  | .store_is_frt_arg _ => { s with is_frt_arg := true, binder := .idle }

/-- The next action of `check_kernel_can_still_serve`. The last one asks whether the
stream is still blocked. -/
def State.poll (s : State) (blocked : Bool) : State :=
  match s.poller with
  | .idle => s
  | .load_is_frt_arg order =>
    { s with poller := if s.is_frt_arg then .sum_first order else .idle }
  | .sum_first order =>
    { s with poller := .sum_second order (s.first_operand order), poller_saw := s.phase }
  | .sum_second order loaded =>
    { s with poller := .load_bound_at (wrap (loaded + s.second_operand order)) }
  | .load_bound_at sum => { s with poller := if s.bound_at < sum then .load_finished else .idle }
  | .load_finished =>
    { s with poller := if 0 < s.frt_instances_finished then .load_in_flight else .idle }
  | .load_in_flight =>
    { s with poller := if s.frt_instances_in_flight = 0 then .ask_blocked else .idle }
  | .ask_blocked => { s with poller := if blocked then .aborted else .idle }
  | .aborted => s

/-- The actions of a program with `n` kernel instances. The arguments of an instance
are bound before it is scheduled. -/
def step (n : Nat) (s : State) : Action → State
  | .bind i order =>
    if s.binder = .idle ∧ i < n ∧ s.phase i = .unscheduled then
      { s with binder := .sum_first i order }
    else s
  | .binder => s.bind
  | .schedule i =>
    if i < n ∧ s.phase i = .unscheduled ∧ s.binder.target ≠ some i then
      { s.set_phase i .running with
        frt_instances_in_flight := wrap (s.frt_instances_in_flight + 1) }
    else s
  | .finish i =>
    if s.phase i = .running then
      { s.set_phase i .finishing with
        frt_instances_finished := wrap (s.frt_instances_finished + 1) }
    else s
  | .leave i =>
    if s.phase i = .finishing then
      { s.set_phase i .finished with
        frt_instances_in_flight := wrap (s.frt_instances_in_flight - 1) }
    else s
  | .check order =>
    match s.poller with
    | .idle => { s with poller := .load_is_frt_arg order }
    | _ => s
  | .poller blocked => s.poll blocked

/-! ## When the check may end a run -/

/-- The instance that the stream is bound to was scheduled, and every instance that
was scheduled has finished. -/
def Unserved (n : Nat) (s : State) : Prop :=
  (∃ i, s.bound_to = some i ∧ s.phase i ≠ .unscheduled) ∧
    ∀ i < n, s.phase i ≠ .unscheduled → s.phase i = .finished

/-- A check that looks at what is in flight, or asks after that. -/
def Poller.Judging (p : Poller) : Prop := p = .load_in_flight ∨ p = .ask_blocked

/-- The action that ends a run is the answer that the stream is still blocked, and the
check that asked has found the stream unserved before. -/
def AbortsRightly (n : Nat) (actions : List Action) : Prop :=
  ∀ before a, before ++ [a] <+: actions → (run (step n) .start before).poller ≠ .aborted →
    (run (step n) .start (before ++ [a])).poller = .aborted →
      a = .poller true ∧ ∃ earlier since, before = earlier ++ since ∧
        Unserved n (run (step n) .start earlier) ∧
          ∀ part, part <+: since → (run (step n) .start (earlier ++ part)).poller.Judging

/-! ## Where the sums are the running total -/

/-- How often an instance is counted, and how often it should be. -/
def Phase.in_flight : Phase → Int
  | running | finishing => 1
  | unscheduled | finished => 0

def Phase.ended : Phase → Int
  | finishing | finished => 1
  | unscheduled | running => 0

def Phase.scheduled : Phase → Int
  | unscheduled => 0
  | running | finishing | finished => 1

def Order.first : Order → Phase → Int
  | finished_first => Phase.ended
  | in_flight_first => Phase.in_flight

def Order.second : Order → Phase → Int
  | finished_first => Phase.in_flight
  | in_flight_first => Phase.ended

/-- The check does not load the second operand of its sum where it counts an instance
that the first one has counted. -/
def Poller.CountsOnce (n : Nat) (s : State) : Poller → Prop
  | sum_second order _ =>
    ∀ i < n, ¬(order.first (s.poller_saw i) = 1 ∧ order.second (s.phase i) = 1)
  | _ => True

/-- The sum at bind time does not miss an instance that is scheduled, and it is not stored
where a check has passed the comparison with the one before. -/
def Binder.MissesNone (n : Nat) (s : State) : Binder → Prop
  | sum_second _ order _ => ∀ i < n, s.phase i ≠ .unscheduled →
    order.first (s.binder_saw i) = 1 ∨ order.second (s.phase i) = 1
  | store_bound_at _ _ => s.poller ≠ .load_finished ∧ s.poller ≠ .load_in_flight
  | _ => True

/-- The instance that the sum at bind time was taken for. -/
def Binder.summed_for : Binder → Option Nat
  | store_bound_at i _ => some i
  | _ => none

/-- The steps that keep the sums what the check takes them for: each of them the number of
scheduled instances, and no other instance scheduled between the sum at bind time and the
instance that it was taken for. -/
def Clean (n : Nat) (s : State) : Action → Prop
  | .binder => s.binder.MissesNone n s
  | .poller _ => s.poller.CountsOnce n s
  | .schedule i => (∀ j ∈ s.bound_to, j = i ∨ s.phase j ≠ .unscheduled) ∧
    ∀ j ∈ s.binder.summed_for, j = i
  | _ => True

instance (n : Nat) (s : State) : ∀ p : Poller, Decidable (p.CountsOnce n s)
  | .sum_second order _ => inferInstanceAs (Decidable (∀ i < n,
      ¬(order.first (s.poller_saw i) = 1 ∧ order.second (s.phase i) = 1)))
  | .idle | .load_is_frt_arg _ | .sum_first _ | .load_bound_at _ | .load_finished
  | .load_in_flight | .ask_blocked | .aborted => .isTrue trivial

instance (n : Nat) (s : State) : ∀ b : Binder, Decidable (b.MissesNone n s)
  | .sum_second _ order _ => inferInstanceAs (Decidable (∀ i < n, s.phase i ≠ .unscheduled →
      order.first (s.binder_saw i) = 1 ∨ order.second (s.phase i) = 1))
  | .store_bound_at _ _ => inferInstanceAs (Decidable (_ ∧ _))
  | .idle | .sum_first _ _ | .store_is_frt_arg _ => .isTrue trivial

instance (n : Nat) (s : State) : ∀ a : Action, Decidable (Clean n s a)
  | .binder => inferInstanceAs (Decidable (s.binder.MissesNone n s))
  | .poller _ => inferInstanceAs (Decidable (s.poller.CountsOnce n s))
  | .schedule _ => inferInstanceAs (Decidable (_ ∧ _))
  | .bind _ _ | .finish _ | .leave _ | .check _ => .isTrue trivial

/-! ## The counters -/

/-- How often the instances are counted together. -/
def count (f : Phase → Int) (n : Nat) (phase : Nat → Phase) : Int :=
  ∑ i ∈ Finset.range n, f (phase i)

section Counts

variable {f : Phase → Int} {n : Nat} {phase : Nat → Phase} {s : State} {i : Nat} {p : Phase}

theorem count_set_phase (hi : i < n) : count f n (s.set_phase i p).phase =
    count f n s.phase + (f p - f (s.phase i)) := by
  have hmem : i ∈ Finset.range n := Finset.mem_range.mpr hi
  unfold count
  simp only [State.set_phase]
  rw [← Finset.add_sum_erase _ _ hmem, ← Finset.add_sum_erase _ (fun j => f (s.phase j)) hmem]
  have hrest : ∀ j ∈ (Finset.range n).erase i,
      f (if j = i then p else s.phase j) = f (s.phase j) := by
    intro j hj
    rw [if_neg (Finset.ne_of_mem_erase hj)]
  rw [Finset.sum_congr rfl hrest, if_pos rfl]
  omega

theorem count_nonneg (h : ∀ p, 0 ≤ f p) : 0 ≤ count f n phase :=
  Finset.sum_nonneg fun i _ => h (phase i)

theorem count_le (h : ∀ p, f p ≤ 1) : count f n phase ≤ n := by
  have := Finset.sum_le_card_nsmul (Finset.range n) (fun i => f (phase i)) 1 fun i _ => h (phase i)
  simpa [count] using this

theorem Order.first_range (order : Order) (p : Phase) : 0 ≤ order.first p ∧ order.first p ≤ 1 := by
  cases order <;> cases p <;> decide

theorem Order.second_range (order : Order) (p : Phase) :
    0 ≤ order.second p ∧ order.second p ≤ 1 := by
  cases order <;> cases p <;> decide

theorem wrap_eq {x : Int} (h : -2 ^ 31 ≤ x ∧ x < 2 ^ 31) : wrap x = x := by
  unfold wrap
  omega

/-- A sum of two operands is an `int`. -/
theorem wrap_sum (hn : n < 2 ^ 30) (order : Order) (saw : Nat → Phase) :
    wrap (count order.first n saw + count order.second n phase) =
      count order.first n saw + count order.second n phase := by
  have hfirst : 0 ≤ count order.first n saw := count_nonneg fun p => (order.first_range p).1
  have hsecond : 0 ≤ count order.second n phase := count_nonneg fun p => (order.second_range p).1
  have hfirst' : count order.first n saw ≤ n := count_le fun p => (order.first_range p).2
  have hsecond' : count order.second n phase ≤ n := count_le fun p => (order.second_range p).2
  refine wrap_eq ⟨?_, ?_⟩ <;> omega

/-- A sum that counts no instance twice is at most the number of scheduled instances. -/
theorem sum_le_scheduled {order : Order} {saw : Nat → Phase}
    (hlater : ∀ i, saw i ≠ .unscheduled → phase i ≠ .unscheduled)
    (honce : ∀ i < n, ¬(order.first (saw i) = 1 ∧ order.second (phase i) = 1)) :
    count order.first n saw + count order.second n phase ≤ count Phase.scheduled n phase := by
  unfold count
  rw [← Finset.sum_add_distrib]
  refine Finset.sum_le_sum fun i hi => ?_
  have hl := hlater i
  have ho := honce i (Finset.mem_range.mp hi)
  revert hl ho
  generalize saw i = a
  generalize phase i = b
  cases order <;> cases a <;> cases b <;>
    simp [Order.first, Order.second, Phase.ended, Phase.in_flight, Phase.scheduled]

/-- A sum that misses no scheduled instance is at least their number. -/
theorem scheduled_le_sum {order : Order} {saw : Nat → Phase}
    (hnone : ∀ i < n, phase i ≠ .unscheduled →
      order.first (saw i) = 1 ∨ order.second (phase i) = 1) :
    count Phase.scheduled n phase ≤ count order.first n saw + count order.second n phase := by
  unfold count
  rw [← Finset.sum_add_distrib]
  refine Finset.sum_le_sum fun i hi => ?_
  have h1 := (order.first_range (saw i)).1
  have h2 := (order.second_range (phase i)).1
  by_cases hp : phase i = .unscheduled
  · rw [hp] at h2 ⊢
    exact Int.add_nonneg h1 h2
  · have hle : (phase i).scheduled ≤ 1 := by cases phase i <;> decide
    rcases hnone i (Finset.mem_range.mp hi) hp with h | h <;> omega

end Counts

/-! ## The invariant -/

/-- What the binder knows before the instance is scheduled. -/
def Binder.Sound (n : Nat) (s : State) : Binder → Prop
  | idle => True
  | sum_first i _ => s.phase i = .unscheduled
  | sum_second i order loaded => s.phase i = .unscheduled ∧
    loaded = count order.first n s.binder_saw
  | store_bound_at i sum => s.phase i = .unscheduled ∧ count Phase.scheduled n s.phase ≤ sum
  | store_is_frt_arg i => s.bound_to = some i

/-- What the check knows: its sum is not over the number of scheduled instances, and once it
has passed the comparison, the instance of the stream is one of them. -/
def Poller.Sound (n : Nat) (s : State) : Poller → Prop
  | idle | load_is_frt_arg _ | ask_blocked | aborted => True
  | sum_first _ => s.bound_to.isSome = true
  | sum_second order loaded => s.bound_to.isSome = true ∧
    loaded = count order.first n s.poller_saw ∧
      ∀ i, s.poller_saw i ≠ .unscheduled → s.phase i ≠ .unscheduled
  | load_bound_at sum => s.bound_to.isSome = true ∧ sum ≤ count Phase.scheduled n s.phase
  | load_finished | load_in_flight => ∃ i, s.bound_to = some i ∧ s.phase i ≠ .unscheduled

structure Inv (n : Nat) (s : State) : Prop where
  others : ∀ i, s.phase i ≠ .unscheduled → i < n
  in_flight : s.frt_instances_in_flight = count Phase.in_flight n s.phase
  finished : s.frt_instances_finished = count Phase.ended n s.phase
  arg : s.is_frt_arg = true → s.bound_to.isSome = true
  bound : ∀ i, s.bound_to = some i → s.phase i = .unscheduled →
    count Phase.scheduled n s.phase ≤ s.bound_at
  binder : s.binder.Sound n s
  poller : s.poller.Sound n s

section Invariant

variable {n : Nat} {s : State}

theorem Inv.start (n : Nat) : Inv n .start := by
  have hzero : ∀ f : Phase → Int, f .unscheduled = 0 → count f n State.start.phase = 0 := by
    intro f hf
    simp [count, State.start, hf]
  refine ⟨fun i h => absurd rfl h, (hzero _ rfl).symm, (hzero _ rfl).symm, ?_, ?_, trivial,
    trivial⟩
  · intro h
    cases h
  · intro i h
    cases h

theorem Inv.first_operand (h : Inv n s) (order : Order) :
    s.first_operand order = count order.first n s.phase := by
  cases order with
  | finished_first => exact h.finished
  | in_flight_first => exact h.in_flight

theorem Inv.second_operand (h : Inv n s) (order : Order) :
    s.second_operand order = count order.second n s.phase := by
  cases order with
  | finished_first => exact h.in_flight
  | in_flight_first => exact h.finished

theorem Inv.with_binder (h : Inv n s) {next : Binder} (hn : next.Sound n s) :
    Inv n { s with binder := next } :=
  ⟨h.others, h.in_flight, h.finished, h.arg, h.bound, hn, h.poller⟩

theorem Inv.with_poller (h : Inv n s) {next : Poller} (hn : next.Sound n s) :
    Inv n { s with poller := next } :=
  ⟨h.others, h.in_flight, h.finished, h.arg, h.bound, h.binder, hn⟩

theorem Inv.bind (hsmall : n < 2 ^ 30) (h : Inv n s) (hclean : s.binder.MissesNone n s) :
    Inv n s.bind := by
  have hsound := h.binder
  unfold State.bind
  cases hb : s.binder with
  | idle => exact h
  | sum_first i order =>
    rw [hb] at hsound
    exact ⟨h.others, h.in_flight, h.finished, h.arg, h.bound,
      ⟨hsound, h.first_operand order⟩, h.poller⟩
  | sum_second i order loaded =>
    rw [hb] at hsound hclean
    obtain ⟨hp, rfl⟩ := hsound
    refine h.with_binder ⟨hp, ?_⟩
    rw [h.second_operand, wrap_sum hsmall]
    exact scheduled_le_sum hclean
  | store_bound_at i sum =>
    rw [hb] at hsound hclean
    obtain ⟨hp, hsum⟩ := hsound
    refine ⟨h.others, h.in_flight, h.finished, fun _ => rfl, fun _ _ _ => hsum, rfl, ?_⟩
    have hpoll := h.poller
    cases hq : s.poller with
    | idle | load_is_frt_arg order | ask_blocked | aborted => trivial
    | sum_first order => exact rfl
    | sum_second order loaded | load_bound_at sum =>
      rw [hq] at hpoll
      exact ⟨rfl, hpoll.2⟩
    | load_finished => exact absurd hq hclean.1
    | load_in_flight => exact absurd hq hclean.2
  | store_is_frt_arg i =>
    rw [hb] at hsound
    exact ⟨h.others, h.in_flight, h.finished, fun _ => by rw [hsound]; rfl, h.bound, trivial,
      h.poller⟩

theorem Inv.poll (hsmall : n < 2 ^ 30) (h : Inv n s) (hclean : s.poller.CountsOnce n s)
    (blocked : Bool) : Inv n (s.poll blocked) := by
  have hsound := h.poller
  unfold State.poll
  cases hq : s.poller with
  | idle => exact h
  | load_is_frt_arg order =>
    refine h.with_poller ?_
    split
    · rename_i harg
      exact h.arg harg
    · trivial
  | sum_first order =>
    rw [hq] at hsound
    exact ⟨h.others, h.in_flight, h.finished, h.arg, h.bound, h.binder,
      hsound, h.first_operand order, fun _ hi => hi⟩
  | sum_second order loaded =>
    rw [hq] at hsound hclean
    obtain ⟨hbound, rfl, hlater⟩ := hsound
    refine h.with_poller ⟨hbound, ?_⟩
    rw [h.second_operand, wrap_sum hsmall]
    exact sum_le_scheduled hlater hclean
  | load_bound_at sum =>
    rw [hq] at hsound
    obtain ⟨hbound, hsum⟩ := hsound
    refine h.with_poller ?_
    split
    · -- A sum over `bound_at` has seen the instance, for without it there are not so many.
      rename_i hlt
      obtain ⟨i, hi⟩ := Option.isSome_iff_exists.mp hbound
      refine ⟨i, hi, fun hp => ?_⟩
      have := h.bound i hi hp
      omega
    · trivial
  | load_finished =>
    rw [hq] at hsound
    refine h.with_poller ?_
    split
    · exact hsound
    · trivial
  | load_in_flight | ask_blocked =>
    refine h.with_poller ?_
    split <;> trivial
  | aborted => exact h

section Move

variable {i : Nat} {p : Phase}

theorem set_phase_of_ne {j : Nat} (hj : j ≠ i) : (s.set_phase i p).phase j = s.phase j := if_neg hj

theorem Phase.scheduled_eq_one (hp : p ≠ .unscheduled) : p.scheduled = 1 := by
  cases p <;> first | rfl | exact absurd rfl hp

variable (hp : p ≠ .unscheduled)
include hp

theorem stays_scheduled {j : Nat} (hj : s.phase j ≠ .unscheduled) :
    (s.set_phase i p).phase j ≠ .unscheduled := by
  simp only [State.set_phase]
  split
  · exact hp
  · exact hj

theorem scheduled_le_set_phase (hi : i < n) :
    count Phase.scheduled n s.phase ≤ count Phase.scheduled n (s.set_phase i p).phase := by
  rw [count_set_phase hi, Phase.scheduled_eq_one hp]
  have hle : (s.phase i).scheduled ≤ 1 := by cases s.phase i <;> decide
  omega

theorem scheduled_set_phase (hi : i < n) (hold : s.phase i ≠ .unscheduled) :
    count Phase.scheduled n (s.set_phase i p).phase = count Phase.scheduled n s.phase := by
  rw [count_set_phase hi, Phase.scheduled_eq_one hp, Phase.scheduled_eq_one hold]
  omega

theorem Poller.Sound.move (hi : i < n) {q : Poller} (h : q.Sound n s) :
    q.Sound n (s.set_phase i p) := by
  cases q with
  | idle | load_is_frt_arg order | ask_blocked | aborted => trivial
  | sum_first order => exact h
  | sum_second order loaded => exact ⟨h.1, h.2.1, fun j hj => stays_scheduled hp (h.2.2 j hj)⟩
  | load_bound_at sum => exact ⟨h.1, h.2.trans (scheduled_le_set_phase hp hi)⟩
  | load_finished | load_in_flight =>
    obtain ⟨j, hj, hphase⟩ := h
    exact ⟨j, hj, stays_scheduled hp hphase⟩

theorem Binder.Sound.move (hi : i < n) {q : Binder} (h : q.Sound n s)
    (hfree : s.phase i = .unscheduled → q.target ≠ some i ∧ ∀ j ∈ q.summed_for, j = i) :
    q.Sound n (s.set_phase i p) := by
  have htarget : ∀ j, q.target = some j → s.phase j = .unscheduled →
      (s.set_phase i p).phase j = .unscheduled := by
    intro j hj hphase
    rw [set_phase_of_ne, hphase]
    rintro rfl
    exact (hfree hphase).1 hj
  cases q with
  | idle => trivial
  | sum_first j order => exact htarget j rfl h
  | sum_second j order loaded => exact ⟨htarget j rfl h.1, h.2⟩
  | store_bound_at j sum =>
    have hold : s.phase i ≠ .unscheduled := fun hnew =>
      (hfree hnew).1 (congrArg some ((hfree hnew).2 j rfl))
    exact ⟨htarget j rfl h.1, (scheduled_set_phase hp hi hold).le.trans h.2⟩
  | store_is_frt_arg j => exact h

/-- An instance is scheduled, or moves on; where the number of scheduled instances grows,
no sum is kept that is to bound it. -/
theorem Inv.move (h : Inv n s) {in_flight ended : Int} (hi : i < n)
    (hf : in_flight = s.frt_instances_in_flight + (p.in_flight - (s.phase i).in_flight))
    (he : ended = s.frt_instances_finished + (p.ended - (s.phase i).ended))
    (hfree : s.phase i = .unscheduled → s.binder.target ≠ some i ∧
      (∀ j ∈ s.bound_to, j = i ∨ s.phase j ≠ .unscheduled) ∧
        ∀ j ∈ s.binder.summed_for, j = i) :
    Inv n { s.set_phase i p with
      frt_instances_in_flight := in_flight
      frt_instances_finished := ended } := by
  refine ⟨?_, ?_, ?_, h.arg, ?_, ?_, h.poller.move hp hi⟩
  · intro j hj
    by_cases hji : j = i
    · exact hji ▸ hi
    · exact h.others j (set_phase_of_ne hji ▸ hj)
  · exact (hf.trans (by rw [h.in_flight])).trans (count_set_phase hi).symm
  · exact (he.trans (by rw [h.finished])).trans (count_set_phase hi).symm
  · intro j hj hphase
    have hne : j ≠ i := by
      rintro rfl
      exact hp (by simpa [State.set_phase] using hphase)
    have hphase : s.phase j = .unscheduled := set_phase_of_ne hne ▸ hphase
    by_cases hnew : s.phase i = .unscheduled
    · exact absurd hphase (((hfree hnew).2.1 j hj).resolve_left hne)
    · exact (scheduled_set_phase hp hi hnew).le.trans (h.bound j hj hphase)
  · exact h.binder.move hp hi fun hnew => ⟨(hfree hnew).1, (hfree hnew).2.2⟩

end Move

/-- The counters are between zero and the number of instances. -/
theorem Inv.counters (h : Inv n s) :
    (0 ≤ s.frt_instances_in_flight ∧ s.frt_instances_in_flight ≤ n) ∧
      0 ≤ s.frt_instances_finished ∧ s.frt_instances_finished ≤ n := by
  rw [h.in_flight, h.finished]
  exact ⟨⟨count_nonneg fun p => (Order.first_range .in_flight_first p).1,
    count_le fun p => (Order.first_range .in_flight_first p).2⟩,
    count_nonneg fun p => (Order.first_range .finished_first p).1,
    count_le fun p => (Order.first_range .finished_first p).2⟩

theorem Inv.step (hsmall : n < 2 ^ 30) (s : State) (a : Action) (hclean : Clean n s a)
    (h : Inv n s) : Inv n (step n s a) := by
  obtain ⟨⟨hf0, hfn⟩, he0, hen⟩ := h.counters
  cases a with
  | bind i order =>
    simp only [Service.step]
    split
    · rename_i hcond
      exact h.with_binder hcond.2.2
    · exact h
  | binder => exact h.bind hsmall hclean
  | schedule i =>
    simp only [Service.step]
    split
    · rename_i hcond
      obtain ⟨hi, hp, htarget⟩ := hcond
      refine h.move (by decide) hi ?_ ?_ fun _ => ⟨htarget, hclean⟩
      · rw [hp, wrap_eq ⟨by omega, by omega⟩]
        rfl
      · rw [hp]
        exact (Int.add_zero _).symm
    · exact h
  | finish i =>
    simp only [Service.step]
    split
    · rename_i hp
      have hne : s.phase i ≠ .unscheduled := by
        rw [hp]
        decide
      refine h.move (by decide) (h.others i hne) ?_ ?_ fun hnew => absurd hnew hne
      · rw [hp]
        exact (Int.add_zero _).symm
      · rw [hp, wrap_eq ⟨by omega, by omega⟩]
        rfl
    · exact h
  | leave i =>
    simp only [Service.step]
    split
    · rename_i hp
      have hne : s.phase i ≠ .unscheduled := by
        rw [hp]
        decide
      refine h.move (by decide) (h.others i hne) ?_ ?_ fun hnew => absurd hnew hne
      · rw [hp, wrap_eq ⟨by omega, by omega⟩]
        rfl
      · rw [hp]
        exact (Int.add_zero _).symm
    · exact h
  | check order =>
    simp only [Service.step]
    split
    · exact h.with_poller trivial
    · exact h
  | poller blocked => exact h.poll hsmall hclean blocked

/-- Where the check finds nothing in flight, the stream is unserved. -/
theorem Inv.unserved (h : Inv n s) (hq : s.poller = .load_in_flight)
    (hzero : s.frt_instances_in_flight = 0) : Unserved n s := by
  have hsound := h.poller
  rw [hq] at hsound
  refine ⟨hsound, fun i hi hp => ?_⟩
  rw [h.in_flight, count] at hzero
  have hnonneg : ∀ j ∈ Finset.range n, 0 ≤ (s.phase j).in_flight :=
    fun j _ => (Order.first_range .in_flight_first (s.phase j)).1
  have hnone := (Finset.sum_eq_zero_iff_of_nonneg hnonneg).mp hzero i (Finset.mem_range.mpr hi)
  cases hphase : s.phase i with
  | unscheduled => exact absurd hphase hp
  | running | finishing =>
    rw [hphase] at hnone
    cases hnone
  | finished => rfl

end Invariant

/-! ## The check against an unserved stream -/

section Check

variable {n : Nat} {s : State} {a : Action}

/-- Only the check itself moves on. -/
theorem poller_step (n : Nat) (s : State) (a : Action) :
    (step n s a).poller = s.poller ∨ (∃ order, (step n s a).poller = .load_is_frt_arg order) ∨
      ∃ blocked, a = .poller blocked := by
  cases a with
  | bind i order => simp only [step]; split <;> exact .inl rfl
  | binder => simp only [step, State.bind]; split <;> exact .inl rfl
  | schedule i | finish i | leave i => simp only [step]; split <;> exact .inl rfl
  | check order =>
    simp only [step]
    split
    · exact .inr (.inl ⟨order, rfl⟩)
    · exact .inl rfl
  | poller blocked => exact .inr (.inr ⟨blocked, rfl⟩)

/-- The last question comes after a look at what is in flight. -/
theorem ask_blocked_step (ha : (step n s a).poller = .ask_blocked) : s.poller = .ask_blocked ∨
    s.poller = .load_in_flight ∧ s.frt_instances_in_flight = 0 := by
  rcases poller_step n s a with hsame | ⟨order, hnew⟩ | ⟨blocked, rfl⟩
  · exact .inl (hsame ▸ ha)
  · rw [hnew] at ha
    cases ha
  simp only [step, State.poll] at ha
  cases hq : s.poller <;> simp only [hq] at ha
  case load_in_flight =>
    split at ha
    · exact .inr ⟨rfl, by assumption⟩
    · cases ha
  all_goals first | exact .inl rfl | cases ha | (split at ha <;> cases ha)

/-- A run is ended on the answer that the stream is still blocked. -/
theorem aborted_step (ha : (step n s a).poller = .aborted) :
    s.poller = .aborted ∨ s.poller = .ask_blocked ∧ a = .poller true := by
  rcases poller_step n s a with hsame | ⟨order, hnew⟩ | ⟨blocked, rfl⟩
  · exact .inl (hsame ▸ ha)
  · rw [hnew] at ha
    cases ha
  simp only [step, State.poll] at ha
  cases hq : s.poller <;> simp only [hq] at ha
  case ask_blocked =>
    cases blocked with
    | true => exact .inr ⟨rfl, rfl⟩
    | false => cases ha
  all_goals first | exact .inl rfl | cases ha | (split at ha <;> cases ha)

/-- A check that asks has looked at an unserved stream, and was not left since. -/
theorem unserved_of_ask_blocked (hsmall : n < 2 ^ 30) {actions : List Action}
    (hclean : Along (step n) (Clean n) .start actions)
    (h : (run (step n) .start actions).poller = .ask_blocked) :
    ∃ earlier since, actions = earlier ++ since ∧ Unserved n (run (step n) .start earlier) ∧
      ∀ part, part <+: since → (run (step n) .start (earlier ++ part)).poller.Judging := by
  induction actions using List.reverseRecOn with
  | nil => cases h
  | append_singleton actions a ih =>
    obtain ⟨hbefore, -⟩ := (along_append _ _).mp hclean
    have hask := h
    rw [run_append, run_cons] at hask
    rcases ask_blocked_step hask with hsame | ⟨hq, hzero⟩
    · obtain ⟨earlier, since, rfl, hun, hjudging⟩ := ih hbefore hsame
      refine ⟨earlier, since ++ [a], List.append_assoc _ _ _, hun, fun part hpart => ?_⟩
      rcases List.prefix_concat_iff.mp hpart with rfl | hpart
      · rw [← List.append_assoc]
        exact .inr h
      · exact hjudging part hpart
    · have hinv := run_invariant_along (P := Inv n) (fun s a hc hs => Inv.step hsmall s a hc hs)
        (Inv.start n) hbefore
      refine ⟨actions, [a], rfl, hinv.unserved hq hzero, fun part hpart => ?_⟩
      rcases List.prefix_concat_iff.mp (show part <+: [] ++ [a] from hpart) with rfl | hpart
      · exact .inr h
      · rw [List.prefix_nil.mp hpart, List.append_nil]
        exact .inl hq

end Check

/-- A run is ended only on a stream that is unserved and stays blocked, in every interleaving
whose sums are the running total. -/
theorem a_healthy_run_is_never_aborted {n : Nat} (hsmall : n < 2 ^ 30) {actions : List Action}
    (hclean : Along (step n) (Clean n) .start actions) : AbortsRightly n actions := by
  rintro before a ⟨after, rfl⟩ hnot habort
  obtain ⟨hbefore, -⟩ := (along_append _ _).mp ((along_append _ _).mp hclean).1
  rw [run_append, run_cons] at habort
  rcases aborted_step habort with h | ⟨hask, rfl⟩
  · exact absurd h hnot
  · exact ⟨rfl, unserved_of_ask_blocked hsmall hbefore hask⟩

/-- The stream is bound to the first of two instances. Both are scheduled and end, the second
one between the two loads of a sum, and the stream stays blocked. -/
def servedOut : List Action :=
  [.bind 0 .finished_first, .binder, .binder, .binder, .binder, .schedule 0, .schedule 1,
    .finish 0, .check .finished_first, .poller true, .leave 0, .poller true, .finish 1, .leave 1,
    .poller true, .poller true, .poller true, .poller true, .poller true]

theorem a_stream_without_a_kernel_ends_the_run :
    Along (step 2) (Clean 2) .start servedOut ∧
      (run (step 2) .start servedOut).poller = .aborted ∧ AbortsRightly 2 servedOut := by
  have hclean : Along (step 2) (Clean 2) .start servedOut := by decide
  exact ⟨hclean, by decide, a_healthy_run_is_never_aborted (by decide) hclean⟩

/-- The first instance runs while the stream is bound to the second one, and ends
while the check adds the counters: the sum counts it twice. -/
def countedTwice : List Action :=
  [.schedule 0, .bind 1 .finished_first, .binder, .binder, .binder, .binder, .finish 0,
    .check .finished_first, .poller true, .poller true, .poller true, .poller true,
    .leave 0, .poller true, .poller true, .poller true]

/-- The stream is bound to the second of two instances. The first one ends, and the
run is aborted before the second one is scheduled. -/
theorem an_instance_that_ends_aborts_the_run :
    (run (step 2) .start countedTwice).poller = .aborted ∧ ¬AbortsRightly 2 countedTwice := by
  -- The second instance, to which the stream is bound, is never scheduled.
  have hall : ∀ k ∈ List.range 17, let s := run (step 2) .start (countedTwice.take k)
      (s.bound_to = none ∨ s.bound_to = some 1) ∧ s.phase 1 = .unscheduled := by
    decide
  have habort : (run (step 2) .start countedTwice).poller = .aborted := by decide
  refine ⟨habort, fun h => ?_⟩
  obtain ⟨-, earlier, since, heq, ⟨⟨i, hi, hsched⟩, -⟩, -⟩ :=
    h (countedTwice.take 15) (.poller true) (List.prefix_refl _) (by decide) habort
  have hlen : earlier.length ≤ 15 := by
    have := congrArg List.length heq
    simp only [List.length_append, List.length_take] at this
    omega
  have htake : countedTwice.take earlier.length = earlier := by
    have := congrArg (List.take earlier.length) heq
    rwa [List.take_take, Nat.min_eq_left hlen, List.take_left] at this
  obtain ⟨hbound, hphase⟩ := hall earlier.length (List.mem_range.mpr (by omega))
  rw [htake] at hbound hphase
  rcases hbound with hnone | hone
  · rw [hnone] at hi
    cases hi
  · rw [hone, Option.some.injEq] at hi
    subst hi
    exact hsched hphase

end Tapa.Host.Service
