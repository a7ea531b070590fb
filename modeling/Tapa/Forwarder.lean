-- The forwarder of a hybrid cosimulation (`host/stream.h`): it moves the beats of
-- the kernel into a stream, with the end-of-transmission flag cleared, until the
-- kernel is done. It looks for beats and for the end at two different moments.
import Tapa.Interleaving

namespace Tapa.Host.Forwarding

open Interleaving

variable {T : Type}

/-! ## The forwarder and the kernel -/

structure Elem (T : Type) where
  val : T
  eot : Bool
deriving DecidableEq

/-- The element that the forwarder pushes for a beat. -/
def Elem.clear (beat : Elem T) : Elem T := { beat with eot := false }

inductive Forwarder (T : Type) where
  | check_empty
  | check_done
  | pop
  | check_full (beat : Elem T)
  | push (beat : Elem T)
  | returned
deriving DecidableEq

/-- The depth of the queue between the kernel and the forwarder. -/
def kHybridForwardDepth : Nat := 64

/-- The queue of the beats, the destination and the two parties, with the beats
that the kernel pushed and the elements that the destination received. -/
structure State (T : Type) where
  beats : List (Elem T)
  kernel_done : Bool
  forwarder : Forwarder T
  dest : List (Elem T)
  dest_done : Bool
  pushed : List (Elem T)
  received : List (Elem T)
deriving DecidableEq

def State.start : State T where
  beats := []
  kernel_done := false
  forwarder := .check_empty
  dest := []
  dest_done := false
  pushed := []
  received := []

inductive Action (T : Type) where
  | kernel_push (beat : Elem T)
  | kernel_finish
  | forward
  | read_dest
deriving DecidableEq

/-- The next check, pop or push of the forwarder. -/
def State.forward (depth : Nat) (s : State T) : State T :=
  match s.forwarder with
  | .check_empty => { s with forwarder := if s.beats = [] then .check_done else .pop }
  | .check_done =>
    if s.kernel_done then { s with dest_done := true, forwarder := .returned }
    else { s with forwarder := .check_empty }
  | .pop =>
    match s.beats with
    | [] => s
    | beat :: beats => { s with beats := beats, forwarder := .check_full beat }
  | .check_full beat =>
    if depth ≤ s.dest.length then s else { s with forwarder := .push beat }
  | .push beat =>
    { s with
      dest := s.dest ++ [beat.clear]
      received := s.received ++ [beat.clear]
      forwarder := .check_empty }
  | .returned => s

/-- The kernel pushes while it is not reported done and there is room, and someone
reads the destination. -/
def step (depth : Nat) (s : State T) : Action T → State T
  | .kernel_push beat =>
    if s.kernel_done ∨ kHybridForwardDepth ≤ s.beats.length then s
    else { s with beats := s.beats ++ [beat], pushed := s.pushed ++ [beat] }
  | .kernel_finish => { s with kernel_done := true }
  | .forward => s.forward depth
  | .read_dest => { s with dest := s.dest.tail }

/-! ## No beat is lost on the way -/

/-- The beat that the forwarder holds. -/
def Forwarder.held : Forwarder T → List (Elem T)
  | check_full beat | push beat => [beat]
  | check_empty | check_done | pop | returned => []

/-- Every beat is received, held or still in the queue, in this order. -/
structure Inv (s : State T) : Prop where
  beats : s.pushed.map Elem.clear = s.received ++ (s.forwarder.held ++ s.beats).map Elem.clear
  returned : s.forwarder = .returned → s.kernel_done = true

variable {depth : Nat} {s : State T}

theorem Inv.forward (h : Inv s) : Inv (s.forward depth) := by
  have hbeats := h.beats
  unfold State.forward
  cases hf : s.forwarder with
  | check_empty =>
    refine ⟨?_, ?_⟩
    · rw [hbeats, hf]
      simp only
      split <;> rfl
    · simp only
      split <;> intro h' <;> cases h'
  | check_done =>
    simp only
    split
    · rename_i hdone
      exact ⟨by rw [hbeats, hf]; rfl, fun _ => hdone⟩
    · exact ⟨by rw [hbeats, hf]; rfl, fun h' => by cases h'⟩
  | pop =>
    cases hq : s.beats with
    | nil => exact h
    | cons beat rest =>
      exact ⟨by rw [hbeats, hf, hq]; rfl, fun h' => by cases h'⟩
  | check_full beat =>
    simp only
    split
    · exact h
    · exact ⟨by rw [hbeats, hf]; rfl, fun h' => by cases h'⟩
  | push beat =>
    refine ⟨?_, fun h' => by cases h'⟩
    rw [hbeats, hf]
    simp [Forwarder.held]
  | returned => exact h

theorem Inv.step (h : Inv s) (a : Action T) : Inv (step depth s a) := by
  cases a with
  | kernel_push beat =>
    simp only [Forwarding.step]
    split
    · exact h
    · refine ⟨?_, h.returned⟩
      simp [h.beats]
  | kernel_finish => exact ⟨h.beats, fun _ => rfl⟩
  | forward => exact h.forward
  | read_dest => exact ⟨h.beats, h.returned⟩

theorem Inv.run (depth : Nat) (actions : List (Action T)) :
    Inv (run (Forwarding.step depth) .start actions) := by
  refine run_invariant (P := Inv) (fun _ a h => h.step a) ⟨rfl, fun h => ?_⟩ actions
  cases h

/-- Behind the end of the forwarder and of the kernel, no beat moves. -/
theorem step_returned (hf : s.forwarder = .returned) (hd : s.kernel_done = true) (a : Action T) :
    (step depth s a).forwarder = .returned ∧ (step depth s a).kernel_done = true ∧
      (step depth s a).beats = s.beats := by
  cases a with
  | kernel_push beat => simp [step, hd, hf]
  | kernel_finish => exact ⟨hf, rfl, rfl⟩
  | forward => simp [step, State.forward, hf, hd]
  | read_dest => exact ⟨hf, hd, rfl⟩

theorem run_returned (hf : s.forwarder = .returned) (hd : s.kernel_done = true)
    (actions : List (Action T)) :
    (run (step depth) s actions).forwarder = .returned ∧
      (run (step depth) s actions).beats = s.beats := by
  have hkept (s' : State T) (a : Action T)
      (h : s'.forwarder = .returned ∧ s'.kernel_done = true ∧ s'.beats = s.beats) :
      (step depth s' a).forwarder = .returned ∧ (step depth s' a).kernel_done = true ∧
        (step depth s' a).beats = s.beats := by
    obtain ⟨h1, h2, h3⟩ := step_returned h.1 h.2.1 a
    exact ⟨h1, h2, h3.trans h.2.2⟩
  have h := run_invariant (P := fun s' : State T =>
    s'.forwarder = .returned ∧ s'.kernel_done = true ∧ s'.beats = s.beats) hkept ⟨hf, hd, rfl⟩
    actions
  exact ⟨h.1, h.2.2⟩

/-! ## Forwarding every beat -/

/-- No beat comes in between the check that found the queue empty and the check that
finds the kernel done: the queue is still empty at the latter. -/
def Timely (depth : Nat) (actions : List (Action T)) : Prop :=
  ∀ before after, actions = before ++ .forward :: after →
    let s := run (step depth) .start before
    s.forwarder = .check_done → s.kernel_done = true → s.beats = []

theorem Timely.before {actions : List (Action T)} {a : Action T}
    (h : Timely depth (actions ++ [a])) : Timely depth actions := by
  intro before after heq
  refine h before (after ++ [a]) ?_
  rw [heq, List.append_assoc]
  rfl

/-- In a timely run, nothing is left in the queue when the forwarder returns. -/
theorem Timely.beats_eq_nil {actions : List (Action T)} (h : Timely depth actions)
    (hf : (run (step depth) .start actions).forwarder = .returned) :
    (run (step depth) .start actions).beats = [] := by
  induction actions using List.reverseRecOn with
  | nil => rfl
  | append_singleton actions a ih =>
    rw [run_append, run_cons, run_nil] at hf ⊢
    by_cases hret : (run (step depth) .start actions).forwarder = .returned
    · rw [(step_returned hret ((Inv.run depth actions).returned hret) a).2.2]
      exact ih h.before hret
    -- Only the check for the end leads to the return.
    have htimely := h actions []
    cases a with
    | kernel_push beat =>
      simp only [step] at hf
      split at hf <;> exact absurd hf hret
    | kernel_finish | read_dest => exact absurd hf hret
    | forward =>
      have hnil := htimely rfl
      simp only [step, State.forward] at hf ⊢
      split at hf
      · split at hf <;> cases hf
      · rename_i hcheck
        split at hf
        · rename_i hdone
          simp only [hdone, if_true]
          exact hnil hcheck hdone
        · cases hf
      · split at hf
        · exact absurd hf hret
        · cases hf
      · split at hf
        · exact absurd hf hret
        · cases hf
      · cases hf
      · exact absurd hf hret

/-- By the time the forwarder returns, the destination has received the beats of
the kernel, in their order and with the flag cleared, just when no beat came in
between its last look into the queue and its look at the kernel. -/
theorem forwarding_is_complete_iff (depth : Nat) (actions : List (Action T)) :
    let s := run (step depth) .start actions
    (s.forwarder = .returned → s.received = s.pushed.map Elem.clear) ↔ Timely depth actions := by
  intro s
  constructor
  · rintro h before after rfl s' hcheck hdone
    -- The check ends the forwarder, and what the queue has then stays in it.
    have hstep : step depth s' .forward =
        { s' with dest_done := true, forwarder := .returned } := by
      simp [step, State.forward, hcheck, hdone]
    have hret : s.forwarder = .returned ∧ s.beats = s'.beats := by
      simp only [s, run_append, run_cons]
      rw [hstep]
      exact run_returned (s := { s' with dest_done := true, forwarder := .returned }) rfl hdone
        after
    have hbeats := (Inv.run depth (before ++ .forward :: after)).beats
    rw [hret.1, ← h hret.1] at hbeats
    have hnil := List.self_eq_append_right.mp hbeats
    rw [← hret.2]
    simpa [Forwarder.held] using hnil
  · intro htimely hret
    have hbeats := (Inv.run depth actions).beats
    rw [htimely.beats_eq_nil hret, show (run (step depth) .start actions).forwarder = _ from hret]
      at hbeats
    simpa [Forwarder.held] using hbeats.symm

/-- The kernel pushes its only beat and finishes between the two looks: the beat
stays in the queue. -/
theorem a_late_beat_is_lost :
    let beat : Elem Nat := ⟨7, true⟩
    let s := run (step 4) .start [.forward, .kernel_push beat, .kernel_finish, .forward]
    s.forwarder = .returned ∧ s.pushed = [beat] ∧ s.received = [] ∧ s.beats = [beat] := by
  decide

/-- Two beats are pushed before the end of the kernel is seen. -/
def twoBeats : List (Action Nat) :=
  [.kernel_push ⟨7, true⟩, .kernel_push ⟨8, false⟩, .kernel_finish] ++ List.replicate 10 .forward

theorem two_beats_are_forwarded :
    let s := run (step 4) .start twoBeats
    s.forwarder = .returned ∧ s.received = [⟨7, false⟩, ⟨8, false⟩] ∧ Timely 4 twoBeats :=
  ⟨by decide, by decide, (forwarding_is_complete_iff 4 twoBeats).mp fun _ => by decide⟩

end Tapa.Host.Forwarding
