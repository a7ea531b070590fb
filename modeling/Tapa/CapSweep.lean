-- The sweep over utilization caps (`dse.rs`). It goes down from the highest cap, by a step
-- or to what the last placement used, and keeps each placement once.
import Tapa.Fallible
import Tapa.TaskGraph

namespace Tapa.Floorplan

open Ir Text Fallible List

def EXACT_DSE_CAP_SCALE : Nat := 1000000000

def ADAPTIVE_MARGIN : Nat := EXACT_DSE_CAP_SCALE / 100

def cap_value (units : Nat) : ℚ := units / EXACT_DSE_CAP_SCALE

structure ValidatedOptions where
  min : Nat
  max : Nat
  step : Nat

inductive RejectionKind where
  | Terminal
  | Retryable
deriving DecidableEq

inductive Attempt (T M : Type) where
  | Feasible (value : T) (regions : BTreeMap Str Str) (max_utilization : ℚ)
      (binding_logic_cap : Nat) (metadata : M)
  | Infeasible (kind : RejectionKind) (metadata : M)

structure Swept (T M : Type) where
  cap : Nat
  value : Option (T × ℚ)
  metadata : M

variable {T M E : Type}

namespace Attempt

def regions : Attempt T M → Option (BTreeMap Str Str)
  | .Feasible _ regions _ _ _ => some regions
  | .Infeasible _ _ => none

/-- What is kept of an attempt, after those that visited some assignments. -/
def swept (visited : List (BTreeMap Str Str)) (cap : Nat) : Attempt T M → List (Swept T M)
  | .Feasible value regions max_utilization _ metadata =>
    if regions ∈ visited then [] else [⟨cap, some (value, max_utilization), metadata⟩]
  | .Infeasible _ metadata => [⟨cap, none, metadata⟩]

/-- The next cap. Where the placement itself is infeasible, there is none. -/
def next_cap (options : ValidatedOptions) (cap : Nat) : Attempt T M → Option Nat
  | .Feasible _ _ _ binding_logic_cap _ =>
    some (Nat.min (cap - options.step) (binding_logic_cap - ADAPTIVE_MARGIN))
  | .Infeasible kind _ => if kind = .Terminal then none else some (cap - options.step)

end Attempt

section

variable (options : ValidatedOptions) (attempt : Nat → ℚ → Except E (Attempt T M))

/-- The loop. The planner may answer each call in its own way. -/
def sweep_from (calls cap : Nat) (visited : List (BTreeMap Str Str))
    (candidates : List (Swept T M)) : Except E (List (Swept T M)) :=
  if options.min ≤ cap then
    match attempt calls (cap_value cap) with
    | .error e => .error e
    | .ok a =>
      match a.next_cap options cap with
      | none => .ok (candidates ++ a.swept visited cap)
      | some next =>
        if next ≥ cap then .ok (candidates ++ a.swept visited cap)
        else sweep_from (calls + 1) next (visited ++ a.regions.toList)
          (candidates ++ a.swept visited cap)
  else .ok candidates
termination_by cap

def sweep_with : Except E (List (Swept T M)) := sweep_from options attempt 0 options.max [] []

/-- The assignments that some attempts made. -/
def assigned (tried : List (Nat × Attempt T M)) : List (BTreeMap Str Str) :=
  tried.filterMap fun x => x.2.regions

/-- Every attempt that is infeasible, and those that are first with their assignment. -/
def recorded (tried : List (Nat × Attempt T M)) : List (Swept T M) :=
  tried.zipIdx.flatMap fun x => x.1.2.swept (assigned (tried.take x.2)) x.1.1

/-- The attempts of a sweep, with their caps. -/
structure Tries (tried : List (Nat × Attempt T M)) : Prop where
  calls : ∀ x ∈ tried.zipIdx, attempt x.2 (cap_value x.1.1) = .ok x.1.2
  descends : (tried.map Prod.fst).Pairwise (· > ·)
  within : ∀ x ∈ tried, options.min ≤ x.1 ∧ x.1 ≤ options.max

/-- The cap of the next attempt. -/
def Next (tried : List (Nat × Attempt T M)) (cap : Nat) : Prop :=
  cap ≤ options.max ∧ ∀ x ∈ tried, cap < x.1

/-- Why a sweep ends: the placement is infeasible, or the next cap is too low or no lower. -/
def Stops (tried : List (Nat × Attempt T M)) : Prop :=
  tried = [] ∧ options.max < options.min ∨
    ∃ x ∈ tried.getLast?, ∀ next ∈ x.2.next_cap options x.1, next < options.min ∨ x.1 ≤ next

variable {options attempt} {tried : List (Nat × Attempt T M)} {cap : Nat}

theorem recorded_snoc (tried : List (Nat × Attempt T M)) (x : Nat × Attempt T M) :
    recorded (tried ++ [x]) = recorded tried ++ x.2.swept (assigned tried) x.1 := by
  unfold recorded
  rw [zipIdx_append, flatMap_append]
  congr 1
  · refine flatMap_congr fun y hy => ?_
    have hlt := (mem_zipIdx hy).2.1
    rw [take_append_of_le_length (by omega)]
  · simp

theorem Tries.snoc (h : Tries options attempt tried) (hnext : Next options tried cap)
    (hmin : options.min ≤ cap) {a : Attempt T M}
    (ha : attempt tried.length (cap_value cap) = .ok a) :
    Tries options attempt (tried ++ [(cap, a)]) := by
  refine ⟨fun x hx => ?_, ?_, forall_mem_snoc.mpr ⟨h.within, hmin, hnext.1⟩⟩
  · rcases mem_append.mp (zipIdx_append ▸ hx) with hx | hx
    · exact h.calls x hx
    · obtain rfl : x = ((cap, a), tried.length) := by simpa using hx
      exact ha
  · rw [map_append, pairwise_append]
    refine ⟨h.descends, by simp, fun c hc d hd => ?_⟩
    obtain ⟨x, hx, rfl⟩ := mem_map.mp hc
    obtain rfl : d = cap := by simpa using hd
    exact hnext.2 x hx

/-- A sweep after some attempts, at the cap that the last of them leads to. -/
theorem sweep_from_ends (h : Tries options attempt tried) (hnext : Next options tried cap)
    (hlast : tried = [] ∧ cap = options.max ∨
      ∃ x ∈ tried.getLast?, x.2.next_cap options x.1 = some cap) :
    ∃ all, Tries options attempt all ∧
      match sweep_from options attempt tried.length cap (assigned tried) (recorded tried) with
      | .ok out => out = recorded all ∧ Stops options all
      | .error e => ∃ cap, options.min ≤ cap ∧ Next options all cap ∧
          attempt all.length (cap_value cap) = .error e := by
  induction cap using Nat.strong_induction_on generalizing tried with
  | _ cap ih =>
    unfold sweep_from
    by_cases hmin : options.min ≤ cap
    · rw [if_pos hmin]
      cases ha : attempt tried.length (cap_value cap) with
      | error e => exact ⟨tried, h, cap, hmin, hnext, ha⟩
      | ok a =>
        have hsnoc := h.snoc hnext hmin ha
        have hrec := recorded_snoc tried (cap, a)
        dsimp only at hrec ⊢
        rw [← hrec]
        cases hcap : a.next_cap options cap with
        | none => exact ⟨_, hsnoc, rfl, .inr ⟨(cap, a), by simp, by simp [hcap]⟩⟩
        | some next =>
          dsimp only
          by_cases hge : next ≥ cap
          · rw [if_pos hge]
            exact ⟨_, hsnoc, rfl, .inr ⟨(cap, a), by simp, by simp [hcap, hge]⟩⟩
          rw [if_neg hge]
          have hlow : Next options (tried ++ [(cap, a)]) next := by
            exact ⟨by have := hnext.1; omega, forall_mem_snoc.mpr
              ⟨fun x hx => (not_le.mp hge).trans (hnext.2 x hx), not_le.mp hge⟩⟩
          have hrun := ih next (by omega) hsnoc hlow (.inr ⟨(cap, a), by simp, hcap⟩)
          have hassigned : assigned (tried ++ [(cap, a)]) =
              assigned tried ++ a.regions.toList := by
            cases hr : a.regions <;> simp [assigned, hr]
          rwa [hassigned, length_append] at hrun
    · rw [if_neg hmin]
      refine ⟨tried, h, rfl, ?_⟩
      rcases hlast with ⟨rfl, rfl⟩ | ⟨x, hx, hcap⟩
      · exact .inl ⟨rfl, not_le.mp hmin⟩
      · refine .inr ⟨x, hx, fun next hmem => .inl ?_⟩
        obtain rfl := Option.mem_unique hcap hmem
        exact not_le.mp hmin

end

/-- A sweep ends, whatever the planner answers. It tries caps that go down between the bounds,
gives every infeasible attempt and the first with each assignment, and stops only where it
has to. -/
theorem sweep_is_bounded_and_free_of_duplicates (options : ValidatedOptions)
    (attempt : Nat → ℚ → Except E (Attempt T M)) : ∃ tried, Tries options attempt tried ∧
      match sweep_with options attempt with
      | .ok out => out = recorded tried ∧ Stops options tried
      | .error e => ∃ cap, options.min ≤ cap ∧ Next options tried cap ∧
          attempt tried.length (cap_value cap) = .error e :=
  @sweep_from_ends T M E options attempt [] options.max ⟨by simp, by simp, by simp⟩
    ⟨le_refl _, by simp⟩ (.inl ⟨rfl, rfl⟩)

end Tapa.Floorplan
