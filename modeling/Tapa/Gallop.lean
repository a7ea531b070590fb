-- The search for the lowest rung of a ladder at which a probe succeeds. It gallops
-- upwards with strides that double, and then bisects the bracket where it lands.
-- Where success carries over to all higher rungs, it finds the lowest one.
import Mathlib

namespace Tapa.Gallop

variable {φ ε : Type}

/-- What a probe finds at a rung: something to place, or a reason against it. -/
inductive Rung (φ ε : Type) where
  | Placed (found : φ)
  | Infeasible (reason : ε)

/-! ## The search -/

/-- Bisect the half-open bracket `(infeasible, feasible]`. -/
def bisect (probe : Nat → Except ε (Rung φ ε)) (infeasible feasible : Nat) (placed : φ) :
    Except ε φ :=
  if feasible - infeasible > 1 then
    match probe (infeasible + (feasible - infeasible) / 2) with
    | .error e => .error e
    | .ok (.Placed found) =>
      bisect probe infeasible (infeasible + (feasible - infeasible) / 2) found
    | .ok (.Infeasible _) =>
      bisect probe (infeasible + (feasible - infeasible) / 2) feasible placed
  else .ok placed
termination_by feasible - infeasible
decreasing_by all_goals omega

/-- Gallop from an infeasible rung with a stride of `2 ^ k`: the bracket that is
reached, with what is placed at its upper end. -/
def gallop (probe : Nat → Except ε (Rung φ ε)) (last infeasible k : Nat) :
    Except ε (Nat × Nat × φ) :=
  match probe (min (infeasible + 2 ^ k) last) with
  | .error e => .error e
  | .ok (.Placed found) => .ok (infeasible, min (infeasible + 2 ^ k) last, found)
  | .ok (.Infeasible reason) =>
    if min (infeasible + 2 ^ k) last = last then .error reason
    else gallop probe last (min (infeasible + 2 ^ k) last) (k + 1)
termination_by last - infeasible
decreasing_by
  have := Nat.two_pow_pos k
  omega

def search (probe : Nat → Except ε (Rung φ ε)) (count : Nat) : Except ε φ := do
  match ← probe 0 with
  | .Placed found => .ok found
  | .Infeasible reason =>
    if count = 1 then .error reason
    else
      let (infeasible, feasible, placed) ← gallop probe (count - 1) 0 0
      bisect probe infeasible feasible placed

/-! ## What it finds -/

section Spec

variable {probe : Nat → Except ε (Rung φ ε)} {count : Nat}

/-- Nothing is placed at a rung. -/
def Rejects (probe : Nat → Except ε (Rung φ ε)) (i : Nat) : Prop :=
  ∃ reason, probe i = .ok (.Infeasible reason)

/-- Every probe answers, and what is placed at one rung can be placed at the
rungs above it. -/
structure Upward (probe : Nat → Except ε (Rung φ ε)) (count : Nat) : Prop where
  answers : ∀ i < count, ∃ rung, probe i = .ok rung
  rejects : ∀ i j, i ≤ j → j < count → Rejects probe j → Rejects probe i

/-- The first rung at which something is placed. -/
structure Lowest (probe : Nat → Except ε (Rung φ ε)) (i : Nat) (found : φ) : Prop where
  placed : probe i = .ok (.Placed found)
  below : ∀ j < i, Rejects probe j

theorem bisect_lowest (h : Upward probe count) {infeasible feasible : Nat} {placed : φ}
    (hlt : infeasible < feasible) (hcount : feasible < count) (hlow : Rejects probe infeasible)
    (hhigh : probe feasible = .ok (.Placed placed)) :
    ∃ i < count, ∃ found, bisect probe infeasible feasible placed = .ok found ∧
      Lowest probe i found := by
  fun_induction bisect probe infeasible feasible placed with
  | case1 infeasible feasible placed hgap e hprobe =>
    obtain ⟨rung, hrung⟩ := h.answers (infeasible + (feasible - infeasible) / 2) (by omega)
    rw [hprobe] at hrung
    cases hrung
  | case2 infeasible feasible placed hgap found hprobe ih =>
    exact ih (by omega) (by omega) hlow hprobe
  | case3 infeasible feasible placed hgap reason hprobe ih =>
    exact ih (by omega) hcount ⟨reason, hprobe⟩ hhigh
  | case4 infeasible feasible placed hgap =>
    refine ⟨feasible, hcount, placed, rfl, hhigh, fun j hj => ?_⟩
    exact h.rejects j infeasible (by omega) (by omega) hlow

theorem gallop_bracket (h : Upward probe count) {last infeasible k : Nat}
    (hlt : infeasible < last) (hlast : last < count) (hlow : Rejects probe infeasible) :
    (∃ low high found, gallop probe last infeasible k = .ok (low, high, found) ∧ low < high ∧
      high ≤ last ∧ Rejects probe low ∧ probe high = .ok (.Placed found)) ∨
    ∃ reason, gallop probe last infeasible k = .error reason ∧
      probe last = .ok (.Infeasible reason) := by
  fun_induction gallop probe last infeasible k with
  | case1 infeasible k e hprobe =>
    obtain ⟨rung, hrung⟩ := h.answers (min (infeasible + 2 ^ k) last) (by omega)
    rw [hprobe] at hrung
    cases hrung
  | case2 infeasible k found hprobe =>
    have hstride := Nat.two_pow_pos k
    exact .inl ⟨infeasible, _, found, rfl, by omega, by omega, hlow, hprobe⟩
  | case3 infeasible k reason hprobe heq =>
    rw [heq] at hprobe
    exact .inr ⟨reason, rfl, hprobe⟩
  | case4 infeasible k reason hprobe hne ih =>
    exact ih (by omega) ⟨reason, hprobe⟩

/-- The search finds the lowest rung with a placement, or fails with the reason of
the highest rung. -/
theorem search_lowest (h : Upward probe count) (hcount : 0 < count) :
    (∃ i < count, ∃ found, search probe count = .ok found ∧ Lowest probe i found) ∨
    ∃ reason, search probe count = .error reason ∧
      probe (count - 1) = .ok (.Infeasible reason) := by
  obtain ⟨rung, hbase⟩ := h.answers 0 hcount
  unfold search
  rw [hbase]
  cases rung with
  | Placed found =>
    exact .inl ⟨0, hcount, found, rfl, hbase, fun j hj => absurd hj (Nat.not_lt_zero j)⟩
  | Infeasible reason =>
    by_cases hone : count = 1
    · subst hone
      exact .inr ⟨reason, rfl, hbase⟩
    have hgallop := gallop_bracket (k := 0) h (by omega : 0 < count - 1) (by omega)
      ⟨reason, hbase⟩
    rcases hgallop with ⟨low, high, placed, hrun, hlt, hle, hlow, hhigh⟩ | ⟨reason', hrun, hlast⟩
    · obtain ⟨i, hi, found, hbisect, hfirst⟩ := bisect_lowest h hlt (by omega) hlow hhigh
      refine .inl ⟨i, hi, found, ?_, hfirst⟩
      simp only [if_neg hone, hrun]
      exact hbisect
    · refine .inr ⟨reason', ?_, hlast⟩
      simp only [if_neg hone, hrun]
      rfl

end Spec

end Tapa.Gallop
