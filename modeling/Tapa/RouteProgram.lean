-- The program of the router (`route/ilp.rs`): one variable for each candidate path of
-- a net, with rows for the wires over the borders of the slots and for the registers
-- that the paths leave in the slots.
import Tapa.Routing

namespace Tapa.Floorplan

open Ir Text Fallible LinearProgram

/-! ## Rows -/

inductive RouteVar where
  | max_crossings
  | p (net candidate : Nat)
deriving DecidableEq, Repr

abbrev RouteModel : Type := LpModel RouteVar

/-- What each slot can still spend on the Body registers that a path leaves there. -/
structure RegisterBudget where
  bodies : List Cell → List Cell
  available : BTreeMap Cell Nat

/-- The variables of the candidates, net by net. -/
def path_vars (candidates : List (List (List Cell))) : List (List RouteVar) :=
  candidates.zipIdx.map fun (paths, net_index) => (List.range paths.length).map (.p net_index)

section

variable (nets : List RouteNet) (candidates : List (List (List Cell)))

/-- A term for every candidate path that has an amount. -/
def path_terms (amount : RouteNet → List Cell → Option Nat) : List (ℚ × RouteVar) :=
  (nets.zip candidates).zipIdx.flatMap fun ((net, paths), net_index) =>
    paths.zipIdx.filterMap fun (path, path_index) =>
      (amount net path).map fun (n : Nat) => ((n : ℚ), .p net_index path_index)

def positive (n : Nat) : Option Nat := if n > 0 then some n else none

/-- The flip-flops that a net spends in a slot on a path. -/
def body_registers (budget : RegisterBudget) (cell : Cell) (net : RouteNet) (path : List Cell) :
    Nat :=
  (budget.bodies path).count cell * net.width

def add_register_budget_rows (lp : RouteModel) (nets : List RouteNet)
    (candidates : List (List (List Cell))) (budget : RegisterBudget) : RouteModel :=
  budget.available.toList.foldl (fun lp (cell, available) =>
    lp.add_constraint (.sum (path_terms nets candidates fun net path =>
      positive (body_registers budget cell net path))) .Le available) lp

def rank_terms (vars : List RouteVar) (sign : ℚ) : List (ℚ × RouteVar) :=
  vars.zipIdx.filterMap fun (var, rank) => if rank > 0 then some (sign * rank, var) else none

/-- A net does not take an earlier candidate than the last net with its ends and its width. -/
def add_symmetry_row (vars : List (List RouteVar))
    (state : RouteModel × BTreeMap (Cell × Cell × Nat) Nat) (entry : RouteNet × Nat) :
    RouteModel × BTreeMap (Cell × Cell × Nat) Nat :=
  let (lp, previous) := state
  let (net, net_index) := entry
  let key := (net.src, net.dst, net.width)
  (match previous[key]? with
    | none => lp
    | some earlier => lp.add_constraint (.sum (rank_terms (vars.getD earlier []) 1 ++
        rank_terms (vars.getD net_index []) (-1))) .Le 0,
    previous.insert key net_index)

def add_symmetry_rows (lp : RouteModel) (nets : List RouteNet) (vars : List (List RouteVar)) :
    RouteModel :=
  (nets.zipIdx.foldl (add_symmetry_row vars) (lp, ∅)).1

/-- Some border has wires to balance. -/
def balances (limits : List Boundary) : Bool :=
  limits.any fun boundary => boundary.capacity.any fun capacity => capacity > 0

def crossing_wires (boundary : Boundary) (net : RouteNet) (path : List Cell) : Option Nat :=
  if path_crosses path boundary then some net.width else none

def add_boundary_rows (balanced : Bool) (lp : RouteModel) (boundary : Boundary) : RouteModel :=
  match boundary.capacity with
  | none => lp
  | some capacity =>
    let crossings := path_terms nets candidates (crossing_wires boundary)
    let lp := lp.add_constraint (.sum crossings) .Le capacity
    if balanced ∧ capacity > 0 then
      lp.add_constraint (.sum (crossings ++ [(-(capacity : ℚ), .max_crossings)])) .Le 0
    else lp

def hop_objective : LinExpr RouteVar :=
  .sum (path_terms nets candidates fun _ path => positive (path.length - 1))

def route_model (limits : List Boundary) (budget : Option RegisterBudget) : RouteModel :=
  let balanced := balances limits
  let vars := path_vars candidates
  let lp : RouteModel :=
    if balanced then LpModel.new.add_continuous .max_crossings 0 ⊤ else .new
  let lp := add_symmetry_rows (vars.foldl LpModel.add_one_of_k_row lp) nets vars
  let lp := match budget with
    | some budget => add_register_budget_rows lp nets candidates budget
    | none => lp
  (limits.foldl (add_boundary_rows nets candidates balanced) lp).set_objective
    (if balanced then .sum [(1, .max_crossings)] else hop_objective nets candidates)

/-! ## Explanations -/

/-- The entry with the largest key, the last one of these. -/
def max_by_key {α : Type} (key : α → Nat × Nat) (entries : List α) : Option α :=
  entries.foldl (fun worst entry =>
    if worst.all fun other => (compare (key other) (key entry)).isLE then some entry
    else worst) none

/-- The registers that the shortest paths would leave in a slot without the room for them. -/
def describe_register_pressure (budget : Option RegisterBudget) : Str :=
  let worst : Option (Nat × Nat × Cell) := budget.bind fun budget =>
    max_by_key (fun (demand, available, _) => (demand - available, demand))
      (budget.available.toList.filterMap fun (cell, available) =>
        let demand := ((nets.zip candidates).map fun (net, paths) =>
          body_registers budget cell net (paths.headD [])).sum
        if demand > available then some (demand, available, cell) else none)
  match worst with
  | some (demand, available, cell) =>
    "no boundary is over-subscribed, but on shortest paths slot ".toList ++ cell_debug cell ++
      " would hold ".toList ++ decimal demand ++ " pipeline registers with only ".toList ++
      decimal available ++ " flip-flops left; place the endpoints closer together, lower ".toList ++
      "--usage-limit, or choose a lighter --pp-scheme".toList
  | none =>
    "no single boundary or slot is over-subscribed on shortest paths, so the nets ".toList ++
      "cannot be spread across the available detours".toList

/-- The border that the shortest paths over-subscribe most. -/
def describe_congestion (limits : List Boundary) (budget : Option RegisterBudget) : Str :=
  let worst : Option (Nat × Nat × Boundary) :=
    max_by_key (fun (demand, capacity, _) => (demand - capacity, demand))
      (limits.filterMap fun boundary => boundary.capacity.bind fun capacity =>
        let demand := ((nets.zip candidates).map fun (net, paths) =>
          (crossing_wires boundary net (paths.headD [])).getD 0).sum
        if demand > capacity then some (demand, capacity, boundary) else none)
  match worst with
  | some (demand, capacity, boundary) =>
    "with every net on a shortest path the ".toList ++ cell_debug boundary.a ++ '-' ::
      cell_debug boundary.b ++ " boundary carries ".toList ++ decimal demand ++
      " wires against a budget of ".toList ++ decimal capacity ++
      "; place the endpoints closer together, or widen the boundary's declared wire ".toList ++
      "capacity".toList
  | none => describe_register_pressure nets candidates budget

end

/-! ## Solving -/

/-- Solve the program, break its ties and pass the values of the path variables on. -/
def solve_routes (device : Device) (budget : Option RegisterBudget)
    (solver : LinearProgram.Solver RouteVar) : Solver := fun nets candidates => do
  let limits := boundaries device
  let lp := route_model nets candidates limits budget
  let solution ← (solver lp).mapError fun _ => .Solver
  if solution.is_found then do
    let refined ← (refine lp solver lp.objective solution.objective
      (path_vars candidates)).mapError fun _ => .Solver
    .ok fun net candidate => reading ((refined.getD solution).values (.p net candidate))
  else if solution.status = .Infeasible then
    .error (.Infeasible (describe_congestion nets candidates limits budget))
  else .error .NoIncumbent

/-! ## Choices of paths -/

/-- The values select one candidate for every net, and these are the routes. -/
structure Picks (candidates : List (List (List Cell))) (σ : RouteVar → ℚ)
    (routes : List (List Cell)) : Prop where
  length : routes.length = candidates.length
  picked : ∀ i (h : i < candidates.length) (h' : i < routes.length), ∃ k,
    OneHot candidates[i].length (fun j => σ (.p i j)) k ∧ candidates[i][k]? = some routes[i]

section Rows

variable {nets : List RouteNet} {candidates : List (List (List Cell))} {σ : RouteVar → ℚ}
  {routes : List (List Cell)} {lp : RouteModel}

def amount_on (amount : RouteNet → List Cell → Option Nat) (nets : List RouteNet)
    (routes : List (List Cell)) : Nat :=
  ((nets.zip routes).map fun (net, route) => (amount net route).getD 0).sum

theorem eval_net_terms {paths : List (List Cell)} {route : List Cell} {i k : Nat}
    (hk : OneHot paths.length (fun j => σ (.p i j)) k) (hroute : paths[k]? = some route)
    (amount : List Cell → Option Nat) :
    ((paths.zipIdx.filterMap fun (path, j) =>
      (amount path).map fun (n : Nat) => ((n : ℚ), RouteVar.p i j)).map
        fun term => term.1 * σ term.2).sum = ((amount route).getD 0 : ℕ) := by
  rw [sum_filterMap, zipIdx_eq_map_range _ [], List.map_map, sum_range]
  have hterm := hk.sum_mul fun j => ((amount (paths.getD j [])).getD 0 : ℕ)
  rw [List.getD_eq_getElem?_getD, hroute, Option.getD_some] at hterm
  rw [← hterm]
  refine Finset.sum_congr rfl fun j _ => ?_
  simp only [Function.comp_apply, Option.map_map]
  cases amount (paths.getD j []) <;> simp

/-- A sum over the candidates is the sum over the routes that are picked. -/
theorem eval_path_terms (h : Picks candidates σ routes)
    (amount : RouteNet → List Cell → Option Nat) :
    (LinExpr.sum (path_terms nets candidates amount)).eval σ = amount_on amount nets routes := by
  simp only [LinExpr.eval, LinExpr.sum, zero_add, path_terms]
  rw [sum_flatMap, amount_on, Nat.cast_list_sum, List.map_map]
  congr 1
  refine List.ext_getElem (by simp [h.length]) fun i h1 h2 => ?_
  simp only [List.length_map, List.length_zipIdx, List.length_zip, lt_min_iff] at h1 h2
  obtain ⟨k, hk, hroute⟩ := h.picked i h1.2 h2.2
  simp only [List.getElem_map, List.getElem_zipIdx, List.getElem_zip, zero_add,
    Function.comp_apply]
  exact eval_net_terms hk hroute (amount nets[i])

theorem positive_getD (n : Nat) : (positive n).getD 0 = n := by
  unfold positive
  split
  · rfl
  · simp only [Option.getD_none]
    omega

/-- The registers that the routes leave in a slot. -/
def registers_on (budget : RegisterBudget) (nets : List RouteNet) (routes : List (List Cell))
    (cell : Cell) : Nat :=
  ((nets.zip routes).map fun (net, route) => body_registers budget cell net route).sum

/-- The rows of the budget hold where the registers of every slot are available. -/
theorem feasible_register_budget_rows (h : Picks candidates σ routes) (budget : RegisterBudget) :
    (add_register_budget_rows lp nets candidates budget).Feasible σ ↔
      lp.Feasible σ ∧ ∀ cell available, budget.available[cell]? = some available →
        registers_on budget nets routes cell ≤ available := by
  have hrow : ∀ (lp : RouteModel), ∀ entry ∈ budget.available.toList,
      (lp.add_constraint (.sum (path_terms nets candidates fun net path =>
        positive (body_registers budget entry.1 net path))) .Le entry.2).Feasible σ ↔
        lp.Feasible σ ∧ registers_on budget nets routes entry.1 ≤ entry.2 := by
    intro lp entry _
    rw [LpModel.feasible_add_constraint, eval_path_terms h]
    simp only [Comparison.Holds, amount_on, positive_getD, Nat.cast_le]
    rfl
  rw [add_register_budget_rows, LpModel.feasible_foldl hrow]
  simp

end Rows

end Tapa.Floorplan
