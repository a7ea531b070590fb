-- The symmetry rows of the router (`add_symmetry_rows` of `route/ilp.rs`): of nets with the
-- same ends and the same width, a later one takes no earlier candidate. The choices of such
-- nets can be exchanged, so that every routing is kept up to the order of its nets.
import Tapa.RouteProgram

namespace Tapa.Floorplan

open Ir Text Fallible LinearProgram List

/-! ## Sorting within groups -/

/-- The values of a family can be sorted within the groups of a key. -/
theorem exists_perm_sorted_within {n : Nat} {κ γ : Type} [LinearOrder κ] [LinearOrder γ]
    (key : Fin n → κ) (value : Fin n → γ) :
    ∃ π : Equiv.Perm (Fin n), (∀ i, key (π i) = key i) ∧
      ∀ i j, i ≤ j → key i = key j → value (π i) ≤ value (π j) := by
  -- The positions by key, and the values by key and value, run through the keys alike.
  let places := Tuple.sort key
  let pairs : Fin n → κ ×ₗ γ := fun i => toLex (key i, value i)
  let order := Tuple.sort pairs
  have hpairs : Monotone (pairs ∘ order) := Tuple.monotone_sort pairs
  have hkeys : ∀ i, key (order (places.symm i)) = key i := by
    intro i
    have hsame : key ∘ order = key ∘ places := by
      refine Tuple.unique_monotone (fun a b hab => ?_) (Tuple.monotone_sort key)
      exact Prod.Lex.monotone_fst _ _ (hpairs hab)
    simpa using congrFun hsame (places.symm i)
  refine ⟨places.symm.trans order, hkeys, fun i j hij hkey => ?_⟩
  · have hplaces : places.symm i ≤ places.symm j := by
      by_contra hlt
      have hback := (Tuple.eq_sort_iff.mp (rfl : places = Tuple.sort key)).2 _ _ (not_le.mp hlt)
        (by simpa using hkey.symm)
      simp only [places, Equiv.apply_symm_apply] at hback
      exact absurd hij (not_le.mpr hback)
    have hle := hpairs hplaces
    have hsame : key (order (places.symm i)) = key (order (places.symm j)) := by
      rw [hkeys, hkeys, hkey]
    rcases Prod.Lex.le_iff.mp hle with hlt | ⟨-, hvalue⟩
    · exact absurd hsame (ne_of_lt hlt)
    · exact hvalue

/-! ## Exchanging choices -/

/-- Nets with the same ends have the same candidates. -/
structure Shared (nets : List RouteNet) (candidates : List (List (List Cell))) : Prop where
  length : candidates.length = nets.length
  same : ∀ i j (hi : i < nets.length) (hj : j < nets.length), nets[i].src = nets[j].src →
    nets[i].dst = nets[j].dst → candidates[i]? = candidates[j]?

section

variable (nets : List RouteNet) (candidates : List (List (List Cell)))

/-- The rows of a legal routing: one candidate for each net, the registers of the slots and
the wires of the borders. -/
def legal_rows (limits : List Boundary) (budget : Option RegisterBudget) : RouteModel :=
  let lp : RouteModel := (path_vars candidates).foldl LpModel.add_one_of_k_row .new
  let lp := match budget with
    | some budget => add_register_budget_rows lp nets candidates budget
    | none => lp
  limits.foldl (add_boundary_rows nets candidates false) lp

/-- The load of a border, as a part of what it may carry. -/
def utilization (σ : RouteVar → ℚ) (boundary : Boundary) : Option ℚ :=
  boundary.capacity.bind fun capacity => if capacity > 0 then
    some ((LinExpr.sum (path_terms nets candidates (crossing_wires boundary))).eval σ / capacity)
  else none

def worst_utilization (limits : List Boundary) (σ : RouteVar → ℚ) : ℚ :=
  (limits.filterMap (utilization nets candidates σ)).foldl max 0

end

/-- The choices of the nets in another order, with the value that bounds the loads. -/
def exchanged {n : Nat} (π : Equiv.Perm (Fin n)) (σ : RouteVar → ℚ) (bound : ℚ) : RouteVar → ℚ
  | .max_crossings => bound
  | .p net candidate =>
    if h : net < n then σ (.p (π ⟨net, h⟩) candidate) else σ (.p net candidate)

section Exchange

variable {nets : List RouteNet} {candidates : List (List (List Cell))} {σ : RouteVar → ℚ}
  {limits : List Boundary} {lp : RouteModel} {bound : ℚ}

/-- The terms of one net. -/
theorem eval_path_terms_eq_sum (hlength : candidates.length = nets.length)
    (amount : RouteNet → List Cell → Option Nat) :
    (LinExpr.sum (path_terms nets candidates amount)).eval σ =
      ∑ i : Fin nets.length, ((candidates.getD i []).zipIdx.map fun (path, j) =>
        (((amount (nets.get i) path).getD 0 : ℕ) : ℚ) * σ (.p i j)).sum := by
  simp only [LinExpr.eval, LinExpr.sum, zero_add, path_terms]
  rw [sum_flatMap, ← sum_ofFn]
  congr 1
  refine ext_getElem (by simp [hlength]) fun i h1 h2 => ?_
  simp only [length_map, length_zipIdx, length_zip, lt_min_iff] at h1
  simp only [getElem_map, getElem_zipIdx, getElem_zip, zero_add,
    List.getElem_ofFn, List.get_eq_getElem]
  rw [sum_filterMap, List.getD_eq_getElem?_getD, List.getElem?_eq_getElem h1.2]
  congr 1
  refine map_congr_left fun entry _ => ?_
  cases amount nets[i] entry.1 <;> simp

theorem Shared.exchange (h : Shared nets candidates) {π : Equiv.Perm (Fin nets.length)}
    (hπ : ∀ i, nets.get (π i) = nets.get i) (i : Fin nets.length) :
    candidates[(π i : ℕ)]? = candidates[(i : ℕ)]? := by
  have halike := hπ i
  simp only [get_eq_getElem] at halike
  exact h.same _ _ (π i).isLt i.isLt (by rw [halike]) (by rw [halike])

/-- An exchange among nets that are alike leaves every sum over the candidates as it is. -/
theorem eval_exchanged (hshared : Shared nets candidates) {π : Equiv.Perm (Fin nets.length)}
    (hπ : ∀ i, nets.get (π i) = nets.get i) (amount : RouteNet → List Cell → Option Nat) :
    (LinExpr.sum (path_terms nets candidates amount)).eval (exchanged π σ bound) =
      (LinExpr.sum (path_terms nets candidates amount)).eval σ := by
  rw [eval_path_terms_eq_sum hshared.length, eval_path_terms_eq_sum hshared.length]
  refine Eq.trans (Finset.sum_congr rfl fun i _ => ?_) (Equiv.sum_comp π _)
  simp only [exchanged, i.isLt, dite_true, Fin.eta, hπ i, getD_eq_getElem?_getD,
    hshared.exchange hπ i]

theorem utilization_exchanged (hshared : Shared nets candidates)
    {π : Equiv.Perm (Fin nets.length)} (hπ : ∀ i, nets.get (π i) = nets.get i) :
    utilization nets candidates (exchanged π σ bound) = utilization nets candidates σ := by
  funext boundary
  simp only [utilization, eval_exchanged hshared hπ]

theorem feasible_path_vars :
    ((path_vars candidates).foldl LpModel.add_one_of_k_row lp).Feasible σ ↔
      lp.Feasible σ ∧ ∀ i (h : i < candidates.length),
        ∃ k, OneHot candidates[i].length (fun j => σ (.p i j)) k := by
  rw [path_vars, foldl_map]
  refine (LpModel.feasible_foldl (fun lp entry _ => LpModel.feasible_choice_row) lp).trans ?_
  rw [forall_mem_zipIdx']

/-- The row of two nets compares the positions of their candidates. -/
theorem eval_rank_terms {n net k : Nat} (hk : OneHot n (fun j => σ (.p net j)) k) (sign : ℚ) :
    ((rank_terms ((List.range n).map (.p net)) sign).map fun term => term.1 * σ term.2).sum =
      sign * k := by
  have hvars : ((List.range n).map (RouteVar.p net)).zipIdx =
      (List.range n).map fun j => (RouteVar.p net j, j) := by
    refine ext_getElem (by simp) fun j h1 h2 => ?_
    simp
  rw [rank_terms, sum_filterMap, hvars, map_map, sum_range, ← hk.sum_mul fun j => sign * j]
  refine Finset.sum_congr rfl fun j _ => ?_
  by_cases hj : j > 0
  · simp [hj]
  · obtain rfl : j = 0 := by omega
    simp

/-- The symmetry rows hold where alike nets take their candidates in order: the row of a net
looks at a net before it that is alike. -/
theorem feasible_add_symmetry_rows {choice : Nat → Nat} (hlength : candidates.length = nets.length)
    (hchoice : ∀ i (h : i < candidates.length),
      OneHot candidates[i].length (fun j => σ (.p i j)) (choice i))
    (hsorted : ∀ i j, i ≤ j → j < nets.length → nets[i]? = nets[j]? → choice i ≤ choice j)
    (hlp : lp.Feasible σ) : (add_symmetry_rows lp nets (path_vars candidates)).Feasible σ := by
  have hvars : ∀ i (h : i < candidates.length), (path_vars candidates).getD i [] =
      (List.range candidates[i].length).map (.p i) := by
    intro i h
    simp [path_vars, h]
  -- The loop over the nets from the `k`-th on.
  have hloop : ∀ (rest : List RouteNet) (k : Nat) (lp : RouteModel)
      (previous : BTreeMap (Cell × Cell × Nat) Nat), nets.drop k = rest → lp.Feasible σ →
      (∀ src dst width i, previous[(src, dst, width)]? = some i →
        i < k ∧ nets[i]? = some ⟨src, dst, width⟩) →
      ((rest.zipIdx k).foldl (add_symmetry_row (path_vars candidates)) (lp, previous)).1.Feasible
        σ := by
    intro rest
    induction rest with
    | nil => exact fun k lp previous _ hlp _ => hlp
    | cons net rest ih =>
      intro k lp previous hdrop hlp hprevious
      have hk : nets[k]? = some net := by
        rw [← head?_drop, hdrop, head?_cons]
      obtain ⟨hlt, -⟩ := List.getElem?_eq_some_iff.mp hk
      refine ih (k + 1) _ _ ?_ ?_ ?_
      · rw [← tail_drop, hdrop, tail_cons]
      · cases hearlier : previous[(net.src, net.dst, net.width)]? with
        | none => exact hlp
        | some earlier =>
          obtain ⟨hbefore, halike⟩ := hprevious _ _ _ _ hearlier
          have hle := hsorted earlier k hbefore.le hlt (halike.trans hk.symm)
          refine LpModel.feasible_add_constraint.mpr ⟨hlp, ?_⟩
          rw [hvars earlier (by omega), hvars k (by omega)]
          simp only [Comparison.Holds, LinExpr.eval, LinExpr.sum, zero_add, map_append,
            sum_append, eval_rank_terms (hchoice earlier (by omega)),
            eval_rank_terms (hchoice k (by omega))]
          have hle' : (choice earlier : ℚ) ≤ choice k := Nat.cast_le.mpr hle
          linarith
      · intro src dst width i hi
        rcases get_insert_eq_some.mp hi with ⟨⟨⟩, rfl⟩ | ⟨_, hi⟩
        · exact ⟨Nat.lt_succ_self k, hk⟩
        · obtain ⟨hi, halike⟩ := hprevious _ _ _ _ hi
          exact ⟨Nat.lt_succ_of_lt hi, halike⟩
  exact hloop nets 0 lp ∅ rfl hlp (by simp)

/-- The rows of the budget, for any values. -/
theorem feasible_add_register_budget_rows (budget : RegisterBudget) :
    (add_register_budget_rows lp nets candidates budget).Feasible σ ↔
      lp.Feasible σ ∧ ∀ entry ∈ budget.available.toList,
        (LinExpr.sum (path_terms nets candidates fun net path =>
          positive (body_registers budget entry.1 net path))).eval σ ≤ entry.2 := by
  exact LpModel.feasible_foldl (fun lp entry _ => by exact LpModel.feasible_add_constraint) lp

/-- The rows of a border: it carries what it may, and not more than its part of the bound. -/
theorem feasible_add_boundary_rows (balanced : Bool) (boundary : Boundary) :
    (add_boundary_rows nets candidates balanced lp boundary).Feasible σ ↔
      lp.Feasible σ ∧ ∀ capacity, boundary.capacity = some capacity →
        (LinExpr.sum (path_terms nets candidates (crossing_wires boundary))).eval σ ≤ capacity ∧
        (balanced = true ∧ capacity > 0 →
          (LinExpr.sum (path_terms nets candidates (crossing_wires boundary))).eval σ ≤
            capacity * σ .max_crossings) := by
  unfold add_boundary_rows
  cases hcapacity : boundary.capacity with
  | none => simp
  | some capacity =>
    simp only [Option.some.injEq, forall_eq']
    split
    · rename_i hbalanced
      rw [LpModel.feasible_add_constraint, LpModel.feasible_add_constraint, and_assoc]
      refine and_congr_right fun _ => and_congr_right fun _ => ?_
      simp only [hbalanced, and_self, forall_const, Comparison.Holds, LinExpr.eval, LinExpr.sum,
        zero_add, map_append, sum_append, map_cons, map_nil, sum_cons,
        sum_nil, add_zero]
      refine ⟨fun h => ?_, fun h => ?_⟩ <;> linarith
    · rename_i hbalanced
      rw [LpModel.feasible_add_constraint]
      refine and_congr_right fun _ => ⟨fun h => ⟨h, fun hb => absurd hb hbalanced⟩, fun h => h.1⟩

theorem feasible_legal_rows {budget : Option RegisterBudget} :
    (legal_rows nets candidates limits budget).Feasible σ ↔
      ((∀ i (h : i < candidates.length),
        ∃ k, OneHot candidates[i].length (fun j => σ (.p i j)) k) ∧
      ∀ b, budget = some b → ∀ entry ∈ b.available.toList,
        (LinExpr.sum (path_terms nets candidates fun net path =>
          positive (body_registers b entry.1 net path))).eval σ ≤ entry.2) ∧
      ∀ boundary ∈ limits, ∀ capacity, boundary.capacity = some capacity →
        (LinExpr.sum (path_terms nets candidates (crossing_wires boundary))).eval σ ≤ capacity := by
  unfold legal_rows
  rw [LpModel.feasible_foldl fun lp boundary _ => feasible_add_boundary_rows false boundary]
  simp only [Bool.false_eq_true, false_and, false_imp_iff, and_true]
  refine and_congr_left fun _ => ?_
  cases budget with
  | none => simp [feasible_path_vars]
  | some b => simp [feasible_add_register_budget_rows, feasible_path_vars]

theorem le_foldl_max (l : List ℚ) (start : ℚ) :
    start ≤ l.foldl max start ∧ ∀ x ∈ l, x ≤ l.foldl max start := by
  induction l generalizing start with
  | nil => exact ⟨le_refl _, by simp⟩
  | cons a l ih =>
    obtain ⟨hstart, hl⟩ := ih (max start a)
    refine ⟨(le_max_left start a).trans hstart, fun x hx => ?_⟩
    rcases mem_cons.mp hx with rfl | hx
    · exact (le_max_right start x).trans hstart
    · exact hl x hx

/-- The load of a border is within its part of the worst utilization. -/
theorem load_le_worst {boundary : Boundary} (hmem : boundary ∈ limits) {capacity : Nat}
    (hcapacity : boundary.capacity = some capacity) (hpos : capacity > 0) :
    (LinExpr.sum (path_terms nets candidates (crossing_wires boundary))).eval σ ≤
      capacity * worst_utilization nets candidates limits σ := by
  have hmem' : (LinExpr.sum (path_terms nets candidates (crossing_wires boundary))).eval σ /
      capacity ∈ limits.filterMap (utilization nets candidates σ) := by
    refine mem_filterMap.mpr ⟨boundary, hmem, ?_⟩
    simp [utilization, hcapacity, hpos]
  have hle := (le_foldl_max (limits.filterMap (utilization nets candidates σ)) 0).2 _ hmem'
  rw [div_le_iff₀ (Nat.cast_pos.mpr hpos), mul_comm] at hle
  exact hle

/-- The program of the router holds for a legal choice in order whose loads are bounded. -/
theorem feasible_route_model {budget : Option RegisterBudget} {choice : Nat → Nat}
    (hlength : candidates.length = nets.length)
    (hchoice : ∀ i (h : i < candidates.length),
      OneHot candidates[i].length (fun j => σ (.p i j)) (choice i))
    (hsorted : ∀ i j, i ≤ j → j < nets.length → nets[i]? = nets[j]? → choice i ≤ choice j)
    (hbound : 0 ≤ σ .max_crossings)
    (hbudget : ∀ b, budget = some b → ∀ entry ∈ b.available.toList,
      (LinExpr.sum (path_terms nets candidates fun net path =>
        positive (body_registers b entry.1 net path))).eval σ ≤ entry.2)
    (hcapacity : ∀ boundary ∈ limits, ∀ capacity, boundary.capacity = some capacity →
      (LinExpr.sum (path_terms nets candidates (crossing_wires boundary))).eval σ ≤ capacity ∧
      (capacity > 0 → (LinExpr.sum (path_terms nets candidates (crossing_wires boundary))).eval σ ≤
        capacity * σ .max_crossings)) :
    (route_model nets candidates limits budget).Feasible σ := by
  unfold route_model
  rw [LpModel.feasible_set_objective,
    LpModel.feasible_foldl (fun lp boundary _ => feasible_add_boundary_rows _ boundary)]
  refine ⟨?_, fun boundary hmem capacity hc => ?_⟩
  · have hstart : (if balances limits then
        (LpModel.new : RouteModel).add_continuous .max_crossings 0 ⊤ else .new).Feasible σ := by
      split
      · exact ⟨by simp [LpModel.add_continuous, LpModel.new, VarDef.Admits, hbound],
          by simp [LpModel.add_continuous, LpModel.new]⟩
      · exact LpModel.feasible_new
    have hrows := feasible_add_symmetry_rows hlength hchoice hsorted
      (feasible_path_vars.mpr ⟨hstart, fun i hi => ⟨choice i, hchoice i hi⟩⟩)
    cases budget with
    | none => exact hrows
    | some b => exact (feasible_add_register_budget_rows b).mpr ⟨hrows, hbudget b rfl⟩
  · obtain ⟨hload, hworst⟩ := hcapacity boundary hmem capacity hc
    exact ⟨hload, fun hbalanced => hworst hbalanced.2⟩

/-- A choice of candidates can be exchanged into one that takes them in order. -/
theorem exists_sorted_exchange (bound : ℚ) (hshared : Shared nets candidates)
    (hone : ∀ i (h : i < candidates.length),
      ∃ k, OneHot candidates[i].length (fun j => σ (.p i j)) k) :
    ∃ (π : Equiv.Perm (Fin nets.length)) (choice : Nat → Nat),
      (∀ i, nets.get (π i) = nets.get i) ∧
      (∀ i (h : i < candidates.length),
        OneHot candidates[i].length (fun j => exchanged π σ bound (.p i j)) (choice i)) ∧
      ∀ i j, i ≤ j → j < nets.length → nets[i]? = nets[j]? → choice i ≤ choice j := by
  choose choice hchoice using hone
  have hlength := hshared.length
  let key : Fin nets.length → ℕ := fun i =>
    Encodable.encode ((nets.get i).src, (nets.get i).dst, (nets.get i).width)
  obtain ⟨π, hkey, hsorted⟩ := exists_perm_sorted_within key
    fun i => choice i (hlength.symm ▸ i.isLt)
  have hπ : ∀ i, nets.get (π i) = nets.get i := by
    intro i
    have hparts := Encodable.encode_injective (hkey i)
    cases hi : nets.get i
    cases hj : nets.get (π i)
    simp_all
  refine ⟨π, fun i => if h : i < nets.length
    then choice (π ⟨i, h⟩) (hlength.symm ▸ (π ⟨i, h⟩).isLt) else 0, hπ, fun i hi => ?_,
    fun i j hij hj halike => ?_⟩
  · have hi' : i < nets.length := hlength ▸ hi
    have hcandidates := hshared.exchange hπ ⟨i, hi'⟩
    rw [getElem?_eq_getElem hi, getElem?_eq_getElem (hlength.symm ▸ (π ⟨i, hi'⟩).isLt),
      Option.some.injEq] at hcandidates
    simp only [exchanged, hi', dite_true, ← hcandidates]
    exact hchoice _ _
  · have hi : i < nets.length := by omega
    rw [getElem?_eq_getElem hi, getElem?_eq_getElem hj, Option.some.injEq] at halike
    simp only [hi, hj, dite_true]
    refine hsorted ⟨i, hi⟩ ⟨j, hj⟩ hij ?_
    simp only [key, get_eq_getElem, halike]

end Exchange

/-- The nets of one pair of ends share their candidates. -/
theorem candidates_for_shared {nets : List RouteNet} {device : Device}
    {candidates : List (List (List Cell))} (h : candidates_for nets device = .ok candidates) :
    Shared nets candidates := by
  have hpaths := mapM_eq_ok.mp h
  have hlength : candidates.length = nets.length := by
    simpa using hpaths.length_eq.symm
  have hget : ∀ i (hi : i < nets.length), candidates[i]? =
      some (enumerate_paths nets[i].src nets[i].dst device.cols device.rows MAX_DETOUR) := by
    intro i hi
    have hi' : i < candidates.length := by omega
    have hat := (List.forall₂_iff_get.mp hpaths).2 i (by simpa using hi) hi'
    simp only [get_eq_getElem, getElem_zipIdx, zero_add, net_candidates, bind_eq_ok,
      pure, Except.pure, Except.ok.injEq] at hat
    obtain ⟨_, _, _, _, hat⟩ := hat
    rw [getElem?_eq_getElem hi', hat]
  refine ⟨hlength, fun i j hi hj hsrc hdst => ?_⟩
  rw [hget i hi, hget j hj, hsrc, hdst]

/-- The symmetry rows lose no routing: a legal choice of candidates becomes one that meets all
the rows by an exchange among nets with the same ends and the same width, with the same worst
utilization and as many hops. -/
theorem symmetry_rows_lose_no_routing (nets : List RouteNet) (device : Device)
    (candidates : List (List (List Cell))) (budget : Option RegisterBudget) (σ : RouteVar → ℚ)
    (hshared : Shared nets candidates)
    (h : (legal_rows nets candidates (boundaries device) budget).Feasible σ) :
    ∃ (π : Equiv.Perm (Fin nets.length)) (σ' : RouteVar → ℚ),
      (∀ i, nets.get (π i) = nets.get i) ∧
      (∀ (i : Fin nets.length) k, σ' (.p i k) = σ (.p (π i) k)) ∧
      (route_model nets candidates (boundaries device) budget).Feasible σ' ∧
      worst_utilization nets candidates (boundaries device) σ' =
        worst_utilization nets candidates (boundaries device) σ ∧
      (hop_objective nets candidates).eval σ' = (hop_objective nets candidates).eval σ := by
  obtain ⟨⟨hone, hbudget⟩, hcapacity⟩ := feasible_legal_rows.mp h
  obtain ⟨π, choice, hπ, hchoice, hsorted⟩ := exists_sorted_exchange
    (worst_utilization nets candidates (boundaries device) σ) hshared hone
  refine ⟨π, exchanged π σ (worst_utilization nets candidates (boundaries device) σ), hπ,
    fun i k => by simp [exchanged], ?_, ?_, eval_exchanged hshared hπ _⟩
  · exact feasible_route_model hshared.length hchoice hsorted (le_foldl_max _ 0).1
      (fun b hb entry hentry => (eval_exchanged hshared hπ _).trans_le (hbudget b hb entry hentry))
      fun boundary hmem capacity hc => ⟨(eval_exchanged hshared hπ _).trans_le
        (hcapacity boundary hmem capacity hc), fun hpos => (eval_exchanged hshared hπ _).trans_le
        (load_le_worst hmem hc hpos)⟩
  · simp only [worst_utilization, utilization_exchanged hshared hπ]

/-- A grid of two rows and two columns, whose borders carry seven wires. -/
def corners : Device where
  key := ['d']
  rows := 2
  cols := 2
  planned_resources := []
  usage_ceiling := none
  slots := [⟨0, 0, 0, 0, 0, ⟨10, 10, 10, 10⟩, [], zero_fits, zero_fits⟩,
    ⟨1, 0, 0, 0, 0, ⟨10, 10, 10, 10⟩, [], one_fits, zero_fits⟩,
    ⟨0, 1, 0, 0, 0, ⟨10, 10, 10, 10⟩, [], zero_fits, one_fits⟩,
    ⟨1, 1, 0, 0, 0, ⟨10, 10, 10, 10⟩, [], one_fits, one_fits⟩]
  anchors := []

def diagonals : List RouteNet := [⟨(0, 0), (1, 1), 4⟩, ⟨(0, 0), (1, 1), 4⟩]

def diagonalPaths : List (List (List Cell)) :=
  List.replicate 2 [[(0, 0), (0, 1), (1, 1)], [(0, 0), (1, 0), (1, 1)]]

/-- Room for the registers of one net in each slot between. -/
def cornerBudget : RegisterBudget :=
  ⟨fun path => path.tail.dropLast, Std.ExtTreeMap.ofList [((0, 1), 4), ((1, 0), 4)] compare⟩

/-- The first net takes the second path and the second net the first one. -/
def crossed : RouteVar → ℚ
  | .p 0 1 => 1
  | .p 1 0 => 1
  | _ => 0

theorem crossed_feasible :
    (legal_rows diagonals diagonalPaths (boundaries corners) (some cornerBudget)).Feasible
      crossed := by
  have hbudget : ∀ entry ∈ cornerBudget.available.toList,
      (LinExpr.sum (path_terms diagonals diagonalPaths fun net path =>
        positive (body_registers cornerBudget entry.1 net path))).eval crossed ≤ entry.2 := by
    decide +kernel
  have hcapacity : ∀ boundary ∈ boundaries corners, ∀ capacity ∈ boundary.capacity,
      (LinExpr.sum (path_terms diagonals diagonalPaths (crossing_wires boundary))).eval crossed ≤
        capacity := by
    decide +kernel
  refine feasible_legal_rows.mpr ⟨⟨fun i hi => ?_, fun b hb => ?_⟩, hcapacity⟩
  · match i, hi with
    | 0, _ => exact ⟨1, show OneHot 2 (fun j => crossed (.p 0 j)) 1 from by
        unfold OneHot
        decide +kernel⟩
    | 1, _ => exact ⟨0, show OneHot 2 (fun j => crossed (.p 1 j)) 0 from by
        unfold OneHot
        decide +kernel⟩
  · cases hb
    exact hbudget

/-- Two nets that took their candidates out of order are exchanged. -/
theorem crossed_nets_are_exchanged :
    candidates_for diagonals corners = .ok diagonalPaths ∧
      ∃ (π : Equiv.Perm (Fin 2)) (σ' : RouteVar → ℚ),
        (∀ (i : Fin 2) k, σ' (.p i k) = crossed (.p (π i) k)) ∧
        (route_model diagonals diagonalPaths (boundaries corners) (some cornerBudget)).Feasible
          σ' := by
  have hcandidates : candidates_for diagonals corners = .ok diagonalPaths := by decide +kernel
  obtain ⟨π, σ', -, hσ, hfeasible, -⟩ := symmetry_rows_lose_no_routing diagonals corners
    diagonalPaths (some cornerBudget) crossed (candidates_for_shared hcandidates) crossed_feasible
  exact ⟨hcandidates, π, σ', hσ, hfeasible⟩

end Tapa.Floorplan
