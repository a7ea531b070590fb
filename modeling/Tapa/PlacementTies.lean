-- Ties between placements (`solver/lexicographic.rs`). An exact solver ends a pass
-- with a placement of the lowest ranking among those that are as cheap as the
-- cheapest one, up to the slack of the pin. There is one such placement where the clusters
-- choose independently of each other, and there may be several where they do not.
import Tapa.PlacementSearch

namespace Tapa.Floorplan

open Ir Text Fallible LinearProgram Gallop List

/-! ## Rankings -/

/-- The sum of the positions of the regions among the candidates. -/
def placement_rank (domains : List (List Coor)) (p : List Coor) : Nat :=
  ((List.range domains.length).map fun vi =>
    (domain_of domains vi).idxOf (region_of p vi)).sum

section Programs

variable {graph : FloorGraph} {device : Device} {domains : List (List Coor)} {areas : RegionAreas}
  {cuts : List Cut} {usage_limit : ℚ} {limits : RegionResourceLimits} {σ : PlaceVar → ℚ}
  {p : List Coor} {base : PlaceModel}

theorem eval_rank_row {n k : Nat} {vi : Nat} (hk : OneHot n (fun ci => σ (.x vi ci)) k) :
    ((((List.range n).map (PlaceVar.x vi)).zipIdx.filterMap fun (var, rank) =>
      if rank > 0 then some ((rank : ℚ), var) else none).map fun term => term.1 * σ term.2).sum =
      k := by
  rw [sum_filterMap, zipIdx_eq_map_range _ (.x vi 0), map_map, length_map,
    length_range, sum_range, ← hk.sum_mul fun ci => (ci : ℚ)]
  refine Finset.sum_congr rfl fun ci hci => ?_
  have hlt := Finset.mem_range.mp hci
  by_cases hzero : ci = 0
  · simp [hzero]
  · simp [hlt, Nat.pos_of_ne_zero hzero]

section

variable (hw : WellPosed graph domains)
include hw

/-- The ranking is a number of the placement that is selected. -/
theorem eval_rank_objective (hsel : Selects domains σ p) :
    (rank_objective (x_rows graph domains)).eval σ = placement_rank domains p := by
  simp only [rank_objective, LinExpr.eval, LinExpr.sum, zero_add, placement_rank, x_rows]
  rw [sum_flatMap, map_map, Nat.cast_list_sum, map_map, hw.length]
  congr 1
  refine map_congr_left fun vi hvi => ?_
  have hlt : vi < domains.length := hw.length ▸ mem_range.mp hvi
  obtain ⟨k, hk, hget⟩ := hsel vi hlt
  have hidx : (domain_of domains vi).idxOf (region_of p vi) = k := by
    have hnodup := hw.nodup _ (domain_of_mem hlt)
    obtain ⟨hklt, heq⟩ := List.getElem?_eq_some_iff.mp hget
    rw [← heq]
    exact hnodup.idxOf_getElem k hklt
  simp only [Function.comp_apply, hidx]
  exact eval_rank_row hk

section

variable (hbuild : build_model graph device domains areas cuts usage_limit limits = .ok base)
include hbuild

/-- A number that every solution reads off its placement has finitely many values. -/
theorem finite_values {α : Type} {value : (PlaceVar → ℚ) → α} (number : List Coor → α)
    (hnumber : ∀ σ p, Products graph domains σ → Selects domains σ p → value σ = number p) :
    {v | ∃ p ∈ domains.sections, number p = v}.Finite ∧
      ∀ σ, base.Feasible σ → value σ ∈ {v | ∃ p ∈ domains.sections, number p = v} := by
  constructor
  · exact (finite_toSet domains.sections).image number
  · intro σ hσ
    obtain ⟨hprod, p, hsel, hlegal⟩ := (feasible_build_model hw hbuild).mp hσ
    exact ⟨p, mem_sections.mpr hlegal.chosen, (hnumber σ p hprod hsel).symm⟩

/-- The program of a pass has an optimum if it has a solution. -/
theorem exists_cheapest (hσ : base.Feasible σ) : ∃ best, base.IsOptimal best := by
  obtain ⟨hfinite, hvalues⟩ := finite_values hw hbuild (placement_cost device graph)
    fun σ p hprod hsel => eval_build_model hw hbuild hsel hprod
  exact exists_isOptimal hfinite hvalues hσ

/-- So has the program with its ties to be broken. -/
theorem exists_lowest_ranked {achieved : ℚ} (hσ : (pinned_model base base.objective achieved
      (x_rows graph domains)).Feasible σ) :
    ∃ best, (pinned_model base base.objective achieved (x_rows graph domains)).IsOptimal best := by
  obtain ⟨hfinite, hvalues⟩ := finite_values hw hbuild
    (fun p => (placement_rank domains p : ℚ)) fun σ p _ hsel => eval_rank_objective hw hsel
  exact exists_isOptimal hfinite (fun σ h => hvalues σ (feasible_pinned_model.mp h).1) hσ

end

end

end Programs

theorem answersPlacement_of_exact {solver : LinearProgram.Solver PlaceVar} (h : Exact solver) :
    AnswersPlacement solver := by
  rintro graph domains base lp ⟨hw, ⟨device, areas, cuts, usage_limit, limits, hbuild⟩, hprogram⟩
  refine h.answers fun σ hσ => ?_
  rcases hprogram with rfl | ⟨achieved, rfl⟩
  · exact exists_cheapest hw hbuild hσ
  · exact exists_lowest_ranked hw hbuild hσ

/-! ## The best placements -/

/-- A placement that is as cheap as any, up to the slack of the pin. -/
structure Cheap (graph : FloorGraph) (ctx : DomainContext) (parents : Option (List Coor))
    (cuts : List Cut) (p : List Coor) : Prop where
  places : Places graph ctx parents cuts p
  cost : ∀ q, Places graph ctx parents cuts q →
    placement_cost ctx.device graph p ≤ pin_bound (placement_cost ctx.device graph q)

/-- The candidates of the clusters, in the order of their ranking. -/
def pass_domains (graph : FloorGraph) (ctx : DomainContext) (parents : Option (List Coor)) :
    List (List Coor) :=
  graph.vertices.zipIdx.map fun (vertex, vi) =>
    sorted_set (candidates ctx (parent_of parents vi) vertex)

/-- A cheap placement of the lowest ranking. -/
structure Best (graph : FloorGraph) (ctx : DomainContext) (parents : Option (List Coor))
    (cuts : List Cut) (p : List Coor) : Prop where
  cheap : Cheap graph ctx parents cuts p
  rank : ∀ q, Cheap graph ctx parents cuts q →
    placement_rank (pass_domains graph ctx parents) p ≤
      placement_rank (pass_domains graph ctx parents) q

/-- For each cluster the one of two regions that comes first among its candidates. -/
def lower_ranked (domains : List (List Coor)) (p q : List Coor) : List Coor :=
  (List.range domains.length).map fun vi =>
    if (domain_of domains vi).idxOf (region_of p vi) ≤ (domain_of domains vi).idxOf (region_of q vi)
    then region_of p vi else region_of q vi

/-- The clusters choose independently of each other: with two cheap placements, the one that
takes the lower ranked region for each cluster is cheap as well. -/
def Independent (graph : FloorGraph) (ctx : DomainContext) (parents : Option (List Coor))
    (cuts : List Cut) : Prop :=
  ∀ p q, Cheap graph ctx parents cuts p → Cheap graph ctx parents cuts q →
    Cheap graph ctx parents cuts (lower_ranked (pass_domains graph ctx parents) p q)

theorem region_of_lower_ranked {domains : List (List Coor)} {p q : List Coor} {vi : Nat}
    (hvi : vi < domains.length) : (domain_of domains vi).idxOf
      (region_of (lower_ranked domains p q) vi) = min
        ((domain_of domains vi).idxOf (region_of p vi))
        ((domain_of domains vi).idxOf (region_of q vi)) := by
  have hregion : region_of (lower_ranked domains p q) vi =
      if (domain_of domains vi).idxOf (region_of p vi) ≤
        (domain_of domains vi).idxOf (region_of q vi)
      then region_of p vi else region_of q vi := by
    simp [region_of, lower_ranked, hvi]
  rw [hregion]
  split
  · rename_i hle
    exact (min_eq_left hle).symm
  · rename_i hlt
    exact (min_eq_right (by omega)).symm

/-- A placement that ranks no higher than the lower ranked one takes its regions. -/
theorem idxOf_le_of_rank_le {domains : List (List Coor)} {p q : List Coor}
    (h : placement_rank domains p ≤ placement_rank domains (lower_ranked domains p q)) {vi : Nat}
    (hvi : vi < domains.length) : (domain_of domains vi).idxOf (region_of p vi) ≤
      (domain_of domains vi).idxOf (region_of q vi) := by
  by_contra hlt
  refine absurd h (Nat.not_le_of_lt (sum_lt_sum _ _ (fun i hi => ?_) ⟨vi, mem_range.mpr hvi, ?_⟩))
  · rw [region_of_lower_ranked (mem_range.mp hi)]
    exact min_le_left _ _
  · rw [region_of_lower_ranked hvi]
    omega

section Best

variable {graph : FloorGraph} {ctx : DomainContext} {parents : Option (List Coor)}
  {cuts : List Cut} {domains : List (List Coor)} {p : List Coor} {base : PlaceModel}
  {solver : LinearProgram.Solver PlaceVar}

theorem domains_eq_pass_domains (hcovered : Covered ctx)
    (h : candidate_domains graph ctx parents = .ok domains) :
    domains = pass_domains graph ctx parents := by
  obtain ⟨hlen, hall⟩ := (candidate_domains_eq_ok hcovered.covers).mp h
  refine ext_getElem (by simp [pass_domains, hlen]) fun vi hvi hvi' => ?_
  have heq := (hall vi _ (getElem?_eq_getElem (hlen ▸ hvi))).2
  rw [domain_of, getD_eq_getElem _ _ hvi] at heq
  rw [heq]
  simp [pass_domains]

/-- There is one best placement where the clusters choose independently. -/
theorem Best.unique (hcovered : Covered ctx) (h : Independent graph ctx parents cuts)
    {q : List Coor} (hp : Best graph ctx parents cuts p) (hq : Best graph ctx parents cuts q) :
    p = q := by
  obtain ⟨domains, hdomains⟩ := exists_domains hcovered hp.cheap.places
  have hpass := domains_eq_pass_domains hcovered hdomains
  have hchosen := ((places_iff_legal hcovered hdomains).mp hp.cheap.places).chosen
  have hchosen' := ((places_iff_legal hcovered hdomains).mp hq.cheap.places).chosen
  have hlow := hp.rank _ (h p q hp.cheap hq.cheap)
  have hlow' := hq.rank _ (h q p hq.cheap hp.cheap)
  rw [← hpass] at hlow hlow'
  refine ext_getElem (hchosen.length_eq.trans hchosen'.length_eq.symm) fun vi hvi hvi' => ?_
  have hlt : vi < domains.length := hchosen.length_eq ▸ hvi
  have hidx := le_antisymm (idxOf_le_of_rank_le hlow hlt) (idxOf_le_of_rank_le hlow' hlt)
  have hmem : region_of p vi ∈ domain_of domains vi := by
    have hget := (forall₂_iff_get.mp hchosen).2 vi hvi hlt
    simpa [region_of, domain_of, hvi, hlt] using hget
  have heq := (idxOf_inj hmem).mp hidx
  simpa [region_of, hvi, hvi'] using heq

theorem Selects.eq {σ τ : PlaceVar → ℚ} {q : List Coor} (hp : Selects domains σ p)
    (hq : Selects domains τ q) (hlen : p.length = domains.length)
    (hlen' : q.length = domains.length)
    (hvalues : ∀ vi < domains.length, ∀ ci < (domain_of domains vi).length,
      σ (.x vi ci) = τ (.x vi ci)) : p = q := by
  refine ext_getElem (hlen.trans hlen'.symm) fun vi h1 h2 => ?_
  have hvi : vi < domains.length := hlen ▸ h1
  obtain ⟨k, hk, hget⟩ := hp vi hvi
  obtain ⟨k', hk', hget'⟩ := hq vi hvi
  obtain rfl : k = k' := by
    have hone := hk.2 k hk.1
    have hone' := hk'.2 k hk.1
    beta_reduce at hone hone'
    rw [hvalues vi hvi k hk.1] at hone
    by_contra hne
    rw [hone, if_pos rfl, if_neg hne] at hone'
    exact one_ne_zero hone'
  rw [hget] at hget'
  simpa [region_of, h1, h2] using hget'

variable (hedges : EdgesInside graph) (hcovered : Covered ctx)
include hedges hcovered

section Pinned

variable (hdomains : candidate_domains graph ctx parents = .ok domains)
  (hbuild : build_model graph ctx.device domains ctx.areas cuts ctx.usage_limit ctx.limits =
    .ok base) {best σ : PlaceVar → ℚ} (hbest : base.IsOptimal best)
include hdomains hbuild hbest

/-- The solutions of the pinned program are the cheap placements, where the pin is
the least cost. -/
theorem feasible_pinned_iff :
    (pinned_model base base.objective (base.objective.eval best)
      (x_rows graph domains)).Feasible σ ↔
      Products graph domains σ ∧ ∃ p, Selects domains σ p ∧ Cheap graph ctx parents cuts p := by
  have hw := wellPosed_of_candidates hedges hcovered hdomains
  have hleast : ∀ q, Places graph ctx parents cuts q →
      base.objective.eval best ≤ placement_cost ctx.device graph q := by
    intro q hq
    have hlegal := (places_iff_legal hcovered hdomains).mp hq
    have hsel := selection_selects graph hw.nodup hlegal.chosen
    have hfeasible : base.Feasible (selection graph domains q) :=
      (feasible_build_model hw hbuild).mpr ⟨selection_products, q, hsel, hlegal⟩
    rw [← eval_build_model hw hbuild hsel selection_products]
    exact hbest.least _ hfeasible
  obtain ⟨hprod', q, hsel', hlegal'⟩ := (feasible_build_model hw hbuild).mp hbest.feasible
  have hq := (places_iff_legal hcovered hdomains).mpr hlegal'
  have hcost := eval_build_model hw hbuild hsel' hprod'
  rw [feasible_pinned_model, feasible_build_model hw hbuild]
  constructor
  · rintro ⟨⟨hprod, p, hsel, hlegal⟩, hpin⟩
    rw [eval_build_model hw hbuild hsel hprod] at hpin
    refine ⟨hprod, p, hsel, (places_iff_legal hcovered hdomains).mpr hlegal, fun r hr => ?_⟩
    exact hpin.trans (pin_bound_mono (hleast r hr))
  · rintro ⟨hprod, p, hsel, hcheap⟩
    refine ⟨⟨hprod, p, hsel, (places_iff_legal hcovered hdomains).mp hcheap.places⟩, ?_⟩
    rw [eval_build_model hw hbuild hsel hprod, hcost]
    exact hcheap.cost q hq

/-- The optima of the pinned program are the best placements. -/
theorem isOptimal_pinned_iff :
    (pinned_model base base.objective (base.objective.eval best)
      (x_rows graph domains)).IsOptimal σ ↔
      Products graph domains σ ∧ ∃ p, Selects domains σ p ∧ Best graph ctx parents cuts p := by
  have hw := wellPosed_of_candidates hedges hcovered hdomains
  have hfeasible := fun σ => feasible_pinned_iff (σ := σ) hedges hcovered hdomains hbuild hbest
  have hpass := domains_eq_pass_domains hcovered hdomains
  constructor
  · intro hopt
    obtain ⟨hprod, p, hsel, hcheap⟩ := (hfeasible σ).mp hopt.feasible
    refine ⟨hprod, p, hsel, hcheap, fun q hq => ?_⟩
    have hlegal := (places_iff_legal hcovered hdomains).mp hq.places
    have hsel' := selection_selects graph hw.nodup hlegal.chosen
    have hle := hopt.least _ ((hfeasible _).mpr ⟨selection_products, q, hsel', hq⟩)
    change (rank_objective _).eval _ ≤ (rank_objective _).eval _ at hle
    rw [eval_rank_objective hw hsel, eval_rank_objective hw hsel'] at hle
    rw [← hpass]
    exact_mod_cast hle
  · rintro ⟨hprod, p, hsel, hp⟩
    refine ⟨(hfeasible σ).mpr ⟨hprod, p, hsel, hp.cheap⟩, fun others hothers => ?_⟩
    obtain ⟨_, q, hsel', hq⟩ := (hfeasible others).mp hothers
    change (rank_objective _).eval _ ≤ (rank_objective _).eval _
    rw [eval_rank_objective hw hsel, eval_rank_objective hw hsel', hpass]
    exact_mod_cast hp.rank q hq

end Pinned

section

variable (hexact : Exact solver) {found : FeasibleRung}
  (hfinds : Finds graph ctx parents cuts solver found)
include hexact hfinds

/-- What an exact solver has found at a rung is one of its cheapest placements. -/
theorem Finds.cheapest :
    ∃ best, found.model.IsOptimal best ∧
      found.solution.objective = found.model.objective.eval best := by
  have hw := wellPosed_of_candidates hedges hcovered hfinds.domains
  obtain ⟨σ, hσ, _⟩ := hfinds.solution
  obtain ⟨_, best, hbest, hgives⟩ :=
    hexact.optimal (exists_cheapest hw hfinds.model hσ) hfinds.solved
  exact ⟨best, hbest, hgives.objective⟩

/-- The refinement of an exact solver, read back. -/
theorem finish_iteration_exact :
    ∃ best refined σ p, found.model.IsOptimal best ∧
      solver (pinned_model found.model found.model.objective (found.model.objective.eval best)
        (x_rows graph found.domains)) = .ok refined ∧
      (∀ vi < graph.vertices.length, ∀ ci < (domain_of found.domains vi).length,
        refined.values (.x vi ci) = some (σ (.x vi ci))) ∧
      Selects found.domains σ p ∧ Best graph ctx parents cuts p ∧
      finish_iteration graph found solver = .ok ⟨p, ctx.usage_limit⟩ := by
  have hw := wellPosed_of_candidates hedges hcovered hfinds.domains
  obtain ⟨best, hbest, hachieved⟩ := hfinds.cheapest hedges hcovered hexact
  obtain ⟨refined, hsolve, hoptimal, _⟩ := hexact (pinned_model found.model found.model.objective
    (found.model.objective.eval best) (x_rows graph found.domains))
  have hpinned : (pinned_model found.model found.model.objective (found.model.objective.eval best)
      (x_rows graph found.domains)).Feasible best :=
    feasible_pinned_model.mpr ⟨hbest.feasible, le_pin_bound _⟩
  obtain ⟨hstatus, σ, hσ, hgives⟩ := hoptimal (exists_lowest_ranked hw hfinds.model hpinned)
  obtain ⟨_, p, hsel, hp⟩ :=
    (isOptimal_pinned_iff hedges hcovered hfinds.domains hfinds.model hbest).mp hσ
  have hvalues : ∀ vi < graph.vertices.length, ∀ ci < (domain_of found.domains vi).length,
      refined.values (.x vi ci) = some (σ (.x vi ci)) :=
    fun vi hvi ci hci => hgives.value (has_x hfinds.model hvi hci)
  refine ⟨best, refined, σ, p, hbest, hsolve, hvalues, hsel, hp, ?_⟩
  have hfound : refined.is_found = true := by simp [LpSolution.is_found, hstatus]
  have hread := read_back_selects hw.length hp.cheap.places.length hsel hvalues
  simp only [finish_iteration, refine_lexicographic, refine, hachieved, hsolve, ok_bind,
    if_pos hfound, Except.mapError, Option.getD_some, hread, hfinds.limit]

end

/-! ## Passes of exact solvers -/

variable (config : PlacementConfig) (hlimits : ctx.limits = config.max_resource_limits)
  (hcuts : cuts = find_cuts_for_regions ctx.device ctx.regions) {ladder : List ℚ}
  (hladder : ladder = usage_ladder ctx.usage_limit config.retry_ceiling)
include hlimits hcuts hladder

/-- An exact solver ends a pass with a best placement. -/
theorem solve_iteration_best (hexact : Exact solver) {r : SolvedIteration}
    (hrun : solve_iteration graph ctx.device ctx.regions parents config ctx.usage_limit solver =
      .ok r) :
    ∃ i, IsLowestRung graph ctx parents cuts ladder i ∧
      Best graph (ctx.withLimit (ladder.getD i 0)) parents cuts r.placements := by
  rcases solve_iteration_spec parents config hedges hcovered (answersPlacement_of_exact hexact)
    hlimits hcuts hladder with ⟨i, _, _, hlowest, _, _, hfinds, heq⟩ | ⟨_, hfail, _⟩
  · obtain ⟨_, _, _, p, _, _, _, _, hbest, hfinish⟩ :=
      finish_iteration_exact hedges (hcovered.withLimit _) hexact hfinds
    rw [hrun, hfinish] at heq
    cases heq
    exact ⟨i, hlowest, hbest⟩
  · rw [hrun] at hfail
    cases hfail

/-- Every best placement is the end of a pass with some exact solver. -/
theorem exists_solver_of_best {i : Nat}
    (hlowest : IsLowestRung graph ctx parents cuts ladder i)
    (hp : Best graph (ctx.withLimit (ladder.getD i 0)) parents cuts p) :
    ∃ solver, Exact solver ∧
      solve_iteration graph ctx.device ctx.regions parents config ctx.usage_limit solver =
        .ok ⟨p, ladder.getD i 0⟩ := by
  have hcovered' := hcovered.withLimit (ladder.getD i 0)
  obtain ⟨domains, hdomains⟩ := exists_domains hcovered' hp.cheap.places
  obtain ⟨base, hbuild⟩ := exists_model hcovered' hdomains cuts
  have hw := wellPosed_of_candidates hedges hcovered' hdomains
  have hlegal := (places_iff_legal hcovered' hdomains).mp hp.cheap.places
  have hsel := selection_selects graph hw.nodup hlegal.chosen
  obtain ⟨best, hbest⟩ := exists_cheapest hw hbuild
    ((feasible_build_model hw hbuild).mpr ⟨selection_products, p, hsel, hlegal⟩)
  have hoptimal := (isOptimal_pinned_iff hedges hcovered' hdomains hbuild hbest).mpr
    ⟨selection_products, p, hsel, hp⟩
  -- The solver answers the pinned program with the selection of the placement.
  have hexact := preferring_exact hoptimal
  refine ⟨_, hexact, ?_⟩
  rcases solve_iteration_spec parents config hedges hcovered (answersPlacement_of_exact hexact)
    hlimits hcuts hladder with ⟨j, _, found, hlowest', _, _, hfinds, heq⟩ | ⟨_, _, _, hnone⟩
  · obtain rfl := hlowest.unique hlowest'
    obtain ⟨best', refined, σ, q, hbest', hrefined, hvalues, hsel', hq, hfinish⟩ :=
      finish_iteration_exact hedges hcovered' hexact hfinds
    obtain rfl := Except.ok.inj (hdomains.symm.trans hfinds.domains)
    obtain rfl := Except.ok.inj (hbuild.symm.trans hfinds.model)
    have hcost : found.model.objective.eval best' = found.model.objective.eval best :=
      le_antisymm (hbest'.least _ hbest.feasible) (hbest.least _ hbest'.feasible)
    rw [hcost, preferring_self] at hrefined
    cases hrefined
    rw [heq, hfinish]
    have hpq : p = q := by
      refine hsel.eq hsel' (hlegal.chosen.length_eq)
        (hq.cheap.places.length.trans hw.length.symm) fun vi hvi ci hci => ?_
      exact Option.some.inj (hvalues vi (hw.length ▸ hvi) ci hci)
    rw [hpq]
    rfl
  · exact absurd hlowest.placeable (hnone _ (rung_mem hlowest.lt))

end Best

/-- The pass that places clusters of six LUTs on the column at sixty percent. -/
def columnPass : DomainContext := ⟨column, columnSlots, columnAreas, 3 / 5, ∅⟩

def columnConfig : PlacementConfig := ⟨3 / 5, 3 / 5, .Flat, ∅⟩

theorem columnPass_covered : Covered columnPass := by
  refine ⟨rfl, fun region hregion => ?_⟩
  have hcases : region = .slot 0 0 ∨ region = .slot 0 1 := by
    simpa [columnPass, columnSlots] using hregion
  rcases hcases with rfl | rfl <;> exact ⟨_, rfl⟩

theorem column_ladder : usage_ladder (3 / 5) (3 / 5) = [3 / 5] := by
  rw [usage_ladder, climb, if_neg (lt_irrefl _)]

/-- Each of the two clusters takes a slot of its own. -/
theorem couple_places {p : List Coor} (h : Places couple columnPass none [columnCut] p) :
    p = [.slot 0 0, .slot 0 1] ∨ p = [.slot 0 1, .slot 0 0] := by
  obtain ⟨a, b, rfl⟩ := length_eq_two.mp h.length
  have hslots : ∀ vertex ∈ couple.vertices, candidates columnPass none vertex = columnSlots := by
    decide +kernel
  have ha := h.permitted 0 _ rfl
  have hb := h.permitted 1 _ rfl
  rw [parent_of, Option.bind_none, hslots _ (by decide)] at ha hb
  have ha' : a = .slot 0 0 ∨ a = .slot 0 1 := by simpa [columnSlots, region_of] using ha
  have hb' : b = .slot 0 0 ∨ b = .slot 0 1 := by simpa [columnSlots, region_of] using hb
  rcases ha' with rfl | rfl <;> rcases hb' with rfl | rfl
  · exact absurd h (by decide +kernel)
  · exact .inl rfl
  · exact .inr rfl
  · exact absurd h (by decide +kernel)

theorem couple_best {p : List Coor} (h : Places couple columnPass none [columnCut] p) :
    Best couple columnPass none [columnCut] p := by
  have hcost : ∀ q, Places couple columnPass none [columnCut] q →
      placement_cost column couple q = 301 := by
    intro q hq
    rcases couple_places hq with rfl | rfl <;> decide +kernel
  have hrank : ∀ q, Places couple columnPass none [columnCut] q →
      placement_rank (pass_domains couple columnPass none) q = 1 := by
    intro q hq
    rcases couple_places hq with rfl | rfl <;> decide +kernel
  refine ⟨⟨h, fun q hq => ?_⟩, fun q hq => ?_⟩
  · change placement_cost column couple p ≤ pin_bound (placement_cost column couple q)
    rw [hcost p h, hcost q hq]
    exact le_pin_bound 301
  · rw [hrank p h, hrank q hq.places]

theorem couple_lowestRung : IsLowestRung couple columnPass none [columnCut]
    (usage_ladder (3 / 5) (3 / 5)) 0 := by
  refine ⟨by decide, ?_, fun j hj => absurd hj (Nat.not_lt_zero j)⟩
  exact (placeable_iff couple_wellPosed.edges (columnPass_covered.withLimit _)).mpr
    ⟨[.slot 0 0, .slot 0 1], by decide +kernel⟩

/-- Two clusters of three LUTs, which fit into one slot, without a wire between them. -/
def twins : FloorGraph where
  vertices := [⟨['A'], ⟨3, 0, 0, 0, 0⟩, none, true⟩, ⟨['B'], ⟨3, 0, 0, 0, 0⟩, none, true⟩]
  placement_edges := []
  streams := []
  axi_nets := []
  control_nets := []
  index := ∅
  co_located := []

/-- Each of them may be in each slot. -/
theorem twins_places {p : List Coor} : Places twins columnPass none [columnCut] p ↔
    ∃ a ∈ columnSlots, ∃ b ∈ columnSlots, p = [a, b] := by
  constructor
  · intro h
    obtain ⟨a, b, rfl⟩ := length_eq_two.mp h.length
    have hslots : ∀ vertex ∈ twins.vertices, candidates columnPass none vertex = columnSlots := by
      decide +kernel
    have ha := h.permitted 0 _ rfl
    have hb := h.permitted 1 _ rfl
    rw [parent_of, Option.bind_none, hslots _ (by decide)] at ha hb
    exact ⟨a, ha, b, hb, rfl⟩
  · have hall : ∀ a ∈ columnSlots, ∀ b ∈ columnSlots,
        Places twins columnPass none [columnCut] [a, b] := by decide +kernel
    rintro ⟨a, ha, b, hb, rfl⟩
    exact hall a ha b hb

theorem twins_independent : Independent twins columnPass none [columnCut] := by
  have hcost : ∀ q, placement_cost columnPass.device twins q = 1 := by
    simp [placement_cost, twins]
  intro p q hp hq
  obtain ⟨a, ha, b, hb, rfl⟩ := twins_places.mp hp.places
  obtain ⟨c, hc, d, hd, rfl⟩ := twins_places.mp hq.places
  have hlower : ∀ a ∈ columnSlots, ∀ b ∈ columnSlots, ∀ c ∈ columnSlots, ∀ d ∈ columnSlots,
      ∃ x ∈ columnSlots, ∃ y ∈ columnSlots,
        lower_ranked (pass_domains twins columnPass none) [a, b] [c, d] = [x, y] := by
    decide +kernel
  refine ⟨twins_places.mpr (hlower a ha b hb c hc d hd), fun q _ => ?_⟩
  rw [hcost, hcost]
  exact le_pin_bound 1

end Tapa.Floorplan
