-- One pass of the placement (`solve_iteration` of `partition/ilp.rs`): a ladder of
-- utilization limits is searched for the lowest one at which the clusters can be
-- placed, and the ties at that limit are broken by the ranking of the candidates.
import Tapa.Gallop
import Tapa.PlacementModel

namespace Tapa.Floorplan

open Ir Text Fallible LinearProgram Gallop List

/-! ## The ladder -/

/-- A step leaves fewer steps up to the ceiling. -/
theorem steps_lt {last ceiling : ℚ} (h : last < ceiling) :
    ⌈(ceiling - min (last + USAGE_LIMIT_STEP) ceiling) / USAGE_LIMIT_STEP⌉₊ <
      ⌈(ceiling - last) / USAGE_LIMIT_STEP⌉₊ := by
  have hstep : (0 : ℚ) < USAGE_LIMIT_STEP := by norm_num [USAGE_LIMIT_STEP]
  rcases le_total (last + USAGE_LIMIT_STEP) ceiling with hle | hle
  · have hpred : (ceiling - (last + USAGE_LIMIT_STEP)) / USAGE_LIMIT_STEP =
        (ceiling - last) / USAGE_LIMIT_STEP - 1 := by
      field_simp
      ring
    have hpos : 0 < ⌈(ceiling - last) / USAGE_LIMIT_STEP⌉₊ :=
      Nat.ceil_pos.mpr (div_pos (sub_pos.mpr h) hstep)
    rw [min_eq_left hle, hpred, Nat.ceil_sub_one]
    omega
  · rw [min_eq_right hle, sub_self, zero_div]
    exact Nat.ceil_pos.mpr (div_pos (sub_pos.mpr h) hstep)

/-- The rungs above a limit, up to the ceiling. -/
def climb (last ceiling : ℚ) : List ℚ :=
  if last < ceiling then
    min (last + USAGE_LIMIT_STEP) ceiling :: climb (min (last + USAGE_LIMIT_STEP) ceiling) ceiling
  else []
termination_by ⌈(ceiling - last) / USAGE_LIMIT_STEP⌉₊
decreasing_by exact steps_lt (by assumption)

def usage_ladder (base ceiling : ℚ) : List ℚ := base :: climb base ceiling

/-! ## A rung -/

/-- A rung at which the clusters can be placed. -/
structure FeasibleRung where
  usage_limit : ℚ
  model : PlaceModel
  domains : List (List Coor)
  solution : LpSolution PlaceVar

/-- A product of 64 bits that stays at the largest number. -/
def saturating_mul (a b : Nat) : Nat := min (a * b) (2 ^ 64 - 1)

section

variable (graph : FloorGraph)

/-- What the design asks of a resource, and what the regions have of it. -/
def demand_and_supply (areas : RegionAreas) (usage_limit : ℚ)
    (limits : RegionResourceLimits) (resource : Resource) : Nat × Nat :=
  ((graph.vertices.map fun vertex => resource.amount vertex.area).sum,
    (areas.toList.map fun (region, total) =>
      scaled_amount (resource.amount total) (limit_of limits usage_limit region resource)).sum)

/-- The resource that the design asks most of. -/
def describe_demand (device : Device) (graph : FloorGraph) (areas : RegionAreas) (usage_limit : ℚ)
    (limits : RegionResourceLimits) : Str :=
  let worst : Option (Resource × Nat × Nat) :=
    (Resource.ALL.filter device.plans_resource).foldl (fun worst resource =>
      let (demand, supply) := demand_and_supply graph areas usage_limit limits resource
      if demand > supply ∧ worst.all fun (_, worst_demand, worst_supply) =>
          saturating_mul demand worst_supply > saturating_mul worst_demand supply then
        some (resource, demand, supply)
      else worst) none
  match worst with
  | some (resource, demand, supply) =>
    "the design needs ".toList ++ decimal demand ++ ' ' :: resource.name ++ " against ".toList ++
      decimal supply ++ " available at that limit".toList
  | none =>
    "every resource fits, so the binding constraint is inter-slot wire capacity or ".toList ++
      "per-slot packing rather than the utilization limit".toList

/-- What the answer of the solver says about a rung. -/
def judge_solution (found : FeasibleRung) (infeasible : IlpError) :
    Except IlpError (Rung FeasibleRung IlpError) :=
  if found.solution.is_found then .ok (.Placed found)
  else if found.solution.status = .Infeasible then .ok (.Infeasible infeasible)
  else .error (.NoIncumbent found.solution.status)

/-- Try to place at exactly one limit. -/
def attempt_placement (device : Device) (regions : List Coor)
    (areas : RegionAreas) (parents : Option (List Coor)) (config : PlacementConfig)
    (cuts : List Cut) (usage_limit : ℚ) (solver : LinearProgram.Solver PlaceVar) :
    Except IlpError (Rung FeasibleRung IlpError) :=
  let limits := config.max_resource_limits
  match candidate_domains graph ⟨device, regions, areas, usage_limit, limits⟩ parents with
  | .error (.NoCandidates vertex) => .ok (.Infeasible (.NoCandidates vertex))
  | .error (.AnchorUnplaceable detail) => .ok (.Infeasible (.AnchorUnplaceable detail))
  | .error error => .error error
  | .ok domains => do
    let model ← build_model graph device domains areas cuts usage_limit limits
    let solution ← (solver model).mapError .Solver
    judge_solution ⟨usage_limit, model, domains, solution⟩
      (.Infeasible config.retry_ceiling
        (describe_demand device graph areas config.retry_ceiling limits))

/-! ## A pass -/

structure SolvedIteration where
  placements : List Coor
  usage_limit : ℚ

/-- The rows of the choices of all clusters. -/
def x_rows (domains : List (List Coor)) : List (List PlaceVar) :=
  (List.range graph.vertices.length).map (x_row domains)

def refine_lexicographic (rung : FeasibleRung)
    (solver : LinearProgram.Solver PlaceVar) : Except IlpError (Option (LpSolution PlaceVar)) :=
  (refine rung.model solver rung.model.objective rung.solution.objective
    (x_rows graph rung.domains)).mapError .Solver

/-- Break the ties at the rung of the search and read the placement back. -/
def finish_iteration (rung : FeasibleRung)
    (solver : LinearProgram.Solver PlaceVar) : Except IlpError SolvedIteration := do
  let refined ← refine_lexicographic graph rung solver
  let placements ← read_back graph rung.domains (refined.getD rung.solution)
  .ok ⟨placements, rung.usage_limit⟩

def solve_iteration (device : Device) (regions : List Coor)
    (parents : Option (List Coor)) (config : PlacementConfig) (base_usage_limit : ℚ)
    (solver : LinearProgram.Solver PlaceVar) : Except IlpError SolvedIteration := do
  let cuts := find_cuts_for_regions device regions
  let areas ← region_areas device regions
  let ladder := usage_ladder base_usage_limit config.retry_ceiling
  let placed ← search (fun rung => attempt_placement graph device regions areas parents config cuts
    (ladder.getD rung 0) solver) ladder.length
  finish_iteration graph placed solver

end

/-! ## The rungs -/

theorem le_of_mem_climb {last ceiling limit : ℚ} (h : limit ∈ climb last ceiling) :
    last ≤ limit := by
  fun_induction climb last ceiling with
  | case1 last hlt ih =>
    have hnext : last ≤ min (last + USAGE_LIMIT_STEP) ceiling :=
      le_min (by norm_num [USAGE_LIMIT_STEP]) hlt.le
    rcases mem_cons.mp h with rfl | h
    · exact hnext
    · exact hnext.trans (ih h)
  | case2 last hge => cases h

theorem climb_sorted (last ceiling : ℚ) : (climb last ceiling).Pairwise (· ≤ ·) := by
  fun_induction climb last ceiling with
  | case1 last hlt ih => exact pairwise_cons.mpr ⟨fun _ => le_of_mem_climb, ih⟩
  | case2 last hge => exact List.Pairwise.nil

theorem usage_ladder_sorted (base ceiling : ℚ) : (usage_ladder base ceiling).Pairwise (· ≤ ·) :=
  pairwise_cons.mpr ⟨fun _ => le_of_mem_climb, climb_sorted base ceiling⟩

/-- The last rung is the ceiling, unless the base is above it. -/
theorem usage_ladder_getLast (base ceiling : ℚ) :
    (usage_ladder base ceiling).getLast? = some (max base ceiling) := by
  unfold usage_ladder
  fun_induction climb base ceiling with
  | case1 last hlt ih =>
    rw [getLast?_cons_cons, ih, max_eq_right (min_le_right _ _), max_eq_right hlt.le]
  | case2 last hge => rw [getLast?_singleton, max_eq_left (not_lt.mp hge)]

/-! ## Candidates -/

/-- The area of a cluster is within what a region has at the limit. -/
def fits (ctx : DomainContext) (vertex : Vertex) (region : Coor) : Bool :=
  ctx.areas[region]?.any fun total =>
    area_fits_on_device ctx.device vertex.area (ctx.available total region)

def candidates (ctx : DomainContext) (parent : Option Coor) (vertex : Vertex) : List Coor :=
  ctx.regions.filter fun region => admits ctx.device parent vertex region && fits ctx vertex region

def parent_of (parents : Option (List Coor)) (vi : Nat) : Option Coor :=
  parents.bind fun assignments => assignments[vi]?

section Candidates

variable {graph : FloorGraph} {ctx : DomainContext} {parents : Option (List Coor)}
  {parent : Option Coor} {vertex : Vertex}

theorem mem_candidates {region : Coor} : region ∈ candidates ctx parent vertex ↔
    region ∈ ctx.regions ∧ admits ctx.device parent vertex region = true ∧
      fits ctx vertex region = true := by
  rw [candidates, mem_filter, Bool.and_eq_true]

theorem consider_region_eq {region : Coor} (hregion : ∃ total, ctx.areas[region]? = some total)
    (found : List Coor) : consider_region ctx parent vertex found region =
      .ok (found ++ [region].filter fun region =>
        admits ctx.device parent vertex region && fits ctx vertex region) := by
  obtain ⟨total, htotal⟩ := hregion
  unfold consider_region
  by_cases hadmits : admits ctx.device parent vertex region = true
  · by_cases hfits : area_fits_on_device ctx.device vertex.area (ctx.available total region) = true
    · simp [hadmits, htotal, fits, hfits, ok_or, bind, Except.bind]
    · simp [hadmits, htotal, fits, hfits, ok_or, bind, Except.bind]
  · simp [hadmits]

theorem consider_regions_eq
    (hcovers : ∀ region ∈ ctx.regions, ∃ total, ctx.areas[region]? = some total) :
    ctx.regions.foldlM (consider_region ctx parent vertex) [] =
      .ok (candidates ctx parent vertex) := by
  have hloop : ∀ (regions found : List Coor),
      (∀ region ∈ regions, ∃ total, ctx.areas[region]? = some total) →
      regions.foldlM (consider_region ctx parent vertex) found =
        .ok (found ++ regions.filter fun region =>
          admits ctx.device parent vertex region && fits ctx vertex region) := by
    intro regions
    induction regions with
    | nil =>
      intro found _
      simp only [filter_nil, append_nil]
      rfl
    | cons region regions ih =>
      intro found hall
      refine foldlM_cons_eq_ok.mpr ⟨_, consider_region_eq (hall region (by simp)) found, ?_⟩
      rw [ih _ fun r hr => hall r (mem_cons_of_mem region hr), append_assoc,
        ← filter_append, singleton_append]
  exact hloop ctx.regions [] hcovers

theorem sorted_set_eq_nil {regions : List Coor} : sorted_set regions = [] ↔ regions = [] := by
  simp only [eq_nil_iff_forall_not_mem, mem_sorted_set]

section

variable (hcovers : ∀ region ∈ ctx.regions, ∃ total, ctx.areas[region]? = some total)
include hcovers

theorem vertex_domain_eq_ok {domain : List Coor} : vertex_domain ctx parent vertex = .ok domain ↔
      candidates ctx parent vertex ≠ [] ∧ domain = sorted_set (candidates ctx parent vertex) := by
  simp only [vertex_domain, consider_regions_eq hcovers, bind_eq_ok, ensure_eq_ok,
    Except.ok.injEq, ne_eq, sorted_set_eq_nil]
  constructor
  · rintro ⟨_, rfl, _, hne, heq⟩
    exact ⟨hne, heq.symm⟩
  · rintro ⟨hne, rfl⟩
    exact ⟨_, rfl, (), hne, rfl⟩

theorem vertex_domain_eq_error {e : IlpError} (h : vertex_domain ctx parent vertex = .error e) :
    candidates ctx parent vertex = [] ∧ e = no_candidates_error ctx parent vertex := by
  simp only [vertex_domain, consider_regions_eq hcovers, bind_eq_error, ensure_eq_error] at h
  rcases h with h | ⟨_, heq, ⟨hnil, rfl⟩ | ⟨_, _, h⟩⟩
  · cases h
  · cases heq
    exact ⟨sorted_set_eq_nil.mp (not_not.mp hnil), rfl⟩
  · cases h

/-- The domains of a pass are the candidates of the clusters, of which each has some. -/
theorem candidate_domains_eq_ok
    {domains : List (List Coor)} : candidate_domains graph ctx parents = .ok domains ↔
      domains.length = graph.vertices.length ∧
      ∀ (vi : Nat) (vertex : Vertex), graph.vertices[vi]? = some vertex →
        candidates ctx (parent_of parents vi) vertex ≠ [] ∧
        domain_of domains vi = sorted_set (candidates ctx (parent_of parents vi) vertex) := by
  rw [candidate_domains, mapM_eq_ok, List.forall₂_iff_get]
  constructor
  · rintro ⟨hlen, h⟩
    rw [length_zipIdx] at hlen
    refine ⟨hlen.symm, fun vi vertex hvertex => ?_⟩
    obtain ⟨hvi, rfl⟩ := List.getElem?_eq_some_iff.mp hvertex
    have hd := h vi (by simpa using hvi) (hlen ▸ hvi)
    simp only [get_eq_getElem, getElem_zipIdx, zero_add] at hd
    obtain ⟨hne, heq⟩ := (vertex_domain_eq_ok hcovers).mp hd
    refine ⟨hne, ?_⟩
    rw [domain_of, getD_eq_getElem _ _ (hlen ▸ hvi)]
    exact heq
  · rintro ⟨hlen, h⟩
    refine ⟨by rw [length_zipIdx, hlen], fun vi hvi hdi => ?_⟩
    simp only [get_eq_getElem, getElem_zipIdx, zero_add]
    rw [length_zipIdx] at hvi
    obtain ⟨hne, heq⟩ := h vi _ (getElem?_eq_getElem hvi)
    refine (vertex_domain_eq_ok hcovers).mpr ⟨hne, ?_⟩
    rw [domain_of, getD_eq_getElem _ _ hdi] at heq
    exact heq

theorem candidate_domains_eq_error
    {e : IlpError} (h : candidate_domains graph ctx parents = .error e) :
    ∃ (vi : Nat) (vertex : Vertex), graph.vertices[vi]? = some vertex ∧
      candidates ctx (parent_of parents vi) vertex = [] ∧
      e = no_candidates_error ctx (parent_of parents vi) vertex := by
  obtain ⟨⟨vertex, vi⟩, hmem, herr⟩ := exists_of_mapM_eq_error h
  obtain ⟨hnil, rfl⟩ := vertex_domain_eq_error hcovers herr
  exact ⟨vi, vertex, mem_zipIdx_iff_getElem?.mp hmem, hnil, rfl⟩

end

theorem sorted_set_nodup (regions : List Coor) : (sorted_set regions).Nodup := nodup_dedup _

end Candidates

/-! ## Placements of a pass -/

/-- The areas of the regions of a device. -/
theorem region_areas_eq_some {device : Device} {regions : List Coor} {areas : RegionAreas}
    (h : region_areas device regions = .ok areas) {region : Coor} {total : Area} :
    areas[region]? = some total ↔ region ∈ regions ∧ device.island_area region = some total := by
  refine foldlM_invariant (P := fun done (areas : RegionAreas) =>
    areas[region]? = some total ↔ region ∈ done ∧ device.island_area region = some total) h
    (by simp) ?_
  intro done r areas areas' _ ih hstep
  simp only [bind_eq_ok, ok_or_eq_ok] at hstep
  obtain ⟨area, harea, hstep⟩ := hstep
  cases hstep
  rw [get_insert]
  by_cases hr : r = region
  · subst hr
    simp [harea]
  · simp [hr, ih, Ne.symm hr]

theorem region_areas_covers {device : Device} {regions : List Coor} {areas : RegionAreas}
    (h : region_areas device regions = .ok areas) :
    ∀ region ∈ regions, ∃ total, areas[region]? = some total := by
  refine foldlM_invariant (P := fun done (areas : RegionAreas) =>
    ∀ region ∈ done, ∃ total, areas[region]? = some total) h (by simp) ?_
  intro done r areas areas' _ ih hstep region hregion
  simp only [bind_eq_ok, ok_or_eq_ok] at hstep
  obtain ⟨area, _, hstep⟩ := hstep
  cases hstep
  rw [get_insert]
  split
  · exact ⟨area, rfl⟩
  · rename_i hne
    exact ih region ((mem_snoc.mp hregion).resolve_right (Ne.symm hne))

/-- The edges of a graph are between its clusters. -/
def EdgesInside (graph : FloorGraph) : Prop :=
  ∀ edge ∈ graph.placement_edges,
    edge.src < graph.vertices.length ∧ edge.dst < graph.vertices.length

/-- A placement that a pass may end with: regions that the clusters may take,
within the resources and the cuts. -/
structure Places (graph : FloorGraph) (ctx : DomainContext) (parents : Option (List Coor))
    (cuts : List Cut) (p : List Coor) : Prop where
  length : p.length = graph.vertices.length
  permitted : ∀ (vi : Nat) (vertex : Vertex), graph.vertices[vi]? = some vertex →
    region_of p vi ∈ candidates ctx (parent_of parents vi) vertex
  resources : WithinResources graph ctx.device ctx.areas ctx.usage_limit ctx.limits p
  cuts : WithinCuts graph cuts p

theorem places_iff {graph : FloorGraph} {ctx : DomainContext} {parents : Option (List Coor)}
    {cuts : List Cut} {p : List Coor} : Places graph ctx parents cuts p ↔
      p.length = graph.vertices.length ∧
      (∀ entry ∈ graph.vertices.zipIdx,
        region_of p entry.2 ∈ candidates ctx (parent_of parents entry.2) entry.1) ∧
      WithinResources graph ctx.device ctx.areas ctx.usage_limit ctx.limits p ∧
      WithinCuts graph cuts p := by
  constructor
  · intro h
    exact ⟨h.length, fun entry hentry =>
      h.permitted entry.2 entry.1 (mem_zipIdx_iff_getElem?.mp hentry), h.resources, h.cuts⟩
  · rintro ⟨hlen, hpermitted, hresources, hcuts⟩
    exact ⟨hlen, fun vi vertex hvertex =>
      hpermitted (vertex, vi) (mem_zipIdx_iff_getElem?.mpr hvertex), hresources, hcuts⟩

instance {graph : FloorGraph} {ctx : DomainContext} {parents : Option (List Coor)}
    {cuts : List Cut} {p : List Coor} : Decidable (Places graph ctx parents cuts p) :=
  decidable_of_iff' _ places_iff

/-- The program of a pass can be built and has a solution. -/
def Placeable (graph : FloorGraph) (ctx : DomainContext) (parents : Option (List Coor))
    (cuts : List Cut) : Prop :=
  ∃ domains lp σ, candidate_domains graph ctx parents = .ok domains ∧
    build_model graph ctx.device domains ctx.areas cuts ctx.usage_limit ctx.limits = .ok lp ∧
    lp.Feasible σ

/-- The regions of a pass are regions of the device, with their areas. -/
structure Covered (ctx : DomainContext) : Prop where
  areas : region_areas ctx.device ctx.regions = .ok ctx.areas
  centroids : ∀ region ∈ ctx.regions, ∃ c, centroid_quarters ctx.device region = .ok c

/-- The values of a placement: its choices and their products. -/
def selection (graph : FloorGraph) (domains : List (List Coor)) (p : List Coor) : PlaceVar → ℚ
  | .x vi ci => if (domain_of domains vi)[ci]? = some (region_of p vi) then 1 else 0
  | .y ei a b =>
    match graph.placement_edges[ei]? with
    | some edge =>
      (if (domain_of domains edge.src)[a]? = some (region_of p edge.src) then 1 else 0) *
        (if (domain_of domains edge.dst)[b]? = some (region_of p edge.dst) then 1 else 0)
    | none => 0

section Pass

variable {graph : FloorGraph} {ctx : DomainContext} {parents : Option (List Coor)}
  {cuts : List Cut} {domains : List (List Coor)} {p : List Coor} {lp : PlaceModel}

theorem Covered.covers (h : Covered ctx) :
    ∀ region ∈ ctx.regions, ∃ total, ctx.areas[region]? = some total :=
  region_areas_covers h.areas

theorem selection_selects (graph : FloorGraph) (hnodup : ∀ domain ∈ domains, domain.Nodup)
    (hchosen : List.Forall₂ (fun region domain => region ∈ domain) p domains) :
    Selects domains (selection graph domains p) p := by
  intro vi hvi
  obtain ⟨k, hk, hget⟩ := mem_iff_getElem.mp (region_of_mem hchosen hvi)
  have hsome : (domain_of domains vi)[k]? = some (region_of p vi) := by
    rw [getElem?_eq_getElem hk, hget]
  refine ⟨k, ⟨hk, fun i hi => ?_⟩, hsome⟩
  have hiff : (domain_of domains vi)[i]? = some (region_of p vi) ↔ i = k := by
    rw [← hsome]
    exact getElem?_inj hi (hnodup _ (domain_of_mem hvi))
  simp only [selection, hiff]

theorem selection_products : Products graph domains (selection graph domains p) := by
  intro edge ei hmem a _ b _
  have hget := mem_zipIdx_iff_getElem?.mp hmem
  simp only [selection, hget]

section

variable (hedges : EdgesInside graph) (hcovered : Covered ctx)
  (hdomains : candidate_domains graph ctx parents = .ok domains)
include hcovered hdomains

include hedges in
/-- The domains of a pass fit the graph. -/
theorem wellPosed_of_candidates : WellPosed graph domains := by
  obtain ⟨hlen, hall⟩ := (candidate_domains_eq_ok hcovered.covers).mp hdomains
  refine ⟨hlen, fun domain hdomain => ?_, hedges⟩
  obtain ⟨vi, hvi, rfl⟩ := mem_iff_getElem.mp hdomain
  have heq := (hall vi _ (getElem?_eq_getElem (hlen ▸ hvi))).2
  rw [domain_of, getD_eq_getElem _ _ hvi] at heq
  rw [heq]
  exact sorted_set_nodup _

theorem mem_regions_of_mem_domains {region : Coor} (hregion : region ∈ domains.flatten) :
    region ∈ ctx.regions := by
  obtain ⟨hlen, hall⟩ := (candidate_domains_eq_ok hcovered.covers).mp hdomains
  obtain ⟨domain, hdomain, hmem⟩ := mem_flatten.mp hregion
  obtain ⟨vi, hvi, rfl⟩ := mem_iff_getElem.mp hdomain
  have heq := (hall vi _ (getElem?_eq_getElem (hlen ▸ hvi))).2
  rw [domain_of, getD_eq_getElem _ _ hvi] at heq
  rw [heq, mem_sorted_set] at hmem
  exact (mem_filter.mp hmem).1

theorem exists_model (cuts : List Cut) : ∃ lp,
    build_model graph ctx.device domains ctx.areas cuts ctx.usage_limit ctx.limits = .ok lp :=
  build_model_ok
    (fun region h => hcovered.covers region (mem_regions_of_mem_domains hcovered hdomains h))
    (fun region h => hcovered.centroids region (mem_regions_of_mem_domains hcovered hdomains h))

/-- The placements of a pass are the legal placements into its domains. -/
theorem places_iff_legal :
    Places graph ctx parents cuts p ↔
      Legal graph ctx.device domains ctx.areas cuts ctx.usage_limit ctx.limits p := by
  obtain ⟨hlen, hall⟩ := (candidate_domains_eq_ok hcovered.covers).mp hdomains
  constructor
  · intro h
    refine ⟨List.forall₂_iff_get.mpr ⟨h.length.trans hlen.symm, fun vi hp hd => ?_⟩, h.resources,
      h.cuts⟩
    obtain ⟨_, heq⟩ := hall vi _ (getElem?_eq_getElem (hlen ▸ hd))
    have hmem := mem_sorted_set.mpr (h.permitted vi _ (getElem?_eq_getElem (hlen ▸ hd)))
    rw [← heq] at hmem
    simpa [region_of, domain_of, hp, hd] using hmem
  · intro h
    refine ⟨h.chosen.length_eq.trans hlen, fun vi vertex hvertex => ?_, h.resources, h.cuts⟩
    have hvi := (List.getElem?_eq_some_iff.mp hvertex).1
    have hmem := region_of_mem h.chosen (hlen ▸ hvi)
    rw [(hall vi vertex hvertex).2] at hmem
    exact mem_sorted_set.mp hmem

end

theorem exists_domains (hcovered : Covered ctx) (h : Places graph ctx parents cuts p) :
    ∃ domains, candidate_domains graph ctx parents = .ok domains := by
  refine ⟨graph.vertices.zipIdx.map fun entry =>
    sorted_set (candidates ctx (parent_of parents entry.2) entry.1),
    (candidate_domains_eq_ok hcovered.covers).mpr ⟨by simp, fun vi vertex hvertex => ?_⟩⟩
  refine ⟨ne_nil_of_mem (h.permitted vi vertex hvertex), ?_⟩
  simp [domain_of, hvertex]

/-- A pass has a program with a solution where there is a placement for it. -/
theorem placeable_iff (hedges : EdgesInside graph) (hcovered : Covered ctx) :
    Placeable graph ctx parents cuts ↔ ∃ p, Places graph ctx parents cuts p := by
  constructor
  · rintro ⟨domains, lp, σ, hdomains, hbuild, hfeasible⟩
    have hwell := wellPosed_of_candidates hedges hcovered hdomains
    obtain ⟨_, p, _, hlegal⟩ := (feasible_build_model hwell hbuild).mp hfeasible
    exact ⟨p, (places_iff_legal hcovered hdomains).mpr hlegal⟩
  · rintro ⟨p, hp⟩
    obtain ⟨domains, hdomains⟩ := exists_domains hcovered hp
    obtain ⟨lp, hbuild⟩ := exists_model hcovered hdomains cuts
    have hwell := wellPosed_of_candidates hedges hcovered hdomains
    have hlegal := (places_iff_legal hcovered hdomains).mp hp
    refine ⟨domains, lp, selection graph domains p, hdomains, hbuild, ?_⟩
    exact (feasible_build_model hwell hbuild).mpr
      ⟨selection_products, p, selection_selects graph hwell.nodup hlegal.chosen, hlegal⟩

/-! ## More room -/

variable {limit : ℚ}

theorem scaled_amount_mono {amount : Nat} {limit' : ℚ} (h : limit ≤ limit') :
    scaled_amount amount limit ≤ scaled_amount amount limit' := by
  unfold scaled_amount
  gcongr

theorem limit_of_mono {limits : RegionResourceLimits} {limit' : ℚ} (h : limit ≤ limit')
    (region : Coor) (resource : Resource) :
    limit_of limits limit region resource ≤ limit_of limits limit' region resource := by
  unfold limit_of
  cases lookup_limit limits region resource with
  | none => exact h
  | some override => exact le_refl override

theorem amount_area_from_amounts (amount : Resource → Nat) (resource : Resource) :
    resource.amount (area_from_amounts amount) = amount resource := by
  cases resource <;> rfl

theorem area_fits_with_iff {required available : Area} {planned : Resource → Bool} :
    area_fits_with required available planned = true ↔ ∀ resource, planned resource = true →
      resource.amount required ≤ resource.amount available := by
  simp only [area_fits_with, all_eq_true, mem_filter, decide_eq_true_eq, and_imp]
  exact ⟨fun h resource hplan => h resource resource.mem_ALL hplan,
    fun h resource _ hplan => h resource hplan⟩

/-- A cluster fits into a region where every planned resource is enough for it. -/
theorem fits_iff (ctx : DomainContext) {vertex : Vertex} {region : Coor} {total : Area}
    (htotal : ctx.areas[region]? = some total) : fits ctx vertex region = true ↔
      ∀ resource, ctx.device.plans_resource resource = true → resource.amount vertex.area ≤
        scaled_amount (resource.amount total)
          (limit_of ctx.limits ctx.usage_limit region resource) := by
  rw [fits, htotal, Option.any_some, area_fits_on_device, area_fits_with_iff]
  simp only [DomainContext.available, scaled_area_with_overrides, amount_area_from_amounts]

def DomainContext.withLimit (ctx : DomainContext) (usage_limit : ℚ) : DomainContext :=
  { ctx with usage_limit }

/-- A placement at a limit is one at every higher limit. -/
theorem Places.mono (hcovered : Covered ctx) (h : Places graph ctx parents cuts p) {limit : ℚ}
    (hlimit : ctx.usage_limit ≤ limit) : Places graph (ctx.withLimit limit) parents cuts p := by
  refine ⟨h.length, fun vi vertex hvertex => ?_, ?_, h.cuts⟩
  · obtain ⟨hregion, hadmits, hfits⟩ := mem_candidates.mp (h.permitted vi vertex hvertex)
    obtain ⟨total, htotal⟩ := hcovered.covers _ hregion
    refine mem_candidates.mpr ⟨hregion, hadmits, ?_⟩
    refine (fits_iff (ctx.withLimit limit) htotal).mpr fun resource hplan => ?_
    exact ((fits_iff ctx htotal).mp hfits resource hplan).trans
      (scaled_amount_mono (limit_of_mono hlimit _ resource))
  · intro region total htotal resource hplan
    exact (h.resources region total htotal resource hplan).trans
      (scaled_amount_mono (limit_of_mono hlimit region resource))

/-! ## Answers -/

/-- A program that a pass gives to the solver, with its ties to be broken or not. -/
structure IsPlacementProgram (graph : FloorGraph) (domains : List (List Coor))
    (base lp : PlaceModel) : Prop where
  posed : WellPosed graph domains
  built : ∃ device areas cuts usage_limit limits,
    build_model graph device domains areas cuts usage_limit limits = .ok base
  program : lp = base ∨
    ∃ achieved, lp = pinned_model base base.objective achieved (x_rows graph domains)

/-- The solver answers the programs of all passes. -/
def AnswersPlacement (solver : LinearProgram.Solver PlaceVar) : Prop :=
  ∀ graph domains base lp, IsPlacementProgram graph domains base lp → Answers solver lp

/-- A rung at which the program of a pass has a solution, which the solver has found. -/
structure Finds (graph : FloorGraph) (ctx : DomainContext) (parents : Option (List Coor))
    (cuts : List Cut) (solver : LinearProgram.Solver PlaceVar) (found : FeasibleRung) : Prop where
  limit : found.usage_limit = ctx.usage_limit
  domains : candidate_domains graph ctx parents = .ok found.domains
  model : build_model graph ctx.device found.domains ctx.areas cuts ctx.usage_limit ctx.limits =
    .ok found.model
  solved : solver found.model = .ok found.solution
  solution : ∃ σ, found.model.Feasible σ ∧ found.solution.Gives found.model σ

/-- Why nothing is placed at a rung: the program has no solution, or a cluster has
no candidates. -/
def IsReason (graph : FloorGraph) (ctx : DomainContext) (parents : Option (List Coor))
    (reason : IlpError) : Prop :=
  (∃ limit demand, reason = .Infeasible limit demand) ∨
    ∃ (vi : Nat) (vertex : Vertex), graph.vertices[vi]? = some vertex ∧
      candidates ctx (parent_of parents vi) vertex = [] ∧
      reason = no_candidates_error ctx (parent_of parents vi) vertex

theorem no_candidates_error_cases (ctx : DomainContext) (parent : Option Coor) (vertex : Vertex) :
    (∃ name, no_candidates_error ctx parent vertex = .NoCandidates name) ∨
      ∃ detail, no_candidates_error ctx parent vertex = .AnchorUnplaceable detail := by
  unfold no_candidates_error
  split
  · right
    unfold anchor_unplaceable_error
    simp only
    split
    · exact ⟨_, rfl⟩
    · split
      · exact ⟨_, rfl⟩
      · exact ⟨_, rfl⟩
  · exact .inl ⟨_, rfl⟩

section Answers

variable {solver : LinearProgram.Solver PlaceVar} {config : PlacementConfig}

section

variable (hedges : EdgesInside graph) (hcovered : Covered ctx) (hanswers : AnswersPlacement solver)
include hedges hcovered hanswers

/-- An attempt finds a placement, or there is none at its limit. -/
theorem attempt_placement_spec (hlimits : ctx.limits = config.max_resource_limits)
    (parents : Option (List Coor)) (cuts : List Cut) :
    (∃ found, attempt_placement graph ctx.device ctx.regions ctx.areas parents config cuts
        ctx.usage_limit solver = .ok (.Placed found) ∧ Finds graph ctx parents cuts solver found) ∨
    ∃ reason, attempt_placement graph ctx.device ctx.regions ctx.areas parents config cuts
        ctx.usage_limit solver = .ok (.Infeasible reason) ∧
      IsReason graph ctx parents reason ∧ ¬ Placeable graph ctx parents cuts := by
  have hctx : (⟨ctx.device, ctx.regions, ctx.areas, ctx.usage_limit,
      config.max_resource_limits⟩ : DomainContext) = ctx := by rw [← hlimits]
  unfold attempt_placement
  simp only [hctx]
  cases hdomains : candidate_domains graph ctx parents with
  | error e =>
    obtain ⟨vi, vertex, hvertex, hnil, rfl⟩ := candidate_domains_eq_error hcovered.covers hdomains
    have hnone : ¬ Placeable graph ctx parents cuts := by
      rintro ⟨domains, _, _, hok, _⟩
      rw [hdomains] at hok
      cases hok
    refine .inr ⟨no_candidates_error ctx (parent_of parents vi) vertex, ?_,
      .inr ⟨vi, vertex, hvertex, hnil, rfl⟩, hnone⟩
    rcases no_candidates_error_cases ctx (parent_of parents vi) vertex with ⟨name, h⟩ | ⟨detail, h⟩
    · rw [h]
    · rw [h]
  | ok domains =>
    obtain ⟨lp, hbuild⟩ := exists_model hcovered hdomains cuts
    have hwell := wellPosed_of_candidates hedges hcovered hdomains
    obtain ⟨solution, hsolve, hanswer⟩ := hanswers graph domains lp lp
      ⟨hwell, ⟨_, _, _, _, _, hbuild⟩, .inl rfl⟩
    simp only [← hlimits, hbuild, ok_bind, hsolve, Except.mapError]
    rcases hanswer with ⟨hfound, hgives⟩ | ⟨hstatus, hnone⟩
    · refine .inl ⟨⟨ctx.usage_limit, lp, domains, solution⟩, ?_, rfl, hdomains, hbuild, hsolve,
        hgives⟩
      unfold judge_solution
      rw [if_pos hfound]
    · refine .inr ⟨.Infeasible config.retry_ceiling
        (describe_demand ctx.device graph ctx.areas config.retry_ceiling ctx.limits), ?_,
        .inl ⟨_, _, rfl⟩, ?_⟩
      · unfold judge_solution
        rw [if_neg (by simp [LpSolution.is_found, hstatus]), if_pos hstatus]
      · rintro ⟨domains', lp', σ, hdomains', hbuild', hfeasible⟩
        rw [hdomains] at hdomains'
        cases hdomains'
        rw [hbuild] at hbuild'
        cases hbuild'
        exact hnone σ hfeasible

variable {found : FeasibleRung}

theorem attempt_placement_placed (hlimits : ctx.limits = config.max_resource_limits)
    (h : attempt_placement graph ctx.device ctx.regions ctx.areas parents config cuts
      ctx.usage_limit solver = .ok (.Placed found)) :
    Finds graph ctx parents cuts solver found := by
  rcases attempt_placement_spec hedges hcovered hanswers hlimits parents cuts with
    ⟨found', hok, hfinds⟩ | ⟨reason, hok, _⟩
  · rw [h] at hok
    obtain rfl := Rung.Placed.inj (Except.ok.inj hok)
    exact hfinds
  · rw [h] at hok
    cases hok

omit hedges hcovered hanswers in
/-- A selection is read back as its placement. -/
theorem read_back_selects {σ : PlaceVar → ℚ} {solution : LpSolution PlaceVar}
    (hlen : domains.length = graph.vertices.length) (hp : p.length = graph.vertices.length)
    (hsel : Selects domains σ p) (hvalues : ∀ vi < graph.vertices.length,
      ∀ ci < (domain_of domains vi).length, solution.values (.x vi ci) = some (σ (.x vi ci))) :
    read_back graph domains solution = .ok p := by
  rw [read_back, mapM_eq_ok, List.forall₂_iff_get]
  refine ⟨by rw [length_zipIdx, hp], fun vi hvi hpi => ?_⟩
  simp only [get_eq_getElem, getElem_zipIdx, zero_add]
  rw [length_zipIdx] at hvi
  obtain ⟨k, hk, hget⟩ := hsel vi (hlen ▸ hvi)
  have hread : read_one_of_k (fun ci => reading (solution.values (.x vi ci)))
      (domain_of domains vi).length = .ok k := by
    refine read_one_of_k_of_choice hk.1 fun ci hci => ?_
    have hvalue := hk.2 ci hci
    beta_reduce at hvalue
    rw [hvalues vi hvi ci hci, hvalue]
    split <;> simp
  rw [hread]
  simp only [Except.mapError, ok_bind, region_of_eq hget]
  simp [region_of, hpi]

/-- The ties are broken among the solutions that are as good as the one that was
found. -/
theorem refine_lexicographic_spec (hfinds : Finds graph ctx parents cuts solver found) :
    ∃ refined σ, refine_lexicographic graph found solver = .ok (some refined) ∧
      found.model.Feasible σ ∧
      found.model.objective.eval σ ≤ pin_bound found.solution.objective ∧
      refined.Gives (pinned_model found.model found.model.objective found.solution.objective
        (x_rows graph found.domains)) σ := by
  obtain ⟨σ, hfeasible, hgives⟩ := hfinds.solution
  obtain ⟨refined, hsolve, hanswer⟩ := hanswers graph found.domains found.model
    (pinned_model found.model found.model.objective found.solution.objective
      (x_rows graph found.domains))
    ⟨wellPosed_of_candidates hedges hcovered hfinds.domains, ⟨_, _, _, _, _, hfinds.model⟩,
      .inr ⟨_, rfl⟩⟩
  rcases hanswer with ⟨hfound, σ', hσ', hgives'⟩ | ⟨_, hnone⟩
  · obtain ⟨hmodel, hpin⟩ := feasible_pinned_model.mp hσ'
    refine ⟨refined, σ', ?_, hmodel, hpin, hgives'⟩
    simp only [refine_lexicographic, refine, hsolve, ok_bind, if_pos hfound, Except.mapError]
  · -- The solution that was found keeps the pin.
    refine absurd (feasible_pinned_model.mpr ⟨hfeasible, ?_⟩) (hnone σ)
    rw [hgives.objective]
    exact le_pin_bound _

/-- A rung is finished with a placement. -/
theorem finish_iteration_spec (hfinds : Finds graph ctx parents cuts solver found) :
    ∃ p, finish_iteration graph found solver = .ok ⟨p, ctx.usage_limit⟩ ∧
      Places graph ctx parents cuts p := by
  obtain ⟨refined, σ, hrefine, hfeasible, _, hgives⟩ :=
    refine_lexicographic_spec hedges hcovered hanswers hfinds
  have hwell := wellPosed_of_candidates hedges hcovered hfinds.domains
  obtain ⟨_, p, hsel, hlegal⟩ := (feasible_build_model hwell hfinds.model).mp hfeasible
  have hplaces := (places_iff_legal hcovered hfinds.domains).mpr hlegal
  have hread : read_back graph found.domains refined = .ok p := by
    refine read_back_selects hwell.length hplaces.length hsel fun vi hvi ci hci => ?_
    exact hgives.value (has_x hfinds.model hvi hci)
  refine ⟨p, ?_, hplaces⟩
  simp only [finish_iteration, hrefine, ok_bind, Option.getD_some, hread, hfinds.limit]

end

end Answers

end Pass

/-! ## The search of a pass -/

section Search

variable {graph : FloorGraph} {ctx : DomainContext} {parents : Option (List Coor)}
  {config : PlacementConfig} {solver : LinearProgram.Solver PlaceVar}

theorem Covered.withLimit (h : Covered ctx) (limit : ℚ) : Covered (ctx.withLimit limit) :=
  ⟨h.areas, h.centroids⟩

variable {cuts : List Cut}

theorem Placeable.mono (hedges : EdgesInside graph) (hcovered : Covered ctx) {low high : ℚ}
    (hle : low ≤ high) (h : Placeable graph (ctx.withLimit low) parents cuts) :
    Placeable graph (ctx.withLimit high) parents cuts := by
  obtain ⟨p, hp⟩ := (placeable_iff hedges (hcovered.withLimit low)).mp h
  exact (placeable_iff hedges (hcovered.withLimit high)).mpr
    ⟨p, hp.mono (hcovered.withLimit low) hle⟩

theorem Finds.placeable {found : FeasibleRung} (h : Finds graph ctx parents cuts solver found) :
    Placeable graph ctx parents cuts := by
  obtain ⟨σ, hfeasible, _⟩ := h.solution
  exact ⟨_, _, σ, h.domains, h.model, hfeasible⟩

/-- The probe of the search at a rung of the ladder. -/
def rung_probe (graph : FloorGraph) (ctx : DomainContext) (parents : Option (List Coor))
    (config : PlacementConfig) (ladder : List ℚ) (solver : LinearProgram.Solver PlaceVar)
    (rung : Nat) : Except IlpError (Rung FeasibleRung IlpError) :=
  attempt_placement graph ctx.device ctx.regions ctx.areas parents config
    (find_cuts_for_regions ctx.device ctx.regions) (ladder.getD rung 0) solver

variable {ladder : List ℚ}

/-- Raising the limit keeps what is feasible. -/
theorem rung_probe_upward (parents : Option (List Coor)) (hedges : EdgesInside graph)
    (hcovered : Covered ctx) (hanswers : AnswersPlacement solver)
    (hlimits : ctx.limits = config.max_resource_limits) (hsorted : ladder.Pairwise (· ≤ ·)) :
    Upward (rung_probe graph ctx parents config ladder solver) ladder.length := by
  have hspec := fun limit => attempt_placement_spec hedges (hcovered.withLimit limit) hanswers
    hlimits parents (find_cuts_for_regions ctx.device ctx.regions)
  constructor
  · intro i _
    rcases hspec (ladder.getD i 0) with ⟨found, hok, _⟩ | ⟨reason, hok, _⟩
    · exact ⟨_, hok⟩
    · exact ⟨_, hok⟩
  · rintro i j hij hj ⟨reason, hreason⟩
    have hle : ladder.getD i 0 ≤ ladder.getD j 0 := by
      rcases Nat.lt_or_eq_of_le hij with hlt | rfl
      · have hi := hlt.trans hj
        simpa [hi, hj] using pairwise_iff_getElem.mp hsorted i j hi hj hlt
      · exact le_refl _
    rcases hspec (ladder.getD i 0) with ⟨found, hok, hfinds⟩ | ⟨reason', hok, _⟩
    · have hplaceable := Placeable.mono hedges hcovered hle hfinds.placeable
      rcases hspec (ladder.getD j 0) with ⟨_, hok', _⟩ | ⟨_, _, _, hnone⟩
      · exact absurd (hok'.symm.trans hreason) (by simp)
      · exact absurd hplaceable hnone
    · exact ⟨reason', hok⟩

/-- The first rung at which the clusters can be placed. -/
structure IsLowestRung (graph : FloorGraph) (ctx : DomainContext) (parents : Option (List Coor))
    (cuts : List Cut) (ladder : List ℚ) (i : Nat) : Prop where
  lt : i < ladder.length
  placeable : Placeable graph (ctx.withLimit (ladder.getD i 0)) parents cuts
  below : ∀ j < i, ¬ Placeable graph (ctx.withLimit (ladder.getD j 0)) parents cuts

theorem rung_mem {i : Nat} (hi : i < ladder.length) : ladder.getD i 0 ∈ ladder := by
  rw [getD_eq_getElem _ _ hi]
  exact getElem_mem hi

theorem IsLowestRung.unique {i j : Nat} (hi : IsLowestRung graph ctx parents cuts ladder i)
    (hj : IsLowestRung graph ctx parents cuts ladder j) : i = j := by
  rcases Nat.lt_trichotomy i j with hlt | heq | hgt
  · exact absurd hi.placeable (hj.below i hlt)
  · exact heq
  · exact absurd hj.placeable (hi.below j hgt)

/-- A pass finishes the lowest rung that has a placement, or it fails with the
reason of the last rung, and then no rung has a placement. -/
theorem solve_iteration_spec (parents : Option (List Coor)) (config : PlacementConfig)
    (hedges : EdgesInside graph) (hcovered : Covered ctx) (hanswers : AnswersPlacement solver)
    (hlimits : ctx.limits = config.max_resource_limits)
    (hcuts : cuts = find_cuts_for_regions ctx.device ctx.regions)
    (hladder : ladder = usage_ladder ctx.usage_limit config.retry_ceiling) :
    (∃ i p found, IsLowestRung graph ctx parents cuts ladder i ∧
      solve_iteration graph ctx.device ctx.regions parents config ctx.usage_limit solver =
        .ok ⟨p, ladder.getD i 0⟩ ∧
      Places graph (ctx.withLimit (ladder.getD i 0)) parents cuts p ∧
      Finds graph (ctx.withLimit (ladder.getD i 0)) parents cuts solver found ∧
      solve_iteration graph ctx.device ctx.regions parents config ctx.usage_limit solver =
        finish_iteration graph found solver) ∨
    ∃ reason,
      solve_iteration graph ctx.device ctx.regions parents config ctx.usage_limit solver =
        .error reason ∧
      attempt_placement graph ctx.device ctx.regions ctx.areas parents config cuts
        (max ctx.usage_limit config.retry_ceiling) solver = .ok (.Infeasible reason) ∧
      ∀ limit ∈ ladder, ¬ Placeable graph (ctx.withLimit limit) parents cuts := by
  have hsorted : ladder.Pairwise (· ≤ ·) := hladder ▸ usage_ladder_sorted _ _
  have hupward := rung_probe_upward parents hedges hcovered hanswers hlimits hsorted
  have hpos : 0 < ladder.length := by simp [hladder, usage_ladder]
  -- A rung that the probe rejects has no placement.
  have hrejects : ∀ j < ladder.length,
      Rejects (rung_probe graph ctx parents config ladder solver) j →
      ¬ Placeable graph (ctx.withLimit (ladder.getD j 0)) parents cuts := by
    rintro j _ ⟨reason, hreason⟩
    rcases attempt_placement_spec hedges (hcovered.withLimit (ladder.getD j 0)) hanswers hlimits
      parents cuts with ⟨found, hok, _⟩ | ⟨_, _, _, hnone⟩
    · rw [rung_probe, ← hcuts] at hreason
      exact absurd (hok.symm.trans hreason) (by simp)
    · exact hnone
  have hrun : solve_iteration graph ctx.device ctx.regions parents config ctx.usage_limit solver =
      (search (rung_probe graph ctx parents config ladder solver) ladder.length >>= fun placed =>
        finish_iteration graph placed solver) := by
    simp only [solve_iteration, hcovered.areas, ok_bind, ← hladder]
    rfl
  rcases search_lowest hupward hpos with ⟨i, hi, found, hsearch, hlowest⟩ | ⟨reason, hsearch, hlast⟩
  · left
    have hplaced := hlowest.placed
    rw [rung_probe, ← hcuts] at hplaced
    have hfinds := attempt_placement_placed hedges (hcovered.withLimit (ladder.getD i 0))
      hanswers hlimits hplaced
    rw [hsearch] at hrun
    obtain ⟨p, hfinish, hplaces⟩ :=
      finish_iteration_spec hedges (hcovered.withLimit _) hanswers hfinds
    refine ⟨i, p, found, ⟨hi, hfinds.placeable, fun j hj => ?_⟩, hrun.trans hfinish, hplaces,
      hfinds, hrun⟩
    exact hrejects j (hj.trans hi) (hlowest.below j hj)
  · right
    have htop : ladder.getD (ladder.length - 1) 0 = max ctx.usage_limit config.retry_ceiling := by
      have hget := usage_ladder_getLast ctx.usage_limit config.retry_ceiling
      rw [← hladder, getLast?_eq_getElem?] at hget
      rw [getD_eq_getElem?_getD, hget, Option.getD_some]
    refine ⟨reason, ?_, ?_, fun limit hlimit => ?_⟩
    · rw [hrun, hsearch]
      rfl
    · rw [rung_probe, ← hcuts, htop] at hlast
      exact hlast
    · obtain ⟨j, hj, rfl⟩ := mem_iff_getElem.mp hlimit
      have hnone := hrejects j hj (hupward.rejects j (ladder.length - 1) (by omega) (by omega)
        ⟨reason, hlast⟩)
      rwa [getD_eq_getElem _ _ hj] at hnone

theorem answersPlacement_of_decides (h : DecidesFeasibility solver) : AnswersPlacement solver :=
  fun _ _ _ lp _ => h lp

/-- With a solver that decides feasibility, a pass ends with a placement at the
lowest rung that has one, and with the error of the ceiling exactly if none has. -/
theorem a_pass_finds_the_lowest_feasible_rung {device : Device} {regions : List Coor}
    {areas : RegionAreas} (parents : Option (List Coor)) (config : PlacementConfig) (base : ℚ)
    (hedges : EdgesInside graph)
    (hareas : region_areas device regions = .ok areas)
    (hcentroids : ∀ region ∈ regions, ∃ c, centroid_quarters device region = .ok c)
    (hsolver : DecidesFeasibility solver) :
    let pass (limit : ℚ) : DomainContext :=
      ⟨device, regions, areas, limit, config.max_resource_limits⟩
    let cuts := find_cuts_for_regions device regions
    let ladder := usage_ladder base config.retry_ceiling
    (∀ i < ladder.length, Placeable graph (pass (ladder.getD i 0)) parents cuts →
      (∀ j < i, ¬ Placeable graph (pass (ladder.getD j 0)) parents cuts) →
      ∃ p, solve_iteration graph device regions parents config base solver =
          .ok ⟨p, ladder.getD i 0⟩ ∧
        Places graph (pass (ladder.getD i 0)) parents cuts p) ∧
    ((∀ limit ∈ ladder, ¬ Placeable graph (pass limit) parents cuts) ↔
      ∃ reason, attempt_placement graph device regions areas parents config cuts
          (max base config.retry_ceiling) solver = .ok (.Infeasible reason) ∧
        solve_iteration graph device regions parents config base solver = .error reason) := by
  intro pass cuts ladder
  have hcovered : Covered (pass base) := ⟨hareas, hcentroids⟩
  have hspec := solve_iteration_spec parents config hedges hcovered
    (answersPlacement_of_decides hsolver) rfl rfl rfl
  constructor
  · intro i hi hplaceable hbelow
    rcases hspec with ⟨k, p, _, hlowest, hrun, hplaces, _⟩ | ⟨_, _, _, hnone⟩
    · obtain rfl : k = i := hlowest.unique ⟨hi, hplaceable, hbelow⟩
      exact ⟨p, hrun, hplaces⟩
    · exact absurd hplaceable (hnone _ (rung_mem hi))
  · constructor
    · intro hnone
      rcases hspec with ⟨k, _, _, hlowest, _⟩ | ⟨reason, hrun, hattempt, _⟩
      · exact absurd hlowest.placeable (hnone _ (rung_mem hlowest.lt))
      · exact ⟨reason, hattempt, hrun⟩
    · rintro ⟨reason, _, hrun⟩
      rcases hspec with ⟨_, _, _, _, hok, _⟩ | ⟨_, _, _, hnone⟩
      · exact absurd (hok.symm.trans hrun) (by simp)
      · exact hnone

end Search

/-- Six LUTs do not fit into a slot at 58 percent of it, but they do at 60 percent. -/
theorem a_couple_is_placed_at_the_second_rung : ∃ p,
    solve_iteration couple column columnSlots none ⟨29 / 50, 3 / 5, .Flat, ∅⟩ (29 / 50) bestSolver =
      .ok ⟨p, 3 / 5⟩ ∧
    Places couple ⟨column, columnSlots, columnAreas, 3 / 5, ∅⟩ none [columnCut] p := by
  have hedges : EdgesInside couple := couple_wellPosed.edges
  have hareas : region_areas column columnSlots = .ok columnAreas := rfl
  have hcentroids : ∀ region ∈ columnSlots, ∃ c, centroid_quarters column region = .ok c := by
    intro region hregion
    have hcases : region = .slot 0 0 ∨ region = .slot 0 1 := by simpa [columnSlots] using hregion
    rcases hcases with rfl | rfl <;> exact ⟨_, rfl⟩
  have hladder : usage_ladder (29 / 50) (3 / 5) = [29 / 50, 3 / 5] := by
    have hstep : min (29 / 50 + USAGE_LIMIT_STEP) (3 / 5) = 3 / 5 := by
      norm_num [USAGE_LIMIT_STEP]
    rw [usage_ladder, climb, if_pos (by norm_num), hstep, climb, if_neg (by norm_num)]
  obtain ⟨hfinds, _⟩ := a_pass_finds_the_lowest_feasible_rung none ⟨29 / 50, 3 / 5, .Flat, ∅⟩
    (29 / 50) hedges hareas hcentroids bestSolver_decidesFeasibility
  have hcovered : ∀ limit, Covered ⟨column, columnSlots, columnAreas, limit, ∅⟩ :=
    fun _ => ⟨hareas, hcentroids⟩
  simp only [hladder] at hfinds
  refine hfinds 1 (by decide) ?_ ?_
  · exact (placeable_iff hedges (hcovered _)).mpr ⟨columnSlots, by decide +kernel⟩
  · intro j hj hplaceable
    obtain rfl : j = 0 := by omega
    obtain ⟨p, hp⟩ := (placeable_iff hedges (hcovered _)).mp hplaceable
    have hnone : candidates ⟨column, columnSlots, columnAreas, 29 / 50, ∅⟩ none
        ⟨['A'], ⟨6, 0, 0, 0, 0⟩, none, true⟩ = [] := by decide +kernel
    have hmem := hp.permitted 0 _ rfl
    exact not_mem_nil (hnone ▸ hmem)


end Tapa.Floorplan
