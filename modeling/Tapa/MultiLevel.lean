-- The schedule of the placement (`floorplan_with_config` of `partition/ilp.rs`): all
-- slots at once, or rows first and then the slots of these rows, with a retry over
-- all slots where the rows cannot be refined.
import Tapa.PlacementTies
import Tapa.RouteAccounting
import Tapa.RowRelaxation

namespace Tapa.Floorplan

open Ir Text Fallible LinearProgram Gallop Ledger List

/-! ## Schedules -/

def validate_limit (kind region : Str) (value : ℚ) (allow_zero : Bool) : Except IlpError Unit :=
  ensure ((0 < value ∨ (allow_zero = true ∧ 0 ≤ value)) ∧ value ≤ 1)
    (.InvalidLimit kind region value
      (if allow_zero then "0 <= limit <= 1".toList else "0 < limit <= 1".toList))

def validate_config (config : PlacementConfig) : Except IlpError Unit := do
  validate_limit "base".toList "all regions".toList config.usage_limit false
  validate_limit "retry ceiling".toList "all regions".toList config.retry_ceiling false
  ensure (config.usage_limit ≤ config.retry_ceiling)
    (.InvalidLimit "retry ceiling".toList "all regions".toList config.retry_ceiling
      "base limit <= ceiling <= 1".toList)
  config.max_resource_limits.toList.forM fun (region, by_resource) =>
    by_resource.toList.forM fun (_, value) => validate_limit "maximum".toList region value true

/-- The schedule for a number of edges, and for the rows of the device in between. -/
def select_strategy (device : Device) (edge_count : Nat) : PartitionStrategy :=
  if device.cols = 1 ∨ edge_count < FLAT_SCHEDULE_MAX_EDGE_COUNT then .Flat
  else if edge_count > MULTILEVEL_SCHEDULE_EDGE_COUNT then .MultiLevel
  else if device.rows ≥ MULTILEVEL_SCHEDULE_MIN_ROWS then .MultiLevel
  else .Flat

def resolve_strategy (graph : FloorGraph) (device : Device) (requested : PartitionStrategy) :
    PartitionStrategy :=
  match requested with
  | .Auto => select_strategy device graph.placement_edges.length
  | .Flat => .Flat
  | .MultiLevel => .MultiLevel

section

variable (graph : FloorGraph) (device : Device) (config : PlacementConfig)
    (solver : LinearProgram.Solver PlaceVar)

/-- Refine the rows of a pass into slots. Without a placement inside these rows the
slots are searched again, from the limit of the rows on. -/
def refine_rows (rows : SolvedIteration) : Except IlpError (List Coor) :=
  let slots := atomic_regions device
  let inside := solve_iteration graph device slots (some rows.placements) config rows.usage_limit
    solver
  match inside with
  | .ok assignment => .ok assignment.placements
  | .error (.Infeasible _ _) | .error (.NoCandidates _) =>
    (solve_iteration graph device slots none config rows.usage_limit solver).map
      SolvedIteration.placements
  | .error error => .error error

def final_regions : PartitionStrategy → Except IlpError (List Coor)
  | .MultiLevel => do
    let rows ← solve_iteration graph device (row_regions device) none config config.usage_limit
      solver
    refine_rows graph device config solver rows
  -- A resolved strategy is not `Auto`.
  | .Flat | .Auto =>
    (solve_iteration graph device (atomic_regions device) none config config.usage_limit solver).map
      SolvedIteration.placements

/-- Place the clusters in single slots. -/
def floorplan_with_config : Except IlpError Assignment := do
  validate_config config
  let regions ← final_regions graph device config solver
    (resolve_strategy graph device config.strategy)
  complete_assignment graph regions

end

def floorplan_with_strategy (graph : FloorGraph) (device : Device)
    (base_usage_limit retry_ceiling : ℚ) (strategy : PartitionStrategy)
    (solver : LinearProgram.Solver PlaceVar) : Except IlpError Assignment :=
  floorplan_with_config graph device ⟨base_usage_limit, retry_ceiling, strategy, ∅⟩ solver

/-- Place at exactly one limit, with a limit of its own for block resources where
the schedule has two passes. -/
def floorplan_with_exact_resource_caps (graph : FloorGraph) (device : Device)
    (logic_limit block_limit : ℚ) (strategy : PartitionStrategy)
    (solver : LinearProgram.Solver PlaceVar) :
    Except IlpError (Assignment × PartitionStrategy) := do
  let strategy := resolve_strategy graph device strategy
  let constraints :=
    if strategy = .MultiLevel then exact_resource_cap_constraints device block_limit else ∅
  let assignment ← floorplan_with_config graph device
    ⟨logic_limit, logic_limit, strategy, constraints⟩ solver
  .ok (assignment, strategy)

/-! ## Limits -/

section Limits

variable {config : PlacementConfig}

/-- What the checks of a configuration say. -/
structure ValidConfig (config : PlacementConfig) : Prop where
  base_le : config.usage_limit ≤ config.retry_ceiling
  ceiling_le : config.retry_ceiling ≤ 1
  overrides_le : ∀ region resource value,
    lookup_limit config.max_resource_limits region resource = some value → value ≤ 1

theorem validate_config_ok (h : validate_config config = .ok ()) : ValidConfig config := by
  simp only [validate_config, bind_eq_ok, validate_limit, ensure_eq_ok, forM_eq_ok] at h
  obtain ⟨_, _, _, ⟨_, hceiling⟩, _, hbase, hmax⟩ := h
  refine ⟨hbase, hceiling, fun region resource value hvalue => ?_⟩
  obtain ⟨by_resource, hregion, hresource⟩ := Option.bind_eq_some_iff.mp hvalue
  exact (hmax _ (Std.ExtTreeMap.mem_toList_iff_getElem?_eq_some.mpr hregion) _
    (Std.ExtTreeMap.mem_toList_iff_getElem?_eq_some.mpr hresource)).2

theorem ValidConfig.limit_of_le (h : ValidConfig config) {limit : ℚ} (hlimit : limit ≤ 1)
    (region : Coor) (resource : Resource) :
    limit_of config.max_resource_limits limit region resource ≤ 1 := by
  unfold limit_of
  cases hlookup : lookup_limit config.max_resource_limits region resource with
  | none => exact hlimit
  | some value => exact h.overrides_le region resource value hlookup

theorem scaled_amount_le {amount : Nat} {limit : ℚ} (h : limit ≤ 1) :
    scaled_amount amount limit ≤ amount := by
  refine (scaled_amount_mono h).trans ?_
  simp [scaled_amount]

theorem ceiling_mem_usage_ladder {base ceiling : ℚ} (hle : base ≤ ceiling) :
    ceiling ∈ usage_ladder base ceiling := by
  have hlast := mem_of_getLast? (usage_ladder_getLast base ceiling)
  rwa [max_eq_right hle] at hlast

theorem mem_usage_ladder_le {base ceiling limit : ℚ} (hle : base ≤ ceiling)
    (h : limit ∈ usage_ladder base ceiling) : limit ≤ ceiling := by
  have hlast := usage_ladder_getLast base ceiling
  rw [max_eq_right hle, getLast?_eq_some_iff] at hlast
  obtain ⟨init, hinit⟩ := hlast
  have hsorted := usage_ladder_sorted base ceiling
  rw [hinit] at h hsorted
  rcases mem_snoc.mp h with hmem | rfl
  · exact (pairwise_append.mp hsorted).2.2 _ hmem _ (by simp)
  · rfl

end Limits

/-! ## Complete assignments -/

section Assignments

variable {graph : FloorGraph} {device : Device} {p : List Coor}

/-- The clusters with the cells that they are placed in. -/
def placed_cells (graph : FloorGraph) (p : List Coor) : List (Vertex × Cell) :=
  (graph.vertices.zip p).map fun (vertex, slot) => (vertex, (slot.dl_x, slot.dl_y))

/-- What the clusters that become modules use of a resource, on the whole device. -/
def materialized (graph : FloorGraph) (resource : Resource) : Nat :=
  (graph.vertices.map fun vertex =>
    if vertex.materialize then resource.amount vertex.area else 0).sum

/-- The next cluster has a place where its slot is a single one with room for it. -/
theorem place_vertex_ok {done rest : List (Vertex × Coor)} {vertex : Vertex} {slot : Coor}
    {a : Assignment} (hassigns : Assigns done a) (hatomic : slot.width = 1 ∧ slot.height = 1)
    (hzip : done ++ [(vertex, slot)] ++ rest = graph.vertices.zip p)
    (hfits : (placed_area (placed_cells graph p) (slot.dl_x, slot.dl_y)).fits = true) :
    ∃ a', place_vertex a (vertex, slot) = .ok a' := by
  simp only [place_vertex, ensure, if_pos hatomic, ok_bind]
  split
  · rename_i hmat
    -- The counters hold the whole usage of the slot, so also the usage so far.
    have hle : a.slot_usage.getD (slot.dl_x, slot.dl_y) 0 + vertex.area ≤
        placed_area (placed_cells graph p) (slot.dl_x, slot.dl_y) := by
      have husage := hassigns (slot.dl_x, slot.dl_y)
      unfold balance at husage
      rw [husage, placed_cells, ← hzip]
      simp [placed_area, hmat]
    have hsum := Area.fits_of_le _ _ hle hfits
    simp only [Area.checked_add, if_pos hsum, ok_or, ok_bind]
    exact ⟨_, rfl⟩
  · exact ⟨_, rfl⟩

/-- A placement is complete where it is in single slots whose counters have room. -/
theorem complete_assignment_ok (hatomic : ∀ slot ∈ p, slot.width = 1 ∧ slot.height = 1)
    (hfits : ∀ slot ∈ p, (placed_area (placed_cells graph p) (slot.dl_x, slot.dl_y)).fits = true) :
    ∃ a, complete_assignment graph p = .ok a := by
  have hrun : ∃ a, (graph.vertices.zip p).foldlM place_vertex ⟨[], ∅⟩ = .ok a ∧
      Assigns (graph.vertices.zip p) a := by
    refine foldlM_succeeds (P := Assigns) (fun cell => ?_) ?_
    · simp [balance, placed_area]
    · rintro done ⟨vertex, slot⟩ a ⟨rest, hzip⟩ hassigns
      have hmem : (vertex, slot) ∈ graph.vertices.zip p := by simp [← hzip]
      have hslot : slot ∈ p := (of_mem_zip hmem).2
      obtain ⟨a', ha'⟩ := place_vertex_ok hassigns (hatomic slot hslot) hzip (hfits slot hslot)
      exact ⟨a', ha', hassigns.step ha'⟩
  obtain ⟨a, ha, _⟩ := hrun
  exact ⟨a, ha⟩

section

variable (hlen : p.length = graph.vertices.length)
include hlen

theorem placed_cells_eq : placed_cells graph p = graph.vertices.zipIdx.map fun (vertex, vi) =>
      (vertex, ((region_of p vi).dl_x, (region_of p vi).dl_y)) := by
  apply ext_getElem
  · simp [placed_cells, hlen]
  · intro i h1 h2
    have hi : i < p.length := by
      rw [hlen]
      simpa using h2
    simp [placed_cells, region_of, hi]

/-- The clusters in a slot are those that a pass has counted for it. -/
theorem placed_amount_le (hslots : InSlots device graph p) (x y : Nat) (resource : Resource) :
    resource.amount (placed_area (placed_cells graph p) (x, y)) ≤
      vertex_usage graph p (.slot x y) resource := by
  rw [placed_area, amount_sum, placed_cells_eq hlen, List.map_map, List.map_map]
  refine List.sum_le_sum ?_
  rintro ⟨vertex, vi⟩ hmem
  have hvi := (List.getElem?_eq_some_iff.mp (List.mem_zipIdx_iff_getElem?.mp hmem)).1
  obtain ⟨x', _, y', _, hregion⟩ := hslots vi hvi
  simp only [Function.comp_apply, hregion]
  by_cases hcell : x' = x ∧ y' = y
  · obtain ⟨rfl, rfl⟩ := hcell
    rw [if_pos rfl]
    split
    · exact le_refl _
    · cases resource <;> exact Nat.zero_le _
  · have hne : ¬ ((Coor.slot x' y').dl_x, (Coor.slot x' y').dl_y) = (x, y) := by
      simpa [Coor.slot] using hcell
    simp only [hne, and_false, if_false]
    cases resource <;> exact Nat.zero_le _

theorem placed_amount_le_materialized (cell : Cell) (resource : Resource) :
    resource.amount (placed_area (placed_cells graph p) cell) ≤ materialized graph resource := by
  have hvertices : materialized graph resource = (graph.vertices.zipIdx.map fun entry =>
      if entry.1.materialize then resource.amount entry.1.area else 0).sum := by
    rw [materialized, ← zipIdx_map_fst 0 graph.vertices, map_map]
    simp
    rfl
  rw [hvertices, placed_area, amount_sum, placed_cells_eq hlen, map_map, map_map]
  refine sum_le_sum ?_
  rintro ⟨vertex, vi⟩ _
  simp only [Function.comp_apply]
  by_cases hmat : vertex.materialize = true
  · split
    · exact le_refl _
    · cases resource <;> exact Nat.zero_le _
  · rw [if_neg fun h => hmat h.1]
    cases resource <;> exact Nat.zero_le _

end

end Assignments

/-! ## Rows and slots -/

section Fallback

variable {graph : FloorGraph} {device : Device} {config : PlacementConfig}
  {solver : LinearProgram.Solver PlaceVar} {slot_areas row_areas : RegionAreas}
  {parents : Option (List Coor)} {cuts : List Cut} {p : List Coor} {limit : ℚ}

theorem island_area_slot_fits {x y : Nat} {total : Area}
    (h : device.island_area (.slot x y) = some total) : total.fits = true := by
  rw [Device.island_area_slot_eq, Option.bind_eq_some_iff] at h
  obtain ⟨slot, _, h⟩ := h
  split at h
  · rename_i hfits
    exact Option.some.inj h ▸ hfits
  · cases h

section

variable (hd : device.Complete)
include hd

/-- The placement of a pass over the slots completes: a planned resource is within
the slot, and the others are within their counters on the whole device. -/
theorem Places.completes (hvalid : ValidConfig config) (hlimit : limit ≤ 1)
    (hslots : region_areas device (atomic_regions device) = .ok slot_areas)
    (hcounters : ∀ resource, device.plans_resource resource = false →
      materialized graph resource < 2 ^ 64)
    (h : Places graph (slot_pass device slot_areas limit config.max_resource_limits) parents cuts
      p) : ∃ a, complete_assignment graph p = .ok a := by
  have hin := h.inSlots hd
  have hcell : ∀ slot ∈ p, ∃ x < device.cols, ∃ y < device.rows, slot = .slot x y := by
    intro slot hslot
    obtain ⟨vi, hvi, rfl⟩ := mem_iff_getElem.mp hslot
    have hregion := hin vi (h.length ▸ hvi)
    simpa [region_of, hvi] using hregion
  refine complete_assignment_ok (fun slot hslot => ?_) fun slot hslot => ?_
  · obtain ⟨x, _, y, _, rfl⟩ := hcell slot hslot
    simp [Coor.width, Coor.height, Coor.slot]
  · obtain ⟨x, hx, y, hy, rfl⟩ := hcell slot hslot
    refine Area.fits_iff.mpr fun resource => ?_
    by_cases hplan : device.plans_resource resource = true
    · have harea := slot_area_eq hd hslots hx hy
      calc resource.amount (placed_area (placed_cells graph p) (x, y))
          ≤ vertex_usage graph p (.slot x y) resource := placed_amount_le h.length hin x y resource
        _ ≤ usage_in graph p (.slot x y) resource := Nat.le_add_right _ _
        _ ≤ scaled_amount (resource.amount (cell_area device x y))
              (limit_of config.max_resource_limits limit (.slot x y) resource) :=
            h.resources _ _ harea resource hplan
        _ ≤ resource.amount (cell_area device x y) :=
            scaled_amount_le (hvalid.limit_of_le hlimit _ resource)
        _ < 2 ^ 64 := Area.fits_iff.mp (island_area_slot_fits
            ((region_areas_eq_some hslots).mp harea).2) resource
    · exact (placed_amount_le_materialized h.length _ resource).trans_lt
        (hcounters resource (Bool.not_eq_true _ ▸ hplan))

/-- A tag that one slot has is in the row of this slot only. -/
theorem tagged_row_unique {tag : Str} (hone : (device.slots_with_tag tag).length = 1) {x y y' : Nat}
    (hslot : region_has_tag device (.slot x y) tag = true)
    (hrow : region_has_tag device (row_at device y') tag = true) : y = y' := by
  obtain ⟨carrier, hcarrier⟩ := length_eq_one_iff.mp hone
  have hcarries : ∀ {a b : Nat}, (device.slot a b).any (fun slot => slot.tags.contains tag) = true →
      carrier.y = b := by
    intro a b h
    cases hsome : device.slot a b with
    | none => simp [hsome] at h
    | some slot =>
      rw [hsome] at h
      obtain ⟨hmem, _, rfl⟩ := Device.slot_eq_some hsome
      have hcarry : slot ∈ device.slots_with_tag tag := mem_filter.mpr ⟨hmem, h⟩
      rw [hcarrier, mem_singleton] at hcarry
      rw [hcarry]
  simp only [region_has_tag, any_eq_true] at hslot hrow
  obtain ⟨cell, hmem, htag⟩ := hslot
  obtain ⟨cell', hmem', htag'⟩ := hrow
  rw [all_slot_coors_row hd, mem_map] at hmem'
  obtain ⟨_, _, rfl⟩ := hmem'
  have hcell : cell = (x, y) := by simpa [Coor.all_slot_coors, Coor.slot] using hmem
  subst hcell
  exact (hcarries htag).symm.trans (hcarries htag')

/-- A cluster with a tag keeps its slot when the slots are restricted to its row:
both carry the tag, and only one slot does. -/
theorem anchored_candidates_ne_nil {limits : RegionResourceLimits}
    {row_limit : ℚ} {q rows : List Coor} {vi : Nat} {vertex : Vertex} {tag : Str}
    (hone : (device.slots_with_tag tag).length = 1) (hvertex : graph.vertices[vi]? = some vertex)
    (htag : vertex.required_tag = some tag)
    (hq : Places graph (slot_pass device slot_areas limit limits) none (slot_cuts device) q)
    (hrows : Places graph (row_pass device row_areas row_limit limits) none (row_cuts device)
      rows) :
    candidates (slot_pass device slot_areas limit limits) (parent_of (some rows) vi) vertex ≠
      [] := by
  have hvi := (List.getElem?_eq_some_iff.mp hvertex).1
  obtain ⟨x, hx, y, hy, hregion⟩ := hq.inSlots hd vi hvi
  have hslot := hq.permitted vi vertex hvertex
  rw [hregion, parent_of] at hslot
  obtain ⟨hmem, hslot_admits, hfits⟩ := mem_candidates.mp hslot
  obtain ⟨hrow, hrow_admits, _⟩ := mem_candidates.mp (hrows.permitted vi vertex hvertex)
  obtain ⟨y', _, hrow_eq⟩ := mem_row_regions.mp hrow
  have hslot_tag : region_has_tag device (.slot x y) tag = true := by
    simpa [admits, htag, slot_pass] using hslot_admits
  have hrow_tag : region_has_tag device (row_at device y') tag = true := by
    rw [hrow_eq] at hrow_admits
    simpa [admits, htag, parent_of, row_pass] using hrow_admits
  obtain rfl := tagged_row_unique hd hone hslot_tag hrow_tag
  have hparent : parent_of (some rows) vi = some (row_at device y) := by
    rw [← hrow_eq, parent_of, region_of]
    simp [hrows.length, hvi]
  refine List.ne_nil_of_mem (mem_candidates.mpr ⟨hmem, ?_, hfits⟩)
  have hinside : (Coor.slot x y).is_inside (row_at device y) = true := by
    simp [Coor.is_inside, Coor.slot, row_at, Coor.span]
    omega
  rw [hparent]
  simp only [admits, htag, Option.all_some, hinside, Bool.true_and]
  exact hslot_tag

variable (hedges : EdgesInside graph) (hanswers : AnswersPlacement solver)
include hedges hanswers

/-- Where the slots can be placed at the ceiling, the rows are refined: inside the
rows or, failing that, over all slots. -/
theorem refine_rows_ok
    (hanchors : ∀ vertex ∈ graph.vertices, ∀ tag, vertex.required_tag = some tag →
      (device.slots_with_tag tag).length = 1)
    (hslots : region_areas device (atomic_regions device) = .ok slot_areas)
    {rows : SolvedIteration} (hle : rows.usage_limit ≤ config.retry_ceiling)
    (hrows : Places graph (row_pass device row_areas rows.usage_limit config.max_resource_limits)
      none (row_cuts device) rows.placements)
    (hplaceable : Placeable graph (slot_pass device slot_areas config.retry_ceiling
      config.max_resource_limits) none (slot_cuts device)) :
    ∃ p parents, ∃ limit ≤ config.retry_ceiling,
      refine_rows graph device config solver rows = .ok p ∧
      Places graph (slot_pass device slot_areas limit config.max_resource_limits) parents
        (slot_cuts device) p := by
  have hcovered : ∀ limit,
      Covered (slot_pass device slot_areas limit config.max_resource_limits) :=
    fun _ => covered_slots hd hslots
  have hmax : max rows.usage_limit config.retry_ceiling = config.retry_ceiling := max_eq_right hle
  have hspec := fun parents => solve_iteration_spec parents config hedges
    (hcovered rows.usage_limit) hanswers rfl rfl rfl
  simp only [slot_pass] at hspec
  unfold refine_rows
  rcases hspec (some rows.placements) with
    ⟨i, p, _, hlowest, hrun, hplaces, _⟩ | ⟨reason, hrun, hattempt, _⟩
  · refine ⟨p, some rows.placements, _,
      mem_usage_ladder_le hle (rung_mem hlowest.lt), ?_, hplaces⟩
    simp only [hrun]
  · -- The error of the ceiling is one of those that the retry is for.
    have hretry : (∃ l d, reason = .Infeasible l d) ∨ ∃ name, reason = .NoCandidates name := by
      rw [hmax] at hattempt
      rcases attempt_placement_spec hedges (hcovered config.retry_ceiling) hanswers rfl
          (some rows.placements) (slot_cuts device) with ⟨_, hok, _⟩ | ⟨_, hok, hreason, _⟩
      · exact absurd (hok.symm.trans hattempt) (by simp)
      · obtain rfl := Rung.Infeasible.inj (Except.ok.inj (hok.symm.trans hattempt))
        rcases hreason with hinfeasible | ⟨vi, vertex, hvertex, hnil, rfl⟩
        · exact .inl hinfeasible
        cases htag : vertex.required_tag with
        | none => exact .inr ⟨vertex.name, by simp [no_candidates_error, htag]⟩
        | some tag =>
          obtain ⟨q, hq⟩ := (placeable_iff hedges (hcovered _)).mp hplaceable
          exact absurd hnil (anchored_candidates_ne_nil hd
            (hanchors vertex (mem_of_getElem? hvertex) tag htag) hvertex htag hq hrows)
    have hagain : ∃ p parents, ∃ limit ≤ config.retry_ceiling,
        (solve_iteration graph device (atomic_regions device) none config rows.usage_limit
          solver).map SolvedIteration.placements = .ok p ∧
        Places graph (slot_pass device slot_areas limit config.max_resource_limits) parents
          (slot_cuts device) p := by
      rcases hspec none with ⟨i, p, _, hlowest, hrun', hplaces, _⟩ | ⟨_, _, _, hnone⟩
      · refine ⟨p, none, _, mem_usage_ladder_le hle (rung_mem hlowest.lt), ?_, hplaces⟩
        rw [hrun']
        rfl
      · exact absurd hplaceable (hnone _ (ceiling_mem_usage_ladder hle))
    rcases hretry with ⟨l, d, rfl⟩ | ⟨name, rfl⟩
    · simpa only [hrun] using hagain
    · simpa only [hrun] using hagain

/-- A pass over the rows that succeeds has placed the clusters at a rung of its ladder. -/
theorem row_pass_ok (hle : config.usage_limit ≤ config.retry_ceiling)
    {rows : SolvedIteration}
    (h : solve_iteration graph device (row_regions device) none config config.usage_limit solver =
      .ok rows) : ∃ row_areas, rows.usage_limit ≤ config.retry_ceiling ∧
      Places graph (row_pass device row_areas rows.usage_limit config.max_resource_limits) none
        (row_cuts device) rows.placements := by
  obtain ⟨row_areas, hrows, _⟩ := bind_eq_ok.mp h
  have hcovered : Covered (row_pass device row_areas config.usage_limit
    config.max_resource_limits) := covered_rows hd hrows
  have hspec := solve_iteration_spec none config hedges hcovered hanswers rfl rfl rfl
  rcases hspec with ⟨i, p, _, hlowest, hrun, hplaces, _⟩ | ⟨_, hrun, _⟩
  · obtain rfl := Except.ok.inj (hrun.symm.trans h)
    exact ⟨row_areas, mem_usage_ladder_le hle (rung_mem hlowest.lt), hplaces⟩
  · exact absurd (hrun.symm.trans h) nofun

/-- Where the products are exact, a design whose slots could be placed has its rows placed. -/
theorem row_pass_succeeds (hle : config.usage_limit ≤ config.retry_ceiling)
    {block : Option ℚ} (hblock : config.max_resource_limits = block_limits device block)
    (hslots : region_areas device (atomic_regions device) = .ok slot_areas)
    (hrows : region_areas device (row_regions device) = .ok row_areas)
    (hplaceable : Placeable graph (slot_pass device slot_areas config.retry_ceiling
      config.max_resource_limits) none (slot_cuts device)) :
    ∃ rows, solve_iteration graph device (row_regions device) none config config.usage_limit
        solver = .ok rows := by
  have hrelax : Placeable graph (row_pass device row_areas config.retry_ceiling
      config.max_resource_limits) none (row_cuts device) := by
    rw [hblock] at hplaceable ⊢
    exact hplaceable.rows hd hedges hslots hrows block
  have hcovered : Covered (row_pass device row_areas config.usage_limit
    config.max_resource_limits) := covered_rows hd hrows
  have hspec := solve_iteration_spec none config hedges hcovered hanswers rfl rfl rfl
  simp only [row_pass] at hspec
  rcases hspec with ⟨i, _, _, hlowest, hrun, _⟩ | ⟨_, _, _, hnone⟩
  · exact ⟨_, hrun⟩
  · exact absurd hrelax (hnone _ (ceiling_mem_usage_ladder hle))

end

theorem floorplan_by_levels {rows : SolvedIteration} (hvalid : validate_config config = .ok ())
    (hstrategy : config.strategy = .MultiLevel)
    (hrun : solve_iteration graph device (row_regions device) none config config.usage_limit
      solver = .ok rows)
    (hrefine : refine_rows graph device config solver rows = .ok p) :
    floorplan_with_config graph device config solver = complete_assignment graph p := by
  simp only [floorplan_with_config, hvalid, ok_bind, hstrategy, resolve_strategy, final_regions,
    hrun, hrefine]

end Fallback

/-- Placement by levels falls back: where the rows are placed and the slots could be,
at a limit up to the ceiling, the clusters are placed, also when the rows cannot be
refined. The resources that the device does not plan are not limited by the slots, so
their counters must hold all clusters. -/
theorem multilevel_placement_falls_back {graph : FloorGraph} {device : Device}
    {config : PlacementConfig} {solver : LinearProgram.Solver PlaceVar} {slot_areas : RegionAreas}
    {rows : SolvedIteration} {limit : ℚ} (hd : device.Complete) (hedges : EdgesInside graph)
    (hsolver : Exact solver)
    (hanchors : ∀ vertex ∈ graph.vertices, ∀ tag, vertex.required_tag = some tag →
      (device.slots_with_tag tag).length = 1)
    (hvalid : validate_config config = .ok ()) (hstrategy : config.strategy = .MultiLevel)
    (hslots : region_areas device (atomic_regions device) = .ok slot_areas)
    (hcounters : ∀ resource, device.plans_resource resource = false →
      materialized graph resource < 2 ^ 64)
    (hrun : solve_iteration graph device (row_regions device) none config config.usage_limit
      solver = .ok rows) (hlimit : limit ≤ config.retry_ceiling)
    (hplaceable : Placeable graph (slot_pass device slot_areas limit config.max_resource_limits)
      none (slot_cuts device)) :
    ∃ a, floorplan_with_config graph device config solver = .ok a := by
  have hconfig := validate_config_ok hvalid
  have hanswers := answersPlacement_of_exact hsolver
  have hcovered : Covered (slot_pass device slot_areas limit config.max_resource_limits) :=
    covered_slots hd hslots
  have hceiling : Placeable graph (slot_pass device slot_areas config.retry_ceiling
      config.max_resource_limits) none (slot_cuts device) :=
    Placeable.mono hedges hcovered hlimit hplaceable
  obtain ⟨row_areas, hle, hplaces⟩ := row_pass_ok hd hedges hanswers hconfig.base_le hrun
  obtain ⟨p, parents, rung, hrung, hrefine, hp⟩ :=
    refine_rows_ok hd hedges hanswers hanchors hslots hle hplaces hceiling
  obtain ⟨a, ha⟩ := hp.completes hd hconfig (hrung.trans hconfig.ceiling_le) hslots hcounters
  exact ⟨a, (floorplan_by_levels hvalid hstrategy hrun hrefine).trans ha⟩

/-! ## Levels on a small device -/

/-- The square device with a tag on its first slot. -/
def taggedSquare : Device :=
  { square with slots := square.slots.map fun slot =>
      if slot.cell = (0, 0) then { slot with tags := [['B']] } else slot }

/-- A cluster of six LUTs and a terminal that is anchored to the tag. -/
def anchored : FloorGraph where
  vertices := [⟨['A'], ⟨6, 0, 0, 0, 0⟩, none, true⟩, ⟨['T'], 0, some ['B'], false⟩]
  placement_edges := [⟨0, 1, 3, 3, 0⟩]
  streams := []
  axi_nets := []
  control_nets := []
  index := ∅
  co_located := []

def levels : PlacementConfig := ⟨3 / 5, 7 / 10, .MultiLevel, ∅⟩

def taggedSlotAreas : RegionAreas :=
  (region_areas taggedSquare (atomic_regions taggedSquare)).toOption.get rfl

def taggedRowAreas : RegionAreas :=
  (region_areas taggedSquare (row_regions taggedSquare)).toOption.get rfl

theorem levels_valid : validate_config levels = .ok () := by
  have hok : (validate_config levels).toOption.isSome = true := by decide +kernel
  exact eq_ok_get hok

/-- A cluster and its terminal are placed by levels, with the anchor in its row. -/
theorem an_anchored_design_is_placed_by_levels :
    ∃ a, floorplan_with_config anchored taggedSquare levels bestSolver = .ok a := by
  have hd : taggedSquare.Complete := Device.validate_grid_ok rfl
  have hedges : EdgesInside anchored := by
    unfold EdgesInside
    decide
  have hslots : region_areas taggedSquare (atomic_regions taggedSquare) = .ok taggedSlotAreas :=
    eq_ok_get rfl
  have hrows : region_areas taggedSquare (row_regions taggedSquare) = .ok taggedRowAreas :=
    eq_ok_get rfl
  have hanchors : ∀ vertex ∈ anchored.vertices, ∀ tag ∈ vertex.required_tag,
      (taggedSquare.slots_with_tag tag).length = 1 := by decide +kernel
  have hcounters : ∀ resource, taggedSquare.plans_resource resource = false →
      materialized anchored resource < 2 ^ 64 := by
    intro resource _
    cases resource <;> decide
  have hplaceable : Placeable anchored (slot_pass taggedSquare taggedSlotAreas (7 / 10) ∅) none
      (slot_cuts taggedSquare) :=
    (placeable_iff hedges (covered_slots hd hslots)).mpr
      ⟨[.slot 0 0, .slot 0 0], by decide +kernel⟩
  have hbase : levels.usage_limit ≤ levels.retry_ceiling := by norm_num [levels]
  have hlimits : levels.max_resource_limits = block_limits taggedSquare none := rfl
  obtain ⟨rows, hrun⟩ := row_pass_succeeds hd hedges (answersPlacement_of_exact bestSolver_exact)
    hbase hlimits hslots hrows hplaceable
  exact multilevel_placement_falls_back hd hedges bestSolver_exact hanchors levels_valid rfl hslots
    hcounters hrun (le_refl _) hplaceable

/-- A device of one slot that plans LUTs only. -/
def single : Device where
  key := ['d']
  rows := 1
  cols := 1
  planned_resources := [.Lut]
  usage_ceiling := none
  slots := [⟨0, 0, ⟨10, 0, 0, 0, 0⟩, 0, 0, ⟨10, 10, 10, 10⟩, [], zero_fits, zero_fits⟩]
  anchors := []

/-- Two clusters with 2^63 URAMs each. -/
def giants : FloorGraph where
  vertices := [⟨['A'], ⟨1, 0, 0, 0, 2 ^ 63⟩, none, true⟩, ⟨['B'], ⟨1, 0, 0, 0, 2 ^ 63⟩, none, true⟩]
  placement_edges := []
  streams := []
  axi_nets := []
  control_nets := []
  index := ∅
  co_located := []

def singleSlotAreas : RegionAreas :=
  (region_areas single (atomic_regions single)).toOption.get rfl

def singleRowAreas : RegionAreas := (region_areas single (row_regions single)).toOption.get rfl

/-- The giants are placed in the rows and could be placed in the slots, at the first
rung of the rows, but the counter of the slot does not hold the two. -/
theorem unplanned_counters_may_overflow : validate_config levels = .ok () ∧
    ∀ solver, Exact solver →
      (∃ rows, solve_iteration giants single (row_regions single) none levels levels.usage_limit
          solver = .ok rows ∧
        ∃ limit ∈ usage_ladder rows.usage_limit levels.retry_ceiling,
          Placeable giants (slot_pass single singleSlotAreas limit levels.max_resource_limits) none
            (slot_cuts single)) ∧
      floorplan_with_config giants single levels solver = .error (.InvalidSolution
        "resource accounting overflows in `SLOT_X0Y0_TO_SLOT_X0Y0`".toList) := by
  refine ⟨levels_valid, fun solver hsolver => ?_⟩
  have hd : single.Complete := Device.validate_grid_ok rfl
  have hedges : EdgesInside giants := fun edge hedge => absurd hedge not_mem_nil
  have hanswers := answersPlacement_of_exact hsolver
  have hslots : region_areas single (atomic_regions single) = .ok singleSlotAreas := eq_ok_get rfl
  have hrows : region_areas single (row_regions single) = .ok singleRowAreas := eq_ok_get rfl
  have hanchors : ∀ vertex ∈ giants.vertices, ∀ tag ∈ vertex.required_tag,
      (single.slots_with_tag tag).length = 1 := by decide +kernel
  have hplaceable : Placeable giants (slot_pass single singleSlotAreas (7 / 10) ∅) none
      (slot_cuts single) :=
    (placeable_iff hedges (covered_slots hd hslots)).mpr
      ⟨[.slot 0 0, .slot 0 0], by decide +kernel⟩
  have hbase : levels.usage_limit ≤ levels.retry_ceiling := by norm_num [levels]
  have hlimits : levels.max_resource_limits = block_limits single none := rfl
  obtain ⟨rows, hrun⟩ := row_pass_succeeds hd hedges hanswers hbase hlimits hslots hrows hplaceable
  obtain ⟨row_areas, hle, hplaces⟩ := row_pass_ok hd hedges hanswers hbase hrun
  obtain ⟨p, parents, limit, _, hrefine, hp⟩ :=
    refine_rows_ok hd hedges hanswers hanchors hslots hle hplaces hplaceable
  -- There is only one slot for the two clusters.
  have hp' : p = [.slot 0 0, .slot 0 0] := by
    obtain ⟨a, b, rfl⟩ := length_eq_two.mp hp.length
    have ha := (mem_filter.mp (hp.permitted 0 _ rfl)).1
    have hb := (mem_filter.mp (hp.permitted 1 _ rfl)).1
    have hregions : (slot_pass single singleSlotAreas limit ∅).regions = [.slot 0 0] := rfl
    rw [hlimits, block_limits, hregions, mem_singleton] at ha hb
    change a = _ at ha
    change b = _ at hb
    rw [ha, hb]
  refine ⟨⟨rows, hrun, _, ceiling_mem_usage_ladder hle, hplaceable⟩, ?_⟩
  rw [floorplan_by_levels levels_valid rfl hrun hrefine, hp']
  rfl

end Tapa.Floorplan
