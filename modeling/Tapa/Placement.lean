-- The placement program (`partition/ilp.rs`, `partition/cut.rs`): which regions a
-- cluster may go to at a utilization limit, and the rows that a placement has to
-- meet. Limits are fractions without rounding, and a variable is named by what it
-- stands for.
import Tapa.Device
import Tapa.FloorGraph
import Tapa.LinearProgram

namespace Tapa.Floorplan

open Ir Text Fallible LinearProgram

/-! ## Limits and errors -/

def USAGE_LIMIT_STEP : ℚ := 1 / 50

def MAX_USAGE_LIMIT : ℚ := 19 / 20

def FLAT_SCHEDULE_MAX_EDGE_COUNT : Nat := 300

def MULTILEVEL_SCHEDULE_EDGE_COUNT : Nat := 800

def MULTILEVEL_SCHEDULE_MIN_ROWS : Nat := 3

inductive PartitionStrategy where
  | Auto | Flat | MultiLevel
deriving DecidableEq, Repr

/-- The resources of each region of a pass. -/
abbrev RegionAreas : Type := BTreeMap Coor Area

/-- Limits of regions, by their names, that stand in place of the limit of a pass. -/
abbrev RegionResourceLimits : Type := BTreeMap Str (BTreeMap Resource ℚ)

structure PlacementConfig where
  usage_limit : ℚ
  retry_ceiling : ℚ
  strategy : PartitionStrategy
  max_resource_limits : RegionResourceLimits

/-- Why there is no placement. A selection that cannot be read back keeps the
fault instead of its text, which prints the numbers of the solver. -/
inductive IlpError where
  | Solver (error : SolverError)
  | Infeasible (limit : ℚ) (demand : Str)
  | NoIncumbent (status : LpStatus)
  | InvalidLimit (kind region : Str) (value : ℚ) (range : Str)
  | NoCandidates (vertex : Str)
  | AnchorUnplaceable (detail : Str)
  | InvalidRegion (region : Str)
  | InvalidSelection (vertex : Str) (fault : OneOfKError)
  | InvalidSolution (detail : Str)

def lookup_limit (limits : RegionResourceLimits) (region : Coor) (resource : Resource) : Option ℚ :=
  limits[region.region_name]?.bind fun by_resource => by_resource[resource]?

def limit_of (limits : RegionResourceLimits) (usage_limit : ℚ) (region : Coor)
    (resource : Resource) : ℚ :=
  (lookup_limit limits region resource).getD usage_limit

/-- The whole units of a fraction of an amount. -/
def scaled_amount (amount : Nat) (limit : ℚ) : Nat := ⌊amount * limit⌋₊

def area_from_amounts (amount : Resource → Nat) : Area where
  lut := amount .Lut
  ff := amount .Ff
  bram_18k := amount .Bram18k
  dsp := amount .Dsp
  uram := amount .Uram

def scaled_area (area : Area) (limit : ℚ) : Area :=
  area_from_amounts fun resource => scaled_amount (resource.amount area) limit

def scaled_area_with_overrides (area : Area) (default_limit : ℚ) (limits : RegionResourceLimits)
    (region : Coor) : Area :=
  area_from_amounts fun resource =>
    scaled_amount (resource.amount area) (limit_of limits default_limit region resource)

def area_fits_with (required available : Area) (planned : Resource → Bool) : Bool :=
  (Resource.ALL.filter planned).all fun resource =>
    resource.amount required ≤ resource.amount available

def area_fits (required available : Area) : Bool := area_fits_with required available fun _ => true

def area_fits_on_device (device : Device) (required available : Area) : Bool :=
  area_fits_with required available device.plans_resource

/-! ## Regions -/

def region_areas (device : Device) (regions : List Coor) : Except IlpError RegionAreas :=
  regions.foldlM (fun areas region => do
    let area ← ok_or (device.island_area region) (.InvalidRegion region.region_name)
    .ok (areas.insert region area)) ∅

/-- The single slots, column by column. -/
def atomic_regions (device : Device) : List Coor :=
  (List.range device.cols).flatMap fun x => (List.range device.rows).filterMap fun y =>
    (device.slot x y).map fun _ => Coor.slot x y

/-- The rows of the grid over its full width. -/
def row_regions (device : Device) : List Coor :=
  (List.range device.rows).map fun y => Coor.span 0 y (device.cols - 1) y

def region_has_tag (device : Device) (region : Coor) (required : Str) : Bool :=
  region.all_slot_coors.any fun cell =>
    (device.slot cell.1 cell.2).any fun slot => slot.tags.contains required

def coor_le (a b : Coor) : Prop := (compare a b).isLE = true

instance : DecidableRel coor_le := fun a b => by
  unfold coor_le
  infer_instance

def sorted_set (regions : List Coor) : List Coor := (regions.insertionSort coor_le).dedup

/-! ## Candidates -/

/-- The resources that an area has, for a message. -/
def describe_area (area : Area) : Str :=
  let parts := (Resource.ALL.filter fun resource => resource.amount area > 0).map fun resource =>
    resource.name ++ '=' :: decimal (resource.amount area)
  if parts = [] then "no resources".toList else List.intercalate " ".toList parts

def component_max (a b : Area) : Area :=
  area_from_amounts fun resource => max (resource.amount a) (resource.amount b)

/-- What the candidates of a cluster depend on, apart from the cluster. -/
structure DomainContext where
  device : Device
  regions : List Coor
  areas : RegionAreas
  usage_limit : ℚ
  limits : RegionResourceLimits

namespace DomainContext

def available (ctx : DomainContext) (total : Area) (region : Coor) : Area :=
  scaled_area_with_overrides total ctx.usage_limit ctx.limits region

end DomainContext

/-- Why a cluster with a tag has no region. -/
def anchor_unplaceable_error (vertex : Vertex) (tag : Str) (ctx : DomainContext)
    (externally_pinned : Bool) : IlpError :=
  let tagged := ctx.regions.filter fun region => region_has_tag ctx.device region tag
  let anchored := quoted vertex.name ++ " is anchored to ".toList ++ quoted tag
  let places := List.intercalate ", ".toList (tagged.map Coor.region_name)
  let offers := tagged.filterMap fun region => ctx.areas[region]?.map fun total =>
    ctx.available total region
  let best_available := offers.foldl component_max 0
  if tagged = [] then
    .AnchorUnplaceable (anchored ++ ", which no region carries; the device table must ".toList ++
      "declare that tag, or tag the slot that borders the interface instead".toList)
  else if offers.any (area_fits vertex.area) && externally_pinned then
    .AnchorUnplaceable (anchored ++ ", which selects ".toList ++ places ++
      ", and it fits there at this utilization limit, but a floorplan constraint or ".toList ++
      "the multilevel row assignment excludes every one of those regions; ".toList ++
      "relax that constraint or the tag".toList)
  else
    .AnchorUnplaceable (anchored ++ ", which selects ".toList ++ places ++
      ", but it needs ".toList ++ describe_area vertex.area ++ " and only ".toList ++
      describe_area best_available ++
      " is available there at this utilization limit; the device table must give ".toList ++
      "that slot the resources the platform leaves it, or tag the slot that borders ".toList ++
      "the interface instead".toList)

section

variable (device : Device)

/-- A region that the parent and the tag of a cluster leave to it. -/
def admits (parent : Option Coor) (vertex : Vertex) (region : Coor) : Bool :=
  (parent.all fun parent => region.is_inside parent) &&
    vertex.required_tag.all fun tag => region_has_tag device region tag

section

variable (ctx : DomainContext) (parent : Option Coor) (vertex : Vertex)

def consider_region (candidates : List Coor) (region : Coor) : Except IlpError (List Coor) :=
  if ¬ admits ctx.device parent vertex region then .ok candidates
  else do
    let total ← ok_or ctx.areas[region]? (.InvalidRegion region.region_name)
    if area_fits_on_device ctx.device vertex.area (ctx.available total region) then
      .ok (candidates ++ [region])
    else .ok candidates

def no_candidates_error : IlpError :=
  match vertex.required_tag with
  | some tag => anchor_unplaceable_error vertex tag ctx parent.isSome
  | none => .NoCandidates vertex.name

def vertex_domain : Except IlpError (List Coor) := do
  let candidates ← ctx.regions.foldlM (consider_region ctx parent vertex) []
  ensure (sorted_set candidates ≠ []) (no_candidates_error ctx parent vertex)
  .ok (sorted_set candidates)

end

/-- The candidates of every cluster, which has a region of an earlier pass as its
parent if there was one. -/
def candidate_domains (graph : FloorGraph) (ctx : DomainContext) (parents : Option (List Coor)) :
    Except IlpError (List (List Coor)) :=
  graph.vertices.zipIdx.mapM fun (vertex, index) =>
    vertex_domain ctx (parents.bind fun assignments => assignments[index]?) vertex

/-! ## Cuts -/

/-- A line that splits the regions, with the wires that may cross it. -/
structure Cut where
  name : Str
  lhs : List Coor
  rhs : List Coor
  capacity : Nat

def inclusive_range (start stop : Nat) : List Nat := List.range' start (stop + 1 - start)

/-- The declarations of the cells that face each other along the border of two regions. -/
def facing (lhs rhs : Coor) : List (Nat × Nat) :=
  let shared_x := inclusive_range (max lhs.dl_x rhs.dl_x) (min lhs.ur_x rhs.ur_x)
  let shared_y := inclusive_range (max lhs.dl_y rhs.dl_y) (min lhs.ur_y rhs.ur_y)
  let pair (a b : Option Slot) (near far : DirCaps → Nat) : Option (Nat × Nat) :=
    a.bind fun a => b.map fun b => (near a.wire_cap, far b.wire_cap)
  if lhs.is_south_neighbor_of rhs then
    shared_x.filterMap fun x =>
      pair (device.slot x lhs.ur_y) (device.slot x rhs.dl_y) DirCaps.north DirCaps.south
  else if lhs.is_north_neighbor_of rhs then
    shared_x.filterMap fun x =>
      pair (device.slot x lhs.dl_y) (device.slot x rhs.ur_y) DirCaps.south DirCaps.north
  else if lhs.is_west_neighbor_of rhs then
    shared_y.filterMap fun y =>
      pair (device.slot lhs.ur_x y) (device.slot rhs.dl_x y) DirCaps.east DirCaps.west
  else
    shared_y.filterMap fun y =>
      pair (device.slot lhs.dl_x y) (device.slot rhs.ur_x y) DirCaps.west DirCaps.east

def checked_add_u64 (a b : Nat) : Option Nat := if a + b < 2 ^ 64 then some (a + b) else none

/-- The wires along a border, unless one of its cells has no limit. -/
def border_capacity (lhs rhs : Coor) : Option Nat :=
  (facing device lhs rhs).foldlM (fun total (near, far) => do
    checked_add_u64 total (← bounded_border_capacity near far)) 0

/-- The wires along all borders of a cut, unless one of them has no limit. -/
def cut_capacity (lhs rhs : List Coor) : Option Nat :=
  let neighbors := (lhs.flatMap fun left => rhs.map fun right => (left, right)).filter
    fun (left, right) => left.is_neighbor right
  (neighbors.mapM fun (left, right) => border_capacity device left right).map List.sum

/-- The cut of two sides, if no region is split and it has a limit. -/
def clean_cut (all_regions : List Coor) (name : Str) (lhs rhs : List Coor) : Option Cut :=
  if lhs.length + rhs.length ≠ all_regions.length then none
  else (cut_capacity device lhs rhs).map fun capacity => ⟨name, lhs, rhs, capacity⟩

def horizontal_cut (regions : List Coor) (y : Nat) : Option Cut :=
  clean_cut device regions ("y=".toList ++ decimal y) (regions.filter fun region => region.ur_y ≤ y)
    (regions.filter fun region => region.dl_y > y)

def vertical_cut (regions : List Coor) (x : Nat) : Option Cut :=
  clean_cut device regions ("x=".toList ++ decimal x) (regions.filter fun region => region.ur_x ≤ x)
    (regions.filter fun region => region.dl_x > x)

def find_cuts_for_regions (regions : List Coor) : List Cut :=
  let max_x := (regions.map Coor.ur_x).foldl max 0
  let max_y := (regions.map Coor.ur_y).foldl max 0
  (List.range max_y).filterMap (horizontal_cut device regions) ++
    (List.range max_x).filterMap (vertical_cut device regions)

/-! ## The program -/

/-- A variable: whether a cluster takes a candidate, or an edge a pair of them. -/
inductive PlaceVar where
  | x (vertex candidate : Nat)
  | y (edge src dst : Nat)
deriving DecidableEq, Repr

abbrev PlaceModel : Type := LpModel PlaceVar

def domain_of (domains : List (List Coor)) (vertex : Nat) : List Coor := domains.getD vertex []

/-- A pair of candidates of the ends of an edge. -/
structure YTerm where
  ei : Nat
  edge : PlacementEdge
  src_ci : Nat
  src : Coor
  dst_ci : Nat
  dst : Coor

def YTerm.var (term : YTerm) : PlaceVar := .y term.ei term.src_ci term.dst_ci

def edge_y_terms (ei : Nat) (edge : PlacementEdge) (domains : List (List Coor)) : List YTerm :=
  (domain_of domains edge.src).zipIdx.flatMap fun (src, src_ci) =>
    (domain_of domains edge.dst).zipIdx.map fun (dst, dst_ci) =>
      { ei, edge, src_ci, src, dst_ci, dst }

def y_terms (graph : FloorGraph) (domains : List (List Coor)) : List YTerm :=
  graph.placement_edges.zipIdx.flatMap fun (edge, ei) => edge_y_terms ei edge domains

def x_row (domains : List (List Coor)) (vertex : Nat) : List PlaceVar :=
  (List.range (domain_of domains vertex).length).map (PlaceVar.x vertex)

section

variable (lp : PlaceModel) (graph : FloorGraph) (domains : List (List Coor))

def add_assignment_vars : PlaceModel :=
  graph.vertices.zipIdx.foldl (fun lp (_, vi) => lp.add_one_of_k_row (x_row domains vi)) lp

def add_edge_vars : PlaceModel :=
  graph.placement_edges.zipIdx.foldl (fun lp (edge, ei) =>
    lp.add_one_of_k_row ((edge_y_terms ei edge domains).map YTerm.var)) lp

/-- The row of one end of an edge: the terms with a candidate sum up to its variable. -/
def add_coupling_row (lp : PlaceModel) (terms : List YTerm) (var : PlaceVar) : PlaceModel :=
  lp.add_constraint (.sum ((terms.map fun term => (1, term.var)) ++ [(-1, var)])) .Eq 0

def add_edge_coupling (lp : PlaceModel) (domains : List (List Coor)) (entry : PlacementEdge × Nat) :
    PlaceModel :=
  let (edge, ei) := entry
  let terms := edge_y_terms ei edge domains
  let lp := (List.range (domain_of domains edge.src).length).foldl (fun lp src_ci =>
    add_coupling_row lp (terms.filter fun term => term.src_ci = src_ci) (.x edge.src src_ci)) lp
  (List.range (domain_of domains edge.dst).length).foldl (fun lp dst_ci =>
    add_coupling_row lp (terms.filter fun term => term.dst_ci = dst_ci) (.x edge.dst dst_ci)) lp

def add_coupling : PlaceModel :=
  graph.placement_edges.zipIdx.foldl (fun lp entry => add_edge_coupling lp domains entry) lp

/-- The registers that an edge takes in a region: one for each wire that leaves it
there, if the edge crosses at all. -/
def crossing_heads (region : Coor) (edge : PlacementEdge) (src dst : Coor) : Nat :=
  if src = dst then 0
  else if src = region then edge.forward_width
  else if dst = region then edge.reverse_width
  else 0

section

variable (graph : FloorGraph) (domains : List (List Coor)) (region : Coor)

def vertex_terms (resource : Resource) : List (ℚ × PlaceVar) :=
  graph.vertices.zipIdx.filterMap fun (vertex, vi) =>
    ((domain_of domains vi).idxOf? region).map fun ci =>
      ((resource.amount vertex.area : ℚ), PlaceVar.x vi ci)

def crossing_head_terms : List (ℚ × PlaceVar) :=
  (y_terms graph domains).filterMap fun term =>
    let heads := crossing_heads region term.edge term.src term.dst
    if heads > 0 then some ((heads : ℚ), term.var) else none

def resource_terms (resource : Resource) : List (ℚ × PlaceVar) :=
  vertex_terms graph domains region resource ++
    if resource = .Ff then crossing_head_terms graph domains region else []

end

def add_region_rows (graph : FloorGraph) (areas : RegionAreas)
    (domains : List (List Coor)) (usage_limit : ℚ) (limits : RegionResourceLimits)
    (lp : PlaceModel) (region : Coor) : Except IlpError PlaceModel := do
  let total ← ok_or areas[region]? (.InvalidRegion region.region_name)
  .ok ((Resource.ALL.filter device.plans_resource).foldl (fun lp resource =>
    lp.add_constraint (.sum (resource_terms graph domains region resource)) .Le
      (scaled_amount (resource.amount total) (limit_of limits usage_limit region resource))) lp)

def add_resource_constraints (lp : PlaceModel) (graph : FloorGraph)
    (areas : RegionAreas) (domains : List (List Coor)) (usage_limit : ℚ)
    (limits : RegionResourceLimits) : Except IlpError PlaceModel :=
  (sorted_set domains.flatten).foldlM
    (add_region_rows device graph areas domains usage_limit limits) lp

/-- The ends of an edge are on different sides. -/
def Cut.crosses (cut : Cut) (src dst : Coor) : Bool :=
  (cut.lhs.contains src && cut.rhs.contains dst) || (cut.rhs.contains src && cut.lhs.contains dst)

def add_cut_constraints (cuts : List Cut) : PlaceModel :=
  cuts.foldl (fun lp cut => lp.add_constraint
    (.sum (((y_terms graph domains).filter fun term => cut.crosses term.src term.dst).map
      fun term => ((term.edge.width : ℚ), term.var))) .Le cut.capacity) lp

end

def centroid_quarters (region : Coor) : Except IlpError (Int × Int) := do
  let dl ← ok_or (device.slot region.dl_x region.dl_y) (.InvalidRegion region.region_name)
  let ur ← ok_or (device.slot region.ur_x region.ur_y) (.InvalidRegion region.region_name)
  .ok (2 * (dl.centroid_x + ur.centroid_x), 2 * (dl.centroid_y + ur.centroid_y))

/-- Where a cluster is when it is placed in a region: at its terminal, or in the middle. -/
def location_quarters (vertex : Option Vertex) (region : Coor) : Int × Int :=
  ((vertex.bind Vertex.required_tag).bind device.anchor_position_quarters).getD
    ((centroid_quarters device region).toOption.getD (0, 0))

def distance_quarters (graph : FloorGraph) (edge : PlacementEdge) (src dst : Coor) : Int :=
  let src_location := location_quarters device graph.vertices[edge.src]? src
  let dst_location := location_quarters device graph.vertices[edge.dst]? dst
  |src_location.1 - dst_location.1| + VERTICAL_DIST_PENALTY * |src_location.2 - dst_location.2|

def objective_terms (graph : FloorGraph) (domains : List (List Coor)) : List (ℚ × PlaceVar) :=
  (y_terms graph domains).filterMap fun term =>
    let distance := distance_quarters device graph term.edge term.src term.dst
    if distance ≠ 0 then some (term.edge.width * distance / 4, term.var) else none

end

def add_objective (lp : PlaceModel) (graph : FloorGraph) (device : Device)
    (domains : List (List Coor)) : Except IlpError PlaceModel := do
  domains.flatten.forM fun region => (centroid_quarters device region).map fun _ => ()
  .ok (lp.set_objective ((LinExpr.sum (objective_terms device graph domains)).plus_constant 1))

def build_model (graph : FloorGraph) (device : Device) (domains : List (List Coor))
    (areas : RegionAreas) (cuts : List Cut) (usage_limit : ℚ) (limits : RegionResourceLimits) :
    Except IlpError PlaceModel := do
  let lp := add_coupling (add_edge_vars (add_assignment_vars .new graph domains) graph domains)
    graph domains
  let lp ← add_resource_constraints device lp graph areas domains usage_limit limits
  add_objective (add_cut_constraints lp graph domains cuts) graph device domains

/-- The region that each cluster has selected. -/
def read_back (graph : FloorGraph) (domains : List (List Coor)) (solution : LpSolution PlaceVar) :
    Except IlpError (List Coor) :=
  graph.vertices.zipIdx.mapM fun (vertex, vi) => do
    let selected ← (read_one_of_k (fun ci => reading (solution.values (.x vi ci)))
      (domain_of domains vi).length).mapError (.InvalidSelection vertex.name)
    .ok ((domain_of domains vi).getD selected ⟨0, 0, 0, 0⟩)

/-! ## The assignment -/

/-- The resources that are used in each slot. -/
abbrev Usage : Type := BTreeMap Cell Area

/-- A placement into single slots, with the resources of the clusters in each. -/
structure Assignment where
  regions : List Cell
  slot_usage : Usage

def place_vertex (a : Assignment) (entry : Vertex × Coor) : Except IlpError Assignment := do
  let (vertex, slot) := entry
  ensure (slot.width = 1 ∧ slot.height = 1)
    (.InvalidSolution ("vertex ".toList ++ quoted vertex.name ++
      " remained in non-atomic region ".toList ++ quoted slot.region_name))
  let cell := (slot.dl_x, slot.dl_y)
  if vertex.materialize then
    let total ← ok_or ((a.slot_usage.getD cell 0).checked_add vertex.area)
      (.InvalidSolution ("resource accounting overflows in ".toList ++ quoted slot.region_name))
    pure ⟨a.regions ++ [cell], a.slot_usage.insert cell total⟩
  else pure ⟨a.regions ++ [cell], a.slot_usage⟩

def complete_assignment (g : FloorGraph) (placements : List Coor) : Except IlpError Assignment :=
  (g.vertices.zip placements).foldlM place_vertex ⟨[], ∅⟩

end Tapa.Floorplan
