-- The Head registers of a placement (`add_crossing_head_terms` of `partition/ilp.rs`): the
-- flip-flops that the placement keeps back in a slot for the channels that leave it are the
-- ones that the accounting of the routes charges there.
import Tapa.PlacementSearch
import Tapa.RegisterBudget

namespace Tapa.Floorplan

open Ir Text Fallible LinearProgram Ledger

def slot_regions (regions : List Cell) : List Coor := regions.map fun cell => .slot cell.1 cell.2

/-- A channel between two clusters that leaves its slot here. -/
def leaves (regions : List Cell) (cell : Cell) (src dst : Nat) : Bool :=
  regions[src]? = some cell ∧ (crossing_cells regions src dst).isSome

section Reserve

variable {flat : TaskGraph} {memory : List MemoryInterface} {control : Option ControlInterface}
  {anchor : Option Str} {projection : Option FlatProjection} {g : FloorGraph}
  {regions : List Cell} {routes : List PlannedRoute}

theorem region_of_slot_regions {vi : Nat} (h : vi < regions.length) :
    region_of (slot_regions regions) vi = .slot regions[vi].1 regions[vi].2 := by
  simp [region_of, slot_regions, h]

theorem slot_inj {a b : Cell} : Coor.slot a.1 a.2 = .slot b.1 b.2 ↔ a = b := by
  simp only [Coor.slot, Coor.mk.injEq, Prod.ext_iff]
  omega

/-- An edge takes its wires where they leave. -/
theorem crossing_heads_eq {edge : PlacementEdge} (hsrc : edge.src < regions.length)
    (hdst : edge.dst < regions.length) (cell : Cell) :
    crossing_heads (.slot cell.1 cell.2) edge (region_of (slot_regions regions) edge.src)
      (region_of (slot_regions regions) edge.dst) =
      (if leaves regions cell edge.src edge.dst then edge.forward_width else 0) +
        if leaves regions cell edge.dst edge.src then edge.reverse_width else 0 := by
  rw [region_of_slot_regions hsrc, region_of_slot_regions hdst]
  unfold crossing_heads
  simp only [slot_inj, leaves, crossing_cells, List.getElem?_eq_getElem hsrc,
    List.getElem?_eq_getElem hdst, Option.some.injEq]
  by_cases hsame : regions[edge.src] = regions[edge.dst]
  · simp [hsame]
  have hsame' : ¬ regions[edge.dst] = regions[edge.src] := fun h => hsame h.symm
  by_cases hfirst : regions[edge.src] = cell
  · have hlast : ¬ regions[edge.dst] = cell := fun h => hsame (hfirst.trans h.symm)
    simp [hfirst, hlast]
  · simp [hsame, hsame', hfirst]

/-- The registers that the placement keeps back are the wires of the nets that leave a slot. -/
theorem head_usage_eq (hbuild : build_with_scopes flat memory control anchor projection = .ok g)
    (hlen : regions.length = g.vertices.length) (cell : Cell) :
    head_usage g (slot_regions regions) (.slot cell.1 cell.2) =
      nets_across (leaves regions cell) g.nets := by
  obtain ⟨b, hedges, hacc⟩ := build_with_scopes_accumulates hbuild
  rw [← hacc.directed, head_usage]
  have hterm : ∀ edge ∈ g.placement_edges,
      crossing_heads (.slot cell.1 cell.2) edge (region_of (slot_regions regions) edge.src)
        (region_of (slot_regions regions) edge.dst) =
        directed_width (leaves regions cell)
          ((edge.src, edge.dst), ⟨edge.forward_width, edge.reverse_width⟩) := by
    intro edge hedge
    obtain ⟨hsrc, hdst⟩ := edges_between_clusters hbuild edge hedge
    exact crossing_heads_eq (by omega) (by omega) cell
  rw [List.map_congr_left hterm, hedges, Builder.placement_edges, List.map_map]
  rfl

theorem Net.head_ff (n : Net) : n.head.ff = n.width := by cases n <;> rfl

/-- The wires of a channel that starts in a slot. -/
def started (g : FloorGraph) (regions : List Cell) (cell : Cell) (channel : RoutedChannel) : Nat :=
  match g.net channel with
  | some n => if regions[n.toChannel.src]? = some cell then n.width else 0
  | none => 0

theorem started_eq (hg : g.Sound) {n : Net} (hn : n ∈ g.nets) (cell : Cell) :
    started g regions cell n.toChannel.channel =
      if regions[n.toChannel.src]? = some cell then n.width else 0 := by
  unfold started
  rw [hg.net_eq hn]

/-- The Heads that the accounting charges to a slot are the wires of the nets that leave it. -/
theorem OneRouteEach.heads_ff (hg : g.Sound) (h : OneRouteEach g regions routes) (cell : Cell) :
    (heads g routes cell).ff = nets_across (leaves regions cell) g.nets := by
  have hroutes : (routes.map fun r => if r.route.head? = some cell then
      ((g.net r.channel).map Net.head).getD 0 else 0).map Area.ff =
      (routes.map PlannedRoute.channel).map (started g regions cell) := by
    rw [List.map_map, List.map_map]
    refine List.map_congr_left fun r hr => ?_
    obtain ⟨n, hn, hch, first, last, _, hroute⟩ := h.routeOf hr
    rw [Function.comp_apply, Function.comp_apply, ← hch, started_eq hg hn, hg.net_eq hn,
      hroute.starts, hroute.src]
    split
    · exact n.head_ff
    · rfl
  have hcrossing : ((g.crossing regions).map Channel.channel).map (started g regions cell) =
      (g.nets.filter fun n => (crossing_cells regions n.toChannel.src n.toChannel.dst).isSome).map
        fun n => if leaves regions cell n.toChannel.src n.toChannel.dst then n.width else 0 := by
    rw [FloorGraph.crossing, g.channels_eq, List.filter_map, List.map_map, List.map_map]
    refine List.map_congr_left fun n hn => ?_
    obtain ⟨hn, hcross⟩ := List.mem_filter.mp hn
    have hcross : (crossing_cells regions n.toChannel.src n.toChannel.dst).isSome = true := hcross
    rw [Function.comp_apply, Function.comp_apply, started_eq hg hn]
    simp [leaves, hcross]
  rw [heads, ff_sum, hroutes, (h.each.map _).sum_eq, hcrossing]
  exact nets_across_filter (fun n hn => (of_decide_eq_true hn).2) g.nets

end Reserve

/-- A placement keeps back the Head registers that are charged later: at a placement of a built
graph into slots, the terms for crossings in the flip-flop row of a slot add up to the
flip-flops of the Heads there, so that the realized usage of the slot contains this sum. -/
theorem placement_keeps_back_the_heads {flat : TaskGraph} {memory : List MemoryInterface}
    {control : Option ControlInterface} {anchor : Option Str} {projection : Option FlatProjection}
    {g : FloorGraph} (hbuild : build_with_scopes flat memory control anchor projection = .ok g)
    {regions : List Cell} (hlen : regions.length = g.vertices.length)
    {domains : List (List Coor)} (hdomains : domains.length = g.vertices.length)
    (hnodup : ∀ domain ∈ domains, domain.Nodup) {σ : PlaceVar → ℚ}
    (hsel : Selects domains σ (slot_regions regions)) (hprod : Products g domains σ)
    {routes : List PlannedRoute} (hroutes : OneRouteEach g regions routes) (cell : Cell) :
    let reserved := ((crossing_head_terms g domains (.slot cell.1 cell.2)).map fun term =>
      term.1 * σ term.2).sum
    reserved = ((heads g routes cell).ff : ℚ) ∧
      ∀ (baseline usage : Usage) (device : Device) (capacity_limit : ℚ),
        IsBaseline g regions baseline →
        realize_slot_usage g regions baseline routes device capacity_limit = .ok usage →
        ((usage.getD cell 0).ff : ℚ) + (estimates g regions cell).ff =
          (baseline.getD cell 0).ff + ((tails g routes cell).ff + reserved +
            (bodies g routes cell).ff) := by
  intro reserved
  have hg := build_with_scopes_sound hbuild
  have hreserved : reserved = ((heads g routes cell).ff : ℚ) := by
    rw [hroutes.heads_ff hg, ← head_usage_eq hbuild hlen]
    exact eval_crossing_head_terms ⟨hdomains, hnodup, edges_between_clusters hbuild⟩ hsel hprod _
  refine ⟨hreserved, fun baseline usage device capacity_limit hbase hrealize => ?_⟩
  simp only [realize_slot_usage, realize_slot_usage_with_resource_caps, bind_eq_ok] at hrealize
  obtain ⟨usage', haccount, _, _, heq⟩ := hrealize
  cases heq
  have hbalance := congrArg Area.ff
    (account_routes_balance hg hroutes hlen hbase haccount cell)
  rw [hreserved]
  exact_mod_cast hbalance

/-- The FIFO that crosses from one slot to the next takes 35 flip-flops in the first. -/
theorem a_crossing_fifo_is_kept_back :
    ((crossing_head_terms handOverGraph [[.slot 0 0], [.slot 0 1]] (.slot 0 0)).map fun term =>
      term.1 * selection handOverGraph [[.slot 0 0], [.slot 0 1]]
        (slot_regions [(0, 0), (0, 1)]) term.2).sum =
      ((heads handOverGraph [handOverRoute] (0, 0)).ff : ℚ) ∧
    (heads handOverGraph [handOverRoute] (0, 0)).ff = 35 := by
  have hbuild : build_with_scopes handOver [] none none none = .ok handOverGraph := eq_ok_get rfl
  have hnodup : ∀ domain ∈ [[Coor.slot 0 0], [Coor.slot 0 1]], domain.Nodup := by decide
  have hroutes : OneRouteEach handOverGraph [(0, 0), (0, 1)] [handOverRoute] :=
    ⟨by decide, by decide⟩
  refine ⟨(placement_keeps_back_the_heads hbuild rfl rfl hnodup
    (selection_selects handOverGraph hnodup (by simp [slot_regions])) selection_products hroutes
    (0, 0)).1, by decide⟩

end Tapa.Floorplan
