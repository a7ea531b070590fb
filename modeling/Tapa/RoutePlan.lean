-- The pipeline plan (`pipeline/plan.rs`): the channels between different slots are
-- routed together, and a reset goes with the launch of its child. Every channel that
-- crosses gets one route, and no other channel gets one.
import Tapa.FloorSound
import Tapa.Routing

namespace Tapa.Floorplan

open Ir Text Fallible

inductive PipelineError where
  | Route (error : RouteError)
  | BadRegion (region : Str)
  | Accounting (link detail : Str)
  | RealizedCapacity (region resource : Str) (used limit : Nat)
deriving DecidableEq, Repr

def accounting_error (link detail : Str) : PipelineError := .Accounting link detail

/-! ## Body registers -/

/-- The registers of each cell of a path when both ends of a vertical hop have one more. -/
def multiplicities (route : List Cell) : List Nat :=
  (hops route).zipIdx.foldl (fun multiplicity (hop, index) =>
    if hop.1.2 ≠ hop.2.2 then (multiplicity.modify index (· + 1)).modify (index + 1) (· + 1)
    else multiplicity) (List.replicate route.length 1)

/-- The cells of the Body registers along a path. -/
def pipeline_reg_cells (route : List Cell) (scheme : PipelineScheme) : List Cell :=
  if route.length < 2 then []
  else match scheme with
    | .Single => (route.drop 1).dropLast
    | .Double => (hops route).flatMap fun hop => [hop.1, hop.2]
    | .SingleHDoubleV =>
      let expanded := (route.zip (multiplicities route)).flatMap fun (cell, count) =>
        List.replicate count cell
      (expanded.drop 1).dropLast

/-! ## Planning -/

/-- A route before it is published. -/
structure PlannedRoute where
  channel : RoutedChannel
  route : List Cell
  scheme : PipelineScheme
  reg_regions : List Cell
deriving DecidableEq, Repr

/-- A net for the router, with the channel that shares its path. -/
structure PendingNet where
  channel : RoutedChannel
  shared_channels : Option RoutedChannel
  src : Cell
  dst : Cell
  width : Nat

/-- The slots of the two clusters, when they differ. -/
def crossing_cells (regions : List Cell) (src dst : Nat) : Option (Cell × Cell) :=
  match regions[src]?, regions[dst]? with
  | some src, some dst => if src ≠ dst then some (src, dst) else none
  | _, _ => none

def pending_stream (regions : List Cell) (edge : Stream) : Option PendingNet :=
  (crossing_cells regions edge.src edge.dst).map fun (src, dst) =>
    ⟨.Stream edge.link, none, src, dst, edge.width⟩

def pending_axi (regions : List Cell) (edge : AxiNet) : Option PendingNet :=
  (crossing_cells regions edge.src edge.dst).map fun (src, dst) =>
    ⟨.Axi edge.endpoint edge.bank edge.channel, none, src, dst, edge.width⟩

/-- The reset that runs beside a launch. -/
def matching_reset (g : FloorGraph) (edge : ControlNet) : Option ControlNet :=
  g.control_nets.find? fun candidate => candidate.inst = edge.inst ∧
    candidate.channel = .Reset ∧ candidate.src = edge.src ∧ candidate.dst = edge.dst

/-- The net of a launch or of a completion between two slots. -/
def crossing_control (g : FloorGraph) (edge : ControlNet) (src dst : Cell) :
    Except PipelineError PendingNet :=
  if edge.channel = .Launch then do
    let reset ← ok_or (matching_reset g edge)
      (.Accounting edge.inst "Launch control has no matching Reset channel".toList)
    let width ← ok_or (checked_add_u32 edge.width reset.width)
      (.Accounting edge.inst "combined Launch/Reset routing width overflows u32".toList)
    pure ⟨.Control edge.inst edge.channel, some (.Control reset.inst reset.channel), src, dst,
      width⟩
  else pure ⟨.Control edge.inst edge.channel, none, src, dst, edge.width⟩

section

variable (g : FloorGraph) (regions : List Cell)

/-- A reset has no net of its own. -/
def pending_control (edge : ControlNet) : Except PipelineError (Option PendingNet) :=
  if edge.channel = .Reset then .ok none
  else match crossing_cells regions edge.src edge.dst with
    | none => .ok none
    | some (src, dst) => (crossing_control g edge src dst).map some

def cross_slot_nets : Except PipelineError (List PendingNet) := do
  let control ← g.control_nets.mapM (pending_control g regions)
  pure (g.streams.filterMap (pending_stream regions) ++
    g.axi_nets.filterMap (pending_axi regions) ++
    control.filterMap id)

def PendingNet.toRouteNet (net : PendingNet) : RouteNet := ⟨net.src, net.dst, net.width⟩

/-- The channels of a net, on the path that it is given. -/
def planned_routes (scheme : PipelineScheme) (net : PendingNet) (route : List Cell) :
    List PlannedRoute :=
  (net.channel :: net.shared_channels.toList).map fun channel =>
    ⟨channel, route, scheme, pipeline_reg_cells route scheme⟩

def plan_routes (device : Device) (scheme : PipelineScheme)
    (solver : Solver) : Except PipelineError (List PlannedRoute) := do
  ensure (regions.length = g.vertices.length)
    (accounting_error "placement".toList "every graph vertex needs exactly one slot".toList)
  let nets ← cross_slot_nets g regions
  let routes ← (route_nets (nets.map PendingNet.toRouteNet) device solver).mapError .Route
  pure ((nets.zip routes).flatMap fun (net, route) => planned_routes scheme net route)

/-! ## The channels that cross -/

theorem crossing_cells_eq_some {regions : List Cell} {src dst : Nat} {a b : Cell} :
    crossing_cells regions src dst = some (a, b) ↔
      regions[src]? = some a ∧ regions[dst]? = some b ∧ a ≠ b := by
  unfold crossing_cells
  split
  · rename_i x y hx hy
    split
    · rename_i hne
      simp only [Option.some.injEq, Prod.mk.injEq, hx, hy]
      exact ⟨fun ⟨h1, h2⟩ => ⟨h1, h2, h1 ▸ h2 ▸ hne⟩, fun ⟨h1, h2, _⟩ => ⟨h1, h2⟩⟩
    · rename_i heq
      simp only [reduceCtorEq, hx, hy, Option.some.injEq, false_iff]
      rintro ⟨rfl, rfl, hne⟩
      exact heq hne
  · rename_i hnone
    simp only [reduceCtorEq, false_iff]
    rintro ⟨h1, h2, _⟩
    exact hnone a b h1 h2

/-- The channels between different slots. -/
def FloorGraph.crossing : List Channel :=
  g.channels.filter fun c => (crossing_cells regions c.src c.dst).isSome

end

/-- One route for every channel between different slots, at the slots of its clusters. -/
structure OneRouteEach (g : FloorGraph) (regions : List Cell) (routes : List PlannedRoute) :
    Prop where
  each : (routes.map PlannedRoute.channel).Perm ((g.crossing regions).map Channel.channel)
  ends : ∀ r ∈ routes, ∀ c ∈ g.channels, c.channel = r.channel →
    r.route.head? = regions[c.src]? ∧ r.route.getLast? = regions[c.dst]?

end Tapa.Floorplan
