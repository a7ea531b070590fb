-- The paths over the device grid (`paths.rs`, `route/ilp.rs`): every simple path of a
-- few extra hops is a candidate, and the solver picks one for each net. What it
-- answers is checked before it is used.
import Tapa.Device
import Tapa.LinearProgram

namespace Tapa.Floorplan

open Ir Text Fallible LinearProgram

/-! ## Candidate paths -/

def abs_diff (a b : Nat) : Nat := if a < b then b - a else a - b

def manhattan (a b : Cell) : Nat := abs_diff a.1 b.1 + abs_diff a.2 b.2

def wrapping_pred (n : Nat) : Nat := (n + (2 ^ 32 - 1)) % 2 ^ 32

def neighbours (cell : Cell) : List Cell :=
  [(cell.1 + 1, cell.2), (cell.1, cell.2 + 1), (wrapping_pred cell.1, cell.2),
    (cell.1, wrapping_pred cell.2)]

/-- The simple paths to `dst` that go on from a path, given from its end, with the hops that
are left. -/
def visit (dst : Cell) (in_bounds : Cell → Bool) : Nat → Cell → List Cell → List (List Cell)
  | hops, current, before =>
    if current = dst then [(current :: before).reverse]
    else if manhattan current dst > hops then []
    else match hops with
      | 0 => []
      | hops + 1 => (neighbours current).flatMap fun next =>
        if ¬ in_bounds next ∨ next ∈ current :: before then []
        else visit dst in_bounds hops next (current :: before)

/-- Shorter paths stand first, paths of one length in the order of their cells. -/
def path_le (a b : List Cell) : Prop :=
  a.length < b.length ∨ a.length = b.length ∧ (compare a b).isLE = true

instance : DecidableRel path_le := fun a b => by
  unfold path_le
  infer_instance

/-- Every simple path of the grid within `max_detour` extra hops. -/
def enumerate_paths (src dst : Cell) (grid_cols grid_rows max_detour : Nat) : List (List Cell) :=
  let in_bounds : Cell → Bool := fun cell => cell.1 < grid_cols ∧ cell.2 < grid_rows
  if ¬ in_bounds src ∨ ¬ in_bounds dst then []
  else (visit dst in_bounds (manhattan src dst + max_detour) src []).insertionSort path_le

/-! ## Routing -/

def MAX_DETOUR : Nat := 2

structure RouteNet where
  src : Cell
  dst : Cell
  width : Nat

/-- Why an answer of the solver is refused. -/
inductive SolutionFault where
  | omitted (net candidate : Nat)
  | not_binary (net candidate : Nat)
  | none_selected (net : Nat)
  | several_selected (net : Nat)
  | over_capacity (a b : Cell) (crossing capacity : Nat)
deriving DecidableEq, Repr

inductive RouteError where
  | Solver
  | Infeasible (reason : Str)
  | NoIncumbent
  | InvalidEndpoint (net_index : Nat) (endpoint : Str) (cell_x cell_y : Nat)
  | InvalidPath (net_index : Nat) (reason : Str)
  | InvalidSolution (fault : SolutionFault)
deriving DecidableEq, Repr

/-- The border of two slots, with the wires that may cross it. -/
structure Boundary where
  a : Cell
  b : Cell
  capacity : Option Nat

/-- The borders of a slot with the next slots to the east and to the north. -/
def slot_boundaries (device : Device) (x y : Nat) : List Boundary :=
  match device.slot x y with
  | none => []
  | some slot =>
    (match device.slot (x + 1) y with
      | some right => if x + 1 < device.cols then [⟨(x, y), (x + 1, y),
          bounded_border_capacity slot.wire_cap.east right.wire_cap.west⟩] else []
      | none => []) ++
    (match device.slot x (y + 1) with
      | some up => if y + 1 < device.rows then [⟨(x, y), (x, y + 1),
          bounded_border_capacity slot.wire_cap.north up.wire_cap.south⟩] else []
      | none => [])

def boundaries (device : Device) : List Boundary :=
  (List.range device.rows).flatMap fun y =>
    (List.range device.cols).flatMap fun x => slot_boundaries device x y

def hops (path : List Cell) : List (Cell × Cell) := path.zip path.tail

def path_crosses (path : List Cell) (boundary : Boundary) : Bool :=
  (hops path).any fun hop =>
    (hop.1 = boundary.a ∧ hop.2 = boundary.b) ∨ (hop.1 = boundary.b ∧ hop.2 = boundary.a)

def validate_path (net_index : Nat) (net : RouteNet) (path : List Cell) (device : Device) :
    Except RouteError Unit := do
  let invalid (reason : Str) : RouteError := .InvalidPath net_index reason
  ensure (path.head? = some net.src) (invalid ("path must start at ".toList ++ cell_debug net.src))
  ensure (path.getLast? = some net.dst) (invalid ("path must end at ".toList ++ cell_debug net.dst))
  refuse (path.find? fun cell => (device.slot cell.1 cell.2).isNone) fun cell =>
    invalid ("slot ".toList ++ cell_debug cell ++ " is outside the device".toList)
  ensure path.Nodup (invalid "path revisits a slot".toList)
  refuse ((hops path).find? fun hop => manhattan hop.1 hop.2 ≠ 1) fun hop =>
    invalid ("non-adjacent hop ".toList ++ cell_debug hop.1 ++ " -> ".toList ++ cell_debug hop.2)

/-- Both ends of every net are slots of the device. -/
def validate_nets (nets : List RouteNet) (device : Device) : Except RouteError Unit :=
  nets.zipIdx.forM fun (net, net_index) =>
    [("source".toList, net.src), ("destination".toList, net.dst)].forM fun (endpoint, cell) =>
      ensure (device.slot cell.1 cell.2).isSome (.InvalidEndpoint net_index endpoint cell.1 cell.2)

/-- The candidates of one net. Nets with the same ends have the same ones. -/
def net_candidates (device : Device) (net : RouteNet) (net_index : Nat) :
    Except RouteError (List (List Cell)) := do
  let paths := enumerate_paths net.src net.dst device.cols device.rows MAX_DETOUR
  ensure (paths ≠ []) (.Infeasible ("net ".toList ++ decimal net_index ++
    " has no path from ".toList ++ cell_debug net.src ++ " to ".toList ++ cell_debug net.dst ++
    " within ".toList ++ decimal MAX_DETOUR ++ " extra hops".toList))
  paths.forM fun path => validate_path net_index net path device
  pure paths

def candidates_for (nets : List RouteNet) (device : Device) :
    Except RouteError (List (List (List Cell))) :=
  nets.zipIdx.mapM fun (net, net_index) => net_candidates device net net_index

def selection_fault (net_index : Nat) : OneOfKError → RouteError
  | .MissingVariable position => .InvalidSolution (.omitted net_index position)
  | .NonBinary position => .InvalidSolution (.not_binary net_index position)
  | .SelectionCount 0 => .InvalidSolution (.none_selected net_index)
  | .SelectionCount _ => .InvalidSolution (.several_selected net_index)

/-- The answer of the solver: the value of every path variable, by net and candidate. -/
abbrev Answer : Type := Nat → Nat → Reading

def selected_route (answer : Answer) (paths : List (List Cell)) (net_index : Nat) :
    Except RouteError (List Cell) := do
  let path_index ← (read_one_of_k (answer net_index) paths.length).mapError
    (selection_fault net_index)
  pure (paths.getD path_index [])

def selected_routes (candidates : List (List (List Cell))) (answer : Answer) :
    Except RouteError (List (List Cell)) :=
  candidates.zipIdx.mapM fun (paths, net_index) => selected_route answer paths net_index

/-- No border carries more wires than it may. -/
def validate_within_capacity (nets : List RouteNet) (routes : List (List Cell))
    (limits : List Boundary) : Except RouteError Unit :=
  limits.forM fun boundary =>
    match boundary.capacity with
    | none => pure ()
    | some capacity =>
      let crossing := (((nets.zip routes).filter fun p => path_crosses p.2 boundary).map
        fun p => p.1.width).sum
      ensure (crossing ≤ capacity)
        (.InvalidSolution (.over_capacity boundary.a boundary.b crossing capacity))

/-- The solver with the model that it is given: the nets and their candidates. -/
abbrev Solver : Type := List RouteNet → List (List (List Cell)) → Except RouteError Answer

def route_nets (nets : List RouteNet) (device : Device) (solver : Solver) :
    Except RouteError (List (List Cell)) :=
  if nets = [] then .ok []
  else do
    validate_nets nets device
    let candidates ← candidates_for nets device
    let answer ← solver nets candidates
    let routes ← selected_routes candidates answer
    validate_within_capacity nets routes (boundaries device)
    pure routes

/-! ## What a route is -/

/-- A path of the device from one slot to another. -/
structure IsRoute (device : Device) (src dst : Cell) (path : List Cell) : Prop where
  head : path.head? = some src
  last : path.getLast? = some dst
  slots : ∀ cell ∈ path, (device.slot cell.1 cell.2).isSome = true
  nodup : path.Nodup
  adjacent : ∀ hop ∈ hops path, manhattan hop.1 hop.2 = 1

end Tapa.Floorplan
