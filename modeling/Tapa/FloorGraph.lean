-- The placement graph (`floor_graph.rs`, `validate.rs`): the clusters that are
-- placed, the channels between them, and the checks of names and of memory
-- interfaces that every construction makes.
import Tapa.Flatten
import Tapa.Floorplan

namespace Tapa.Floorplan

open Ir Text Fallible

/-! ## The graph -/

/-- A memory interface of a child with the bank that it is bound to. -/
structure MemoryInterface where
  endpoint : AxiEndpoint
  bank : MemoryBank
  channel_widths : AxiChannelWidths
  bridge_instance : Option Str
deriving DecidableEq, Repr

structure ControlInterface where
  has_s_axi_control : Bool
deriving DecidableEq, Repr

/-- A cluster that is placed as a whole. A memory bank is one that names no RTL. -/
structure Vertex where
  name : Str
  area : Area
  required_tag : Option Str
  materialize : Bool
deriving DecidableEq, Repr

structure PlacementEdge where
  src : Nat
  dst : Nat
  width : Nat
  forward_width : Nat
  reverse_width : Nat
deriving DecidableEq, Repr

/-- A FIFO between two clusters. Its storage is `data_width` wide. -/
structure Stream where
  link : Str
  src : Nat
  dst : Nat
  width : Nat
  data_width : Nat
  depth : Nat
deriving DecidableEq, Repr

structure AxiNet where
  endpoint : AxiEndpoint
  bank : MemoryBank
  channel : AxiChannel
  src : Nat
  dst : Nat
  width : Nat
  payload_width : Nat
deriving DecidableEq, Repr

structure ControlNet where
  inst : Str
  channel : ControlChannel
  src : Nat
  dst : Nat
  width : Nat
deriving DecidableEq, Repr

/-- An RTL instance that is placed with a cluster. -/
structure CoLocatedInstance where
  name : Str
  host : Nat
deriving DecidableEq, Repr

structure FloorGraph where
  vertices : List Vertex
  placement_edges : List PlacementEdge
  streams : List Stream
  axi_nets : List AxiNet
  control_nets : List ControlNet
  index : BTreeMap Str Nat
  co_located : List CoLocatedInstance

inductive GraphError where
  | MissingTop (name : Str)
  | MissingTaskDef (name : Str)
  | UnresolvedFifoWidth (fifo : Str)
  | FifoWidthMismatch (fifo : Str) (producer consumer : Nat)
  | NameConflict (name first second : Str)
  | UnanchoredFifo (fifo : Str)
  | DanglingFifoEndpoint (fifo role definition : Str) (index : Nat)
  | ResourceOverflow (fifo : Str)
  | PlacementWidthOverflow (channel : Str)
  | MissingHostRegion (inst host : Str)
  | MissingMemoryInterface (inst port top_port : Str)
  | UnknownMemoryInterface (inst port top_port : Str)
  | DuplicateMemoryInterface (inst port : Str)
  | UnsupportedMemoryInterface (port detail : Str)
  | InvalidAxiWidth (inst port : Str) (channel : AxiChannel) (width : Nat)
  | UnrepresentableStreamName (fifo rtl : Str)
  | DuplicateVertex (name : Str)
  | DuplicateCanonicalName (name : Str)
  | SanitizedNameCollision (first second sanitized : Str)
  | GeneratedNameCollision (generated existing : Str)
  | ScalarMetadata (inst port detail : Str)
  | ControlWidthOverflow (inst : Str) (channel : ControlChannel)
deriving DecidableEq, Repr

def CONTROL_S_AXI_INSTANCE : Str := "control_s_axi_U".toList

/-- The estimate of a FIFO: distributed memory below a depth of 128, block memory from there. -/
def fifo_area (width depth : Nat) : Area :=
  let log_term := 3 * (max depth 1).log2
  if depth < 128 then
    { lut := width + width * (depth - 1) / 16 + (15 + log_term)
      ff := 7 + log_term
      bram_18k := 0, dsp := 0, uram := 0 }
  else
    let count := depth / 512 + 1
    { lut := width * count, ff := 0, bram_18k := width * count / 18, dsp := 0, uram := 0 }

/-! ## Children -/

/-- An invocation under the flattened top, with its name and its index. -/
structure Child where
  definition : Str
  canonical : Str
  index : Nat
  inst : TaskInstance

def child_instances (top : Task) : List Child :=
  top.invocations.map fun (definition, index, inst) =>
    ⟨definition, inst.canonical_name definition index, index, inst⟩

/-! ## Claims of names -/

/-- Who holds a name, and how a message calls them. -/
structure OccupiedName where
  owner : Str
  description : Str
deriving DecidableEq, Repr

abbrev Occupied : Type := BTreeMap Str OccupiedName

/-- Claim a name. One owner may claim a name again, another may not. -/
def occupy (owner description : Str) (occupied : Occupied) (name : Str) :
    Except GraphError Occupied :=
  match occupied[name]? with
  | some existing =>
    if existing.owner = owner then .ok occupied
    else .error (.NameConflict name existing.description description)
  | none => .ok (occupied.insert name ⟨owner, description⟩)

def occupy_vertex (occupied : Occupied) (vertex : Vertex) : Except GraphError Occupied :=
  [vertex.name, sanitize_identifier_name vertex.name].foldlM
    (occupy ("vertex:".toList ++ vertex.name) ("placement vertex ".toList ++ quoted vertex.name))
    occupied

/-- The instance that code generation names a FIFO with. -/
def fifo_rtl_name (fifo : Str) : Str := sanitize_array_name fifo ++ "_fifo".toList

def occupy_stream (occupied : Occupied) (fifo : Str) : Except GraphError Occupied :=
  if sanitize_identifier_name (fifo_rtl_name fifo) ≠ fifo_rtl_name fifo then
    .error (.UnrepresentableStreamName fifo (fifo_rtl_name fifo))
  else
    [fifo, fifo_rtl_name fifo].foldlM
      (occupy ("stream:".toList ++ fifo) ("stream ".toList ++ quoted fifo)) occupied

/-- A FIFO has its name already, so its alias is not another claim. -/
def occupy_alias (top : Task) (occupied : Occupied) (inst : CoLocatedInstance) :
    Except GraphError Occupied :=
  if inst.name ∈ top.fifos then .ok occupied
  else
    [inst.name, sanitize_identifier_name inst.name].foldlM
      (occupy ("alias:".toList ++ inst.name)
        ("co-located RTL instance ".toList ++ quoted inst.name)) occupied

def occupied_rtl_names (top : Task) (vertices : List Vertex)
    (co_located : List CoLocatedInstance) : Except GraphError Occupied := do
  let occupied ← vertices.foldlM occupy_vertex ∅
  let occupied ← top.fifos.keys.foldlM occupy_stream occupied
  co_located.foldlM (occupy_alias top) occupied

/-- Claim a generated name, which nobody may hold. -/
def reserve_generated_name (occupied : Occupied) (entry : Str × Str) :
    Except GraphError Occupied :=
  match occupied[entry.1]? with
  | some existing => .error (.GeneratedNameCollision entry.1 existing.description)
  | none => .ok (occupied.insert entry.1 ⟨entry.1, entry.2⟩)

/-- The pipelines of a memory interface, one for each channel. -/
def axi_pipeline_names (interface : MemoryInterface) : List (Str × Str) :=
  interface.channel_widths.enabled_channels.map fun (channel, _) =>
    (axi_pipeline_instance_name interface.endpoint channel,
      channel.debug ++ " AXI pipeline for ".toList ++ quoted interface.endpoint.top_port)

def reserve_axi_pipeline_names (occupied : Occupied) (interface : MemoryInterface) :
    Except GraphError Occupied :=
  (axi_pipeline_names interface).foldlM reserve_generated_name occupied

/-- Two children with one RTL name cannot be placed apart. -/
def validate_sanitized_instance_names (top : Task) : Except GraphError Unit := do
  let _ ← (child_instances top).foldlM (fun (seen : BTreeMap Str Str) child =>
    let sanitized := sanitize_identifier_name child.canonical
    match seen[sanitized]? with
    | some first =>
      if first ≠ child.canonical then
        .error (.SanitizedNameCollision first child.canonical sanitized)
      else .ok (seen.insert sanitized child.canonical)
    | none => .ok (seen.insert sanitized child.canonical)) ∅
  pure ()

/-! ## Control names -/

/-- The channels of a child: one that is not joined has no completion. -/
def control_channels (inst : TaskInstance) : List ControlChannel :=
  [.Launch, .Reset] ++ if inst.step ≥ 0 then [.Completion] else []

def child_control_names (child : Child) : List (Str × Str) :=
  (local_controller_instance_name child.canonical,
    "local controller for ".toList ++ quoted child.canonical) ::
  (control_channels child.inst).map fun channel =>
    (control_pipeline_instance_name child.canonical channel,
      channel.debug ++ " pipeline for ".toList ++ quoted child.canonical)

/-- The upper tasks below the top. -/
def upper_scopes (occurrences : List TaskOccurrence) : List TaskOccurrence :=
  occurrences.filter fun occurrence =>
    occurrence.parent.isSome && occurrence.flat_endpoint.isNone

/-- The two controllers of an upper task. -/
def scope_names (scope : TaskOccurrence) : List Str := [
  scope_controller_instance_name scope.global_name,
  local_controller_instance_name scope.global_name]

def scope_control_names (scope : TaskOccurrence) : List (Str × Str) :=
  (scope_names scope).map fun name =>
    (name, "upper controller for ".toList ++ quoted scope.global_name)

/-- Every name that distributed control generates, in the order of the checks. -/
def control_names (top : Task) (control : ControlInterface)
    (projection : Option FlatProjection) : List (Str × Str) :=
  [(global_controller_instance_name, "global controller".toList)] ++
  (if control.has_s_axi_control then [(CONTROL_S_AXI_INSTANCE, "S-AXI control block".toList)]
    else []) ++
  (child_instances top).flatMap child_control_names ++
  match projection with
  | some projection => (upper_scopes projection.occurrences).flatMap scope_control_names
  | none => []

def validate_control_names (top : Task) (memory : List MemoryInterface)
    (control : ControlInterface) (vertices : List Vertex) (co_located : List CoLocatedInstance)
    (projection : Option FlatProjection) : Except GraphError Unit := do
  let occupied ← occupied_rtl_names top vertices co_located
  let occupied ← memory.foldlM reserve_axi_pipeline_names occupied
  let _ ← (control_names top control projection).foldlM reserve_generated_name occupied
  pure ()

/-! ## Memory interfaces -/

/-- What the design says about a memory interface. -/
structure ExpectedMemoryEndpoint where
  task_vertex : Nat
  child_category : ArgCategory
deriving DecidableEq, Repr

def category_text : ArgCategory → Str
  | .Istream => "istream".toList
  | .Ostream => "ostream".toList
  | .Istreams => "istreams".toList
  | .Ostreams => "ostreams".toList
  | .Scalar => "scalar".toList
  | .Mmap => "mmap".toList
  | .Immap => "immap".toList
  | .Ommap => "ommap".toList
  | .AsyncMmap => "async_mmap".toList

/-- A bridge belongs to an asynchronous interface, and the channels come in whole groups. -/
def validate_memory_interface_shape (interface : MemoryInterface)
    (expected : ExpectedMemoryEndpoint) : Except GraphError Unit := do
  let endpoint := interface.endpoint
  let label := endpoint.inst ++ '.' :: endpoint.port
  let unsupported (detail : Str) : Except GraphError Unit :=
    .error (.UnsupportedMemoryInterface endpoint.top_port detail)
  match expected.child_category, interface.bridge_instance with
  | .Mmap, some _ =>
    unsupported ("plain mmap endpoint ".toList ++ quoted label ++
      " cannot own an async bridge".toList)
  | .AsyncMmap, some actual =>
    let stable := async_mmap_bridge_instance_name endpoint.top_port
    if actual ≠ stable then
      unsupported ("async bridge name ".toList ++ quoted actual ++
        " does not match stable hierarchy ".toList ++ quoted stable)
    else pure ()
  | _, _ => pure ()
  let widths := interface.channel_widths
  let read_address := widths.read_address ≠ 0
  let read_data := widths.read_data ≠ 0
  let write_address := widths.write_address ≠ 0
  let write_data := widths.write_data ≠ 0
  let write_response := widths.write_response ≠ 0
  if ¬ (read_address ↔ read_data) then
    unsupported ("endpoint ".toList ++ quoted label ++
      " has a partial read channel group".toList)
  if ¬ (write_address ↔ write_data) ∨ ¬ (write_address ↔ write_response) then
    unsupported ("endpoint ".toList ++ quoted label ++
      " has a partial write channel group".toList)
  if interface.bridge_instance = none ∧ (¬ read_address ∨ ¬ write_address) then
    unsupported ("direct compact M-AXI endpoint ".toList ++ quoted label ++
      " must expose all five channels".toList)

/-- The memory interface of one argument of a child, or nothing for another argument. -/
def memory_endpoint (top task : Task) (child : Child) (child_port : Str) (argument : Arg) :
    Except GraphError (Option (AxiEndpoint × ArgCategory)) :=
  let label := quoted (child.canonical ++ '.' :: child_port)
  if ¬ argument.cat.is_direct_mmap then .ok none
  else do
    let parent_port ← ok_or argument.name (.UnsupportedMemoryInterface child_port
      ("child endpoint ".toList ++ label ++ " binds a constant, not a top-level mmap".toList))
    let port ← ok_or (task.port child_port) (.UnsupportedMemoryInterface parent_port
      ("child endpoint ".toList ++ label ++ " has no port metadata".toList))
    let parent ← ok_or (top.port parent_port) (.UnsupportedMemoryInterface parent_port
      "top-level mmap port metadata is missing".toList)
    if port.cat ≠ argument.cat ∨ parent.cat ≠ .Mmap then
      .error (.UnsupportedMemoryInterface parent_port ("child binding category ".toList ++
        quoted (category_text argument.cat) ++ " must match child metadata ".toList ++
        quoted (category_text port.cat) ++ " and connect to a plain top mmap".toList))
    else if port.chan_count.isSome ∨ port.chan_size.isSome ∨ parent.chan_count.isSome ∨
        parent.chan_size.isSome then
      .error (.UnsupportedMemoryInterface parent_port
        "hierarchical mmap channels are not modeled".toList)
    else .ok (some (⟨child.canonical, child_port, parent_port⟩, port.cat))

end Tapa.Floorplan
