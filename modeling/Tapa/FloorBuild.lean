-- The construction of the placement graph (`build.rs`, `query.rs`): a cluster for
-- each child, FIFOs charged to their readers, then the banks with the memory
-- channels and the global controller with the control channels.
import Tapa.FloorGraph

namespace Tapa.Floorplan

open Ir Text Fallible

/-! ## The builder -/

instance transOrdEndpointRef : Std.TransOrd EndpointRef := inferInstance

/-- The widths between two clusters, from the one with the lower index and back. -/
structure DirectedWidth where
  forward : Nat
  reverse : Nat
deriving DecidableEq, Repr

/-- What the passes append to. The hash maps of the source are only read by key. -/
structure Builder where
  vertices : List Vertex
  index : BTreeMap Str Nat
  task_endpoints : BTreeMap EndpointRef Nat
  placement_widths : BTreeMap (Nat × Nat) DirectedWidth
  co_located : List CoLocatedInstance

def Builder.empty : Builder := ⟨[], ∅, ∅, ∅, []⟩

/-- A sum that stays below 32 bits. -/
def checked_add_u32 (a b : Nat) : Option Nat := if a + b < 2 ^ 32 then some (a + b) else none

def DirectedWidth.add (entry : DirectedWidth) (forward : Bool) (width : Nat) :
    Option DirectedWidth :=
  if forward then (checked_add_u32 entry.forward width).map fun sum => { entry with forward := sum }
  else (checked_add_u32 entry.reverse width).map fun sum => { entry with reverse := sum }

/-- Add a width to a pair of clusters. Both directions together must stay in 32 bits. -/
def Builder.add_placement_width (b : Builder) (src dst width : Nat) : Option Builder := do
  let key := (min src dst, max src dst)
  let entry ← ((b.placement_widths[key]?).getD ⟨0, 0⟩).add (src < dst) width
  let _ ← checked_add_u32 entry.forward entry.reverse
  pure { b with placement_widths := b.placement_widths.insert key entry }

def Builder.push_vertex (b : Builder) (vertex : Vertex) : Builder :=
  { b with
    vertices := b.vertices ++ [vertex]
    index := b.index.insert vertex.name b.vertices.length }

def Builder.co_locate (b : Builder) (name : Str) (host : Nat) : Builder :=
  { b with co_located := b.co_located ++ [⟨name, host⟩] }

/-! ## Tasks -/

/-- The cluster of a task. A task without an estimate has no area. -/
def task_vertex (task : Task) (child : Child) : Vertex where
  name := child.canonical
  area := task.self_area.getD 0
  required_tag := none
  materialize := true

def add_task_vertex (flat : TaskGraph) (b : Builder) (child : Child) :
    Except GraphError Builder :=
  match flat.tasks[child.definition]? with
  | none => .error (.MissingTaskDef child.definition)
  | some task =>
    if child.canonical ∈ b.index then .error (.DuplicateCanonicalName child.canonical)
    else
      .ok { b.push_vertex (task_vertex task child) with
        task_endpoints :=
          b.task_endpoints.insert (child.definition, child.index) b.vertices.length }

section

variable (flat : TaskGraph) (top : Task)

def add_task_vertices (b : Builder) : Except GraphError Builder :=
  (child_instances top).foldlM (add_task_vertex flat) b

/-! ## FIFOs -/

/-- An argument of a child with the declaration of its port. -/
structure PortBinding where
  port_name : Str
  argument : Arg
  port : Option Port

def bindings (flat : TaskGraph) (parent : Task) : List PortBinding :=
  parent.invocations.flatMap fun (definition, _, inst) =>
    inst.args.toList.map fun (port_name, argument) =>
      ⟨port_name, argument, flat.tasks[definition]?.bind fun task => task.port port_name⟩

/-- The widths of the ports at both ends of a FIFO. -/
structure FifoArgWidths where
  producer : Option Nat
  consumer : Option Nat
deriving DecidableEq, Repr

/-- The first binding on each side counts. -/
def index_fifo_arg_widths : BTreeMap Str FifoArgWidths :=
  (bindings flat top).foldl (fun index binding =>
    if binding.argument.cat.is_stream then
      match binding.port, binding.argument.name with
      | some port, some fifo =>
        let entry := (index[fifo]?).getD ⟨none, none⟩
        index.insert fifo <|
          if binding.argument.cat.is_output_stream then
            { entry with producer := entry.producer.or (some port.width) }
          else { entry with consumer := entry.consumer.or (some port.width) }
      | _, _ => index
    else index) ∅

/-- The payload of a FIFO, on which both ends must agree. -/
def FifoArgWidths.payload (widths : FifoArgWidths) (fifo_name : Str) : Except GraphError Nat :=
  match widths.producer, widths.consumer with
  | some producer, some consumer =>
    if producer ≠ consumer then .error (.FifoWidthMismatch fifo_name producer consumer)
    else .ok producer
  | some producer, none => .ok producer
  | none, some consumer => .ok consumer
  | none, none => .error (.UnresolvedFifoWidth fifo_name)

/-- The width of the storage: the payload and the end-of-transaction bit. -/
def resolve_fifo_data_width (index : BTreeMap Str FifoArgWidths) (fifo_name : Str) :
    Except GraphError Nat := do
  let widths := (index[fifo_name]?).getD ⟨none, none⟩
  let payload ← widths.payload fifo_name
  ok_or (checked_add_u32 payload 1) (.UnresolvedFifoWidth fifo_name)

/-- The cluster at an end of a FIFO. An end that is given must exist. -/
def resolve_fifo_endpoint (endpoints : BTreeMap EndpointRef Nat) (fifo_name role : Str) :
    Option EndpointRef → Except GraphError (Option Nat)
  | none => .ok none
  | some reference => do
    let vertex ← ok_or endpoints[reference]?
      (.DanglingFifoEndpoint fifo_name role reference.1 reference.2)
    .ok (some vertex)

/-- Charge an area to a cluster, unless a counter overflows. -/
def Builder.charge (b : Builder) (host : Nat) (area : Area) : Option Builder := do
  let vertex ← b.vertices[host]? -- Hosts come from the endpoints, so there is one.
  let total ← vertex.area.checked_add area
  pure { b with vertices := b.vertices.set host { vertex with area := total } }

/-- The storage estimate of a FIFO before routing. -/
def storage_estimate (data_width depth : Nat) : Area :=
  fifo_area data_width (floorplanned_fifo_storage_depth depth)

/-- The stream of a FIFO with both ends, unless they are one cluster. -/
def stream_of (link : Str) (src dst : Option Nat) (width data_width depth : Nat) :
    Option Stream :=
  match src, dst with
  | some src, some dst =>
    if src ≠ dst then some ⟨link, src, dst, width, data_width, depth⟩ else none
  | _, _ => none

def Builder.add_stream (b : Builder) (streams : List Stream) (fifo_name : Str) :
    Option Stream → Except GraphError (Builder × List Stream)
  | none => .ok (b, streams)
  | some stream => do
    let b ← ok_or (b.add_placement_width stream.src stream.dst stream.width)
      (.PlacementWidthOverflow fifo_name)
    .ok (b, streams ++ [stream])

/-- One internal FIFO: its storage goes to the reader, or to the writer without one. -/
def cluster_fifo (widths : BTreeMap Str FifoArgWidths) (fifo_name : Str)
    (fifo : InterconnectDefinition) (depth : Nat) (b : Builder) (streams : List Stream) :
    Except GraphError (Builder × List Stream) := do
  let data_width ← resolve_fifo_data_width widths fifo_name
  -- The two handshake bits come on top.
  let physical_width ← ok_or (checked_add_u32 data_width 2) (.UnresolvedFifoWidth fifo_name)
  let src ← resolve_fifo_endpoint b.task_endpoints fifo_name "producer".toList fifo.produced_by
  let dst ← resolve_fifo_endpoint b.task_endpoints fifo_name "consumer".toList fifo.consumed_by
  let host ← ok_or (dst.or src) (.UnanchoredFifo fifo_name)
  let b ← ok_or (b.charge host (storage_estimate data_width depth)) (.ResourceOverflow fifo_name)
  (b.co_locate fifo_name host).add_stream streams fifo_name
    (stream_of fifo_name src dst physical_width data_width depth)

/-- A FIFO without a depth is a port of the kernel, which is not placed. -/
def cluster_entry (widths : BTreeMap Str FifoArgWidths) (s : Builder × List Stream)
    (entry : Str × InterconnectDefinition) : Except GraphError (Builder × List Stream) :=
  match entry.2.depth with
  | none => .ok s
  | some depth => cluster_fifo widths entry.1 entry.2 depth s.1 s.2

def cluster_internal_fifos (b : Builder) : Except GraphError (Builder × List Stream) :=
  top.fifos.toList.foldlM (cluster_entry (index_fifo_arg_widths flat top)) (b, [])

/-! ## Memory -/

/-- The interfaces found so far, and the children that use each port of the kernel. -/
structure Expected where
  endpoints : BTreeMap AxiEndpoint ExpectedMemoryEndpoint
  users : BTreeMap Str (List Str)

def Expected.add (e : Expected) (vertex : Nat) (user : Str) :
    Option (AxiEndpoint × ArgCategory) → Expected
  | none => e
  | some (endpoint, category) => {
      endpoints := e.endpoints.insert endpoint ⟨vertex, category⟩
      users := e.users.insert endpoint.top_port
        ((e.users[endpoint.top_port]?).getD [] ++ [user]) }

def expect_argument (top task : Task) (child : Child) (vertex : Nat) (e : Expected)
    (arg : Str × Arg) : Except GraphError Expected := do
  let found ← memory_endpoint top task child arg.1 arg.2
  .ok (e.add vertex (child.canonical ++ '.' :: arg.1) found)

def expect_child (task_endpoints : BTreeMap EndpointRef Nat)
    (e : Expected) (child : Child) : Except GraphError Expected := do
  let task ← ok_or flat.tasks[child.definition]? (.MissingTaskDef child.definition)
  -- Every child has its cluster.
  let vertex ← ok_or task_endpoints[(child.definition, child.index)]?
    (.MissingTaskDef child.definition)
  child.inst.args.toList.foldlM (expect_argument top task child vertex) e

/-- The interfaces of the design. A port of the kernel belongs to one child only. -/
def expected_memory_interfaces (task_endpoints : BTreeMap EndpointRef Nat) :
    Except GraphError (BTreeMap AxiEndpoint ExpectedMemoryEndpoint) := do
  let e ← (child_instances top).foldlM (expect_child flat top task_endpoints) ⟨∅, ∅⟩
  match e.users.toList.find? fun entry => entry.2.length > 1 with
  | some (top_port, users) =>
    .error (.UnsupportedMemoryInterface top_port
      ("shared by ".toList ++ List.intercalate ", ".toList users ++ " child endpoints".toList))
  | none => .ok e.endpoints

def provide (provided : BTreeMap AxiEndpoint MemoryInterface) (interface : MemoryInterface) :
    Except GraphError (BTreeMap AxiEndpoint MemoryInterface) :=
  if interface.endpoint ∈ provided then
    .error (.DuplicateMemoryInterface interface.endpoint.inst interface.endpoint.port)
  else .ok (provided.insert interface.endpoint interface)

/-- The interfaces that are given must be those of the design. -/
def provided_interfaces (expected : BTreeMap AxiEndpoint ExpectedMemoryEndpoint)
    (memory : List MemoryInterface) :
    Except GraphError (BTreeMap AxiEndpoint MemoryInterface) := do
  let provided ← memory.foldlM provide ∅
  match expected.keys.find? fun endpoint => endpoint ∉ provided with
  | some e => .error (.MissingMemoryInterface e.inst e.port e.top_port)
  | none =>
    match provided.keys.find? fun endpoint => endpoint ∉ expected with
    | some e => .error (.UnknownMemoryInterface e.inst e.port e.top_port)
    | none => .ok provided

/-- An interface of the design with what is given for it. -/
structure BoundInterface where
  interface : MemoryInterface
  expected : ExpectedMemoryEndpoint

/-- The interfaces in the order of their endpoints. -/
def bound_interfaces (expected : BTreeMap AxiEndpoint ExpectedMemoryEndpoint)
    (provided : BTreeMap AxiEndpoint MemoryInterface) : List BoundInterface :=
  expected.toList.filterMap fun (endpoint, e) =>
    (provided[endpoint]?).map fun interface => ⟨interface, e⟩

/-- Reserve the generated names of an interface and place its bridge with the task. -/
def reserve_interface (s : Occupied × Builder) (x : BoundInterface) :
    Except GraphError (Occupied × Builder) := do
  validate_memory_interface_shape x.interface x.expected
  let occupied ← reserve_axi_pipeline_names s.1 x.interface
  match x.interface.bridge_instance with
  | none => .ok (occupied, s.2)
  | some bridge =>
    let occupied ← reserve_generated_name occupied (bridge,
      "async mmap bridge for ".toList ++ quoted x.interface.endpoint.top_port)
    .ok (occupied, s.2.co_locate bridge x.expected.task_vertex)

def bank_terminal_name (bank : MemoryBank) : Str :=
  "__tapa_bank_".toList ++
    (match bank.kind with
      | .Hbm => "hbm".toList
      | .Ddr => "ddr".toList) ++ '_' :: decimal bank.index

def bank_vertex (bank : MemoryBank) : Vertex where
  name := bank_terminal_name bank
  area := 0
  required_tag := some bank.display
  materialize := false

/-- The banks that have a cluster. -/
abbrev Terminals : Type := List (MemoryBank × Nat)

/-- The cluster of a bank, which its first interface creates. -/
def bank_terminal (b : Builder) (terminals : Terminals) (bank : MemoryBank) :
    Except GraphError (Builder × Terminals × Nat) :=
  match terminals.lookup bank with
  | some terminal => .ok (b, terminals, terminal)
  | none =>
    if bank_terminal_name bank ∈ b.index then .error (.DuplicateVertex (bank_terminal_name bank))
    else .ok (b.push_vertex (bank_vertex bank), (bank, b.vertices.length) :: terminals,
      b.vertices.length)

/-- Addresses and written data leave the task, read data and responses come back. -/
def AxiChannel.leaves_task : AxiChannel → Bool
  | .ReadAddress | .WriteAddress | .WriteData => true
  | .ReadData | .WriteResponse => false

def axi_net (x : BoundInterface) (terminal : Nat) (channel : AxiChannel) (width : Nat) : AxiNet :=
  let task := x.expected.task_vertex
  { endpoint := x.interface.endpoint
    bank := x.interface.bank
    channel
    src := if AxiChannel.leaves_task channel then task else terminal
    dst := if AxiChannel.leaves_task channel then terminal else task
    width
    payload_width := width - 2 }

/-- A channel has the two handshake bits and a payload. -/
def add_axi_net (x : BoundInterface) (terminal : Nat) (s : Builder × List AxiNet)
    (entry : AxiChannel × Nat) : Except GraphError (Builder × List AxiNet) :=
  let net := axi_net x terminal entry.1 entry.2
  if entry.2 ≤ 2 then
    .error (.InvalidAxiWidth net.endpoint.inst net.endpoint.port entry.1 entry.2)
  else
    do
      let b ← ok_or (s.1.add_placement_width net.src net.dst entry.2) (.PlacementWidthOverflow
        (net.endpoint.inst ++ '.' :: net.endpoint.port ++ ' ' :: entry.1.debug))
      .ok (b, s.2 ++ [net])

def add_interface (s : (Builder × Terminals) × List AxiNet) (x : BoundInterface) :
    Except GraphError ((Builder × Terminals) × List AxiNet) := do
  if x.interface.channel_widths.enabled_channels = [] then .ok s
  else
    let (b, terminals, terminal) ← bank_terminal s.1.1 s.1.2 x.interface.bank
    let (b, nets) ← x.interface.channel_widths.enabled_channels.foldlM
      (add_axi_net x terminal) (b, s.2)
    .ok ((b, terminals), nets)

def add_memory_interfaces (memory : List MemoryInterface)
    (b : Builder) : Except GraphError (Builder × List AxiNet) := do
  let expected ← expected_memory_interfaces flat top b.task_endpoints
  let provided ← provided_interfaces expected memory
  let occupied ← occupied_rtl_names top b.vertices b.co_located
  let bound := bound_interfaces expected provided
  let (_, b) ← bound.foldlM reserve_interface (occupied, b)
  let ((b, _), nets) ← bound.foldlM add_interface ((b, []), [])
  .ok (b, nets)

/-! ## Control -/

/-- Scalars of the task, then the offsets of the memory arguments. -/
def control_launch_width (task : Task) (inst : TaskInstance) (instance_name : Str) :
    Except GraphError Nat := do
  let metadata (port detail : Str) : Except GraphError Nat :=
    .error (.ScalarMetadata instance_name port detail)
  let add (width more : Nat) : Except GraphError Nat :=
    ok_or (checked_add_u32 width more) (.ControlWidthOverflow instance_name .Launch)
  let width ← (task.ports.filter fun port => port.cat.is_scalar).foldlM (fun width port =>
    match inst.args[port.name]? with
    | none => metadata port.name "child scalar port has no instance argument".toList
    | some argument =>
      if ¬ argument.cat.is_scalar then
        metadata port.name ("child port is scalar but its instance argument is ".toList ++
          category_text argument.cat)
      else if port.width = 0 then
        metadata port.name "scalar width must be greater than zero".toList
      else add width port.width) (if inst.step < 0 then 1 else 2)
  inst.args.toList.foldlM (fun width (port_name, argument) =>
    if argument.cat.is_scalar &&
        !((task.ports.find? fun port => port.name = port_name).any fun port => port.cat.is_scalar)
    then
      metadata port_name
        "instance argument is scalar but child scalar port metadata is missing".toList
    else if argument.cat.is_direct_mmap then add width 64
    else .ok width) width

def global_vertex (global_anchor : Option Str) : Vertex where
  name := global_controller_instance_name
  area := 0
  required_tag := global_anchor
  materialize := true

def add_control_net (s : Builder × List ControlNet) (net : ControlNet) :
    Except GraphError (Builder × List ControlNet) := do
  let b ← ok_or (s.1.add_placement_width net.src net.dst net.width)
    (.ControlWidthOverflow net.inst net.channel)
  .ok (b, s.2 ++ [net])

/-- The control channels of a child whose launch has the given width. -/
def child_nets (global child : Nat) (canonical : Str) (inst : TaskInstance)
    (launch_width : Nat) : List ControlNet :=
  [⟨canonical, .Launch, global, child, launch_width⟩, ⟨canonical, .Reset, global, child, 1⟩] ++
  if inst.step ≥ 0 then [⟨canonical, .Completion, child, global, 1⟩] else []

def add_child_control (flat : TaskGraph) (global : Nat) (s : Builder × List ControlNet)
    (child : Child) : Except GraphError (Builder × List ControlNet) := do
  let task ← ok_or flat.tasks[child.definition]? (.MissingTaskDef child.definition)
  -- Every child has its cluster.
  let vertex ← ok_or s.1.task_endpoints[(child.definition, child.index)]?
    (.MissingTaskDef child.definition)
  let launch_width ← control_launch_width task child.inst child.canonical
  (child_nets global vertex child.canonical child.inst launch_width).foldlM add_control_net
    (s.1.co_locate (local_controller_instance_name child.canonical) vertex, s.2)

/-- The instances that are placed with the global controller. -/
def global_aliases (control : ControlInterface) (projection : Option FlatProjection) : List Str :=
  (if control.has_s_axi_control then [CONTROL_S_AXI_INSTANCE] else []) ++
  match projection with
  | some projection => (upper_scopes projection.occurrences).flatMap scope_names
  | none => []

def add_control_interface (memory : List MemoryInterface)
    (control : ControlInterface) (global_anchor : Option Str)
    (projection : Option FlatProjection) (b : Builder) :
    Except GraphError (Builder × List ControlNet) := do
  validate_control_names top memory control b.vertices b.co_located projection
  if global_controller_instance_name ∈ b.index then
    .error (.GeneratedNameCollision global_controller_instance_name "placement vertex".toList)
  else
    let global := b.vertices.length
    let b := (global_aliases control projection).foldl (fun b name => b.co_locate name global)
      (b.push_vertex (global_vertex global_anchor))
    (child_instances top).foldlM (add_child_control flat global) (b, [])

/-! ## The whole construction -/

def Builder.placement_edges (b : Builder) : List PlacementEdge :=
  b.placement_widths.toList.map fun ((src, dst), widths) =>
    ⟨src, dst, widths.forward + widths.reverse, widths.forward, widths.reverse⟩

def has_children (top : Task) : Option FlatProjection → Bool
  | some projection => projection.occurrences.length > 1
  | none => !top.tasks.isEmpty

/-- The control pass, for a design with children that asks for it. -/
def add_control (memory : List MemoryInterface)
    (control : Option ControlInterface) (global_anchor : Option Str)
    (projection : Option FlatProjection) (b : Builder) :
    Except GraphError (Builder × List ControlNet) :=
  match control.filter fun _ => has_children top projection with
  | some control => add_control_interface flat top memory control global_anchor projection b
  | none => .ok (b, [])

end

def build_with_scopes (flat : TaskGraph) (memory : List MemoryInterface)
    (control : Option ControlInterface) (global_anchor : Option Str)
    (projection : Option FlatProjection) : Except GraphError FloorGraph := do
  let top ← ok_or flat.tasks[flat.top]? (.MissingTop flat.top)
  let b ← add_task_vertices flat top Builder.empty
  validate_sanitized_instance_names top
  let (b, streams) ← cluster_internal_fifos flat top b
  let (b, axi_nets) ← add_memory_interfaces flat top memory b
  let (b, control_nets) ← add_control flat top memory control global_anchor projection b
  let _ ← occupied_rtl_names top b.vertices b.co_located
  .ok {
    vertices := b.vertices
    placement_edges := b.placement_edges
    streams, axi_nets, control_nets
    index := b.index
    co_located := b.co_located }

/-- The graph of a flattened design, with its upper tasks placed with the controller. -/
def build_with_projection (projection : FlatProjection) (memory : List MemoryInterface)
    (control : Option ControlInterface) (global_anchor : Option Str) :
    Except GraphError FloorGraph :=
  build_with_scopes projection.flat memory control global_anchor (some projection)

end Tapa.Floorplan
