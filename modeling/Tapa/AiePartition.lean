-- The AI Engine partition of a task graph (`aie.rs`): the AI Engine tasks that the top
-- invokes are flattened into kernels, and the FIFOs that they touch into streams. The
-- recursion has fuel, since a task that invokes itself never comes to an end.
import Tapa.Connectivity
import Tapa.Floorplan

namespace Tapa.AiEngine

open Ir Text Fallible

/-! ## What the partition reads -/

inductive SynthTarget where
  | Hls | Ignore | Aie
deriving DecidableEq, Repr

/-- A tile pin of a task, or of one of its invocations. -/
structure AieLocation where
  col : Nat
  row : Nat
  inst : Option Nat
deriving DecidableEq, Repr

structure PortAttributes where
  ctype : Str
  aie_frame : Option Nat
  aie_plio : Option Nat

structure TaskAttributes where
  synth : SynthTarget
  readable_name : Str
  aie_location : List AieLocation
  aie_stack_bytes : Option Nat
  port : Str → PortAttributes

/-- A task graph with the attributes of its tasks and ports that only this pass reads. -/
structure Graph extends TaskGraph where
  attributes : Str → TaskAttributes

/-! ## The partition -/

inductive ScalarBinding where
  | Runtime (name : Str)
  | Constant (value : WireValue)
deriving DecidableEq, Repr

inductive AiePortKind where
  | Streams (input plural : Bool) (streams : List Nat) (words : Nat) (frame : Option Nat)
  | Scalar (ctype : Str) (width : Nat) (value : ScalarBinding)
deriving DecidableEq, Repr

structure AieKernelPort where
  name : Str
  kind : AiePortKind
deriving DecidableEq, Repr

structure AieKernel where
  name : Str
  task : Str
  call : Str
  ports : List AieKernelPort
  location : Option (Nat × Nat)
  stack_bytes : Option Nat
  ordered : Bool
deriving DecidableEq, Repr

inductive AieStreamKind where
  | Plio (input : Bool) (width : Nat)
  | Net (depth_words : Nat)
deriving DecidableEq, Repr

structure AieStream where
  name : Str
  fifo : Str
  words : Nat
  frame : Option Nat
  kind : AieStreamKind
deriving DecidableEq, Repr

structure AiePartition where
  kernels : List AieKernel
  streams : List AieStream
  run_forever : Bool
deriving DecidableEq, Repr

/-! ## Errors -/

inductive AieError where
  | NoTask (name : Str)
  | PlInvokesAie (name child top : Str)
  | Sequential (child : Str) (step : Int)
  | TopPort (port child name : Str)
  | TooWide (name child : Str) (bits : Nat)
  | Memory (port child name : Str)
  | Unbound (name child port task_name : Str)
  | NoStream (channel task_name : Str)
  | NoScalar (port task_name : Str)
  | MemoryPort (task_name port : Str)
  | NoPort (task_name port : Str)
  | PinWithoutInstance (pin : AieLocation) (name : Str) (instances : Nat)
  | PinOfNoInstance (pin : AieLocation) (i : Nat) (name : Str) (instances : Nat)
  | SharedTile (other name : Str) (tile : Nat × Nat)
deriving DecidableEq, Repr

def signed (step : Int) : Str :=
  match step with
  | .ofNat n => decimal n
  | .negSucc n => '-' :: decimal (n + 1)

def AieError.message : AieError → Str
  | NoTask name => "the task graph has no task ".toList ++ quoted name
  | PlInvokesAie name child top =>
    "the PL task ".toList ++ quoted name ++ " invokes the AI Engine task ".toList ++ quoted child ++
      "; AI Engine tasks must be invoked by the top task ".toList ++ quoted top
  | Sequential child step =>
    "the AI Engine task ".toList ++ quoted child ++ " is invoked sequentially (step ".toList ++
      signed step ++
      ("); AI Engine kernels run concurrently, so invoke it joined or detached").toList
  | TopPort port child name =>
    "port ".toList ++ quoted port ++ " of the AI Engine task ".toList ++ quoted child ++
      " is bound to the top task's port ".toList ++ quoted name ++
      "; connect an AI Engine task to the PL through a stream the top declares".toList
  | TooWide name child bits =>
    "stream ".toList ++ quoted name ++ " between the PL and the AI Engine task ".toList ++
      quoted child ++ " carries ".toList ++ decimal bits ++
      "-bit elements; a PL↔AI Engine stream carries at most 128 bits per element, ".toList ++
      "so split it into tapa::vec_t<T, 4> elements of 32-bit T".toList
  | Memory port child name =>
    "port ".toList ++ quoted port ++ " of the AI Engine task ".toList ++ quoted child ++
      " is bound to the memory ".toList ++ quoted name ++
      "; AI Engine tasks have no memory path".toList
  | Unbound name child port task_name =>
    quoted name ++ " bound to ".toList ++ quoted (child ++ '.' :: port) ++
      " in the AI Engine task ".toList ++ quoted task_name ++
      " is neither a stream it declares nor one of its ports".toList
  | NoStream channel task_name =>
    "stream port ".toList ++ quoted channel ++ " of the AI Engine task ".toList ++
      quoted task_name ++ " is not bound to a stream".toList
  | NoScalar port task_name =>
    "scalar port ".toList ++ quoted port ++ " of the AI Engine task ".toList ++ quoted task_name ++
      " is not bound to a top-task scalar or a constant".toList
  | MemoryPort task_name port =>
    "the AI Engine task ".toList ++ quoted task_name ++ " takes the memory port ".toList ++
      quoted port ++ "; AI Engine tasks have no memory path".toList
  | NoPort task_name port =>
    "the task ".toList ++ quoted task_name ++ " has no port ".toList ++ quoted port
  | PinWithoutInstance pin name instances =>
    "[[tapa::aie_location(".toList ++ decimal pin.col ++ ", ".toList ++ decimal pin.row ++
      ")]] on ".toList ++ quoted name ++ " names no instance, but the task has ".toList ++
      decimal instances ++ "; add the instance index as a third argument".toList
  | PinOfNoInstance pin i name instances =>
    "[[tapa::aie_location(".toList ++ decimal pin.col ++ ", ".toList ++ decimal pin.row ++
      ", ".toList ++ decimal i ++ ")]] on ".toList ++ quoted name ++ " names instance ".toList ++
      decimal i ++ ", but the task has ".toList ++ decimal instances
  | SharedTile other name tile =>
    "the AI Engine kernels ".toList ++ quoted other ++ " and ".toList ++ quoted name ++
      " are both pinned to tile (".toList ++ decimal tile.1 ++ ", ".toList ++ decimal tile.2 ++
      [')']

/-- Why there is no result: an error, or a recursion that is not at its end. -/
inductive Halt where
  | error (e : AieError)
  | unfinished
deriving DecidableEq, Repr

/-! ## Lookups -/

section

variable (g : Graph)

def task (name : Str) : Except Halt Task := ok_or g.tasks[name]? (.error (.NoTask name))

/-- A task of the graph that is synthesized for the AI Engine. -/
def is_aie (name : Str) : Bool :=
  (g.tasks[name]?).isSome && (g.attributes name).synth = .Aie

def endpoint_is_aie (endpoint : Option EndpointRef) : Bool :=
  endpoint.any fun e => is_aie g e.1

/-- The port of an invocation that is bound to a FIFO. -/
def child_port_for (parent : Task) (child : Str) (index : Nat) (fifo : Str) : Option Str := do
  let instances ← parent.tasks[child]?
  let inst ← instances[index]?
  let (port, _) ← inst.args.toList.find? fun x => x.2.name = some fifo
  pure port

def stream_words (task_name port : Str) : Except Halt Nat := do
  let definition ← task g task_name
  let p ← ok_or (definition.port port) (Halt.error (.NoPort task_name port))
  pure ((p.width + 31) / 32)

/-- The attribute of the declaration that a port name resolves to. -/
def port_frame (task_name : Str) (definition : Task) (port : Str) : Option Nat :=
  (definition.port port).bind fun p => ((g.attributes task_name).port p.name).aie_frame

def port_plio (task_name : Str) (definition : Task) (port : Str) : Option Nat :=
  (definition.port port).bind fun p => ((g.attributes task_name).port p.name).aie_plio

def plio_width (bits : Nat) : Nat := if bits ≤ 32 then 32 else if bits ≤ 64 then 64 else 128

def MAX_PLIO_BITS : Nat := 128

/-- A sequential invocation is an error, and a detached one makes the graph run on. -/
def check_invoke_step (child : Str) (step : Int) (run_forever : Bool) : Except Halt Bool :=
  if 0 < step then .error (.error (.Sequential child step))
  else .ok (run_forever || decide (step < 0))

/-! ## Building -/

/-- What a name of a scope is bound to. -/
inductive Binding where
  | Stream (index : Nat)
  | Scalar (value : ScalarBinding)
deriving DecidableEq, Repr

/-- The builder. Its last two fields are kept for proofs only, and nothing reads them:
the scope and the name of the FIFO that each stream was made for, and the occurrence of
each kernel. -/
structure Builder where
  partition : AiePartition
  top_streams : BTreeMap Str Nat
  sources : List (Path × Str)
  leaves : List Path

def Builder.push_stream (b : Builder) (source : Path × Str) (stream : AieStream) : Builder :=
  { b with
    partition := { b.partition with streams := b.partition.streams ++ [stream] }
    sources := b.sources ++ [source] }

def Builder.push_kernel (b : Builder) (leaf : Path) (kernel : AieKernel) : Builder :=
  { b with
    partition := { b.partition with kernels := b.partition.kernels ++ [kernel] }
    leaves := b.leaves ++ [leaf] }

def Builder.set_run_forever (b : Builder) (run_forever : Bool) : Builder :=
  { b with partition := { b.partition with run_forever := run_forever } }

/-- The stream of a FIFO of the top, at its first use. -/
def top_stream (child port name : Str) (fifo : InterconnectDefinition) : Except Halt AieStream := do
  let producer_aie := endpoint_is_aie g fifo.produced_by
  let consumer_aie := endpoint_is_aie g fifo.consumed_by
  let words ← stream_words g child port
  let definition ← task g child
  let kind ←
    if producer_aie && consumer_aie then
      pure (AieStreamKind.Net (fifo.depth.getD 0 * words % 2 ^ 32))
    else
      let width := (port_plio g child definition port).getD (words * 32)
      let bits := words * 32
      if MAX_PLIO_BITS < bits then throw (Halt.error (.TooWide name child bits))
      else pure (AieStreamKind.Plio (!producer_aie) (plio_width width))
  pure
    { name := sanitize_identifier_name name
      fifo := name
      words := words
      frame := port_frame g child definition port
      kind := kind }

/-- What one argument of an invocation by the top is bound to. -/
def top_binding (top : Task) (child port : Str) (arg : Arg) (b : Builder) :
    Except Halt (Binding × Builder) :=
  match arg.arg with
  | .Literal value => .ok (.Scalar (.Constant value), b)
  | .Name name =>
    if arg.cat.is_scalar then .ok (.Scalar (.Runtime name), b)
    else if arg.cat.is_stream then
      match b.top_streams[name]? with
      | some index => .ok (.Stream index, b)
      | none =>
        match (top.fifos[name]?).filter fun fifo => fifo.depth.isSome with
        | none => .error (.error (.TopPort port child name))
        | some fifo => do
          let stream ← top_stream g child port name fifo
          let index := b.partition.streams.length
          let b := b.push_stream ([], name) stream
          pure (.Stream index, { b with top_streams := b.top_streams.insert name index })
    else .error (.error (.Memory port child name))

def channel_names (port : Port) : List Str :=
  if port.cat = .Istreams || port.cat = .Ostreams then
    (List.range (port.chan_count.getD 0)).map fun i => array_name port.name i []
  else [port.name]

def kernel_channel (task_name : Str) (scope : BTreeMap Str Binding) (channel : Str) :
    Except Halt Nat :=
  match scope[channel]? with
  | some (.Stream stream) => .ok stream
  | _ => .error (.error (.NoStream channel task_name))

def kernel_port (task_name : Str) (scope : BTreeMap Str Binding) (port : Port) :
    Except Halt AieKernelPort :=
  if port.cat.is_stream then do
    let plural := port.cat = .Istreams || port.cat = .Ostreams
    let streams ← (channel_names port).mapM (kernel_channel task_name scope)
    pure ⟨port.name, .Streams port.cat.is_input_stream plural streams ((port.width + 31) / 32)
      ((g.attributes task_name).port port.name).aie_frame⟩
  else if port.cat.is_scalar then
    match scope[port.name]? with
    | some (.Scalar value) =>
      .ok ⟨port.name, .Scalar ((g.attributes task_name).port port.name).ctype port.width value⟩
    | _ => .error (.error (.NoScalar port.name task_name))
  else .error (.error (.MemoryPort task_name port.name))

def kernel (task_name : Str) (index : Nat) (path : Str) (definition : Task)
    (scope : BTreeMap Str Binding) : Except Halt AieKernel := do
  let ports ← definition.ports.mapM (kernel_port g task_name scope)
  let attributes := g.attributes task_name
  let location := (attributes.aie_location.find? fun pin => pin.inst.all fun i => i = index).map
    fun pin => (pin.col, pin.row)
  pure
    { name := path
      task := task_name
      call := attributes.readable_name
      ports := ports
      location := location
      stack_bytes := attributes.aie_stack_bytes
      ordered := false }

/-- The name of something inside an instance. -/
def inside (path name : Str) : Str := sanitize_identifier_name (path ++ "__".toList ++ name)

/-- The net of one FIFO of an upper task, which its children see under its name. A FIFO
that no child produces or consumes has none. -/
def make_net (definition : Task) (path : Str) (occurrence : Path)
    (state : BTreeMap Str Binding × Builder) (x : Str × InterconnectDefinition) :
    Except Halt (BTreeMap Str Binding × Builder) :=
  let (inner, b) := state
  let (fifo_name, fifo) := x
  match fifo.produced_by.or fifo.consumed_by with
  | none => .ok (inner, b)
  | some endpoint => do
    let port := (child_port_for definition endpoint.1 endpoint.2 fifo_name).getD []
    let words ← stream_words g endpoint.1 port
    let child ← task g endpoint.1
    let stream := b.partition.streams.length
    let b := b.push_stream (occurrence, fifo_name)
      { name := inside path fifo_name
        fifo := fifo_name
        words := words
        frame := port_frame g endpoint.1 child port
        kind := .Net (fifo.depth.getD 0 * words % 2 ^ 32) }
    pure (inner.insert fifo_name (.Stream stream), b)

/-- What one argument of an invocation by an AI Engine task is bound to. -/
def arg_binding (task_name child : Str) (inner scope : BTreeMap Str Binding) (port : Str)
    (arg : Arg) : Except Halt Binding :=
  match arg.arg with
  | .Literal value => .ok (.Scalar (.Constant value))
  | .Name name =>
    ok_or (inner[name]?.or scope[name]?) (Halt.error (.Unbound name child port task_name))

def bind_arg (task_name child : Str) (inner scope child_scope : BTreeMap Str Binding)
    (x : Str × Arg) : Except Halt (BTreeMap Str Binding) := do
  let binding ← arg_binding task_name child inner scope x.1 x.2
  pure (child_scope.insert x.1 binding)

/-- One invocation by an upper task; `descend` flattens what it invokes. -/
def visit_child
    (descend : Str → Nat → Str → Path → BTreeMap Str Binding → Builder → Except Halt Builder)
    (task_name path : Str) (occurrence : Path) (inner scope : BTreeMap Str Binding) (b : Builder)
    (x : Str × Nat × TaskInstance) : Except Halt Builder := do
  let (child, child_index, inst) := x
  let run_forever ← check_invoke_step child inst.step b.partition.run_forever
  let child_scope ← inst.args.toList.foldlM (bind_arg task_name child inner scope) ∅
  let child_path := inside path (inst.canonical_name child child_index)
  descend child child_index child_path ((child, child_index) :: occurrence) child_scope
    (b.set_run_forever run_forever)

/-- Flatten one invocation of an AI Engine task whose ports are bound by `scope`. -/
def visit (g : Graph) : Nat → Str → Nat → Str → Path → BTreeMap Str Binding → Builder →
    Except Halt Builder
  | 0, _, _, _, _, _, _ => .error .unfinished
  | fuel + 1, task_name, index, path, occurrence, scope, b => do
    let definition ← task g task_name
    if definition.level = .Lower then
      let k ← kernel g task_name index path definition scope
      pure (b.push_kernel occurrence k)
    else
      let (inner, b) ← definition.fifos.toList.foldlM (make_net g definition path occurrence) (∅, b)
      definition.invocations.foldlM
        (visit_child (visit g fuel) task_name path occurrence inner scope) b

/-! ## Checks -/

/-- A pin without an instance index needs a task with one kernel, and one with an index
needs that kernel. -/
def check_pin (kernels : List AieKernel) (name : Str) (pin : AieLocation) : Except Halt Unit :=
  let instances := (kernels.filter fun k => k.task = name).length
  match pin.inst with
  | none =>
    if 1 < instances then .error (.error (.PinWithoutInstance pin name instances)) else .ok ()
  | some i =>
    if instances ≤ i then .error (.error (.PinOfNoInstance pin i name instances)) else .ok ()

def check_tile (tiles : List ((Nat × Nat) × Str)) (k : AieKernel) :
    Except Halt (List ((Nat × Nat) × Str)) :=
  match k.location with
  | none => .ok tiles
  | some tile =>
    match tiles.find? fun x => x.1 = tile with
    | some other => .error (.error (.SharedTile other.2 k.name tile))
    | none => .ok ((tile, k.name) :: tiles)

def check_locations (kernels : List AieKernel) : Except Halt Unit := do
  g.tasks.toList.forM fun x => (g.attributes x.1).aie_location.forM (check_pin kernels x.1)
  let _ ← kernels.foldlM check_tile []
  pure ()

/-! ## Cycles -/

/-- A kernel, or an invocation of a PL task by the top. -/
inductive Node where
  | Kernel (index : Nat)
  | Pl (task : Str) (index : Nat)
deriving DecidableEq, Repr

def pl_node (endpoint : Option EndpointRef) : Option Node :=
  endpoint.bind fun e =>
    if (g.tasks[e.1]?).isSome && (g.attributes e.1).synth ≠ .Aie then some (.Pl e.1 e.2) else none

/-- A kernel has a stream among its inputs, or among its outputs. -/
def AieKernel.holds (k : AieKernel) (input : Bool) (stream : Nat) : Bool :=
  k.ports.any fun port =>
    match port.kind with
    | .Streams input' _ streams _ _ => input' = input && stream ∈ streams
    | .Scalar .. => false

/-- The kernel at an end of a stream. A later one takes the place of an earlier one. -/
def kernel_end (kernels : List AieKernel) (input : Bool) (stream : Nat) : Option Node :=
  (kernels.zipIdx.findSomeRev? fun (k, index) =>
    if k.holds input stream then some index else none).map .Kernel

/-- The edges of the stream graph: derived streams, and FIFOs between PL invocations. -/
def stream_edges (top : Task) (p : AiePartition) : List (Node × Node) :=
  let edge (from_node to_node : Option Node) : Option (Node × Node) := do
    pure (← from_node, ← to_node)
  let derived := p.streams.zipIdx.filterMap fun (stream, index) =>
    let fifo := top.fifos[stream.fifo]?
    edge ((kernel_end p.kernels false index).or (pl_node g (fifo.bind fun f => f.produced_by)))
      ((kernel_end p.kernels true index).or (pl_node g (fifo.bind fun f => f.consumed_by)))
  let pl := top.fifos.toList.filterMap fun (_, fifo) =>
    edge (pl_node g fifo.produced_by) (pl_node g fifo.consumed_by)
  derived ++ pl

def successors (edges : List (Node × Node)) (node : Node) : List Node :=
  (edges.filter fun e => e.1 = node).map Prod.snd

/-- The search from a stack of nodes. Each edge is put on the stack at most twice: from
the start, and when its source is first seen. -/
def search (edges : List (Node × Node)) (start : Node) : Nat → List Node → List Node → Bool
  | 0, _, _ => false
  | _ + 1, [], _ => false
  | fuel + 1, node :: stack, seen =>
    if node = start then true
    else if node ∈ seen then search edges start fuel stack seen
    else search edges start fuel (successors edges node ++ stack) (node :: seen)

def reaches_itself (edges : List (Node × Node)) (start : Node) : Bool :=
  search edges start (2 * edges.length + 1) (successors edges start) []

/-- A kernel on a cycle of streams keeps the order of its accesses. -/
def mark_cycles (top : Task) (p : AiePartition) : AiePartition :=
  let edges := stream_edges g top p
  { p with
    kernels := p.kernels.zipIdx.map fun (k, index) =>
      { k with ordered := reaches_itself edges (.Kernel index) } }

/-! ## The derivation -/

/-- No PL task below the top invokes an AI Engine task. -/
def check_invoked_by_top (x : Str × Task) : Except Halt Unit :=
  if x.1 = g.top || is_aie g x.1 then .ok ()
  else
    refuse (x.2.tasks.toList.find? fun child => is_aie g child.1) fun child =>
      Halt.error (.PlInvokesAie x.1 child.1 g.top)

/-- One argument of an invocation by the top, in the scope of what it invokes. -/
def bind_top_arg (top : Task) (child : Str)
    (state : BTreeMap Str Binding × Builder) (x : Str × Arg) :
    Except Halt (BTreeMap Str Binding × Builder) := do
  let (binding, b) ← top_binding g top child x.1 x.2 state.2
  pure (state.1.insert x.1 binding, b)

/-- One invocation of an AI Engine task by the top. -/
def visit_top (fuel : Nat) (top : Task) (child : Str) (b : Builder)
    (x : TaskInstance × Nat) : Except Halt Builder := do
  let (inst, index) := x
  let run_forever ← check_invoke_step child inst.step b.partition.run_forever
  let name := inst.canonical_name child index
  let (scope, b) ← inst.args.toList.foldlM (bind_top_arg g top child)
    (∅, b.set_run_forever run_forever)
  visit g fuel child index (sanitize_identifier_name name) [(child, index)] scope b

def visit_definition (fuel : Nat) (top : Task) (b : Builder)
    (x : Str × List TaskInstance) : Except Halt Builder := do
  let _ ← task g x.1
  if !is_aie g x.1 then pure b
  else x.2.zipIdx.foldlM (visit_top g fuel top x.1) b

end

def Builder.start : Builder where
  partition := { kernels := [], streams := [], run_forever := false }
  top_streams := ∅
  sources := []
  leaves := []

/-- The partition of a graph, or none where no task is on the AI Engine, with where its
streams and kernels come from. -/
def derive_with_origins (fuel : Nat) (g : Graph) : Except Halt (Option Builder) := do
  if !g.tasks.toList.any (fun x => is_aie g x.1) then return none
  let top ← task g g.top
  g.tasks.toList.forM (check_invoked_by_top g)
  let b ← top.tasks.toList.foldlM (visit_definition g fuel top) Builder.start
  check_locations g b.partition.kernels
  return some { b with partition := mark_cycles g top b.partition }

def derive (fuel : Nat) (g : Graph) : Except Halt (Option AiePartition) :=
  (derive_with_origins fuel g).map fun b => b.map Builder.partition

end Tapa.AiEngine
