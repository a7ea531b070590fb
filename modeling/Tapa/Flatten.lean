-- Flattening (`transforms.rs`): every leaf invocation of the hierarchy moves
-- under the top task, and the FIFOs of nested tasks get global names. The
-- recursion has fuel, since a task that invokes itself never comes to an end.
import Tapa.Fallible
import Tapa.TaskGraph

namespace Tapa.Ir

open Text

/-! ## Names -/

def should_materialize_fifo (fifo : InterconnectDefinition) (is_top_scope : Bool) : Bool :=
  is_top_scope || fifo.depth.isSome

def in_scope (name scope_path : Str) : Str := name ++ '_' :: scope_path

/-- The global name of a FIFO. An external FIFO keeps the name of its port. -/
def global_name (fifo_name : Str) (fifo : InterconnectDefinition) (scope_path : Str) : Str :=
  if fifo.depth.isNone then fifo_name else in_scope fifo_name scope_path

/-- The FIFOs of a scope with their global names. -/
def fifo_global_map (task : Task) (is_top_scope : Bool) (scope_path : Str) : BTreeMap Str Str :=
  task.fifos.filterMap fun fifo_name fifo =>
    if should_materialize_fifo fifo is_top_scope then some (global_name fifo_name fifo scope_path)
    else none

/-- What a name of a scope stands for outside of it. -/
def resolve_scoped_arg (local_name : Str) (fifo_global_map : BTreeMap Str Str)
    (arg_bindings : BTreeMap Str ArgSource) : ArgSource :=
  match fifo_global_map[local_name]? with
  | some global => .Name global
  | none =>
    match arg_bindings[local_name]? with
    | some bound => bound
    | none =>
      match split_array_index local_name with
      | some (base, idx, []) =>
        -- Only a name has lanes to offset into.
        match arg_bindings[base]? with
        | some (.Name bound) => .Name (offset_array_binding bound idx)
        | _ =>
          match fifo_global_map[base]? with
          | some bound => .Name (offset_array_binding bound idx)
          | none => .Name local_name
      | _ => .Name local_name

/-- A constant has no scope to resolve against. -/
def resolve_source (fifo_global_map : BTreeMap Str Str) (arg_bindings : BTreeMap Str ArgSource) :
    ArgSource → ArgSource
  | .Literal value => .Literal value
  | .Name name => resolve_scoped_arg name fifo_global_map arg_bindings

def resolve_args (inst : TaskInstance) (fifo_global_map : BTreeMap Str Str)
    (arg_bindings : BTreeMap Str ArgSource) : BTreeMap Str Arg :=
  inst.args.map fun _ arg =>
    { arg := resolve_source fifo_global_map arg_bindings arg.arg
      cat := arg.cat }

/-! ## The traversal -/

structure TaskOccurrence where
  parent : Option Nat
  source : Option EndpointRef
  global_name : Str
  flat_endpoint : Option EndpointRef

/-- What the traversal has collected. -/
structure FlatInstances where
  leaves : BTreeMap Str (List TaskInstance)
  fifos : BTreeMap Str InterconnectDefinition
  occurrences : List TaskOccurrence

inductive TransformError where
  | MissingTop (name : Str)
  | TopIsLeaf (name : Str)
  | FifoNameCollision (name : Str)
deriving DecidableEq, Repr

/-- Why there is no result: an error, or a traversal that is not at its end. -/
inductive Halt where
  | error (e : TransformError)
  | unfinished
deriving DecidableEq, Repr

/-- The leaves of one definition. -/
def FlatInstances.of (c : FlatInstances) (definition : Str) : List TaskInstance :=
  c.leaves[definition]?.getD []

def FlatInstances.push_leaf (c : FlatInstances) (owner : Nat) (source : EndpointRef)
    (inst : TaskInstance) : FlatInstances where
  leaves := c.leaves.insert source.1 (c.of source.1 ++ [inst])
  fifos := c.fifos
  occurrences := c.occurrences ++ [
    { parent := some owner
      source := some source
      global_name := inst.canonical_name source.1 (c.of source.1).length
      flat_endpoint := some (source.1, (c.of source.1).length) }]

def FlatInstances.push_scope (c : FlatInstances) (owner : Nat) (source : EndpointRef)
    (child_scope : Str) : FlatInstances where
  leaves := c.leaves
  fifos := c.fifos
  occurrences := c.occurrences ++ [
    { parent := some owner
      source := some source
      global_name := child_scope
      flat_endpoint := none }]

def get_task (graph : TaskGraph) (name : Str) : Except Halt Task :=
  match graph.tasks[name]? with
  | some task => .ok task
  | none => .error (.error (.MissingTop name))

/-- Enter one FIFO under its global name, which must be free. -/
def register_fifo (task : Task) (c : FlatInstances) (entry : Str × Str) :
    Except Halt FlatInstances :=
  match task.fifos[entry.1]? with
  | none => .ok c -- The map has names of the task only.
  | some fifo =>
    if entry.2 ∈ c.fifos then .error (.error (.FifoNameCollision entry.2))
    else .ok { c with fifos := c.fifos.insert entry.2 fifo }

/-- The leaf under the top task. A name of its own is local to its scope. -/
def leaf_instance (inst : TaskInstance) (is_top_scope : Bool) (scope_path : Str)
    (resolved_args : BTreeMap Str Arg) : TaskInstance where
  name := inst.name.map fun name => if is_top_scope then name else in_scope name scope_path
  args := resolved_args
  step := inst.step

/-- One invocation of a task: a leaf is collected, and `descend` takes the
traversal into an upper task. -/
def visit_invocation (graph : TaskGraph)
    (descend : Str → Str → BTreeMap Str ArgSource → Nat → FlatInstances → Except Halt FlatInstances)
    (is_top_scope : Bool) (scope_path : Str) (fifos : BTreeMap Str Str)
    (arg_bindings : BTreeMap Str ArgSource) (owner : Nat) (c : FlatInstances)
    (x : Str × Nat × TaskInstance) : Except Halt FlatInstances := do
  let (child_def_name, idx, inst) := x
  let resolved_args := resolve_args inst fifos arg_bindings
  let child_def ← get_task graph child_def_name
  if child_def.level = .Lower then
    .ok (c.push_leaf owner (child_def_name, idx)
      (leaf_instance inst is_top_scope scope_path resolved_args))
  else
    let child_scope := in_scope (inst.canonical_name child_def_name idx) scope_path
    descend child_def_name child_scope (resolved_args.map fun _ arg => arg.arg)
      c.occurrences.length (c.push_scope owner (child_def_name, idx) child_scope)

def collect_leaves_recursive (graph : TaskGraph) : Nat → Str → Str → BTreeMap Str ArgSource →
    Nat → FlatInstances → Except Halt FlatInstances
  | 0, _, _, _, _, _ => .error .unfinished
  | fuel + 1, task_name, scope_path, arg_bindings, owner, collected => do
    let task ← get_task graph task_name
    let is_top_scope := task_name = graph.top && scope_path = graph.top
    let fifos := fifo_global_map task is_top_scope scope_path
    let collected ← task.invocations.foldlM
      (visit_invocation graph (collect_leaves_recursive graph fuel) is_top_scope scope_path fifos
        arg_bindings owner) collected
    fifos.toList.foldlM (register_fifo task) collected

/-! ## The flat graph -/

inductive EndpointRole where
  | Consumer | Producer

def EndpointRole.matches : EndpointRole → ArgCategory → Bool
  | Consumer, cat => cat.is_input_stream
  | Producer, cat => cat.is_output_stream

/-- The first leaf that has the FIFO on its side. -/
def find_endpoint (instantiations : BTreeMap Str (List TaskInstance)) (fifo_global : Str)
    (role : EndpointRole) : Option EndpointRef :=
  instantiations.toList.findSome? fun (task_name, insts) =>
    insts.zipIdx.findSome? fun (inst, idx) =>
      inst.args.toList.findSome? fun (_, arg) =>
        if arg.name = some fifo_global && role.matches arg.cat then some (task_name, idx) else none

/-- The two ends of each FIFO, where the declaration has one. -/
def fill_endpoints (collected : FlatInstances) : BTreeMap Str InterconnectDefinition :=
  collected.fifos.map fun fifo_name fifo =>
    { depth := fifo.depth
      consumed_by := fifo.consumed_by.bind fun _ =>
        find_endpoint collected.leaves fifo_name .Consumer
      produced_by := fifo.produced_by.bind fun _ =>
        find_endpoint collected.leaves fifo_name .Producer }

structure FlatProjection where
  flat : TaskGraph
  occurrences : List TaskOccurrence

/-- Nothing collected yet, with the top as the first occurrence. -/
def FlatInstances.start (top_name : Str) : FlatInstances where
  leaves := ∅
  fifos := ∅
  occurrences :=
    [{ parent := none, source := none, global_name := top_name, flat_endpoint := none }]

def flat_graph (graph : TaskGraph) (top_def : Task) (collected : FlatInstances) : TaskGraph where
  top := graph.top
  tasks :=
    (graph.tasks.filter fun name _ => name ∈ collected.leaves).insert graph.top
      { top_def with tasks := collected.leaves, fifos := fill_endpoints collected }

def flatten_with_origins (fuel : Nat) (graph : TaskGraph) : Except Halt FlatProjection := do
  let top_def ← get_task graph graph.top
  if top_def.level = .Lower then throw (.error (.TopIsLeaf graph.top))
  let collected ← collect_leaves_recursive graph fuel graph.top graph.top ∅ 0
    (FlatInstances.start graph.top)
  pure { flat := flat_graph graph top_def collected, occurrences := collected.occurrences }

end Tapa.Ir
