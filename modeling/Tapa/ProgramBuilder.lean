-- How tapacc merges translation units into one task graph (`program_builder.cpp`): each
-- unit is indexed, the sighted definitions are merged and the tasks discovered from the
-- top, and each task is then filled from the unit that owns it.
import Tapa.Sources

namespace Tapa.Merge

open Text Frontend Fallible
open Ir (BTreeMap)

/-! ## The index -/

/-- A definition sighted in a translation unit. -/
structure DefSighting where
  key : Str
  site : Str
  primary_key : Str
  name : Str
  plain_name : Str
  readable_name : Str
  fqn : Str
  signature : Str
  parameter_names : List Str
  loc : Str
  tu : Nat
  is_spec : Bool
  implicit_spec : Bool
  task_shaped : Bool
  ignored : Bool
  explicit_target : Bool
  internal : Bool
  level : TaskLevel
  target : SynthTarget
deriving DecidableEq

structure InvokeEdge where
  caller_key : Str
  callee_key : Str
  callee_fqn : Str
  callee_name : Str
  caller_name : Str
  loc : Str
  tu : Nat
deriving DecidableEq

/-- The sightings of one key, of which there is a first one. -/
structure Sightings where
  first : DefSighting
  rest : List DefSighting
deriving DecidableEq

def Sightings.all (s : Sightings) : List DefSighting := s.first :: s.rest

def Sightings.map (f : DefSighting → DefSighting) (s : Sightings) : Sightings :=
  ⟨f s.first, s.rest.map f⟩

structure TuIndex where
  visible : BTreeMap Str Nat
  defs : List DefSighting
  invokes : List InvokeEdge

structure Options where
  top : Str
  default_target : SynthTarget
  task_targets : BTreeMap Str SynthTarget

/-- The shared index: the sightings by key, and the invoke edges in the order in which
they were recorded. -/
structure Index where
  tu_files : List Str
  defs : BTreeMap Str Sightings
  edges : List InvokeEdge

def Index.equal_range (b : Index) (key : Str) : List InvokeEdge :=
  b.edges.filter (·.caller_key = key)

/-- What a rule of the merge reports. -/
inductive MergeError where
  | no_mapped_task (name : Str)
  | defined_differently (first other : DefSighting)
  | different_graph (first other : DefSighting) (first_invokes other_invokes : List InvokeEdge)
  | internal_task (sighting : DefSighting)
  | no_top
  | multiple_tops (a b : DefSighting)
  | ignored_top (sighting : DefSighting)
  | aie_top (sighting : DefSighting)
  | no_definition (edge : InvokeEdge) (same_name : Option DefSighting)
  | internal_callee (callee : DefSighting) (edge : InvokeEdge)
  | cycle (key : Str)
  | marked_for_another_target (child caller : Str) (edge : InvokeEdge)
  | two_locations (first other : DefSighting)
  | redefined (plain_name : Str) (a b : DefSighting)
  | guard_collision (owner key guard : Str)
  | closes_into_aie (producer port consumer fifo upper : Str)
deriving DecidableEq

namespace MergeError

variable (tu_files : List Str)

def file_of (s : DefSighting) : String := String.ofList ((tu_files[s.tu]?).getD [])

def located (s : DefSighting) : String :=
  String.ofList s.loc ++ " (" ++ file_of tu_files s ++ ")"

def scanned_tus : String := ", ".intercalate (tu_files.map String.ofList)

def invoke_list (invokes : List InvokeEdge) : String :=
  if invokes.isEmpty then "no tasks"
  else ", ".intercalate (invokes.map fun e => "'" ++ String.ofList e.callee_name ++ "'")

def message (top : Str) : MergeError → String
  | no_mapped_task name =>
    "--target maps '" ++ String.ofList name ++ "', but no task of that name is defined " ++
      "(scanned translation units: " ++ scanned_tus tu_files ++ ")"
  | defined_differently first other =>
    "task '" ++ String.ofList first.name ++ "' is defined differently in two translation units: " ++
      located tu_files other ++ " and " ++ located tu_files first ++
      "; a task sighted in several translation units must be identical in each"
  | different_graph first other first_invokes other_invokes =>
    "task '" ++ String.ofList first.name ++
      "' builds a different task graph in two translation units: " ++
      located tu_files other ++ " invokes " ++ invoke_list other_invokes ++ " but " ++
      located tu_files first ++ " invokes " ++ invoke_list first_invokes ++
      "; a task sighted in several translation units must build the same task graph in each"
  | internal_task s =>
    "'" ++ String.ofList s.fqn ++ "' at " ++ String.ofList s.loc ++
      " builds a tapa::task() but is not an externally linked global function (static, " ++
      "anonymous namespace, or a member function), so it can never be a task; give it " ++
      "external linkage"
  | no_top =>
    "top-level task '" ++ String.ofList top ++ "' not found (scanned translation units: " ++
      scanned_tus tu_files ++ ")"
  | multiple_tops a b =>
    "top-level task '" ++ String.ofList top ++ "' has multiple definitions: " ++
      located tu_files a ++ " and " ++ located tu_files b
  | ignored_top s =>
    "tapa top-level task function cannot be ignored (defined at " ++ String.ofList s.loc ++ ")"
  | aie_top s =>
    "top-level task '" ++ String.ofList top ++ "' (defined at " ++ String.ofList s.loc ++
      ") cannot be an AI Engine task: the PL kernel owns the control interface, so mark the " ++
      "tasks it invokes instead"
  | no_definition edge same_name =>
    "task '" ++ String.ofList edge.callee_name ++ "' is invoked by '" ++
      String.ofList edge.caller_name ++ "' at " ++ String.ofList edge.loc ++
      " but has no definition in any scanned translation unit (" ++ scanned_tus tu_files ++ ")" ++
      match same_name with
      | none => ""
      | some s => "; a function with the same name but a different signature is defined at " ++
          located tu_files s
  | internal_callee callee edge =>
    "task '" ++ String.ofList callee.name ++ "' invoked by '" ++
      String.ofList edge.caller_name ++ "' at " ++ String.ofList edge.loc ++
      " has internal linkage (static or anonymous namespace); tasks must have external linkage"
  | cycle key => "task invocation cycle reaches '" ++ String.ofList key ++ "'"
  | marked_for_another_target child caller edge =>
    "task '" ++ String.ofList child ++ "' is invoked by the AI Engine task '" ++
      String.ofList caller ++ "' at " ++ String.ofList edge.loc ++
      " but is marked for another target; an AI Engine upper task puts its whole subtree on " ++
      "the AI Engine"
  | two_locations first other =>
    "task '" ++ String.ofList first.name ++ "' is defined at two locations: " ++
      located tu_files first ++ " and " ++ located tu_files other ++
      "; a task must be defined in exactly one place (a task defined in a header shared by " ++
      "several translation units is one definition and merges silently)"
  | redefined plain_name a b =>
    "task '" ++ String.ofList plain_name ++ "' re-defined: " ++ located tu_files b ++ " and " ++
      located tu_files a ++ "; task names must be unique across the program"
  | guard_collision owner key guard =>
    "task keys '" ++ String.ofList owner ++ "' and '" ++ String.ofList key ++
      "' both sanitize to rewritten-tree guard '" ++ String.ofList guard ++ "'"
  | closes_into_aie producer port consumer fifo upper =>
    "task '" ++ String.ofList producer ++ "' closes its stream '" ++ String.ofList port ++
      "', which feeds the AI Engine task '" ++ String.ofList consumer ++ "' through '" ++
      String.ofList fifo ++ "' in '" ++ String.ofList upper ++
      "'; AI Engine streams carry no end-of-transmission token, so send an element count " ++
      "instead of closing the stream"

end MergeError

/-- Why a run stops: a violated rule, a lookup without an entry, a fault of the parser, the
reports of the rewrite pass, or the steps that it was given. -/
inductive Stop where
  | fail (e : MergeError)
  | out_of_range
  | fault (f : Fault)
  | reported (messages : List String)
  | unfinished
deriving DecidableEq

namespace Tu

variable (tu : Tu)

/-- A definition outranks a bare declaration. -/
def record_visible_decl (visible : BTreeMap Str Nat) (key : Str) (f : Nat) : BTreeMap Str Nat :=
  match visible[key]? with
  | none => visible.insert key f
  | some g => if !tu.is_definition g && tu.is_definition f then visible.insert key f else visible

section

variable (default_target : SynthTarget)

def make_facts (f : Nat) : DefSighting where
  key := tu.key_of f
  site := (tu.decl f).site
  primary_key :=
    if tu.is_specialization f then ((tu.decl f).pattern.map tu.key_of).getD [] else []
  name := tu.task_name f
  plain_name := (tu.decl f).plain_name
  readable_name := (tu.decl f).readable_name
  fqn := (tu.decl f).fqn
  signature := (tu.decl f).signature
  parameter_names := (tu.decl f).params.map (·.name)
  loc := (tu.decl f).loc
  tu := 0
  is_spec := tu.is_specialization f
  implicit_spec := (tu.decl f).specialization = some .implicit_instantiation
  task_shaped := (tu.get_tapa_task_object f).isSome
  ignored := tu.is_ignored f
  explicit_target := (tu.decl f).target_attr.isSome
  internal := !(tu.decl f).is_global
  level := tu.level_of f
  target := tu.resolve_target f default_target

/-- Records a declaration, and a definition as sighted, once for each key. -/
def record_sighting (index : TuIndex) (f : Nat) : TuIndex :=
  { index with
    visible := tu.record_visible_decl index.visible (tu.key_of f) f
    defs :=
      if tu.is_definition f && !index.defs.any (·.key = tu.key_of f) then
        index.defs ++ [tu.make_facts default_target f]
      else index.defs }

/-- Records an invoke. A specialization is sighted only through the invoke that
instantiates it. -/
def record_invoke (caller : DefSighting) (index : TuIndex) (invoke : InvokeExpr) : TuIndex :=
  match invoke.callee with
  | none => index
  | some callee =>
    let index := tu.record_sighting default_target index callee
    { index with
      invokes := index.invokes ++
        [⟨caller.key, tu.key_of callee, (tu.decl callee).fqn, (tu.decl callee).plain_name,
          caller.plain_name, invoke.loc, 0⟩] }

/-- The invokes of a sighted definition, if its source says that it is an upper task. -/
def record_invokes (index : TuIndex) (caller : DefSighting) : TuIndex :=
  if caller.level = .kUpper then
    ((index.visible[caller.key]?.map tu.get_invokes).getD []).foldl
      (tu.record_invoke default_target caller) index
  else index

end

/-- The loop over the sighted definitions, which may grow. -/
def index_invokes (default_target : SynthTarget) : Nat → Nat → TuIndex → Except Stop TuIndex
  | fuel, i, index =>
    match index.defs[i]? with
    | none => .ok index
    | some caller =>
      match fuel with
      | 0 => .error .unfinished
      | fuel + 1 =>
        index_invokes default_target fuel (i + 1) (tu.record_invokes default_target index caller)

def index_tu_impl (fuel : Nat) (default_target : SynthTarget) : Except Stop TuIndex :=
  tu.index_invokes default_target fuel 0
    (tu.visited.foldl (tu.record_sighting default_target) ⟨∅, [], []⟩)

end Tu

def push_sighting (defs : BTreeMap Str Sightings) (s : DefSighting) : BTreeMap Str Sightings :=
  match defs[s.key]? with
  | none => defs.insert s.key ⟨s, []⟩
  | some sightings => defs.insert s.key { sightings with rest := sightings.rest ++ [s] }

/-- The number of a file among those that are registered. -/
def find_tu (tu_files : List Str) (file : Str) : Option Nat :=
  if file ∈ tu_files then some (tu_files.idxOf file) else none

def register_tu (tu_files : List Str) (file : Str) : Nat × List Str :=
  match find_tu tu_files file with
  | some tu => (tu, tu_files)
  | none => (tu_files.length, tu_files ++ [file])

/-- Adds the index of a translation unit under its number. -/
def Index.add (b : Index) (file : Str) (index : TuIndex) : Index :=
  let r := register_tu b.tu_files file
  { tu_files := r.2
    defs := (index.defs.map fun s => { s with tu := r.1 }).foldl push_sighting b.defs
    edges := b.edges ++ index.invokes.map fun e => { e with tu := r.1 } }

def Index.index_tu (fuel : Nat) (o : Options) (b : Index) (tu : Tu) : Except Stop Index := do
  let index ← tu.index_tu_impl fuel o.default_target
  pure (b.add tu.file index)

def index_tus (fuel : Nat) (o : Options) (tus : List Tu) : Except Stop Index :=
  tus.foldlM (Index.index_tu fuel o) ⟨[], ∅, []⟩

/-! ## Target mappings -/

def DefSighting.matches (s : DefSighting) (name : Str) : Bool :=
  !s.internal && (s.plain_name = name || s.name = name || s.readable_name = name)

def DefSighting.retarget (s : DefSighting) (target : SynthTarget) : DefSighting :=
  { s with
    target := target
    explicit_target := true
    ignored := target = .kIgnore
    level := if target ≠ .kIgnore ∧ s.task_shaped then .kUpper else .kLower }

/-- One mapping of a name to a target, for one sighting. -/
def DefSighting.map_target (mapping : Str × SynthTarget) (s : DefSighting) : DefSighting :=
  if s.matches mapping.1 then s.retarget mapping.2 else s

/-- One mapping of a name to a target, over all sightings. -/
def Index.apply_task_target (b : Index) (mapping : Str × SynthTarget) : Except Stop Index :=
  if b.defs.toList.any fun p => p.2.all.any (·.matches mapping.1) then
    .ok { b with defs := b.defs.map fun _ => Sightings.map (DefSighting.map_target mapping) }
  else .error (.fail (.no_mapped_task mapping.1))

def Index.apply_task_targets (b : Index) (o : Options) : Except Stop Index :=
  o.task_targets.toList.foldlM Index.apply_task_target b

/-! ## The rules before discovery -/

/-- The invokes that were recorded with a sighting. -/
def Index.sighted_invokes (b : Index) (s : DefSighting) : List InvokeEdge :=
  (b.equal_range s.key).filter (·.tu = s.tu)

/-- Two sightings of one key agree, and sight the same invokes. -/
def Index.check_sighting (b : Index) (first other : DefSighting) : Except Stop Unit :=
  if first.level ≠ other.level ∨ first.target ≠ other.target ∨
      first.readable_name ≠ other.readable_name ∨ first.signature ≠ other.signature then
    .error (.fail (.defined_differently first other))
  else if (b.sighted_invokes first).map (·.callee_key) ≠
      (b.sighted_invokes other).map (·.callee_key) then
    .error (.fail (.different_graph first other (b.sighted_invokes first)
      (b.sighted_invokes other)))
  else .ok ()

def Index.check_sightings (b : Index) : Except Stop Unit :=
  b.defs.toList.forM fun p => p.2.rest.forM (b.check_sighting p.2.first)

def Index.check_linkage (b : Index) : Except Stop Unit :=
  b.defs.toList.forM fun p =>
    if p.2.first.internal && p.2.first.task_shaped then
      .error (.fail (.internal_task p.2.first))
    else .ok ()

def Index.top_candidates (b : Index) (top : Str) : List DefSighting :=
  (b.defs.toList.map fun p => p.2.first).filter fun s => !s.internal && s.plain_name = top

def Index.resolve_top (b : Index) (o : Options) : Except Stop DefSighting :=
  match b.top_candidates o.top with
  | [] => .error (.fail .no_top)
  | s :: t :: _ => .error (.fail (.multiple_tops s t))
  | [s] =>
    if s.ignored then .error (.fail (.ignored_top s))
    else if s.target = .kAie then .error (.fail (.aie_top s))
    else .ok s

/-! ## Discovery -/

structure TaskModel where
  is_template_spec : Bool
  name : Str
  readable_name : Str
  level : TaskLevel
  target : SynthTarget
  ports : List TaskPort
  aie_locations : List AieLocation
  closed_ports : List Str
  instances : BTreeMap Str (List Instance)
  streams : BTreeMap Str StreamDecl

structure MergedTask where
  owner_tu : Nat
  invoker_key : Option Str
  primary_key : Str
  model : TaskModel

abbrev Tasks := BTreeMap Str MergedTask

/-- The tasks so far, and the keys of those whose invokes are still to follow. -/
abbrev Discovery := Tasks × List Str

/-- A task that is not filled yet. -/
def DefSighting.task (s : DefSighting) (invoker_key : Option Str) : MergedTask :=
  ⟨s.tu, invoker_key, s.primary_key,
    ⟨s.is_spec, s.name, s.readable_name, s.level, s.target, [], [], [], ∅, ∅⟩⟩

def discover (d : Discovery) (s : DefSighting) (invoker_key : Option Str) : Discovery :=
  match d.1[s.key]? with
  | some _ => d
  | none => (d.1.insert s.key (s.task invoker_key), d.2 ++ [s.key])

/-- Every invoke resolves to a definition with external linkage. -/
def Index.discover_callee (b : Index) (key : Str) (d : Discovery) (edge : InvokeEdge) :
    Except Stop Discovery :=
  match b.defs[edge.callee_key]? with
  | none => .error (.fail (.no_definition edge
      ((b.defs.toList.map fun p => p.2.first).find? (·.fqn = edge.callee_fqn))))
  | some sightings =>
    if sightings.first.internal then .error (.fail (.internal_callee sightings.first edge))
    else .ok (discover d sightings.first (if sightings.first.is_spec then some key else none))

/-- Breadth first over the merged edges; only an upper task has invokes to follow. -/
def Index.discover_all (b : Index) : Nat → Discovery → Except Stop Tasks
  | _, (tasks, []) => .ok tasks
  | 0, (_, _ :: _) => .error .unfinished
  | fuel + 1, (tasks, key :: work) =>
    match tasks[key]? with
    | none => .error .out_of_range
    | some task =>
      if task.model.level = .kUpper then do
        let d ← (b.equal_range key).foldlM (b.discover_callee key) (tasks, work)
        b.discover_all fuel d
      else b.discover_all fuel (tasks, work)

/-! ## Propagation of the AI Engine -/

/-- Where the search for a cycle stands with a key. -/
inductive Mark where
  | unseen | open | closed
deriving DecidableEq

abbrev Marks := Str → Mark

def Marks.set (state : Marks) (key : Str) (mark : Mark) : Marks :=
  fun k => if k = key then mark else state k

/-- One edge of the search for a cycle. -/
def search_edge (search : Marks → Str → Except Stop (Bool × Marks)) (r : Bool × Marks)
    (key : Str) : Except Stop (Bool × Marks) :=
  if r.1 then pure r
  else
    match r.2 key with
    | .open => pure (true, r.2)
    | .unseen => search r.2 key
    | .closed => pure r

def Index.has_cycle (b : Index) : Nat → Marks → Str → Except Stop (Bool × Marks)
  | 0, _, _ => .error .unfinished
  | fuel + 1, state, key => do
    let r ← (b.equal_range key).foldlM
      (fun r edge => search_edge (b.has_cycle fuel) r edge.callee_key)
      (false, Marks.set state key .open)
    pure (r.1, if r.1 then r.2 else Marks.set r.2 key .closed)

def Index.check_cycle (b : Index) (fuel : Nat) (state : Marks) (p : Str × MergedTask) :
    Except Stop Marks :=
  if state p.1 = .unseen then do
    let r ← b.has_cycle fuel state p.1
    if r.1 then .error (.fail (.cycle p.1)) else pure r.2
  else pure state

def Index.check_cycles (b : Index) (fuel : Nat) (tasks : Tasks) : Except Stop Marks :=
  tasks.toList.foldlM (b.check_cycle fuel) fun _ => .unseen

def MergedTask.on_aie (task : MergedTask) : MergedTask :=
  { task with model := { task.model with target := .kAie } }

/-- Puts a child of an AI Engine task on the AI Engine. -/
def Index.propagate_child (b : Index) (key : Str) (d : Discovery) (edge : InvokeEdge) :
    Except Stop Discovery :=
  match d.1[edge.callee_key]?, b.defs[edge.callee_key]? with
  | some child, some sightings =>
    if sightings.first.explicit_target && sightings.first.target ≠ .kAie then
      .error (.fail (.marked_for_another_target child.model.name
        ((d.1[key]?.map (·.model.name)).getD []) edge))
    else
      .ok (d.1.insert edge.callee_key child.on_aie,
        if child.model.level = .kUpper then d.2 ++ [edge.callee_key] else d.2)
  | _, _ => .error .out_of_range

def Index.propagate (b : Index) : Nat → Discovery → Except Stop Tasks
  | _, (tasks, []) => .ok tasks
  | 0, (_, _ :: _) => .error .unfinished
  | fuel + 1, (tasks, key :: work) => do
    let d ← (b.equal_range key).foldlM (b.propagate_child key) (tasks, work)
    b.propagate fuel d

def aie_uppers (tasks : Tasks) : List Str :=
  (tasks.toList.filter fun p =>
    p.2.model.target = .kAie && p.2.model.level = .kUpper).map Prod.fst

def Index.propagate_aie (b : Index) (fuel : Nat) (tasks : Tasks) : Except Stop Tasks := do
  let _ ← b.check_cycles fuel tasks
  b.propagate fuel (tasks, aie_uppers tasks)

/-! ## The rules after discovery -/

/-- The sightings of a task that have a site of their own are at the site of the first. -/
def Index.check_site (b : Index) (p : Str × MergedTask) : Except Stop Unit :=
  match b.defs[p.1]? with
  | none => .error .out_of_range
  | some sightings =>
    sightings.all.forM fun other =>
      if other.implicit_spec || other.internal || other.site = sightings.first.site then .ok ()
      else .error (.fail (.two_locations sightings.first other))

/-- The definitions that take a plain name. -/
def Index.by_plain_name (b : Index) (plain_name : Str) : List DefSighting :=
  (b.defs.toList.map fun p => p.2.first).filter fun s =>
    !s.internal && !s.implicit_spec && s.plain_name = plain_name

def Index.check_redefined (b : Index) (p : Str × MergedTask) : Except Stop Unit :=
  match b.defs[p.1]? with
  | none => .error .out_of_range
  | some sightings =>
    match b.by_plain_name sightings.first.plain_name with
    | s :: t :: _ => .error (.fail (.redefined sightings.first.plain_name s t))
    | _ => .ok ()

def task_guard_define (task_key : Str) : Str :=
  "TAPA_TASK_DEF_".toList ++ task_key.map fun c =>
    if ('a' ≤ c ∧ c ≤ 'z') ∨ ('A' ≤ c ∧ c ≤ 'Z') ∨ ('0' ≤ c ∧ c ≤ '9') ∨ c = '_' then c else '_'

/-- Two names that select one guard collide; a name that stands twice does not. -/
def guard_owner (owners : BTreeMap Str Str) (key : Str) : Except Stop (BTreeMap Str Str) :=
  match owners[task_guard_define key]? with
  | none => .ok (owners.insert (task_guard_define key) key)
  | some owner =>
    if owner = key then .ok owners
    else .error (.fail (.guard_collision owner key (task_guard_define key)))

def task_guard_collision (task_keys : List Str) : Except Stop (BTreeMap Str Str) :=
  task_keys.foldlM guard_owner ∅

/-- The merged index and the tasks that are discovered from the top. -/
def Index.merge_and_discover (b : Index) (fuel : Nat) (o : Options) :
    Except Stop (Index × Tasks) := do
  let b ← b.apply_task_targets o
  b.check_sightings
  b.check_linkage
  let top ← b.resolve_top o
  let tasks ← b.discover_all fuel (discover (∅, []) top none)
  let tasks ← b.propagate_aie fuel tasks
  tasks.toList.forM b.check_site
  tasks.toList.forM b.check_redefined
  let _ ← task_guard_collision (tasks.toList.map fun p => p.2.model.name)
  pure (b, tasks)

/-! ## The rewrite pass -/

/-- The declaration of a task in the unit: its own, or that of its pattern. -/
def view_def (visible : BTreeMap Str Nat) (p : Str × MergedTask) : Option Nat :=
  match visible[p.1]? with
  | some f => some f
  | none =>
    if p.2.model.is_template_spec && !p.2.primary_key.isEmpty then visible[p.2.primary_key]?
    else none

/-- Adds a task to the view; the first key takes the name. -/
def view_task (visible : BTreeMap Str Nat) (view : BTreeMap Str (Nat × TaskModel))
    (p : Str × MergedTask) : BTreeMap Str (Nat × TaskModel) :=
  match view_def visible p with
  | none => view
  | some f =>
    if p.2.model.name ∈ view then view else view.insert p.2.model.name (f, p.2.model)

/-- The instances by the names of the invoked tasks. -/
def instances_of (body : Body) (s : Frontend.TaskModel) : BTreeMap Str (List Instance) :=
  body.invokes.foldl (fun m inv => m.insert inv.callee.task_name
    (s.instances inv.callee.task_name)) ∅

namespace Tu

variable (tu : Tu)

def record_decl (visible : BTreeMap Str Nat) (f : Nat) : BTreeMap Str Nat :=
  tu.record_visible_decl visible (tu.key_of f) f

/-- The declarations visible in the unit; a specialization is visible through the invoke
of an upper task that is written there. -/
def visible_decls : BTreeMap Str Nat :=
  let visible := tu.visited.foldl tu.record_decl ∅
  let uppers := tu.visited.filter fun f => tu.is_definition f && tu.level_of f = .kUpper
  (uppers.flatMap fun f => (tu.get_invokes f).filterMap (·.callee)).foldl
    (fun visible callee =>
      if tu.is_specialization callee then tu.record_decl visible callee else visible) visible

/-- The tasks as the unit sees them, by their names. -/
def tu_view (tasks : Tasks) : BTreeMap Str (Nat × TaskModel) :=
  tasks.toList.foldl (view_task tu.visible_decls) ∅

/-- The callee of an invoke, with the formal names of its owning definition. -/
def invoked_callee (b : Index) (callee : Nat) : Except Stop Callee := do
  let params := (tu.decl callee).params
  let names ← if params.isEmpty then pure [] else
    ok_or (b.defs[tu.key_of callee]?.map (·.first.parameter_names)) Stop.out_of_range
  if names.length < params.length then .error .out_of_range
  else pure ⟨tu.task_name callee, List.zipWith ParmVarDecl.bound_as params names⟩

/-- An invoke as the parser reads it; one without a task is passed over. -/
def parsed_invoke (b : Index) (invoke : InvokeExpr) : Except Stop (List Invoke) :=
  match invoke.callee with
  | none => pure []
  | some callee =>
    if invoke.vec_length = 0 then pure []
    else do
      let callee ← tu.invoked_callee b callee
      pure [⟨callee, invoke.step, invoke.name, invoke.vec_length, invoke.args⟩]

def body (b : Index) (f : Nat) (object : TaskObject) (is_top : Bool) : Except Stop Body := do
  let invokes ← object.invokes.mapM (tu.parsed_invoke b)
  pure ⟨is_top, (tu.decl f).params.filterMap ParmVarDecl.in_body ++ object.streams,
    invokes.flatten⟩

section

variable (b : Index) (o : Options)

/-- The instances and streams of an upper task, with what the parser reports. -/
def parse_upper_task (f : Nat) (model : TaskModel) : Except Stop (TaskModel × List String) :=
  match tu.get_tapa_task_object f with
  | none => .ok (model, [])
  | some object => do
    let body ← tu.body b f object (model.name = o.top)
    match body.parse_upper_task with
    | .error f => .error (.fault f)
    | .ok s => pure ({ model with instances := instances_of body s, streams := s.streams },
        s.errors.map Diag.message)

/-- The ports of a task, with what its target asks for. -/
def fill_ports (f : Nat) (model : TaskModel) : TaskModel × List String :=
  let ports := tu.build_ports f
  if model.target = .kAie then
    let attrs := tu.read_aie_attrs f model.name model.level ports.1
    ({ model with ports := attrs.1, aie_locations := attrs.2.1 },
      ports.2 ++ attrs.2.2 ++ tu.check_aie_task f model.name model.level attrs.1)
  else if model.target = .kIgnore then ({ model with ports := ports.1 }, ports.2)
  else ({ model with ports := ports.1, closed_ports := tu.closed_ports f }, ports.2)

/-- Fills a task from its declaration. -/
def fill_model (f : Nat) (model : TaskModel) : Except Stop (TaskModel × List String) :=
  let filled := tu.fill_ports f model
  if model.level = .kUpper then do
    let parsed ← tu.parse_upper_task b o f filled.1
    pure (parsed.1, filled.2 ++ parsed.2)
  else pure filled

def fill_task (view : BTreeMap Str (Nat × TaskModel)) (name : Str) :
    Except Stop (TaskModel × List String) := do
  let entry ← ok_or view[name]? Stop.out_of_range
  tu.fill_model b o entry.1 entry.2

def fill_owned_task (id : Nat) (view : BTreeMap Str (Nat × TaskModel))
    (st : Tasks × List String) (p : Str × MergedTask) : Except Stop (Tasks × List String) :=
  if p.2.owner_tu = id then do
    let r ← tu.fill_task b o view p.2.model.name
    pure (st.1.insert p.1 { p.2 with model := r.1 }, st.2 ++ r.2)
  else pure st

/-- Fills the tasks that the unit owns. -/
def fill_owned_tasks (id : Nat) (st : Tasks × List String) : Except Stop (Tasks × List String) :=
  st.1.toList.foldlM (tu.fill_owned_task b o id (tu.tu_view st.1)) st

end

end Tu

def Index.rewrite_tree_tu (b : Index) (o : Options) (st : Tasks × List String) (tu : Tu) :
    Except Stop (Tasks × List String) := do
  let id ← ok_or (find_tu b.tu_files tu.file) Stop.out_of_range
  tu.fill_owned_tasks b o id st

/-- The rewrite pass over all units, which must report nothing. -/
def Index.rewrite (b : Index) (o : Options) (tasks : Tasks) (tus : List Tu) :
    Except Stop Tasks := do
  let st ← tus.foldlM (b.rewrite_tree_tu o) (tasks, [])
  if st.2 = [] then pure st.1 else .error (.reported st.2)

/-- The task graph of the translation units. -/
def run (fuel : Nat) (o : Options) (tus : List Tu) : Except Stop Tasks := do
  let b ← index_tus fuel o tus
  let (b, tasks) ← b.merge_and_discover fuel o
  b.rewrite o tasks tus

end Tapa.Merge
