-- How tapacc reads the body of an upper task (`invoke_parser.cpp`): the streams that it
-- declares and the chain of invokes, where an array is handed out over the ports that it
-- is passed to by positions that are kept under the name of the argument.
import Tapa.Fallible
import Tapa.TaskGraph

namespace Tapa.Frontend

open Text Fallible
open Ir (BTreeMap)

/-! ## Bodies -/

inductive Direction where
  | istream | ostream
deriving DecidableEq

inductive MmapKind where
  | kMmap | kImmap | kOmmap | kAsyncMmap
deriving DecidableEq

/-- What a name in the body stands for: a stream or an array of streams that the body
declares, or one of the task's own parameters. -/
inductive Decl where
  | stream (depth : Nat)
  | streams (length depth : Nat)
  | port (dir : Direction)
  | ports (dir : Direction) (length : Nat)
  | mmap (kind : MmapKind)
  | mmaps (length : Nat)
deriving DecidableEq

def Decl.length : Decl → Option Nat
  | .streams length _ | .ports _ length | .mmaps length => some length
  | _ => none

/-- The type of a scalar parameter: `float` and `double` with the bits of a number. Any other
type, a class or a wider floating one, is known by its spelling, and has the bits that its own
conversion gives a number. -/
inductive ScalarType where
  | boolean
  | integral (width : Nat)
  | floating (width : Nat) (convert : Nat → Nat)
  | other (spelling : Str) (width : Nat) (is_floating : Bool) (convert : Nat → Nat)

def ScalarType.bit_width : ScalarType → Nat
  | .boolean => 8
  | .integral width | .floating width _ | .other _ width _ _ => width

def ScalarType.is_floating : ScalarType → Bool
  | .floating _ _ => true
  | .other _ _ is_floating _ => is_floating
  | _ => false

inductive PortKind where
  | mmap (kind : MmapKind)
  | stream (dir : Direction)
  | streams (dir : Direction) (length : Nat)
  | scalar (type : ScalarType)

structure Port where
  name : Str
  kind : PortKind

structure Callee where
  task_name : Str
  params : List Port

/-- The index of a subscript: its value when the body runs, and whether it is a constant
expression. -/
structure Index where
  value : Int
  constant : Bool

def eval_int (index : Index) : Option Int := if index.constant then some index.value else none

/-- An argument that is no channel: an integer constant, one that does not fit 64 bits, a
variable, which may be a parameter of the task itself, or another expression. -/
inductive ScalarExpr where
  | constant (value : Int)
  | too_wide
  | variable (name : Str) (type : ScalarType) (parent_parameter : Bool)
  | other (stmt_class : String)

inductive Expr where
  | literal (text : Str)
  | decl_ref (name : Str)
  | subscript (base : Str) (index : Index)
  | seq
  | scalar (e : ScalarExpr)

structure Invoke where
  callee : Callee
  step : Int
  name : Option Str
  vec_length : Nat
  args : List Expr

/-- The arguments behind the task, with the name if there is one. -/
def Invoke.arguments (inv : Invoke) : List Expr :=
  (inv.name.map Expr.literal).toList ++ inv.args

/-- An upper task: what the names of its body stand for, and its chain of invokes. -/
structure Body where
  is_top : Bool
  names : List (Str × Decl)
  invokes : List Invoke

def Body.decl (b : Body) (name : Str) : Option Decl := b.names.lookup name

/-! ## Names -/

def to_string : Int → Str
  | .ofNat n => decimal n
  | .negSucc n => '-' :: decimal (n + 1)

/-- The element of an array as it is written. -/
def array_name_at (base : Str) (i : Int) : Str := base ++ '[' :: (to_string i ++ [']'])

def array_base_name (name : Str) : Str := name.takeWhile (· ≠ '[')

/-- The element of an array argument at a position, which wraps around. -/
def array_element (name : Str) (pos : Nat) (ref : Option Decl) : Str :=
  match ref.bind Decl.length with
  | none => name
  | some 0 => name
  | some (len + 1) => array_name_at name (pos % (len + 1) : Nat)

/-! ## The task model -/

inductive Cat where
  | stream (dir : Direction)
  | mmap (kind : MmapKind)
  | scalar
deriving DecidableEq

inductive Arg where
  | named (arg : Str) (cat : Cat)
  | constant (value width : Nat)
deriving DecidableEq

structure Instance where
  step : Int
  name : Option Str
  args : BTreeMap Str Arg

structure Endpoint where
  task : Str
  index : Nat
deriving DecidableEq

structure StreamDecl where
  depth : Option Nat
  declared : Bool
  produced_by : Option Endpoint
  consumed_by : Option Endpoint
deriving DecidableEq

def StreamDecl.endpoint (d : StreamDecl) : Direction → Option Endpoint
  | .istream => d.consumed_by
  | .ostream => d.produced_by

def StreamDecl.set_endpoint (d : StreamDecl) (e : Endpoint) : Direction → StreamDecl
  | .istream => { d with consumed_by := some e }
  | .ostream => { d with produced_by := some e }

inductive Diag where
  | bound_twice (a : Str) (dir : Direction)
  | unsupported_conversion (port : Str)
  | floating_argument (arg port : Str)
  | runtime_argument (arg port : Str)
  | too_wide
  | cannot_bind (stmt_class : String)
  | unbalanced (a : Str) (dir : Direction)
deriving DecidableEq

def Diag.message : Diag → String
  | .bound_twice a .istream => "tapa::stream '" ++ String.ofList a ++ "' consumed more than once"
  | .bound_twice a .ostream => "tapa::stream '" ++ String.ofList a ++ "' produced more than once"
  | .unsupported_conversion port =>
    "unsupported runtime scalar conversion for task port '" ++ String.ofList port ++
      "'; use matching scalar types and convert inside a leaf task"
  | .floating_argument arg port =>
    "floating-point argument '" ++ String.ofList arg ++ "' for task port '" ++
      String.ofList port ++ "' must name a parent task parameter; floating-point " ++
      "constants are unsupported"
  | .runtime_argument arg port =>
    "runtime scalar argument '" ++ String.ofList arg ++ "' for task port '" ++
      String.ofList port ++ "' must name a parent task parameter"
  | .too_wide =>
    "integer constant bound to a task port does not fit the task graph's 64-bit constant form"
  | .cannot_bind stmt_class =>
    "cannot bind a " ++ stmt_class ++ " here; each invoke argument after the task must " ++
      "be a stream or mmap channel, a scalar naming a parent task " ++
      "parameter, or an integer constant"
  | .unbalanced a .istream => "stream '" ++ String.ofList a ++ "' is consumed but never produced"
  | .unbalanced a .ostream => "stream '" ++ String.ofList a ++ "' is produced but never consumed"

/-- Which of the positions `istreams_pos`, `ostreams_pos` and `mmaps_pos` is meant. -/
inductive Access where
  | stream (dir : Direction)
  | mmap
deriving DecidableEq

/-- The model of a task while its body is read: the positions are kept under the names
of the arguments, those of `tapa::seq` under the invoke and the argument. -/
structure TaskModel where
  instances : Str → List Instance
  streams : BTreeMap Str StreamDecl
  pos : Access → Str → Nat
  seq_pos : Nat × Nat → Nat
  errors : List Diag

/-- A position is an `int`: it has no value past the largest one. -/
inductive Fault where
  | signed_overflow
deriving DecidableEq, Repr

/-! ## Streams -/

/-- Whether an argument names one of the task's own streams. -/
def Body.is_stream_port_arg (b : Body) (arg : Str) : Bool :=
  match b.decl (array_base_name arg) with
  | some (.port _) | some (.ports _ _) => true
  | _ => false

/-- The stream that an argument names; a stream port of the top is made one. -/
def Body.find_or_external_stream (b : Body) (streams : BTreeMap Str StreamDecl) (arg : Str) :
    Option StreamDecl :=
  match streams[arg]? with
  | some d => some d
  | none => if b.is_top && b.is_stream_port_arg arg then some ⟨none, false, none, none⟩ else none

/-- Records one end of a stream, and reports if it has one already. -/
def TaskModel.mark (s : TaskModel) (b : Body) (dir : Direction) (a : Str) (e : Endpoint) :
    TaskModel :=
  match b.find_or_external_stream s.streams a with
  | none => s
  | some d =>
    { s with
      errors := if (d.endpoint dir).isSome then s.errors ++ [.bound_twice a dir] else s.errors
      streams := s.streams.insert a (d.set_endpoint e dir) }

def TaskModel.mark_consumer (s : TaskModel) (b : Body) := s.mark b .istream

def TaskModel.mark_producer (s : TaskModel) (b : Body) := s.mark b .ostream

/-- The streams that the body declares, with an entry for each element of an array. -/
def Body.collect_stream_decls (b : Body) : BTreeMap Str StreamDecl :=
  b.names.foldl (fun streams p =>
    match p.2 with
    | .stream depth => streams.insert p.1 ⟨some depth, true, none, none⟩
    | .streams length depth =>
      (List.range length).foldl (fun streams (i : Nat) =>
        streams.insert (array_name_at p.1 i) ⟨some depth, true, none, none⟩) streams
    | _ => streams) ∅

/-! ## Arguments -/

/-- The bits of a constant as the type of its port has them; a negative floating number
differs in its sign bit. -/
def convert_to_port_type (value : Int) : ScalarType → Nat
  | .boolean => if value ≠ 0 then 1 else 0
  | .integral width => (value % 2 ^ 64).toNat % 2 ^ width
  | .floating width convert =>
    if 0 ≤ value then convert value.toNat else 2 ^ (width - 1) + convert (-value).toNat
  | .other _ _ _ _ => (value % 2 ^ 64).toNat

/-- Whether the bits of a scalar can be forwarded to a port. -/
def can_forward_scalar : ScalarType → ScalarType → Bool
  | .boolean, .boolean => true
  | .integral width, .integral width' => width = width'
  | .floating width _, .floating width' _ => width = width'
  | .other spelling _ _ _, .other spelling' _ _ _ => spelling = spelling'
  | _, _ => false

/-- What is known of an argument besides its name, for a port that is no channel. -/
inductive Operand where
  | channel
  | seq
  | constant (value : Int)
  | variable (type : ScalarType) (parent_parameter : Bool)

namespace TaskModel

section

variable (s : TaskModel)

def set_arg (task_name port : Str) (arg : Arg) : TaskModel :=
  { s with
    instances := fun t =>
      if t = task_name then
        (s.instances t).modifyLast fun i => { i with args := i.args.insert port arg }
      else s.instances t }

def set_name (task_name name : Str) : TaskModel :=
  { s with
    instances := fun t =>
      if t = task_name then (s.instances t).modifyLast fun i => { i with name := some name }
      else s.instances t }

def push_instance (task_name : Str) (step : Int) : TaskModel :=
  { s with
    instances := fun t =>
      if t = task_name then s.instances t ++ [⟨step, none, ∅⟩] else s.instances t }

def report (d : Diag) : TaskModel := { s with errors := s.errors ++ [d] }

/-- The next element of an array argument; its position moves on. -/
def next_element (acc : Access) (arg_name : Str) (ref : Option Decl) :
    Except Fault (Str × TaskModel) :=
  if s.pos acc arg_name + 1 < 2 ^ 31 then
    .ok (array_element arg_name (s.pos acc arg_name) ref,
      { s with
        pos := fun acc' name' =>
          if acc' = acc ∧ name' = arg_name then s.pos acc arg_name + 1 else s.pos acc' name' })
  else .error .signed_overflow

def bind_stream (b : Body) (dir : Direction) (task_name arg_name : Str)
    (ref : Option Decl) (port : Str) : Except Fault TaskModel := do
  let r ← s.next_element (.stream dir) arg_name ref
  let inst_index := (r.2.instances task_name).length - 1
  pure ((r.2.mark b dir r.1 ⟨task_name, inst_index⟩).set_arg task_name port
    (.named r.1 (.stream dir)))

def bind_mmap (kind : MmapKind) (task_name arg_name : Str) (ref : Option Decl)
    (port : Str) : Except Fault TaskModel := do
  let r ← s.next_element .mmap arg_name ref
  pure (r.2.set_arg task_name port (.named r.1 (.mmap kind)))

/-- Binds one scalar port to the next value of a sequence. -/
def bind_seq (type : ScalarType) (task_name : Str) (key : Nat × Nat) (port : Str) :
    Except Fault TaskModel :=
  if s.seq_pos key + 1 < 2 ^ 31 then
    .ok ({ s with
        seq_pos := fun key' => if key' = key then s.seq_pos key + 1 else s.seq_pos key' }.set_arg
      task_name port (.constant (convert_to_port_type (s.seq_pos key) type) type.bit_width))
  else .error .signed_overflow

/-- Binds one scalar port to a variable, which must name a parameter of the task. -/
def bind_variable (type : ScalarType) (task_name arg_name port : Str)
    (source : ScalarType) (parent_parameter : Bool) : TaskModel :=
  if source.is_floating && !parent_parameter then s.report (.floating_argument arg_name port)
  else if !can_forward_scalar source type then s.report (.unsupported_conversion port)
  else if !parent_parameter then s.report (.runtime_argument arg_name port)
  else s.set_arg task_name port (.named arg_name .scalar)

def bind_argument (b : Body) (task_name : Str) (param : Port) (key : Nat × Nat)
    (arg_name : Str) (ref : Option Decl) (operand : Operand) : Except Fault TaskModel :=
  match param.kind with
  | .mmap kind => s.bind_mmap kind task_name arg_name ref param.name
  | .stream dir => s.bind_stream b dir task_name arg_name ref param.name
  | .streams dir length =>
    (List.range length).foldlM (fun s (j : Nat) =>
      s.bind_stream b dir task_name arg_name ref (array_name_at param.name j)) s
  | .scalar type =>
    match operand with
    | .seq => s.bind_seq type task_name key param.name
    | .constant value => .ok (s.set_arg task_name param.name
        (.constant (convert_to_port_type value type) type.bit_width))
    | .variable source parent_parameter =>
      .ok (s.bind_variable type task_name arg_name param.name source parent_parameter)
    | .channel => .ok (s.report (.unsupported_conversion param.name))

/-- Binds the argument at index `i` of an invoke to its parameter: the task comes before
it, and the name if there is one. -/
def bind_parameter (b : Body) (inv : Invoke) (number i : Nat) (arg_name : Str)
    (ref : Option Decl) (operand : Operand) : Except Fault TaskModel :=
  let skip := inv.name.isSome.toNat
  if i < 1 + skip then .ok s
  else
    match inv.callee.params[i - 1 - skip]? with
    | none => .ok s
    | some param => s.bind_argument b inv.callee.task_name param (number, i) arg_name ref operand

/-- One argument of an invoke. A subscript of an array of streams is a temporary; one of
an array of memories is not, and is refused. -/
def parse_argument (b : Body) (inv : Invoke) (number i_vec : Nat) (s : TaskModel)
    (arg : Expr × Nat) : Except Fault TaskModel :=
  match arg.1 with
  | .literal text =>
    if arg.2 = 1 ∧ inv.name.isSome then
      .ok (s.set_name inv.callee.task_name
        (if 1 < inv.vec_length then text ++ '_' :: decimal i_vec else text))
    else .ok (s.report (.cannot_bind "StringLiteral"))
  | .decl_ref name => s.bind_parameter b inv number arg.2 name (b.decl name) .channel
  | .subscript base index =>
    match b.decl base with
    | some (.mmaps _) => .ok (s.report (.cannot_bind "CXXOperatorCallExpr"))
    | _ =>
      s.bind_parameter b inv number arg.2 (array_name_at base ((eval_int index).getD 0)) none
        .channel
  | .seq => s.bind_parameter b inv number arg.2 [] none .seq
  | .scalar (.constant value) => s.bind_parameter b inv number arg.2 [] none (.constant value)
  | .scalar .too_wide => .ok (s.report .too_wide)
  | .scalar (.variable name type parent_parameter) =>
    s.bind_parameter b inv number arg.2 name none (.variable type parent_parameter)
  | .scalar (.other stmt_class) => .ok (s.report (.cannot_bind stmt_class))

def parse_lane (b : Body) (inv : Invoke) (number : Nat) (s : TaskModel) (i_vec : Nat) :
    Except Fault TaskModel :=
  (inv.arguments.zipIdx 1).foldlM (parse_argument b inv number i_vec)
    (s.push_instance inv.callee.task_name inv.step)

def parse_invocations (b : Body) (s : TaskModel) : Except Fault TaskModel :=
  b.invokes.zipIdx.foldlM
    (fun s p => (List.range p.1.vec_length).foldlM (parse_lane b p.1 p.2) s) s

/-- Drops the streams without an end, and reports those with one end. -/
def validate_streams : TaskModel :=
  s.streams.toList.foldl (fun s p =>
    if p.2.declared then
      match p.2.produced_by.isSome, p.2.consumed_by.isSome with
      | false, false => { s with streams := s.streams.erase p.1 }
      | false, true => s.report (.unbalanced p.1 .istream)
      | true, false => s.report (.unbalanced p.1 .ostream)
      | true, true => s
    else s) s

end

end TaskModel

def Body.parse_upper_task (b : Body) : Except Fault TaskModel := do
  let s ← TaskModel.parse_invocations b
    ⟨fun _ => [], b.collect_stream_decls, fun _ _ => 0, fun _ => 0, []⟩
  pure s.validate_streams

/-! ## Well-formed bodies -/

/-- Whether the software simulation has an accessor from an argument to a parameter. -/
def Body.has_accessor (b : Body) : PortKind → Expr → Bool
  | .mmap _, .decl_ref name | .mmap _, .subscript name _ =>
    match b.decl name with
    | some (.mmap _) | some (.mmaps _) => true
    | _ => false
  | .stream dir, .decl_ref name | .stream dir, .subscript name _ =>
    match b.decl name with
    | some (.stream _) | some (.streams _ _) => true
    | some (.port d) | some (.ports d _) => d = dir
    | _ => false
  | .streams dir _, .decl_ref name =>
    match b.decl name with
    | some (.streams _ _) => true
    | some (.ports d _) => d = dir
    | _ => false
  | .scalar _, .seq => true
  | _, _ => false

/-- An element is only taken of an array. -/
def Body.indexable (b : Body) : Expr → Bool
  | .subscript base _ => ((b.decl base).bind Decl.length).isSome
  | _ => true

/-- A body that the host compiler accepts: names are identifiers, and each invoke has an
argument with an accessor for each parameter. -/
structure Body.Compiles (b : Body) : Prop where
  names : ∀ p ∈ b.names, '[' ∉ p.1
  ports : ∀ inv ∈ b.invokes, ∀ p ∈ inv.callee.params, '[' ∉ p.name
  arity : ∀ inv ∈ b.invokes, inv.args.length = inv.callee.params.length
  accessors : ∀ inv ∈ b.invokes, ∀ p ∈ inv.callee.params.zip inv.args,
    b.has_accessor p.1.kind p.2 = true ∧ b.indexable p.2 = true

end Tapa.Frontend
