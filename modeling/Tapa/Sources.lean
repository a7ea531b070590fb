-- A translation unit as the front end of tapacc asks for it (`names.cpp`, `discover.cpp`,
-- `ports.cpp`, `aie_check.cpp`): its function declarations, with what each one says of the
-- task that it may be.
import Tapa.InvokeParser

namespace Tapa.Merge

open Text Frontend

/-! ## Declarations -/

inductive TaskLevel where
  | kUpper | kLower
deriving DecidableEq

inductive SynthTarget where
  | kXilinxHls | kXilinxVitis | kXilinxSlash | kIgnore | kAie
deriving DecidableEq

/-- What `[[tapa::target(...)]]` names. -/
inductive TargetType where
  | XilinxHLS | XilinxVitis | Ignore | Aie
deriving DecidableEq

inductive TapaKind where
  | kNotTapa
  | kIStream | kOStream | kIStreams | kOStreams
  | kStream | kStreams
  | kMmap | kMmaps | kAsyncMmap | kImmap | kOmmap | kHmap
deriving DecidableEq

def TapaKind.is_stream_interface : TapaKind → Bool
  | .kIStream | .kOStream | .kIStreams | .kOStreams => true
  | _ => false

def TapaKind.is_mmap_interface : TapaKind → Bool
  | .kMmap | .kMmaps | .kAsyncMmap | .kImmap | .kOmmap | .kHmap => true
  | _ => false

/-- A parameter: its type as it is written and as it is classified, the element type and
width, the integers of its template arguments, and how it is passed. -/
structure ParmVarDecl where
  name : Str
  kind : TapaKind
  type : ScalarType
  ctype : Str
  width : Nat
  int_arg_1 : Option Nat
  int_arg_2 : Option Nat
  is_lvalue_reference : Bool
  is_reference : Bool
  is_pointer : Bool

/-- An attribute of a parameter for the AI Engine. -/
inductive AieAttr where
  | frame (size : Int)
  | plio (width : Int)

structure AieLocation where
  col : Nat
  row : Nat
  instance_index : Option Nat
deriving DecidableEq

/-- An invoke of the body, with the function that it names, if it names one. -/
structure InvokeExpr where
  callee : Option Nat
  loc : Str
  step : Int
  name : Option Str
  vec_length : Nat
  args : List Expr

/-- The `tapa::task` that a body builds: the streams declared before it and its invokes. -/
structure TaskObject where
  streams : List (Str × Decl)
  invokes : List InvokeExpr

/-- How a template specialization came to be. -/
inductive SpecializationKind where
  | implicit_instantiation | explicit
deriving DecidableEq

/-- A function declaration; other declarations are named by their number. The attributes
for the AI Engine are those of all its redeclarations, the calls are those that its body
makes on streams, with the number of their arguments, and the closed ports are those that
the close analysis gives for its body. -/
structure FunctionDecl where
  fqn : Str
  plain_name : Str
  signature : Str
  mangled : Str
  readable_name : Str
  site : Str
  loc : Str
  definition : Option Nat
  specialization : Option SpecializationKind
  pattern : Option Nat
  is_global : Bool
  target_attr : Option TargetType
  params : List ParmVarDecl
  aie_attrs : List (Str × TapaKind × AieAttr)
  aie_locations : List AieLocation
  task_object : Option TaskObject
  stream_calls : List (Str × Nat)
  closed : List Str

/-- A translation unit: its main file, its declarations, and those written in the files
that are indexed, in the order of the source. -/
structure Tu where
  file : Str
  decl : Nat → FunctionDecl
  visited : List Nat

/-- A global function with a body, as the declaration of a number. -/
def FunctionDecl.plain (number : Nat) (name : Str) (params : List ParmVarDecl)
    (task_object : Option TaskObject) : FunctionDecl where
  fqn := name
  plain_name := name
  signature := [',' ].intercalate (params.map (·.ctype))
  mangled := name
  readable_name := name
  site := name
  loc := name
  definition := some number
  specialization := none
  pattern := none
  is_global := true
  target_attr := none
  params := params
  aie_attrs := []
  aie_locations := []
  task_object := task_object
  stream_calls := []
  closed := []

/-- A stream of floating numbers as a parameter. -/
def ParmVarDecl.stream (dir : Direction) (name : Str) : ParmVarDecl where
  name := name
  kind := match dir with
    | .istream => .kIStream
    | .ostream => .kOStream
  type := .other [] 0 false id
  ctype := "float".toList
  width := 32
  int_arg_1 := none
  int_arg_2 := none
  is_lvalue_reference := true
  is_reference := true
  is_pointer := false

/-- An invoke of a function that is joined. -/
def InvokeExpr.join (callee : Nat) (args : List Str) : InvokeExpr :=
  ⟨some callee, [], 0, none, 1, args.map .decl_ref⟩

namespace Tu

variable (tu : Tu) (f : Nat)

/-! ## Names -/

def kMangledPrefix : Str := "tapa_mangled".toList

def is_definition : Bool := (tu.decl f).definition = some f

def is_specialization : Bool := (tu.decl f).specialization.isSome

def mangled_task_name : Str := kMangledPrefix ++ (tu.decl f).mangled

def task_name : Str :=
  if tu.is_specialization f then tu.mangled_task_name f else (tu.decl f).plain_name

/-- The identity key: a declaration and its definition have the same one. -/
def key_of : Str :=
  let func := (tu.decl f).definition.getD f
  if tu.is_specialization func then tu.mangled_task_name func
  else (tu.decl func).fqn ++ '(' :: ((tu.decl func).signature ++ [')'])

/-! ## Levels and targets -/

/-- The task that the body builds; any declaration leads to the body. -/
def get_tapa_task_object : Option TaskObject :=
  (tu.decl f).definition.bind fun d => (tu.decl d).task_object

def get_invokes : List InvokeExpr := ((tu.get_tapa_task_object f).map (·.invokes)).getD []

def is_ignored : Bool := (tu.decl f).target_attr = some .Ignore

def level_of : TaskLevel :=
  if !tu.is_ignored f && (tu.get_tapa_task_object f).isSome then .kUpper else .kLower

def resolve_target (default_target : SynthTarget) : SynthTarget :=
  match (tu.decl f).target_attr with
  | none => default_target
  | some .XilinxHLS => .kXilinxHls
  | some .XilinxVitis => .kXilinxVitis
  | some .Ignore => .kIgnore
  | some .Aie => .kAie

end Tu

/-! ## Ports -/

/-- A port of a task in the graph. -/
structure TaskPort where
  name : Str
  kind : TapaKind
  ctype : Str
  width : Nat
  chan_count : Option Nat
  chan_size : Option Nat
  aie_frame : Option Nat
  aie_plio : Option Nat
deriving DecidableEq

def kind_spelling : TapaKind → String
  | .kIStream => "tapa::istream"
  | .kOStream => "tapa::ostream"
  | .kIStreams => "tapa::istreams"
  | .kOStreams => "tapa::ostreams"
  | .kAsyncMmap => "tapa::async_mmap"
  | .kMmap => "tapa::mmap"
  | .kMmaps => "tapa::mmaps"
  | .kImmap => "tapa::immap"
  | .kOmmap => "tapa::ommap"
  | .kHmap => "tapa::hmap"
  | _ => "tapa::?"

namespace ParmVarDecl

variable (p : ParmVarDecl)

/-- A template argument as a number of channels. -/
def int_arg (arg : Option Nat) : Option Nat := arg.map (· % 2 ^ 32)

/-- Channels are passed by reference, memories by value. -/
def check_param_shape : List String :=
  let name := String.ofList p.name
  match p.kind with
  | .kIStream | .kOStream | .kIStreams | .kOStreams | .kAsyncMmap =>
    if p.is_lvalue_reference then []
    else [kind_spelling p.kind ++ " parameter '" ++ name ++ "' must be passed by reference"]
  | .kStream | .kStreams =>
    let array := if p.kind = .kStreams then "s" else ""
    ["tapa::stream" ++ array ++ " parameter '" ++ name ++
      "' declares a channel rather than a port; a task reads a channel through tapa::istream" ++
      array ++ " and writes one through tapa::ostream" ++ array ++ ". tapa::stream" ++ array ++
      " belongs in the body of an upper task, where it connects two invocations"]
  | .kMmap | .kMmaps | .kImmap | .kOmmap | .kHmap =>
    if p.is_reference then
      [kind_spelling p.kind ++ " parameter '" ++ name ++
        "' must be passed by value (not by reference)"]
    else []
  | .kNotTapa =>
    if p.is_pointer then
      ["raw pointer task parameter '" ++ name ++
        "' is not a TAPA memory port; use tapa::mmap<T> by value for off-chip memory"]
    else []

/-- The ports that a parameter gives; an array of memories gives one for each channel. -/
def ports : List TaskPort :=
  match p.kind with
  | .kMmap | .kImmap | .kOmmap | .kAsyncMmap =>
    [⟨p.name, p.kind, p.ctype ++ ['*'], p.width, none, none, none, none⟩]
  | .kMmaps => (List.range ((int_arg p.int_arg_1).getD 0)).map fun (i : Nat) =>
      ⟨array_name_at p.name i, .kMmap, p.ctype ++ ['*'], p.width, none, none, none, none⟩
  | .kHmap =>
    [⟨p.name, p.kind, p.ctype ++ ['*'], p.width, int_arg p.int_arg_1, int_arg p.int_arg_2,
      none, none⟩]
  | .kIStream | .kOStream => [⟨p.name, p.kind, p.ctype, p.width, none, none, none, none⟩]
  | .kIStreams | .kOStreams =>
    [⟨p.name, p.kind, p.ctype, p.width, int_arg p.int_arg_1, none, none, none⟩]
  | .kNotTapa | .kStream | .kStreams =>
    [⟨p.name, .kNotTapa, p.ctype, p.width, none, none, none, none⟩]

/-- The parameter as the parser of invokes binds it, under the name that it is given. -/
def bound_as (name : Str) : Port :=
  ⟨name,
    match p.kind with
    | .kMmap => .mmap .kMmap
    | .kImmap => .mmap .kImmap
    | .kOmmap => .mmap .kOmmap
    | .kAsyncMmap => .mmap .kAsyncMmap
    | .kIStream => .stream .istream
    | .kOStream => .stream .ostream
    | .kIStreams => .streams .istream (p.int_arg_1.getD 0)
    | .kOStreams => .streams .ostream (p.int_arg_1.getD 0)
    | _ => .scalar p.type⟩

/-- What the name of the parameter stands for in the body. -/
def in_body : Option (Str × Decl) :=
  match p.kind with
  | .kMmap => some (p.name, .mmap .kMmap)
  | .kImmap => some (p.name, .mmap .kImmap)
  | .kOmmap => some (p.name, .mmap .kOmmap)
  | .kAsyncMmap => some (p.name, .mmap .kAsyncMmap)
  | .kMmaps => some (p.name, .mmaps (p.int_arg_1.getD 0))
  | .kIStream => some (p.name, .port .istream)
  | .kOStream => some (p.name, .port .ostream)
  | .kIStreams => some (p.name, .ports .istream (p.int_arg_1.getD 0))
  | .kOStreams => some (p.name, .ports .ostream (p.int_arg_1.getD 0))
  | .kHmap | .kNotTapa | .kStream | .kStreams => none

end ParmVarDecl

def find_port (ports : List TaskPort) (name : Str) : Option TaskPort :=
  ports.find? (·.name = name)

def Tu.build_ports (tu : Tu) (f : Nat) : List TaskPort × List String :=
  ((tu.decl f).params.flatMap ParmVarDecl.ports,
    (tu.decl f).params.flatMap ParmVarDecl.check_param_shape)

/-! ## The AI Engine -/

def set_port (ports : List TaskPort) (name : Str) (f : TaskPort → TaskPort) : List TaskPort :=
  ports.modify (ports.findIdx (·.name = name)) f

def read_aie_attr (name : Str) (level : TaskLevel) (st : List TaskPort × List String)
    (attr : Str × TapaKind × AieAttr) : List TaskPort × List String :=
  let single_stream := attr.2.1 = .kIStream ∨ attr.2.1 = .kOStream
  match attr.2.2 with
  | .frame size =>
    if level ≠ .kLower ∨ ¬single_stream ∨ size ≤ 0 then
      (st.1, st.2 ++ ["[[tapa::aie_frame(N)]] needs a positive N on a tapa::istream or " ++
        "tapa::ostream parameter of an AI Engine leaf task ('" ++ String.ofList attr.1 ++
        "' of task '" ++ String.ofList name ++ "')"])
    else (set_port st.1 attr.1 fun p => { p with aie_frame := some (size.toNat % 2 ^ 32) }, st.2)
  | .plio width =>
    if ¬single_stream ∨ (width ≠ 32 ∧ width ≠ 64 ∧ width ≠ 128) then
      (st.1, st.2 ++ ["[[tapa::aie_plio(W)]] needs W of 32, 64 or 128 on a tapa::istream or " ++
        "tapa::ostream parameter of an AI Engine task ('" ++ String.ofList attr.1 ++
        "' of task '" ++ String.ofList name ++ "')"])
    else (set_port st.1 attr.1 fun p => { p with aie_plio := some width.toNat }, st.2)

/-- The ports with the attributes of the parameters, the tiles that an AI Engine leaf is
pinned to, and what is reported. -/
def Tu.read_aie_attrs (tu : Tu) (f : Nat) (name : Str) (level : TaskLevel)
    (ports : List TaskPort) : List TaskPort × List AieLocation × List String :=
  let st := (tu.decl f).aie_attrs.foldl (read_aie_attr name level) (ports, [])
  if level = .kLower then
    (st.1, (tu.decl f).aie_locations.foldl
      (fun locations l => if l ∈ locations then locations else locations ++ [l]) [], st.2)
  else
    (st.1, [], st.2 ++ (tu.decl f).aie_locations.map fun _ =>
      "[[tapa::aie_location(col, row)]] pins an AI Engine leaf task to a tile, but task '" ++
        String.ofList name ++ "' is not one")

/-- Why a call on a stream has no form on the AI Engine. -/
def aie_stream_op_problem (op : Str) (num_args : Nat) : Option String :=
  if op = "read".toList ∧ num_args = 1 then
    some "AI Engine stream reads are blocking; use read() without arguments"
  else if op ∈ ["close", "try_close", "open", "try_open", "eot", "try_eot"].map String.toList then
    some ("AI Engine streams carry no end-of-transmission token; loop " ++
      "over an element count instead")
  else if op ∈ ["peek", "try_peek", "empty", "full"].map String.toList then
    some ("AI Engine streams are blocking and expose no occupancy; use " ++
      "the blocking read() and write()")
  else none

def check_aie_param (name : Str) (ports : List TaskPort) (p : ParmVarDecl) : List String :=
  if p.kind.is_mmap_interface then
    ["AI Engine task '" ++ String.ofList name ++ "' takes the memory port '" ++
      String.ofList p.name ++ "'; AI Engine tasks have no memory path, so read the memory " ++
      "in a PL task and stream the data in"]
  else if p.kind.is_stream_interface then
    match find_port ports p.name with
    | some port =>
      if port.width = 0 ∨ port.width % 32 ≠ 0 then
        ["stream '" ++ String.ofList p.name ++ "' of AI Engine task '" ++ String.ofList name ++
          "' carries " ++ String.ofList (decimal port.width) ++ "-bit elements; an AI Engine " ++
          "stream element must be a multiple of 32 bits, so pack narrower data into a " ++
          "tapa::vec_t or a wider integer"]
      else []
    | none => []
  else []

def Tu.check_aie_task (tu : Tu) (f : Nat) (name : Str) (level : TaskLevel)
    (ports : List TaskPort) : List String :=
  (tu.decl f).params.flatMap (check_aie_param name ports) ++
    match level, (tu.decl f).definition with
    | .kLower, some d => (tu.decl d).stream_calls.filterMap fun call =>
        (aie_stream_op_problem call.1 call.2).map fun problem =>
          "'" ++ String.ofList call.1 ++ "' in AI Engine task '" ++ String.ofList name ++
            "' has no AI Engine form: " ++ problem
    | _, _ => []

/-- The stream ports that the body closes. -/
def Tu.closed_ports (tu : Tu) (f : Nat) : List Str :=
  ((tu.decl f).definition.map fun d => (tu.decl d).closed).getD []

end Tapa.Merge
