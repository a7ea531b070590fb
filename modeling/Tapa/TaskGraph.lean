-- The task graph: definitions with their ports, invocations and FIFOs. The
-- fields that no modelled pass reads (sources, flags, reports) are left out.
import Tapa.Text

namespace Tapa.Ir

open Text

/-- The ordered map of the source. -/
abbrev BTreeMap (κ ν : Type) [Ord κ] : Type := Std.ExtTreeMap κ ν compare

section

variable {κ ν : Type} [Ord κ] [Std.TransOrd κ] [Std.LawfulEqOrd κ] {m : BTreeMap κ ν}

theorem toList_keys_ne : m.toList.Pairwise fun x y => x.1 ≠ y.1 := by
  refine m.distinct_keys_toList.imp fun hne heq => hne ?_
  rw [heq]
  exact Std.ReflCmp.compare_self

/-- In a walk over a map, no key comes twice. -/
theorem toList_key_new {ys : List (κ × ν)} {x : κ × ν} (h : ys ++ [x] <+: m.toList) :
    ∀ y ∈ ys, y.1 ≠ x.1 := by
  have hne := (toList_keys_ne (m := m)).sublist h.sublist
  exact fun y hy => (List.pairwise_append.mp hne).2.2 y hy x (List.mem_singleton_self x)

theorem forall_mem_of_toList {P : κ → Prop} (h : ∀ x ∈ m.toList, P x.1) : ∀ k ∈ m, P k :=
  fun _ hk => h _ (Std.ExtTreeMap.mem_toList_iff_getElem?_eq_some.mpr
    (Std.ExtTreeMap.getElem?_eq_some_getElem hk))

variable [DecidableEq κ] (m) (k a : κ) (v : ν)

theorem get_insert : (m.insert k v)[a]? = if k = a then some v else m[a]? := by
  simp [Std.ExtTreeMap.getElem?_insert]

variable {m k a v}

theorem get_insert_eq_some {x : ν} :
    (m.insert k v)[a]? = some x ↔ k = a ∧ v = x ∨ k ≠ a ∧ m[a]? = some x := by
  rw [get_insert]
  split <;> simp [*]

theorem isSome_get_insert : (m.insert k v)[a]?.isSome = true ↔ k = a ∨ m[a]?.isSome = true := by
  rw [get_insert]
  split <;> simp [*]

end

/-! ## Ports and arguments -/

inductive ArgCategory where
  | Istream | Ostream | Istreams | Ostreams | Scalar | Mmap | Immap | Ommap | AsyncMmap
deriving DecidableEq, Repr

namespace ArgCategory

def is_input_stream : ArgCategory → Bool
  | Istream | Istreams => true
  | _ => false

def is_output_stream : ArgCategory → Bool
  | Ostream | Ostreams => true
  | _ => false

def is_stream (cat : ArgCategory) : Bool := cat.is_input_stream || cat.is_output_stream

def is_scalar : ArgCategory → Bool
  | Scalar => true
  | _ => false

/-- A memory port that binds to an external memory interface. -/
def is_direct_mmap : ArgCategory → Bool
  | Mmap | AsyncMmap => true
  | _ => false

end ArgCategory

structure Port where
  cat : ArgCategory
  name : Str
  width : Nat
  chan_count : Option Nat
  chan_size : Option Nat
deriving DecidableEq, Repr

structure WireValue where
  width : Nat
  value : Nat
deriving DecidableEq, Repr

inductive ArgSource where
  | Name (name : Str)
  | Literal (value : WireValue)
deriving DecidableEq, Repr

structure Arg where
  arg : ArgSource
  cat : ArgCategory
deriving DecidableEq, Repr

def Arg.name (a : Arg) : Option Str :=
  match a.arg with
  | .Name name => some name
  | .Literal _ => none

/-! ## Tasks -/

/-- One invocation of a task. A negative step runs it without a join. -/
structure TaskInstance where
  name : Option Str
  args : BTreeMap Str Arg
  step : Int

/-- The name of an invocation: its own, or that of its definition with its index. -/
def TaskInstance.canonical_name (inst : TaskInstance) (definition_name : Str) (index : Nat) : Str :=
  inst.name.getD (definition_name ++ '_' :: decimal index)

/-- An invocation as its definition and its index among those of the definition. -/
abbrev EndpointRef : Type := Str × Nat

structure InterconnectDefinition where
  depth : Option Nat
  consumed_by : Option EndpointRef
  produced_by : Option EndpointRef
deriving DecidableEq, Repr

@[ext]
structure Area where
  lut : Nat
  ff : Nat
  bram_18k : Nat
  dsp : Nat
  uram : Nat
deriving DecidableEq, Repr

inductive TaskLevel where
  | Lower | Upper
deriving DecidableEq, Repr

structure Task where
  level : TaskLevel
  ports : List Port
  tasks : BTreeMap Str (List TaskInstance)
  fifos : BTreeMap Str InterconnectDefinition
  self_area : Option Area

/-- The declaration of a port: one with its exact name, or that of its array. -/
def Task.port (task : Task) (name : Str) : Option Port :=
  (task.ports.find? fun port => port.name = name).or <| do
    let (base, _) ← split_once '[' name
    task.ports.find? fun port => base ≠ [] && port.name = base

/-- The invocations of a task, in the order of the definitions. -/
def Task.invocations (task : Task) : List (Str × Nat × TaskInstance) :=
  task.tasks.toList.flatMap fun (definition, instances) =>
    instances.zipIdx.map fun (inst, index) => (definition, index, inst)

theorem Task.mem_invocations {task : Task} {d : Str} {index : Nat} {inst : TaskInstance} :
    (d, index, inst) ∈ task.invocations ↔
      ∃ instances, task.tasks[d]? = some instances ∧ instances[index]? = some inst := by
  unfold invocations
  simp only [List.mem_flatMap, List.mem_map, Prod.exists, Prod.mk.injEq]
  constructor
  · rintro ⟨d', instances, hmem, inst', index', hidx, rfl, rfl, rfl⟩
    exact ⟨instances, Std.ExtTreeMap.mem_toList_iff_getElem?_eq_some.mp hmem,
      List.mem_zipIdx_iff_getElem?.mp hidx⟩
  · rintro ⟨instances, htask, hinst⟩
    exact ⟨d, instances, Std.ExtTreeMap.mem_toList_iff_getElem?_eq_some.mpr htask, inst, index,
      List.mem_zipIdx_iff_getElem?.mpr hinst, rfl, rfl, rfl⟩

structure TaskGraph where
  top : Str
  tasks : BTreeMap Str Task

end Tapa.Ir
