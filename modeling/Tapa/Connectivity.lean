-- What flattening must preserve: following the bindings of an argument upward
-- from its leaf reaches a FIFO, a port of the top or a constant. The flat name
-- of an argument is the name of what it reaches.
import Tapa.Flatten

namespace Tapa.Ir

open Text Option

/-- The invocations from the top down to a task, with the last one first. -/
abbrev Path : Type := List EndpointRef

namespace TaskGraph

variable (g : TaskGraph)

/-! ## Occurrences -/

def task_name_at : Path → Str
  | [] => g.top
  | s :: _ => s.1

section

variable (p : Path)

def task_at : Option Task := g.tasks[g.task_name_at p]?

def level_at : Option TaskLevel := (g.task_at p).map Task.level

/-- The last invocation of a path. -/
def inst_at : Path → Option TaskInstance
  | [] => none
  | s :: p => do
    let task ← g.task_at p
    let instances ← task.tasks[s.1]?
    instances[s.2]?

/-- A path of the hierarchy: each of its invocations stands in an upper task. -/
inductive Occurs : Path → Prop
  | top : Occurs []
  | invoke {s : EndpointRef} {p : Path} (hp : Occurs p) (hup : g.level_at p = some .Upper)
      (hinst : (g.inst_at (s :: p)).isSome) : Occurs (s :: p)

def IsLeaf : Prop := Occurs g p ∧ g.level_at p = some .Lower

/-- No task invokes itself, directly or through others. -/
def Acyclic : Prop :=
  ∃ rank : Str → Nat, ∀ name task child, g.tasks[name]? = some task → child ∈ task.tasks →
    rank child < rank name

variable {g} in
theorem acyclic_of_toList (rank : Str → Nat)
    (h : ∀ x ∈ g.tasks.toList, ∀ y ∈ x.2.tasks.toList, rank y.1 < rank x.1) : g.Acyclic := by
  refine ⟨rank, fun name task child htask hchild => ?_⟩
  have htask := Std.ExtTreeMap.mem_toList_iff_getElem?_eq_some.mpr htask
  exact forall_mem_of_toList (P := (rank · < rank name)) (h _ htask) child hchild

/-! ## Following an argument -/

/-- What an argument can reach. -/
inductive End where
  | fifo (p : Path) (name : Str)
  | port (name : Str)
  | const (value : WireValue)
deriving DecidableEq

/-- A FIFO of the scope of a path. An upper task below the top lists the FIFOs
of its ports too, without a depth: they are not its own. -/
def declared (name : Str) : Option InterconnectDefinition := do
  let task ← g.task_at p
  let fifo ← task.fifos[name]?
  if should_materialize_fifo fifo (p = []) then some fifo else none

/-- A FIFO without a depth stands for a port of the top. -/
def fifoEnd (name : Str) (fifo : InterconnectDefinition) : End :=
  if fifo.depth.isNone then .port name else .fifo p name

/-- The element of an array, counted from another one. A FIFO is such an element
when it is declared so. -/
def offset (idx : Nat) : End → Option End
  | .fifo p name =>
    let element := offset_array_binding name idx
    if (split_array_index name).isSome && ((g.declared p element).any fun f => f.depth.isSome)
    then some (.fifo p element)
    else none
  | .port name => some (.port (offset_array_binding name idx))
  | .const _ => none

/-- A name that is no FIFO of the top is one of its ports, if it has it. -/
def boundary (name : Str) : Option End :=
  if ((g.task_at []).bind fun top => top.port name).isSome then some (.port name) else none

/-- What a name in the scope of a path reaches. -/
def follow : Path → Str → Option End
  | [], name =>
    match g.declared [] name with
    | some fifo => some (fifoEnd [] name fifo)
    | none =>
      match split_array_index name with
      | some (base, idx, []) =>
        match g.declared [] base with
        | some fifo => g.offset idx (fifoEnd [] base fifo)
        | none => g.boundary name
      | _ => g.boundary name
  | s :: p, name =>
    match g.declared (s :: p) name with
    | some fifo => some (fifoEnd (s :: p) name fifo)
    | none => do
      let inst ← g.inst_at (s :: p)
      match inst.args[name]? with
      | some ⟨.Name n, _⟩ => follow p n
      | some ⟨.Literal value, _⟩ => some (.const value)
      | none =>
        match split_array_index name with
        | some (base, idx, []) =>
          match inst.args[base]? with
          | some ⟨.Name n, _⟩ => do
            let e ← follow p n
            g.offset idx e
          | _ => none
        | _ => none

def reaches : Path → Str → Option End
  | [], _ => none
  | s :: p, port => do
    let inst ← g.inst_at (s :: p)
    match inst.args[port]? with
    | some ⟨.Name n, _⟩ => g.follow p n
    | some ⟨.Literal value, _⟩ => some (.const value)
    | none => none

/-! ## Names of scopes -/

def canonical_at : Path → Str
  | [] => []
  | s :: p => ((g.inst_at (s :: p)).map fun inst => inst.canonical_name s.1 s.2).getD []

/-- The scope path that the traversal has at a path. -/
def scope_at : Path → Str
  | [] => g.top
  | s :: p => in_scope (g.canonical_at (s :: p)) (scope_at p)

/-- The FIFO names that the traversal has at a path. -/
def fifos_at : BTreeMap Str Str :=
  ((g.task_at p).map fun task => fifo_global_map task (p = []) (g.scope_at p)).getD ∅

def bindings_at : Path → BTreeMap Str ArgSource
  | [] => ∅
  | s :: p =>
    ((g.inst_at (s :: p)).map fun inst =>
      (resolve_args inst (g.fifos_at p) (bindings_at p)).map fun _ arg => arg.arg).getD ∅

/-- The flat name of what an argument reaches. -/
def source : End → ArgSource
  | .fifo p name => .Name (in_scope name (g.scope_at p))
  | .port name => .Name name
  | .const value => .Literal value

theorem top_length_le : g.top.length ≤ (g.scope_at p).length := by
  induction p with
  | nil => exact Nat.le_refl _
  | cons s p ih =>
    simp only [scope_at, in_scope, List.length_append, List.length_cons]
    omega

/-- Below the top, the scope path is longer than the name of the top. -/
theorem scope_at_eq_top {p : Path} : g.scope_at p = g.top ↔ p = [] := by
  constructor
  · intro h
    cases p with
    | nil => rfl
    | cons s p =>
      have hlen := congrArg List.length h
      have hle := g.top_length_le p
      simp only [scope_at, in_scope, List.length_append, List.length_cons] at hlen
      omega
  · rintro rfl
    rfl

theorem is_top_scope :
    (decide (g.task_name_at p = g.top) && decide (g.scope_at p = g.top)) = decide (p = []) := by
  by_cases h : p = []
  · subst h
    simp [task_name_at, scope_at]
  · simp [scope_at_eq_top, h]

theorem fifos_at_getElem? (name : Str) : (g.fifos_at p)[name]? =
      (g.declared p name).map fun fifo => global_name name fifo (g.scope_at p) := by
  unfold fifos_at declared
  cases ht : g.task_at p with
  | none => simp
  | some task =>
    simp only [map_some, getD_some, fifo_global_map, bind_eq_bind,
      bind_some]
    cases hf : task.fifos[name]? with
    | none => simp [hf]
    | some fifo =>
      by_cases hm : should_materialize_fifo fifo (decide (p = [])) = true
      · simp [hf, hm]
      · simp [hf, hm]

theorem bindings_at_getElem? {s : EndpointRef} {p : Path} {inst : TaskInstance}
    (h : g.inst_at (s :: p) = some inst) (name : Str) :
    (g.bindings_at (s :: p))[name]? = inst.args[name]?.map fun arg =>
      resolve_source (g.fifos_at p) (g.bindings_at p) arg.arg := by
  simp [bindings_at, h, resolve_args]

/-! ## The flat name of an argument -/

/-- An array element has the name of the element that it is counted from, offset
in its brackets. -/
theorem source_offset {e e' : End} {idx : Nat} (h : g.offset idx e = some e') :
    ∃ name, g.source e = .Name name ∧ g.source e' = .Name (offset_array_binding name idx) := by
  cases e with
  | fifo p name =>
    simp only [offset] at h
    split at h
    · rename_i hcond
      cases h
      rw [Bool.and_eq_true] at hcond
      refine ⟨_, rfl, ?_⟩
      rw [in_scope, offset_array_binding_append hcond.1]
      rfl
    · cases h
  | port name =>
    cases h
    exact ⟨name, rfl, rfl⟩
  | const value => cases h

theorem source_fifoEnd (name : Str) (fifo : InterconnectDefinition) :
    g.source (fifoEnd p name fifo) = .Name (global_name name fifo (g.scope_at p)) := by
  unfold fifoEnd global_name
  split <;> rfl

end

theorem source_boundary {name : Str} {e : End} (h : g.boundary name = some e) :
    g.source e = .Name name := by
  unfold boundary at h
  split at h
  · cases h
    rfl
  · cases h

/-- The traversal resolves a name to the flat name of what the name reaches. -/
theorem resolve_eq_source {p : Path} {name : Str} {e : End} (h : g.follow p name = some e) :
    resolve_scoped_arg name (g.fifos_at p) (g.bindings_at p) = g.source e := by
  induction p generalizing name e with
  | nil =>
    unfold follow at h
    unfold resolve_scoped_arg
    simp only [fifos_at_getElem?]
    cases hd : g.declared [] name with
    | some fifo =>
      rw [hd] at h
      cases h
      exact (g.source_fifoEnd [] name fifo).symm
    | none =>
      rw [hd] at h
      rcases hs : split_array_index name with _ | ⟨base, idx, _ | ⟨c, rest⟩⟩ <;> simp only [hs] at h
      · exact (g.source_boundary h).symm
      · cases hb : g.declared [] base with
        | some fifo =>
          rw [hb] at h
          obtain ⟨n, hn, he⟩ := g.source_offset h
          rw [source_fifoEnd] at hn
          cases hn
          simp only [hb, map_some]
          exact he.symm
        | none =>
          rw [hb] at h
          simp only [hb, map_none]
          exact (g.source_boundary h).symm
      · exact (g.source_boundary h).symm
  | cons s p ih =>
    unfold follow at h
    unfold resolve_scoped_arg
    simp only [fifos_at_getElem?]
    cases hd : g.declared (s :: p) name with
    | some fifo =>
      rw [hd] at h
      cases h
      exact (g.source_fifoEnd (s :: p) name fifo).symm
    | none =>
      rw [hd] at h
      simp only [bind_eq_bind, bind_eq_some_iff] at h
      obtain ⟨inst, hinst, h⟩ := h
      simp only [map_none, g.bindings_at_getElem? hinst]
      cases ha : inst.args[name]? with
      | some arg =>
        rw [ha] at h
        obtain ⟨src, cat⟩ := arg
        cases src with
        | Name n => exact ih h
        | Literal value =>
          cases h
          rfl
      | none =>
        rw [ha] at h
        rcases hs : split_array_index name with _ | ⟨base, idx, _ | ⟨c, rest⟩⟩ <;>
          simp only [hs] at h
        · cases h
        · split at h
          · rename_i n cat hb
            rw [bind_eq_some_iff] at h
            obtain ⟨e1, he1, hoff⟩ := h
            obtain ⟨m, hm, he⟩ := g.source_offset hoff
            have hres := ih he1
            rw [hm] at hres
            simp only [hb, map_some, resolve_source, hres]
            exact he.symm
          · cases h
        · cases h

end TaskGraph

end Tapa.Ir
