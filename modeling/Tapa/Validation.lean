-- What a task graph must satisfy to be read (`graph.rs`): every constant of an
-- invocation fits its own width and stands at a declared scalar port.
import Tapa.FloorGraph

namespace Tapa.Ir

open Text Fallible Floorplan

inductive ParseError where
  | Schema (path message : Str)
deriving DecidableEq, Repr

/-- A width of 1 to 64 bits that holds the value. -/
def WireValue.is_valid (value : WireValue) : Bool :=
  1 ≤ value.width ∧ value.width ≤ 64 ∧ (value.width = 64 ∨ value.value < 2 ^ value.width)

/-- The sized decimal literal, as in `64'd5`. -/
def WireValue.display (value : WireValue) : Str :=
  decimal value.width ++ "'d".toList ++ decimal value.value

def literal_path (task_name child_name port_name : Str) : Str :=
  "tasks.".toList ++ task_name ++ ".tasks.".toList ++ child_name ++ ".args.".toList ++ port_name

namespace TaskGraph

def declared_port (graph : TaskGraph) (child_name port_name : Str) : Option Port :=
  (graph.tasks[child_name]?.bind fun child => child.port port_name).filter
    fun port => port.name = port_name

def validate_literal (graph : TaskGraph) (task_name child_name port_name : Str) (arg : Arg) :
    Except ParseError Unit :=
  match arg.arg with
  | .Name _ => .ok ()
  | .Literal value => do
    let schema (message : Str) : ParseError :=
      .Schema (literal_path task_name child_name port_name) message
    ensure (value.is_valid = true) (schema ("invalid constant ".toList ++ value.display ++
      ": the value must fit a width of 1..=64 bits".toList))
    ensure (arg.cat = .Scalar) (schema ("constant ".toList ++ value.display ++
      " bound to a ".toList ++ quoted (category_text arg.cat) ++
      " port; only scalar ports take constants".toList))
    let port ← ok_or (graph.declared_port child_name port_name)
      (schema ("constant ".toList ++ value.display ++ " has no declared child port ".toList ++
        quoted (child_name ++ '.' :: port_name)))
    ensure (port.cat.is_scalar = true) (schema ("constant ".toList ++ value.display ++
      " bound to a declared ".toList ++ quoted (category_text port.cat) ++
      " port; only scalar ports take constants".toList))

/-- What the boundary checks of a graph whose schema version is the current one. -/
def validate_literals (graph : TaskGraph) : Except ParseError Unit :=
  graph.tasks.toList.forM fun (task_name, task) =>
    task.tasks.toList.forM fun (child_name, instances) =>
      instances.forM fun inst =>
        inst.args.toList.forM fun (port_name, arg) =>
          graph.validate_literal task_name child_name port_name arg

/-- A graph that the boundary accepts. -/
def Accepted (graph : TaskGraph) : Prop := graph.validate_literals = .ok ()

/-- Every argument of every invocation passes the check. -/
theorem accepted_iff {graph : TaskGraph} : graph.Accepted ↔
    ∀ name task, graph.tasks[name]? = some task → ∀ d index inst,
      (d, index, inst) ∈ task.invocations → ∀ port arg, inst.args[port]? = some arg →
        graph.validate_literal name d port arg = .ok () := by
  simp only [Accepted, validate_literals, forM_eq_ok, Prod.forall,
    Std.ExtTreeMap.mem_toList_iff_getElem?_eq_some]
  constructor
  · intro h name task htask d index inst hinst port arg harg
    obtain ⟨instances, hd, hi⟩ := Task.mem_invocations.mp hinst
    exact h name task htask d instances hd inst (List.mem_of_getElem? hi) port arg harg
  · intro h name task htask d instances hd inst hinst port arg harg
    obtain ⟨index, hi⟩ := List.mem_iff_getElem?.mp hinst
    exact h name task htask d index inst (Task.mem_invocations.mpr ⟨instances, hd, hi⟩) port arg
      harg

/-- What an accepted constant is bound to. -/
theorem validate_literal_literal {graph : TaskGraph} {name d port : Str} {arg : Arg}
    {value : WireValue} (harg : arg.arg = .Literal value) :
    graph.validate_literal name d port arg = .ok () ↔ value.is_valid = true ∧ arg.cat = .Scalar ∧
      ∃ p, graph.declared_port d port = some p ∧ p.cat.is_scalar = true := by
  simp only [validate_literal, harg, bind_eq_ok, ensure_eq_ok, ok_or_eq_ok]
  constructor
  · rintro ⟨_, h1, _, h2, p, h3, h4⟩
    exact ⟨h1, h2, p, h3, h4⟩
  · rintro ⟨h1, h2, p, h3, h4⟩
    exact ⟨(), h1, (), h2, p, h3, h4⟩

end TaskGraph

end Tapa.Ir
