-- Flattening comes to an end where no call that it makes is on a task that is still
-- open. The boundary does not look for such calls, so that a graph it accepts can
-- take the traversal down without end.
import Tapa.Traversal
import Tapa.Validation

namespace Tapa.Ir

open Text Fallible Relation Std.ExtTreeMap

/-! ## Chains -/

section Chains

variable {α : Type} {R : α → α → Prop}

/-- A chain that comes back to one of its members has a cycle. -/
theorem exists_cycle_of_chain {a : α} {path : List α} (hchain : (a :: path).IsChain R)
    (hagain : ¬(a :: path).Nodup) : ∃ x, ReflTransGen R a x ∧ TransGen R x x := by
  have hpairs : (a :: path).Pairwise (TransGen R) :=
    (hchain.imp fun _ _ => TransGen.single).pairwise
  by_contra hnone
  have hreach : ∀ x ∈ a :: path, ReflTransGen R a x := by
    intro x hx
    rcases List.mem_cons.mp hx with rfl | hx
    · exact .refl
    · exact ((List.pairwise_cons.mp hpairs).1 x hx).to_reflTransGen
  refine hagain (hpairs.imp_of_mem fun {x y} hx _ hxy heq => hnone ⟨x, hreach x hx, ?_⟩)
  rw [← heq] at hxy
  exact hxy

/-- From a cycle there is always one more step. -/
theorem exists_step_of_cycle {a : α} (h : ∃ x, ReflTransGen R a x ∧ TransGen R x x) :
    ∃ b, R a b ∧ ∃ x, ReflTransGen R b x ∧ TransGen R x x := by
  obtain ⟨x, hax, hcycle⟩ := h
  rcases ReflTransGen.cases_head hax with rfl | ⟨b, hab, hbx⟩
  · obtain ⟨b, hab, hba⟩ := TransGen.head'_iff.mp hcycle
    exact ⟨b, hab, a, hba, hcycle⟩
  · exact ⟨b, hab, x, hbx, hcycle⟩

end Chains

namespace TaskGraph

/-! ## Calls -/

/-- A call of `collect_leaves_recursive`. -/
structure Call where
  name : Str
  scope_path : Str
  arg_bindings : BTreeMap Str ArgSource
  owner : Nat
  collected : FlatInstances

namespace Call

variable (g : TaskGraph) (fuel : Nat) (x : Call) (task : Task)

def run : Except Halt FlatInstances :=
  collect_leaves_recursive g fuel x.name x.scope_path x.arg_bindings x.owner x.collected

def fifos : BTreeMap Str Str :=
  fifo_global_map task (x.name = g.top && x.scope_path = g.top) x.scope_path

/-- One turn of its loop over the invocations of its task. -/
def turn : FlatInstances → Str × Nat × TaskInstance → Except Halt FlatInstances :=
  visit_invocation g (collect_leaves_recursive g fuel)
    (x.name = g.top && x.scope_path = g.top) x.scope_path (x.fifos g task) x.arg_bindings x.owner

/-- The call on an upper task that is invoked, when so much is collected. -/
def below (c : FlatInstances) (d : Str) (index : Nat) (inst : TaskInstance) : Call where
  name := d
  scope_path := in_scope (inst.canonical_name d index) x.scope_path
  arg_bindings := (resolve_args inst (x.fifos g task) x.arg_bindings).map fun _ arg => arg.arg
  owner := c.occurrences.length
  collected := c.push_scope x.owner (d, index) (in_scope (inst.canonical_name d index) x.scope_path)

variable {g fuel x task}

theorem run_succ (htask : g.tasks[x.name]? = some task) : x.run g (fuel + 1) =
    task.invocations.foldlM (x.turn g fuel task) x.collected >>= fun c =>
      (x.fifos g task).toList.foldlM (register_fifo task) c := by
  simp only [run, collect_leaves_recursive, get_task_eq_ok.mpr htask]
  rfl

theorem turn_upper {d : Str} {child : Task} (hchild : g.tasks[d]? = some child)
    (hup : child.level = .Upper) (c : FlatInstances) (index : Nat) (inst : TaskInstance) :
    x.turn g fuel task c (d, index, inst) = (x.below g task c d index inst).run g fuel := by
  simp only [turn, visit_invocation, get_task_eq_ok.mpr hchild, ok_bind, hup, reduceCtorEq,
    if_false]
  rfl

end Call

variable {g : TaskGraph}

/-- The call on an upper task makes another one on an upper task that it invokes, after its
turns before that one have come to their end. -/
def Enters (g : TaskGraph) (x y : Call) : Prop :=
  ∃ task before d index inst after child fuel c, g.tasks[x.name]? = some task ∧
    task.level = .Upper ∧ task.invocations = before ++ (d, index, inst) :: after ∧
    before.foldlM (x.turn g fuel task) x.collected = .ok c ∧
    g.tasks[d]? = some child ∧ child.level = .Upper ∧ y = x.below g task c d index inst

def top_call (g : TaskGraph) : Call := ⟨g.top, g.top, ∅, 0, .start g.top⟩

/-- No call that is made below the top is on a task whose own call is still open. -/
def NoRecursion (g : TaskGraph) : Prop :=
  ∀ path, (g.top_call :: path).IsChain g.Enters → ((g.top_call :: path).map Call.name).Nodup

/-- With some fuel, and with any more, the traversal is at its end. -/
def Finishes (g : TaskGraph) : Prop :=
  ∃ enough, ∀ fuel, enough ≤ fuel → flatten_with_origins fuel g ≠ .error .unfinished

variable {fuel : Nat} {x : Call} {task : Task}

/-- A traversal that is not at its end has gone down one call for each unit of fuel. -/
theorem chain_of_unfinished (htask : g.tasks[x.name]? = some task) (hlevel : task.level = .Upper)
    (h : x.run g fuel = .error .unfinished) :
    ∃ path, path.length = fuel ∧ (x :: path).IsChain g.Enters ∧
      ∀ y ∈ x :: path, y.name ∈ g.tasks := by
  have hname : x.name ∈ g.tasks := mem_of_get htask
  induction fuel generalizing x task with
  | zero => exact ⟨[], rfl, .singleton _, by simpa using hname⟩
  | succ fuel ih =>
    rw [Call.run_succ htask] at h
    rcases bind_eq_error.mp h with h | ⟨_, _, h⟩
    · obtain ⟨before, ⟨d, index, inst⟩, after, c, hsplit, hbefore, hturn⟩ :=
        exists_of_foldlM_error h
      obtain ⟨child, hchild, hup, _⟩ := upper_of_visit_unfinished hturn
      rw [Call.turn_upper hchild hup] at hturn
      obtain ⟨path, hlen, hchain, hnames⟩ := ih hchild hup hturn (mem_of_get hchild)
      have henters : g.Enters x (x.below g task c d index inst) :=
        ⟨task, before, d, index, inst, after, child, fuel, c, htask, hlevel, hsplit, hbefore,
          hchild, hup, rfl⟩
      exact ⟨_ :: path, by rw [List.length_cons, hlen], hchain.cons_cons henters,
        List.forall_mem_cons.mpr ⟨hname, hnames⟩⟩
    · exact absurd h register_fifos_ne_unfinished

/-- The traversal of a graph is the call on its top. -/
theorem flatten_unfinished_iff : flatten_with_origins fuel g = .error .unfinished ↔
    ∃ top, g.tasks[g.top]? = some top ∧ top.level = .Upper ∧
      g.top_call.run g fuel = .error .unfinished := by
  unfold flatten_with_origins
  constructor
  · intro h
    rcases bind_eq_error.mp h with h | ⟨top, htop, h⟩
    · exact absurd h get_task_ne_unfinished
    split at h
    · cases h
    rename_i hlevel
    have hup : top.level = .Upper := by
      cases hl : top.level with
      | Lower => exact absurd hl hlevel
      | Upper => rfl
    rcases bind_eq_error.mp h with h | ⟨_, _, h⟩
    · exact ⟨top, get_task_eq_ok.mp htop, hup, h⟩
    · cases h
  · rintro ⟨top, htop, hup, h⟩
    have hcollect : collect_leaves_recursive g fuel g.top g.top ∅ 0 (.start g.top) =
      .error .unfinished := h
    rw [get_task_eq_ok.mpr htop, hcollect]
    simp [bind, Except.bind, hup]

/-- Where no open task is called again, as much fuel as there are tasks is enough. -/
theorem NoRecursion.finishes (hg : g.NoRecursion) : g.Finishes := by
  refine ⟨g.tasks.size, fun fuel hfuel h => ?_⟩
  obtain ⟨top, htop, hup, hrun⟩ := flatten_unfinished_iff.mp h
  obtain ⟨path, hlen, hchain, hnames⟩ := chain_of_unfinished htop hup hrun
  have hkeys : (g.top_call :: path).map Call.name ⊆ g.tasks.keys := by
    intro name hmem
    obtain ⟨y, hy, rfl⟩ := List.mem_map.mp hmem
    exact mem_keys.mpr (hnames y hy)
  have hle := (List.subperm_of_subset (hg path hchain) hkeys).length_le
  rw [length_keys, List.length_map, List.length_cons, hlen] at hle
  omega

/-! ## Graphs without FIFOs -/

/-- No task has FIFOs, whose names could collide. -/
def Bare (g : TaskGraph) : Prop :=
  ∀ (name : Str) (task : Task), g.tasks[name]? = some task → task.fifos = ∅

/-- What ends with the first result ends alike with the second one. -/
def Refines (r r' : Except Halt FlatInstances) : Prop :=
  match r with
  | .ok _ => ∃ c, r' = .ok c
  | .error .unfinished => True
  | .error (.error e) => r' = .error (.error e)

theorem Refines.foldlM {X : Type} {f f' : FlatInstances → X → Except Halt FlatInstances}
    {xs : List X} (h : ∀ x ∈ xs, ∀ c c', Refines (f c x) (f' c' x)) (c c' : FlatInstances) :
    Refines (xs.foldlM f c) (xs.foldlM f' c') := by
  induction xs generalizing c c' with
  | nil => exact ⟨c', rfl⟩
  | cons x xs ih =>
    rw [List.foldlM_cons, List.foldlM_cons]
    have hx := h x (by simp) c c'
    cases hf : f c x with
    | ok c1 =>
      rw [hf] at hx
      obtain ⟨c1', hc1'⟩ := hx
      rw [hc1']
      exact ih (fun y hy => h y (by simp [hy])) c1 c1'
    | error e =>
      rw [hf] at hx
      cases e with
      | unfinished => trivial
      | error e =>
        have hx : f' c' x = .error (.error e) := hx
        rw [hx]
        rfl

theorem Bare.run_succ (hg : g.Bare) (htask : g.tasks[x.name]? = some task) :
    x.run g (fuel + 1) = task.invocations.foldlM (x.turn g fuel task) x.collected := by
  have hfifos : x.fifos g task = ∅ := by
    unfold Call.fifos fifo_global_map
    rw [hg _ task htask]
    rfl
  rw [Call.run_succ htask, hfifos]
  cases task.invocations.foldlM (x.turn g fuel task) x.collected <;> rfl

theorem turn_refines {fuel' : Nat} (ih : ∀ {y y' : Call}, y'.name = y.name →
    Refines (y.run g fuel) (y'.run g fuel')) (x x' : Call) (task : Task)
    (entry : Str × Nat × TaskInstance) (c c' : FlatInstances) :
    Refines (x.turn g fuel task c entry) (x'.turn g fuel' task c' entry) := by
  obtain ⟨d, index, inst⟩ := entry
  cases hchild : g.tasks[d]? with
  | none => simp [Call.turn, visit_invocation, get_task, hchild, bind, Except.bind, Refines]
  | some child =>
    cases hlevel : child.level with
    | Lower =>
      simp [Call.turn, visit_invocation, get_task, hchild, bind, Except.bind, hlevel, Refines]
    | Upper =>
      rw [Call.turn_upper hchild hlevel, Call.turn_upper hchild hlevel]
      exact ih rfl

/-- How a call ends depends on its task alone. -/
theorem Bare.refines (hg : g.Bare) {fuel' : Nat} (hle : fuel ≤ fuel') {x x' : Call}
    (hname : x'.name = x.name) : Refines (x.run g fuel) (x'.run g fuel') := by
  induction fuel generalizing fuel' x x' with
  | zero => trivial
  | succ fuel ih =>
    obtain ⟨fuel', rfl⟩ : ∃ k, fuel' = k + 1 := ⟨fuel' - 1, by omega⟩
    cases htask : g.tasks[x.name]? with
    | none =>
      simp [Call.run, collect_leaves_recursive, get_task, htask, bind, Except.bind, Refines, hname]
    | some task =>
      rw [hg.run_succ htask, hg.run_succ (hname ▸ htask)]
      exact Refines.foldlM (fun entry _ => turn_refines (ih (by omega)) x x' task entry) _ _

/-- The tasks of a call and of one that it makes. -/
def EntersTask (g : TaskGraph) (name d : Str) : Prop :=
  ∃ x y : Call, x.name = name ∧ y.name = d ∧ g.Enters x y

/-- Above a cycle of calls, no fuel is enough. -/
theorem Bare.unfinished (hg : g.Bare)
    (hcycle : ∃ n, ReflTransGen g.EntersTask x.name n ∧ TransGen g.EntersTask n n) :
    x.run g fuel = .error .unfinished := by
  induction fuel generalizing x with
  | zero => rfl
  | succ fuel ih =>
    obtain ⟨_, ⟨x0, _, hx0, rfl, henters⟩, hbelow⟩ := exists_step_of_cycle hcycle
    obtain ⟨task, before, d, index, inst, after, child, fuel0, c0, htask, -, hsplit, hbefore,
      hchild, hup, rfl⟩ := henters
    rw [hg.run_succ (hx0 ▸ htask), hsplit, List.foldlM_append]
    -- The turns before the call end as they did in the other call, or not at all.
    have hturns : (∃ c, before.foldlM (x.turn g fuel task) x.collected = .ok c) ∨
        before.foldlM (x.turn g fuel task) x.collected = .error .unfinished := by
      have hturn : ∀ {k k'}, k ≤ k' → ∀ y y' : Call, Refines
          (before.foldlM (y.turn g k task) y.collected)
          (before.foldlM (y'.turn g k' task) y'.collected) := fun hle y y' =>
        Refines.foldlM (fun entry _ => turn_refines (hg.refines hle) y y' task entry) _ _
      rcases Nat.le_total fuel fuel0 with hle | hle
      · have hends := hturn hle x x0
        rw [hbefore] at hends
        cases hc : before.foldlM (x.turn g fuel task) x.collected with
        | ok c => exact .inl ⟨c, rfl⟩
        | error e =>
          rw [hc] at hends
          cases e with
          | unfinished => exact .inr rfl
          | error e => cases hends
      · have hends := hturn hle x0 x
        rw [hbefore] at hends
        exact .inl hends
    rcases hturns with ⟨c, hc⟩ | hc
    · have hdeeper : (x.below g task c d index inst).run g fuel = .error .unfinished := ih hbelow
      rw [hc, ok_bind, List.foldlM_cons, Call.turn_upper hchild hup, hdeeper]
      rfl
    · rw [hc]
      rfl

/-! ## When flattening ends -/

theorem Bare.noRecursion (hg : g.Bare) (hends : g.Finishes) : g.NoRecursion := by
  intro path hchain
  by_contra hagain
  obtain ⟨enough, hends⟩ := hends
  have hnames : ((g.top_call :: path).map Call.name).IsChain g.EntersTask :=
    (List.isChain_map Call.name).mpr (hchain.imp fun x y h => ⟨x, y, rfl, rfl, h⟩)
  have hcycle := exists_cycle_of_chain hnames hagain
  obtain ⟨_, ⟨x, _, hx, _, henters⟩, _⟩ := exists_step_of_cycle hcycle
  obtain ⟨top, _, _, _, _, _, _, _, _, htop, hup, _⟩ := henters
  rw [hx] at htop
  exact hends enough le_rfl (flatten_unfinished_iff.mpr ⟨top, htop, hup, hg.unfinished hcycle⟩)

def unboundInstance : TaskInstance := ⟨none, ∅, 0⟩

/-- A top that invokes the tasks named so, and then itself. -/
def recursiveTop (callees : List Str) : Task where
  level := .Upper
  ports := []
  tasks := (callees ++ ["Top".toList]).foldl (fun tasks callee =>
    tasks.insert callee [unboundInstance]) ∅
  fifos := ∅
  self_area := none

def recursive (callees : List Str) : TaskGraph where
  top := "Top".toList
  tasks := .insert ∅ "Top".toList (recursiveTop callees)

theorem getElem?_recursive {callees : List Str} {name : Str} {task : Task}
    (h : (recursive callees).tasks[name]? = some task) :
    name = "Top".toList ∧ task = recursiveTop callees := by
  rcases get_insert_eq_some.mp h with ⟨rfl, rfl⟩ | ⟨_, h⟩
  · exact ⟨rfl, rfl⟩
  · simp at h

theorem bare_recursive (callees : List Str) : (recursive callees).Bare := by
  intro name task h
  obtain ⟨_, rfl⟩ := getElem?_recursive h
  rfl

end TaskGraph

end Tapa.Ir
