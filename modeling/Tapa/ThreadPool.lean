-- The thread pool of the host (`private_scheduler.h`): tasks go to the workers in
-- turn, and `wait` returns when no joined task is counted. A worker sees a task before
-- the task is counted, and a task that runs can enqueue others.
import Tapa.Interleaving

namespace Tapa.Host.Pool

open Interleaving List

/-! ## The pool -/

/-- A task is in the queue of its worker, a coroutine of it, behind the end of its
function, or over. -/
inductive Phase where
  | queued | running | returned | finished
deriving DecidableEq

/-- A task, with the task that enqueued it, or none for a caller outside of the pool. -/
structure Task where
  parent : Option Nat
  detach : Bool
  worker : Nat
  phase : Phase
deriving DecidableEq

/-- A joined task that is not over. -/
def Task.pending (t : Task) : Bool := !t.detach && t.phase ≠ .finished

/-- The pool. `worker_mtx` is free, or held by a call of `add_task` that has to count its
task yet. -/
structure thread_pool where
  workers : Nat
  it : Nat
  joined_tasks : Nat
  tasks : List Task
  adding : Option (Option Nat)

def thread_pool.create (worker_count : Nat) : thread_pool where
  workers := if worker_count = 0 then 1 else worker_count
  it := 0
  joined_tasks := 0
  tasks := []
  adding := none

inductive Action where
  /-- `add_task` of a caller or of a running task, up to the count. -/
  | add_task (parent : Option Nat) (detach : Bool)
  | count
  /-- A worker makes coroutines of all that is in its queue. -/
  | take_tasks (worker : Nat)
  /-- The function of a task returns. -/
  | return_from (t : Nat)
  /-- A joined task takes itself off the count. -/
  | join (t : Nat)

section

variable (s : thread_pool)

def thread_pool.next_it : Nat := if s.it + 1 = s.workers then 0 else s.it + 1

def thread_pool.runs : Option Nat → Bool
  | none => true
  | some t => s.tasks[t]?.any (·.phase = .running)

/-- A joined task whose function has returned needs `worker_mtx`. -/
def thread_pool.can_join (t : Nat) : Bool :=
  s.adding.isNone && s.tasks[t]?.any fun task => !task.detach && task.phase = .returned

/-- The predicate that `wait` checks with `worker_mtx` held. -/
def thread_pool.wait_returns : Bool := s.adding.isNone && s.joined_tasks = 0

def thread_pool.set_phase (t : Nat) (phase : Phase) : List Task :=
  match s.tasks[t]? with
  | some task => s.tasks.set t { task with phase }
  | none => s.tasks

def Task.take (worker : Nat) (t : Task) : Task :=
  if t.worker = worker ∧ t.phase = .queued then { t with phase := .running } else t

def step : Action → thread_pool
  | .add_task parent detach =>
    if s.adding.isNone && s.runs parent then
      { s with
        tasks := s.tasks ++ [⟨parent, detach, s.it, .queued⟩]
        it := if detach then s.next_it else s.it
        adding := if detach then none else some parent }
    else s
  | .count =>
    if s.adding.isSome then
      { s with joined_tasks := s.joined_tasks + 1, it := s.next_it, adding := none }
    else s
  | .take_tasks worker => { s with tasks := s.tasks.map (Task.take worker) }
  | .return_from t =>
    if s.runs (some t) && s.adding ≠ some (some t) then
      let phase := if s.tasks[t]?.any (·.detach) then .finished else .returned
      { s with tasks := s.set_phase t phase }
    else s
  | .join t =>
    if s.can_join t then
      { s with joined_tasks := s.joined_tasks - 1, tasks := s.set_phase t .finished }
    else s

end

/-! ## The count -/

variable {s : thread_pool} {t : Nat} {task : Task}

theorem set_phase_eq (ht : s.tasks[t]? = some task) (phase : Phase) :
    s.set_phase t phase = s.tasks.set t { task with phase } := by
  simp only [thread_pool.set_phase, ht]

theorem countP_set_phase (ht : s.tasks[t]? = some task) (phase : Phase) :
    (s.set_phase t phase).countP Task.pending + (if task.pending then 1 else 0) =
      s.tasks.countP Task.pending + if Task.pending { task with phase } then 1 else 0 := by
  obtain ⟨hlt, rfl⟩ := List.getElem?_eq_some_iff.mp ht
  have hpos : (if s.tasks[t].pending then 1 else 0) ≤ s.tasks.countP Task.pending := by
    split
    · exact countP_pos_iff.mpr ⟨_, getElem_mem hlt, ‹_›⟩
    · exact Nat.zero_le _
  rw [set_phase_eq ht, countP_set hlt]
  omega

theorem can_join_iff : s.can_join t = true ↔ s.adding = none ∧
    ∃ task, s.tasks[t]? = some task ∧ task.detach = false ∧ task.phase = .returned := by
  simp [thread_pool.can_join, Option.any_eq_true]

theorem runs_iff : s.runs (some t) = true ↔
    ∃ task, s.tasks[t]? = some task ∧ task.phase = .running := by
  simp [thread_pool.runs, Option.any_eq_true]

/-- The count has every joined task that is not over, but for one that is being added. -/
def Counted (s : thread_pool) : Prop :=
  s.joined_tasks + s.adding.toList.length = s.tasks.countP Task.pending

theorem Counted.pos (h : Counted s) (hj : s.can_join t = true) : 0 < s.joined_tasks := by
  obtain ⟨hfree, task, ht, hdetach, hphase⟩ := can_join_iff.mp hj
  have hmem : 0 < s.tasks.countP Task.pending :=
    countP_pos_iff.mpr ⟨task, mem_of_getElem? ht, by simp [Task.pending, hdetach, hphase]⟩
  unfold Counted at h
  rwa [← h, hfree] at hmem

theorem Counted.step (h : Counted s) (a : Action) : Counted (step s a) := by
  have hcount := h
  unfold Counted at hcount ⊢
  cases a with
  | add_task parent detach =>
    simp only [Pool.step]
    split
    · rename_i hadd
      simp only [Bool.and_eq_true, Option.isNone_iff_eq_none] at hadd
      rw [hadd.1] at hcount
      cases detach <;> simpa [countP_append, Task.pending] using hcount
    · exact hcount
  | count =>
    simp only [Pool.step]
    split
    · rename_i hadd
      obtain ⟨parent, hparent⟩ := Option.isSome_iff_exists.mp hadd
      simpa [hparent] using hcount
    · exact hcount
  | take_tasks worker =>
    have htake : Task.pending ∘ Task.take worker = Task.pending := by
      funext task
      simp only [Function.comp_apply, Task.take]
      split
      · simp [Task.pending, *]
      · rfl
    simpa only [Pool.step, countP_map, htake] using hcount
  | return_from t =>
    simp only [Pool.step]
    split
    · rename_i hret
      rw [Bool.and_eq_true] at hret
      obtain ⟨task, ht, hphase⟩ := runs_iff.mp hret.1
      have hset := countP_set_phase ht (if task.detach then .finished else .returned)
      simp only [ht, Option.any_some]
      cases hd : task.detach <;> simp [Task.pending, hd, hphase] at hset ⊢ <;> omega
    · exact hcount
  | join t =>
    simp only [Pool.step]
    split
    · rename_i hj
      have hpos := h.pos hj
      obtain ⟨hfree, task, ht, hdetach, hphase⟩ := can_join_iff.mp hj
      have hset := countP_set_phase ht .finished
      simp [Task.pending, hdetach, hphase] at hset
      simp only [hfree, Option.toList_none, length_nil] at hcount ⊢
      omega
    · exact hcount

/-! ## What a step does to the tasks -/

/-- A task only changes its phase, and not when it is over. -/
structure Task.Later (task task' : Task) : Prop where
  parent : task'.parent = task.parent
  detach : task'.detach = task.detach
  finished : task.phase = .finished → task'.phase = .finished

theorem Task.Later.refl (task : Task) : task.Later task := ⟨rfl, rfl, id⟩

/-- A step leaves the tasks, adds one of a caller or of a task that runs, starts those of a
worker, or brings one that is not over to its next phase. -/
theorem step_tasks (s : thread_pool) (a : Action) : (step s a).tasks = s.tasks ∨
    (∃ task, s.runs task.parent = true ∧ (step s a).tasks = s.tasks ++ [task]) ∨
    (∃ worker, (step s a).tasks = s.tasks.map (Task.take worker)) ∨
    ∃ u task phase, s.tasks[u]? = some task ∧ task.phase ≠ .finished ∧
      (step s a).tasks = s.tasks.set u { task with phase } := by
  cases a with
  | add_task parent detach =>
    simp only [step]
    split
    · rename_i hadd
      exact .inr (.inl ⟨_, (Bool.and_eq_true _ _ ▸ hadd).2, rfl⟩)
    · exact .inl rfl
  | count =>
    simp only [step]
    split <;> exact .inl rfl
  | take_tasks worker => exact .inr (.inr (.inl ⟨worker, rfl⟩))
  | return_from u =>
    simp only [step]
    split
    · rename_i hret
      obtain ⟨task, ht, hphase⟩ := runs_iff.mp (Bool.and_eq_true _ _ ▸ hret).1
      exact .inr (.inr (.inr ⟨u, task, _, ht, by simp [hphase], set_phase_eq ht _⟩))
    · exact .inl rfl
  | join u =>
    simp only [step]
    split
    · rename_i hj
      obtain ⟨_, task, ht, _, hphase⟩ := can_join_iff.mp hj
      exact .inr (.inr (.inr ⟨u, task, _, ht, by simp [hphase], set_phase_eq ht _⟩))
    · exact .inl rfl

theorem step_keeps (ht : s.tasks[t]? = some task) (a : Action) :
    ∃ task', (step s a).tasks[t]? = some task' ∧ task.Later task' := by
  rcases step_tasks s a with h | ⟨_, _, h⟩ | ⟨worker, h⟩ | ⟨u, old, phase, hu, hphase, h⟩ <;>
    rw [h]
  · exact ⟨task, ht, .refl task⟩
  · exact ⟨task, by rwa [getElem?_append_left (List.getElem?_eq_some_iff.mp ht).1], .refl task⟩
  · refine ⟨task.take worker, by simp [ht], ?_⟩
    unfold Task.take
    split
    · rename_i htake
      exact ⟨rfl, rfl, fun hover => absurd (htake.2.symm.trans hover) (by decide)⟩
    · exact .refl task
  · by_cases htu : u = t
    · subst htu
      obtain rfl := Option.mem_unique hu ht
      refine ⟨{ old with phase }, ?_, rfl, rfl, fun hover => absurd hover hphase⟩
      exact getElem?_set_self (List.getElem?_eq_some_iff.mp ht).1
    · exact ⟨task, by rwa [List.getElem?_set_ne htu], .refl task⟩

/-- A new task is one of a caller, or of a task that runs. -/
theorem step_adds {a : Action} (ht : (step s a).tasks[t]? = some task)
    (hnew : s.tasks[t]? = none) : s.runs task.parent = true := by
  rcases step_tasks s a with h | ⟨new, hruns, h⟩ | ⟨worker, h⟩ | ⟨u, old, phase, _, _, h⟩ <;>
    rw [h] at ht
  · cases hnew.symm.trans ht
  · rw [getElem?_append_right (List.getElem?_eq_none_iff.mp hnew)] at ht
    rwa [List.mem_singleton.mp (mem_of_getElem? ht)]
  · simp [hnew] at ht
  · rw [List.getElem?_eq_none (by simpa using hnew)] at ht
    cases ht

/-! ## What is enqueued behind the end of the tree -/

/-- The state after one in which no joined task is pending: the tasks are still there, and
none of the joined ones has enqueued another. -/
structure After (before s : thread_pool) : Prop where
  kept : ∀ (t : Nat) task, before.tasks[t]? = some task →
    ∃ task', s.tasks[t]? = some task' ∧ task.Later task'
  fresh : ∀ (t : Nat) task p, s.tasks[t]? = some task → before.tasks[t]? = none →
    task.parent = some p → ∀ top, before.tasks[p]? = some top → top.detach = true

theorem After.step {before : thread_pool} (hover : before.tasks.countP Task.pending = 0)
    (h : After before s) (a : Action) : After before (step s a) where
  kept := by
    intro t task ht
    obtain ⟨task', ht', hlater⟩ := h.kept t task ht
    obtain ⟨task'', ht'', hnext⟩ := step_keeps ht' a
    exact ⟨task'', ht'', hnext.parent.trans hlater.parent, hnext.detach.trans hlater.detach,
      fun hphase => hnext.finished (hlater.finished hphase)⟩
  fresh := by
    intro t task p ht hnew hparent top htop
    cases hold : s.tasks[t]? with
    | some task' =>
      obtain ⟨task'', ht'', hnext⟩ := step_keeps hold a
      obtain rfl := Option.mem_unique ht ht''
      exact h.fresh t task' p hold hnew (hnext.parent.symm.trans hparent) top htop
    | none =>
      -- The parent runs, so it is not one of the joined tasks, which are over.
      have hruns := step_adds ht hold
      rw [hparent] at hruns
      obtain ⟨running, hp, hphase⟩ := runs_iff.mp hruns
      obtain ⟨top', htop', hlater⟩ := h.kept p top htop
      obtain rfl := Option.mem_unique hp htop'
      have hpending := countP_eq_zero.mp hover top (mem_of_getElem? htop)
      by_contra hjoined
      have hfinished : top.phase = .finished := by
        simpa [Task.pending, Bool.eq_false_iff.mpr hjoined] using hpending
      rw [hlater.finished hfinished] at hphase
      cases hphase

/-- A joined task of the tree below what was enqueued before: one of these, or one that a
joined task of the tree enqueued. -/
inductive Below (before s : thread_pool) : Nat → Prop
  | root {t : Nat} {task : Task} : before.tasks[t]? = some task → task.detach = false →
      Below before s t
  | child {t p : Nat} {task : Task} : s.tasks[t]? = some task → task.detach = false →
      task.parent = some p → Below before s p → Below before s t

theorem After.below {before : thread_pool} (h : After before s) (hb : Below before s t) :
    ∃ task, before.tasks[t]? = some task ∧ task.detach = false := by
  induction hb with
  | root ht hdetach => exact ⟨_, ht, hdetach⟩
  | @child t p task ht hdetach hparent _ ih =>
    obtain ⟨top, htop, hjoined⟩ := ih
    cases hold : before.tasks[t]? with
    | none =>
      rw [h.fresh t task p ht hold hparent top htop] at hjoined
      cases hjoined
    | some task' =>
      obtain ⟨task'', ht'', hlater⟩ := h.kept t task' hold
      obtain rfl := Option.mem_unique ht ht''
      exact ⟨task', rfl, hlater.detach.symm.trans hdetach⟩

/-- At every moment the count is the number of the joined tasks that are not over, but for
one that is being added, and no joined task takes itself off a count of zero. When `wait`
returns, the whole tree of joined tasks is over, whatever happens later. -/
theorem wait_returns_behind_the_joined_tree (worker_count : Nat) (actions later : List Action) :
    let s := run step (.create worker_count) actions
    s.joined_tasks + s.adding.toList.length = s.tasks.countP Task.pending ∧
    (∀ t, s.can_join t = true → 0 < s.joined_tasks) ∧
    (s.wait_returns = true → ∀ t, Below s (run step s later) t →
      ∃ task, s.tasks[t]? = some task ∧ task.phase = .finished) := by
  intro s
  have hcount : Counted s :=
    run_invariant (fun _ a h => h.step a) (show Counted (.create worker_count) from rfl) actions
  refine ⟨hcount, fun t hj => hcount.pos hj, fun hwait t hbelow => ?_⟩
  simp only [thread_pool.wait_returns, Bool.and_eq_true, Option.isNone_iff_eq_none,
    decide_eq_true_eq] at hwait
  have hover : s.tasks.countP Task.pending = 0 := by
    rw [← hcount, hwait.1, hwait.2]
    rfl
  have hafter : After s (run step s later) := by
    refine run_invariant (fun _ a h => h.step hover a) ⟨fun t task ht => ?_, ?_⟩ later
    · exact ⟨task, ht, .refl task⟩
    · intro t task p ht hnew
      cases ht.symm.trans hnew
  obtain ⟨task, ht, hdetach⟩ := hafter.below hbelow
  refine ⟨task, ht, ?_⟩
  simpa [Task.pending, hdetach] using countP_eq_zero.mp hover task (mem_of_getElem? ht)

/-! ## The turns of the workers -/

/-- The tasks went to the workers in turn, and so will the next. -/
structure InTurn (s : thread_pool) : Prop where
  pos : 0 < s.workers
  dealt : s.tasks.map (·.worker) = (range s.tasks.length).map (· % s.workers)
  next : (if s.adding = none then s.it else s.next_it) = s.tasks.length % s.workers

theorem next_it_eq {n : Nat} (hpos : 0 < s.workers) (h : s.it = n % s.workers) :
    s.next_it = (n + 1) % s.workers := by
  have hlt := Nat.mod_lt n hpos
  rw [← Nat.mod_add_mod, thread_pool.next_it, h]
  split
  · rename_i hlast
    rw [hlast, Nat.mod_self]
  · exact (Nat.mod_eq_of_lt (by omega)).symm

/-- The turns do not depend on the phases of the tasks. -/
theorem InTurn.keep (h : InTurn s) {tasks : List Task}
    (hworkers : tasks.map (·.worker) = s.tasks.map (·.worker)) (joined : Nat) :
    InTurn { s with tasks := tasks, joined_tasks := joined } := by
  have hlen : tasks.length = s.tasks.length := by simpa using congrArg length hworkers
  refine ⟨h.pos, ?_, ?_⟩
  · rw [hworkers, hlen]
    exact h.dealt
  · rw [hlen]
    exact h.next

theorem worker_set_phase (s : thread_pool) (t : Nat) (phase : Phase) :
    (s.set_phase t phase).map (·.worker) = s.tasks.map (·.worker) := by
  unfold thread_pool.set_phase
  split
  · rename_i task ht
    exact ext_getElem? fun i => by grind
  · rfl

theorem InTurn.step (h : InTurn s) (a : Action) : InTurn (step s a) := by
  cases a with
  | add_task parent detach =>
    simp only [Pool.step]
    split
    · rename_i hadd
      rw [Bool.and_eq_true, Option.isNone_iff_eq_none] at hadd
      have hit : s.it = s.tasks.length % s.workers := by simpa [hadd.1] using h.next
      refine ⟨h.pos, by simp [h.dealt, range_succ, hit], ?_⟩
      have hnext := next_it_eq h.pos hit
      cases detach <;> simpa [thread_pool.next_it] using hnext
    · exact h
  | count =>
    simp only [Pool.step]
    split
    · rename_i hadd
      refine ⟨h.pos, h.dealt, ?_⟩
      simpa [Option.isSome_iff_ne_none.mp hadd] using h.next
    · exact h
  | take_tasks worker =>
    refine h.keep ?_ s.joined_tasks
    rw [map_map]
    exact map_congr_left fun task _ => by simp only [Function.comp_apply, Task.take]; split <;> rfl
  | return_from t | join t =>
    simp only [Pool.step]
    split
    · exact h.keep (worker_set_phase _ _ _) _
    · exact h

/-- Tasks go to the workers in turn, whoever adds them. -/
theorem tasks_go_to_the_workers_in_turn (worker_count : Nat) (actions : List Action) :
    let s := run step (.create worker_count) actions
    s.tasks.map (·.worker) = (range s.tasks.length).map (· % s.workers) := by
  have hstart : InTurn (.create worker_count) := by
    refine ⟨?_, rfl, (Nat.zero_mod _).symm⟩
    grind [thread_pool.create]
  exact (run_invariant (fun _ a h => h.step a) hstart actions).dealt

end Tapa.Host.Pool
