-- The check that no end-of-transmission token enters the AI Engine (`CheckAieEot`): which
-- ports a task closes is found by a memoised search down its instances, and a stream is
-- refused if its writer closes it and its reader is an AI Engine task.
import Tapa.ProgramBuilder

namespace Tapa.Merge

open Text Frontend Fallible Std.ExtTreeMap
open Ir (BTreeMap get_insert_eq_some)

/-! ## The check -/

/-- The name that an argument holds; a constant holds none. -/
def arg_name : Arg → Str
  | .named arg _ => arg
  | .constant _ _ => []

/-- The tasks by name: the first key takes the name. -/
def by_name (tasks : Tasks) : BTreeMap Str TaskModel :=
  tasks.toList.foldl (fun names p =>
    if names.contains p.2.model.name then names
    else names.insert p.2.model.name p.2.model) ∅

/-- The closed ports of the upper task, with those that an instance closes. -/
def raise_closed (task : TaskModel) (child_closed closed : List Str) (inst : Instance) :
    List Str :=
  inst.args.toList.foldl (fun closed p =>
    if array_base_name p.1 ∉ child_closed ∨ arg_name p.2 = [] then closed
    else if (find_port task.ports (array_base_name (arg_name p.2))).isSome then
      closed.insert (array_base_name (arg_name p.2))
    else closed) closed

abbrev CloseCache := BTreeMap Str (List Str)

section Search

variable (names : BTreeMap Str TaskModel)

/-- The search for the closed ports of a child, for each of its instances. -/
def close_child (search : CloseCache → TaskModel → Except Stop (List Str × CloseCache))
    (task : TaskModel) (r : List Str × CloseCache) (p : Str × List Instance) :
    Except Stop (List Str × CloseCache) :=
  match names[p.1]? with
  | none => pure r
  | some child => p.2.foldlM (fun r inst => do
      let c ← search r.2 child
      pure (raise_closed task c.1 r.1 inst, c.2)) r

/-- The ports that a task closes, itself or below it. -/
def closed_ports : Nat → CloseCache → TaskModel → Except Stop (List Str × CloseCache)
  | 0, _, _ => .error .unfinished
  | fuel + 1, cache, task =>
    match cache[task.name]? with
    | some closed => .ok (closed, cache)
    | none => do
      let r ← task.instances.toList.foldlM (close_child names (closed_ports fuel) task)
        (task.closed_ports, cache)
      pure (r.1, r.2.insert task.name r.1)

/-- One port of the writer of a stream. -/
def check_writer (fuel : Nat) (upper producer consumer : TaskModel) (fifo : Str)
    (cache : CloseCache) (p : Str × Arg) : Except Stop CloseCache :=
  if arg_name p.2 = fifo then do
    let c ← closed_ports names fuel cache producer
    if array_base_name p.1 ∈ c.1 then
      .error (.fail (.closes_into_aie producer.name (array_base_name p.1) consumer.name fifo
        upper.name))
    else pure c.2
  else pure cache

/-- One stream: it is refused if its reader is on the AI Engine and its writer closes it. -/
def check_stream (fuel : Nat) (upper : TaskModel) (cache : CloseCache) (p : Str × StreamDecl) :
    Except Stop CloseCache :=
  match p.2.produced_by, p.2.consumed_by with
  | some writer, some reader =>
    match names[writer.task]?, names[reader.task]? with
    | some producer, some consumer =>
      if consumer.target ≠ .kAie then pure cache
      else
        match upper.instances[writer.task]?.bind (·[writer.index]?) with
        | none => pure cache
        | some inst =>
          inst.args.toList.foldlM (check_writer names fuel upper producer consumer p.1) cache
    | _, _ => pure cache
  | _, _ => pure cache

end Search

def check_aie_eot (fuel : Nat) (tasks : Tasks) : Except Stop CloseCache :=
  tasks.toList.foldlM (fun cache p =>
    p.2.model.streams.toList.foldlM (check_stream (by_name tasks) fuel p.2.model) cache) ∅

/-- The guard of `AiePartition::derive` that comes after the check: an AI Engine task is
invoked by the top task or by an AI Engine task. The result is a task of the programmable
logic that invokes one, with that one. -/
def pl_invokes_aie (names : BTreeMap Str TaskModel) (top : Str) : Option (Str × Str) :=
  names.toList.findSome? fun p =>
    if p.1 = top ∨ p.2.target = .kAie then none
    else ((p.2.instances.toList.map Prod.fst).find? fun child =>
      (names[child]?.map TaskModel.target) = some .kAie).map fun child => (p.1, child)

/-! ## Where a token goes -/

section Flow

variable (names : BTreeMap Str TaskModel)

/-- A task hands a port of its own to a port of an instance of a child. -/
def Binds (t port c child_port : Str) : Prop :=
  ∃ task ∈ names[t]?, ∃ insts ∈ task.instances[c]?, ∃ inst ∈ insts, ∃ a ∈ inst.args.toList,
    array_base_name a.1 = child_port ∧ arg_name a.2 ≠ [] ∧
      array_base_name (arg_name a.2) = port ∧ (find_port task.ports port).isSome = true

instance (t port c child_port : Str) : Decidable (Binds names t port c child_port) := by
  unfold Binds
  infer_instance

/-- A port that a task closes, itself or through a child to whose port it is bound. -/
inductive Closes : Str → Str → Prop
  | own {t port : Str} {task : TaskModel} (h : names[t]? = some task)
      (hclosed : port ∈ task.closed_ports) : Closes t port
  | up {t port c child_port : Str} (h : Binds names t port c child_port)
      (hcloses : Closes c child_port) : Closes t port

/-- A port that a leaf in the programmable logic closes, or that is bound to one. -/
inductive LeafCloses : Str → Str → Prop
  | leaf {t port : Str} {task : TaskModel} (h : names[t]? = some task)
      (hlevel : task.level = .kLower) (htarget : task.target ≠ .kAie)
      (hclosed : port ∈ task.closed_ports) : LeafCloses t port
  | up {t port c child_port : Str} (h : Binds names t port c child_port)
      (hcloses : LeafCloses c child_port) : LeafCloses t port

/-- A port of an AI Engine task, or one that is bound to it, however deep. -/
inductive Receives : Str → Str → Prop
  | here {t port : Str} {task : TaskModel} (h : names[t]? = some task)
      (htarget : task.target = .kAie) (hport : (find_port task.ports port).isSome = true) :
      Receives t port
  | down {t port c child_port : Str} (h : Binds names t port c child_port)
      (hreceives : Receives c child_port) : Receives t port

/-- The tasks form a hierarchy: each lies above those that it invokes. -/
def Hierarchy : Prop :=
  ∃ depth : Str → Nat, ∀ p ∈ names.toList, ∀ q ∈ p.2.instances.toList, q.1 ∈ names →
    depth q.1 < depth p.1

end Flow

/-- An instance has a stream at one of its ports. -/
def Holds (upper : TaskModel) (e : Endpoint) (fifo port : Str) : Prop :=
  ∃ inst ∈ upper.instances[e.task]?.bind (·[e.index]?), ∃ a ∈ inst.args.toList,
    arg_name a.2 = fifo ∧ array_base_name a.1 = port

instance (upper : TaskModel) (e : Endpoint) (fifo port : Str) :
    Decidable (Holds upper e fifo port) := by
  unfold Holds
  infer_instance

/-- A stream of an upper task, with the instances that write and read it. -/
def StreamOf (tasks : Tasks) (upper : TaskModel) (fifo : Str) (writer reader : Endpoint) : Prop :=
  ∃ q ∈ tasks.toList, q.2.model = upper ∧ ∃ s ∈ upper.streams.toList, s.1 = fifo ∧
    writer ∈ s.2.produced_by ∧ reader ∈ s.2.consumed_by

/-- A token of a leaf reaches a port of an AI Engine task: up to the writer of a stream,
across the stream, and down from its reader. -/
def EotReachesAie (tasks : Tasks) : Prop :=
  ∃ upper fifo writer reader out inp, StreamOf tasks upper fifo writer reader ∧
    Holds upper writer fifo out ∧ LeafCloses (by_name tasks) writer.task out ∧
    Holds upper reader fifo inp ∧ Receives (by_name tasks) reader.task inp

/-- A stream whose writer closes it and whose reader is itself on the AI Engine. -/
def FeedsAie (tasks : Tasks) : Prop :=
  ∃ upper fifo writer reader out, StreamOf tasks upper fifo writer reader ∧
    Holds upper writer fifo out ∧ Closes (by_name tasks) writer.task out ∧
    ∃ consumer ∈ (by_name tasks)[reader.task]?, consumer.target = .kAie

/-- Given enough steps, the check stops with an error. -/
def RejectsEot (tasks : Tasks) : Prop :=
  ∃ n, ∀ fuel ≥ n, ∃ e, check_aie_eot fuel tasks = .error (.fail e)

/-! ## The search for closed ports -/

/-- Every name stands for a task of that name. -/
def Named (names : BTreeMap Str TaskModel) : Prop :=
  ∀ (t : Str) (task : TaskModel), names[t]? = some task → task.name = t

theorem by_name_named (tasks : Tasks) : Named (by_name tasks) := by
  unfold by_name
  refine List.foldlRecOn (motive := Named) tasks.toList _ ?_ ?_
  · intro t task h
    simp at h
  · intro names hnames p _
    split
    · exact hnames
    intro t task h
    rcases get_insert_eq_some.mp h with ⟨heq, rfl⟩ | ⟨_, h⟩
    · exact heq
    · exact hnames t task h

section Search

variable {names : BTreeMap Str TaskModel}

/-- An instance of a child closes a port of its upper task. -/
def Raises (names : BTreeMap Str TaskModel) (task : TaskModel) (c : Str) (inst : Instance)
    (port : Str) : Prop :=
  ∃ a ∈ inst.args.toList, Closes names c (array_base_name a.1) ∧ arg_name a.2 ≠ [] ∧
    array_base_name (arg_name a.2) = port ∧ (find_port task.ports port).isSome = true

variable {t port : Str} {task : TaskModel}

/-- A task closes what its body closes, and what its instances close of its ports. -/
theorem closes_iff (h : names[t]? = some task) :
    Closes names t port ↔ port ∈ task.closed_ports ∨
      ∃ q ∈ task.instances.toList, ∃ inst ∈ q.2, Raises names task q.1 inst port := by
  constructor
  · intro hcloses
    cases hcloses with
    | own h' hclosed =>
      obtain rfl := Option.mem_unique h h'
      exact .inl hclosed
    | up hbinds hcloses =>
      obtain ⟨task', h', insts, hinsts, inst, hinst, a, ha, rfl, hrest⟩ := hbinds
      obtain rfl := Option.mem_unique h h'
      exact .inr ⟨(_, insts), mem_toList_iff_getElem?_eq_some.mpr hinsts, inst,
        hinst, a, ha, hcloses, hrest⟩
  · rintro (hclosed | ⟨⟨c, insts⟩, hq, inst, hinst, a, ha, hcloses, hrest⟩)
    · exact .own h hclosed
    · exact .up ⟨task, h, insts, mem_toList_iff_getElem?_eq_some.mp hq, inst, hinst,
        a, ha, rfl, hrest⟩ hcloses

theorem Closes.isSome (h : Closes names t port) : (names[t]?).isSome = true := by
  cases h with
  | own h _ => rw [h]; rfl
  | up h _ =>
    obtain ⟨task, h, _⟩ := h
    rw [Option.mem_def.mp h]
    rfl

variable {closed : List Str}

theorem mem_raise_closed {c : Str} {child_closed : List Str}
    (hchild : ∀ port, port ∈ child_closed ↔ Closes names c port) {inst : Instance} :
    port ∈ raise_closed task child_closed closed inst ↔
      port ∈ closed ∨ Raises names task c inst port := by
  unfold raise_closed Raises
  generalize inst.args.toList = args
  induction args generalizing closed with
  | nil => simp
  | cons a args ih =>
    rw [List.foldl_cons, ih]
    simp only [List.mem_cons, exists_eq_or_imp, ← hchild]
    split
    · tauto
    split
    · rename_i hport
      rw [List.mem_insert_iff]
      constructor
      · rintro ((rfl | h) | h)
        · exact .inr (.inl ⟨by tauto, by tauto, rfl, hport⟩)
        · exact .inl h
        · exact .inr (.inr h)
      · rintro (h | ⟨_, _, rfl, _⟩ | h)
        · exact .inl (.inr h)
        · exact .inl (.inl rfl)
        · exact .inr h
    · rename_i hport
      constructor
      · rintro (h | h)
        · exact .inl h
        · exact .inr (.inr h)
      · rintro (h | ⟨_, _, rfl, h⟩ | h)
        · exact .inl h
        · exact absurd h hport
        · exact .inr h

/-- What is remembered is what the tasks close. -/
def Remembers (names : BTreeMap Str TaskModel) (cache : CloseCache) : Prop :=
  ∀ (t : Str) (closed : List Str), cache[t]? = some closed →
    ∀ port, port ∈ closed ↔ Closes names t port

variable {cache : CloseCache}

theorem Remembers.insert (h : Remembers names cache)
    (hclosed : ∀ port, port ∈ closed ↔ Closes names t port) :
    Remembers names (cache.insert t closed) := by
  intro t' closed' hget
  rcases get_insert_eq_some.mp hget with ⟨rfl, rfl⟩ | ⟨_, hget⟩
  · exact hclosed
  · exact h t' closed' hget

variable {fuel : Nat}

/-- What the search finds is what the tasks close, with whatever it remembers. -/
theorem closed_ports_eq_ok (hnamed : Named names) {cache' : CloseCache}
    (ht : names[t]? = some task) (hcache : Remembers names cache)
    (h : closed_ports names fuel cache task = .ok (closed, cache')) :
    Remembers names cache' ∧ ∀ port, port ∈ closed ↔ Closes names t port := by
  induction fuel generalizing cache cache' t task closed with
  | zero => cases h
  | succ fuel ih =>
    obtain rfl := hnamed t task ht
    unfold closed_ports at h
    cases hhit : cache[task.name]? with
    | some found =>
      simp only [hhit] at h
      cases h
      exact ⟨hcache, hcache _ _ hhit⟩
    | none =>
      simp only [hhit, bind_eq_ok] at h
      obtain ⟨r, hloop, h⟩ := h
      cases h
      -- the closed ports so far are those of the body and of the instances already seen
      have hfound := foldlM_invariant (P := fun ys (r : List Str × CloseCache) =>
        Remembers names r.2 ∧ ∀ port, port ∈ r.1 ↔ port ∈ task.closed_ports ∨
          ∃ q ∈ ys, ∃ inst ∈ q.2, Raises names task q.1 inst port) hloop
        ⟨hcache, fun port => by simp⟩ ?_
      · have hcloses : ∀ port, port ∈ r.1 ↔ Closes names task.name port :=
          fun port => (hfound.2 port).trans (closes_iff ht).symm
        exact ⟨hfound.1.insert hcloses, hcloses⟩
      · rintro ys ⟨c, insts⟩ r r' - ⟨hremembers, hports⟩ hstep
        have hgoal : Remembers names r'.2 ∧ ∀ port, port ∈ r'.1 ↔ port ∈ r.1 ∨
            ∃ inst ∈ insts, Raises names task c inst port := by
          unfold close_child at hstep
          cases hc : names[c]? with
          | none =>
            simp only [hc] at hstep
            cases hstep
            refine ⟨hremembers, fun port => ⟨.inl, ?_⟩⟩
            rintro (h | ⟨_, _, _, _, hcloses, _⟩)
            · exact h
            · have := hcloses.isSome
              rw [hc] at this
              cases this
          | some child =>
            simp only [hc] at hstep
            refine foldlM_invariant (P := fun zs (r' : List Str × CloseCache) =>
              Remembers names r'.2 ∧ ∀ port, port ∈ r'.1 ↔ port ∈ r.1 ∨
                ∃ inst ∈ zs, Raises names task c inst port) hstep
              ⟨hremembers, fun port => by simp⟩ ?_
            rintro zs inst r1 r2 - ⟨hr1, hports1⟩ hinst
            obtain ⟨⟨child_closed, cache1⟩, hchild, hinst⟩ := bind_eq_ok.mp hinst
            cases hinst
            obtain ⟨hr2, hclosed⟩ := ih hc hr1 hchild
            refine ⟨hr2, fun port => ?_⟩
            rw [mem_raise_closed hclosed, hports1 port]
            simp [or_assoc]
        refine ⟨hgoal.1, fun port => ?_⟩
        rw [hgoal.2 port, hports port]
        simp [or_assoc]

/-- The search ends when it is given more steps than the task is deep. -/
theorem closed_ports_ends (hnamed : Named names) {depth : Str → Nat}
    (hdepth : ∀ p ∈ names.toList, ∀ q ∈ p.2.instances.toList, q.1 ∈ names → depth q.1 < depth p.1)
    (ht : names[t]? = some task) (hfuel : depth t < fuel) (cache : CloseCache) :
    ∃ r, closed_ports names fuel cache task = .ok r := by
  induction fuel generalizing cache t task with
  | zero => omega
  | succ fuel ih =>
    obtain rfl := hnamed t task ht
    unfold closed_ports
    cases cache[task.name]? with
    | some found => exact ⟨_, rfl⟩
    | none =>
      have hchild : ∀ (r : List Str × CloseCache), ∀ p ∈ task.instances.toList,
          ∃ r', close_child names (closed_ports names fuel) task r p = .ok r' := by
        rintro r ⟨c, insts⟩ hp
        unfold close_child
        cases hc : names[c]? with
        | none => exact ⟨_, rfl⟩
        | some child =>
          have hless := hdepth _ (mem_toList_iff_getElem?_eq_some.mpr ht) _ hp
            (mem_of_get hc)
          dsimp only at hless
          refine exists_foldlM_eq_ok (fun inst _ r => ?_) r
          obtain ⟨found, hfound⟩ := ih hc (by omega) r.2
          exact ⟨_, bind_eq_ok.mpr ⟨found, hfound, rfl⟩⟩
      obtain ⟨r, hr⟩ := exists_foldlM_eq_ok (fun p hp r => hchild r p hp)
        (task.closed_ports, cache)
      exact ⟨_, bind_eq_ok.mpr ⟨r, hr, rfl⟩⟩

/-! ## What the check refuses -/

/-- A search with enough steps, whatever it remembers. -/
def Finds (names : BTreeMap Str TaskModel) (fuel : Nat) : Prop :=
  ∀ (t : Str) (task : TaskModel) (cache : CloseCache), names[t]? = some task →
    ∃ r, closed_ports names fuel cache task = .ok r

theorem check_writer_settles (hnamed : Named names) (hfinds : Finds names fuel)
    {upper producer consumer : TaskModel} (ht : names[t]? = some producer) (fifo : Str)
    (hcache : Remembers names cache) (p : Str × Arg) :
    Settles (check_writer names fuel upper producer consumer fifo cache p)
      (¬(arg_name p.2 = fifo ∧ Closes names t (array_base_name p.1))) (Remembers names) := by
  unfold check_writer
  by_cases hfifo : arg_name p.2 = fifo
  · rw [if_pos hfifo]
    obtain ⟨⟨closed, cache'⟩, hfound⟩ := hfinds t producer cache ht
    obtain ⟨hremembers, hclosed⟩ := closed_ports_eq_ok hnamed ht hcache hfound
    rw [hfound, ok_bind]
    by_cases hmem : array_base_name p.1 ∈ closed
    · rw [if_pos hmem]
      exact fun h => h ⟨hfifo, (hclosed _).mp hmem⟩
    · rw [if_neg hmem]
      exact ⟨fun h => hmem ((hclosed _).mpr h.2), hremembers⟩
  · rw [if_neg hfifo]
    exact ⟨fun h => hfifo h.1, hcache⟩

/-- A stream that the check refuses. -/
def Refused (names : BTreeMap Str TaskModel) (upper : TaskModel) (p : Str × StreamDecl) : Prop :=
  ∃ writer ∈ p.2.produced_by, ∃ reader ∈ p.2.consumed_by, ∃ out, Holds upper writer p.1 out ∧
    Closes names writer.task out ∧ ∃ consumer ∈ names[reader.task]?, consumer.target = .kAie

theorem check_stream_settles (hnamed : Named names) (hfinds : Finds names fuel)
    (upper : TaskModel) (hcache : Remembers names cache) (p : Str × StreamDecl) :
    Settles (check_stream names fuel upper cache p)
      (¬Refused names upper p) (Remembers names) := by
  have hskip : (∀ writer reader out consumer, p.2.produced_by = some writer →
      p.2.consumed_by = some reader → Holds upper writer p.1 out → Closes names writer.task out →
      names[reader.task]? = some consumer → consumer.target = .kAie → False) →
      Settles (.ok cache : Except Stop CloseCache) (¬Refused names upper p)
        (Remembers names) := by
    intro h
    refine ⟨?_, hcache⟩
    rintro ⟨writer, h1, reader, h2, out, h3, h4, consumer, h5, h6⟩
    exact h writer reader out consumer h1 h2 h3 h4 h5 h6
  unfold check_stream
  split
  · rename_i writer reader hw hr
    split
    · rename_i producer consumer hproducer hconsumer
      split
      · rename_i htarget
        refine hskip fun w r out consumer' h1 h2 h3 h4 h5 h6 => htarget ?_
        obtain rfl := Option.mem_unique hr h2
        obtain rfl := Option.mem_unique hconsumer h5
        exact h6
      · rename_i htarget
        split
        · rename_i hinst
          refine hskip fun w r out consumer' h1 h2 h3 h4 h5 h6 => ?_
          obtain rfl := Option.mem_unique hw h1
          obtain ⟨inst, hinst', _⟩ := h3
          rw [hinst] at hinst'
          cases hinst'
        · rename_i inst hinst
          refine (foldlM_settles (P := fun _ cache => Remembers names cache) hcache
            (fun ys q cache _ hcache => check_writer_settles hnamed hfinds hproducer p.1 hcache
              q)).congr ⟨?_, ?_⟩
          · rintro h ⟨w, h1, r, h2, out, ⟨inst', hinst', a, ha, hfifo, rfl⟩, hcloses, -⟩
            obtain rfl := Option.mem_unique hw h1
            obtain rfl := Option.mem_unique hinst hinst'
            exact h a ha ⟨hfifo, hcloses⟩
          · rintro h a ha ⟨hfifo, hcloses⟩
            exact h ⟨writer, hw, reader, hr, _, ⟨inst, hinst, a, ha, hfifo, rfl⟩, hcloses,
              consumer, hconsumer, not_not.mp htarget⟩
    · rename_i hnone
      refine hskip fun w r out consumer h1 h2 h3 h4 h5 h6 => ?_
      obtain rfl := Option.mem_unique hw h1
      obtain rfl := Option.mem_unique hr h2
      obtain ⟨producer, hproducer⟩ := Option.isSome_iff_exists.mp h4.isSome
      exact hnone producer consumer hproducer h5
  · rename_i hnone
    exact hskip fun w r out consumer h1 h2 h3 h4 h5 h6 => hnone w r h1 h2

end Search

variable {tasks : Tasks}

theorem feedsAie_iff : FeedsAie tasks ↔
    ∃ q ∈ tasks.toList, ∃ p ∈ q.2.model.streams.toList, Refused (by_name tasks) q.2.model p := by
  constructor
  · rintro ⟨_, _, writer, reader, out, ⟨q, hq, rfl, p, hp, rfl, hw, hr⟩, hrest⟩
    exact ⟨q, hq, p, hp, writer, hw, reader, hr, out, hrest⟩
  · rintro ⟨q, hq, p, hp, writer, hw, reader, hr, out, hrest⟩
    exact ⟨q.2.model, p.1, writer, reader, out, ⟨q, hq, rfl, p, hp, rfl, hw, hr⟩, hrest⟩

theorem check_aie_eot_settles {fuel : Nat} (hfinds : Finds (by_name tasks) fuel) :
    Settles (check_aie_eot fuel tasks) (¬FeedsAie tasks) (Remembers (by_name tasks)) := by
  have hempty : Remembers (by_name tasks) ∅ := by
    intro t closed h
    simp at h
  unfold check_aie_eot
  have htask : ∀ (q : Str × MergedTask) (cache : CloseCache), Remembers (by_name tasks) cache →
      Settles (q.2.model.streams.toList.foldlM
          (check_stream (by_name tasks) fuel q.2.model) cache)
        (∀ p ∈ q.2.model.streams.toList, ¬Refused (by_name tasks) q.2.model p)
        (Remembers (by_name tasks)) :=
    fun q cache hcache => foldlM_settles (P := fun _ cache => Remembers (by_name tasks) cache)
      hcache (fun _ p _ _ hcache =>
        check_stream_settles (by_name_named tasks) hfinds q.2.model hcache p)
  refine (foldlM_settles (P := fun _ cache => Remembers (by_name tasks) cache) hempty
    (fun _ q cache _ hcache => htask q cache hcache)).congr ?_
  rw [feedsAie_iff]
  simp

/-- With enough steps the check ends, and what stops it is a violation. -/
theorem fail_of_check_aie_eot {fuel : Nat} (hfinds : Finds (by_name tasks) fuel) {e : Stop}
    (h : check_aie_eot fuel tasks = .error e) : ∃ m, e = .fail m := by
  obtain ⟨q, -, cache, h⟩ := exists_of_foldlM_eq_error h
  obtain ⟨p, -, cache, h⟩ := exists_of_foldlM_eq_error h
  unfold check_stream at h
  split at h
  · split at h
    · rename_i writer _ _ _ producer _ hproducer _
      split at h
      · cases h
      split at h
      · cases h
      obtain ⟨a, -, cache, h⟩ := exists_of_foldlM_eq_error h
      unfold check_writer at h
      split at h
      · obtain ⟨r, hr⟩ := hfinds _ _ cache hproducer
        rw [hr, ok_bind] at h
        split at h
        · exact ⟨_, (Except.error.inj h).symm⟩
        · cases h
      · cases h
    · cases h
  · cases h

theorem exists_finds {names : BTreeMap Str TaskModel} (hnamed : Named names)
    (h : Hierarchy names) : ∃ n, ∀ fuel ≥ n, Finds names fuel := by
  obtain ⟨depth, hdepth⟩ := h
  refine ⟨(names.toList.map fun p => depth p.1).sum + 1, fun fuel hfuel t task cache ht => ?_⟩
  have hmem := mem_toList_iff_getElem?_eq_some.mpr ht
  have hle : depth t ≤ (names.toList.map fun p => depth p.1).sum :=
    List.single_le_sum (fun _ _ => Nat.zero_le _) _ (List.mem_map_of_mem hmem)
  exact closed_ports_ends hnamed hdepth ht (by omega) cache

/-- The check refuses just the streams that feed an AI Engine task directly. -/
theorem rejectsEot_iff (h : Hierarchy (by_name tasks)) :
    RejectsEot tasks ↔ FeedsAie tasks := by
  obtain ⟨n, hfinds⟩ := exists_finds (by_name_named tasks) h
  constructor
  · rintro ⟨m, hrejects⟩
    obtain ⟨e, he⟩ := hrejects (max m n) (Nat.le_max_left m n)
    have hsettles := check_aie_eot_settles (hfinds (max m n) (Nat.le_max_right m n))
    rw [he] at hsettles
    exact not_not.mp hsettles
  · intro hfeeds
    refine ⟨n, fun fuel hfuel => ?_⟩
    have hsettles := check_aie_eot_settles (hfinds fuel hfuel)
    cases hcheck : check_aie_eot fuel tasks with
    | ok cache =>
      rw [hcheck] at hsettles
      exact absurd hfeeds hsettles.1
    | error e =>
      obtain ⟨m, rfl⟩ := fail_of_check_aie_eot (hfinds fuel hfuel) hcheck
      exact ⟨m, rfl⟩

/-! ## Safety -/

/-- No task invokes the top task. -/
def Rooted (tasks : Tasks) (top : Str) : Prop :=
  ∀ q ∈ tasks.toList, top ∉ q.2.model.instances

theorem exists_of_by_name {t : Str} {task : TaskModel} (h : (by_name tasks)[t]? = some task) :
    ∃ q ∈ tasks.toList, q.2.model = task := by
  unfold by_name at h
  revert t task
  refine List.foldlRecOn
    (motive := fun (names : BTreeMap Str TaskModel) => ∀ {t : Str} {task : TaskModel},
      names[t]? = some task → ∃ q ∈ tasks.toList, q.2.model = task) tasks.toList _ ?_ ?_
  · intro t task h
    simp at h
  · intro names ih p hp t task h
    split at h
    · exact ih h
    · rcases get_insert_eq_some.mp h with ⟨_, heq⟩ | ⟨_, h⟩
      · exact ⟨p, hp, heq⟩
      · exact ih h

theorem LeafCloses.closes {names : BTreeMap Str TaskModel} {t port : Str}
    (h : LeafCloses names t port) : Closes names t port := by
  induction h with
  | leaf h _ _ hclosed => exact .own h hclosed
  | up h _ ih => exact .up h ih

theorem pl_invokes_aie_isSome {names : BTreeMap Str TaskModel} {top t c : Str}
    {task child : TaskModel} (ht : names[t]? = some task) (hne : t ≠ top)
    (hpl : task.target ≠ .kAie) (hinv : c ∈ task.instances) (hc : names[c]? = some child)
    (haie : child.target = .kAie) : (pl_invokes_aie names top).isSome = true := by
  obtain ⟨insts, hinsts⟩ := Option.isSome_iff_exists.mp (isSome_getElem?_iff_mem.mpr hinv)
  have hfind : ((task.instances.toList.map Prod.fst).find? fun child =>
      (names[child]?.map TaskModel.target) = some .kAie).isSome = true := by
    rw [List.find?_isSome]
    exact ⟨c, List.mem_map.mpr ⟨(c, insts), mem_toList_iff_getElem?_eq_some.mpr hinsts, rfl⟩,
      by simp [hc, haie]⟩
  unfold pl_invokes_aie
  rw [List.findSome?_isSome_iff]
  refine ⟨(t, task), mem_toList_iff_getElem?_eq_some.mpr ht, ?_⟩
  rw [if_neg (not_or.mpr ⟨hne, hpl⟩), Option.isSome_map]
  exact hfind

/-- A port that leads to the AI Engine belongs to an AI Engine task, or a task of the
programmable logic below the top invokes one. -/
theorem Receives.aie_or_guarded {top t port : Str} (h : Receives (by_name tasks) t port)
    (hroot : Rooted tasks top) (hne : t ≠ top) :
    (∃ task ∈ (by_name tasks)[t]?, task.target = .kAie) ∨
      (pl_invokes_aie (by_name tasks) top).isSome = true := by
  induction h with
  | here h htarget _ => exact .inl ⟨_, h, htarget⟩
  | @down t port c child_port h _ ih =>
    obtain ⟨task, htask, insts, hinsts, _⟩ := h
    have hinv : c ∈ task.instances := mem_of_get hinsts
    have hc : c ≠ top := by
      rintro rfl
      obtain ⟨q, hq, rfl⟩ := exists_of_by_name htask
      exact hroot q hq hinv
    rcases ih hc with ⟨child, hchild, haie⟩ | hguard
    · by_cases hpl : task.target = .kAie
      · exact .inl ⟨task, htask, hpl⟩
      · exact .inr (pl_invokes_aie_isSome htask hne hpl hinv hchild haie)
    · exact .inr hguard

/-- A token that leads to the AI Engine is refused by the check, or its way there is refused
by the guard on who invokes the AI Engine. -/
theorem a_token_to_the_aie_is_refused {tasks : Tasks} {top : Str}
    (h : Hierarchy (by_name tasks)) (hroot : Rooted tasks top) (heot : EotReachesAie tasks) :
    RejectsEot tasks ∨ (pl_invokes_aie (by_name tasks) top).isSome = true := by
  obtain ⟨upper, fifo, writer, reader, out, inp, hstream, hout, hcloses, hin, hreceives⟩ := heot
  have hne : reader.task ≠ top := by
    rintro rfl
    obtain ⟨q, hq, rfl, _⟩ := hstream
    obtain ⟨inst, hinst, _⟩ := hin
    obtain ⟨insts, hinsts, _⟩ := Option.bind_eq_some_iff.mp hinst
    exact hroot q hq (mem_of_get hinsts)
  rcases hreceives.aie_or_guarded hroot hne with hconsumer | hguard
  · exact .inl ((rejectsEot_iff h).mpr
      ⟨upper, fifo, writer, reader, out, hstream, hout, hcloses.closes, hconsumer⟩)
  · exact .inr hguard

/-- A leaf `Src` closes its stream to `Mid` or to `Sink`; `Sink` is on the AI Engine, and
`Mid` hands its stream on to it. -/
def eotDecl (reader : Nat) : Nat → FunctionDecl
  | 0 => { FunctionDecl.plain 0 "Src".toList [.stream .ostream "out".toList] none with
      closed := ["out".toList] }
  | 1 => { FunctionDecl.plain 1 "Sink".toList [.stream .istream "in".toList] none with
      target_attr := some .Aie }
  | 2 => FunctionDecl.plain 2 "Mid".toList [.stream .istream "in".toList]
      (some ⟨[], [.join 1 ["in".toList]]⟩)
  | n => FunctionDecl.plain n "Top".toList []
      (some ⟨[("q".toList, .stream 2)], [.join 0 ["q".toList], .join reader ["q".toList]]⟩)

def eotRun (reader : Nat) : Except Stop Tasks :=
  run 16 ⟨"Top".toList, .kXilinxHls, ∅⟩ [⟨"a.cpp".toList, eotDecl reader, [0, 1, 2, 3]⟩]

theorem eotRun_isSome : (eotRun 1).toOption.isSome = true ∧ (eotRun 2).toOption.isSome = true := by
  decide +kernel

/-- The graph in which `Sink` reads the closed stream itself. -/
def directTasks : Tasks := (eotRun 1).toOption.get eotRun_isSome.1

/-- The graph in which `Mid` reads the closed stream for `Sink`. -/
def nestedTasks : Tasks := (eotRun 2).toOption.get eotRun_isSome.2

def eotDepth (name : Str) : Nat :=
  if name = "Top".toList then 2 else if name = "Mid".toList then 1 else 0

theorem hierarchy_directTasks : Hierarchy (by_name directTasks) := ⟨eotDepth, by decide +kernel⟩

/-- `Src` closes the stream that `reader` gets, which leads to `Sink`. -/
theorem eotReachesAie_of_reader {reader : Str} (hsrc : ∃ task ∈ (by_name tasks)["Src".toList]?,
    task.level = .kLower ∧ task.target ≠ .kAie ∧ "out".toList ∈ task.closed_ports) (hstream : ∃ q ∈
    tasks.toList, ∃ s ∈ q.2.model.streams.toList, ∃ w ∈ s.2.produced_by, ∃ r ∈ s.2.consumed_by,
    w.task = "Src".toList ∧ r.task = reader ∧ Holds q.2.model w s.1 "out".toList ∧ Holds q.2.model r
    s.1 "in".toList) (hreader : Receives (by_name tasks) reader "in".toList) :
    EotReachesAie tasks := by
  obtain ⟨task, htask, hlevel, htarget, hclosed⟩ := hsrc
  obtain ⟨q, hq, s, hs, w, hw, r, hr, hsrc, rfl, hout, hin⟩ := hstream
  refine ⟨q.2.model, s.1, w, r, _, _, ⟨q, hq, rfl, s, hs, rfl, hw, hr⟩, hout, ?_, hin, hreader⟩
  rw [hsrc]
  exact .leaf htask hlevel htarget hclosed

theorem receives_sink (h : ∃ task ∈ (by_name tasks)["Sink".toList]?, task.target = .kAie ∧
    (find_port task.ports "in".toList).isSome = true) :
    Receives (by_name tasks) "Sink".toList "in".toList := by
  obtain ⟨task, htask, htarget, hport⟩ := h
  exact .here htask htarget hport

/-- The token to the reader on the AI Engine is refused by the check. -/
theorem a_direct_token_is_refused : Hierarchy (by_name directTasks) ∧
    Rooted directTasks "Top".toList ∧ EotReachesAie directTasks ∧ RejectsEot directTasks := by
  have hroot : Rooted directTasks "Top".toList := by
    unfold Rooted
    decide +kernel
  have hreaches : EotReachesAie directTasks :=
    eotReachesAie_of_reader (by decide +kernel) (by decide +kernel)
      (receives_sink (by decide +kernel))
  have hguard : ¬(pl_invokes_aie (by_name directTasks) "Top".toList).isSome = true := by
    decide +kernel
  exact ⟨hierarchy_directTasks, hroot, hreaches,
    (a_token_to_the_aie_is_refused hierarchy_directTasks hroot hreaches).resolve_right hguard⟩

/-- The token that `Mid` hands on to the AI Engine passes the check; the guard stops it. -/
theorem a_nested_token_is_not_refused : Hierarchy (by_name nestedTasks) ∧
    EotReachesAie nestedTasks ∧ ¬RejectsEot nestedTasks ∧
      pl_invokes_aie (by_name nestedTasks) "Top".toList =
        some ("Mid".toList, "Sink".toList) := by
  have hdepth : ∀ p ∈ (by_name nestedTasks).toList, ∀ q ∈ p.2.instances.toList,
      q.1 ∈ by_name nestedTasks → eotDepth q.1 < eotDepth p.1 := by
    decide +kernel
  refine ⟨⟨eotDepth, hdepth⟩, ?_, ?_, by decide +kernel⟩
  · have hbinds : Binds (by_name nestedTasks) "Mid".toList "in".toList "Sink".toList
        "in".toList := by
      decide +kernel
    have hreader := Receives.down hbinds (receives_sink (by decide +kernel))
    exact eotReachesAie_of_reader (by decide +kernel) (by decide +kernel) hreader
  · rw [rejectsEot_iff ⟨eotDepth, hdepth⟩]
    have hfinds : Finds (by_name nestedTasks) 3 := by
      intro t task cache ht
      refine closed_ports_ends (by_name_named _) hdepth ht ?_ cache
      unfold eotDepth
      split
      · omega
      · split <;> omega
    have hsettles := check_aie_eot_settles hfinds
    rw [eq_ok_get (by decide +kernel : (check_aie_eot 3 nestedTasks).toOption.isSome = true)]
      at hsettles
    exact hsettles.1

end Tapa.Merge
