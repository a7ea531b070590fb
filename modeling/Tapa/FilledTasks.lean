-- What the rewrite pass puts into the graph: each task is filled from a declaration of its
-- own in the unit that owns it, and its instances are of the functions that its body names.
import Tapa.Discovery

namespace Tapa.Merge

open Text Frontend Fallible List Std.ExtTreeMap
open Ir (BTreeMap get_insert get_insert_eq_some)

/-! ## Views -/

section View

variable {tu : Tu}

theorem getElem?_foldl_record {l : List Nat} {visible : BTreeMap Str Nat}
    (p : Nat → Bool) (h : ∀ (k : Str) (g : Nat), visible[k]? = some g → tu.key_of g = k)
    {k : Str} {g : Nat} (hg : (l.foldl (fun visible f =>
      if p f then tu.record_decl visible f else visible) visible)[k]? = some g) :
    tu.key_of g = k := by
  refine List.foldlRecOn (motive := fun visible => ∀ (k : Str) (g : Nat),
    visible[k]? = some g → tu.key_of g = k) l _ h ?_ k g hg
  intro visible hvisible f _ k g hg
  split at hg
  · rcases getElem?_record_visible_decl hg with hg | ⟨rfl, rfl⟩
    · exact hvisible k g hg
    · rfl
  · exact hvisible k g hg

theorem key_of_visible_decls {k : Str} {g : Nat} (h : tu.visible_decls[k]? = some g) :
    tu.key_of g = k := by
  refine getElem?_foldl_record (fun f => tu.is_specialization f) (fun k g hg => ?_) h
  have hall : (tu.visited.foldl (fun visible f => if true then tu.record_decl visible f
      else visible) ∅)[k]? = some g := by simpa using hg
  exact getElem?_foldl_record (fun _ => true) (fun k g hg => by simp at hg) hall

/-- An entry of the view is a task of its name, with a declaration. -/
theorem getElem?_tu_view {tasks : Tasks} {name : Str} {f : Nat} {model : TaskModel}
    (h : (tu.tu_view tasks)[name]? = some (f, model)) : ∃ p ∈ tasks.toList,
      p.2.model.name = name ∧ p.2.model = model ∧ view_def tu.visible_decls p = some f := by
  refine List.foldlRecOn (motive := fun view : BTreeMap Str (Nat × TaskModel) =>
    ∀ (name : Str) (f : Nat) (model : TaskModel), view[name]? = some (f, model) →
      ∃ p ∈ tasks.toList, p.2.model.name = name ∧ p.2.model = model ∧
        view_def tu.visible_decls p = some f) tasks.toList _ ?_ ?_ name f model h
  · intro name f model h
    simp at h
  · intro view hview p hp name f model h
    unfold view_task at h
    split at h
    · exact hview name f model h
    rename_i g hg
    split at h
    · exact hview name f model h
    · rcases get_insert_eq_some.mp h with ⟨heq, ⟨⟩⟩ | ⟨_, h⟩
      · exact ⟨p, hp, heq, rfl, hg⟩
      · exact hview name f model h

/-- A task with a declaration has an entry under its name, perhaps that of another. -/
theorem isSome_tu_view {tasks : Tasks} {p : Str × MergedTask} {f : Nat} (hp : p ∈ tasks.toList)
    (hdef : view_def tu.visible_decls p = some f) :
    ((tu.tu_view tasks)[p.2.model.name]?).isSome = true := by
  have hgen : ∀ (l : List (Str × MergedTask)) (view : BTreeMap Str (Nat × TaskModel)),
      p ∈ l ∨ p.2.model.name ∈ view →
      p.2.model.name ∈ l.foldl (view_task tu.visible_decls) view := by
    intro l
    induction l with
    | nil => exact fun view h => h.resolve_left not_mem_nil
    | cons q l ih =>
      intro view h
      refine ih _ ?_
      by_cases hmem : p ∈ l
      · exact .inl hmem
      refine .inr ?_
      unfold view_task
      rcases h with h | h
      · obtain rfl := (mem_cons.mp h).resolve_right hmem
        rw [hdef]
        dsimp only
        split
        · assumption
        · exact mem_insert_self
      · split
        · exact h
        · split
          · exact h
          · exact mem_insert.mpr (.inr h)
  exact mem_iff_isSome_getElem?.mp (hgen tasks.toList ∅ (.inl hp))

end View

/-! ## Models -/

/-- What filling leaves as it is. -/
structure TaskModel.SameTask (m m' : TaskModel) : Prop where
  name : m'.name = m.name
  level : m'.level = m.level
  target : m'.target = m.target

theorem TaskModel.SameTask.refl (m : TaskModel) : m.SameTask m := ⟨rfl, rfl, rfl⟩

theorem TaskModel.SameTask.trans {a b c : TaskModel} (h : a.SameTask b) (h' : b.SameTask c) :
    a.SameTask c :=
  ⟨h'.name.trans h.name, h'.level.trans h.level, h'.target.trans h.target⟩

section Model

variable {tu : Tu} {b : Index} {o : Options}

theorem Tu.sameTask_fill_ports (tu : Tu) (f : Nat) (m : TaskModel) :
    m.SameTask (tu.fill_ports f m).1 ∧
    (tu.fill_ports f m).1.instances = m.instances := by
  unfold Tu.fill_ports
  split
  · exact ⟨⟨rfl, rfl, rfl⟩, rfl⟩
  · split
    · exact ⟨⟨rfl, rfl, rfl⟩, rfl⟩
    · exact ⟨⟨rfl, rfl, rfl⟩, rfl⟩

/-- The instances are of the functions that the invokes name. -/
theorem mem_instances_of {body : Body} {s : Frontend.TaskModel} {c : Str}
    (h : c ∈ instances_of body s) : ∃ inv ∈ body.invokes, inv.callee.task_name = c := by
  have hgen : ∀ (l : List Invoke) (m : BTreeMap Str (List Instance)),
      c ∈ l.foldl (fun m inv => m.insert inv.callee.task_name
        (s.instances inv.callee.task_name)) m →
      c ∈ m ∨ ∃ inv ∈ l, inv.callee.task_name = c := by
    intro l
    induction l with
    | nil => exact fun m hm => .inl hm
    | cons inv l ih =>
      intro m hm
      rcases ih _ hm with hm | ⟨inv', hinv', hname⟩
      · rw [mem_insert, Std.compare_eq_iff_eq] at hm
        rcases hm with heq | hm
        · exact .inr ⟨inv, mem_cons_self, heq⟩
        · exact .inl hm
      · exact .inr ⟨inv', mem_cons_of_mem _ hinv', hname⟩
  rcases hgen _ _ h with hempty | hinv
  · simp at hempty
  · exact hinv

theorem task_name_of_invoked_callee {c : Nat} {callee : Callee}
    (h : tu.invoked_callee b c = .ok callee) : callee.task_name = tu.task_name c := by
  have hnames : ∀ names : List Str, (if names.length < (tu.decl c).params.length then
      (.error Stop.out_of_range : Except Stop Callee)
      else pure ⟨tu.task_name c, List.zipWith ParmVarDecl.bound_as (tu.decl c).params names⟩) =
        .ok callee → callee.task_name = tu.task_name c := by
    intro names h
    split at h
    · cases h
    · cases h
      rfl
  unfold Tu.invoked_callee at h
  dsimp only at h
  split at h
  · exact hnames _ h
  · obtain ⟨names, _, h⟩ := bind_eq_ok.mp h
    exact hnames names h

theorem task_name_of_parsed_invoke {invoke : InvokeExpr} {invs : List Invoke}
    (h : tu.parsed_invoke b invoke = .ok invs) {inv : Invoke} (hinv : inv ∈ invs) :
    ∃ c ∈ invoke.callee, inv.callee.task_name = tu.task_name c := by
  unfold Tu.parsed_invoke at h
  split at h
  · cases h
    cases hinv
  rename_i c hc
  split at h
  · cases h
    cases hinv
  obtain ⟨callee, hcallee, h⟩ := bind_eq_ok.mp h
  cases h
  obtain rfl := mem_singleton.mp hinv
  exact ⟨c, hc, task_name_of_invoked_callee hcallee⟩

variable {f : Nat}

theorem body_invokes_of_eq_ok {object : TaskObject} {is_top : Bool} {body : Body}
    (h : tu.body b f object is_top = .ok body) {inv : Invoke} (hinv : inv ∈ body.invokes) :
    ∃ invoke ∈ object.invokes, ∃ c ∈ invoke.callee, inv.callee.task_name = tu.task_name c := by
  unfold Tu.body at h
  obtain ⟨invokes, hmap, h⟩ := bind_eq_ok.mp h
  cases h
  obtain ⟨invs, hinvs, hmem⟩ := mem_flatten.mp hinv
  obtain ⟨invoke, hinvoke, hparsed⟩ := exists_of_forall₂_right (mapM_eq_ok.mp hmap) hinvs
  exact ⟨invoke, hinvoke, task_name_of_parsed_invoke hparsed hmem⟩

variable {m m' : TaskModel} {reports : List String}

theorem sameTask_of_parse_upper_task (h : tu.parse_upper_task b o f m = .ok (m', reports)) :
    m.SameTask m' := by
  unfold Tu.parse_upper_task at h
  split at h
  · cases h
    exact .refl m
  obtain ⟨body, _, h⟩ := bind_eq_ok.mp h
  split at h
  · cases h
  · cases h
    exact ⟨rfl, rfl, rfl⟩

theorem sameTask_of_fill_model (h : tu.fill_model b o f m = .ok (m', reports)) : m.SameTask m' := by
  have hports := (tu.sameTask_fill_ports f m).1
  unfold Tu.fill_model at h
  split at h
  · obtain ⟨⟨parsed, r⟩, hparse, h⟩ := bind_eq_ok.mp h
    cases h
    exact hports.trans (sameTask_of_parse_upper_task hparse)
  · obtain ⟨rfl, rfl⟩ := Prod.mk.inj (Except.ok.inj h)
    exact hports

/-- The instances of a filled task are of functions that it invokes. -/
theorem invokes_of_fill_model (hempty : m.instances = ∅)
    (h : tu.fill_model b o f m = .ok (m', reports)) {c : Str} (hc : c ∈ m'.instances) :
    m.level = .kUpper ∧
      ∃ invoke ∈ tu.get_invokes f, ∃ callee ∈ invoke.callee, tu.task_name callee = c := by
  have hnone : c ∉ (tu.fill_ports f m).1.instances := by
    rw [(tu.sameTask_fill_ports f m).2, hempty]
    exact not_mem_empty
  unfold Tu.fill_model at h
  split at h
  · rename_i hlevel
    refine ⟨hlevel, ?_⟩
    obtain ⟨⟨parsed, r⟩, hparse, h⟩ := bind_eq_ok.mp h
    cases h
    unfold Tu.parse_upper_task at hparse
    split at hparse
    · cases hparse
      exact absurd hc hnone
    rename_i object hobject
    obtain ⟨body, hbody, hparse⟩ := bind_eq_ok.mp hparse
    split at hparse
    · cases hparse
    cases hparse
    obtain ⟨inv, hinv, rfl⟩ := mem_instances_of hc
    obtain ⟨invoke, hinvoke, callee, hcallee, hname⟩ := body_invokes_of_eq_ok hbody hinv
    refine ⟨invoke, ?_, callee, hcallee, hname.symm⟩
    rw [Tu.get_invokes, hobject]
    exact hinvoke
  · obtain ⟨rfl, rfl⟩ := Prod.mk.inj (Except.ok.inj h)
    exact absurd hc hnone

/-- A task of the unit is filled from a task of its name. -/
theorem fill_task_eq_ok {tasks : Tasks} {name : Str}
    (h : tu.fill_task b o (tu.tu_view tasks) name = .ok (m, reports)) : ∃ p ∈ tasks.toList,
      p.2.model.name = name ∧ ∃ f, view_def tu.visible_decls p = some f ∧
        tu.fill_model b o f p.2.model = .ok (m, reports) := by
  obtain ⟨⟨f, model⟩, hentry, h⟩ := bind_eq_ok.mp h
  rw [ok_or_eq_ok] at hentry
  obtain ⟨p, hp, hname, rfl, hdef⟩ := getElem?_tu_view hentry
  exact ⟨p, hp, hname, f, hdef, h⟩

end Model

/-! ## The rewrite pass -/

section Rewrite

variable {b : Index} {o : Options}

/-- What a unit does to the tasks: it fills those that it owns. -/
structure Tu.Fills (tu : Tu) (b : Index) (o : Options) (id : Nat) (tasks tasks' : Tasks) :
    Prop where
  owned : ∀ (key : Str) (task : MergedTask), tasks[key]? = some task → task.owner_tu = id →
    ∃ m, tu.fill_task b o (tu.tu_view tasks) task.model.name = .ok (m, []) ∧
      tasks'[key]? = some { task with model := m }
  other : ∀ key : Str, (∀ task : MergedTask, tasks[key]? = some task → task.owner_tu ≠ id) →
    tasks'[key]? = tasks[key]?

variable {tu : Tu} {id : Nat}

theorem fill_owned_tasks_eq_ok {st : Tasks × List String} {tasks' : Tasks}
    (h : tu.fill_owned_tasks b o id st = .ok (tasks', [])) :
    st.2 = [] ∧ tu.Fills b o id st.1 tasks' := by
  have hinv := foldlM_invariant (P := fun ys st' => st'.2 = [] → st.2 = [] ∧ ∀ key : Str,
      (∀ task, (key, task) ∈ ys → task.owner_tu = id → ∃ m,
        tu.fill_task b o (tu.tu_view st.1) task.model.name = .ok (m, []) ∧
          st'.1[key]? = some { task with model := m }) ∧
      ((∀ task, (key, task) ∈ ys → task.owner_tu ≠ id) → st'.1[key]? = st.1[key]?)) h
    (fun hr => ⟨hr, fun key => ⟨fun _ hmem => absurd hmem not_mem_nil, fun _ => rfl⟩⟩) ?_ rfl
  · refine ⟨hinv.1, fun key task htask howner => ?_, fun key hother => ?_⟩
    · exact (hinv.2 key).1 task (mem_toList_iff_getElem?_eq_some.mpr htask) howner
    · exact (hinv.2 key).2 fun task hmem =>
        hother task (mem_toList_iff_getElem?_eq_some.mp hmem)
  · rintro ys ⟨k, t⟩ st1 st2 hpre hP hstep hr
    unfold Tu.fill_owned_task at hstep
    split at hstep
    · rename_i howned
      obtain ⟨⟨m, r⟩, hfill, hstep⟩ := bind_eq_ok.mp hstep
      cases hstep
      obtain ⟨hr1, rfl⟩ := append_eq_nil_iff.mp hr
      obtain ⟨hstart, hkeys⟩ := hP hr1
      refine ⟨hstart, fun key => ⟨fun task hmem howner => ?_, fun hother => ?_⟩⟩
      · rw [get_insert]
        by_cases hkey : k = key
        · -- a key stands once among the tasks, so that this is the task that was filled
          subst hkey
          have hone : ∀ t', (k, t') ∈ ys ++ [(k, t)] → st.1[k]? = some t' := fun t' ht' =>
            mem_toList_iff_getElem?_eq_some.mp (hpre.subset ht')
          obtain rfl := Option.mem_unique (hone task hmem) (hone t (by simp))
          exact ⟨m, hfill, by rw [if_pos rfl]⟩
        · rw [if_neg hkey]
          refine (hkeys key).1 task ?_ howner
          refine (mem_snoc.mp hmem).resolve_right fun heq => hkey ?_
          exact (Prod.mk.inj heq).1.symm
      · rw [get_insert, if_neg]
        · exact (hkeys key).2 fun task hmem => hother task (mem_append_left _ hmem)
        · rintro rfl
          exact hother t (by simp) howned
    · rename_i hforeign
      cases hstep
      obtain ⟨hstart, hkeys⟩ := hP hr
      refine ⟨hstart, fun key => ⟨fun task hmem howner => ?_, fun hother => ?_⟩⟩
      · rcases mem_snoc.mp hmem with hmem | heq
        · exact (hkeys key).1 task hmem howner
        · exact absurd ((Prod.mk.inj heq).2 ▸ howner) hforeign
      · exact (hkeys key).2 fun task hmem => hother task (mem_append_left _ hmem)

/-- A unit leaves the names of the tasks as they are. -/
theorem Tu.Fills.names {tasks tasks' : Tasks} (h : tu.Fills b o id tasks tasks') (key : Str) :
    tasks'[key]?.map (·.model.name) = tasks[key]?.map (·.model.name) := by
  by_cases hother : ∀ task : MergedTask, tasks[key]? = some task → task.owner_tu ≠ id
  · rw [h.other key hother]
  simp only [not_forall, not_not] at hother
  obtain ⟨task, htask, howner⟩ := hother
  obtain ⟨m, hfill, hget⟩ := h.owned key task htask howner
  obtain ⟨p, _, hname, f, _, hmodel⟩ := fill_task_eq_ok hfill
  rw [hget, htask]
  exact congrArg some ((sameTask_of_fill_model hmodel).name.trans hname)

def NamesApart (tasks : Tasks) : Prop :=
  ∀ p ∈ tasks.toList, ∀ q ∈ tasks.toList, p.2.model.name = q.2.model.name → p.1 = q.1

/-- A unit fills a task from a declaration of its own, and reports nothing. -/
def Tu.FillsTask (tu : Tu) (b : Index) (o : Options) (key : Str) (task : MergedTask)
    (m : TaskModel) : Prop :=
  ∃ f, view_def tu.visible_decls (key, task) = some f ∧
    tu.fill_model b o f task.model = .ok (m, [])

variable {tus : List Tu}

theorem find_tu_eq {ys : List Tu} (hnodup : (tus.map (·.file)).Nodup) (hpre : ys ++ [tu] <+: tus) :
    find_tu (tus.map (·.file)) tu.file = some ys.length := by
  obtain ⟨zs, rfl⟩ := hpre
  have hget : ((ys ++ [tu] ++ zs).map (·.file))[ys.length]? = some tu.file := by simp
  obtain ⟨hlt, hfile⟩ := List.getElem?_eq_some_iff.mp hget
  have hmem : tu.file ∈ (ys ++ [tu] ++ zs).map (·.file) := mem_of_getElem? hget
  unfold find_tu
  rw [if_pos hmem]
  have hidx := hnodup.idxOf_getElem ys.length hlt
  rw [hfile] at hidx
  rw [hidx]

variable {merged : Tasks}

/-- The tasks after some units: those that one of them owns are filled from it. -/
structure Index.Rewritten (b : Index) (o : Options) (merged : Tasks) (ys : List Tu)
    (tasks : Tasks) : Prop where
  filled : ∀ (key : Str) (task : MergedTask), merged[key]? = some task → ∀ tu,
    ys[task.owner_tu]? = some tu → ∃ m, tu.FillsTask b o key task m ∧
      tasks[key]? = some { task with model := m }
  pending : ∀ (key : Str) (task : MergedTask), merged[key]? = some task →
    ys.length ≤ task.owner_tu → tasks[key]? = some task
  absent : ∀ key : Str, merged[key]? = none → tasks[key]? = none

section Units

variable {merged tasks : Tasks} {ys : List Tu} {tu : Tu}

theorem Index.Rewritten.sameTask (h : b.Rewritten o merged ys tasks) {key : Str}
    {task' : MergedTask} (hget : tasks[key]? = some task') : ∃ task, merged[key]? = some task ∧
      task'.owner_tu = task.owner_tu ∧ task.model.SameTask task'.model := by
  cases htask : merged[key]? with
  | none =>
    rw [h.absent key htask] at hget
    cases hget
  | some task =>
    refine ⟨task, rfl, ?_⟩
    rcases Nat.lt_or_ge task.owner_tu ys.length with hlt | hge
    · obtain ⟨m, ⟨f, _, hfill⟩, hm⟩ := h.filled key task htask _ (getElem?_eq_getElem hlt)
      obtain rfl := Option.mem_unique hm hget
      exact ⟨rfl, sameTask_of_fill_model hfill⟩
    · obtain rfl := Option.mem_unique (h.pending key task htask hge) hget
      exact ⟨rfl, .refl _⟩

theorem Index.Rewritten.namesApart (h : b.Rewritten o merged ys tasks)
    (hapart : NamesApart merged) : NamesApart tasks := by
  rintro ⟨key, task⟩ hp ⟨key', task'⟩ hq hname
  rw [mem_toList_iff_getElem?_eq_some] at hp hq
  obtain ⟨t, ht, -, hsame⟩ := h.sameTask hp
  obtain ⟨t', ht', -, hsame'⟩ := h.sameTask hq
  rw [← mem_toList_iff_getElem?_eq_some] at ht ht'
  exact hapart (key, t) ht (key', t') ht' (hsame.name.symm.trans (hname.trans hsame'.name))

/-- When names are apart, a unit fills a task from the task's own declaration. -/
theorem fill_task_eq_ok_iff (hapart : NamesApart tasks) {key : Str} {task : MergedTask}
    (htask : tasks[key]? = some task) {m : TaskModel} :
    tu.fill_task b o (tu.tu_view tasks) task.model.name = .ok (m, []) ↔
      tu.FillsTask b o key task m := by
  have hmem := mem_toList_iff_getElem?_eq_some.mpr htask
  have hown : ∀ p ∈ tasks.toList, p.2.model.name = task.model.name → p = (key, task) := by
    rintro ⟨key', task'⟩ hp hname
    obtain rfl : key' = key := hapart _ hp _ hmem hname
    rw [mem_toList_iff_getElem?_eq_some, htask] at hp
    rw [Option.some.inj hp]
  constructor
  · intro h
    obtain ⟨p, hp, hname, f, hdef, hfill⟩ := fill_task_eq_ok h
    obtain rfl := hown p hp hname
    exact ⟨f, hdef, hfill⟩
  · rintro ⟨f, hdef, hfill⟩
    obtain ⟨⟨g, model⟩, hentry⟩ := Option.isSome_iff_exists.mp (isSome_tu_view hmem hdef)
    obtain ⟨p, hp, hname, rfl, hdef'⟩ := getElem?_tu_view hentry
    obtain rfl := hown p hp hname
    obtain rfl := Option.mem_unique hdef hdef'
    unfold Tu.fill_task
    rw [hentry]
    exact hfill

theorem Index.Rewritten.step (hapart : NamesApart merged) (h : b.Rewritten o merged ys tasks)
    {tasks' : Tasks} (hfills : tu.Fills b o ys.length tasks tasks') :
    b.Rewritten o merged (ys ++ [tu]) tasks' := by
  have hother : ∀ (key : Str) (task : MergedTask), merged[key]? = some task →
      task.owner_tu ≠ ys.length → tasks'[key]? = tasks[key]? := by
    intro key task htask howner
    refine hfills.other key fun task' htask' => ?_
    obtain ⟨t, ht, hsame, -⟩ := h.sameTask htask'
    obtain rfl := Option.mem_unique ht htask
    rwa [hsame]
  refine ⟨fun key task htask tu' htu' => ?_, fun key task htask hle => ?_, fun key hnone => ?_⟩
  · rcases getElem?_snoc_eq_some.mp htu' with htu' | ⟨howner, rfl⟩
    · have hlt := (List.getElem?_eq_some_iff.mp htu').1
      rw [hother key task htask (by omega)]
      exact h.filled key task htask tu' htu'
    · have hpending := h.pending key task htask howner.ge
      obtain ⟨m, hfill, hget⟩ := hfills.owned key task hpending howner
      exact ⟨m, (fill_task_eq_ok_iff (h.namesApart hapart) hpending).mp hfill, hget⟩
  · rw [length_append, length_singleton] at hle
    rw [hother key task htask (by omega)]
    exact h.pending key task htask (by omega)
  · rw [hfills.other key]
    · exact h.absent key hnone
    · intro task htask
      rw [h.absent key hnone] at htask
      cases htask

end Units

theorem rewritten_nil (merged : Tasks) : b.Rewritten o merged [] merged :=
  ⟨fun key task _ tu htu => (by cases htu), fun key task htask _ => htask, fun key hnone => hnone⟩

/-- Each task of the graph is filled from the unit that owns it. -/
theorem rewritten_of_rewrite {graph : Tasks} (hfiles : b.tu_files = tus.map (·.file))
    (hnodup : (tus.map (·.file)).Nodup) (hapart : NamesApart merged)
    (h : b.rewrite o merged tus = .ok graph) :
    b.Rewritten o merged tus graph := by
  obtain ⟨⟨tasks, reports⟩, hloop, h⟩ := bind_eq_ok.mp h
  split at h
  · rename_i hreports
    cases h
    refine foldlM_invariant (P := fun ys st => st.2 = [] → b.Rewritten o merged ys st.1) hloop
      (fun _ => rewritten_nil merged) ?_ hreports
    rintro ys tu st ⟨tasks', reports'⟩ hpre hP hstep rfl
    obtain ⟨id, hid, hstep⟩ := bind_eq_ok.mp hstep
    rw [ok_or_eq_ok, hfiles, find_tu_eq hnodup hpre] at hid
    cases hid
    obtain ⟨hr, hfills⟩ := fill_owned_tasks_eq_ok hstep
    exact (hP hr).step hapart hfills
  · cases h

end Rewrite

end Tapa.Merge
