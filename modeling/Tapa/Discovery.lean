-- What the merge establishes from the index: the tasks that are discovered are closed
-- under the recorded edges, the edges have no cycle, and below an AI Engine upper task
-- everything that an edge leads to is on the AI Engine.
import Tapa.MergedIndex

namespace Tapa.Merge

open Text Frontend Fallible List Std.ExtTreeMap
open Ir (BTreeMap get_insert)

/-! ## Target mappings -/

/-- The mappings, one after the other, on one sighting. -/
def DefSighting.remap (mappings : List (Str × SynthTarget)) (s : DefSighting) : DefSighting :=
  mappings.foldl (fun s m => s.map_target m) s

/-- A sighting that differs only in what a mapping says. -/
structure DefSighting.Retargeted (s s' : DefSighting) : Prop where
  eq : s' = { s with
    target := s'.target, explicit_target := s'.explicit_target, ignored := s'.ignored,
    level := s'.level }
  level : s'.level = .kUpper → s.level = .kUpper ∨ s.task_shaped = true

section

variable (mappings : List (Str × SynthTarget))
include mappings

theorem DefSighting.remap_retargeted (s : DefSighting) : s.Retargeted (s.remap mappings) := by
  refine List.foldlRecOn (motive := s.Retargeted) mappings _ ⟨rfl, .inl⟩ ?_
  intro s' h m _
  unfold map_target
  split
  · refine ⟨?_, ?_⟩
    · rw [h.eq]
      rfl
    · intro hlevel
      simp only [retarget] at hlevel
      split at hlevel
      · rename_i hshaped
        rw [h.eq] at hshaped
        exact .inr hshaped.2
      · cases hlevel
  · exact h

theorem DefSighting.key_remap (s : DefSighting) : (s.remap mappings).key = s.key := by
  rw [(s.remap_retargeted mappings).eq]

theorem DefSighting.remap_placed (s : DefSighting) (i : Nat) :
    (s.placed i).remap mappings = (s.remap mappings).placed i := by
  unfold remap
  induction mappings generalizing s with
  | nil => rfl
  | cons m mappings ih =>
    have hmap : (s.placed i).map_target m = (s.map_target m).placed i := by
      have hmatches : (s.placed i).matches m.1 = s.matches m.1 := rfl
      unfold map_target
      rw [hmatches]
      split <;> rfl
    rw [foldl_cons, foldl_cons, hmap]
    exact ih _

theorem DefSighting.remap_append (m : Str × SynthTarget)
    (s : DefSighting) : s.remap (mappings ++ [m]) = (s.remap mappings).map_target m := by
  simp [remap, foldl_append]

end

/-- The index after some mappings. -/
structure Index.Remaps (b b' : Index) (mappings : List (Str × SynthTarget)) : Prop where
  files : b'.tu_files = b.tu_files
  edges : b'.edges = b.edges
  defs : ∀ key : Str,
    b'.defs[key]? = b.defs[key]?.map (Sightings.map (DefSighting.remap mappings))

theorem Index.Remaps.refl (b : Index) : b.Remaps b [] := by
  refine ⟨rfl, rfl, fun key => ?_⟩
  have hid : Sightings.map (DefSighting.remap []) = id := by
    funext s
    have hremap : DefSighting.remap [] = id := rfl
    simp [Sightings.map, hremap]
  rw [hid, Option.map_id]
  rfl

theorem Index.Remaps.step {b b' b'' : Index} {mappings : List (Str × SynthTarget)}
    (h : b.Remaps b' mappings) {m : Str × SynthTarget} (hstep : b'.apply_task_target m = .ok b'') :
    b.Remaps b'' (mappings ++ [m]) := by
  unfold apply_task_target at hstep
  split at hstep
  · cases hstep
    refine ⟨h.files, h.edges, fun key => ?_⟩
    have hremap : DefSighting.remap (mappings ++ [m]) =
        DefSighting.map_target m ∘ DefSighting.remap mappings :=
      funext (DefSighting.remap_append mappings m)
    rw [Std.ExtTreeMap.getElem?_map, h.defs, Option.map_map, hremap]
    congr 1
    funext s
    simp [Sightings.map]
  · cases hstep

theorem remaps_of_apply_task_targets {b b' : Index} {o : Options}
    (h : b.apply_task_targets o = .ok b') : b.Remaps b' o.task_targets.toList :=
  foldlM_invariant (P := fun ys b' => b.Remaps b' ys) h (.refl b)
    fun _ _ _ _ _ hremaps hstep => hremaps.step hstep

/-! ## Discovery -/

/-- Every sighting stands under its key. -/
def Index.Keyed (b : Index) : Prop :=
  ∀ (key : Str) (s : Sightings), b.defs[key]? = some s → ∀ x ∈ s.all, x.key = key

/-- An edge leads from one key to another. -/
def Index.Edge (b : Index) (key key' : Str) : Prop :=
  ∃ e ∈ b.equal_range key, e.callee_key = key'

/-- The keys that discovery can come to: the top's, and from an upper task along its
edges. -/
inductive Index.Reaches (b : Index) (top : Str) : Str → Prop
  | top {key : Str} {s : Sightings} : b.defs[key]? = some s → s.first.internal = false →
      s.first.plain_name = top → b.Reaches top key
  | edge {key key' : Str} {s : Sightings} : b.Reaches top key → b.defs[key]? = some s →
      s.first.level = .kUpper → b.Edge key key' → b.Reaches top key'

/-- Each task is that of the first sighting of its key, which has external linkage. -/
def Index.Sights (b : Index) (tasks : Tasks) : Prop :=
  ∀ (key : Str) (task : MergedTask), tasks[key]? = some task → ∃ s invoker_key,
    b.defs[key]? = some s ∧ s.first.internal = false ∧ task = s.first.task invoker_key

/-- What holds while tasks are discovered: an upper task is still to be followed, or all
its edges lead to tasks. -/
structure Index.Discovers (b : Index) (d : Discovery) : Prop where
  sights : b.Sights d.1
  follows : ∀ (key : Str) (task : MergedTask), d.1[key]? = some task →
    task.model.level = .kUpper → key ∈ d.2 ∨ ∀ key', b.Edge key key' → key' ∈ d.1

section

variable (d : Discovery) (s : DefSighting) (invoker_key : Option Str)

theorem getElem?_discover (key : Str) : (discover d s invoker_key).1[key]? =
      if s.key = key ∧ d.1[key]? = none then some (s.task invoker_key) else d.1[key]? := by
  unfold discover
  cases hs : d.1[s.key]? with
  | some task =>
    rw [if_neg]
    rintro ⟨rfl, hnone⟩
    rw [hs] at hnone
    cases hnone
  | none =>
    simp only [get_insert]
    by_cases heq : s.key = key
    · subst heq
      simp [hs]
    · simp [heq]

theorem work_discover :
    (discover d s invoker_key).2 = d.2 ++ if d.1[s.key]? = none then [s.key] else [] := by
  unfold discover
  cases hs : d.1[s.key]? with
  | some task | none => simp

/-- A discovery that another one goes on from, and the upper tasks that are new are to be
followed. -/
structure Discovery.Extends (d d' : Discovery) : Prop where
  tasks : ∀ (key : Str) (task : MergedTask), d.1[key]? = some task → d'.1[key]? = some task
  work : ∀ key ∈ d.2, key ∈ d'.2
  fresh : ∀ (key : Str), d.1[key]? = none → (d'.1[key]?).isSome = true → key ∈ d'.2

theorem Discovery.extends_discover : Discovery.Extends d (discover d s invoker_key) := by
  refine ⟨fun key task h => ?_, fun key h => ?_, fun key hnone hsome => ?_⟩
  · rw [getElem?_discover, if_neg]
    · exact h
    · rintro ⟨_, hnone⟩
      rw [h] at hnone
      cases hnone
  · rw [work_discover]
    exact mem_append_left _ h
  · rw [getElem?_discover, hnone] at hsome
    rw [work_discover]
    by_cases heq : s.key = key
    · rw [heq, if_pos hnone]
      simp
    · simp [heq] at hsome

end

theorem Discovery.Extends.trans {d d' d'' : Discovery} (h : Discovery.Extends d d')
    (h' : Discovery.Extends d' d'') : Discovery.Extends d d'' := by
  refine ⟨fun key task hk => h'.tasks key task (h.tasks key task hk),
    fun key hk => h'.work key (h.work key hk), fun key hnone hsome => ?_⟩
  cases hd' : d'.1[key]? with
  | none => exact h'.fresh key hd' hsome
  | some task => exact h'.work key (h.fresh key hnone (by rw [hd']; rfl))

theorem Index.Sights.discover {b : Index} {d : Discovery} (h : b.Sights d.1) {s : Sightings}
    (hs : b.defs[s.first.key]? = some s) (hinternal : s.first.internal = false)
    (invoker_key : Option Str) : b.Sights (discover d s.first invoker_key).1 := by
  intro k task htask
  rw [getElem?_discover] at htask
  split at htask
  · rename_i hcase
    cases htask
    exact ⟨s, invoker_key, hcase.1 ▸ hs, hinternal, rfl⟩
  · exact h k task htask

section Discover

variable {b : Index} (hkeyed : b.Keyed)
include hkeyed

/-- Following an edge discovers its callee. -/
theorem discover_callee_eq_ok {key : Str} {d d' : Discovery} {e : InvokeEdge}
    (h : b.discover_callee key d e = .ok d') : ∃ s invoker_key,
      b.defs[e.callee_key]? = some s ∧ s.first.key = e.callee_key ∧ s.first.internal = false ∧
        d' = discover d s.first invoker_key := by
  unfold Index.discover_callee at h
  split at h
  · cases h
  rename_i s hs
  split at h
  · cases h
  · rename_i hinternal
    exact ⟨s, _, hs, hkeyed _ s hs _ mem_cons_self, Bool.not_eq_true _ ▸ hinternal,
      (Except.ok.inj h).symm⟩

theorem follow_edges {key : Str} {edges : List InvokeEdge} {d d' : Discovery}
    (h : edges.foldlM (b.discover_callee key) d = .ok d') (hsights : b.Sights d.1) :
    Discovery.Extends d d' ∧ (∀ e ∈ edges, e.callee_key ∈ d'.1) ∧ b.Sights d'.1 := by
  refine foldlM_invariant (P := fun ys d' => Discovery.Extends d d' ∧
    (∀ e ∈ ys, e.callee_key ∈ d'.1) ∧ b.Sights d'.1) h
    ⟨⟨fun _ _ h => h, fun _ h => h, fun key hnone hsome => ?_⟩,
      fun e he => absurd he not_mem_nil, hsights⟩ ?_
  · rw [hnone] at hsome
    cases hsome
  · rintro ys e d1 d2 - ⟨hext, hcallees, hsights1⟩ hstep
    obtain ⟨s, invoker_key, hs, hkey, hinternal, rfl⟩ := discover_callee_eq_ok hkeyed hstep
    have hext' := Discovery.extends_discover d1 s.first invoker_key
    refine ⟨hext.trans hext', forall_mem_snoc.mpr ⟨fun e' he' => ?_, ?_⟩,
      hsights1.discover (hkey ▸ hs) hinternal invoker_key⟩
    · obtain ⟨task, htask⟩ := mem_iff_get.mp (hcallees e' he')
      exact mem_of_get (hext'.tasks _ task htask)
    · rw [mem_iff_isSome_getElem?, getElem?_discover]
      split
      · rfl
      · rename_i hcase
        exact Option.isSome_iff_ne_none.mpr fun hnone => hcase ⟨hkey, hnone⟩

/-- Following the edges of a task comes only to the ends of its edges. -/
theorem reaches_of_follow_edges {top key : Str} {d d' : Discovery} {s : Sightings}
    (h : (b.equal_range key).foldlM (b.discover_callee key) d = .ok d')
    (hkey : b.Reaches top key) (hs : b.defs[key]? = some s) (hupper : s.first.level = .kUpper)
    (hreached : ∀ k ∈ d.1, b.Reaches top k) : ∀ k ∈ d'.1, b.Reaches top k := by
  refine foldlM_invariant (P := fun _ d' => ∀ k ∈ d'.1, b.Reaches top k) h hreached ?_
  rintro ys e d1 d2 hpre hreached1 hstep k hk
  obtain ⟨s', invoker_key, -, hcallee, -, rfl⟩ := discover_callee_eq_ok hkeyed hstep
  rw [mem_iff_isSome_getElem?, getElem?_discover] at hk
  split at hk
  · rename_i hcase
    have he : e ∈ b.equal_range key :=
      hpre.subset (mem_append_right _ (mem_singleton.mpr rfl))
    exact .edge hkey hs hupper ⟨e, he, hcallee.symm.trans hcase.1⟩
  · exact hreached1 k (mem_iff_isSome_getElem?.mpr hk)

/-- Discovery comes only to what it can reach, and the tasks still to be followed are
among the discovered ones. -/
theorem reaches_of_discover_all {top : Str} {fuel : Nat} {d : Discovery} {tasks : Tasks}
    (hrun : b.discover_all fuel d = .ok tasks) (hsights : b.Sights d.1)
    (hreached : ∀ k ∈ d.1, b.Reaches top k) : ∀ k ∈ tasks, b.Reaches top k := by
  fun_induction Index.discover_all b fuel d with
  | case1 _ tasks' =>
    cases hrun
    exact hreached
  | case2 | case3 => cases hrun
  | case4 fuel tasks' key work task htask hupper ih =>
    obtain ⟨d', hedges, hrun⟩ := bind_eq_ok.mp hrun
    obtain ⟨s, invoker_key, hs, -, rfl⟩ := hsights key task htask
    exact ih d' hrun (follow_edges hkeyed hedges hsights).2.2
      (reaches_of_follow_edges hkeyed hedges (hreached key (mem_of_get htask)) hs hupper hreached)
  | case5 fuel tasks' key work task htask hlower ih => exact ih hrun hsights hreached

/-- The tasks that are discovered are closed under the edges of upper tasks. -/
theorem Index.Discovers.run {fuel : Nat} {d : Discovery} {tasks : Tasks} (h : b.Discovers d)
    (hrun : b.discover_all fuel d = .ok tasks) : b.Discovers (tasks, []) := by
  fun_induction Index.discover_all b fuel d with
  | case1 _ tasks' =>
    cases hrun
    exact h
  | case2 | case3 => cases hrun
  | case4 fuel tasks' key work task htask hupper ih =>
    obtain ⟨d', hedges, hrun⟩ := bind_eq_ok.mp hrun
    obtain ⟨hext, hcallees, hsights⟩ := follow_edges hkeyed hedges h.sights
    refine ih d' ⟨hsights, fun k task' hk hlevel => ?_⟩ hrun
    cases hold : tasks'[k]? with
    | none => exact .inl (hext.fresh k hold (by rw [hk]; rfl))
    | some old =>
      obtain rfl := Option.mem_unique (hext.tasks k old hold) hk
      rcases h.follows k old hold hlevel with hmem | hclosed
      · rcases mem_cons.mp hmem with rfl | hmem
        · refine .inr ?_
          rintro _ ⟨e, he, rfl⟩
          exact hcallees e he
        · exact .inl (hext.work k hmem)
      · refine .inr fun key' hedge => ?_
        obtain ⟨child, hchild⟩ := mem_iff_get.mp (hclosed key' hedge)
        exact mem_of_get (hext.tasks key' child hchild)
  | case5 fuel tasks' key work task htask hlower ih =>
    refine ih ⟨h.sights, fun k task' hk hlevel => ?_⟩ hrun
    rcases h.follows k task' hk hlevel with hmem | hclosed
    · rcases mem_cons.mp hmem with rfl | hmem
      · obtain rfl := Option.mem_unique htask hk
        exact absurd hlevel hlower
      · exact .inl hmem
    · exact .inr hclosed

end Discover

/-! ## Cycles -/

section Cycles

variable {b : Index}

/-- From a key no endless chain of edges starts. -/
def Index.Ends (b : Index) (key : Str) : Prop := Acc (fun k' k => b.Edge k k') key

/-- Closed keys start no endless chain. -/
def Index.ClosedEnd (b : Index) (state : Marks) : Prop :=
  ∀ key, state key = .closed → b.Ends key

theorem marks_set (state : Marks) (key k : Str) (mark : Mark) :
    state.set key mark k = if k = key then mark else state k := rfl

/-- What a search that finds no cycle does to the marks: what was closed stays closed, and
nothing is left open. -/
structure Marks.Closes (state state' : Marks) : Prop where
  kept : ∀ k, state k = .closed → state' k = .closed
  opened : ∀ k, state' k = .open → state k = .open

theorem Marks.Closes.trans {a b c : Marks} (h : a.Closes b) (h' : b.Closes c) : a.Closes c :=
  ⟨fun k hk => h'.kept k (h.kept k hk), fun k hk => h.opened k (h'.opened k hk)⟩

/-- A search that finds no cycle closes its key. -/
theorem has_cycle_eq_ok {fuel : Nat} {state state' : Marks} {key : Str}
    (hclosed : b.ClosedEnd state) (hkey : state key = .unseen)
    (h : b.has_cycle fuel state key = .ok (false, state')) :
    b.ClosedEnd state' ∧ state' key = .closed ∧ state.Closes state' := by
  induction fuel generalizing state state' key with
  | zero => cases h
  | succ fuel ih =>
    unfold Index.has_cycle at h
    obtain ⟨r, hloop, h⟩ := bind_eq_ok.mp h
    obtain ⟨hfound, hstate⟩ := Prod.mk.inj (Except.ok.inj h)
    rw [hfound] at hstate
    -- while no cycle is found, the callees of the edges so far are closed
    have hinv := foldlM_invariant (P := fun ys (r : Bool × Marks) => r.1 = false →
        b.ClosedEnd r.2 ∧ (∀ e ∈ ys, r.2 e.callee_key = .closed) ∧
          (state.set key .open).Closes r.2) hloop ?_ ?_ hfound
    · obtain ⟨hends, hcallees, hcloses⟩ := hinv
      have hself : b.Ends key := by
        refine Acc.intro key ?_
        rintro _ ⟨e, he, rfl⟩
        exact hends _ (hcallees e he)
      subst hstate
      simp only [Bool.false_eq_true, if_false]
      refine ⟨fun k hk => ?_, if_pos rfl, fun k hk => ?_, fun k hk => ?_⟩
      · rw [marks_set] at hk
        split at hk
        · rename_i heq
          exact heq ▸ hself
        · exact hends k hk
      · rw [marks_set]
        split
        · rfl
        · rename_i hne
          exact hcloses.kept k (by rwa [marks_set, if_neg hne])
      · rw [marks_set] at hk
        split at hk
        · cases hk
        · rename_i hne
          have := hcloses.opened k hk
          rwa [marks_set, if_neg hne] at this
    · intro _
      refine ⟨fun k hk => ?_, fun e he => absurd he not_mem_nil, fun k hk => hk,
        fun k hk => hk⟩
      simp only [marks_set] at hk
      split at hk
      · cases hk
      · exact hclosed k hk
    · rintro ys e r ⟨found, state1⟩ - hP hstep rfl
      unfold search_edge at hstep
      split at hstep
      · rename_i htrue
        cases hstep
        cases htrue
      · rename_i hfalse
        obtain ⟨hends, hcallees, hcloses⟩ := hP (by simpa using hfalse)
        split at hstep
        · cases (Prod.mk.inj (Except.ok.inj hstep)).1
        · rename_i hunseen
          obtain ⟨hends1, hclosed1, hcloses1⟩ := ih hends hunseen hstep
          exact ⟨hends1, forall_mem_snoc.mpr ⟨fun e' he' => hcloses1.kept _ (hcallees e' he'),
            hclosed1⟩, hcloses.trans hcloses1⟩
        · rename_i hdone
          cases hstep
          exact ⟨hends, forall_mem_snoc.mpr ⟨hcallees, hdone⟩, hcloses⟩

/-- When no cycle is reported, no endless chain of edges starts at a task. -/
theorem check_cycles_eq_ok {fuel : Nat} {tasks : Tasks} {state : Marks}
    (h : b.check_cycles fuel tasks = .ok state) {key : Str} (hkey : key ∈ tasks) : b.Ends key := by
  have hinv := foldlM_invariant (P := fun ys state => b.ClosedEnd state ∧
      (∀ k, state k ≠ .open) ∧ ∀ p ∈ ys, b.Ends p.1) h
    ⟨fun k hk => (by cases hk), fun k hk => (by cases hk),
      fun p hp => absurd hp not_mem_nil⟩ ?_
  · obtain ⟨task, htask⟩ := mem_iff_get.mp hkey
    exact hinv.2.2 (key, task) (mem_toList_iff_getElem?_eq_some.mpr htask)
  · rintro ys p state state' - ⟨hclosed, hopen, hends⟩ hstep
    have hgoal : b.ClosedEnd state' ∧ (∀ k, state' k ≠ .open) ∧ b.Ends p.1 := by
      unfold Index.check_cycle at hstep
      split at hstep
      · rename_i hunseen
        obtain ⟨⟨found, state1⟩, hrun, hstep⟩ := bind_eq_ok.mp hstep
        split at hstep
        · cases hstep
        rename_i hfalse
        obtain rfl : found = false := by simpa using hfalse
        cases hstep
        obtain ⟨hclosed', hself, hcloses⟩ := has_cycle_eq_ok hclosed hunseen hrun
        exact ⟨hclosed', fun k hk => hopen k (hcloses.opened k hk), hclosed' _ hself⟩
      · rename_i hseen
        cases hstep
        refine ⟨hclosed, hopen, hclosed _ ?_⟩
        cases hmark : state p.1 with
        | unseen => exact absurd hmark hseen
        | «open» => exact absurd hmark (hopen _)
        | closed => rfl
    exact ⟨hgoal.1, hgoal.2.1, forall_mem_snoc.mpr ⟨hends, hgoal.2.2⟩⟩

end Cycles

/-! ## Propagation -/

/-- What holds while the AI Engine is propagated: the tasks differ only in their targets,
and an AI Engine upper task is still to be followed, or all its edges lead to tasks on the
AI Engine. -/
structure Index.Propagates (b : Index) (tasks : Tasks) (d : Discovery) : Prop where
  same : ∀ key : Str, d.1[key]?.map MergedTask.on_aie = tasks[key]?.map MergedTask.on_aie
  follows : ∀ (key : Str) (task : MergedTask), d.1[key]? = some task →
    task.model.level = .kUpper → task.model.target = .kAie →
    key ∈ d.2 ∨ ∀ key', b.Edge key key' →
      ∃ child, d.1[key']? = some child ∧ child.model.target = .kAie

theorem mem_aie_uppers {tasks : Tasks} {key : Str} {task : MergedTask}
    (h : tasks[key]? = some task) (hlevel : task.model.level = .kUpper)
    (htarget : task.model.target = .kAie) : key ∈ aie_uppers tasks := by
  refine mem_map.mpr ⟨(key, task), mem_filter.mpr ⟨?_, ?_⟩, rfl⟩
  · exact mem_toList_iff_getElem?_eq_some.mpr h
  · simp [hlevel, htarget]

section Propagate

variable {b : Index}

/-- Putting a child on the AI Engine. -/
theorem propagate_child_eq_ok {key : Str} {d d' : Discovery} {e : InvokeEdge}
    (h : b.propagate_child key d e = .ok d') : ∃ child, d.1[e.callee_key]? = some child ∧
      d'.1 = d.1.insert e.callee_key child.on_aie ∧
      d'.2 = if child.model.level = .kUpper then d.2 ++ [e.callee_key] else d.2 := by
  unfold Index.propagate_child at h
  split at h
  · rename_i child sightings hchild _
    split at h
    · cases h
    · cases h
      exact ⟨child, hchild, rfl, rfl⟩
  · cases h

/-- Tasks stay on the AI Engine, and the upper tasks that are put there are to be
followed. -/
structure Discovery.Raises (d d' : Discovery) : Prop where
  kept : ∀ (key : Str) (task : MergedTask), d.1[key]? = some task → ∃ task',
    d'.1[key]? = some task' ∧ (task.model.target = .kAie → task'.model.target = .kAie)
  work : ∀ key ∈ d.2, key ∈ d'.2
  fresh : ∀ (key : Str) (task' : MergedTask), d'.1[key]? = some task' →
    task'.model.level = .kUpper → task'.model.target = .kAie →
    key ∈ d'.2 ∨ d.1[key]? = some task'

theorem Discovery.Raises.aie {d d' : Discovery} (h : Discovery.Raises d d') {key : Str}
    (haie : ∃ child, d.1[key]? = some child ∧ child.model.target = .kAie) :
    ∃ child, d'.1[key]? = some child ∧ child.model.target = .kAie := by
  obtain ⟨child, hchild, haie⟩ := haie
  obtain ⟨child', hchild', haie'⟩ := h.kept key child hchild
  exact ⟨child', hchild', haie' haie⟩

theorem Discovery.Raises.trans {a b c : Discovery} (h : Discovery.Raises a b)
    (h' : Discovery.Raises b c) : Discovery.Raises a c := by
  refine ⟨fun key task hk => ?_, fun key hk => h'.work key (h.work key hk),
    fun key task' hk hlevel htarget => ?_⟩
  · obtain ⟨task1, h1, htarget1⟩ := h.kept key task hk
    obtain ⟨task2, h2, htarget2⟩ := h'.kept key task1 h1
    exact ⟨task2, h2, fun ht => htarget2 (htarget1 ht)⟩
  · rcases h'.fresh key task' hk hlevel htarget with hmem | hmid
    · exact .inl hmem
    · exact (h.fresh key task' hmid hlevel htarget).imp_left (h'.work key)

theorem raises_propagate_child {key : Str} {d d' : Discovery} {e : InvokeEdge}
    (h : b.propagate_child key d e = .ok d') : Discovery.Raises d d' ∧
      (∃ child, d'.1[e.callee_key]? = some child ∧ child.model.target = .kAie) ∧
      ∀ k : Str, d'.1[k]?.map MergedTask.on_aie = d.1[k]?.map MergedTask.on_aie := by
  obtain ⟨child, hchild, htasks, hwork⟩ := propagate_child_eq_ok h
  have hget : ∀ k : Str, d'.1[k]? =
      if e.callee_key = k then some child.on_aie else d.1[k]? := by
    intro k
    rw [htasks, get_insert]
  refine ⟨⟨fun k task hk => ?_, fun k hk => ?_, fun k task' hk hlevel htarget => ?_⟩, ?_, ?_⟩
  · rw [hget]
    split
    · exact ⟨_, rfl, fun _ => rfl⟩
    · exact ⟨task, hk, id⟩
  · rw [hwork]
    split
    · exact mem_append_left _ hk
    · exact hk
  · rw [hget] at hk
    split at hk
    · rename_i heq
      cases hk
      have hupper : child.model.level = .kUpper := hlevel
      rw [hwork, if_pos hupper, ← heq]
      exact .inl (by simp)
    · exact .inr hk
  · exact ⟨child.on_aie, by rw [hget, if_pos rfl], rfl⟩
  · intro k
    rw [hget]
    split
    · rename_i heq
      rw [← heq, hchild]
      rfl
    · rfl

theorem Index.Propagates.run {fuel : Nat} {tasks tasks' : Tasks} {d : Discovery}
    (h : b.Propagates tasks d) (hrun : b.propagate fuel d = .ok tasks') :
    b.Propagates tasks (tasks', []) := by
  fun_induction Index.propagate b fuel d with
  | case1 _ tasks1 =>
    cases hrun
    exact h
  | case2 => cases hrun
  | case3 fuel tasks1 key work ih =>
    obtain ⟨d', hedges, hrun⟩ := bind_eq_ok.mp hrun
    have hinv := foldlM_invariant (P := fun ys d' =>
        Discovery.Raises (tasks1, work) d' ∧
          (∀ e ∈ ys, ∃ child, d'.1[e.callee_key]? = some child ∧
            child.model.target = .kAie) ∧
          ∀ k : Str, d'.1[k]?.map MergedTask.on_aie = tasks1[k]?.map MergedTask.on_aie) hedges
      ⟨⟨fun k task hk => ⟨task, hk, id⟩, fun k hk => hk, fun k task' hk _ _ => .inr hk⟩,
        fun e he => absurd he not_mem_nil, fun k => rfl⟩ ?_
    · obtain ⟨hraises, hcallees, hsame⟩ := hinv
      refine ih d' ⟨fun k => (hsame k).trans (h.same k), fun k task hk hlevel htarget => ?_⟩ hrun
      rcases hraises.fresh k task hk hlevel htarget with hmem | hold
      · exact .inl hmem
      rcases h.follows k task hold hlevel htarget with hmem | hdone
      · rcases mem_cons.mp hmem with rfl | hmem
        · refine .inr ?_
          rintro _ ⟨e, he, rfl⟩
          exact hcallees e he
        · exact .inl (hraises.work k hmem)
      · exact .inr fun key' hedge => hraises.aie (hdone key' hedge)
    · rintro ys e d1 d2 - ⟨hraises1, hcallees1, hsame1⟩ hstep
      obtain ⟨hraises2, hcallee2, hsame2⟩ := raises_propagate_child hstep
      exact ⟨hraises1.trans hraises2, forall_mem_snoc.mpr ⟨fun e' he' =>
        hraises2.aie (hcallees1 e' he'), hcallee2⟩, fun k => (hsame2 k).trans (hsame1 k)⟩

end Propagate

/-! ## The merge -/

theorem exists_of_map_eq {α β γ : Type} {m : BTreeMap Str α} {m' : BTreeMap Str β} {f : α → γ}
    {g : β → γ} (h : ∀ k : Str, m[k]?.map f = m'[k]?.map g) {k : Str} {x : α}
    (hx : m[k]? = some x) : ∃ y, m'[k]? = some y ∧ f x = g y := by
  have hkey := h k
  rw [hx, Option.map_some, eq_comm, Option.map_eq_some_iff] at hkey
  obtain ⟨y, hy, heq⟩ := hkey
  exact ⟨y, hy, heq.symm⟩

theorem Index.Remaps.keyed {b b' : Index} {mappings : List (Str × SynthTarget)}
    (h : b.Remaps b' mappings) (hkeyed : b.Keyed) : b'.Keyed := by
  intro key s' hs' x' hx'
  rw [h.defs, Option.map_eq_some_iff] at hs'
  obtain ⟨s, hs, rfl⟩ := hs'
  obtain ⟨x, hx, rfl⟩ := mem_map.mp (show x' ∈ s.all.map (DefSighting.remap mappings) from hx')
  rw [x.key_remap]
  exact hkeyed key s hs x hx

theorem resolve_top_eq_ok {b : Index} {o : Options} {top : DefSighting}
    (h : b.resolve_top o = .ok top) : ∃ (key : Str) (s : Sightings), b.defs[key]? = some s ∧
      s.first = top ∧ top.internal = false ∧ top.plain_name = o.top := by
  unfold Index.resolve_top at h
  split at h
  · cases h
  · cases h
  rename_i s htop
  split at h
  · cases h
  split at h
  · cases h
  obtain rfl := Except.ok.inj h
  have hmem : s ∈ b.top_candidates o.top := by rw [htop]; exact mem_singleton.mpr rfl
  obtain ⟨hmem, hfilter⟩ := mem_filter.mp hmem
  obtain ⟨⟨key, sightings⟩, hdefs, rfl⟩ := mem_map.mp hmem
  rw [Bool.and_eq_true, Bool.not_eq_true'] at hfilter
  exact ⟨key, sightings, mem_toList_iff_getElem?_eq_some.mp hdefs, rfl, hfilter.1,
    of_decide_eq_true hfilter.2⟩

/-- The top is discovered first. -/
theorem discovers_top {b : Index} (hkeyed : b.Keyed) {o : Options} {top : DefSighting}
    (h : b.resolve_top o = .ok top) : b.Discovers (discover (∅, []) top none) ∧
      ∀ k ∈ (discover (∅, []) top none).1, b.Reaches o.top k := by
  obtain ⟨key, s, hs, rfl, hinternal, htop⟩ := resolve_top_eq_ok h
  have hkey := hkeyed key s hs s.first mem_cons_self
  have hnone : b.Sights ∅ := fun k task hk => by simp at hk
  refine ⟨⟨hnone.discover (hkey ▸ hs) hinternal none, fun k task hk _ => .inl ?_⟩, fun k hk => ?_⟩
  · exact (Discovery.extends_discover _ _ _).fresh k (by simp) (by rw [hk]; rfl)
  · rw [mem_iff_isSome_getElem?, getElem?_discover] at hk
    split at hk
    · rename_i hcase
      exact .top (hcase.1 ▸ hkey ▸ hs) hinternal htop
    · simp at hk

/-- Two definitions that take one plain name. -/
theorem eq_of_check_redefined {b : Index} (hkeyed : b.Keyed) {p : Str × MergedTask} {u : Unit}
    (h : b.check_redefined p = .ok u) {s s' : Sightings} {key' : Str} (hs : b.defs[p.1]? = some s)
    (hs' : b.defs[key']? = some s') (hinternal : s.first.internal = false)
    (hinternal' : s'.first.internal = false) (hspec : s.first.implicit_spec = false)
    (hspec' : s'.first.implicit_spec = false)
    (hname : s'.first.plain_name = s.first.plain_name) : key' = p.1 := by
  have hmem : ∀ (k : Str) (x : Sightings), b.defs[k]? = some x → x.first.internal = false →
      x.first.implicit_spec = false → x.first.plain_name = s.first.plain_name →
      x.first ∈ b.by_plain_name s.first.plain_name := by
    intro k x hx h1 h2 h3
    refine mem_filter.mpr ⟨mem_map.mpr ⟨(k, x), ?_, rfl⟩, ?_⟩
    · exact mem_toList_iff_getElem?_eq_some.mpr hx
    · simp [h1, h2, h3]
  have h1 := hmem p.1 s hs hinternal hspec rfl
  have h2 := hmem key' s' hs' hinternal' hspec' hname
  have hsame : s'.first = s.first := by
    unfold Index.check_redefined at h
    rw [hs] at h
    dsimp only at h
    match hlist : b.by_plain_name s.first.plain_name with
    | [] =>
      rw [hlist] at h1
      cases h1
    | [x] =>
      rw [hlist, mem_singleton] at h1 h2
      rw [h1, h2]
    | x :: y :: rest =>
      rw [hlist] at h
      cases h
  rw [← hkeyed p.1 s hs _ mem_cons_self, ← hkeyed key' s' hs' _ mem_cons_self, hsame]

/-- The sightings of a key have one level. -/
theorem level_of_check_sightings {b : Index} {u : Unit} (h : b.check_sightings = .ok u)
    {key : Str} {s : Sightings} (hs : b.defs[key]? = some s) :
    ∀ x ∈ s.all, x.level = s.first.level := by
  have hrest := forM_eq_ok.mp h (key, s) (mem_toList_iff_getElem?_eq_some.mpr hs)
  refine forall_mem_cons.mpr ⟨rfl, fun x hx => ?_⟩
  have hcheck := forM_eq_ok.mp hrest x hx
  unfold Index.check_sighting at hcheck
  split at hcheck
  · cases hcheck
  · rename_i hsame
    by_contra hlevel
    exact hsame (.inl (Ne.symm hlevel))

/-- What the merge gives, from the index `b0` before the mappings. -/
structure Index.Merges (b0 b : Index) (o : Options) (tasks : Tasks) : Prop where
  remaps : b0.Remaps b o.task_targets.toList
  agree : ∀ (key : Str) (s : Sightings), b.defs[key]? = some s → ∀ x ∈ s.all,
    x.level = s.first.level
  reached : ∀ key ∈ tasks, b.Reaches o.top key
  sights : ∀ (key : Str) (task : MergedTask), tasks[key]? = some task → ∃ s invoker_key,
    b.defs[key]? = some s ∧ s.first.internal = false ∧
      task.on_aie = (s.first.task invoker_key).on_aie
  closed : ∀ (key : Str) (task : MergedTask), tasks[key]? = some task →
    task.model.level = .kUpper → ∀ key', b.Edge key key' → key' ∈ tasks
  ends : ∀ key ∈ tasks, b.Ends key
  aie : ∀ (key : Str) (task : MergedTask), tasks[key]? = some task →
    task.model.level = .kUpper → task.model.target = .kAie → ∀ key', b.Edge key key' →
      ∃ child, tasks[key']? = some child ∧ child.model.target = .kAie
  names : ∀ (key key' : Str) (s s' : Sightings), key ∈ tasks → b.defs[key]? = some s →
    b.defs[key']? = some s' → s.first.internal = false → s'.first.internal = false →
    s.first.implicit_spec = false → s'.first.implicit_spec = false →
    s'.first.plain_name = s.first.plain_name → key' = key

theorem merge_and_discover_eq_ok {b0 b : Index} (hkeyed : b0.Keyed) {fuel : Nat} {o : Options}
    {tasks : Tasks} (h : b0.merge_and_discover fuel o = .ok (b, tasks)) :
    b0.Merges b o tasks := by
  unfold Index.merge_and_discover at h
  simp only [bind_eq_ok] at h
  obtain ⟨b1, htargets, _, hsightings, _, hlinkage, top, htop, found, hfound, tasks1, hpropagate,
    _, hsites, _, hredefined, _, hguards, hresult⟩ := h
  obtain ⟨rfl, rfl⟩ := Prod.mk.inj (Except.ok.inj hresult)
  have hremaps := remaps_of_apply_task_targets htargets
  have hkeyed1 := hremaps.keyed hkeyed
  obtain ⟨hstarts, htops⟩ := discovers_top hkeyed1 htop
  have hdiscovers := hstarts.run hkeyed1 hfound
  have hreached := reaches_of_discover_all hkeyed1 hfound hstarts.sights htops
  obtain ⟨state, hcycles, hpropagate⟩ := bind_eq_ok.mp hpropagate
  have hstart : b1.Propagates found (found, aie_uppers found) :=
    ⟨fun key => rfl, fun key task hk hlevel htarget =>
      .inl (mem_aie_uppers hk hlevel htarget)⟩
  have hpropagates := hstart.run hpropagate
  have hback : ∀ (key : Str) (task : MergedTask), tasks1[key]? = some task → ∃ task0,
      found[key]? = some task0 ∧ task.on_aie = task0.on_aie :=
    fun _ _ => exists_of_map_eq hpropagates.same
  have hforth : ∀ key : Str, key ∈ found ↔ key ∈ tasks1 := by
    intro key
    have hsame := congrArg Option.isSome (hpropagates.same key)
    rw [Option.isSome_map, Option.isSome_map] at hsame
    rw [mem_iff_isSome_getElem?, mem_iff_isSome_getElem?, hsame]
  have hlevel : ∀ {task task0 : MergedTask}, task.on_aie = task0.on_aie →
      task.model.level = task0.model.level :=
    fun heq => congrArg (fun t => t.model.level) heq
  refine ⟨hremaps, fun key s => level_of_check_sightings hsightings,
    fun key hk => hreached key ((hforth key).mpr hk), fun key task hk => ?_,
    fun key task hk hupper key' hedge => ?_, fun key hk => ?_,
    fun key task hk hupper htarget key' hedge => ?_, ?_⟩
  · obtain ⟨task0, h0, heq⟩ := hback key task hk
    obtain ⟨s, invoker_key, hs, hinternal, rfl⟩ := hdiscovers.sights key task0 h0
    exact ⟨s, invoker_key, hs, hinternal, heq⟩
  · obtain ⟨task0, h0, heq⟩ := hback key task hk
    rcases hdiscovers.follows key task0 h0 (hlevel heq ▸ hupper) with hmem | hclosed
    · cases hmem
    · exact (hforth key').mp (hclosed key' hedge)
  · exact check_cycles_eq_ok hcycles ((hforth key).mpr hk)
  · rcases hpropagates.follows key task hk hupper htarget with hmem | haie
    · cases hmem
    · exact haie key' hedge
  · intro key key' s s' hk hs hs' h1 h2 h3 h4 h5
    obtain ⟨task, htask⟩ := mem_iff_get.mp hk
    have hcheck := forM_eq_ok.mp hredefined (key, task)
      (mem_toList_iff_getElem?_eq_some.mpr htask)
    exact eq_of_check_redefined hkeyed1 hcheck hs hs' h1 h2 h3 h4 h5

end Tapa.Merge
