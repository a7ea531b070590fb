-- The task graph as a whole: closed under instances, without cycles, with names apart, and
-- on the AI Engine below an AI Engine upper task. A mapping that makes an upper task of a
-- function that the source ignores comes after the edges are recorded, so what this
-- function invokes may be missing.
import Tapa.FilledTasks

namespace Tapa.Merge

open Text Frontend Fallible List Std.ExtTreeMap
open Ir (BTreeMap)

/-! ## What is promised -/

/-- A task of the graph invokes one by its name. -/
def Invokes (graph : Tasks) (a c : Str) : Prop :=
  ∃ p ∈ graph.toList, p.2.model.name = a ∧ c ∈ p.2.model.instances

/-- Some task of the graph has the name. -/
def HasTask (graph : Tasks) (name : Str) : Prop := ∃ p ∈ graph.toList, p.2.model.name = name

structure Consistent (graph : Tasks) : Prop where
  closed : ∀ a c, Invokes graph a c → HasTask graph c
  acyclic : ∀ a, ¬Relation.TransGen (Invokes graph) a a
  distinct : NamesApart graph
  aie : ∀ p ∈ graph.toList, p.2.model.level = .kUpper → p.2.model.target = .kAie →
    ∀ q ∈ graph.toList, Relation.TransGen (Invokes graph) p.2.model.name q.2.model.name →
      q.2.model.target = .kAie

/-- Translation units as clang gives them: no file comes twice, a key has one definition in
a unit and one name in all of them, and a template names the functions that its
specialization names. -/
structure WellFormed (tus : List Tu) : Prop where
  files : (tus.map (·.file)).Nodup
  one_definition : ∀ tu ∈ tus, tu.OneDefinition
  named : ∀ tu ∈ tus, ∀ tu' ∈ tus, ∀ f g, tu.key_of f = tu'.key_of g →
    tu.task_name f = tu'.task_name g
  pattern : ∀ tu ∈ tus, ∀ d p, tu.is_definition d = true → (tu.decl d).pattern = some p →
    ∀ inv ∈ tu.get_invokes p, ∀ c ∈ inv.callee, ∃ inv' ∈ tu.get_invokes d, ∃ c' ∈ inv'.callee,
      tu.key_of c' = tu.key_of c

/-! ## What the source leads to -/

/-- What is known of a definition once the mappings are applied. -/
def Options.facts (o : Options) (tu : Tu) (d : Nat) : DefSighting :=
  (tu.make_facts o.default_target d).remap o.task_targets.toList

/-- The keys that the source leads to from the top. An upper task leads to what it invokes,
unless a mapping makes a leaf of it. -/
inductive Reached (o : Options) (tus : List Tu) : Str → Prop
  | top {tu : Tu} {d : Nat} : tu ∈ tus → tu.Sights d → (tu.decl d).is_global = true →
      (tu.decl d).plain_name = o.top → Reached o tus (tu.key_of d)
  | invoked {tu : Tu} {d c : Nat} : Reached o tus (tu.key_of d) → tu ∈ tus → tu.Sights d →
      (o.facts tu d).level = .kUpper → tu.Calls d c → Reached o tus (tu.key_of c)

/-- A definition that the graph can have a task of. -/
structure Takes (o : Options) (tus : List Tu) (tu : Tu) (d : Nat) : Prop where
  unit : tu ∈ tus
  sights : tu.Sights d
  reached : Reached o tus (tu.key_of d)

/-- A function that the source ignores and a mapping makes an upper task invokes nothing,
and no plain function has the name of a specialization. -/
structure Regular (o : Options) (tus : List Tu) : Prop where
  ignored : ∀ tu d, Takes o tus tu d → tu.is_ignored d = true → (o.facts tu d).level = .kUpper →
    ∀ inv ∈ tu.get_invokes d, inv.callee = none
  names : ∀ tu d tu' d', Takes o tus tu d → Takes o tus tu' d' → tu.is_specialization d = true →
    tu'.is_specialization d' = false → tu.task_name d ≠ tu'.task_name d'

/-! ## Sighted definitions -/

/-- A first sighting is of a definition in a unit, and an upper task has its edges. -/
structure Index.SightedIn (b : Index) (tus : List Tu) (t : SynthTarget) (key : Str)
    (s : DefSighting) (tu : Tu) (d : Nat) : Prop where
  unit : tus[s.tu]? = some tu
  sights : tu.Sights d
  key_eq : tu.key_of d = key
  facts : s = (tu.make_facts t d).placed s.tu
  edges : tu.OneDefinition → tu.level_of d = .kUpper → ∀ inv ∈ tu.get_invokes d,
    ∀ c ∈ inv.callee, b.Edge key (tu.key_of c)

section Sighted

variable {fuel : Nat} {o : Options} {tus : List Tu} {b : Index}
  (hfiles : (tus.map (·.file)).Nodup) (h : index_tus fuel o tus = .ok b)
include hfiles h

theorem keyed_of_index_tus : b.Keyed := by
  obtain ⟨indexes, -, hgathers⟩ := index_tus_eq_ok hfiles h
  intro key s hs x hx
  obtain ⟨i, ix, y, -, -, hkey, rfl⟩ := hgathers.sighting hs hx
  exact hkey

theorem sightedIn_of_index_tus {key : Str} {s : Sightings} (hs : b.defs[key]? = some s) :
    ∃ tu d, b.SightedIn tus o.default_target key s.first tu d := by
  obtain ⟨indexes, hindexes, hgathers⟩ := index_tus_eq_ok hfiles h
  obtain ⟨i, ix, y, hix, hy, hkey, hfirst⟩ := hgathers.sighting hs
    mem_cons_self
  obtain ⟨tu, htu, himpl⟩ := exists_getElem?_of_forall₂ hindexes hix
  obtain ⟨d, hd, rfl⟩ := (index_tu_impl_faithful himpl).defs y hy
  have htu' : s.first.tu = i := by rw [hfirst]; rfl
  refine ⟨tu, d, htu' ▸ htu, hd, hkey, htu' ▸ hfirst, fun hone hlevel inv hinv c hc => ?_⟩
  have hcomplete := (index_tu_impl_sound hone himpl).2
  obtain ⟨e, he, hcaller, hcallee⟩ := hcomplete _ hy hlevel d rfl inv hinv c hc
  refine ⟨e.placed i, mem_filter.mpr ⟨?_, ?_⟩, hcallee⟩
  · rw [hgathers.edges, mem_flatMap]
    exact ⟨(ix, i), mem_zipIdx_iff_getElem?.mpr hix, mem_map_of_mem he⟩
  · exact decide_eq_true (hcaller.trans hkey)

/-- An edge is a call of a sighted definition. -/
theorem calls_of_index_tus {key key' : Str} (hedge : b.Edge key key') :
    ∃ (i : Nat) (tu : Tu) (d c : Nat) (s : Sightings), tus[i]? = some tu ∧ tu.Sights d ∧
      tu.Calls d c ∧ tu.key_of d = key ∧ tu.key_of c = key' ∧ b.defs[key]? = some s ∧
        (tu.make_facts o.default_target d).placed i ∈ s.all := by
  obtain ⟨indexes, hindexes, hgathers⟩ := index_tus_eq_ok hfiles h
  obtain ⟨e, he, rfl⟩ := hedge
  obtain ⟨hmem, hcaller⟩ := mem_filter.mp he
  obtain rfl : e.caller_key = key := of_decide_eq_true hcaller
  obtain ⟨i, ix, e', hix, he', rfl⟩ := hgathers.edge hmem
  obtain ⟨tu, htu, himpl⟩ := exists_getElem?_of_forall₂ hindexes hix
  obtain ⟨d, c, hd, hsights, hcalls, hkey, hkey'⟩ := (index_tu_impl_faithful himpl).callers e' he'
  obtain ⟨s, hs, hmem⟩ := hgathers.sights hix hd
  exact ⟨i, tu, d, c, s, htu, hsights, hcalls, hkey, hkey', hkey ▸ hs, hmem⟩

end Sighted

/-! ## Tasks and their definitions -/

/-- The passes up to the merge. -/
structure Discovered (fuel : Nat) (o : Options) (tus : List Tu) (b0 b : Index) (merged : Tasks) :
    Prop where
  index : index_tus fuel o tus = .ok b0
  merge : b0.merge_and_discover fuel o = .ok (b, merged)

/-- The passes of a run that ends with a graph. -/
structure Built (fuel : Nat) (o : Options) (tus : List Tu) (b0 b : Index) (merged graph : Tasks) :
    Prop extends Discovered fuel o tus b0 b merged where
  rewrite : b.rewrite o merged tus = .ok graph

/-- A merged task is that of a definition. -/
structure MergedTask.Of (task : MergedTask) (o : Options) (tu : Tu) (d : Nat) : Prop where
  name : task.model.name = tu.task_name d
  spec : task.model.is_template_spec = tu.is_specialization d
  primary_key : task.primary_key =
    if tu.is_specialization d then ((tu.decl d).pattern.map tu.key_of).getD [] else []
  fresh : task.model.instances = ∅
  level : task.model.level = (o.facts tu d).level

/-- An upper task is one in its source, unless the source ignores it. -/
theorem MergedTask.Of.upper {task : MergedTask} {o : Options} {tu : Tu} {d : Nat}
    (h : task.Of o tu d) (hupper : task.model.level = .kUpper)
    (hignored : tu.is_ignored d = false) :
    tu.level_of d = .kUpper := by
  have hremap := (tu.make_facts o.default_target d).remap_retargeted o.task_targets.toList
  rcases hremap.level (h.level.symm.trans hupper) with hsource | hshaped
  · exact hsource
  · have hobject : (tu.get_tapa_task_object d).isSome = true := hshaped
    simp [Tu.level_of, hignored, hobject]

/-- The functions that a task's declaration names in its unit are those of its definition. -/
theorem Index.SightedIn.callee {b : Index} {tus : List Tu} {t : SynthTarget} {key : Str}
    {task : MergedTask} {s : DefSighting} {tu : Tu} {d f : Nat} (hwf : WellFormed tus)
    (hsighted : b.SightedIn tus t key s tu d) {o : Options} (hof : task.Of o tu d)
    (hdef : view_def tu.visible_decls (key, task) = some f) {inv : InvokeExpr}
    (hinv : inv ∈ tu.get_invokes f) {c : Nat} (hc : c ∈ inv.callee) :
    ∃ inv' ∈ tu.get_invokes d, ∃ c' ∈ inv'.callee, tu.key_of c' = tu.key_of c := by
  have htu : tu ∈ tus := mem_of_getElem? hsighted.unit
  have hone := hwf.one_definition tu htu
  unfold view_def at hdef
  split at hdef
  · rename_i g hg
    cases hdef
    rw [hone.get_invokes_eq ((key_of_visible_decls hg).trans hsighted.key_eq.symm)] at hinv
    exact ⟨inv, hinv, c, hc, rfl⟩
  · split at hdef
    · rename_i hspec
      rw [Bool.and_eq_true, hof.spec, hof.primary_key] at hspec
      rw [hof.primary_key, if_pos hspec.1] at hdef
      cases hpattern : (tu.decl d).pattern with
      | none =>
        rw [if_pos hspec.1, hpattern] at hspec
        exact absurd hspec.2 Bool.noConfusion
      | some p =>
        rw [hpattern] at hdef
        rw [hone.get_invokes_eq (key_of_visible_decls hdef)] at hinv
        exact hwf.pattern tu htu d p hsighted.sights.definition hpattern inv hinv c hc
    · cases hdef

section Discovered

variable {fuel : Nat} {o : Options} {tus : List Tu} {b0 b : Index} {merged : Tasks}
  (hfiles : (tus.map (·.file)).Nodup) (h : Discovered fuel o tus b0 b merged)
include hfiles h

theorem Discovered.merges : b0.Merges b o merged :=
  merge_and_discover_eq_ok (keyed_of_index_tus hfiles h.index) h.merge

theorem Discovered.files : b.tu_files = tus.map (·.file) := by
  obtain ⟨indexes, -, hgathers⟩ := index_tus_eq_ok hfiles h.index
  exact (h.merges hfiles).remaps.files.trans hgathers.files

/-- What discovery comes to is what the source leads to. -/
theorem Discovered.reached {key : Str} (hkey : key ∈ merged) : Reached o tus key := by
  have hmerges := h.merges hfiles
  have hreaches := hmerges.reached key hkey
  clear hkey
  induction hreaches with
  | top hs hinternal htop =>
    rw [hmerges.remaps.defs, Option.map_eq_some_iff] at hs
    obtain ⟨s, hs, rfl⟩ := hs
    obtain ⟨tu, d, hsighted⟩ := sightedIn_of_index_tus hfiles h.index hs
    change (s.first.remap _).internal = false at hinternal
    change (s.first.remap _).plain_name = o.top at htop
    rw [(s.first.remap_retargeted o.task_targets.toList).eq, hsighted.facts] at hinternal htop
    rw [← hsighted.key_eq]
    exact .top (mem_of_getElem? hsighted.unit) hsighted.sights
      (by simpa [Tu.make_facts, DefSighting.placed] using hinternal) htop
  | @edge key key' s _ hs hupper hedge ih =>
    have hedge0 : b0.Edge key key' := by
      unfold Index.Edge Index.equal_range at hedge ⊢
      rwa [hmerges.remaps.edges] at hedge
    obtain ⟨i, tu, d, c, s0, htu, hsights, hcalls, rfl, rfl, hs0, hmem⟩ :=
      calls_of_index_tus hfiles h.index hedge0
    have hs' := hmerges.remaps.defs (tu.key_of d)
    rw [hs, hs0] at hs'
    obtain rfl := Option.some.inj hs'
    have hall : (s0.map (DefSighting.remap o.task_targets.toList)).all =
      s0.all.map (DefSighting.remap o.task_targets.toList) := rfl
    have hlevel := hmerges.agree _ _ hs _ (hall ▸ mem_map_of_mem hmem)
    rw [DefSighting.remap_placed] at hlevel
    exact .invoked ih (mem_of_getElem? htu) hsights (hlevel.trans hupper) hcalls

/-- The definition of a merged task, in the unit that owns it. -/
theorem Discovered.source {key : Str} {task : MergedTask} (htask : merged[key]? = some task) :
    ∃ s tu d, b0.defs[key]? = some s ∧ b0.SightedIn tus o.default_target key s.first tu d ∧
      s.first.internal = false ∧ task.owner_tu = s.first.tu ∧ task.Of o tu d := by
  obtain ⟨s', invoker_key, hs', hinternal, heq⟩ := (h.merges hfiles).sights key task htask
  rw [(h.merges hfiles).remaps.defs, Option.map_eq_some_iff] at hs'
  obtain ⟨s, hs, rfl⟩ := hs'
  obtain ⟨tu, d, hsighted⟩ := sightedIn_of_index_tus hfiles h.index hs
  have hremap := (s.first.remap_retargeted o.task_targets.toList).eq
  have hfirst : (s.map (DefSighting.remap o.task_targets.toList)).first =
    s.first.remap o.task_targets.toList := rfl
  rw [hfirst] at hinternal heq
  have hplaced := hsighted.facts
  refine ⟨s, tu, d, hs, hsighted, ?_, ?_, ⟨?_, ?_, ?_, ?_, ?_⟩⟩
  · rw [hremap] at hinternal
    exact hinternal
  · have howner := congrArg MergedTask.owner_tu heq
    rw [hremap] at howner
    exact howner
  · have hname := congrArg (fun t => t.model.name) heq
    rw [hremap, hplaced] at hname
    exact hname
  · have hspec := congrArg (fun t => t.model.is_template_spec) heq
    rw [hremap, hplaced] at hspec
    exact hspec
  · have hprimary := congrArg MergedTask.primary_key heq
    rw [hremap, hplaced] at hprimary
    exact hprimary
  · exact congrArg (fun t => t.model.instances) heq
  · have hlevel := congrArg (fun t => t.model.level) heq
    rw [hplaced, DefSighting.remap_placed] at hlevel
    exact hlevel

/-- A merged task is of a definition that the source leads to. -/
theorem Discovered.takes {key : Str} {task : MergedTask} (htask : merged[key]? = some task)
    {s : DefSighting} {tu : Tu} {d : Nat}
    (hsighted : b0.SightedIn tus o.default_target key s tu d) : Takes o tus tu d := by
  refine ⟨mem_of_getElem? hsighted.unit, hsighted.sights, ?_⟩
  rw [hsighted.key_eq]
  exact h.reached hfiles (mem_of_get htask)

/-- A task's name is its key, if it is a specialization. -/
theorem Discovered.name_eq_key {key : Str} {task : MergedTask} (htask : merged[key]? = some task)
    (hspec : task.model.is_template_spec = true) : task.model.name = key := by
  obtain ⟨s, tu, d, -, hsighted, -, -, hof⟩ := h.source hfiles htask
  have hdef : (tu.decl d).definition = some d := by
    simpa [Tu.is_definition] using hsighted.sights.definition
  rw [hof.spec] at hspec
  rw [hof.name, ← hsighted.key_eq]
  simp [Tu.task_name, Tu.key_of, hdef, hspec]

/-- Two plain tasks of one name are one task. -/
theorem Discovered.plain_names {key key' : Str} {task task' : MergedTask}
    (htask : merged[key]? = some task) (htask' : merged[key']? = some task')
    (hspec : task.model.is_template_spec = false) (hspec' : task'.model.is_template_spec = false)
    (hname : task.model.name = task'.model.name) : key = key' := by
  have hfacts : ∀ {k : Str} {t : MergedTask}, merged[k]? = some t →
      t.model.is_template_spec = false → ∃ s, b.defs[k]? = some s ∧ s.first.internal = false ∧
        s.first.implicit_spec = false ∧ s.first.plain_name = t.model.name := by
    intro k t ht hplain
    obtain ⟨s, tu, d, hs, hsighted, hinternal, -, hof⟩ := h.source hfiles ht
    have hremap := (s.first.remap_retargeted o.task_targets.toList).eq
    rw [hof.spec] at hplain
    have hkind : (tu.decl d).specialization = none := by
      simpa [Tu.is_specialization] using hplain
    refine ⟨_, by rw [(h.merges hfiles).remaps.defs, hs]; rfl, ?_⟩
    change (s.first.remap _).internal = false ∧ (s.first.remap _).implicit_spec = false ∧
      (s.first.remap _).plain_name = _
    rw [hremap]
    refine ⟨hinternal, ?_, ?_⟩
    · rw [hsighted.facts]
      simp [DefSighting.placed, Tu.make_facts, hkind]
    · rw [hsighted.facts, hof.name]
      simp [DefSighting.placed, Tu.make_facts, Tu.task_name, hplain]
  obtain ⟨s, hs, hinternal, himplicit, hplain⟩ := hfacts htask hspec
  obtain ⟨s', hs', hinternal', himplicit', hplain'⟩ := hfacts htask' hspec'
  have hmem : key ∈ merged := mem_of_get htask
  exact ((h.merges hfiles).names key key' s s' hmem hs hs' hinternal hinternal' himplicit himplicit'
    (hplain'.trans (hname.symm.trans hplain.symm))).symm

theorem Discovered.namesApart (hregular : Regular o tus) : NamesApart merged := by
  have hspecs : ∀ {k k' : Str} {t t' : MergedTask}, merged[k]? = some t → merged[k']? = some t' →
      t.model.is_template_spec = true → t'.model.is_template_spec = false →
        t.model.name ≠ t'.model.name := by
    intro k k' t t' ht ht' hspec hplain
    obtain ⟨s, tu, d, -, hsighted, -, -, hof⟩ := h.source hfiles ht
    obtain ⟨s', tu', d', -, hsighted', -, -, hof'⟩ := h.source hfiles ht'
    rw [hof.name, hof'.name]
    exact hregular.names tu d tu' d' (h.takes hfiles ht hsighted) (h.takes hfiles ht' hsighted')
      (hof.spec.symm.trans hspec) (hof'.spec.symm.trans hplain)
  rintro ⟨key, task⟩ hp ⟨key', task'⟩ hq hname
  have htask := mem_toList_iff_getElem?_eq_some.mp hp
  have htask' := mem_toList_iff_getElem?_eq_some.mp hq
  cases hspec : task.model.is_template_spec with
  | true =>
    cases hspec' : task'.model.is_template_spec with
    | true =>
      have hkey := h.name_eq_key hfiles htask hspec
      have hkey' := h.name_eq_key hfiles htask' hspec'
      exact hkey.symm.trans (hname.trans hkey')
    | false => exact absurd hname (hspecs htask htask' hspec hspec')
  | false =>
    cases hspec' : task'.model.is_template_spec with
    | true => exact absurd hname.symm (hspecs htask' htask hspec' hspec)
    | false => exact h.plain_names hfiles htask htask' hspec hspec' hname

end Discovered

section Graph

variable {fuel : Nat} {o : Options} {tus : List Tu} {b0 b : Index} {merged graph : Tasks}
  (hwf : WellFormed tus) (h : Built fuel o tus b0 b merged graph) (hregular : Regular o tus)
include hwf h hregular

theorem Built.rewritten : b.Rewritten o merged tus graph :=
  rewritten_of_rewrite (h.files hwf.files) hwf.files (h.namesApart hwf.files hregular) h.rewrite

/-- An instance of a task is at the end of one of its edges. -/
theorem Built.child {p : Str × MergedTask} (hp : p ∈ graph.toList)
    {c : Str} (hc : c ∈ p.2.model.instances) : p.2.model.level = .kUpper ∧
      ∃ key', b.Edge p.1 key' ∧ ∀ child, merged[key']? = some child → child.model.name = c := by
  obtain ⟨key, task'⟩ := p
  have hrewritten := h.rewritten hwf hregular
  have hget := mem_toList_iff_getElem?_eq_some.mp hp
  obtain ⟨task, htask, -, hsame⟩ := hrewritten.sameTask hget
  obtain ⟨s, tu, d, hs, hsighted, -, howner, hof⟩ := h.source hwf.files htask
  obtain ⟨m, ⟨f, hdef, hfill⟩, hm⟩ :=
    hrewritten.filled key task htask tu (howner ▸ hsighted.unit)
  obtain rfl := Option.mem_unique hm hget
  obtain ⟨hupper, inv, hinv, callee, hcallee, rfl⟩ := invokes_of_fill_model hof.fresh hfill hc
  refine ⟨hsame.level.trans hupper, ?_⟩
  obtain ⟨inv', hinv', c', hc', hkey⟩ := hsighted.callee hwf hof hdef hinv hcallee
  -- a function that the source ignores would have to invoke nothing
  have hlisted : tu.is_ignored d = false := by
    rw [← Bool.not_eq_true]
    intro hignored
    have hnone := hregular.ignored tu d (h.takes hwf.files htask hsighted) hignored
      (hof.level.symm.trans hupper) inv' hinv'
    rw [hnone] at hc'
    cases hc'
  have htu : tu ∈ tus := mem_of_getElem? hsighted.unit
  obtain ⟨e, he, hcallee_key⟩ := hsighted.edges (hwf.one_definition tu htu)
    (hof.upper hupper hlisted) inv' hinv' c' hc'
  refine ⟨tu.key_of callee, ⟨e, ?_, hcallee_key.trans hkey⟩, fun child hchild => ?_⟩
  · unfold Index.equal_range at he ⊢
    rwa [(h.merges hwf.files).remaps.edges]
  · obtain ⟨s', tu', d', -, hsighted', -, -, hof'⟩ := h.source hwf.files hchild
    rw [hof'.name]
    exact hwf.named tu' (mem_of_getElem? hsighted'.unit) tu htu d' callee hsighted'.key_eq

theorem Built.task_of_merged {key : Str} {task : MergedTask}
    (htask : merged[key]? = some task) : ∃ task', graph[key]? = some task' ∧
      task.model.SameTask task'.model := by
  obtain ⟨s, tu, d, -, hsighted, -, howner, -⟩ := h.source hwf.files htask
  obtain ⟨m, ⟨f, -, hfill⟩, hm⟩ :=
    (h.rewritten hwf hregular).filled key task htask tu (howner ▸ hsighted.unit)
  exact ⟨_, hm, sameTask_of_fill_model hfill⟩

/-! ## The graph -/

/-- The graph has just the merged tasks, under the names that they had. -/
theorem Built.merged_of_task {p : Str × MergedTask}
    (hp : p ∈ graph.toList) : ∃ task, merged[p.1]? = some task ∧ task.model.SameTask p.2.model := by
  obtain ⟨task, htask, -, hsame⟩ :=
    (h.rewritten hwf hregular).sameTask (mem_toList_iff_getElem?_eq_some.mp hp)
  exact ⟨task, htask, hsame⟩

/-- The task that an instance is of, in the graph. -/
theorem Built.invoked_task {p : Str × MergedTask}
    (hp : p ∈ graph.toList) {c : Str} (hc : c ∈ p.2.model.instances) :
    ∃ key' task', b.Edge p.1 key' ∧ (key', task') ∈ graph.toList ∧ task'.model.name = c ∧
      (p.2.model.target = .kAie → task'.model.target = .kAie) := by
  obtain ⟨hlevel, key', hedge, hname⟩ := h.child hwf hregular hp hc
  obtain ⟨task, htask, hsame⟩ := h.merged_of_task hwf hregular hp
  have hupper := hsame.level.symm.trans hlevel
  have hmem := (h.merges hwf.files).closed p.1 task htask hupper key' hedge
  obtain ⟨child, hchild⟩ := mem_iff_get.mp hmem
  obtain ⟨task', htask', hsame'⟩ := h.task_of_merged hwf hregular hchild
  refine ⟨key', task', hedge, mem_toList_iff_getElem?_eq_some.mpr htask',
    hsame'.name.trans (hname child hchild), fun htarget => ?_⟩
  obtain ⟨child', hchild', haie⟩ := (h.merges hwf.files).aie p.1 task htask hupper
    (hsame.target.symm.trans htarget) key' hedge
  obtain rfl := Option.mem_unique hchild hchild'
  exact hsame'.target.trans haie

section

variable (hgraph : NamesApart graph)
include hgraph

/-- No task leads back to itself, by induction on the chains of recorded edges from it. -/
theorem Built.acyclic {key : Str} (hends : b.Ends key) : ∀ task, (key, task) ∈ graph.toList →
    ¬Relation.TransGen (Invokes graph) task.model.name task.model.name := by
  induction hends with
  | intro key _ ih =>
    intro task htask hcycle
    obtain ⟨c, ⟨p, hp, hname, hc⟩, hback⟩ := Relation.TransGen.head'_iff.mp hcycle
    obtain ⟨key1, task1⟩ := p
    obtain rfl : key1 = key := hgraph _ hp _ htask hname
    obtain ⟨key', task', hedge, htask', rfl, -⟩ := h.invoked_task hwf hregular hp hc
    exact ih key' hedge task' htask' (Relation.TransGen.tail' hback ⟨_, hp, hname, hc⟩)

/-- What an AI Engine task invokes is on the AI Engine. -/
theorem Built.aie_child {p q : Str × MergedTask} (hp : p ∈ graph.toList) (hq : q ∈ graph.toList)
    (hc : q.2.model.name ∈ p.2.model.instances) (haie : p.2.model.target = .kAie) :
    q.2.model.target = .kAie := by
  obtain ⟨key', task', -, htask', hname, htarget⟩ := h.invoked_task hwf hregular hp hc
  have hkey : key' = q.1 := hgraph (key', task') htask' q hq hname
  have hsame : q.2 = task' := by
    rw [mem_toList_iff_getElem?_eq_some, hkey] at htask'
    rw [mem_toList_iff_getElem?_eq_some] at hq
    exact Option.mem_unique hq htask'
  rw [hsame]
  exact htarget haie

/-- So is everything below it. -/
theorem Built.aie_below {p : Str × MergedTask} (hp : p ∈ graph.toList)
    (haie : p.2.model.target = .kAie) {c : Str}
    (hbelow : Relation.TransGen (Invokes graph) p.2.model.name c) :
    ∀ q ∈ graph.toList, q.2.model.name = c → q.2.model.target = .kAie := by
  induction hbelow with
  | single hinvokes =>
    rintro q hq rfl
    obtain ⟨p', hp', hname, hc⟩ := hinvokes
    obtain ⟨key, task⟩ := p
    obtain ⟨key', task'⟩ := p'
    obtain rfl : key' = key := hgraph _ hp' _ hp hname
    rw [mem_toList_iff_getElem?_eq_some] at hp
    have hget := mem_toList_iff_getElem?_eq_some.mp hp'
    obtain rfl := Option.mem_unique hget hp
    exact h.aie_child hwf hregular hgraph hp' hq hc haie
  | tail _ hinvokes ih =>
    rintro q hq rfl
    obtain ⟨p', hp', hname, hc⟩ := hinvokes
    exact h.aie_child hwf hregular hgraph hp' hq hc (ih p' hp' hname)

end

/-- The graph is closed and consistent, if no function that only a mapping makes an upper
task invokes anything and no plain function has the name of a specialization. -/
theorem graph_of_regular_sources_is_consistent : Consistent graph := by
  have hgraph := (h.rewritten hwf hregular).namesApart (h.namesApart hwf.files hregular)
  refine ⟨?_, ?_, hgraph, fun p hp _ haie q hq hbelow => ?_⟩
  · rintro _ c ⟨p, hp, rfl, hc⟩
    obtain ⟨key', task', -, htask', hname, -⟩ := h.invoked_task hwf hregular hp hc
    exact ⟨_, htask', hname⟩
  · intro a hcycle
    obtain ⟨c, ⟨p, hp, rfl, -⟩, -⟩ := Relation.TransGen.head'_iff.mp hcycle
    obtain ⟨task, htask, -⟩ := h.merged_of_task hwf hregular hp
    have hends := (h.merges hwf.files).ends p.1 (mem_of_get htask)
    exact h.acyclic hwf hregular hgraph hends p.2 hp hcycle
  · exact h.aie_below hwf hregular hgraph hp haie hbelow q hq rfl

end Graph

/-! ## A task that only a mapping makes a task -/

/-- `Mid` is marked to be ignored; what `Top` and `Mid` invoke is given. -/
def ignoredTu (invoked below : List Nat) : Tu where
  file := "a.cpp".toList
  decl
    | 0 => FunctionDecl.plain 0 "Top".toList [] (some ⟨[], invoked.map (InvokeExpr.join · [])⟩)
    | 1 => { FunctionDecl.plain 1 "Mid".toList []
          (some ⟨[], below.map (InvokeExpr.join · [])⟩) with
        target_attr := some .Ignore }
    | _ => FunctionDecl.plain 2 "Leaf".toList [] none
  visited := [2, 1, 0]

/-- The options that map `Mid` to another target. -/
def mappedMid : Options :=
  ⟨"Top".toList, .kXilinxHls, (∅ : BTreeMap Str SynthTarget).insert "Mid".toList .kXilinxHls⟩

theorem ignoredTu_decl (invoked below : List Nat) (f : Nat) : ∃ g < 3,
    (ignoredTu invoked below).decl f = (ignoredTu invoked below).decl g ∧
      ((ignoredTu invoked below).decl f).definition = some g := by
  match f with
  | 0 => exact ⟨0, by omega, rfl, rfl⟩
  | 1 => exact ⟨1, by omega, rfl, rfl⟩
  | f + 2 => exact ⟨2, by omega, rfl, rfl⟩

/-- The key of each definition. -/
def ignoredKey : Nat → Str
  | 0 => "Top()".toList
  | 1 => "Mid()".toList
  | _ => "Leaf()".toList

theorem ignoredTu_key_of (invoked below : List Nat) {f g : Nat}
    (hf : ((ignoredTu invoked below).decl f).definition = some g) :
    (ignoredTu invoked below).key_of f = ignoredKey g := by
  match f with
  | 0 =>
    obtain rfl : 0 = g := Option.some.inj hf
    rfl
  | 1 =>
    obtain rfl : 1 = g := Option.some.inj hf
    rfl
  | f + 2 =>
    obtain rfl : 2 = g := Option.some.inj hf
    rfl

theorem ignoredKey_injective : ∀ f < 3, ∀ g < 3, ignoredKey f = ignoredKey g → f = g := by
  decide

theorem wellFormed_ignoredTu (invoked below : List Nat) : WellFormed [ignoredTu invoked below] := by
  refine ⟨nodup_singleton _, ?_, ?_, ?_⟩
  · intro tu htu
    obtain rfl := mem_singleton.mp htu
    refine ⟨fun f d hd => ?_, fun f d hd hkey => ?_⟩
    · obtain ⟨g, hg, -, hdef⟩ := ignoredTu_decl invoked below f
      obtain rfl := Option.mem_unique hdef hd
      match g with
      | 0 | 1 | 2 => rfl
    · obtain ⟨g, hg, -, hdef⟩ := ignoredTu_decl invoked below f
      obtain ⟨g', hg', -, hdef'⟩ := ignoredTu_decl invoked below d
      have hself : ((ignoredTu invoked below).decl d).definition = some d := of_decide_eq_true hd
      obtain rfl := Option.mem_unique hdef' hself
      rw [ignoredTu_key_of invoked below hdef, ignoredTu_key_of invoked below hdef'] at hkey
      obtain rfl := ignoredKey_injective g hg g' hg' hkey
      exact hdef
  · intro tu htu tu' htu' f g hkey
    obtain rfl := mem_singleton.mp htu
    obtain rfl := mem_singleton.mp htu'
    obtain ⟨f', hf', hdecl, hdef⟩ := ignoredTu_decl invoked below f
    obtain ⟨g', hg', hdecl', hdef'⟩ := ignoredTu_decl invoked below g
    rw [ignoredTu_key_of invoked below hdef, ignoredTu_key_of invoked below hdef'] at hkey
    obtain rfl := ignoredKey_injective f' hf' g' hg' hkey
    simp only [Tu.task_name, Tu.is_specialization, Tu.mangled_task_name, hdecl, hdecl']
  · intro tu htu d p _ hpattern
    obtain rfl := mem_singleton.mp htu
    match d with
    | 0 | 1 | _ + 2 => cases hpattern

/-- The passes one after the other, with what each of them gives. -/
def passes (fuel : Nat) (o : Options) (tus : List Tu) :
    Except Stop (Index × Index × Tasks × Tasks) := do
  let b0 ← index_tus fuel o tus
  let (b, merged) ← b0.merge_and_discover fuel o
  let graph ← b.rewrite o merged tus
  pure (b0, b, merged, graph)

theorem built_of_passes {fuel : Nat} {o : Options} {tus : List Tu}
    {r : Index × Index × Tasks × Tasks} (h : passes fuel o tus = .ok r) :
    Built fuel o tus r.1 r.2.1 r.2.2.1 r.2.2.2 := by
  obtain ⟨b0, hindex, h⟩ := bind_eq_ok.mp h
  obtain ⟨⟨b, merged⟩, hmerge, h⟩ := bind_eq_ok.mp h
  obtain ⟨graph, hrewrite, h⟩ := bind_eq_ok.mp h
  cases h
  exact ⟨⟨hindex, hmerge⟩, hrewrite⟩

theorem passes_isSome : (passes 9 mappedMid [ignoredTu [1] [2]]).toOption.isSome = true ∧
    (passes 9 mappedMid [ignoredTu [1, 2] []]).toOption.isSome = true := by
  decide +kernel

/-- `Top` invokes `Mid`, and `Mid` invokes `Leaf`. -/
def lostLeaf : Index × Index × Tasks × Tasks :=
  (passes 9 mappedMid [ignoredTu [1] [2]]).toOption.get passes_isSome.1

/-- `Top` invokes `Mid` and `Leaf`, and `Mid` nothing. -/
def quietMid : Index × Index × Tasks × Tasks :=
  (passes 9 mappedMid [ignoredTu [1, 2] []]).toOption.get passes_isSome.2

theorem built_lostLeaf : Built 9 mappedMid [ignoredTu [1] [2]] lostLeaf.1 lostLeaf.2.1
    lostLeaf.2.2.1 lostLeaf.2.2.2 := built_of_passes (eq_ok_get passes_isSome.1)

theorem built_quietMid : Built 9 mappedMid [ignoredTu [1, 2] []] quietMid.1 quietMid.2.1
    quietMid.2.2.1 quietMid.2.2.2 := built_of_passes (eq_ok_get passes_isSome.2)

/-- The leaf of a function that only a mapping makes a task is not in the graph. -/
theorem a_revived_task_loses_its_leaf : WellFormed [ignoredTu [1] [2]] ∧
    Built 9 mappedMid [ignoredTu [1] [2]] lostLeaf.1 lostLeaf.2.1 lostLeaf.2.2.1 lostLeaf.2.2.2 ∧
      ¬Consistent lostLeaf.2.2.2 := by
  refine ⟨wellFormed_ignoredTu [1] [2], built_lostLeaf, fun hgraph => ?_⟩
  have hinvokes : ∃ p ∈ lostLeaf.2.2.2.toList, p.2.model.name = "Mid".toList ∧
      "Leaf".toList ∈ p.2.model.instances := by
    decide +kernel
  have hnone : ¬∃ p ∈ lostLeaf.2.2.2.toList, p.2.model.name = "Leaf".toList := by decide +kernel
  exact hnone (hgraph.closed _ _ hinvokes)

theorem regular_ignoredTu (o : Options) (invoked : List Nat) :
    Regular o [ignoredTu invoked []] := by
  have hspec : ∀ d, (ignoredTu invoked []).is_specialization d = false
    | 0 | 1 | _ + 2 => rfl
  refine ⟨fun tu d htakes hignored _ inv hinv => ?_, fun tu d _ _ htakes _ htrue => ?_⟩
  · obtain rfl := mem_singleton.mp htakes.unit
    match d with
    | 0 | _ + 2 => cases hignored
    | 1 => cases hinv
  · obtain rfl := mem_singleton.mp htakes.unit
    exact absurd ((hspec d).symm.trans htrue) Bool.noConfusion

/-- One that invokes nothing is a task of a consistent graph. -/
theorem a_quiet_revived_task_is_in_the_graph :
    (∃ p ∈ quietMid.2.2.2.toList, p.2.model.name = "Mid".toList ∧ p.2.model.level = .kUpper) ∧
      Consistent quietMid.2.2.2 := by
  refine ⟨by decide +kernel, ?_⟩
  exact graph_of_regular_sources_is_consistent (wellFormed_ignoredTu [1, 2] []) built_quietMid
    (regular_ignoredTu mappedMid [1, 2])

end Tapa.Merge
