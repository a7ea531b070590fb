-- What the index of the translation units holds: every sighting is of a definition, an
-- upper task has an edge for each of its invokes, and the shared index is that of the
-- units one after the other.
import Tapa.ProgramBuilder

namespace Tapa.Merge

open Text Frontend Fallible List
open Ir (BTreeMap get_insert get_insert_eq_some isSome_get_insert)

/-! ## One translation unit -/

/-- A translation unit as clang gives it: a key has one definition, to which every
declaration of it leads. -/
structure Tu.OneDefinition (tu : Tu) : Prop where
  definition : ∀ f d, (tu.decl f).definition = some d → tu.is_definition d = true
  unique : ∀ f d, tu.is_definition d = true → tu.key_of f = tu.key_of d →
    (tu.decl f).definition = some d

variable {tu : Tu} {f : Nat}

theorem Tu.key_of_definition {d : Nat} (hf : (tu.decl f).definition = some d)
    (hd : tu.is_definition d = true) : tu.key_of d = tu.key_of f := by
  have hd' : (tu.decl d).definition = some d := by simpa [is_definition] using hd
  simp [key_of, hf, hd']

/-- The body of a function is found by its key. -/
theorem Tu.OneDefinition.get_tapa_task_object_eq (h : tu.OneDefinition) {g : Nat}
    (hkey : tu.key_of f = tu.key_of g) :
    tu.get_tapa_task_object f = tu.get_tapa_task_object g := by
  have hdef : (tu.decl f).definition = (tu.decl g).definition := by
    cases hg : (tu.decl g).definition with
    | some d =>
      have hd := h.definition g d hg
      exact h.unique f d hd (hkey.trans (Tu.key_of_definition hg hd).symm)
    | none =>
      cases hf : (tu.decl f).definition with
      | none => rfl
      | some d =>
        have hd := h.definition f d hf
        rw [h.unique g d hd (hkey.symm.trans (Tu.key_of_definition hf hd).symm)] at hg
        cases hg
  unfold get_tapa_task_object
  rw [hdef]

theorem Tu.OneDefinition.get_invokes_eq (h : tu.OneDefinition) {g : Nat}
    (hkey : tu.key_of f = tu.key_of g) : tu.get_invokes f = tu.get_invokes g := by
  unfold get_invokes
  rw [h.get_tapa_task_object_eq hkey]

section Unit

variable {tu : Tu} {t : SynthTarget}

theorem getElem?_record_visible_decl {visible : BTreeMap Str Nat} {key k : Str} {f g : Nat}
    (h : (tu.record_visible_decl visible key f)[k]? = some g) :
    visible[k]? = some g ∨ (k = key ∧ g = f) := by
  have hinsert : (visible.insert key f)[k]? = some g →
      visible[k]? = some g ∨ (k = key ∧ g = f) := by
    intro h
    rcases get_insert_eq_some.mp h with ⟨rfl, rfl⟩ | ⟨_, h⟩
    · exact .inr ⟨rfl, rfl⟩
    · exact .inl h
  unfold Tu.record_visible_decl at h
  split at h
  · exact hinsert h
  · split at h
    · exact hinsert h
    · exact .inl h

theorem isSome_record_visible_decl (visible : BTreeMap Str Nat) (key k : Str) (f : Nat)
    (h : visible[k]?.isSome = true ∨ k = key) :
    (tu.record_visible_decl visible key f)[k]?.isSome = true := by
  have hinsert : (visible.insert key f)[k]?.isSome = true :=
    isSome_get_insert.mpr (h.symm.imp_left Eq.symm)
  unfold Tu.record_visible_decl
  split
  · exact hinsert
  rename_i g hg
  split
  · exact hinsert
  rcases h with h | rfl
  · exact h
  · rw [hg]
    rfl

/-- A definition that the source makes an upper task invokes a function, in the body that
one of its declarations leads to. -/
def Tu.Calls (tu : Tu) (d c : Nat) : Prop :=
  tu.level_of d = .kUpper ∧
    ∃ f, tu.key_of f = tu.key_of d ∧ ∃ inv ∈ tu.get_invokes f, c ∈ inv.callee

/-- A unit sights the definitions that it visits, and those that a sighted one invokes. -/
inductive Tu.Sights (tu : Tu) : Nat → Prop
  | visited {f : Nat} : f ∈ tu.visited → tu.is_definition f = true → tu.Sights f
  | invoked {d c : Nat} : tu.Sights d → tu.Calls d c → tu.is_definition c = true → tu.Sights c

theorem Tu.Sights.definition {d : Nat} (h : tu.Sights d) : tu.is_definition d = true := by
  cases h with
  | visited _ hd | invoked _ _ hd => exact hd

/-- What the index of a unit holds while it is made. -/
structure TuIndex.Faithful (tu : Tu) (t : SynthTarget) (ix : TuIndex) : Prop where
  visible : ∀ (k : Str) (g : Nat), ix.visible[k]? = some g → tu.key_of g = k
  defs : ∀ s ∈ ix.defs, ∃ f, tu.Sights f ∧ s = tu.make_facts t f
  seen : ∀ s ∈ ix.defs, ix.visible[s.key]?.isSome = true
  callers : ∀ e ∈ ix.invokes, ∃ d c, tu.make_facts t d ∈ ix.defs ∧ tu.Sights d ∧ tu.Calls d c ∧
    tu.key_of d = e.caller_key ∧ tu.key_of c = e.callee_key

/-- An index that another one goes on from. -/
structure TuIndex.Extends (ix ix' : TuIndex) : Prop where
  defs : ix.defs <+: ix'.defs
  invokes : ix.invokes <+: ix'.invokes

theorem TuIndex.Extends.refl (ix : TuIndex) : ix.Extends ix := ⟨prefix_rfl, prefix_rfl⟩

theorem TuIndex.Extends.trans {a b c : TuIndex} (h : a.Extends b) (h' : b.Extends c) :
    a.Extends c := ⟨h.defs.trans h'.defs, h.invokes.trans h'.invokes⟩

variable {ix : TuIndex}

theorem TuIndex.Faithful.record_sighting (h : ix.Faithful tu t) {f : Nat}
    (hf : tu.is_definition f = true → tu.Sights f) :
    (tu.record_sighting t ix f).Faithful tu t := by
  have hvisible : ∀ (k : Str) (g : Nat),
      (tu.record_visible_decl ix.visible (tu.key_of f) f)[k]? = some g → tu.key_of g = k := by
    intro k g hg
    rcases getElem?_record_visible_decl hg with hg | ⟨rfl, rfl⟩
    · exact h.visible k g hg
    · rfl
  have hseen : ∀ s ∈ ix.defs,
      (tu.record_visible_decl ix.visible (tu.key_of f) f)[s.key]?.isSome = true :=
    fun s hs => isSome_record_visible_decl _ _ _ _ (.inl (h.seen s hs))
  unfold Tu.record_sighting
  split
  · rename_i hnew
    rw [Bool.and_eq_true] at hnew
    refine ⟨hvisible, forall_mem_snoc.mpr ⟨h.defs, f, hf hnew.1, rfl⟩,
      forall_mem_snoc.mpr ⟨hseen, isSome_record_visible_decl _ _ _ _ (.inr rfl)⟩, fun e he => ?_⟩
    obtain ⟨d, c, hd, hcaller⟩ := h.callers e he
    exact ⟨d, c, mem_append_left _ hd, hcaller⟩
  · exact ⟨hvisible, h.defs, hseen, h.callers⟩

theorem Tu.extends_record_sighting (tu : Tu) (t : SynthTarget) (ix : TuIndex) (f : Nat) :
    ix.Extends (tu.record_sighting t ix f) := by
  unfold Tu.record_sighting
  split
  · exact ⟨prefix_append _ _, prefix_rfl⟩
  · exact ⟨prefix_rfl, prefix_rfl⟩

/-- An edge for each function that a list of invokes names. -/
def TuIndex.HasEdges (tu : Tu) (ix : TuIndex) (key : Str) (invokes : List InvokeExpr) : Prop :=
  ∀ inv ∈ invokes, ∀ c ∈ inv.callee, ∃ e ∈ ix.invokes, e.caller_key = key ∧
    e.callee_key = tu.key_of c

variable {ix' : TuIndex}

theorem TuIndex.HasEdges.mono {key : Str} {invokes : List InvokeExpr}
    (h : ix.HasEdges tu key invokes) (hext : ix.Extends ix') : ix'.HasEdges tu key invokes := by
  intro inv hinv c hc
  obtain ⟨e, he, hkeys⟩ := h inv hinv c hc
  exact ⟨e, hext.invokes.subset he, hkeys⟩

section Invokes

variable {d : Nat} (hsights : tu.Sights d)
include hsights

theorem TuIndex.Faithful.record_invoke (h : ix.Faithful tu t)
    (hcaller : tu.make_facts t d ∈ ix.defs) {inv : InvokeExpr}
    (hcalls : ∀ c ∈ inv.callee, tu.Calls d c) :
    (tu.record_invoke t (tu.make_facts t d) ix inv).Faithful tu t ∧
      ix.Extends (tu.record_invoke t (tu.make_facts t d) ix inv) ∧
      (tu.record_invoke t (tu.make_facts t d) ix inv).HasEdges tu (tu.key_of d) [inv] := by
  unfold Tu.record_invoke
  cases hcallee : inv.callee with
  | none =>
    refine ⟨h, .refl ix, ?_⟩
    intro inv' hinv' c hc
    obtain rfl := mem_singleton.mp hinv'
    rw [hcallee] at hc
    cases hc
  | some callee =>
    have hcall := hcalls callee hcallee
    have hs := h.record_sighting (.invoked hsights hcall)
    have hext := tu.extends_record_sighting t ix callee
    refine ⟨⟨hs.visible, hs.defs, hs.seen, forall_mem_snoc.mpr ⟨hs.callers, d, callee,
      hext.defs.subset hcaller, hsights, hcall, rfl, rfl⟩⟩, ⟨hext.defs, ?_⟩, ?_⟩
    · exact hext.invokes.trans (prefix_append _ _)
    · intro inv' hinv' c hc
      obtain rfl := mem_singleton.mp hinv'
      rw [hcallee] at hc
      cases hc
      exact ⟨_, mem_append_right _ (mem_singleton.mpr rfl), rfl, rfl⟩

theorem TuIndex.Faithful.record_invokes (h : ix.Faithful tu t)
    (hcaller : tu.make_facts t d ∈ ix.defs) {invokes : List InvokeExpr}
    (hcalls : ∀ inv ∈ invokes, ∀ c ∈ inv.callee, tu.Calls d c) :
    (invokes.foldl (tu.record_invoke t (tu.make_facts t d)) ix).Faithful tu t ∧
      ix.Extends (invokes.foldl (tu.record_invoke t (tu.make_facts t d)) ix) ∧
      (invokes.foldl (tu.record_invoke t (tu.make_facts t d)) ix).HasEdges tu (tu.key_of d)
        invokes := by
  induction invokes generalizing ix with
  | nil => exact ⟨h, .refl ix, fun _ hinv => absurd hinv not_mem_nil⟩
  | cons inv invokes ih =>
    obtain ⟨hhead, htail⟩ := forall_mem_cons.mp hcalls
    obtain ⟨h1, hext1, hedges1⟩ := h.record_invoke hsights hcaller hhead
    obtain ⟨h2, hext2, hedges2⟩ := ih h1 (hext1.defs.subset hcaller) htail
    refine ⟨h2, hext1.trans hext2, ?_⟩
    intro inv' hinv'
    rcases mem_cons.mp hinv' with rfl | hinv'
    · exact hedges1.mono hext2 inv' (mem_singleton.mpr rfl)
    · exact hedges2 inv' hinv'

end Invokes

/-- The definitions before a position, if they are upper tasks, have their edges. -/
def TuIndex.Recorded (tu : Tu) (ix : TuIndex) (i : Nat) : Prop :=
  ∀ j < i, ∀ s ∈ ix.defs[j]?, s.level = .kUpper →
    ∀ f, tu.key_of f = s.key → ix.HasEdges tu s.key (tu.get_invokes f)

variable {i : Nat}

theorem TuIndex.Recorded.mono (h : ix.Recorded tu i) (hext : ix.Extends ix')
    (hi : i ≤ ix.defs.length) : ix'.Recorded tu i := by
  intro j hj s hs hlevel f hf
  obtain ⟨rest, hrest⟩ := hext.defs
  rw [← hrest, getElem?_append_left (by omega)] at hs
  exact (h j hj s hs hlevel f hf).mono hext

variable {caller : DefSighting}

/-- The invokes that a turn of the loop records are those of its definition. -/
theorem TuIndex.Faithful.turn (h : ix.Faithful tu t) (hcaller : ix.defs[i]? = some caller) :
    (tu.record_invokes t ix caller).Faithful tu t ∧ ix.Extends (tu.record_invokes t ix caller) ∧
      (caller.level = .kUpper → ∃ g, tu.key_of g = caller.key ∧
        (tu.record_invokes t ix caller).HasEdges tu caller.key (tu.get_invokes g)) := by
  have hmem : caller ∈ ix.defs := mem_of_getElem? hcaller
  obtain ⟨d, hsights, rfl⟩ := h.defs caller hmem
  obtain ⟨g, hg⟩ := Option.isSome_iff_exists.mp (h.seen _ hmem)
  have hkey := h.visible _ g hg
  unfold Tu.record_invokes
  split
  · rename_i hupper
    rw [hg]
    obtain ⟨h', hext, hedges⟩ := h.record_invokes hsights hmem
      fun inv hinv c hc => ⟨hupper, g, hkey, inv, hinv, hc⟩
    exact ⟨h', hext, fun _ => ⟨g, hkey, hedges⟩⟩
  · rename_i hlower
    exact ⟨h, .refl ix, fun hupper => absurd hupper hlower⟩

/-- One turn of the loop over the sighted definitions. -/
theorem TuIndex.Recorded.step (hone : tu.OneDefinition) (h : ix.Faithful tu t)
    (hrec : ix.Recorded tu i) (hcaller : ix.defs[i]? = some caller) :
    (tu.record_invokes t ix caller).Recorded tu (i + 1) := by
  have hlt : i < ix.defs.length := (List.getElem?_eq_some_iff.mp hcaller).1
  obtain ⟨-, hext, hedges⟩ := h.turn hcaller
  intro j hj s hs hlevel f hf
  rcases Nat.lt_succ_iff_lt_or_eq.mp hj with hj | rfl
  · exact (hrec.mono hext (by omega)) j hj s hs hlevel f hf
  obtain ⟨rest, hrest⟩ := hext.defs
  rw [← hrest, getElem?_append_left hlt, hcaller] at hs
  cases hs
  obtain ⟨g, hg, hedges⟩ := hedges hlevel
  rw [hone.get_invokes_eq (hf.trans hg.symm)]
  exact hedges

/-- Every upper task that is sighted has its edges. -/
def TuIndex.Complete (tu : Tu) (ix : TuIndex) : Prop :=
  ∀ s ∈ ix.defs, s.level = .kUpper → ∀ f, tu.key_of f = s.key →
    ix.HasEdges tu s.key (tu.get_invokes f)

theorem TuIndex.Recorded.complete (h : ix.Recorded tu i) (hend : ix.defs[i]? = none) :
    ix.Complete tu := by
  intro s hs hlevel f hf
  obtain ⟨j, hj⟩ := List.getElem?_of_mem hs
  have hlt := (List.getElem?_eq_some_iff.mp hj).1
  have hle := List.getElem?_eq_none_iff.mp hend
  exact h j (by omega) s hj hlevel f hf

variable {fuel : Nat}

/-- What a turn keeps holds at the end of the loop over the sighted definitions. -/
theorem index_invokes_invariant {P : Nat → TuIndex → Prop} (hstep : ∀ i ix caller, P i ix →
    ix.defs[i]? = some caller → P (i + 1) (tu.record_invokes t ix caller)) (h : P i ix)
    (hrun : tu.index_invokes t fuel i ix = .ok ix') : ∃ j, P j ix' ∧ ix'.defs[j]? = none := by
  induction fuel generalizing i ix with
  | zero =>
    unfold Tu.index_invokes at hrun
    split at hrun
    · rename_i hend
      cases hrun
      exact ⟨i, h, hend⟩
    · cases hrun
  | succ fuel ih =>
    unfold Tu.index_invokes at hrun
    split at hrun
    · rename_i hend
      cases hrun
      exact ⟨i, h, hend⟩
    · rename_i caller hcaller
      exact ih (hstep i ix caller h hcaller) hrun

theorem faithful_visited (tu : Tu) (t : SynthTarget) :
    (tu.visited.foldl (tu.record_sighting t) ⟨∅, [], []⟩).Faithful tu t := by
  have hempty : TuIndex.Faithful tu t ⟨∅, [], []⟩ :=
    ⟨fun k g hg => by simp at hg, fun s hs => absurd hs not_mem_nil,
      fun s hs => absurd hs not_mem_nil,
      fun e he => absurd he not_mem_nil⟩
  exact List.foldlRecOn (motive := TuIndex.Faithful tu t) tu.visited
    (tu.record_sighting t) hempty fun ix hix f hf => hix.record_sighting (.visited hf)

/-- The sightings of a unit are of definitions. -/
theorem index_tu_impl_faithful (h : tu.index_tu_impl fuel t = .ok ix) : ix.Faithful tu t := by
  have hinv := index_invokes_invariant (P := fun _ ix => ix.Faithful tu t) ?_
    (faithful_visited tu t) h
  · exact hinv.choose_spec.1
  · intro i ix caller hix hcaller
    exact (hix.turn hcaller).1

/-- The index of a unit: its sightings are of definitions, and its upper tasks have their
edges. -/
theorem index_tu_impl_sound (hone : tu.OneDefinition) (h : tu.index_tu_impl fuel t = .ok ix) :
    ix.Faithful tu t ∧ ix.Complete tu := by
  have hinv := index_invokes_invariant (P := fun i ix => ix.Faithful tu t ∧ ix.Recorded tu i) ?_
    ⟨faithful_visited tu t, fun j hj => absurd hj (Nat.not_lt_zero j)⟩ h
  · obtain ⟨j, ⟨hfaithful, hrec⟩, hend⟩ := hinv
    exact ⟨hfaithful, hrec.complete hend⟩
  · rintro i ix caller ⟨hix, hrec⟩ hcaller
    exact ⟨(hix.turn hcaller).1, hrec.step hone hix hcaller⟩

end Unit

/-! ## The shared index -/

/-- The sightings of a key, in the order of the units. -/
def Index.sightings (b : Index) (key : Str) : List DefSighting :=
  (b.defs[key]?.map Sightings.all).getD []

theorem Index.sightings_push_sighting (b : Index) (s : DefSighting) (key : Str) :
    ({ b with defs := push_sighting b.defs s } : Index).sightings key =
      b.sightings key ++ if s.key = key then [s] else [] := by
  unfold sightings push_sighting
  cases hs : b.defs[s.key]? <;> simp only [get_insert] <;> by_cases heq : s.key = key
  all_goals first | (subst heq; simp [hs, Sightings.all]) | simp [heq]

/-- A sighting and an edge under the number of their unit. -/
def DefSighting.placed (i : Nat) (s : DefSighting) : DefSighting := { s with tu := i }

def InvokeEdge.placed (i : Nat) (e : InvokeEdge) : InvokeEdge := { e with tu := i }

def TuIndex.sightings (ix : TuIndex) (key : Str) : List DefSighting :=
  ix.defs.filter (·.key = key)

theorem Index.sightings_add (b : Index) (file : Str) (ix : TuIndex) (key : Str) :
    (b.add file ix).sightings key = b.sightings key ++
      (ix.sightings key).map (DefSighting.placed (register_tu b.tu_files file).1) := by
  have hgen : ∀ (l : List DefSighting) (defs : BTreeMap Str Sightings),
      ({ b with defs := l.foldl push_sighting defs } : Index).sightings key =
        ({ b with defs := defs } : Index).sightings key ++ l.filter (·.key = key) := by
    intro l
    induction l with
    | nil => simp
    | cons s l ih =>
      intro defs
      rw [foldl_cons, ih]
      have hpush := ({ b with defs := defs } : Index).sightings_push_sighting s key
      rw [hpush]
      by_cases heq : s.key = key <;> simp [heq]
  refine (hgen _ b.defs).trans ?_
  rw [filter_map]
  rfl

/-- The shared index is that of the units, one after the other. -/
structure Index.Gathers (b : Index) (files : List Str) (indexes : List TuIndex) : Prop where
  files : b.tu_files = files
  sightings : ∀ key, b.sightings key = indexes.zipIdx.flatMap fun p =>
    (p.1.sightings key).map (DefSighting.placed p.2)
  edges : b.edges = indexes.zipIdx.flatMap fun p => p.1.invokes.map (InvokeEdge.placed p.2)

variable {b : Index}

/-- A sighting of the shared index is one of a unit. -/
theorem Index.Gathers.sighting {files : List Str} {indexes : List TuIndex}
    (h : b.Gathers files indexes) {key : Str} {s : Sightings} (hs : b.defs[key]? = some s)
    {x : DefSighting} (hx : x ∈ s.all) : ∃ (i : Nat) (ix : TuIndex) (y : DefSighting),
      indexes[i]? = some ix ∧ y ∈ ix.defs ∧ y.key = key ∧ x = y.placed i := by
  have hmem : x ∈ b.sightings key := by
    rw [Index.sightings, hs]
    exact hx
  rw [h.sightings, mem_flatMap] at hmem
  obtain ⟨⟨ix, i⟩, hix, hmem⟩ := hmem
  obtain ⟨y, hy, rfl⟩ := mem_map.mp hmem
  obtain ⟨hy, hkey⟩ := mem_filter.mp hy
  exact ⟨i, ix, y, mem_zipIdx_iff_getElem?.mp hix, hy, of_decide_eq_true hkey, rfl⟩

/-- A sighting of a unit is one of the shared index. -/
theorem Index.Gathers.sights {files : List Str} {indexes : List TuIndex}
    (h : b.Gathers files indexes) {i : Nat} {ix : TuIndex} (hix : indexes[i]? = some ix)
    {y : DefSighting} (hy : y ∈ ix.defs) :
    ∃ s, b.defs[y.key]? = some s ∧ y.placed i ∈ s.all := by
  have hmem : y.placed i ∈ b.sightings y.key := by
    rw [h.sightings, mem_flatMap]
    exact ⟨(ix, i), mem_zipIdx_iff_getElem?.mpr hix,
      mem_map_of_mem (mem_filter.mpr ⟨hy, decide_eq_true rfl⟩)⟩
  unfold Index.sightings at hmem
  cases hs : b.defs[y.key]? with
  | none =>
    rw [hs] at hmem
    exact absurd hmem not_mem_nil
  | some s =>
    rw [hs] at hmem
    exact ⟨s, rfl, hmem⟩

/-- An edge of the shared index is one of a unit. -/
theorem Index.Gathers.edge {files : List Str} {indexes : List TuIndex}
    (h : b.Gathers files indexes) {e : InvokeEdge} (he : e ∈ b.edges) :
    ∃ (i : Nat) (ix : TuIndex) (e' : InvokeEdge), indexes[i]? = some ix ∧ e' ∈ ix.invokes ∧
      e = e'.placed i := by
  rw [h.edges, mem_flatMap] at he
  obtain ⟨⟨ix, i⟩, hix, he⟩ := he
  obtain ⟨e', he', rfl⟩ := mem_map.mp he
  exact ⟨i, ix, e', mem_zipIdx_iff_getElem?.mp hix, he', rfl⟩

theorem register_tu_of_notMem {tu_files : List Str} {file : Str} (h : file ∉ tu_files) :
    register_tu tu_files file = (tu_files.length, tu_files ++ [file]) := by
  unfold register_tu find_tu
  rw [if_neg h]

theorem Index.Gathers.add {files : List Str} {indexes : List TuIndex}
    (h : b.Gathers files indexes) (hlength : files.length = indexes.length) {file : Str}
    (hfile : file ∉ files) (ix : TuIndex) : (b.add file ix).Gathers (files ++ [file])
      (indexes ++ [ix]) := by
  have hregister : register_tu b.tu_files file = (indexes.length, files ++ [file]) := by
    rw [h.files, register_tu_of_notMem hfile, hlength]
  refine ⟨?_, ?_, ?_⟩
  · simp [Index.add, hregister]
  · intro key
    rw [Index.sightings_add, h.sightings, hregister, zipIdx_append]
    simp
  · simp only [Index.add, hregister, h.edges, zipIdx_append, flatMap_append]
    simp only [zipIdx_cons, zipIdx_nil, flatMap_cons, flatMap_nil,
      append_nil, Nat.zero_add]
    rfl

/-- Indexing the units gathers their indexes, when no two of them have the same file. -/
theorem index_tus_eq_ok {fuel : Nat} {o : Options} {tus : List Tu}
    (hfiles : (tus.map (·.file)).Nodup) (h : index_tus fuel o tus = .ok b) :
    ∃ indexes, List.Forall₂ (fun tu ix => Tu.index_tu_impl tu fuel o.default_target = .ok ix)
      tus indexes ∧ b.Gathers (tus.map (·.file)) indexes := by
  refine foldlM_invariant (P := fun ys b => ∃ indexes,
    List.Forall₂ (fun tu ix => Tu.index_tu_impl tu fuel o.default_target = .ok ix) ys indexes ∧
      b.Gathers (ys.map (·.file)) indexes) h
    ⟨[], .nil, ⟨rfl, fun key => by simp [Index.sightings], rfl⟩⟩ ?_
  rintro ys tu b b' hpre ⟨indexes, hindexes, hgathers⟩ hstep
  obtain ⟨ix, hix, hb'⟩ := bind_eq_ok.mp hstep
  cases hb'
  have hfresh : tu.file ∉ ys.map (·.file) := by
    have hnodup : ((ys ++ [tu]).map (·.file)).Nodup :=
      hfiles.sublist (hpre.sublist.map _)
    rw [map_append, nodup_append] at hnodup
    exact fun hmem => hnodup.2.2 _ hmem _ (by simp) rfl
  refine ⟨indexes ++ [ix], rel_append hindexes (.cons hix .nil), ?_⟩
  rw [map_append]
  exact hgathers.add (by simpa using hindexes.length_eq) hfresh ix

end Tapa.Merge
