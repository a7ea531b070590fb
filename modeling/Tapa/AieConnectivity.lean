-- The derivation as a whole: its streams are those of the FIFOs that AI Engine tasks
-- touch, its kernels the leaves below them. The streams follow the bindings just when
-- no upper task on the way lists the FIFO of one of its own ports.
import Tapa.AieTraversal

namespace Tapa.AiEngine

open Ir Text Fallible List Std.ExtTreeMap

namespace Graph

variable {g : Graph}

/-! ## Invocations by the top -/

theorem is_scalar_not_stream {cat : ArgCategory} (h : cat.is_stream = true) :
    cat.is_scalar = false := by
  cases cat <;> first | rfl | cases h

variable {name : Str}

theorem StreamOf.of_top_stream {child port : Str} {fifo : InterconnectDefinition}
    {stream : AieStream} (h : top_stream g child port name fifo = .ok stream) :
    g.StreamOf ([], name) stream := by
  obtain ⟨words, _, h⟩ := bind_eq_ok.mp h
  obtain ⟨definition, _, h⟩ := bind_eq_ok.mp h
  have hmake {kind : AieStreamKind} (hs : stream =
      { name := sanitize_identifier_name name
        fifo := name
        words := words
        frame := port_frame g child definition port
        kind := kind }) : g.StreamOf ([], name) stream := by
    subst hs
    exact ⟨rfl, rfl, fun _ => rfl⟩
  simp only at h
  split at h
  · exact hmake (Except.ok.inj h).symm
  · split at h
    · cases h
    · exact hmake (Except.ok.inj h).symm

variable (g) in
/-- The arguments `ys` of an invocation by the top are bound. -/
structure TopBound (b : Builder) (s : EndpointRef) (ys : List (Str × Arg))
    (state : BTreeMap Str Binding × Builder) : Prop where
  inv : g.Inv state.2
  grows : b.Extends state.2 (· = [])
  sound : ∀ (c : Str) (t : Nat), state.1[c]? = some (.Stream t) →
    t < state.2.sources.length ∧ g.stands state.2.sources t = g.reach [s] c
  complete : ∀ c arg, (c, arg) ∈ ys → (g.reach [s] c).isSome → ∃ t, state.1[c]? = some (.Stream t)
  used : ∀ c arg, (c, arg) ∈ ys → ∀ name, g.bound [s] c = some name → ([], name) ∈ state.2.sources

variable {b : Builder} {s : EndpointRef} {ys : List (Str × Arg)} {c : Str}

/-- A binding that is no stream leaves the builder as it is. -/
theorem TopBound.scalar {scope : BTreeMap Str Binding} {b1 : Builder}
    (h : g.TopBound b s ys (scope, b1)) (arg : Arg) (hbound : g.bound [s] c = none)
    (value : ScalarBinding) :
    g.TopBound b s (ys ++ [(c, arg)]) (scope.insert c (.Scalar value), b1) where
  inv := h.inv
  grows := h.grows
  sound := by
    intro c' t hc
    rcases get_insert_eq_some.mp hc with ⟨_, hc⟩ | ⟨_, hc⟩
    · cases hc
    · exact h.sound c' t hc
  complete := by
    intro c' arg' hmem hsome
    rw [get_insert]
    have hne : c ≠ c' := by
      rintro rfl
      simp [reach, hbound] at hsome
    rw [if_neg hne]
    refine h.complete c' arg' ((mem_snoc.mp hmem).resolve_right fun heq => hne ?_) hsome
    exact (Prod.mk.inj heq).1.symm
  used := by
    intro c' arg' hmem name hname
    rcases mem_snoc.mp hmem with hmem | hmem
    · exact h.used c' arg' hmem name hname
    · cases hmem
      cases hbound.symm.trans hname

/-- A port that is bound to the stream of a FIFO of the top. -/
theorem TopBound.stream {scope : BTreeMap Str Binding} {b1 b2 : Builder}
    (h : g.TopBound b s ys (scope, b1)) (arg : Arg) (hbound : g.bound [s] c = some name)
    (hinv : g.Inv b2) (hgrows : b1.sources <+: b2.sources) (hb2 : b.Extends b2 (· = [])) {t : Nat}
    (ht : b2.sources[t]? = some ([], name)) :
    g.TopBound b s (ys ++ [(c, arg)]) (scope.insert c (.Stream t), b2) where
  inv := hinv
  grows := hb2
  sound := by
    intro c' u hc
    rcases get_insert_eq_some.mp hc with ⟨rfl, ⟨⟩⟩ | ⟨_, hc⟩
    · obtain ⟨hlt, _⟩ := List.getElem?_eq_some_iff.mp ht
      refine ⟨hlt, ?_⟩
      rw [stands, ht, reach, hbound]
      rfl
    · obtain ⟨hlt, hstands⟩ := h.sound c' u hc
      obtain ⟨more, hmore⟩ := hgrows
      simp only at hlt hstands ⊢
      rw [← hmore, stands_of_append hlt, length_append]
      exact ⟨by omega, hstands⟩
  complete := by
    intro c' arg' hmem hsome
    rw [get_insert]
    split
    · exact ⟨t, rfl⟩
    · rename_i hne
      refine h.complete c' arg' ((mem_snoc.mp hmem).resolve_right fun heq => hne ?_) hsome
      exact (Prod.mk.inj heq).1.symm
  used := by
    intro c' arg' hmem n hn
    rcases mem_snoc.mp hmem with hmem | hmem
    · exact hgrows.subset (h.used c' arg' hmem n hn)
    · cases hmem
      obtain rfl := Option.mem_unique hbound hn
      exact mem_of_getElem? ht

theorem Inv.push_top (h : g.Inv b) {stream : AieStream} (hstream : g.StreamOf ([], name) stream)
    (his : g.IsStream ([], name)) (hdeclares : g.declares [] name = true)
    (hnew : b.top_streams[name]? = none) :
    g.Inv { b.push_stream ([], name) stream with
      top_streams := b.top_streams.insert name b.partition.streams.length } := by
  have hfresh : ([], name) ∉ b.sources := by
    intro hin
    obtain ⟨t, ht⟩ := mem_iff_getElem?.mp hin
    rw [(h.top name t).mpr ht] at hnew
    cases hnew
  refine h.push_stream hstream hfresh his ?_ (fun _ => hdeclares) (fun _ hne => absurd rfl hne)
  intro n t
  rw [get_insert, getElem?_snoc_eq_some, ← h.top]
  by_cases hn : name = n
  · subst hn
    rw [if_pos rfl, hnew, h.sources_length]
    simp [eq_comm]
  · rw [if_neg hn]
    simp [Ne.symm hn]

variable {top : Task}

theorem TopBound.step {inst : TaskInstance} (htop : g.task_at [] = some top)
    (haie : is_aie g s.1 = true) (hinst : g.inst_at [s] = some inst) {arg : Arg}
    (harg : inst.args[c]? = some arg) {state state' : BTreeMap Str Binding × Builder}
    (h : g.TopBound b s ys state) (hstep : bind_top_arg g top s.1 state (c, arg) = .ok state') :
    g.TopBound b s (ys ++ [(c, arg)]) state' := by
  obtain ⟨scope, b1⟩ := state
  obtain ⟨⟨binding, b2⟩, hbind, hstep⟩ := bind_eq_ok.mp hstep
  cases hstep
  have hbound : g.bound [s] c = if arg.cat.is_stream then arg.name else none := by
    cases hcat : arg.cat.is_stream <;> simp [bound, hinst, harg, hcat]
  unfold top_binding at hbind
  cases hsrc : arg.arg with
  | Literal value =>
    simp only [hsrc, Except.ok.injEq, Prod.mk.injEq] at hbind
    obtain ⟨rfl, rfl⟩ := hbind
    refine h.scalar arg ?_ _
    rw [hbound, Arg.name, hsrc]
    split <;> rfl
  | Name name =>
    simp only [hsrc] at hbind
    by_cases hscalar : arg.cat.is_scalar = true
    · simp only [hscalar, if_true, Except.ok.injEq, Prod.mk.injEq] at hbind
      obtain ⟨rfl, rfl⟩ := hbind
      refine h.scalar arg ?_ _
      rw [hbound, if_neg]
      intro hstream
      rw [is_scalar_not_stream hstream] at hscalar
      cases hscalar
    · rw [if_neg hscalar] at hbind
      by_cases hstream : arg.cat.is_stream = true
      · rw [if_pos hstream] at hbind
        have hname : g.bound [s] c = some name := by rw [hbound, if_pos hstream, Arg.name, hsrc]
        cases hused : b1.top_streams[name]? with
        | some index =>
          simp only [hused, Except.ok.injEq, Prod.mk.injEq] at hbind
          obtain ⟨rfl, rfl⟩ := hbind
          exact h.stream arg hname h.inv prefix_rfl h.grows ((h.inv.top name index).mp hused)
        | none =>
          simp only [hused] at hbind
          cases hfifo : (top.fifos[name]?).filter fun fifo => fifo.depth.isSome with
          | none =>
            simp only [hfifo] at hbind
            cases hbind
          | some fifo =>
            simp only [hfifo] at hbind
            obtain ⟨stream, hmake, hbind⟩ := bind_eq_ok.mp hbind
            obtain ⟨rfl, rfl⟩ := hbind
            have hdeclares : g.declares [] name = true := by
              obtain ⟨hget, hdepth⟩ := Option.filter_eq_some_iff.mp hfifo
              simp [declares, fifo_at, htop, hget, hdepth]
            have hpush := h.grows.push_stream (p := []) rfl name stream
            refine h.stream arg hname
              (h.inv.push_top (.of_top_stream hmake) (.top haie hname) hdeclares hused)
              (prefix_append _ _) ⟨hpush.sources, hpush.keeps, hpush.adds⟩ ?_
            exact getElem?_snoc_eq_some.mpr (.inr ⟨h.inv.sources_length.symm, rfl⟩)
      · rw [if_neg hstream] at hbind
        cases hbind

variable (g) in
/-- Everything below the invocations of the top that are done has been made. -/
structure TopCollected (b : Builder) (done : EndpointRef → Prop) : Prop where
  inv : g.Inv b
  only : ∀ x, b.Has x → x.path = [] ∨ ∃ y, done y ∧ [y] <:+ x.path
  all : ∀ x y, done y → [y] <:+ x.path → g.Due x → b.Has x
  used : ∀ y, done y → ∀ c name, g.bound [y] c = some name → ([], name) ∈ b.sources

variable {done : EndpointRef → Prop}

theorem TopCollected.congr {done' : EndpointRef → Prop} (h : g.TopCollected b done)
    (heq : ∀ y, done' y ↔ done y) : g.TopCollected b done' := by
  rwa [show done' = done from funext fun y => propext (heq y)]

variable {fuel : Nat}

/-- One more invocation of the top. -/
theorem TopCollected.visit {b' : Builder} {inst : TaskInstance} (htop : g.task_at [] = some top)
    (haie : is_aie g s.1 = true) (hinst : g.inst_at [s] = some inst) (hnew : ¬done s)
    (h : g.TopCollected b done) (hrun : visit_top g fuel top s.1 b (inst, s.2) = .ok b') :
    g.TopCollected b' fun y => done y ∨ y = s := by
  obtain ⟨run_forever, _, hrun⟩ := bind_eq_ok.mp hrun
  obtain ⟨⟨scope, b1⟩, hargs, hrun⟩ := bind_eq_ok.mp hrun
  have hbound := foldlM_invariant (P := fun ys state => g.TopBound b s ys state) hargs
    ⟨h.inv.set_run_forever run_forever, ⟨prefix_rfl, fun _ hx => hx, fun _ hx => .inl hx⟩, by simp,
      by simp, by simp⟩ (by
    rintro ys ⟨c, arg⟩ state state' hys hmade hstep
    have hmem : (c, arg) ∈ inst.args.toList := hys.subset (by simp)
    exact hmade.step htop haie hinst (mem_toList_iff_getElem?_eq_some.mp hmem) hstep)
  have hscope : g.ScopeOf b1.sources [s] scope := by
    refine ⟨hbound.sound, fun c hc => ?_⟩
    obtain ⟨e, he⟩ := Option.isSome_iff_exists.mp hc
    obtain ⟨name, hname, _⟩ := Option.bind_eq_some_iff.mp he
    simp only [bound, hinst, Option.bind_eq_bind, Option.bind_some] at hname
    obtain ⟨arg, harg, _⟩ := Option.bind_eq_some_iff.mp hname
    exact hbound.complete c arg (mem_toList_iff_getElem?_eq_some.mpr harg) hc
  have hfresh : Fresh b1 [s] := by
    intro x hx hsuffix
    have hpath := ne_nil_of_suffix (cons_ne_nil s []) hsuffix
    rcases hbound.grows.adds x hx with hx | hnil
    · rcases h.only x hx with hnil | ⟨y, hy, hbelow⟩
      · exact hpath hnil
      · exact hnew (suffix_child_inj hbelow hsuffix ▸ hy)
    · exact hpath hnil
  have hpath : sanitize_identifier_name (inst.canonical_name s.1 s.2) = g.spelled [s] := by
    simp [spelled, TaskGraph.canonical_at, hinst]
  simp only [hpath] at hrun
  have hcol := visit_collects fuel hrun hbound.inv (.invoke haie (by rw [hinst]; rfl)) hscope hfresh
  have hgrow := hbound.grows.trans hcol.toExtends
  refine ⟨hcol.inv, ?_, ?_, ?_⟩
  · intro x hx
    rcases hgrow.adds x hx with hx | hnil | hbelow
    · rcases h.only x hx with hnil | ⟨y, hy, hbelow⟩
      · exact .inl hnil
      · exact .inr ⟨y, .inl hy, hbelow⟩
    · exact .inl hnil
    · exact .inr ⟨s, .inr rfl, hbelow⟩
  · rintro x y (hy | rfl) hsuffix hdue
    · exact hgrow.keeps x (h.all x y hy hsuffix hdue)
    · exact hcol.all x hdue hsuffix
  · rintro y (hy | rfl) c name hname
    · exact hgrow.sources.subset (h.used y hy c name hname)
    · have hname' := hname
      simp only [bound, hinst, Option.bind_eq_bind, Option.bind_some] at hname'
      obtain ⟨arg, harg, _⟩ := Option.bind_eq_some_iff.mp hname'
      exact hcol.sources.subset (hbound.used c arg
        (mem_toList_iff_getElem?_eq_some.mpr harg) name hname)

theorem TopCollected.visit_definition {b' : Builder} {child : Str} {instances : List TaskInstance}
    (htop : g.task_at [] = some top) (hchild : top.tasks[child]? = some instances)
    (hnew : ∀ i, ¬done (child, i)) (h : g.TopCollected b done)
    (hrun : visit_definition g fuel top b (child, instances) = .ok b') :
    g.TopCollected b' fun y => done y ∨
      (is_aie g child = true ∧ y.1 = child ∧ y.2 < instances.length) := by
  obtain ⟨_, _, hrun⟩ := bind_eq_ok.mp hrun
  by_cases haie : is_aie g child = true
  · rw [if_neg (by simp [haie])] at hrun
    have hloop := foldlM_invariant
      (P := fun (ys : List (TaskInstance × Nat)) b => g.TopCollected b fun y =>
        done y ∨ y.1 = child ∧ y.2 < ys.length) hrun (h.congr (by simp)) (by
      rintro ys ⟨inst, index⟩ b1 b2 hys hcol hstep
      obtain ⟨hget, rfl⟩ := zipIdx_turn hys
      rw [Nat.zero_add] at hstep
      have hinst : g.inst_at [(child, ys.length)] = some inst := by
        simp [TaskGraph.inst_at, htop, hchild, hget]
      refine (hcol.visit htop haie hinst ?_ hstep).congr ?_
      · rintro (hd | ⟨_, hlt⟩)
        · exact hnew _ hd
        · exact absurd hlt (Nat.lt_irrefl _)
      · rintro ⟨d, i⟩
        simp only [length_append, length_singleton, Prod.mk.injEq, or_assoc]
        refine or_congr Iff.rfl ?_
        constructor
        · rintro ⟨rfl, hlt⟩
          by_cases hi : i = ys.length
          · exact .inr ⟨rfl, hi⟩
          · exact .inl ⟨rfl, by omega⟩
        · rintro (⟨rfl, hlt⟩ | ⟨rfl, rfl⟩)
          · exact ⟨rfl, by omega⟩
          · exact ⟨rfl, by omega⟩)
    refine hloop.congr fun y => ?_
    simp [haie]
  · rw [if_pos (by simp [haie])] at hrun
    cases hrun
    exact h.congr (by simp [haie])

/-! ## The derivation -/

variable (g) in
/-- A builder that holds exactly the streams and the leaves of a graph. -/
structure Derived (b : Builder) : Prop where
  inv : g.Inv b
  sources : ∀ source, source ∈ b.sources ↔ g.IsStream source
  leaves : ∀ q, q ∈ b.leaves ↔ g.Visited q ∧ g.level_at q = some .Lower

theorem Visited.root {q : Path} (h : g.Visited q) :
    ∃ y, is_aie g y.1 = true ∧ (g.inst_at [y]).isSome ∧ [y] <:+ q := by
  induction h with
  | @invoke s haie hinst => exact ⟨s, haie, hinst, suffix_refl _⟩
  | descend hp hup hinst ih =>
    obtain ⟨y, haie, hy, hsuffix⟩ := ih
    exact ⟨y, haie, hy, hsuffix.trans (suffix_cons _ _)⟩

variable {α : Type}

theorem forall₂_zipIdx_map {β : Type} {R : α → β → Prop} {f : β × Nat → β}
    (hf : ∀ a x i, R a x → R a (f (x, i))) {l : List α} {m : List β} (h : List.Forall₂ R l m)
    (n : Nat) : List.Forall₂ R l ((m.zipIdx n).map f) := by
  induction h generalizing n with
  | nil => exact .nil
  | cons hax _ ih =>
    exact .cons (hf _ _ _ hax) (ih (n + 1))

/-- Marking cycles changes neither names nor streams. -/
theorem Inv.mark_cycles (h : g.Inv b) (top : Task) :
    g.Inv { b with partition := mark_cycles g top b.partition } where
  streams := h.streams
  kernels := forall₂_zipIdx_map (fun _ _ _ hk => ⟨hk.name, hk.streams⟩) h.kernels 0
  top := h.top
  declared := h.declared
  sources_nodup := h.sources_nodup
  leaves_nodup := h.leaves_nodup
  is_stream := h.is_stream
  is_leaf := h.is_leaf
  repeats := h.repeats

theorem derived_of_ok (h : derive_with_origins fuel g = .ok (some b)) : g.Derived b := by
  unfold derive_with_origins at h
  split at h
  · cases h
  obtain ⟨top, htop, h⟩ := bind_eq_ok.mp h
  obtain ⟨_, _, h⟩ := bind_eq_ok.mp h
  obtain ⟨b0, hloop, h⟩ := bind_eq_ok.mp h
  obtain ⟨_, _, h⟩ := bind_eq_ok.mp h
  obtain rfl := Option.some.inj (Except.ok.inj h)
  have htask : g.task_at [] = some top := task_eq_ok.mp htop
  have hall := foldlM_invariant
    (P := fun (ys : List (Str × List TaskInstance)) b => g.TopCollected b fun y =>
      ∃ x ∈ ys, is_aie g x.1 = true ∧ y.1 = x.1 ∧ y.2 < x.2.length) hloop
    ⟨Inv.start, fun x hx => (by cases x <;> cases hx), by simp, by simp⟩ (by
    rintro ys ⟨child, instances⟩ b1 b2 hys hcol hstep
    have hmem : (child, instances) ∈ top.tasks.toList := hys.subset (by simp)
    have hchild := mem_toList_iff_getElem?_eq_some.mp hmem
    refine (hcol.visit_definition htask hchild ?_ hstep).congr ?_
    · rintro i ⟨x, hx, _, heq, _⟩
      exact toList_key_new hys x hx heq.symm
    · intro y
      simp [or_and_right, exists_or])
  -- What is done at the end is every invocation of an AI Engine task.
  have hdone (y : EndpointRef) : (∃ x ∈ top.tasks.toList, is_aie g x.1 = true ∧ y.1 = x.1 ∧
      y.2 < x.2.length) ↔ is_aie g y.1 = true ∧ (g.inst_at [y]).isSome := by
    constructor
    · rintro ⟨⟨child, instances⟩, hx, haie, hy, hlt⟩
      refine ⟨hy ▸ haie, ?_⟩
      have hget := mem_toList_iff_getElem?_eq_some.mp hx
      simp [TaskGraph.inst_at, htask, hy, hget, hlt]
    · rintro ⟨haie, hinst⟩
      obtain ⟨inst, hinst⟩ := Option.isSome_iff_exists.mp hinst
      simp only [TaskGraph.inst_at, htask, Option.bind_eq_bind, Option.bind_some] at hinst
      obtain ⟨instances, hget, hidx⟩ := Option.bind_eq_some_iff.mp hinst
      obtain ⟨hlt, _⟩ := List.getElem?_eq_some_iff.mp hidx
      exact ⟨(y.1, instances), mem_toList_iff_getElem?_eq_some.mpr hget, haie, rfl,
        hlt⟩
  refine ⟨hall.inv.mark_cycles top, fun source => ⟨hall.inv.is_stream source, ?_⟩,
    fun q => ⟨hall.inv.is_leaf q, ?_⟩⟩
  · intro his
    cases his with
    | @top s port name haie hbound =>
      refine hall.used s ((hdone s).mpr ⟨haie, ?_⟩) port name hbound
      obtain ⟨inst, hinst, _⟩ := Option.bind_eq_some_iff.mp hbound
      rw [hinst]
      rfl
    | @net p name hp hup hend =>
      obtain ⟨y, haie, hy, hsuffix⟩ := hp.root
      exact hall.all (.stream p name) y ((hdone y).mpr ⟨haie, hy⟩) hsuffix (.net hp hup hend)
  · intro hleaf
    obtain ⟨y, haie, hy, hsuffix⟩ := hleaf.1.root
    exact hall.all (.kernel q) y ((hdone y).mpr ⟨haie, hy⟩) hsuffix hleaf

/-! ## Following the bindings -/

variable (g) in
/-- The streams follow the bindings: two kernel ports have one stream just when they
reach one FIFO, a kernel port has the stream of a PLIO just when it reaches the FIFO of
that PLIO, and every stream stands for a FIFO that no other stream stands for. -/
structure FollowsBindings (b : Builder) : Prop where
  ports : ∀ (i j : Nat) (p q : Path) (k k' : AieKernel), b.leaves[i]? = some p →
    b.partition.kernels[i]? = some k → b.leaves[j]? = some q → b.partition.kernels[j]? = some k' →
    ∀ c t d u, (c, t) ∈ k.channels → (d, u) ∈ k'.channels → (t = u ↔ g.reach p c = g.reach q d)
  plio : ∀ (i : Nat) (p : Path) (k : AieKernel), b.leaves[i]? = some p →
    b.partition.kernels[i]? = some k → ∀ c t, (c, t) ∈ k.channels →
    ∀ (u : Nat) (stream : AieStream), b.partition.streams[u]? = some stream →
    stream.is_plio = true → (t = u ↔ g.reach p c = some ([], stream.fifo))
  once : ∀ u < b.partition.streams.length,
    ∃ e, g.stands b.sources u = some e ∧ ∀ v, g.stands b.sources v = some e → v = u

theorem forall₂_getElem? {β : Type} {R : α → β → Prop} {l : List α} {m : List β}
    (h : List.Forall₂ R l m) {i : Nat} {a : α} {x : β} (ha : l[i]? = some a) (hx : m[i]? = some x) :
    R a x := by
  obtain ⟨hi, rfl⟩ := List.getElem?_eq_some_iff.mp ha
  obtain ⟨hj, rfl⟩ := List.getElem?_eq_some_iff.mp hx
  exact (List.forall₂_iff_get.mp h).2 i hi hj

/-- Where no upper task lists a port, a stream stands for the FIFO that it was made for. -/
theorem Derived.stands_eq (h : g.Derived b)
    (hnone : ∀ q name, g.Visited q → g.level_at q = some .Upper → g.lists_port q name = false)
    (u : Nat) : g.stands b.sources u = b.sources[u]? := by
  unfold stands
  cases hu : b.sources[u]? with
  | none => rfl
  | some source =>
    obtain ⟨p, name⟩ := source
    have hmem := mem_of_getElem? hu
    by_cases hp : p = []
    · subst hp
      exact follow_of_declares (h.inv.declared name hmem)
    obtain ⟨hv, hup, hend⟩ := (h.inv.is_stream _ hmem).visited hp
    have hnot := hnone p name hv hup
    obtain ⟨fifo, hf, hend⟩ := (Option.any_eq_true _ _).mp hend
    refine follow_of_declares ?_
    rw [lists_port, hf, Option.any_some, hend] at hnot
    rw [declares, hf, Option.any_some, hend, Bool.or_true]
    cases hd : fifo.depth with
    | none =>
      rw [hd] at hnot
      cases hnot
    | some d => rfl

theorem Derived.follows_bindings_iff (h : g.Derived b) : g.FollowsBindings b ↔
    ∀ q name, g.Visited q → g.level_at q = some .Upper → g.lists_port q name = false := by
  have hlen := h.inv.sources_length
  constructor
  · intro hfollows q name hq hup
    by_contra hlists
    rw [Bool.not_eq_false] at hlists
    have hend : (g.fifo_at q name).any has_end = true := by
      obtain ⟨fifo, hf, hport⟩ := (Option.any_eq_true _ _).mp hlists
      rw [hf, Option.any_some]
      exact (Bool.and_eq_true_iff.mp hport).2
    obtain ⟨u, hu⟩ := mem_iff_getElem?.mp ((h.sources _).mpr (.net hq hup hend))
    obtain ⟨hlt, _⟩ := List.getElem?_eq_some_iff.mp hu
    obtain ⟨e, he, honly⟩ := hfollows.once u (by omega)
    have hstands : g.stands b.sources u = g.follow q name := by
      rw [stands, hu]
      rfl
    rcases h.inv.repeats u q name hu hlists hq.ne_nil with hnone | ⟨t, ht, heq⟩
    · rw [hstands, hnone] at he
      cases he
    · have := honly t (heq.trans (hstands.symm.trans he))
      omega
  · intro hnone
    have hstands := h.stands_eq hnone
    -- A stream is known by the FIFO that it was made for.
    have hinj {t u : Nat} (ht : t < b.sources.length)
        (heq : b.sources[t]? = b.sources[u]?) : t = u :=
      (getElem?_inj ht h.inv.sources_nodup).mp heq
    refine ⟨?_, ?_, ?_⟩
    · intro i j p q k k' hp hk hq hk' c t d u hct hdu
      obtain ⟨ht, htreach⟩ := (forall₂_getElem? h.inv.kernels hp hk).streams c t hct
      obtain ⟨hu, hureach⟩ := (forall₂_getElem? h.inv.kernels hq hk').streams d u hdu
      rw [← htreach, ← hureach, hstands, hstands]
      constructor
      · rintro rfl
        rfl
      · exact hinj ht
    · intro i p k hp hk c t hct u stream hu hplio
      obtain ⟨ht, htreach⟩ := (forall₂_getElem? h.inv.kernels hp hk).streams c t hct
      obtain ⟨hlt, _⟩ := List.getElem?_eq_some_iff.mp hu
      obtain ⟨source, hsource⟩ : ∃ source, b.sources[u]? = some source :=
        ⟨_, getElem?_eq_getElem (by omega)⟩
      have hof := forall₂_getElem? h.inv.streams hsource hu
      have heq : source = ([], stream.fifo) := Prod.ext (hof.plio hplio) hof.fifo.symm
      rw [← htreach, hstands, ← heq, ← hsource]
      constructor
      · rintro rfl
        rfl
      · exact hinj ht
    · intro u hu
      refine ⟨b.sources.get ⟨u, by omega⟩, ?_, fun v hv => ?_⟩
      · rw [hstands, getElem?_eq_getElem (by omega)]
        rfl
      · rw [hstands] at hv
        obtain ⟨hv', _⟩ := List.getElem?_eq_some_iff.mp hv
        refine hinj hv' ?_
        rw [hv, getElem?_eq_getElem (by omega)]
        rfl

/-- Where the derivation succeeds, its streams follow the bindings just when no upper task
that it visits lists the FIFO of one of its own ports. -/
theorem kernel_streams_follow_bindings_iff {fuel : Nat} {b : Builder}
    (h : derive_with_origins fuel g = .ok (some b)) : g.FollowsBindings b ↔
      ∀ q name, g.Visited q → g.level_at q = some .Upper → g.lists_port q name = false :=
  (derived_of_ok h).follows_bindings_iff

/-! ## A listed port -/

def istreamPort : Port := ⟨.Istream, ['i'], 32, none, none⟩

/-- One invocation whose port `i` is bound to a name. -/
def boundInstance (name : Str) (cat : ArgCategory) : TaskInstance where
  name := none
  args := (∅ : BTreeMap Str Arg).insert ['i'] ⟨.Name name, cat⟩
  step := 0

/-- The top `T` has a FIFO `s` from the PL task `P` to the AI Engine task `U`, which
passes its port `i` on to the kernel `K`. It may list `i` among its FIFOs. -/
def passedOn (listed : Bool) : Graph where
  top := ['T']
  tasks := (((∅ : BTreeMap Str Task).insert ['T']
    ⟨.Upper, [], ((∅ : BTreeMap Str (List TaskInstance)).insert ['P']
        [boundInstance ['s'] .Ostream]).insert ['U'] [boundInstance ['s'] .Istream],
      (∅ : BTreeMap Str InterconnectDefinition).insert ['s']
        ⟨some 2, some (['U'], 0), some (['P'], 0)⟩, none⟩).insert ['P']
    ⟨.Lower, [{ istreamPort with cat := .Ostream }], ∅, ∅, none⟩).insert ['U']
    ⟨.Upper, [istreamPort], (∅ : BTreeMap Str (List TaskInstance)).insert ['K']
        [boundInstance ['i'] .Istream],
      if listed then (∅ : BTreeMap Str InterconnectDefinition).insert ['i']
        ⟨none, some (['K'], 0), none⟩ else ∅, none⟩ |>.insert ['K']
    ⟨.Lower, [istreamPort], ∅, ∅, none⟩
  attributes := fun name =>
    { synth := if name = ['U'] || name = ['K'] then .Aie else .Hls
      readable_name := name
      aie_location := []
      aie_stack_bytes := none
      port := fun _ => ⟨[], none, none⟩ }

theorem exists_of_isSome {x : Except Halt (Option α)} (h : (x.toOption.bind id).isSome = true) :
    ∃ a, x = .ok (some a) := by
  cases x with
  | error e => cases h
  | ok o =>
    cases o with
    | none => cases h
    | some a => exact ⟨a, rfl⟩

/-- Without the list, every FIFO has a depth. -/
theorem lists_port_passedOn (q : Path) (name : Str) :
    (passedOn false).lists_port q name = false := by
  have hdepth : ∀ x ∈ (passedOn false).tasks.toList, ∀ y ∈ x.2.fifos.toList,
      y.2.depth.isSome = true := by decide +kernel
  rw [lists_port, Option.any_eq_false]
  intro fifo hfifo
  obtain ⟨task, htask, hfifo⟩ := Option.bind_eq_some_iff.mp hfifo
  have hsome := hdepth _ (Std.ExtTreeMap.mem_toList_iff_getElem?_eq_some.mpr htask) _
    (Std.ExtTreeMap.mem_toList_iff_getElem?_eq_some.mpr hfifo)
  simp [Option.isNone_iff_eq_none, Option.isSome_iff_ne_none.mp hsome]

/-- Without the list, the streams of the derivation follow the bindings. -/
theorem a_passed_port_is_followed : ∃ b, derive_with_origins 3 (passedOn false) = .ok (some b) ∧
    (∀ q name, (passedOn false).Visited q → (passedOn false).level_at q = some .Upper →
      (passedOn false).lists_port q name = false) ∧ (passedOn false).FollowsBindings b := by
  obtain ⟨b, hb⟩ := exists_of_isSome (x := derive_with_origins 3 (passedOn false))
    (by decide +kernel)
  have hnone : ∀ q name, (passedOn false).Visited q → (passedOn false).level_at q = some .Upper →
      (passedOn false).lists_port q name = false := fun q name _ _ => lists_port_passedOn q name
  exact ⟨b, hb, hnone, (kernel_streams_follow_bindings_iff hb).mpr hnone⟩

/-- With it, the port of the kernel reaches `s`, which is the PLIO with the index 0, and
has the stream with the index 1. -/
theorem a_listed_port_gets_a_stream_of_its_own :
    (∃ b, derive_with_origins 3 (passedOn true) = .ok (some b) ∧
      ¬(passedOn true).FollowsBindings b) ∧
    (passedOn true).reach [(['K'], 0), (['U'], 0)] ['i'] = some ([], ['s']) ∧
    (((derive 3 (passedOn true)).toOption.bind id).map fun p =>
      p.kernels.map AieKernel.channels) = some [[(['i'], 1)]] ∧
    (((derive 3 (passedOn true)).toOption.bind id).map fun p =>
      p.streams.map fun s => (s.fifo, s.is_plio)) = some [(['s'], true), (['i'], false)] := by
  refine ⟨?_, by decide +kernel, by decide +kernel, by decide +kernel⟩
  obtain ⟨b, hb⟩ := exists_of_isSome (x := derive_with_origins 3 (passedOn true))
    (by decide +kernel)
  refine ⟨b, hb, fun hfollows => ?_⟩
  have hnone := (derived_of_ok hb).follows_bindings_iff.mp hfollows [(['U'], 0)] ['i']
    (.invoke (by decide +kernel) (by decide +kernel)) (by decide +kernel)
  exact absurd hnone (by decide +kernel)

end Graph

end Tapa.AiEngine
