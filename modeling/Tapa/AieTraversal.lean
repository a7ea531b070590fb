-- The derivation visits every occurrence below an AI Engine task once. It makes one
-- stream for each FIFO that a visited upper task lists with an end, and every scope
-- binds a port to the stream of what the port reaches.
import Tapa.AieStreams

namespace Tapa.AiEngine

open Ir Text Fallible List Std.ExtTreeMap Option

/-! ## What is made -/

/-- The stream of a FIFO at an occurrence, or the kernel of a leaf. -/
inductive Item where
  | stream (path : Path) (name : Str)
  | kernel (path : Path)

def Item.path : Item → Path
  | stream path _ | kernel path => path

def Builder.Has (b : Builder) : Item → Prop
  | .stream path name => (path, name) ∈ b.sources
  | .kernel path => path ∈ b.leaves

/-- A builder keeps what it has, and gets items at some occurrences only. -/
structure Builder.Extends (b b' : Builder) (R : Path → Prop) : Prop where
  sources : b.sources <+: b'.sources
  keeps : ∀ x, b.Has x → b'.Has x
  adds : ∀ x, b'.Has x → b.Has x ∨ R x.path

namespace Builder.Extends

variable {b b1 b2 : Builder} {R R' : Path → Prop}

theorem refl (b : Builder) (R : Path → Prop) : b.Extends b R :=
  ⟨prefix_rfl, fun _ hx => hx, fun _ hx => .inl hx⟩

theorem trans (h : b.Extends b1 R) (h' : b1.Extends b2 R') :
    b.Extends b2 fun q => R q ∨ R' q where
  sources := h.sources.trans h'.sources
  keeps x hx := h'.keeps x (h.keeps x hx)
  adds x hx := by
    rcases h'.adds x hx with hx | hx
    · exact (h.adds x hx).imp_right .inl
    · exact .inr (.inr hx)

theorem mono (h : b.Extends b1 R) (hR : ∀ q, R q → R' q) : b.Extends b1 R' :=
  ⟨h.sources, h.keeps, fun x hx => (h.adds x hx).imp_right (hR _)⟩

theorem push_stream (h : b.Extends b1 R) {p : Path} (hp : R p) (name : Str) (stream : AieStream) :
    b.Extends (b1.push_stream (p, name) stream) R where
  sources := h.sources.trans (prefix_append _ _)
  keeps x hx := by
    cases x with
    | stream q n => exact mem_append_left _ (h.keeps (.stream q n) hx)
    | kernel q => exact h.keeps (.kernel q) hx
  adds x hx := by
    cases x with
    | stream q n =>
      rcases mem_snoc.mp hx with hx | heq
      · exact h.adds (.stream q n) hx
      · exact .inr ((Prod.mk.inj heq).1 ▸ hp)
    | kernel q => exact h.adds (.kernel q) hx

end Builder.Extends

namespace Graph

variable {g : Graph}

variable {name : Str}

theorem task_eq_ok {t : Task} : task g name = .ok t ↔ g.tasks[name]? = some t := by
  unfold task
  simp

/-- Nothing has been made at or below an occurrence. -/
def Fresh (b : Builder) (p : Path) : Prop := ∀ x, b.Has x → ¬p <:+ x.path

/-! ## The nets of an upper task -/

variable (g) in
/-- The nets of the FIFOs `ys` of the task at an occurrence are made. -/
structure NetsMade (b : Builder) (p : Path) (ys : List (Str × InterconnectDefinition))
    (state : BTreeMap Str Binding × Builder) : Prop where
  inv : g.Inv state.2
  grows : b.Extends state.2 (· = p)
  listed : ∀ name, (p, name) ∈ state.2.sources → ∃ fifo, (name, fifo) ∈ ys
  sound : ∀ (name : Str) binding, state.1[name]? = some binding →
    ∃ t : Nat, binding = .Stream t ∧ state.2.sources[t]? = some (p, name)
  complete : ∀ name fifo, (name, fifo) ∈ ys → has_end fifo = true → (state.1[name]?).isSome

variable {p : Path}

theorem not_declares_of_lists_port (h : g.lists_port p name = true) :
    g.declares p name = false := by
  obtain ⟨fifo, hf, h⟩ := (any_eq_true _ _).mp h
  rw [Bool.and_eq_true, isNone_iff_eq_none] at h
  simp [declares, hf, h.1]

variable {b : Builder} {scope : BTreeMap Str Binding}

/-- A net at an occurrence leaves the streams of the top as they are. -/
theorem Inv.push_net (h : g.Inv b) {stream : AieStream} (hp : g.Visited p)
    (hup : g.level_at p = some .Upper) (hend : (g.fifo_at p name).any has_end = true)
    (hscope : g.ScopeOf b.sources p scope) (hstream : g.StreamOf (p, name) stream)
    (hfresh : (p, name) ∉ b.sources) :
    g.Inv (b.push_stream (p, name) stream) := by
  have hne := hp.ne_nil
  have htop (n : Str) (t : Nat) : b.top_streams[n]? = some t ↔
      (b.sources ++ [(p, name)])[t]? = some ([], n) := by
    rw [h.top, getElem?_snoc_eq_some]
    simp [hne.symm]
  refine h.push_stream hstream hfresh (.net hp hup hend) htop (fun hnil => absurd hnil hne) ?_
  intro hlists _
  have hfollow := follow_of_not_declares hne (not_declares_of_lists_port hlists)
  show g.follow p name = none ∨ _
  cases hreach : g.reach p name with
  | none => exact .inl (hfollow.trans hreach)
  | some e =>
    obtain ⟨t, ht⟩ := hscope.complete name (by rw [hreach]; rfl)
    obtain ⟨hlt, hstands⟩ := hscope.sound name t ht
    exact .inr ⟨t, hlt, hstands.trans hfollow.symm⟩

variable {definition : Task}

theorem nets_made (hinv : g.Inv b) (hp : g.Visited p) (htask : g.task_at p = some definition)
    (hup : definition.level = .Upper) (hscope : g.ScopeOf b.sources p scope) (hfresh : Fresh b p)
    {state : BTreeMap Str Binding × Builder} (h : definition.fifos.toList.foldlM (make_net g
    definition (g.spelled p) p) (∅, b) = .ok state) :
    g.NetsMade b p definition.fifos.toList state := by
  have hlevel : g.level_at p = some .Upper := by simp [TaskGraph.level_at, htask, hup]
  refine foldlM_invariant (P := fun ys state => g.NetsMade b p ys state) h ?_ ?_
  · exact ⟨hinv, .refl b _, fun name hs => absurd (suffix_refl p) (hfresh (.stream p name) hs),
      by simp, by simp⟩
  · rintro ys ⟨name, fifo⟩ ⟨inner, b1⟩ state' hys hmade hstep
    have hmem : (name, fifo) ∈ definition.fifos.toList := hys.subset (by simp)
    have hget := mem_toList_iff_getElem?_eq_some.mp hmem
    have hlisted : ∀ n, (p, n) ∈ b1.sources → ∃ f, (n, f) ∈ ys ++ [(name, fifo)] := by
      intro n hn
      obtain ⟨f, hf⟩ := hmade.listed n hn
      exact ⟨f, mem_append_left _ hf⟩
    unfold make_net at hstep
    simp only at hstep
    cases hend : fifo.produced_by.or fifo.consumed_by with
    | none =>
      rw [hend] at hstep
      cases hstep
      refine ⟨hmade.inv, hmade.grows, hlisted, hmade.sound, ?_⟩
      intro n f hf hhas
      rcases mem_snoc.mp hf with hf | hf
      · exact hmade.complete n f hf hhas
      · cases hf
        rw [has_end, hend] at hhas
        cases hhas
    | some endpoint =>
      rw [hend] at hstep
      obtain ⟨words, _, hstep⟩ := bind_eq_ok.mp hstep
      obtain ⟨child, _, hstep⟩ := bind_eq_ok.mp hstep
      cases hstep
      have hnew : (p, name) ∉ b1.sources := by
        intro hin
        obtain ⟨f, hf⟩ := hmade.listed name hin
        exact toList_key_new hys _ hf rfl
      have hfifo : (g.fifo_at p name).any has_end = true := by
        simp [fifo_at, htask, hget, has_end, hend]
      have hstream : g.StreamOf (p, name)
          { name := inside (g.spelled p) name
            fifo := name
            words := words
            frame := port_frame g endpoint.1 child
              ((child_port_for definition endpoint.1 endpoint.2 name).getD [])
            kind := .Net (fifo.depth.getD 0 * words % 2 ^ 32) } := by
        refine ⟨rfl, ?_, fun hc => by cases hc⟩
        rw [stream_name, if_neg hp.ne_nil]
      refine ⟨hmade.inv.push_net hp hlevel hfifo (hscope.mono hmade.grows.sources) hstream hnew,
        hmade.grows.push_stream rfl name _, ?_, ?_, ?_⟩
      · intro n hn
        rcases mem_snoc.mp hn with hn | hn
        · exact hlisted n hn
        · exact ⟨fifo, by simp [(Prod.mk.inj hn).2]⟩
      · intro n binding hn
        rcases get_insert_eq_some.mp hn with ⟨rfl, rfl⟩ | ⟨_, hn⟩
        · refine ⟨_, rfl, ?_⟩
          rw [← hmade.inv.sources_length]
          exact getElem?_concat_length
        · obtain ⟨t, ht, hsource⟩ := hmade.sound n binding hn
          exact ⟨t, ht, getElem?_snoc_eq_some.mpr (.inl hsource)⟩
      · intro n f hf hhas
        rw [isSome_get_insert]
        rcases mem_snoc.mp hf with hf | hf
        · exact .inr (hmade.complete n f hf hhas)
        · exact .inl (Prod.mk.inj hf).1.symm

/-! ## The scope of a child -/

def resolve (inner scope : BTreeMap Str Binding) (arg : Arg) : Option Binding :=
  match arg.arg with
  | .Literal value => some (.Scalar (.Constant value))
  | .Name name => inner[name]?.or scope[name]?

variable {inner : BTreeMap Str Binding}

/-- The scope of a child binds its ports to what their arguments resolve to. -/
theorem bind_args_ok {task_name child : Str} {child_scope : BTreeMap Str Binding}
    {args : BTreeMap Str Arg}
    (h : args.toList.foldlM (bind_arg task_name child inner scope) ∅ = .ok child_scope) :
    (∀ (c : Str) binding, child_scope[c]? = some binding →
      ∃ arg, args[c]? = some arg ∧ resolve inner scope arg = some binding) ∧
    ∀ c : Str, (args[c]?).isSome → (child_scope[c]?).isSome := by
  have hloop := foldlM_invariant (P := fun ys (cs : BTreeMap Str Binding) =>
    (∀ (c : Str) binding, cs[c]? = some binding →
      ∃ arg, (c, arg) ∈ ys ∧ resolve inner scope arg = some binding) ∧
    ∀ (c : Str) arg, (c, arg) ∈ ys → (cs[c]?).isSome) h (by simp) (by
      rintro ys ⟨port, arg⟩ cs cs' hys ⟨hsound, hcomplete⟩ hstep
      obtain ⟨binding, hbinding, hstep⟩ := bind_eq_ok.mp hstep
      cases hstep
      have hresolve : resolve inner scope arg = some binding := by
        unfold arg_binding at hbinding
        unfold resolve
        cases harg : arg.arg with
        | Literal value =>
          simp only [harg] at hbinding
          exact congrArg some (Except.ok.inj hbinding)
        | Name name =>
          simp only [harg] at hbinding
          exact ok_or_eq_ok.mp hbinding
      constructor
      · intro c bnd hc
        rcases get_insert_eq_some.mp hc with ⟨rfl, rfl⟩ | ⟨_, hc⟩
        · exact ⟨arg, by simp, hresolve⟩
        · obtain ⟨arg', hmem, hres⟩ := hsound c bnd hc
          exact ⟨arg', mem_append_left _ hmem, hres⟩
      · intro c arg' hmem
        rw [isSome_get_insert]
        rcases mem_snoc.mp hmem with hmem | hmem
        · exact .inr (hcomplete c arg' hmem)
        · exact .inl (Prod.mk.inj hmem).1.symm)
  obtain ⟨hsound, hcomplete⟩ := hloop
  constructor
  · intro c binding hc
    obtain ⟨arg, hmem, hres⟩ := hsound c binding hc
    exact ⟨arg, mem_toList_iff_getElem?_eq_some.mp hmem, hres⟩
  · intro c hc
    obtain ⟨arg, harg⟩ := isSome_iff_exists.mp hc
    exact hcomplete c arg (mem_toList_iff_getElem?_eq_some.mpr harg)

variable {b1 : Builder}

/-- In the scope of an occurrence, a name stands for the stream of what it reaches. -/
theorem resolved_stream {b0 : Builder} (hp : g.Visited p) (htask : g.task_at p = some definition)
    (hmade : g.NetsMade b p definition.fifos.toList (inner, b0))
    (hgrows : b0.sources <+: b1.sources) (hscope : g.ScopeOf b1.sources p scope)
    {binding : Binding} (h : inner[name]?.or scope[name]? = some binding) :
    (∀ t, binding = .Stream t →
      t < b1.sources.length ∧ g.stands b1.sources t = g.follow p name) ∧
    ((g.follow p name).isSome → ∃ t, binding = .Stream t) := by
  cases hinner : inner[name]? with
  | some bnd =>
    rw [hinner, some_or, Option.some.injEq] at h
    subst h
    obtain ⟨t, rfl, hsource⟩ := hmade.sound name bnd hinner
    obtain ⟨more, hmore⟩ := hgrows
    obtain ⟨hlt, _⟩ := List.getElem?_eq_some_iff.mp hsource
    refine ⟨?_, fun _ => ⟨t, rfl⟩⟩
    intro u hu
    obtain rfl := Binding.Stream.inj hu
    rw [← hmore, length_append, stands_of_append hlt, stands, hsource]
    exact ⟨by simp only at hlt; omega, rfl⟩
  | none =>
    rw [hinner] at h
    -- The task has no connected FIFO of this name, so it is a port.
    have hnot : g.declares p name = false := by
      unfold declares fifo_at
      rw [htask, bind_some]
      cases hf : definition.fifos[name]? with
      | none => rfl
      | some fifo =>
        rw [any_some, decide_eq_false hp.ne_nil]
        by_contra hc
        rw [Bool.not_eq_false, Bool.and_eq_true] at hc
        have hsome := hmade.complete name fifo
          (mem_toList_iff_getElem?_eq_some.mpr hf) hc.2
        rw [hinner] at hsome
        cases hsome
    rw [follow_of_not_declares hp.ne_nil hnot]
    refine ⟨?_, ?_⟩
    · rintro t rfl
      exact hscope.sound name t h
    · intro hsome
      obtain ⟨t, ht⟩ := hscope.complete name hsome
      exact ⟨t, Option.mem_unique h ht⟩

variable {s : EndpointRef}

theorem scopeOf_child {b0 : Builder} {child_scope : BTreeMap Str Binding} {inst : TaskInstance}
    (hp : g.Visited p) (htask : g.task_at p = some definition)
    (hmade : g.NetsMade b p definition.fifos.toList (inner, b0))
    (hgrows : b0.sources <+: b1.sources) (hscope : g.ScopeOf b1.sources p scope)
    (hinst : g.inst_at (s :: p) = some inst) {task_name child : Str}
    (h : inst.args.toList.foldlM (bind_arg task_name child inner scope) ∅ = .ok child_scope) :
    g.ScopeOf b1.sources (s :: p) child_scope := by
  obtain ⟨hsound, hcomplete⟩ := bind_args_ok h
  have hbound (c : Str) : g.bound (s :: p) c = (inst.args[c]?).bind Arg.name := by
    simp [bound, hinst, hp.ne_nil]
  have hreach (c : Str) : g.reach (s :: p) c =
      ((inst.args[c]?).bind Arg.name).bind (g.follow p) := by
    rw [← hbound]
    rfl
  constructor
  · intro c t hc
    obtain ⟨arg, harg, hres⟩ := hsound c _ hc
    rw [hreach, harg, bind_some]
    unfold resolve at hres
    unfold Arg.name
    cases hsrc : arg.arg with
    | Literal value =>
      rw [hsrc] at hres
      cases hres
    | Name name =>
      rw [hsrc] at hres
      exact (resolved_stream hp htask hmade hgrows hscope hres).1 t rfl
  · intro c hc
    rw [hreach] at hc
    obtain ⟨e, he⟩ := isSome_iff_exists.mp hc
    obtain ⟨name, hname, hfollow⟩ := bind_eq_some_iff.mp he
    obtain ⟨arg, harg, hargname⟩ := bind_eq_some_iff.mp hname
    obtain ⟨binding, hbinding⟩ := isSome_iff_exists.mp (hcomplete c (by rw [harg]; rfl))
    obtain ⟨arg', harg', hres⟩ := hsound c binding hbinding
    obtain rfl := Option.mem_unique harg harg'
    unfold resolve at hres
    unfold Arg.name at hargname
    cases hsrc : arg.arg with
    | Literal value =>
      rw [hsrc] at hargname
      cases hargname
    | Name n =>
      rw [hsrc] at hres hargname
      cases hargname
      obtain ⟨t, rfl⟩ := (resolved_stream hp htask hmade hgrows hscope hres).2 (by
        rw [hfollow]
        rfl)
      exact ⟨t, hbinding⟩

/-! ## One occurrence -/

variable (g) in
/-- The items of the graph. -/
def Due : Item → Prop
  | .stream path name => g.IsStream (path, name)
  | .kernel path => g.Visited path ∧ g.level_at path = some .Lower

variable (g) in
/-- Everything at some occurrences has been made, and nothing else. -/
structure Made (b b' : Builder) (R : Path → Prop) : Prop extends b.Extends b' R where
  inv : g.Inv b'
  all : ∀ x, g.Due x → R x.path → b'.Has x

section

variable {b' b2 : Builder} {R R' : Path → Prop}

theorem Made.trans (h : g.Made b b1 R) (h' : g.Made b1 b2 R') :
    g.Made b b2 fun q => R q ∨ R' q where
  toExtends := h.toExtends.trans h'.toExtends
  inv := h'.inv
  all x hdue hx := by
    rcases hx with hx | hx
    · exact h'.keeps x (h.all x hdue hx)
    · exact h'.all x hdue hx

theorem Made.congr (h : g.Made b b' R) (hto : ∀ q, R q → R' q)
    (hof : ∀ x, g.Due x → R' x.path → R x.path) : g.Made b b' R' :=
  ⟨h.toExtends.mono hto, h.inv, fun x hdue hx => h.all x hdue (hof x hdue hx)⟩

theorem Made.of_run_forever {run_forever : Bool}
    (h : g.Made (b.set_run_forever run_forever) b' R) : g.Made b b' R :=
  ⟨⟨h.sources, h.keeps, h.adds⟩, h.inv, h.all⟩

end

variable {q : Path}

theorem IsStream.visited (h : g.IsStream (q, name)) (hq : q ≠ []) :
    g.Visited q ∧ g.level_at q = some .Upper ∧ (g.fifo_at q name).any has_end = true := by
  cases h with
  | top haie hbound => exact absurd rfl hq
  | net hp hup hend => exact ⟨hp, hup, hend⟩

theorem Due.visited {x : Item} (h : g.Due x) (hx : x.path ≠ []) : g.Visited x.path := by
  cases x with
  | stream q name => exact (IsStream.visited h hx).1
  | kernel q => exact h.1

/-- A leaf has no occurrence below it. -/
theorem Visited.eq_of_suffix (h : g.Visited q) (hp : p ≠ []) (hlevel : g.level_at p = some .Lower)
    (hsuffix : p <:+ q) : q = p := by
  obtain ⟨r, rfl⟩ := hsuffix
  by_cases hr : r = []
  · rw [hr, nil_append]
  · have hup := (h.above hp hr).2
    rw [hlevel] at hup
    cases hup

theorem ne_nil_of_suffix (hp : p ≠ []) (h : p <:+ q) : q ≠ [] := by
  rintro rfl
  exact hp (suffix_nil.mp h)

theorem made_leaf {k : AieKernel} (hinv : g.Inv b) (hp : g.Visited p)
    (hlevel : g.level_at p = some .Lower) (hk : g.KernelOf b.sources p k) (hfresh : Fresh b p) :
    g.Made b (b.push_kernel p k) (p <:+ ·) where
  inv := hinv.push_kernel hk (fun hin => hfresh (.kernel p) hin (suffix_refl p)) hp hlevel
  sources := prefix_rfl
  keeps x hx := by
    cases x with
    | stream q name => exact hx
    | kernel q => exact mem_append_left _ hx
  adds x hx := by
    cases x with
    | stream q name => exact .inl hx
    | kernel q =>
      rcases mem_snoc.mp hx with hx | rfl
      · exact .inl hx
      · exact .inr (suffix_refl _)
  all x hdue hx := by
    have hne := ne_nil_of_suffix hp.ne_nil hx
    have heq := (hdue.visited hne).eq_of_suffix hp.ne_nil hlevel hx
    cases x with
    | stream q name =>
      obtain ⟨_, hup, _⟩ := IsStream.visited hdue hne
      obtain rfl : q = p := heq
      rw [hlevel] at hup
      cases hup
    | kernel q => exact mem_snoc.mpr (.inr heq)

theorem NetsMade.made {b0 : Builder} (hp : p ≠ []) (htask : g.task_at p = some definition)
    (hlevel : g.level_at p = some .Upper)
    (h : g.NetsMade b p definition.fifos.toList (inner, b0)) : g.Made b b0 (· = p) where
  toExtends := h.grows
  inv := h.inv
  all x hdue hx := by
    cases x with
    | stream q name =>
      obtain rfl : q = p := hx
      obtain ⟨_, _, hend⟩ := IsStream.visited hdue hp
      obtain ⟨fifo, hf, hend⟩ := (any_eq_true _ _).mp hend
      rw [fifo_at, htask, bind_some] at hf
      have hsome := h.complete name fifo (mem_toList_iff_getElem?_eq_some.mpr hf) hend
      obtain ⟨binding, hb⟩ := isSome_iff_exists.mp hsome
      obtain ⟨t, _, hsource⟩ := h.sound name binding hb
      exact mem_of_getElem? hsource
    | kernel q =>
      obtain rfl : q = p := hx
      have hlow := hdue.2
      rw [hlevel] at hlow
      cases hlow

/-- Two invocations of one task share no occurrence below them. -/
theorem suffix_child_inj {t : EndpointRef} (hs : s :: p <:+ q) (ht : t :: p <:+ q) :
    s = t := by
  have hst : s :: p = t :: p := by
    obtain ⟨r, rfl⟩ := hs
    obtain ⟨r', hr'⟩ := ht
    exact (append_inj' hr' rfl).2.symm
  exact (List.cons.inj hst).1

theorem not_cons_suffix : ¬s :: p <:+ p := by
  intro h
  have hlen := h.length_le
  simp only [length_cons] at hlen
  omega

variable {ys : List (Str × Nat × TaskInstance)} {y : Str × Nat × TaskInstance}

/-- In a prefix of the invocations of a task, the last one has a key of its own. -/
theorem key_new (hys : ys ++ [y] <+: definition.invocations) :
    ∀ z ∈ ys, (z.1, z.2.1) ≠ (y.1, y.2.1) := by
  intro z hz heq
  obtain ⟨more, hmore⟩ := hys
  have hnodup := definition.invocations_nodup
  rw [← hmore, append_assoc, map_append, nodup_append] at hnodup
  refine hnodup.2.2 _ (mem_map_of_mem hz) _ ?_ heq
  simp

/-- What lies below an occurrence is the occurrence itself, or lies below a child. -/
theorem Visited.eq_or_below_child (h : g.Visited q) (htask : g.task_at p = some definition)
    (hsuffix : p <:+ q) : q = p ∨ ∃ y ∈ definition.invocations, (y.1, y.2.1) :: p <:+ q := by
  obtain ⟨r, rfl⟩ := hsuffix
  rcases eq_nil_or_concat' r with rfl | ⟨r, t, rfl⟩
  · exact .inl rfl
  · rw [append_assoc] at h ⊢
    obtain ⟨inst, hinst⟩ := isSome_iff_exists.mp h.child
    exact .inr ⟨_, (g.toTaskGraph.inst_at_cons htask inst).mp hinst, suffix_append _ _⟩

theorem visit_collects (fuel : Nat) {index : Nat} {b' : Builder}
    (h : visit g fuel s.1 index (g.spelled (s :: p)) (s :: p) scope b = .ok b') (hinv : g.Inv b)
    (hp : g.Visited (s :: p)) (hscope : g.ScopeOf b.sources (s :: p) scope)
    (hfresh : Fresh b (s :: p)) : g.Made b b' (s :: p <:+ ·) := by
  induction fuel generalizing s p index scope b b' with
  | zero => cases h
  | succ fuel ih =>
    unfold visit at h
    obtain ⟨definition, hdef, h⟩ := bind_eq_ok.mp h
    have htask : g.task_at (s :: p) = some definition := task_eq_ok.mp hdef
    by_cases hlower : definition.level = .Lower
    · rw [if_pos hlower] at h
      obtain ⟨k, hk, h⟩ := bind_eq_ok.mp h
      cases h
      have hlevel : g.level_at (s :: p) = some .Lower := by simp [TaskGraph.level_at, htask, hlower]
      obtain ⟨hname, hchannels⟩ := channels_kernel hk
      exact made_leaf hinv hp hlevel
        ⟨hname, fun c t hmem => hscope.sound c t (hchannels c t hmem)⟩ hfresh
    · rw [if_neg hlower] at h
      have hup : definition.level = .Upper := by
        cases hl : definition.level with
        | Lower => exact absurd hl hlower
        | Upper => rfl
      have hlevel : g.level_at (s :: p) = some .Upper := by simp [TaskGraph.level_at, htask, hup]
      obtain ⟨⟨inner, b0⟩, hnets, h⟩ := bind_eq_ok.mp h
      have hmade := nets_made hinv hp htask hup hscope hfresh hnets
      have hhere := hmade.made hp.ne_nil htask hlevel
      have hchildren := foldlM_invariant
        (P := fun ys b1 => g.Made b0 b1 fun q => ∃ y ∈ ys, (y.1, y.2.1) :: s :: p <:+ q) h
        ⟨.refl b0 _, hmade.inv, by simp⟩ (by
        rintro ys ⟨child, child_index, inst⟩ b1 b2 hys hcol hstep
        have hmem : (child, child_index, inst) ∈ definition.invocations := hys.subset (by simp)
        have hinst : g.inst_at ((child, child_index) :: s :: p) = some inst :=
          (g.toTaskGraph.inst_at_cons htask inst).mpr hmem
        unfold visit_child at hstep
        obtain ⟨run_forever, _, hstep⟩ := bind_eq_ok.mp hstep
        obtain ⟨child_scope, hargs, hstep⟩ := bind_eq_ok.mp hstep
        have hscope1 : g.ScopeOf b1.sources (s :: p) scope :=
          hscope.mono (hhere.sources.trans hcol.sources)
        have hpath : inside (g.spelled (s :: p)) (inst.canonical_name child child_index) =
            g.spelled ((child, child_index) :: s :: p) := by
          have hname : g.canonical_at ((child, child_index) :: s :: p) =
              inst.canonical_name child child_index := by simp [TaskGraph.canonical_at, hinst]
          rw [← hname]
          exact (spelled_cons (cons_ne_nil s p)).symm
        simp only [hpath] at hstep
        have hfresh1 : Fresh b1 ((child, child_index) :: s :: p) := by
          intro x hx hsuffix
          rcases (hhere.trans hcol).adds x hx with hx | heq | ⟨z, hz, hbelow⟩
          · exact hfresh x hx ((suffix_cons _ _).trans hsuffix)
          · exact not_cons_suffix (heq ▸ hsuffix)
          · exact key_new hys z hz (suffix_child_inj hbelow hsuffix)
        have hchild := ih hstep (hcol.inv.set_run_forever run_forever)
          (.descend hp hlevel (by rw [hinst]; rfl))
          (scopeOf_child hp htask hmade hcol.sources hscope1 hinst hargs) hfresh1
        refine (hcol.trans hchild.of_run_forever).congr (fun q => ?_) fun x _ => ?_ <;>
          simp [or_and_right, exists_or])
      refine (hhere.trans hchildren).congr ?_ fun x hdue hx => ?_
      · rintro q (rfl | ⟨y, _, hbelow⟩)
        · exact suffix_refl _
        · exact (suffix_cons _ _).trans hbelow
      · exact (hdue.visited (ne_nil_of_suffix hp.ne_nil hx)).eq_or_below_child htask hx

end Graph

end Tapa.AiEngine
