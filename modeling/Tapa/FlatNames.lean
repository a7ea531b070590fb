-- Flattening preserves connectivity as long as no port of the top is spelled
-- like the global name of a FIFO: two arguments of leaves have one flat name
-- just when they reach the same FIFO, port or constant.
import Tapa.Traversal

namespace Tapa.Ir

open Text Fallible List Option

namespace TaskGraph

variable {g : TaskGraph}

/-! ## FIFOs have names of their own -/

/-- A FIFO with a depth that is declared at or above a path. -/
def Owned (g : TaskGraph) (p : Path) : End → Prop
  | .fifo q name => (∃ r, p = r ++ q) ∧ ∃ fifo, g.declared q name = some fifo ∧ fifo.depth.isSome
  | _ => True

variable {p : Path} {e : End}

theorem Owned.below (h : g.Owned p e) (s : EndpointRef) :
    g.Owned (s :: p) e := by
  cases e with
  | fifo q name =>
    obtain ⟨⟨r, rfl⟩, hfifo⟩ := h
    exact ⟨⟨s :: r, rfl⟩, hfifo⟩
  | port name | const value => trivial

variable {name : Str}

theorem fifoEnd_owned {fifo : InterconnectDefinition} (h : g.declared p name = some fifo) :
    g.Owned p (fifoEnd p name fifo) := by
  unfold fifoEnd
  split
  · trivial
  · rename_i hdepth
    refine ⟨⟨[], rfl⟩, fifo, h, ?_⟩
    rwa [isNone_iff_eq_none, ← ne_eq, ← isSome_iff_ne_none] at hdepth

theorem Owned.offset {e' : End} {idx : Nat} (h : g.Owned p e) (ho : g.offset idx e = some e') :
    g.Owned p e' := by
  cases e with
  | fifo q name =>
    simp only [TaskGraph.offset] at ho
    split at ho
    · rename_i hcond
      cases ho
      rw [Bool.and_eq_true, Option.any_eq_true] at hcond
      exact ⟨h.1, hcond.2⟩
    · cases ho
  | port name =>
    cases ho
    trivial
  | const value => cases ho

theorem boundary_owned (h : g.boundary name = some e) :
    g.Owned p e := by
  unfold boundary at h
  split at h
  · cases h
    trivial
  · cases h

/-- A FIFO that a name reaches is declared in the scope of the name or above it. -/
theorem follow_owned (h : g.follow p name = some e) :
    g.Owned p e := by
  induction p generalizing name e with
  | nil =>
    unfold follow at h
    split at h
    · rename_i fifo hd
      cases h
      exact fifoEnd_owned hd
    · split at h
      · split at h
        · rename_i fifo hd
          exact (fifoEnd_owned hd).offset h
        · exact boundary_owned h
      · exact boundary_owned h
  | cons s p ih =>
    unfold follow at h
    split at h
    · rename_i fifo hd
      cases h
      exact fifoEnd_owned hd
    · simp only [bind_eq_bind, bind_eq_some_iff] at h
      obtain ⟨inst, _, h⟩ := h
      split at h
      · exact (ih h).below s
      · cases h
        trivial
      split at h
      · split at h
        · obtain ⟨e1, he1, ho⟩ := bind_eq_some_iff.mp h
          exact ((ih he1).below s).offset ho
        · cases h
      · cases h

theorem fifo_name_inj {us : List Path} (hnames : (g.fifo_names us).Nodup) {q : Path} {n m : Str}
    (hp : p ∈ us) (hq : q ∈ us) (hn : ∃ fifo, g.declared p n = some fifo ∧ fifo.depth.isSome)
    (hm : ∃ fifo, g.declared q m = some fifo ∧ fifo.depth.isSome)
    (h : in_scope n (g.scope_at p) = in_scope m (g.scope_at q)) : p = q ∧ n = m := by
  have hentry {p : Path} {n : Str} (hn : ∃ fifo, g.declared p n = some fifo ∧ fifo.depth.isSome) :
      (n, in_scope n (g.scope_at p)) ∈ (g.fifos_at p).toList := by
    obtain ⟨fifo, hd, hdepth⟩ := hn
    rw [Std.ExtTreeMap.mem_toList_iff_getElem?_eq_some, fifos_at_getElem?, hd]
    obtain ⟨depth, hdepth⟩ := isSome_iff_exists.mp hdepth
    simp [global_name, hdepth]
  have hpn := hentry hn
  have hqm := hentry hm
  obtain ⟨heach, hpair⟩ := nodup_flatMap.mp hnames
  have hpq : p = q := by
    by_contra hne
    have hsymm : Std.Symm (Function.onFun List.Disjoint fun p =>
        (g.fifos_at p).toList.map Prod.snd) := ⟨fun _ _ hab _ h1 h2 => hab h2 h1⟩
    have hdisj := hpair.forall hp hq hne
    apply hdisj (mem_map.mpr ⟨_, hpn, rfl⟩)
    rw [h]
    exact mem_map.mpr ⟨_, hqm, rfl⟩
  subst hpq
  refine ⟨rfl, ?_⟩
  have hinj := inj_on_of_nodup_map (heach p hp) hpn hqm h
  exact congrArg Prod.fst hinj

/-! ## The leaves of the flat graph -/

/-- The place of a leaf among the flat instances of its definition. -/
def endpoint (g : TaskGraph) (fuel : Nat) (p : Path) : EndpointRef :=
  (g.task_name_at p,
    ((g.leaves_below fuel []).filter fun q => g.task_name_at q = g.task_name_at p).idxOf p)

/-- What a successful run says: the traversal is at its end, and the flat graph
has the leaves that it collected. -/
structure Flat (g : TaskGraph) (fuel : Nat) (r : FlatProjection) : Prop where
  finished : g.Finished fuel []
  upper : g.level_at [] = some .Upper
  names : (g.fifo_names (g.uppers_below fuel [])).Nodup
  inst : ∀ e : EndpointRef, r.flat.inst_at [e] =
    (((g.leaves_below fuel []).filter fun p => g.task_name_at p = e.1).map g.flat_instance)[e.2]?

theorem flatten_with_origins_ok {fuel : Nat} {r : FlatProjection}
    (h : flatten_with_origins fuel g = .ok r) : g.Flat fuel r := by
  unfold flatten_with_origins at h
  obtain ⟨top, htop, h⟩ := bind_eq_ok.mp h
  split at h
  · cases h
  rename_i hlevel
  obtain ⟨c, hrun, h⟩ := bind_eq_ok.mp h
  cases h
  obtain ⟨hfin, hcol⟩ := collect_leaves_recursive_ok (p := []) hrun
  refine ⟨hfin, ?_, hcol.names, fun e => ?_⟩
  · have ht : g.task_at [] = some top := get_task_eq_ok.mp htop
    cases hl : top.level with
    | Lower => exact absurd hl hlevel
    | Upper => simp [level_at, ht, hl]
  · have hleaves := hcol.leaves e.1
    have hinst : (flat_graph g top c).inst_at [e] = (c.of e.1)[e.2]? := by
      simp only [inst_at, task_at, task_name_at, flat_graph, bind_eq_bind,
        Std.ExtTreeMap.getElem?_insert_self, bind_some, FlatInstances.of]
      cases c.leaves[e.1]? <;> simp
    rw [hinst, hleaves]
    simp [FlatInstances.of, FlatInstances.start]

section Leaves

variable {fuel : Nat} {r : FlatProjection}

variable {p : Path}

theorem Flat.isLeaf_iff (h : g.Flat fuel r) :
    g.IsLeaf p ↔ p ∈ g.leaves_below fuel [] := by
  constructor
  · rintro ⟨ho, hlow⟩
    have hmem := (g.mem_below h.finished (by rwa [append_nil])).1
    rw [append_nil] at hmem
    refine hmem hlow ?_
    rintro rfl
    rw [h.upper] at hlow
    cases hlow
  · intro hp
    exact (g.isLeaf_of_mem h.finished .top h.upper hp).1

/-- The flat instance of a leaf is the one that the traversal made from it. -/
theorem Flat.inst_endpoint (h : g.Flat fuel r) (hp : g.IsLeaf p) :
    r.flat.inst_at [g.endpoint fuel p] = some (g.flat_instance p) := by
  have hmem : p ∈ (g.leaves_below fuel []).filter fun q => g.task_name_at q = g.task_name_at p := by
    simpa using h.isLeaf_iff.mp hp
  rw [h.inst, endpoint, getElem?_map]
  rw [getElem?_idxOf hmem]
  rfl

/-- The flat instances are the leaves of the hierarchy. -/
theorem Flat.endpoint_bijOn (h : g.Flat fuel r) :
    Set.BijOn (g.endpoint fuel) {p | g.IsLeaf p} {e | (r.flat.inst_at [e]).isSome} := by
  refine ⟨?_, ?_, ?_⟩
  · intro p hp
    show (r.flat.inst_at [g.endpoint fuel p]).isSome
    rw [h.inst_endpoint hp]
    rfl
  · intro p hp q hq heq
    unfold endpoint at heq
    obtain ⟨hname, hidx⟩ := Prod.mk.inj heq
    rw [hname] at hidx
    refine (idxOf_inj ?_).mp hidx
    simpa [hname] using h.isLeaf_iff.mp hp
  · intro e he
    have he' : (r.flat.inst_at [e]).isSome := he
    rw [h.inst, getElem?_map, isSome_map] at he'
    obtain ⟨p, hp⟩ := isSome_iff_exists.mp he'
    have hmem := mem_of_getElem? hp
    rw [mem_filter, decide_eq_true_eq] at hmem
    refine ⟨p, h.isLeaf_iff.mpr hmem.1, ?_⟩
    have hnodup := (g.leaves_below_nodup h.finished .top h.upper).filter
      fun q => decide (g.task_name_at q = e.1)
    unfold endpoint
    rw [hmem.2]
    obtain ⟨hlt, hget⟩ := List.getElem?_eq_some_iff.mp hp
    rw [← hget, hnodup.idxOf_getElem]

/-! ## Connectivity -/

/-- The flat name of an argument of a flat instance. -/
def flat_arg (r : FlatProjection) (e : EndpointRef) (port : Str) : Option ArgSource := do
  let inst ← r.flat.inst_at [e]
  let arg ← inst.args[port]?
  pure arg.arg

/-- Two arguments of leaves have one flat name just when following their bindings
upward reaches one FIFO, one port of the top or one constant. -/
def Preserves (g : TaskGraph) (r : FlatProjection) (place : Path → EndpointRef) : Prop :=
  ∀ p q, g.IsLeaf p → g.IsLeaf q → ∀ x y a b,
    flat_arg r (place p) x = some a → flat_arg r (place q) y = some b →
      (a = b ↔ ∃ e, g.reaches p x = some e ∧ g.reaches q y = some e)

/-- Every argument of a leaf reaches something, and no port that one reaches is
spelled like the global name of a FIFO that one reaches. -/
structure Separate (g : TaskGraph) : Prop where
  reaches : ∀ p inst port, g.IsLeaf p → g.inst_at p = some inst → port ∈ inst.args →
    (g.reaches p port).isSome
  spelling : ∀ p q x y f name n, g.IsLeaf p → g.IsLeaf q →
    g.reaches p x = some (.fifo f name) → g.reaches q y = some (.port n) →
      in_scope name (g.scope_at f) ≠ n

variable {e : End}

theorem reaches_owned {s : EndpointRef} {port : Str} (h : g.reaches (s :: p) port = some e) :
    g.Owned p e := by
  simp only [reaches, bind_eq_bind, bind_eq_some_iff] at h
  obtain ⟨inst, _, h⟩ := h
  split at h
  · exact follow_owned h
  · cases h
    trivial
  · cases h

/-- The flat name of an argument is that of what it reaches. -/
theorem flat_instance_arg {port : Str} (h : g.reaches p port = some e) :
    (g.flat_instance p).args[port]?.map Arg.arg = some (g.source e) := by
  cases p with
  | nil => cases h
  | cons s p =>
    simp only [reaches, bind_eq_bind, bind_eq_some_iff] at h
    obtain ⟨inst, hinst, h⟩ := h
    simp only [flat_instance, hinst, map_some, getD_some, leaf_instance, resolve_args,
      Std.ExtTreeMap.getElem?_map, Option.map_map]
    split at h
    · rename_i n cat harg
      simp [harg, resolve_source, g.resolve_eq_source h]
    · rename_i value cat harg
      cases h
      simp [harg, resolve_source, source]
    · cases h

/-- A leaf has its arguments in the flat graph, and no others. -/
theorem mem_flat_instance_args {s : EndpointRef} {inst : TaskInstance}
    (hinst : g.inst_at (s :: p) = some inst) (port : Str) :
    port ∈ (g.flat_instance (s :: p)).args ↔ port ∈ inst.args := by
  simp [flat_instance, hinst, leaf_instance, resolve_args]

theorem Flat.flat_arg_eq (h : g.Flat fuel r) (hp : g.IsLeaf p) (port : Str) :
    flat_arg r (g.endpoint fuel p) port = (g.flat_instance p).args[port]?.map Arg.arg := by
  unfold flat_arg
  rw [h.inst_endpoint hp]
  cases hport : (g.flat_instance p).args[port]? <;> simp [hport]

theorem Flat.keeps_args (h : g.Flat fuel r) (p : Path) (inst : TaskInstance) (hp : g.IsLeaf p)
    (hinst : g.inst_at p = some inst) : (g.endpoint fuel p).1 = g.task_name_at p ∧
      ∀ x, (flat_arg r (g.endpoint fuel p) x).isSome ↔ x ∈ inst.args := by
  refine ⟨rfl, fun x => ?_⟩
  cases p with
  | nil => cases hinst
  | cons s p =>
    rw [h.flat_arg_eq hp, isSome_map, ← mem_flat_instance_args hinst,
      Std.ExtTreeMap.mem_iff_isSome_getElem?]

/-- Different ends have different flat names, as long as no port is spelled like
a FIFO. -/
theorem Flat.source_inj (h : g.Flat fuel r) (hsep : g.Separate) {q : Path} (hp : g.IsLeaf p)
    (hq : g.IsLeaf q) {x y : Str} {e' : End} (he : g.reaches p x = some e)
    (he' : g.reaches q y = some e') (heq : g.source e = g.source e') : e = e' := by
  -- The scope of a FIFO is one of those that the traversal went through.
  have hscope {p : Path} {x : Str} {f : Path} {name : Str} (hp : g.IsLeaf p)
      (hr : g.reaches p x = some (.fifo f name)) : f ∈ g.uppers_below fuel [] ∧
        ∃ fifo, g.declared f name = some fifo ∧ fifo.depth.isSome := by
    cases p with
    | nil => cases hr
    | cons s p =>
      obtain ⟨⟨l, rfl⟩, hfifo⟩ := reaches_owned hr
      obtain ⟨ho, hup⟩ := hp.1.above g (r := s :: l) (by simp)
      have hmem := (g.mem_below h.finished (by rwa [append_nil])).2
      rw [append_nil] at hmem
      exact ⟨hmem hup, hfifo⟩
  cases e with
  | fifo f name =>
    cases e' with
    | fifo f' name' =>
      obtain ⟨hf, hfifo⟩ := hscope hp he
      obtain ⟨hf', hfifo'⟩ := hscope hq he'
      obtain ⟨rfl, rfl⟩ := fifo_name_inj h.names hf hf' hfifo hfifo' (ArgSource.Name.inj heq)
      rfl
    | port n => exact absurd (ArgSource.Name.inj heq) (hsep.spelling _ _ _ _ _ _ _ hp hq he he')
    | const value => cases heq
  | port n =>
    cases e' with
    | fifo f name =>
      exact absurd (ArgSource.Name.inj heq).symm (hsep.spelling _ _ _ _ _ _ _ hq hp he' he)
    | port n' => rw [ArgSource.Name.inj heq]
    | const value => cases heq
  | const value =>
    cases e' with
    | fifo f name | port n => cases heq
    | const value' => rw [ArgSource.Literal.inj heq]

theorem Flat.preserves_iff (h : g.Flat fuel r) :
    g.Preserves r (g.endpoint fuel) ↔ g.Separate := by
  constructor
  · intro hpres
    refine ⟨?_, ?_⟩
    · intro p inst port hp hinst hport
      cases p with
      | nil => cases hinst
      | cons s p =>
        obtain ⟨a, hflat⟩ := isSome_iff_exists.mp
          (((h.keeps_args _ inst hp hinst).2 port).mpr hport)
        obtain ⟨e, he, _⟩ := (hpres _ _ hp hp _ _ _ _ hflat hflat).mp rfl
        rw [he]
        rfl
    · intro p q x y f name n hp hq hx hy heq
      have hfx := (h.flat_arg_eq hp x).trans (flat_instance_arg hx)
      have hfy := (h.flat_arg_eq hq y).trans (flat_instance_arg hy)
      have hsame : g.source (.fifo f name) = g.source (.port n) := congrArg ArgSource.Name heq
      obtain ⟨e, he, he'⟩ := (hpres _ _ hp hq _ _ _ _ hfx hfy).mp hsame
      rw [hx] at he
      rw [hy] at he'
      cases he.trans he'.symm
  · intro hsep p q hp hq x y a b ha hb
    have hreach {p : Path} {x : Str} {a : ArgSource} (hp : g.IsLeaf p)
        (ha : flat_arg r (g.endpoint fuel p) x = some a) :
        ∃ e, g.reaches p x = some e ∧ a = g.source e := by
      rw [h.flat_arg_eq hp] at ha
      obtain ⟨arg, harg, rfl⟩ := map_eq_some_iff.mp ha
      cases hp.1 with
      | top =>
        have hlow := hp.2
        rw [h.upper] at hlow
        cases hlow
      | invoke _ _ hinst =>
        obtain ⟨inst, hinst⟩ := isSome_iff_exists.mp hinst
        have hport := (mem_flat_instance_args hinst x).mp
          (mem_of_get harg)
        obtain ⟨e, he⟩ := isSome_iff_exists.mp (hsep.reaches _ inst x hp hinst hport)
        refine ⟨e, he, ?_⟩
        have hsource := flat_instance_arg he
        rw [harg] at hsource
        exact Option.some.inj hsource
    obtain ⟨e, he, rfl⟩ := hreach hp ha
    obtain ⟨e', he', rfl⟩ := hreach hq hb
    constructor
    · intro heq
      obtain rfl := h.source_inj hsep hp hq he he' heq
      exact ⟨e, he, he'⟩
    · rintro ⟨e1, h1, h2⟩
      rw [he] at h1
      rw [he'] at h2
      rw [Option.some.inj h1, Option.some.inj h2]

end Leaves

/-! ## Flattening preserves connectivity -/

/-- A leaf with one port, and an invocation that binds it. -/
def leafTask (port : Str) (cat : ArgCategory) : Task where
  level := .Lower
  ports := [⟨cat, port, 32, none, none⟩]
  tasks := ∅
  fifos := ∅
  self_area := none

def bindTo (port name : Str) (cat : ArgCategory) : TaskInstance where
  name := none
  args := (∅ : BTreeMap Str Arg).insert port ⟨.Name name, cat⟩
  step := 0

/-- `A` writes the FIFO `q` of the top `T`, and `C` has the memory port `mem`. -/
def streamAndMemory (mem : Str) : TaskGraph where
  top := ['T']
  tasks := (((∅ : BTreeMap Str Task).insert ['A'] (leafTask ['o'] .Ostream)).insert ['C']
    (leafTask ['m'] .Mmap)).insert ['T']
      { level := .Upper
        ports := [⟨.Mmap, mem, 32, none, none⟩]
        tasks := ((∅ : BTreeMap Str (List TaskInstance)).insert ['A']
          [bindTo ['o'] ['q'] .Ostream]).insert ['C'] [bindTo ['m'] mem .Mmap]
        fifos := (∅ : BTreeMap Str InterconnectDefinition).insert ['q']
          ⟨some 2, none, some (['A'], 0)⟩
        self_area := none }

/-- In a graph without cycles flattening comes to an end. -/
theorem flatten_with_origins_finishes (hacyclic : g.Acyclic) :
    ∃ enough, ∀ fuel, enough ≤ fuel → flatten_with_origins fuel g ≠ .error .unfinished := by
  obtain ⟨rank, hrank⟩ := hacyclic
  refine ⟨rank g.top + 1, fun fuel hfuel h => ?_⟩
  unfold flatten_with_origins at h
  rcases bind_eq_error.mp h with h | ⟨top, _, h⟩
  · exact get_task_ne_unfinished h
  split at h
  · cases h
  rcases bind_eq_error.mp h with h | ⟨c, _, h⟩
  · have := rank_of_unfinished hrank h
    omega
  · cases h

/-- In a graph without cycles flattening comes to an end. Where it returns a
graph, the flat instances are the leaves of the hierarchy with their arguments,
and connectivity is preserved just when every argument of a leaf reaches something
and no port of the top is spelled like the global name of a FIFO. -/
theorem flattening_preserves_connectivity (g : TaskGraph) (hacyclic : g.Acyclic) :
    ∃ enough, ∀ fuel, enough ≤ fuel → flatten_with_origins fuel g ≠ .error .unfinished ∧
      ∀ r, flatten_with_origins fuel g = .ok r →
        ∃ place : Path → EndpointRef,
          Set.BijOn place {p | g.IsLeaf p} {e | (r.flat.inst_at [e]).isSome} ∧
            (∀ p inst, g.IsLeaf p → g.inst_at p = some inst → (place p).1 = g.task_name_at p ∧
              ∀ x, (flat_arg r (place p) x).isSome ↔ x ∈ inst.args) ∧
            (g.Preserves r place ↔ g.Separate) := by
  obtain ⟨enough, hend⟩ := flatten_with_origins_finishes hacyclic
  refine ⟨enough, fun fuel hfuel => ⟨hend fuel hfuel, fun r hr => ?_⟩⟩
  have hflat := flatten_with_origins_ok hr
  exact ⟨g.endpoint fuel, hflat.endpoint_bijOn, hflat.keeps_args, hflat.preserves_iff⟩

/-- With the memory port `mem` the two have names of their own. -/
theorem a_stream_and_a_memory_stay_apart :
    let g := streamAndMemory ['m', 'e', 'm']
    (∃ enough, ∀ fuel, enough ≤ fuel → flatten_with_origins fuel g ≠ .error .unfinished) ∧
      ((flatten_with_origins 2 g).toOption.bind fun r => flat_arg r (['A'], 0) ['o']) ≠
        (flatten_with_origins 2 g).toOption.bind fun r => flat_arg r (['C'], 0) ['m'] := by
  intro g
  have hacyclic : g.Acyclic :=
    acyclic_of_toList (fun name => if name = ['T'] then 1 else 0) (by decide +kernel)
  obtain ⟨enough, h⟩ := flattening_preserves_connectivity g hacyclic
  exact ⟨⟨enough, fun fuel hfuel => (h fuel hfuel).1⟩, by decide +kernel⟩

/-- The memory port `q_T` and the FIFO `q` of `T` get one flat name. -/
theorem a_memory_port_merges_with_a_fifo :
    let g := streamAndMemory ['q', '_', 'T']
    let flat_name := fun e port =>
      (flatten_with_origins 2 g).toOption.bind fun r => flat_arg r e port
    g.reaches [(['A'], 0)] ['o'] = some (.fifo [] ['q']) ∧
      g.reaches [(['C'], 0)] ['m'] = some (.port ['q', '_', 'T']) ∧
      flat_name (['A'], 0) ['o'] = some (.Name ['q', '_', 'T']) ∧
      flat_name (['C'], 0) ['m'] = some (.Name ['q', '_', 'T']) := by
  decide +kernel

end TaskGraph

end Tapa.Ir
