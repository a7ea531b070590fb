-- The last two passes of the construction: the memory channels between tasks and
-- banks, and the control channels between the global controller and the tasks.
import Tapa.FloorTasks

namespace Tapa.Floorplan

open Ir Text Fallible List Std.ExtTreeMap

/-! ## Memory -/

variable {top : Task}

theorem memory_endpoint_eq {task : Task} {child : Child} {port : Str} {arg : Arg}
    {endpoint : AxiEndpoint} {cat : ArgCategory}
    (h : memory_endpoint top task child port arg = .ok (some (endpoint, cat))) :
    endpoint.inst = child.canonical ∧ endpoint.port = port := by
  unfold memory_endpoint at h
  split at h
  · cases h
  simp only [bind_eq_ok] at h
  obtain ⟨parent, _, p, _, q, _, h⟩ := h
  split at h
  · cases h
  split at h
  · cases h
  · cases h
    exact ⟨rfl, rfl⟩

/-- Every interface that is expected belongs to a child, at the cluster of that child. -/
def OfChildren (children : List Child) (e : BTreeMap AxiEndpoint ExpectedMemoryEndpoint) : Prop :=
  ∀ (endpoint : AxiEndpoint) (x : ExpectedMemoryEndpoint), e[endpoint]? = some x →
    ∃ c, children[x.task_vertex]? = some c ∧ endpoint.inst = c.canonical

variable {c : Child}

theorem expect_argument_ofChildren {children : List Child} {task : Task} {i : Nat}
    {e e' : Expected} {arg : Str × Arg} (hc : children[i]? = some c)
    (h : expect_argument top task c i e arg = .ok e') (he : OfChildren children e.endpoints) :
    OfChildren children e'.endpoints := by
  simp only [expect_argument, bind_eq_ok] at h
  obtain ⟨found, hfound, heq⟩ := h
  cases heq
  cases found with
  | none => exact he
  | some entry =>
    intro key x hx
    rcases get_insert_eq_some.mp hx with ⟨rfl, rfl⟩ | ⟨_, hx⟩
    · exact ⟨c, hc, (memory_endpoint_eq hfound).1⟩
    · exact he key x hx

variable {b : Builder}

theorem Builder.Tasks.child_at {children : List Child} (h : b.Tasks children) (hc : c ∈ children)
    {i : Nat} (hi : b.task_endpoints[(c.definition, c.index)]? = some i) :
    children[i]? = some c := by
  obtain ⟨j, hj⟩ := mem_iff_getElem?.mp hc
  have hij := (h.endpoint j c hj).symm.trans hi
  rw [← Option.some.inj hij]
  exact hj

variable {flat : TaskGraph}

theorem expected_memory_interfaces_ok {e : BTreeMap AxiEndpoint ExpectedMemoryEndpoint}
    (hb : b.Tasks (child_instances top))
    (h : expected_memory_interfaces flat top b.task_endpoints = .ok e) :
    OfChildren (child_instances top) e := by
  simp only [expected_memory_interfaces, bind_eq_ok] at h
  obtain ⟨found, hfound, h⟩ := h
  have hall : OfChildren (child_instances top) found.endpoints := by
    refine foldlM_invariant (P := fun _ e => OfChildren (child_instances top) e.endpoints) hfound
      ?_ ?_
    · intro endpoint x hx
      simp at hx
    · intro _ c e e' hdone he hstep
      simp only [expect_child, bind_eq_ok, ok_or_eq_ok] at hstep
      obtain ⟨task, _, i, hi, hargs⟩ := hstep
      have hc := hb.child_at (hdone.subset (by simp)) hi
      exact foldlM_invariant (P := fun _ e => OfChildren (child_instances top) e.endpoints) hargs
        he fun _ _ _ _ _ he harg => expect_argument_ofChildren hc harg he
  split at h
  · cases h
  · cases h
    exact hall

/-- What is given under an endpoint is an interface with that endpoint. -/
def Provides (provided : BTreeMap AxiEndpoint MemoryInterface) : Prop :=
  ∀ (endpoint : AxiEndpoint) (m : MemoryInterface), provided[endpoint]? = some m →
    m.endpoint = endpoint

variable {provided : BTreeMap AxiEndpoint MemoryInterface}
  {expected : BTreeMap AxiEndpoint ExpectedMemoryEndpoint} {memory : List MemoryInterface}

theorem provided_interfaces_ok (h : provided_interfaces expected memory = .ok provided) :
    Provides provided := by
  simp only [provided_interfaces, bind_eq_ok] at h
  obtain ⟨given, hgiven, h⟩ := h
  have hprov : Provides given := by
    refine foldlM_invariant (P := fun _ => Provides) hgiven (fun _ _ h => by simp at h) ?_
    intro _ m p p' _ hP hstep endpoint x hx
    unfold provide at hstep
    split at hstep
    · cases hstep
    cases hstep
    rcases get_insert_eq_some.mp hx with ⟨rfl, rfl⟩ | ⟨_, hx⟩
    · rfl
    · exact hP endpoint x hx
  split at h
  · cases h
  split at h
  · cases h
  · cases h
    exact hprov

variable {x : BoundInterface}

theorem expected_of_mem_bound (hp : Provides provided)
    (hx : x ∈ bound_interfaces expected provided) :
    expected[x.interface.endpoint]? = some x.expected := by
  unfold bound_interfaces at hx
  simp only [mem_filterMap, Prod.exists, Option.map_eq_some_iff,
    mem_toList_iff_getElem?_eq_some] at hx
  obtain ⟨endpoint, e, he, m, hm, rfl⟩ := hx
  exact hp endpoint m hm ▸ he

theorem bound_interfaces_nodup (hp : Provides provided) :
    ((bound_interfaces expected provided).map fun x => x.interface.endpoint).Nodup := by
  unfold bound_interfaces
  rw [map_filterMap, List.Nodup, pairwise_filterMap]
  refine toList_keys_ne.imp ?_
  rintro ⟨e, x⟩ ⟨e', x'⟩ hne k hk k' hk' rfl
  simp only [Option.map_map, Option.map_eq_some_iff] at hk hk'
  obtain ⟨m, hm, rfl⟩ := hk
  obtain ⟨m', hm', heq⟩ := hk'
  have he := hp e m hm
  have he' := hp e' m' hm'
  exact hne (he.symm.trans (heq.symm.trans he'))

/-- Reserving names leaves all but the aliases as it is. -/
theorem reserve_interfaces_ok {bound : List BoundInterface} {occ : Occupied}
    {s : Occupied × Builder} (h : bound.foldlM reserve_interface (occ, b) = .ok s) :
    ∃ aliases, s.2 = { b with co_located := aliases } := by
  refine foldlM_invariant (P := fun _ s => ∃ aliases, s.2 = { b with co_located := aliases }) h
    ⟨_, rfl⟩ ?_
  rintro _ x s s' _ ⟨aliases, hs⟩ hstep
  simp only [reserve_interface, bind_eq_ok] at hstep
  obtain ⟨_, _, occ, _, hstep⟩ := hstep
  split at hstep
  · cases hstep
    exact ⟨aliases, hs⟩
  · simp only [bind_eq_ok] at hstep
    obtain ⟨occ', _, hstep⟩ := hstep
    cases hstep
    exact ⟨_, by rw [hs, Builder.co_locate]⟩

/-- The channels of an interface, between its task and the cluster of its bank. -/
def interface_nets (terminals : Terminals) (x : BoundInterface) : List AxiNet :=
  x.interface.channel_widths.enabled_channels.map fun entry =>
    axi_net x ((terminals.lookup x.interface.bank).getD 0) entry.1 entry.2

theorem add_axi_nets_ok {terminal : Nat} {entries : List (AxiChannel × Nat)}
    {s s' : Builder × List AxiNet} (h : entries.foldlM (add_axi_net x terminal) s = .ok s') :
    s'.2 = s.2 ++ entries.map (fun entry => axi_net x terminal entry.1 entry.2) ∧
      s.1.Adds s'.1 ((entries.map fun entry => axi_net x terminal entry.1 entry.2).map .axi) := by
  refine foldlM_invariant (P := fun done s' =>
    s'.2 = s.2 ++ done.map (fun entry => axi_net x terminal entry.1 entry.2) ∧
      s.1.Adds s'.1 ((done.map fun entry => axi_net x terminal entry.1 entry.2).map .axi)) h
    ⟨by simp, .refl s.1⟩ ?_
  rintro done entry t t' _ ⟨hn, hadds⟩ hstep
  simp only [add_axi_net] at hstep
  split at hstep
  · cases hstep
  simp only [bind_eq_ok, ok_or_eq_ok] at hstep
  obtain ⟨b, hb, heq⟩ := hstep
  cases heq
  have hnet := hadds.net (.axi (axi_net x terminal entry.1 entry.2)) hb
  exact ⟨by simp [hn], by simpa using hnet⟩

/-- The state of the third pass after some of the interfaces. -/
structure AxiPass (b0 : Builder) (done : List BoundInterface)
    (s : (Builder × Terminals) × List AxiNet) : Prop where
  appends : b0.Appends s.1.1
  terminal : ∀ bank t, s.1.2.lookup bank = some t → s.1.1.vertices[t]? = some (bank_vertex bank)
  has_terminal : ∀ x ∈ done, x.interface.channel_widths.enabled_channels ≠ [] →
    (s.1.2.lookup x.interface.bank).isSome
  nets : s.2 = done.flatMap (interface_nets s.1.2)
  wires : ∀ before, b0.Accumulates before → s.1.1.Accumulates (before ++ s.2.map .axi)

/-- What looking up the cluster of a bank does, when it may create the cluster. -/
structure FindsBank (b b' : Builder) (terminals terminals' : Terminals) (bank : MemoryBank)
    (t : Nat) : Prop where
  appends : b.Appends b'
  widths : b'.placement_widths = b.placement_widths
  found : terminals'.lookup bank = some t
  kept : ∀ k u, terminals.lookup k = some u → terminals'.lookup k = some u
  vertex : (∀ k u, terminals.lookup k = some u → b.vertices[u]? = some (bank_vertex k)) →
    ∀ k u, terminals'.lookup k = some u → b'.vertices[u]? = some (bank_vertex k)

variable {b' : Builder}

theorem bank_terminal_ok {terminals terminals' : Terminals} {bank : MemoryBank} {t : Nat}
    (h : bank_terminal b terminals bank = .ok (b', terminals', t)) :
    FindsBank b b' terminals terminals' bank t := by
  unfold bank_terminal at h
  split at h
  · rename_i t' ht'
    cases h
    exact ⟨.refl b, rfl, ht', fun _ _ h => h, id⟩
  · rename_i hnone
    split at h
    · cases h
    cases h
    refine ⟨⟨rfl, _, rfl, by simp [bank_vertex]⟩, rfl, by simp, ?_, ?_⟩
    · intro k u hk
      have hne : k ≠ bank := by
        rintro rfl
        rw [hnone] at hk
        cases hk
      rw [lookup_cons, beq_false_of_ne hne]
      exact hk
    · intro hall k u hk
      rw [lookup_cons] at hk
      split at hk
      · rename_i heq
        cases hk
        rw [eq_of_beq heq, Builder.push_vertex, getElem?_concat_length]
      · exact getElem?_snoc_eq_some.mpr (.inl (hall k u hk))

theorem interface_nets_congr {terminals terminals' : Terminals}
    (hkept : ∀ k u, terminals.lookup k = some u → terminals'.lookup k = some u) (hx :
    x.interface.channel_widths.enabled_channels ≠ [] → (terminals.lookup x.interface.bank).isSome) :
    interface_nets terminals' x = interface_nets terminals x := by
  by_cases hne : x.interface.channel_widths.enabled_channels = []
  · simp [interface_nets, hne]
  · obtain ⟨t, ht⟩ := Option.isSome_iff_exists.mp (hx hne)
    rw [interface_nets, interface_nets, ht, hkept _ _ ht]

theorem AxiPass.step {b0 : Builder} {done : List BoundInterface}
    {s s' : (Builder × Terminals) × List AxiNet} (h : AxiPass b0 done s)
    (hstep : add_interface s x = .ok s') : AxiPass b0 (done ++ [x]) s' := by
  unfold add_interface at hstep
  split at hstep
  · rename_i hnone
    cases hstep
    refine ⟨h.appends, h.terminal,
      forall_mem_snoc.mpr ⟨h.has_terminal, absurd hnone⟩, ?_, h.wires⟩
    rw [h.nets]
    simp [interface_nets, hnone]
  · simp only [bind_eq_ok] at hstep
    obtain ⟨⟨b1, terminals, t⟩, hbank, ⟨b2, nets⟩, hnets, heq⟩ := hstep
    cases heq
    have hb := bank_terminal_ok hbank
    obtain ⟨en, hadds⟩ := add_axi_nets_ok hnets
    refine ⟨(h.appends.trans hb.appends).trans hadds.appends, ?_, ?_, ?_, fun before hb0 => ?_⟩
    · intro k u hk
      rw [hadds.vertices]
      exact hb.vertex h.terminal k u hk
    · refine forall_mem_snoc.mpr ⟨fun y hy hne => ?_, by simp [hb.found]⟩
      obtain ⟨u, hu⟩ := Option.isSome_iff_exists.mp (h.has_terminal y hy hne)
      rw [hb.kept _ _ hu]
      rfl
    · have hold : done.flatMap (interface_nets s.1.2) =
          done.flatMap (interface_nets terminals) := by
        apply flatMap_congr
        intro y hy
        exact (interface_nets_congr hb.kept (h.has_terminal y hy)).symm
      rw [en, h.nets, hold]
      simp [interface_nets, hb.found]
    · rw [en, map_append, ← append_assoc]
      exact hadds.wires _ ((h.wires before hb0).congr hb.widths)

/-- What the third pass does with the interfaces of the design. -/
structure MemoryPass (top : Task) (b b' : Builder) (nets : List AxiNet)
    (bound : List BoundInterface) (terminals : Terminals) : Prop where
  appends : b.Appends b'
  nodup : (bound.map fun x => x.interface.endpoint).Nodup
  child : ∀ x ∈ bound, ∃ c, (child_instances top)[x.expected.task_vertex]? = some c ∧
    x.interface.endpoint.inst = c.canonical
  terminal : ∀ bank t, terminals.lookup bank = some t → b'.vertices[t]? = some (bank_vertex bank)
  has_terminal : ∀ x ∈ bound, x.interface.channel_widths.enabled_channels ≠ [] →
    (terminals.lookup x.interface.bank).isSome
  wires : ∀ before, b.Accumulates before → b'.Accumulates (before ++ nets.map .axi)
  nets : nets = bound.flatMap (interface_nets terminals)

theorem add_memory_interfaces_ok {nets : List AxiNet}
    (hb : b.Tasks (child_instances top))
    (h : add_memory_interfaces flat top memory b = .ok (b', nets)) :
    ∃ bound terminals, MemoryPass top b b' nets bound terminals := by
  simp only [add_memory_interfaces, bind_eq_ok] at h
  obtain ⟨expected, hexp, provided, hprov, occ, _, ⟨occ', b1⟩, hres, ⟨⟨b2, terminals⟩, nets'⟩, hadd,
    heq⟩ := h
  cases heq
  have hchild := expected_memory_interfaces_ok hb hexp
  have hp := provided_interfaces_ok hprov
  obtain ⟨aliases, rfl⟩ := reserve_interfaces_ok hres
  have hstart : b.Appends { b with co_located := aliases } := ⟨rfl, [], by simp, by simp⟩
  have hpass : AxiPass { b with co_located := aliases } (bound_interfaces expected provided)
      ((b2, terminals), nets') := by
    refine foldlM_invariant (P := AxiPass _) hadd ?_ fun done x s s' _ hP hstep => hP.step hstep
    refine ⟨.refl _, ?_, ?_, ?_, ?_⟩
    · simp
    · simp
    · simp
    · simp
  exact ⟨bound_interfaces expected provided, terminals, hstart.trans hpass.appends,
    bound_interfaces_nodup hp, fun x hx => hchild _ _ (expected_of_mem_bound hp hx),
    hpass.terminal, hpass.has_terminal, fun before hb0 => hpass.wires before (hb0.congr rfl),
    hpass.nets⟩

/-! ## Control -/

theorem co_locate_all (names : List Str) (host : Nat) (b : Builder) :
    ∃ aliases, names.foldl (fun b name => b.co_locate name host) b =
      { b with co_located := aliases } := by
  induction names generalizing b with
  | nil => exact ⟨_, rfl⟩
  | cons name names ih => exact ih (b.co_locate name host)

theorem add_control_nets_ok {nets : List ControlNet} {s s' : Builder × List ControlNet}
    (h : nets.foldlM add_control_net s = .ok s') :
    s'.2 = s.2 ++ nets ∧ s.1.Adds s'.1 (nets.map .control) := by
  refine foldlM_invariant (P := fun done s' => s'.2 = s.2 ++ done ∧
    s.1.Adds s'.1 (done.map .control)) h ⟨by simp, .refl s.1⟩ ?_
  rintro done net t t' _ ⟨hn, hadds⟩ hstep
  simp only [add_control_net, bind_eq_ok, ok_or_eq_ok] at hstep
  obtain ⟨b, hb, heq⟩ := hstep
  cases heq
  exact ⟨by simp [hn], map_append.symm ▸ hadds.net (.control net) hb⟩

/-- The width of the launch channel of a child, where its metadata is in order. -/
def launch_width (flat : TaskGraph) (c : Child) : Nat :=
  ((flat.tasks[c.definition]?).bind fun task =>
    (control_launch_width task c.inst c.canonical).toOption).getD 0

/-- The control channels of the children, when child `i` is the cluster `i`. -/
def control_nets (flat : TaskGraph) (global : Nat) (children : List Child) : List ControlNet :=
  children.zipIdx.flatMap fun (c, i) =>
    child_nets global i c.canonical c.inst (launch_width flat c)

/-- The state of the last pass after some of the children. -/
structure ControlPass (flat : TaskGraph) (b0 : Builder) (global : Nat) (done : List Child)
    (s : Builder × List ControlNet) : Prop where
  vertices : s.1.vertices = b0.vertices
  endpoints : s.1.task_endpoints = b0.task_endpoints
  nets : s.2 = control_nets flat global done
  wires : ∀ before, b0.Accumulates before → s.1.Accumulates (before ++ s.2.map .control)

theorem ControlPass.step {b0 : Builder} {global : Nat} {done : List Child}
    {s s' : Builder × List ControlNet} (h : ControlPass flat b0 global done s)
    (hi : b0.task_endpoints[(c.definition, c.index)]? = some done.length)
    (hstep : add_child_control flat global s c = .ok s') :
    ControlPass flat b0 global (done ++ [c]) s' := by
  simp only [add_child_control, bind_eq_ok, ok_or_eq_ok] at hstep
  obtain ⟨task, htask, i, hvertex, w, hw, hnets⟩ := hstep
  rw [h.endpoints, hi] at hvertex
  cases hvertex
  obtain ⟨en, hadds⟩ := add_control_nets_ok hnets
  have hlaunch : launch_width flat c = w := by
    simp [launch_width, htask, hw, Except.toOption]
  refine ⟨hadds.vertices.trans h.vertices, hadds.endpoints.trans h.endpoints, ?_,
    fun before hb => ?_⟩
  · rw [en, h.nets, control_nets, control_nets, zipIdx_append]
    simp [hlaunch]
  · rw [en, map_append, ← append_assoc]
    exact hadds.wires _ ((h.wires before hb).congr rfl)

/-- What distributed control adds: the global controller and the channels to the local ones. -/
structure AddsControl (flat : TaskGraph) (top : Task) (anchor : Option Str) (b b' : Builder)
    (nets : List ControlNet) : Prop where
  vertices : b'.vertices = b.vertices ++ [global_vertex anchor]
  endpoints : b'.task_endpoints = b.task_endpoints
  wires : ∀ before, b.Accumulates before → b'.Accumulates (before ++ nets.map .control)
  nets : nets = control_nets flat b.vertices.length (child_instances top)

theorem add_control_interface_ok {control : ControlInterface} {anchor : Option Str}
    {projection : Option FlatProjection} {nets : List ControlNet}
    (hb : b.Tasks (child_instances top))
    (h : add_control_interface flat top memory control anchor projection b = .ok (b', nets)) :
    AddsControl flat top anchor b b' nets := by
  simp only [add_control_interface, bind_eq_ok] at h
  obtain ⟨_, _, h⟩ := h
  split at h
  · cases h
  obtain ⟨aliases, haliases⟩ := co_locate_all (global_aliases control projection) b.vertices.length
    (b.push_vertex (global_vertex anchor))
  rw [haliases] at h
  have hpass := foldlM_invariant (P := ControlPass flat
    { b.push_vertex (global_vertex anchor) with co_located := aliases } b.vertices.length) h
    ⟨rfl, rfl, rfl, fun before hb => (append_nil before).symm ▸ hb⟩ ?_
  · exact ⟨hpass.vertices, hpass.endpoints,
      fun before hb => hpass.wires before (hb.congr rfl), hpass.nets⟩
  · intro done c s s' hdone hP hstep
    refine hP.step ?_ hstep
    obtain ⟨rest, hrest⟩ := hdone
    refine hb.endpoint done.length c ?_
    rw [← hrest]
    simp

end Tapa.Floorplan
