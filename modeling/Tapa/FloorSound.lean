-- What a placement graph is once it is built: no channel occurs twice, every channel
-- has its two clusters, and the area of a cluster covers the FIFOs that it reads.
import Tapa.FloorInterfaces

namespace Tapa.Floorplan

open Ir Text Fallible List

/-! ## The stages of a construction -/

/-- The builders between the passes of a construction that succeeds. -/
structure Stages (flat : TaskGraph) (memory : List MemoryInterface)
    (control : Option ControlInterface) (anchor : Option Str) (projection : Option FlatProjection)
    (g : FloorGraph) (top : Task) (b0 b1 b2 b3 : Builder) : Prop where
  top_task : flat.tasks[flat.top]? = some top
  added : add_task_vertices flat top Builder.empty = .ok b0
  clustered : cluster_internal_fifos flat top b0 = .ok (b1, g.streams)
  tasks : TaskPass (child_instances top) b0
  fifos : FifoPass b0 top.fifos.toList (b1, g.streams)
  memory_ok : add_memory_interfaces flat top memory b1 = .ok (b2, g.axi_nets)
  control_ok : add_control flat top memory control anchor projection b2 = .ok (b3, g.control_nets)
  vertices : g.vertices = b3.vertices
  edges : g.placement_edges = b3.placement_edges

theorem build_with_scopes_ok {flat : TaskGraph} {memory : List MemoryInterface}
    {control : Option ControlInterface} {anchor : Option Str} {projection : Option FlatProjection}
    {g : FloorGraph} (h : build_with_scopes flat memory control anchor projection = .ok g) :
    ∃ top b0 b1 b2 b3, Stages flat memory control anchor projection g top b0 b1 b2 b3 := by
  simp only [build_with_scopes, bind_eq_ok, ok_or_eq_ok] at h
  obtain ⟨top, htop, b0, h0, ⟨⟩, hs, ⟨b1, streams⟩, h1, ⟨b2, axi⟩, h2, ⟨b3, ctl⟩, h3, occ, h4,
    h5⟩ := h
  cases h5
  exact ⟨top, b0, b1, b2, b3, htop, h0, h1, add_task_vertices_ok h0, cluster_internal_fifos_ok h1,
    h2, h3, rfl, rfl⟩

section Stages

variable {flat : TaskGraph} {memory : List MemoryInterface} {control : Option ControlInterface}
variable {anchor : Option Str} {projection : Option FlatProjection} {g : FloorGraph} {top : Task}
variable {b0 b1 b2 b3 : Builder}

section

variable (h : Stages flat memory control anchor projection g top b0 b1 b2 b3)
include h

theorem Stages.memoryPass :
    ∃ bound terminals, MemoryPass top b1 b2 g.axi_nets bound terminals :=
  add_memory_interfaces_ok (h.tasks.tasks.grows h.fifos.grows) h.memory_ok

theorem Stages.tasks2 : b2.Tasks (child_instances top) := by
  obtain ⟨bound, terminals, hm⟩ := h.memoryPass
  exact h.tasks.tasks.grows (h.fifos.grows.trans hm.appends.grows)

/-- The control pass adds the controller with its channels, or does nothing. -/
theorem Stages.controlPass : (∃ c, control = some c ∧ has_children top projection = true ∧
      AddsControl flat top anchor b2 b3 g.control_nets) ∨
    (b3 = b2 ∧ g.control_nets = []) := by
  have hc := h.control_ok
  unfold add_control at hc
  split at hc
  · rename_i c hfilter
    rw [Option.filter_eq_some_iff] at hfilter
    exact Or.inl ⟨c, hfilter.1, hfilter.2, add_control_interface_ok h.tasks2 hc⟩
  · simp only [Except.ok.injEq, Prod.mk.injEq] at hc
    exact Or.inr ⟨hc.1.symm, hc.2.symm⟩

/-- The last two passes append clusters. -/
theorem Stages.appends : b1.Appends b2 ∧ b2.Appends b3 := by
  obtain ⟨bound, terminals, hm⟩ := h.memoryPass
  refine ⟨hm.appends, ?_⟩
  rcases h.controlPass with ⟨c, _, _, hc⟩ | ⟨rfl, _⟩
  · exact ⟨hc.endpoints, _, hc.vertices, by simp [global_vertex]⟩
  · exact .refl _

theorem Stages.grows : b1.Grows b3 := (h.appends.1.trans h.appends.2).grows

theorem Stages.tasks3 : b3.Tasks (child_instances top) := h.tasks2.grows h.appends.2.grows

theorem Stages.canonical_nodup : ((child_instances top).map Child.canonical).Nodup := by
  have hpre : (child_instances top).map Child.canonical <+: b0.vertices.map Vertex.name := by
    rw [prefix_iff_getElem?]
    intro i hi
    rw [length_map] at hi
    obtain ⟨v, hv, hn, _⟩ := h.tasks.tasks.vertex i _ (getElem?_eq_getElem hi)
    rw [getElem?_map, hv, Option.map_some, hn, getElem_map]
  exact hpre.sublist.nodup h.tasks.named.nodup

end

end Stages

/-! ## Channels -/

def FloorGraph.channels (g : FloorGraph) : List Channel :=
  g.streams.map Stream.toChannel ++ g.axi_nets.map AxiNet.toChannel ++
    g.control_nets.map ControlNet.toChannel

/-- What every placement graph that is built satisfies. -/
structure FloorGraph.Sound (g : FloorGraph) : Prop where
  nodup : (g.channels.map Channel.channel).Nodup
  ends : ∀ c ∈ g.channels, c.src < g.vertices.length ∧ c.dst < g.vertices.length
  streams : ∀ s ∈ g.streams, s.width = s.data_width + 2 ∧ 0 < s.data_width ∧ s.width < 2 ^ 32
  reader : ∀ s ∈ g.streams, ∃ v : Vertex, g.vertices[s.dst]? = some v ∧ v.materialize = true
  hosts : ∀ (i : Nat) (v : Vertex), g.vertices[i]? = some v → hosted g.streams i ≤ v.area
  paired : ∀ n ∈ g.control_nets, n.channel = .Reset → ∃ l ∈ g.control_nets,
    l.inst = n.inst ∧ l.channel = .Launch ∧ l.src = n.src ∧ l.dst = n.dst

section Stages

variable {flat : TaskGraph} {memory : List MemoryInterface} {control : Option ControlInterface}
variable {anchor : Option Str} {projection : Option FlatProjection} {g : FloorGraph} {top : Task}
variable {b0 b1 b2 b3 : Builder}

theorem Stages.links_nodup (h : Stages flat memory control anchor projection g top b0 b1 b2 b3) :
    (g.streams.map Stream.link).Nodup := by
  exact h.fifos.links.nodup (toList_keys_ne.map _ fun _ _ hne => hne)

theorem interface_nets_nodup {bound : List BoundInterface} (terminals : Terminals)
    (hnodup : (bound.map fun x => x.interface.endpoint).Nodup) :
    ((bound.flatMap (interface_nets terminals)).map fun n => (n.endpoint, n.channel)).Nodup := by
  rw [map_flatMap, nodup_flatMap]
  constructor
  · intro x _
    have hch := x.interface.channel_widths.enabled_channels_nodup
    have heq : (interface_nets terminals x).map (fun n => (n.endpoint, n.channel)) =
        (x.interface.channel_widths.enabled_channels.map Prod.fst).map
          fun ch => (x.interface.endpoint, ch) := by
      simp [interface_nets, axi_net, Function.comp_def]
    rw [heq]
    exact hch.map fun a c hac => congrArg Prod.snd hac
  · refine (pairwise_map.mp hnodup).imp ?_
    intro x y hne n hx hy
    simp only [interface_nets, axi_net, map_map, mem_map] at hx hy
    obtain ⟨a, _, rfl⟩ := hx
    obtain ⟨c, _, hc⟩ := hy
    exact hne (congrArg Prod.fst hc).symm

theorem control_nets_nodup {flat : TaskGraph} {global : Nat} {children : List Child}
    (hnodup : (children.map Child.canonical).Nodup) :
    ((control_nets flat global children).map fun n => (n.inst, n.channel)).Nodup := by
  unfold control_nets
  rw [map_flatMap, nodup_flatMap]
  constructor
  · rintro ⟨c, i⟩ _
    simp only [child_nets]
    split <;> simp
  · have hfst : (children.zipIdx.map Prod.fst).Pairwise fun x y => x.canonical ≠ y.canonical := by
      rw [zipIdx_map_fst]
      exact pairwise_map.mp hnodup
    have hpair := pairwise_map.mp hfst
    refine hpair.imp ?_
    rintro ⟨x, i⟩ ⟨y, j⟩ hne n hx hy
    have hinst : ∀ (z : Child) (k : Nat), n ∈ (child_nets global k z.canonical z.inst
        (launch_width flat z)).map (fun n => (n.inst, n.channel)) → n.1 = z.canonical := by
      intro z k hz
      simp only [child_nets, mem_map] at hz
      obtain ⟨net, hnet, rfl⟩ := hz
      split at hnet <;> simp at hnet <;> rcases hnet with rfl | rfl | rfl <;> rfl
    exact hne ((hinst x i hx).symm.trans (hinst y j hy))

section

variable (h : Stages flat memory control anchor projection g top b0 b1 b2 b3)
include h

/-- Every stream, memory channel and control channel has two clusters. -/
theorem Stages.stream_ends
    {s : Stream} (hs : s ∈ g.streams) : s.src < g.vertices.length ∧ ∃ v : Vertex,
      g.vertices[s.dst]? = some v ∧ v.materialize = true := by
  obtain ⟨_, _, _, _, hsrc, hdst⟩ := h.fifos.streams s hs
  rw [← h.fifos.grows.endpoints, ← h.grows.endpoints] at hsrc hdst
  obtain ⟨r, hr⟩ := hsrc
  obtain ⟨r', hr'⟩ := hdst
  obtain ⟨c, hc, _⟩ := h.tasks3.child r s.src hr
  obtain ⟨c', hc', _⟩ := h.tasks3.child r' s.dst hr'
  obtain ⟨v, hv, _, _⟩ := h.tasks3.vertex _ c hc
  obtain ⟨v', hv', _, hm'⟩ := h.tasks3.vertex _ c' hc'
  rw [h.vertices]
  exact ⟨(List.getElem?_eq_some_iff.mp hv).1, v', hv', hm'⟩

theorem Stages.child_lt
    {i : Nat} {c : Child} (hc : (child_instances top)[i]? = some c) : i < g.vertices.length := by
  obtain ⟨v, hv, _, _⟩ := h.tasks3.vertex i c hc
  rw [h.vertices]
  exact (List.getElem?_eq_some_iff.mp hv).1

theorem Stages.axi_ends {n : AxiNet} (hn : n ∈ g.axi_nets) :
    n.src < g.vertices.length ∧ n.dst < g.vertices.length ∧ n.src ≠ n.dst := by
  obtain ⟨bound, terminals, hm⟩ := h.memoryPass
  rw [hm.nets, mem_flatMap] at hn
  obtain ⟨x, hx, hn⟩ := hn
  simp only [interface_nets, mem_map] at hn
  obtain ⟨entry, hentry, rfl⟩ := hn
  obtain ⟨c, hc, _⟩ := hm.child x hx
  have htask := h.child_lt hc
  obtain ⟨t, ht⟩ := Option.isSome_iff_exists.mp
    (hm.has_terminal x hx (ne_nil_of_mem hentry))
  have hterminal := hm.terminal _ t ht
  have hbank : t < g.vertices.length := by
    rw [h.vertices]
    exact h.appends.2.grows.lt (List.getElem?_eq_some_iff.mp hterminal).1
  -- Tasks are materialized and banks are not.
  have hne : x.expected.task_vertex ≠ t := by
    rintro rfl
    obtain ⟨v, hv, _, hmaterialize⟩ := h.tasks2.vertex _ c hc
    rw [← Option.mem_unique hterminal hv] at hmaterialize
    cases hmaterialize
  rw [ht]
  simp only [axi_net]
  split
  · exact ⟨htask, hbank, hne⟩
  · exact ⟨hbank, htask, hne.symm⟩

theorem Stages.control_ends {n : ControlNet} (hn : n ∈ g.control_nets) :
    n.src < g.vertices.length ∧ n.dst < g.vertices.length ∧ n.src ≠ n.dst := by
  rcases h.controlPass with ⟨c, _, _, hc⟩ | ⟨_, hnil⟩
  · have hglobal : b2.vertices.length < g.vertices.length := by
      rw [h.vertices, hc.vertices]
      simp
    rw [hc.nets, control_nets, mem_flatMap] at hn
    obtain ⟨⟨child, i⟩, hmem, hn⟩ := hn
    obtain ⟨v, hv, _⟩ := h.tasks2.vertex i child (mem_zipIdx_iff_getElem?.mp hmem)
    have hi := (List.getElem?_eq_some_iff.mp hv).1
    simp only [child_nets] at hn
    split at hn <;> simp at hn <;> rcases hn with rfl | rfl | rfl <;> simp only <;> omega
  · rw [hnil] at hn
    cases hn

theorem Stages.channels_nodup : (g.channels.map Channel.channel).Nodup := by
  obtain ⟨bound, terminals, hm⟩ := h.memoryPass
  have hstreams : (g.streams.map fun s => RoutedChannel.Stream s.link).Nodup := by
    have hmap := h.links_nodup.map (f := RoutedChannel.Stream) fun a c hac => by
      injection hac
    rwa [map_map] at hmap
  have haxi : (g.axi_nets.map fun n => RoutedChannel.Axi n.endpoint n.bank n.channel).Nodup := by
    have hkeys := interface_nets_nodup terminals hm.nodup
    rw [← hm.nets, List.Nodup, pairwise_map] at hkeys
    rw [List.Nodup, pairwise_map]
    refine hkeys.imp ?_
    intro a c hne heq
    injection heq with h1 h2 h3
    exact hne (by rw [h1, h3])
  have hcontrol : (g.control_nets.map fun n => RoutedChannel.Control n.inst n.channel).Nodup := by
    rcases h.controlPass with ⟨c, _, _, hc⟩ | ⟨_, hnil⟩
    · have hkeys : ((control_nets flat b2.vertices.length (child_instances top)).map
          fun n => (n.inst, n.channel)).Nodup := control_nets_nodup h.canonical_nodup
      rw [← hc.nets, List.Nodup, pairwise_map] at hkeys
      rw [List.Nodup, pairwise_map]
      refine hkeys.imp ?_
      intro a d hne heq
      injection heq with h1 h2
      exact hne (by rw [h1, h2])
    · simp [hnil]
  have hsplit : g.channels.map Channel.channel =
      g.streams.map (fun s => RoutedChannel.Stream s.link) ++
      (g.axi_nets.map (fun n => RoutedChannel.Axi n.endpoint n.bank n.channel) ++
      g.control_nets.map fun n => RoutedChannel.Control n.inst n.channel) := by
    simp [FloorGraph.channels, Stream.toChannel, AxiNet.toChannel, ControlNet.toChannel,
      Function.comp_def]
  rw [hsplit, nodup_append, nodup_append]
  refine ⟨hstreams, ⟨haxi, hcontrol, ?_⟩, ?_⟩
  · intro a ha c hc
    obtain ⟨n, _, rfl⟩ := mem_map.mp ha
    obtain ⟨m, _, rfl⟩ := mem_map.mp hc
    simp
  · intro a ha c hc
    obtain ⟨n, _, rfl⟩ := mem_map.mp ha
    rcases mem_append.mp hc with hc | hc
    · obtain ⟨m, _, rfl⟩ := mem_map.mp hc
      simp
    · obtain ⟨m, _, rfl⟩ := mem_map.mp hc
      simp

/-- A reset runs beside the launch of its child. -/
theorem Stages.reset_paired
    {n : ControlNet} (hn : n ∈ g.control_nets) (hreset : n.channel = .Reset) :
    ∃ l ∈ g.control_nets, l.inst = n.inst ∧ l.channel = .Launch ∧ l.src = n.src ∧
      l.dst = n.dst := by
  rcases h.controlPass with ⟨c, _, _, hc⟩ | ⟨_, hnil⟩
  · rw [hc.nets, control_nets, mem_flatMap] at hn
    obtain ⟨⟨child, i⟩, hmem, hn⟩ := hn
    refine ⟨⟨child.canonical, .Launch, b2.vertices.length, i, launch_width flat child⟩, ?_, ?_⟩
    · rw [hc.nets, control_nets, mem_flatMap]
      exact ⟨(child, i), hmem, by simp [child_nets]⟩
    · simp only [child_nets] at hn
      split at hn <;> simp at hn <;> rcases hn with rfl | rfl | rfl <;> simp_all
  · rw [hnil] at hn
    cases hn

theorem Stages.sound : g.Sound := by
  refine ⟨h.channels_nodup, fun c hc => ?_, fun s hs => ?_, fun s hs => (h.stream_ends hs).2,
    fun i v hv => ?_, fun n hn => h.reset_paired hn⟩
  · simp only [FloorGraph.channels, mem_append, mem_map] at hc
    rcases hc with (⟨s, hs, rfl⟩ | ⟨n, hn, rfl⟩) | ⟨n, hn, rfl⟩
    · obtain ⟨hsrc, v, hv, _⟩ := h.stream_ends hs
      exact ⟨hsrc, (List.getElem?_eq_some_iff.mp hv).1⟩
    · exact ⟨(h.axi_ends hn).1, (h.axi_ends hn).2.1⟩
    · exact ⟨(h.control_ends hn).1, (h.control_ends hn).2.1⟩
  · obtain ⟨hw, hpos, hlt, _⟩ := h.fifos.streams s hs
    exact ⟨hw, hpos, hlt⟩
  · rw [h.vertices] at hv
    rcases Nat.lt_or_ge i b1.vertices.length with hi | hi
    · obtain ⟨w, hw, _, _, hle⟩ := h.grows.vertex i _ (getElem?_eq_getElem hi)
      obtain rfl : w = v := Option.mem_unique hw hv
      exact (h.fifos.hosts i _ (getElem?_eq_getElem hi)).trans hle
    · -- A cluster of a later pass reads no stream.
      have hzero : hosted g.streams i = 0 := by
        refine sum_eq_zero fun a ha => ?_
        obtain ⟨s, hs, rfl⟩ := mem_map.mp ha
        obtain ⟨_, _, _, _, _, r, hr⟩ := h.fifos.streams s hs
        obtain ⟨c, hc, _⟩ := h.tasks.tasks.child r s.dst hr
        obtain ⟨w, hw, _⟩ := h.tasks.tasks.vertex s.dst c hc
        have hlt := h.fifos.grows.lt (List.getElem?_eq_some_iff.mp hw).1
        rw [if_neg]
        intro heq
        simp only at hlt
        omega
      rw [hzero]
      exact zero_le

end

end Stages

theorem build_with_scopes_sound {flat : TaskGraph} {memory : List MemoryInterface}
    {control : Option ControlInterface} {anchor : Option Str} {projection : Option FlatProjection}
    {g : FloorGraph} (h : build_with_scopes flat memory control anchor projection = .ok g) :
    g.Sound := by
  obtain ⟨top, b0, b1, b2, b3, hs⟩ := build_with_scopes_ok h
  exact hs.sound

/-! ## Nets -/

def FloorGraph.nets (g : FloorGraph) : List Net :=
  g.streams.map .stream ++ g.axi_nets.map .axi ++ g.control_nets.map .control

/-- The net that a route is for. -/
def FloorGraph.net (g : FloorGraph) (channel : RoutedChannel) : Option Net :=
  g.nets.find? fun n => n.toChannel.channel = channel

theorem FloorGraph.channels_eq (g : FloorGraph) : g.channels = g.nets.map Net.toChannel := by
  simp [FloorGraph.channels, FloorGraph.nets, Function.comp_def, Net.toChannel]

/-- A search finds what only one member of the list satisfies. -/
theorem find?_of_unique {α : Type} {p : α → Bool} {xs : List α} {a : α} (ha : a ∈ xs)
    (hp : p a = true) (hunique : ∀ b ∈ xs, p b = true → b = a) : xs.find? p = some a := by
  obtain ⟨b, hb⟩ : ∃ b, xs.find? p = some b := by
    rw [← Option.isSome_iff_exists, find?_isSome]
    exact ⟨a, ha, hp⟩
  rw [hb, hunique b (mem_of_find?_eq_some hb) (find?_some hb)]

theorem FloorGraph.Sound.net_unique {g : FloorGraph} (hg : g.Sound) {n m : Net} (hn : n ∈ g.nets)
    (hm : m ∈ g.nets) (h : m.toChannel.channel = n.toChannel.channel) : m = n := by
  have hnodup := hg.nodup
  rw [g.channels_eq, map_map] at hnodup
  exact inj_on_of_nodup_map hnodup hm hn h

theorem FloorGraph.Sound.net_eq {g : FloorGraph} (hg : g.Sound) {n : Net} (hn : n ∈ g.nets) :
    g.net n.toChannel.channel = some n :=
  find?_of_unique hn (by simp) fun _ hm h => hg.net_unique hn hm (by simpa using h)

end Tapa.Floorplan
