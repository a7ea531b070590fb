-- The first two passes of the construction: every pass leaves the clusters before
-- it in place and their names apart, and a cluster holds the storage estimates of
-- all FIFOs that it reads.
import Tapa.FloorBuild
import Tapa.Traversal

namespace Tapa.Floorplan

open Ir Text Fallible List

/-! ## Frames -/

/-- A later builder has the clusters of an earlier one, perhaps with a larger area. -/
structure Builder.Grows (b b' : Builder) : Prop where
  endpoints : b'.task_endpoints = b.task_endpoints
  vertex : ∀ (i : Nat) (v : Vertex), b.vertices[i]? = some v → ∃ v' : Vertex,
    b'.vertices[i]? = some v' ∧ v'.name = v.name ∧ v'.materialize = v.materialize ∧
    v.area ≤ v'.area

/-- The clusters have names of their own, which the index holds. -/
structure Builder.Named (b : Builder) : Prop where
  nodup : (b.vertices.map Vertex.name).Nodup
  indexed : ∀ v ∈ b.vertices, v.name ∈ b.index

theorem Builder.Grows.refl (b : Builder) : b.Grows b :=
  ⟨rfl, fun _ v h => ⟨v, h, rfl, rfl, le_refl _⟩⟩

variable {b b' : Builder}

theorem Builder.Grows.trans {b'' : Builder} (h : b.Grows b') (h' : b'.Grows b'') :
    b.Grows b'' := by
  refine ⟨h'.endpoints.trans h.endpoints, fun i v hv => ?_⟩
  obtain ⟨v', hv', hn, hm, ha⟩ := h.vertex i v hv
  obtain ⟨v'', hv'', hn', hm', ha'⟩ := h'.vertex i v' hv'
  exact ⟨v'', hv'', hn'.trans hn, hm'.trans hm, ha.trans ha'⟩

variable {i : Nat}

theorem Builder.Grows.lt (h : b.Grows b') (hi : i < b.vertices.length) :
    i < b'.vertices.length := by
  obtain ⟨v', hv', _⟩ := h.vertex i _ (getElem?_eq_getElem hi)
  exact (List.getElem?_eq_some_iff.mp hv').1

variable {name : Str}

/-- The clusters of a builder, with others after them that have no area. -/
structure Builder.Appends (b b' : Builder) : Prop where
  endpoints : b'.task_endpoints = b.task_endpoints
  vertices : ∃ new, b'.vertices = b.vertices ++ new ∧ ∀ v ∈ new, v.area = 0

theorem Builder.Appends.refl (b : Builder) : b.Appends b := ⟨rfl, [], by simp, by simp⟩

theorem Builder.Appends.trans {b'' : Builder} (h : b.Appends b') (h' : b'.Appends b'') :
    b.Appends b'' := by
  obtain ⟨new, hnew, hzero⟩ := h.vertices
  obtain ⟨new', hnew', hzero'⟩ := h'.vertices
  refine ⟨h'.endpoints.trans h.endpoints, new ++ new', ?_, forall_mem_append.mpr ⟨hzero, hzero'⟩⟩
  rw [hnew', hnew, append_assoc]

theorem Builder.Appends.grows (h : b.Appends b') : b.Grows b' := by
  obtain ⟨new, hnew, _⟩ := h.vertices
  refine ⟨h.endpoints, fun i v hv => ⟨v, ?_, rfl, rfl, le_refl _⟩⟩
  rw [hnew, List.getElem?_append_left (List.getElem?_eq_some_iff.mp hv).1, hv]

theorem Builder.Named.push_vertex (h : b.Named) {v : Vertex} (hn : v.name ∉ b.index) :
    (b.push_vertex v).Named := by
  refine ⟨?_, forall_mem_snoc.mpr ⟨fun w hw => ?_, ?_⟩⟩
  · simp only [Builder.push_vertex, map_append, map_cons, map_nil]
    refine nodup_snoc h.nodup fun hmem => ?_
    obtain ⟨w, hw, heq⟩ := mem_map.mp hmem
    exact hn (heq ▸ h.indexed w hw)
  · simp [Builder.push_vertex, h.indexed w hw]
  · simp [Builder.push_vertex]

/-! ## Channels -/

/-- A channel of the graph with its two clusters. -/
structure Channel where
  channel : RoutedChannel
  src : Nat
  dst : Nat
deriving DecidableEq

def Stream.toChannel (s : Stream) : Channel := ⟨.Stream s.link, s.src, s.dst⟩

def AxiNet.toChannel (n : AxiNet) : Channel := ⟨.Axi n.endpoint n.bank n.channel, n.src, n.dst⟩

def ControlNet.toChannel (n : ControlNet) : Channel := ⟨.Control n.inst n.channel, n.src, n.dst⟩

/-- A channel of the graph with its metadata. -/
inductive Net where
  | stream (s : Stream)
  | axi (n : AxiNet)
  | control (n : ControlNet)

namespace Net

def toChannel : Net → Channel
  | stream s => s.toChannel
  | axi n => n.toChannel
  | control n => n.toChannel

def width : Net → Nat
  | stream s => s.width
  | axi n => n.width
  | control n => n.width

end Net

/-- A builder with the nets whose widths were added to it, in this order. -/
inductive Builder.Accumulates : Builder → List Net → Prop where
  | empty : Accumulates .empty []
  | add {b b' : Builder} {nets : List Net} (h : Accumulates b nets) (n : Net)
      (hadd : b.add_placement_width n.toChannel.src n.toChannel.dst n.width = some b') :
      Accumulates b' (nets ++ [n])
  | congr {b b' : Builder} {nets : List Net} (h : Accumulates b nets)
      (heq : b'.placement_widths = b.placement_widths) : Accumulates b' nets

/-- Nothing but the placement edges may differ, by the wires of some nets. -/
structure Builder.Adds (b b' : Builder) (nets : List Net) : Prop where
  vertices : b'.vertices = b.vertices
  endpoints : b'.task_endpoints = b.task_endpoints
  wires : ∀ before, b.Accumulates before → b'.Accumulates (before ++ nets)

theorem Builder.Adds.refl (b : Builder) : b.Adds b [] :=
  ⟨rfl, rfl, fun before h => (append_nil before).symm ▸ h⟩

/-- One net more. -/
theorem Builder.Adds.net {b'' : Builder} {nets : List Net} (h : b.Adds b' nets) (n : Net)
    (hadd : b'.add_placement_width n.toChannel.src n.toChannel.dst n.width = some b'') :
    b.Adds b'' (nets ++ [n]) := by
  have hwires := fun before hb => append_assoc before nets [n] ▸ (h.wires before hb).add n hadd
  simp only [Builder.add_placement_width, Option.bind_eq_bind, Option.bind_eq_some_iff,
    Option.pure_def, Option.some.injEq] at hadd
  obtain ⟨_, _, _, _, rfl⟩ := hadd
  exact ⟨h.vertices, h.endpoints, hwires⟩

theorem Builder.Adds.appends {nets : List Net} (h : b.Adds b' nets) : b.Appends b' :=
  ⟨h.endpoints, [], by simp [h.vertices], by simp⟩

variable {host : Nat}

theorem Builder.charge_eq {area : Area} (h : b.charge host area = some b') :
    ∃ v, b.vertices[host]? = some v ∧
      b' = { b with vertices := b.vertices.set host { v with area := v.area + area } } := by
  simp only [Builder.charge, Area.checked_add, Option.bind_eq_bind, Option.bind_eq_some_iff,
    Option.pure_def, Option.some.injEq, Option.ite_none_right_eq_some] at h
  obtain ⟨v, hv, total, ⟨_, rfl⟩, rfl⟩ := h
  exact ⟨v, hv, rfl⟩

/-! ## Tasks -/

theorem child_keys_nodup (top : Task) :
    ((child_instances top).map fun c => (c.definition, c.index)).Nodup := by
  have h := Task.invocations_nodup top
  simpa [child_instances, Function.comp_def] using h

/-- The first clusters are those of the children, and the endpoints lead to them. -/
structure Builder.Tasks (b : Builder) (children : List Child) : Prop where
  vertex : ∀ (i : Nat) (c : Child), children[i]? = some c → ∃ v : Vertex,
    b.vertices[i]? = some v ∧ v.name = c.canonical ∧ v.materialize = true
  endpoint : ∀ (i : Nat) (c : Child), children[i]? = some c →
    b.task_endpoints[(c.definition, c.index)]? = some i
  child : ∀ (r : EndpointRef) (i : Nat), b.task_endpoints[r]? = some i →
    ∃ c, children[i]? = some c ∧ (c.definition, c.index) = r

theorem Builder.Tasks.grows {children : List Child} (h : b.Tasks children) (hg : b.Grows b') :
    b'.Tasks children := by
  refine ⟨fun i c hc => ?_, fun i c hc => ?_, fun r i hr => ?_⟩
  · obtain ⟨v, hv, hn, hm⟩ := h.vertex i c hc
    obtain ⟨v', hv', hn', hm', _⟩ := hg.vertex i v hv
    exact ⟨v', hv', hn'.trans hn, hm'.trans hm⟩
  · rw [hg.endpoints]
    exact h.endpoint i c hc
  · rw [hg.endpoints] at hr
    exact h.child r i hr

variable {flat : TaskGraph}

theorem add_task_vertex_ok {c : Child} (h : add_task_vertex flat b c = .ok b') :
    ∃ task, flat.tasks[c.definition]? = some task ∧ c.canonical ∉ b.index ∧
      b' = { b.push_vertex (task_vertex task c) with
        task_endpoints := b.task_endpoints.insert (c.definition, c.index) b.vertices.length } := by
  unfold add_task_vertex at h
  split at h
  · cases h
  rename_i task htask
  split at h
  · cases h
  · rename_i hmem
    exact ⟨task, htask, hmem, (Except.ok.inj h).symm⟩

/-- The state of the first pass after some of the children. -/
structure TaskPass (done : List Child) (b : Builder) : Prop where
  named : b.Named
  tasks : b.Tasks done
  length : b.vertices.length = done.length
  wires : b.Accumulates []

theorem TaskPass.step {done : List Child} {c : Child} (h : TaskPass done b)
    (hstep : add_task_vertex flat b c = .ok b')
    (hnew : (c.definition, c.index) ∉ done.map fun c => (c.definition, c.index)) :
    TaskPass (done ++ [c]) b' := by
  obtain ⟨task, _, hmem, rfl⟩ := add_task_vertex_ok hstep
  have hlen := h.length
  have hnamed : (b.push_vertex (task_vertex task c)).Named := h.named.push_vertex hmem
  refine ⟨⟨hnamed.nodup, hnamed.indexed⟩, ⟨fun i x hx => ?_, fun i x hx => ?_,
    fun r i hr => ?_⟩, ?_, h.wires.congr rfl⟩
  · rcases getElem?_snoc_eq_some.mp hx with hx | ⟨rfl, rfl⟩
    · obtain ⟨v, hv, hn, hm⟩ := h.tasks.vertex i x hx
      exact ⟨v, getElem?_snoc_eq_some.mpr (.inl hv), hn, hm⟩
    · refine ⟨task_vertex task x, ?_, rfl, rfl⟩
      simp [Builder.push_vertex, ← hlen]
  · rw [get_insert]
    rcases getElem?_snoc_eq_some.mp hx with hx | ⟨rfl, rfl⟩
    · rw [if_neg, h.tasks.endpoint i x hx]
      intro heq
      exact hnew (heq ▸ mem_map_of_mem
        (mem_of_getElem? hx))
    · rw [if_pos rfl, hlen]
  · rcases get_insert_eq_some.mp hr with ⟨heq, rfl⟩ | ⟨_, hr⟩
    · exact ⟨c, getElem?_snoc_eq_some.mpr (.inr ⟨hlen, rfl⟩), heq⟩
    · obtain ⟨x, hx, hkey⟩ := h.tasks.child r i hr
      exact ⟨x, getElem?_snoc_eq_some.mpr (.inl hx), hkey⟩
  · simp [Builder.push_vertex, hlen]

theorem add_task_vertices_ok {top : Task} (h : add_task_vertices flat top Builder.empty = .ok b) :
    TaskPass (child_instances top) b := by
  refine foldlM_invariant (P := TaskPass) h ?_ ?_
  · refine ⟨⟨nodup_nil, by simp [Builder.empty]⟩, ⟨?_, ?_, ?_⟩, rfl, .empty⟩
    · simp
    · simp
    · simp [Builder.empty]
  · intro done c b b' hdone hP hstep
    refine hP.step hstep ?_
    obtain ⟨rest, hrest⟩ := hdone
    have hnodup := child_keys_nodup top
    rw [← hrest, map_append, map_append] at hnodup
    have hleft := (nodup_append.mp hnodup).1
    intro hmem
    exact (nodup_append.mp hleft).2.2 _ hmem _ (by simp) rfl

/-! ## FIFOs -/

theorem checked_add_u32_eq_some {a b c : Nat} :
    checked_add_u32 a b = some c ↔ a + b < 2 ^ 32 ∧ a + b = c := by
  simp [checked_add_u32]

/-- The cluster of a child. -/
def IsTask (endpoints : BTreeMap EndpointRef Nat) (i : Nat) : Prop :=
  ∃ r : EndpointRef, endpoints[r]? = some i

theorem resolve_fifo_data_width_ok {index : BTreeMap Str FifoArgWidths} {w : Nat}
    (h : resolve_fifo_data_width index name = .ok w) : 0 < w := by
  simp only [resolve_fifo_data_width, bind_eq_ok, ok_or_eq_ok, checked_add_u32_eq_some] at h
  omega

section

variable {endpoints : BTreeMap EndpointRef Nat} {role : Str} {end_ : Option EndpointRef}
  {o : Option Nat} (h : resolve_fifo_endpoint endpoints name role end_ = .ok o)
include h

theorem resolve_fifo_endpoint_cases :
    end_ = none ∧ o = none ∨ ∃ r v, end_ = some r ∧ endpoints[r]? = some v ∧ o = some v := by
  cases end_ with
  | none => exact .inl ⟨rfl, (Except.ok.inj h).symm⟩
  | some r =>
    simp only [resolve_fifo_endpoint, bind_eq_ok, ok_or_eq_ok] at h
    obtain ⟨v, hv, heq⟩ := h
    exact .inr ⟨r, v, rfl, hv, (Except.ok.inj heq).symm⟩

theorem resolve_fifo_endpoint_ok (hi : o = some i) : IsTask endpoints i := by
  subst hi
  rcases resolve_fifo_endpoint_cases h with ⟨_, ⟨⟩⟩ | ⟨r, v, _, hv, ⟨⟩⟩
  exact ⟨r, hv⟩

end

variable {streams streams' : List Stream}

theorem Builder.add_stream_ok {o : Option Stream}
    (h : b.add_stream streams name o = .ok (b', streams')) :
    streams' = streams ++ o.toList ∧ b.Adds b' (o.toList.map .stream) := by
  cases o with
  | none =>
    cases h
    exact ⟨by simp, .refl b⟩
  | some stream =>
    simp only [Builder.add_stream, bind_eq_ok, ok_or_eq_ok] at h
    obtain ⟨b1, h1, h2⟩ := h
    cases h2
    exact ⟨rfl, (Builder.Adds.refl b).net (.stream stream) h1⟩

/-- What clustering one FIFO does: a charge to its host, and perhaps a stream. -/
structure ClustersFifo (name : Str) (depth : Nat) (b b' : Builder)
    (streams streams' : List Stream) (data_width host : Nat) (src dst : Option Nat) : Prop where
  width : 0 < data_width ∧ data_width + 2 < 2 ^ 32
  writer : ∀ i, src = some i → IsTask b.task_endpoints i
  reader : ∀ i, dst = some i → IsTask b.task_endpoints i
  at_host : dst.or src = some host
  charged : ∃ v, b.vertices[host]? = some v ∧ b'.vertices =
    b.vertices.set host { v with area := v.area + storage_estimate data_width depth }
  endpoints : b'.task_endpoints = b.task_endpoints
  added : streams' =
    streams ++ (stream_of name src dst (data_width + 2) data_width depth).toList
  wires : b.Accumulates (streams.map .stream) → b'.Accumulates (streams'.map .stream)

variable {depth : Nat}

theorem cluster_fifo_ok {widths : BTreeMap Str FifoArgWidths} {fifo : InterconnectDefinition}
    (h : cluster_fifo widths name fifo depth b streams = .ok (b', streams')) :
    ∃ data_width host src dst,
      ClustersFifo name depth b b' streams streams' data_width host src dst := by
  simp only [cluster_fifo, bind_eq_ok, ok_or_eq_ok, checked_add_u32_eq_some] at h
  obtain ⟨dw, hdw, _, ⟨hlt, rfl⟩, src, hsrc, dst, hdst, host, hhost, b1, hb1, hadd⟩ := h
  obtain ⟨v, hv, rfl⟩ := b.charge_eq hb1
  obtain ⟨rfl, hadds⟩ := Builder.add_stream_ok hadd
  exact ⟨dw, host, src, dst, ⟨resolve_fifo_data_width_ok hdw, hlt⟩,
    fun i hi => resolve_fifo_endpoint_ok hsrc hi, fun i hi => resolve_fifo_endpoint_ok hdst hi,
    hhost, ⟨v, hv, hadds.vertices⟩, hadds.endpoints, rfl,
    fun hb => map_append.symm ▸ hadds.wires _ (hb.congr rfl)⟩

variable {src dst : Option Nat} {dw : Nat}

theorem stream_of_eq_some {link : Str} {width : Nat} {s : Stream}
    (h : stream_of link src dst width dw depth = some s) :
    src = some s.src ∧ dst = some s.dst ∧ s.src ≠ s.dst ∧ s.link = link ∧ s.width = width ∧
      s.data_width = dw ∧ s.depth = depth := by
  unfold stream_of at h
  split at h
  · split at h
    · rename_i hne
      cases h
      exact ⟨rfl, rfl, hne, rfl, rfl, rfl, rfl⟩
    · cases h
  · cases h

/-- The estimate that a stream leaves at its reader. -/
def Stream.estimate (s : Stream) : Area := storage_estimate s.data_width s.depth

/-- The estimates of all streams that a cluster reads. -/
def hosted (streams : List Stream) (i : Nat) : Area :=
  (streams.map fun s => if s.dst = i then s.estimate else 0).sum

theorem hosted_append (streams streams' : List Stream) (i : Nat) :
    hosted (streams ++ streams') i = hosted streams i + hosted streams' i := by
  simp [hosted]

/-- The state of the second pass after some of the FIFOs. -/
structure FifoPass (b0 : Builder) (done : List (Str × InterconnectDefinition))
    (s : Builder × List Stream) : Prop where
  grows : b0.Grows s.1
  hosts : ∀ (i : Nat) (v : Vertex), s.1.vertices[i]? = some v → hosted s.2 i ≤ v.area
  streams : ∀ x ∈ s.2, x.width = x.data_width + 2 ∧ 0 < x.data_width ∧ x.width < 2 ^ 32 ∧
    x.src ≠ x.dst ∧ IsTask b0.task_endpoints x.src ∧ IsTask b0.task_endpoints x.dst
  links : (s.2.map Stream.link).Sublist (done.map Prod.fst)
  wires : b0.Accumulates [] → s.1.Accumulates (s.2.map .stream)

theorem FifoPass.skip {b0 : Builder} {done : List (Str × InterconnectDefinition)}
    {s : Builder × List Stream} (h : FifoPass b0 done s) (entry : Str × InterconnectDefinition) :
    FifoPass b0 (done ++ [entry]) s := by
  refine ⟨h.grows, h.hosts, h.streams, ?_, h.wires⟩
  rw [map_append]
  exact h.links.trans (sublist_append_left _ _)

section

variable (h : ClustersFifo name depth b b' streams streams' dw host src dst)
include h

/-- The estimate of the new stream is at its reader, which is the host. -/
theorem ClustersFifo.hosted_le
    (hosts : ∀ (i : Nat) (v : Vertex), b.vertices[i]? = some v → hosted streams i ≤ v.area)
    {v' : Vertex} (hv' : b'.vertices[i]? = some v') : hosted streams' i ≤ v'.area := by
  obtain ⟨v, hv, hset⟩ := h.charged
  have hnew : hosted (stream_of name src dst (dw + 2) dw depth).toList i ≤
      if host = i then storage_estimate dw depth else 0 := by
    cases hs : stream_of name src dst (dw + 2) dw depth with
    | none => simp [hosted]
    | some s =>
      obtain ⟨_, hdst, _, _, _, hdw, hdepth⟩ := stream_of_eq_some hs
      have hhost := h.at_host
      rw [hdst, Option.some_or, Option.some.injEq] at hhost
      simp [hosted, Stream.estimate, hhost, hdw, hdepth]
  rw [h.added, hosted_append]
  rw [hset, getElem?_set] at hv'
  split at hv'
  · rename_i hi
    subst hi
    rw [if_pos (List.getElem?_eq_some_iff.mp hv).1, Option.some.injEq] at hv'
    subst hv'
    rw [if_pos rfl] at hnew
    exact add_le_add (hosts _ v hv) hnew
  · rename_i hi
    rw [if_neg hi] at hnew
    calc _ ≤ hosted streams i + 0 := by gcongr
      _ ≤ v'.area := by rw [add_zero]; exact hosts i v' hv'

theorem ClustersFifo.grows : b.Grows b' := by
  obtain ⟨v, hv, hset⟩ := h.charged
  refine ⟨h.endpoints, fun i w hw => ?_⟩
  rw [hset, getElem?_set]
  by_cases hi : host = i
  · subst hi
    obtain rfl : v = w := Option.mem_unique hv hw
    refine ⟨{ v with area := v.area + storage_estimate dw depth }, ?_, rfl, rfl, le_self_add⟩
    rw [if_pos rfl, if_pos (List.getElem?_eq_some_iff.mp hv).1]
  · exact ⟨w, by rw [if_neg hi, hw], rfl, rfl, le_refl _⟩

end

theorem FifoPass.step {b0 : Builder} {done : List (Str × InterconnectDefinition)}
    {s s' : Builder × List Stream} (h : FifoPass b0 done s)
    (hc : ClustersFifo name depth s.1 s'.1 s.2 s'.2 dw host src dst)
    (fifo : InterconnectDefinition) : FifoPass b0 (done ++ [(name, fifo)]) s' := by
  refine ⟨h.grows.trans hc.grows, fun i v hv => hc.hosted_le h.hosts hv, fun x hx => ?_, ?_,
    fun hb => hc.wires (h.wires hb)⟩
  · rw [hc.added, mem_append] at hx
    rcases hx with hx | hx
    · exact h.streams x hx
    rw [Option.mem_toList] at hx
    obtain ⟨hsrc, hdst, hne, _, hwidth, hdw, _⟩ := stream_of_eq_some hx
    have hsrc' := hc.writer _ hsrc
    have hdst' := hc.reader _ hdst
    rw [h.grows.endpoints] at hsrc' hdst'
    have hw := hc.width
    exact ⟨by omega, by omega, by omega, hne, hsrc', hdst'⟩
  · rw [hc.added, map_append, map_append]
    refine h.links.append ?_
    cases hs : stream_of name src dst (dw + 2) dw depth with
    | none => simp
    | some x => simp [(stream_of_eq_some hs).2.2.2.1]

theorem cluster_internal_fifos_ok {top : Task}
    (h : cluster_internal_fifos flat top b = .ok (b', streams)) :
    FifoPass b top.fifos.toList (b', streams) := by
  refine foldlM_invariant (P := FifoPass b) h ?_ ?_
  · refine ⟨Builder.Grows.refl b, ?_, ?_, ?_, id⟩
    · intro i v _
      simp [hosted]
    · simp
    · simp
  · rintro done ⟨name, fifo⟩ s s' _ hP hstep
    unfold cluster_entry at hstep
    split at hstep
    · cases hstep
      exact hP.skip (name, fifo)
    · obtain ⟨dw, host, src, dst, hc⟩ := cluster_fifo_ok hstep
      exact hP.step hc fifo

end Tapa.Floorplan
