-- The placement graph loses and invents nothing (`build.rs`): the area of a cluster is that
-- of its task and of the FIFOs charged to it, and an edge has the wires of its nets, each in
-- its own direction.
import Tapa.FloorWidths
import Tapa.RouteAccounting

namespace Tapa.Floorplan

open Ir Text Fallible Ledger List

/-! ## Areas -/

/-- The area of a leaf. A leaf without an estimate has none. -/
def leaf_area (flat : TaskGraph) (child : Child) : Area :=
  ((flat.tasks[child.definition]?).bind Task.self_area).getD 0

/-- The storage of an internal FIFO before routing. -/
def fifo_estimate (flat : TaskGraph) (top : Task) (x : Str × InterconnectDefinition) : Area :=
  match x.2.depth, resolve_fifo_data_width (index_fifo_arg_widths flat top) x.1 with
  | some depth, .ok data_width => storage_estimate data_width depth
  | _, _ => 0

/-- The storage that a FIFO leaves with a child: with its reader, or with its writer if it has
no reader. -/
def fifo_charge (flat : TaskGraph) (top : Task) (child : Child)
    (x : Str × InterconnectDefinition) : Area :=
  if x.2.consumed_by.or x.2.produced_by = some (child.definition, child.index) then
    fifo_estimate flat top x else 0

def Builder.areas (b : Builder) : List Area := b.vertices.map Vertex.area

variable {flat : TaskGraph} {top : Task} {b b' : Builder}

theorem add_task_vertices_areas (h : add_task_vertices flat top Builder.empty = .ok b) :
    b.areas = (child_instances top).map (leaf_area flat) := by
  refine foldlM_invariant (P := fun done (b : Builder) => b.areas = done.map (leaf_area flat))
    h rfl ?_
  intro done child b b' _ hP hstep
  obtain ⟨task, htask, _, rfl⟩ := add_task_vertex_ok hstep
  show (b.vertices ++ [task_vertex task child]).map Vertex.area = _
  rw [map_append, map_append]
  refine congrArg₂ (· ++ ·) hP ?_
  simp [leaf_area, htask, task_vertex]

/-- A charge to one of the areas of a list. -/
theorem sum_modify {i : Nat} {l : List Area} (hi : i < l.length) (a : Area) :
    (l.modify i (· + a)).sum = l.sum + a := by
  induction l generalizing i with
  | nil => cases hi
  | cons x xs ih =>
    cases i with
    | zero =>
      rw [modify_zero_cons, sum_cons, sum_cons]
      abel
    | succ i =>
      rw [modify_succ_cons, sum_cons, sum_cons, ih (Nat.lt_of_succ_lt_succ hi),
        add_assoc]

/-- The areas after some of the FIFOs. -/
structure Charged (flat : TaskGraph) (top : Task) (b0 : Builder)
    (done : List (Str × InterconnectDefinition)) (b : Builder) : Prop where
  endpoints : b.task_endpoints = b0.task_endpoints
  sized : ∀ x ∈ done, x.2.depth.isSome →
    ∃ width, resolve_fifo_data_width (index_fifo_arg_widths flat top) x.1 = .ok width
  each : ∀ (i : Nat) (c : Child), (child_instances top)[i]? = some c → b.areas[i]? =
    (b0.areas[i]?).map (· + (done.map (fifo_charge flat top c)).sum)
  total : b.areas.sum = b0.areas.sum + (done.map (fifo_estimate flat top)).sum

/-- Clustering a FIFO charges its storage to the child at its end. -/
theorem Charged.step {b0 : Builder} {done : List (Str × InterconnectDefinition)}
    {s s' : Builder × List Stream} {x : Str × InterconnectDefinition}
    (hb0 : b0.Tasks (child_instances top)) (h : Charged flat top b0 done s.1)
    (hstep : cluster_entry (index_fifo_arg_widths flat top) s x = .ok s') :
    Charged flat top b0 (done ++ [x]) s'.1 := by
  unfold cluster_entry at hstep
  split at hstep
  · rename_i hdepth
    cases hstep
    have hzero : fifo_estimate flat top x = 0 := by simp [fifo_estimate, hdepth]
    refine ⟨h.endpoints, forall_mem_snoc.mpr ⟨h.sized, by simp [hdepth]⟩, fun i c hc => ?_, ?_⟩
    · rw [h.each i c hc]
      simp [fifo_charge, hzero]
    · rw [h.total]
      simp [hzero]
  · rename_i depth hdepth
    simp only [cluster_fifo, bind_eq_ok, ok_or_eq_ok] at hstep
    obtain ⟨dw, hdw, _, _, src, hsrc, dst, hdst, host, hhost, b1, hcharge, hadd⟩ := hstep
    obtain ⟨v, hv, rfl⟩ := s.1.charge_eq hcharge
    obtain ⟨-, hvertices, hend, -⟩ := Builder.add_stream_ok hadd
    have hest : fifo_estimate flat top x = storage_estimate dw depth := by
      simp [fifo_estimate, hdepth, hdw]
    have hareas : s'.1.areas = s.1.areas.modify host (· + storage_estimate dw depth) := by
      unfold Builder.areas
      rw [hvertices]
      apply ext_getElem?
      intro i
      simp only [Builder.co_locate, getElem?_map, getElem?_set, getElem?_modify]
      by_cases hi : host = i
      · subst hi
        obtain ⟨hlt, hget⟩ := List.getElem?_eq_some_iff.mp hv
        simp [hlt, hget]
      · simp [hi]
    have hlt : host < s.1.areas.length := by
      rw [Builder.areas, length_map]
      exact (List.getElem?_eq_some_iff.mp hv).1
    -- The host is the cluster of the endpoint, so of one child.
    have hchild : ∃ r, x.2.consumed_by.or x.2.produced_by = some r ∧
        b0.task_endpoints[r]? = some host := by
      rw [h.endpoints] at hsrc hdst
      rcases resolve_fifo_endpoint_cases hdst with ⟨hread, rfl⟩ | ⟨r, v, hread, hv, rfl⟩
      · rcases resolve_fifo_endpoint_cases hsrc with ⟨_, rfl⟩ | ⟨r, v, hwrite, hv, rfl⟩
        · cases hhost
        · cases hhost
          exact ⟨r, by rw [hread, hwrite]; rfl, hv⟩
      · cases hhost
        exact ⟨r, by rw [hread]; rfl, hv⟩
    obtain ⟨r, hr, hhost'⟩ := hchild
    refine ⟨hend.trans h.endpoints, forall_mem_snoc.mpr ⟨h.sized, fun _ => ⟨dw, hdw⟩⟩,
      fun i c hc => ?_, ?_⟩
    · have hiff : host = i ↔ r = (c.definition, c.index) := by
        constructor
        · rintro rfl
          obtain ⟨c', hc', hkey⟩ := hb0.child r host hhost'
          rw [hc] at hc'
          rw [← hkey, Option.some.inj hc']
        · rintro rfl
          exact Option.mem_unique hhost' (hb0.endpoint i c hc)
      rw [hareas, getElem?_modify, h.each i c hc, map_append]
      by_cases hi : host = i
      · simp [hi, fifo_charge, hr, hiff.mp hi, hest, add_assoc, Function.comp_def]
      · have hne : r ≠ (c.definition, c.index) := mt hiff.mpr hi
        simp [hi, fifo_charge, hr, hne]
    · rw [hareas, sum_modify hlt, h.total, map_append]
      simp [hest, add_assoc]

theorem cluster_internal_fifos_charged {streams : List Stream}
    (hb : b.Tasks (child_instances top))
    (h : cluster_internal_fifos flat top b = .ok (b', streams)) :
    Charged flat top b top.fifos.toList b' := by
  refine foldlM_invariant (P := fun done (s : Builder × List Stream) => Charged flat top b done s.1)
    h ⟨rfl, ?_, fun i c _ => ?_, ?_⟩ fun done x s s' _ hP hstep => hP.step hb hstep
  · simp
  · simp
  · simp

section Stages

variable {memory : List MemoryInterface} {control : Option ControlInterface}
variable {anchor : Option Str} {projection : Option FlatProjection} {g : FloorGraph}
variable {b0 b1 b2 b3 : Builder}
  (h : Stages flat memory control anchor projection g top b0 b1 b2 b3)
include h

/-! ## Wires -/

/-- A net has its ends in two clusters. -/
theorem Stages.ends_differ {n : Net} (hn : n ∈ g.nets) : n.toChannel.src ≠ n.toChannel.dst := by
  simp only [FloorGraph.nets, mem_append, mem_map] at hn
  rcases hn with (⟨s, hs, rfl⟩ | ⟨n, hn, rfl⟩) | ⟨n, hn, rfl⟩
  · exact (h.fifos.streams s hs).2.2.2.1
  · exact (h.axi_ends hn).2.2
  · exact (h.control_ends hn).2.2

end Stages

/-- An entry has the wires of the nets between its clusters, each in its own direction. -/
theorem Builder.Accumulates.entry {nets : List Net} (h : b.Accumulates nets)
    (hne : ∀ n ∈ nets, n.toChannel.src ≠ n.toChannel.dst) {i j : Nat} {w : DirectedWidth}
    (hw : b.placement_widths[(i, j)]? = some w) : i < j ∧
      w.forward = nets_across (fun src dst => src = i && dst = j) nets ∧
      w.reverse = nets_across (fun src dst => src = j && dst = i) nets := by
  have hlt {key : Nat × Nat} {v : DirectedWidth} (hv : b.placement_widths[key]? = some v) :
      key.1 < key.2 := by
    obtain ⟨n, hn, rfl⟩ := h.mem_widths.mp (mem_of_get hv)
    have := hne n hn
    simp only [Net.pair]
    omega
  have hij : i < j := hlt hw
  -- The other entries count no wires between the two clusters.
  have hsingle {out : Nat → Nat → Bool}
      (hout : ∀ p q, p < q → (p, q) ≠ (i, j) → out p q = false ∧ out q p = false) :
      directed_width out ((i, j), w) = nets_across out nets := by
    rw [← h.directed out, sum_toList_split b.placement_widths (i, j), hw]
    refine (add_eq_left.mpr (sum_eq_zero fun a ha => ?_)).symm
    obtain ⟨⟨⟨p, q⟩, v⟩, hentry, rfl⟩ := mem_map.mp ha
    obtain ⟨hmem, hkey⟩ := mem_filter.mp hentry
    obtain ⟨h1, h2⟩ := hout p q (hlt (Std.ExtTreeMap.mem_toList_iff_getElem?_eq_some.mp hmem))
      (of_decide_eq_true hkey)
    simp [directed_width, h1, h2]
  refine ⟨hij, ?_, ?_⟩
  · rw [← hsingle]
    · simp [directed_width, hij.ne]
    · intro p q hpq hkey
      simp at hkey ⊢
      omega
  · rw [← hsingle]
    · simp [directed_width, hij.ne]
    · intro p q hpq hkey
      simp at hkey ⊢
      omega

/-! ## The graph -/

/-- A graph has the areas and the wires of a design, all of them and no others. -/
structure FloorGraph.Conserves (g : FloorGraph) (flat : TaskGraph) (top : Task) : Prop where
  sized : ∀ x ∈ top.fifos.toList, x.2.depth.isSome →
    ∃ width, resolve_fifo_data_width (index_fifo_arg_widths flat top) x.1 = .ok width
  task_area : ∀ (i : Nat) (c : Child), (child_instances top)[i]? = some c →
    (g.vertices[i]?).map Vertex.area =
      some (leaf_area flat c + (top.fifos.toList.map (fifo_charge flat top c)).sum)
  total_area : (g.vertices.map Vertex.area).sum = ((child_instances top).map (leaf_area flat)).sum +
    (top.fifos.toList.map (fifo_estimate flat top)).sum
  net_edge : ∀ n ∈ g.nets, ∃ edge ∈ g.placement_edges, (edge.src, edge.dst) = n.pair
  one_edge : (g.placement_edges.map fun edge => (edge.src, edge.dst)).Nodup
  widths : ∀ edge ∈ g.placement_edges, edge.src < edge.dst ∧
    edge.forward_width = nets_across (fun src dst => src = edge.src && dst = edge.dst) g.nets ∧
    edge.reverse_width = nets_across (fun src dst => src = edge.dst && dst = edge.src) g.nets ∧
    edge.width = edge.forward_width + edge.reverse_width

/-- Areas and wires of a design end up in its graph. A FIFO counts for its reader, or for its
writer if nothing reads it. -/
theorem areas_and_wires_are_conserved {memory : List MemoryInterface}
    {control : Option ControlInterface} {anchor : Option Str} {projection : Option FlatProjection}
    {g : FloorGraph} (h : build_with_scopes flat memory control anchor projection = .ok g) :
    ∃ top, flat.tasks[flat.top]? = some top ∧ g.Conserves flat top := by
  obtain ⟨b, hedges, hacc⟩ := build_with_scopes_accumulates h
  obtain ⟨top, b0, b1, b2, b3, hs⟩ := build_with_scopes_ok h
  have hcharged := cluster_internal_fifos_charged hs.tasks.tasks hs.clustered
  have hleaves := add_task_vertices_areas hs.added
  obtain ⟨new, hnew, hzero⟩ := (hs.appends.1.trans hs.appends.2).vertices
  refine ⟨top, hs.top_task, hcharged.sized, fun i c hc => ?_, ?_, fun n hn => ?_, ?_,
    fun edge hedge => ?_⟩
  · have hi := hcharged.each i c hc
    rw [hleaves, getElem?_map, hc, Option.map_some, Option.map_some] at hi
    rw [hs.vertices, ← getElem?_map, hnew, map_append]
    exact (List.getElem?_append_left (List.getElem?_eq_some_iff.mp hi).1).trans hi
  · rw [hs.vertices, hnew, map_append, sum_append, map_eq_replicate_iff.mpr hzero, sum_replicate,
      nsmul_zero, add_zero, ← hleaves]
    exact hcharged.total
  · obtain ⟨w, hw⟩ := mem_iff_get.mp (hacc.mem_widths.mpr ⟨n, hn, rfl⟩)
    rw [hedges]
    exact ⟨_, mem_map_of_mem (Std.ExtTreeMap.mem_toList_iff_getElem?_eq_some.mpr hw), rfl⟩
  · have hkeys : b.placement_edges.map (fun edge => (edge.src, edge.dst)) =
        b.placement_widths.toList.map Prod.fst := by
      simp [Builder.placement_edges, Function.comp_def]
    rw [hedges, hkeys]
    exact toList_keys_ne.map _ fun _ _ hne => hne
  · rw [hedges, Builder.placement_edges, mem_map] at hedge
    obtain ⟨⟨⟨i, j⟩, w⟩, hentry, rfl⟩ := hedge
    obtain ⟨hij, hforward, hreverse⟩ := hacc.entry (fun n hn => hs.ends_differ hn)
      (Std.ExtTreeMap.mem_toList_iff_getElem?_eq_some.mp hentry)
    exact ⟨hij, hforward, hreverse, rfl⟩

theorem a_hand_over_is_conserved : ∃ top, handOver.tasks[handOver.top]? = some top ∧
    handOverGraph.Conserves handOver top :=
  areas_and_wires_are_conserved (eq_ok_get rfl)

/-- `A` writes the FIFO `q` and nothing reads it. -/
def unread : TaskGraph where
  top := ['T']
  tasks := ((∅ : BTreeMap Str Task).insert ['A'] (fifoEnd ['o'] .Ostream)).insert ['T']
    { level := .Upper
      ports := []
      tasks := (∅ : BTreeMap Str (List TaskInstance)).insert ['A'] [endInstance ['o'] .Ostream]
      fifos := (∅ : BTreeMap Str InterconnectDefinition).insert ['q']
        ⟨some 2, none, some (['A'], 0)⟩
      self_area := none }

/-- The storage of a FIFO that nothing reads is with its writer. -/
theorem an_unread_fifo_stays_with_its_writer :
    ((flatten_with_origins 2 unread).toOption.bind fun p =>
      p.flat.tasks[p.flat.top]?.bind fun top =>
      (build_with_scopes p.flat [] none none none).toOption.map fun g =>
        (top.fifos.toList.map fun q => (q.2.depth.isSome, q.2.consumed_by.isSome), g.vertices)) =
    some ([(true, false)],
      [⟨['A', '_', '0'], ⟨1, 0, 0, 0, 0⟩ + storage_estimate 33 2, none, true⟩]) := by
  decide +kernel

end Tapa.Floorplan
