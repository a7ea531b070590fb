-- The nets of the router (`cross_slot_nets` of `pipeline/plan.rs`): together they carry
-- every channel between different slots once, with all of its wires. A reset shares
-- the net of its launch.
import Tapa.FloorWidths
import Tapa.RoutePlan

namespace Tapa.Floorplan

open Ir Text Fallible List

/-! ## Groups of channels -/

/-- The channel of a net is between different slots. -/
def Net.crosses (regions : List Cell) (n : Net) : Bool :=
  (crossing_cells regions n.toChannel.src n.toChannel.dst).isSome

/-- The channels that a net of the router stands for. -/
structure Groups (regions : List Cell) (net : PendingNet) (group : List Net) : Prop where
  channels : group.map (fun n => n.toChannel.channel) = net.channel :: net.shared_channels.toList
  width : net.width = (group.map Net.width).sum
  ends : ∀ n ∈ group,
    crossing_cells regions n.toChannel.src n.toChannel.dst = some (net.src, net.dst)

def stream_group (regions : List Cell) (s : Stream) : Option (List Net) :=
  (crossing_cells regions s.src s.dst).map fun _ => [.stream s]

def axi_group (regions : List Cell) (n : AxiNet) : Option (List Net) :=
  (crossing_cells regions n.src n.dst).map fun _ => [.axi n]

/-- A launch comes with its reset. -/
def control_group (g : FloorGraph) (regions : List Cell) (n : ControlNet) : Option (List Net) :=
  if n.channel = .Reset then none
  else (crossing_cells regions n.src n.dst).map fun _ =>
    .control n :: if n.channel = .Launch then (matching_reset g n).toList.map .control else []

section Groups

variable {g : FloorGraph} {regions : List Cell}

/-- Two filters of lists that agree keep what is related. -/
theorem forall₂_filterMap {α β γ δ : Type} {Q : α → β → Prop} {R : γ → δ → Prop} {f : β → Option γ}
    {h : α → Option δ} {l : List α} {l' : List β} (hlists : List.Forall₂ Q l l')
    (hagree : ∀ a b, Q a b → (f b = none ∧ h a = none) ∨
      ∃ x y, f b = some x ∧ h a = some y ∧ R x y) :
    List.Forall₂ R (l'.filterMap f) (l.filterMap h) := by
  induction hlists with
  | nil => exact .nil
  | cons hab _ ih =>
    rcases hagree _ _ hab with ⟨hf, hh⟩ | ⟨x, y, hf, hh, hxy⟩
    · rw [filterMap_cons_none hf, filterMap_cons_none hh]
      exact ih
    · rw [filterMap_cons_some hf, filterMap_cons_some hh]
      exact .cons hxy ih

theorem stream_groups (streams : List Stream) : List.Forall₂ (Groups regions)
    (streams.filterMap (pending_stream regions)) (streams.filterMap (stream_group regions)) := by
  refine forall₂_filterMap (Q := Eq) (List.forall₂_refl streams) ?_
  rintro s _ rfl
  unfold pending_stream stream_group
  cases hcells : crossing_cells regions s.src s.dst with
  | none => exact .inl ⟨rfl, rfl⟩
  | some cells =>
    refine .inr ⟨_, _, rfl, rfl, rfl, by simp [Net.width], fun n hn => ?_⟩
    obtain rfl := mem_singleton.mp hn
    exact hcells

theorem axi_groups (nets : List AxiNet) : List.Forall₂ (Groups regions)
    (nets.filterMap (pending_axi regions)) (nets.filterMap (axi_group regions)) := by
  refine forall₂_filterMap (Q := Eq) (List.forall₂_refl nets) ?_
  rintro n _ rfl
  unfold pending_axi axi_group
  cases hcells : crossing_cells regions n.src n.dst with
  | none => exact .inl ⟨rfl, rfl⟩
  | some cells =>
    refine .inr ⟨_, _, rfl, rfl, rfl, by simp [Net.width], fun m hm => ?_⟩
    obtain rfl := mem_singleton.mp hm
    exact hcells

theorem matching_reset_eq_some {n r : ControlNet} (h : matching_reset g n = some r) :
    r ∈ g.control_nets ∧ r.inst = n.inst ∧ r.channel = .Reset ∧ r.src = n.src ∧ r.dst = n.dst := by
  have hr := find?_some h
  simp only [decide_eq_true_eq] at hr
  exact ⟨mem_of_find?_eq_some h, hr⟩

theorem crossing_control_groups {n : ControlNet} {src dst : Cell} {net : PendingNet}
    (hcells : crossing_cells regions n.src n.dst = some (src, dst))
    (h : crossing_control g n src dst = .ok net) :
    Groups regions net
      (.control n ::
        if n.channel = .Launch then (matching_reset g n).toList.map .control else []) := by
  unfold crossing_control at h
  split at h
  · rename_i hlaunch
    simp only [bind_eq_ok, ok_or_eq_ok, checked_add_u32_eq_some] at h
    obtain ⟨reset, hreset, width, ⟨_, rfl⟩, heq⟩ := h
    cases heq
    obtain ⟨_, _, _, hsrc, hdst⟩ := matching_reset_eq_some hreset
    rw [if_pos hlaunch, hreset]
    refine ⟨rfl, by simp [Net.width], fun m hm => ?_⟩
    rcases mem_cons.mp hm with rfl | hm
    · exact hcells
    · obtain rfl := mem_singleton.mp hm
      simpa [Net.toChannel, ControlNet.toChannel, hsrc, hdst] using hcells
  · rename_i hlaunch
    cases h
    rw [if_neg hlaunch]
    refine ⟨rfl, by simp [Net.width], fun m hm => ?_⟩
    obtain rfl := mem_singleton.mp hm
    exact hcells

theorem control_groups {control : List (Option PendingNet)}
    (h : g.control_nets.mapM (pending_control g regions) = .ok control) :
    List.Forall₂ (Groups regions) (control.filterMap id)
      (g.control_nets.filterMap (control_group g regions)) := by
  refine forall₂_filterMap (mapM_eq_ok.mp h) ?_
  intro n o hn
  unfold pending_control at hn
  unfold control_group
  split at hn
  · rename_i hreset
    cases hn
    exact .inl ⟨rfl, if_pos hreset⟩
  · rename_i hreset
    rw [if_neg hreset]
    cases hcells : crossing_cells regions n.src n.dst with
    | none =>
      rw [hcells] at hn
      cases hn
      exact .inl ⟨rfl, rfl⟩
    | some cells =>
      obtain ⟨src, dst⟩ := cells
      rw [hcells] at hn
      cases hnet : crossing_control g n src dst with
      | error e =>
        simp only [hnet] at hn
        cases hn
      | ok net =>
        simp only [hnet] at hn
        cases hn
        exact .inr ⟨net, _, rfl, rfl, crossing_control_groups hcells hnet⟩

/-! ## All channels that cross -/

theorem flatten_filterMap {α β : Type} (f : α → Option (List β)) (l : List α) :
    (l.filterMap f).flatten = l.flatMap fun a => (f a).getD [] := by
  induction l with
  | nil => rfl
  | cons a l ih =>
    rw [filterMap_cons, flatMap_cons]
    cases f a with
    | none => simpa using ih
    | some group => simp [ih]

theorem flatMap_singleton_filter {α β : Type} (c : α → Bool) (f : α → β) (l : List α) :
    (l.flatMap fun a => if c a then [f a] else []) = (l.filter c).map f := by
  induction l with
  | nil => rfl
  | cons a l ih =>
    rw [flatMap_cons, filter_cons, ih]
    split <;> simp

theorem getD_map_singleton {α β : Type} (o : Option α) (b : β) :
    (o.map fun _ => [b]).getD [] = if o.isSome then [b] else [] := by
  cases o <;> rfl

theorem stream_groups_flatten (streams : List Stream) :
    (streams.filterMap (stream_group regions)).flatten =
      (streams.map Net.stream).filter (Net.crosses regions) := by
  rw [flatten_filterMap, filter_map, ← flatMap_singleton_filter]
  refine flatMap_congr fun s _ => ?_
  exact getD_map_singleton _ _

theorem axi_groups_flatten (nets : List AxiNet) :
    (nets.filterMap (axi_group regions)).flatten =
      (nets.map Net.axi).filter (Net.crosses regions) := by
  rw [flatten_filterMap, filter_map, ← flatMap_singleton_filter]
  refine flatMap_congr fun n _ => ?_
  exact getD_map_singleton _ _

theorem FloorGraph.Sound.control_unique (hg : g.Sound) {n m : ControlNet}
    (hn : n ∈ g.control_nets) (hm : m ∈ g.control_nets) (hinst : m.inst = n.inst)
    (hchannel : m.channel = n.channel) : m = n := by
  have hmem : ∀ {x : ControlNet}, x ∈ g.control_nets → Net.control x ∈ g.nets := by
    intro x hx
    simp [FloorGraph.nets, hx]
  have heq := hg.net_unique (hmem hn) (hmem hm)
    (by simp [Net.toChannel, ControlNet.toChannel, hinst, hchannel])
  injection heq

theorem FloorGraph.Sound.control_nodup (hg : g.Sound) : g.control_nets.Nodup := by
  have hnodup := hg.nodup
  rw [FloorGraph.channels, map_append, nodup_append] at hnodup
  have hcontrol := hnodup.2.1
  rw [map_map] at hcontrol
  exact List.Nodup.of_map _ hcontrol

/-- The reset of a launch is the one that is paired with it. -/
theorem FloorGraph.Sound.matching_reset (hg : g.Sound) {l r : ControlNet}
    (hr : r ∈ g.control_nets) (hinst : r.inst = l.inst) (hreset : r.channel = .Reset)
    (hsrc : r.src = l.src) (hdst : r.dst = l.dst) : matching_reset g l = some r := by
  refine find?_of_unique hr (by simp [hinst, hreset, hsrc, hdst]) fun x hx hp => ?_
  simp only [decide_eq_true_eq] at hp
  exact hg.control_unique hr hx (hp.1.trans hinst.symm) (hp.2.1.trans hreset.symm)

/-- The members of a group are the control channel itself or its reset. -/
theorem mem_control_group {n : ControlNet} {m : Net} :
    m ∈ (control_group g regions n).getD [] ↔ n.channel ≠ .Reset ∧
      (crossing_cells regions n.src n.dst).isSome = true ∧
      (m = .control n ∨ n.channel = .Launch ∧
        ∃ r, matching_reset g n = some r ∧ m = .control r) := by
  unfold control_group
  by_cases hreset : n.channel = .Reset
  · simp [hreset]
  cases hcells : crossing_cells regions n.src n.dst with
  | none => simp
  | some cells =>
    by_cases hlaunch : n.channel = .Launch
    · simp [hlaunch, eq_comm]
    · simp [hlaunch, hreset]

theorem control_group_nodup (n : ControlNet) : ((control_group g regions n).getD []).Nodup := by
  unfold control_group
  split
  · simp
  rename_i hne
  cases crossing_cells regions n.src n.dst with
  | none => simp
  | some cells =>
    simp only [Option.map_some, Option.getD_some]
    split
    · cases hreset : matching_reset g n with
      | none => simp
      | some r =>
        simp only [Option.toList_some, map_cons, map_nil, nodup_cons,
          mem_singleton, not_mem_nil, not_false_eq_true, nodup_nil, and_true]
        intro heq
        injection heq with heq
        exact hne (heq ▸ (matching_reset_eq_some hreset).2.2.1)
    · simp

theorem control_groups_nodup (hg : g.Sound) :
    (g.control_nets.flatMap fun n => (control_group g regions n).getD []).Nodup := by
  rw [nodup_flatMap]
  refine ⟨fun n _ => control_group_nodup n, ?_⟩
  refine List.Pairwise.imp_of_mem ?_ hg.control_nodup
  intro n m hn hm hne x hx hx'
  obtain ⟨hnreset, _, hx⟩ := mem_control_group.mp hx
  obtain ⟨hmreset, _, hx'⟩ := mem_control_group.mp hx'
  rcases hx with rfl | ⟨hnlaunch, r, hr, rfl⟩
  · rcases hx' with heq | ⟨_, r, hr, heq⟩
    · injection heq with heq
      exact hne heq
    · injection heq with heq
      exact hnreset (heq ▸ (matching_reset_eq_some hr).2.2.1)
  · rcases hx' with heq | ⟨hmlaunch, r', hr', heq⟩
    · injection heq with heq
      exact hmreset (heq ▸ (matching_reset_eq_some hr).2.2.1)
    · -- Two launches with one reset are launches of one child.
      injection heq with heq
      have hinst : m.inst = n.inst := by
        rw [← (matching_reset_eq_some hr).2.1, ← (matching_reset_eq_some hr').2.1, heq]
      exact hne (hg.control_unique hn hm hinst (hmlaunch.trans hnlaunch.symm)).symm

/-- The groups of the control channels hold each channel that crosses once. -/
theorem control_groups_flatten (hg : g.Sound) :
    (g.control_nets.filterMap (control_group g regions)).flatten.Perm
      ((g.control_nets.map Net.control).filter (Net.crosses regions)) := by
  rw [flatten_filterMap]
  have hinj : Function.Injective Net.control := fun a b h => by injection h
  refine (perm_ext_iff_of_nodup (control_groups_nodup hg)
    ((hg.control_nodup.map hinj).filter _)).mpr fun x => ?_
  simp only [mem_flatMap, mem_control_group, mem_filter, mem_map]
  constructor
  · rintro ⟨n, hn, _, hcells, rfl | ⟨_, r, hr, rfl⟩⟩
    · exact ⟨⟨n, hn, rfl⟩, hcells⟩
    · obtain ⟨hmem, _, _, hsrc, hdst⟩ := matching_reset_eq_some hr
      refine ⟨⟨r, hmem, rfl⟩, ?_⟩
      simpa [Net.crosses, Net.toChannel, ControlNet.toChannel, hsrc, hdst] using hcells
  · rintro ⟨⟨n, hn, rfl⟩, hcells⟩
    by_cases hreset : n.channel = .Reset
    · obtain ⟨l, hl, hinst, hlaunch, hsrc, hdst⟩ := hg.paired n hn hreset
      have hmatch := hg.matching_reset hn hinst.symm hreset hsrc.symm hdst.symm
      refine ⟨l, hl, by simp [hlaunch], ?_, .inr ⟨hlaunch, n, hmatch, rfl⟩⟩
      simpa [Net.crosses, Net.toChannel, ControlNet.toChannel, hsrc, hdst] using hcells
    · exact ⟨n, hn, hreset, hcells, .inl rfl⟩

/-- The nets of the router stand for all channels between different slots. -/
theorem cross_slot_nets_groups (hg : g.Sound) {nets : List PendingNet}
    (h : cross_slot_nets g regions = .ok nets) :
    ∃ groups, List.Forall₂ (Groups regions) nets groups ∧
      groups.flatten.Perm (g.nets.filter (Net.crosses regions)) := by
  simp only [cross_slot_nets, bind_eq_ok] at h
  obtain ⟨control, hcontrol, heq⟩ := h
  cases heq
  refine ⟨_, rel_append (rel_append (stream_groups g.streams) (axi_groups g.axi_nets))
    (control_groups hcontrol), ?_⟩
  rw [flatten_append, flatten_append, stream_groups_flatten, axi_groups_flatten,
    FloorGraph.nets, filter_append, filter_append]
  exact (List.Perm.refl _).append (control_groups_flatten hg)

end Groups

/-! ## Planned routes -/

/-- The nets of a placement have paths in the device, within the borders of its slots. -/
structure Routable (g : FloorGraph) (device : Device) (regions : List Cell)
    (nets : List PendingNet) (routes : List (List Cell)) : Prop where
  crossing : cross_slot_nets g regions = .ok nets
  paths : List.Forall₂ (fun net path => IsRoute device net.src net.dst path)
    (nets.map PendingNet.toRouteNet) routes
  capacity : validate_within_capacity (nets.map PendingNet.toRouteNet) routes
    (boundaries device) = .ok ()

/-- The routes of all channels, on the paths of their nets. -/
def planned (scheme : PipelineScheme) (nets : List PendingNet) (routes : List (List Cell)) :
    List PlannedRoute :=
  (nets.zip routes).flatMap fun (net, route) => planned_routes scheme net route

section Planned

variable {g : FloorGraph} {device : Device} {regions : List Cell} {nets : List PendingNet}
  {routes : List (List Cell)} {scheme : PipelineScheme}

/-- A net of the router with its path and the channels that it stands for. -/
structure Carried where
  net : PendingNet
  route : List Cell
  group : List Net

/-- The route of a channel of the group. -/
def Carried.toRoute (c : Carried) (scheme : PipelineScheme) (n : Net) : PlannedRoute :=
  ⟨n.toChannel.channel, c.route, scheme, pipeline_reg_cells c.route scheme⟩

/-- The nets that are carried have their paths, and their groups have all channels that cross. -/
structure Carrying (g : FloorGraph) (device : Device) (regions : List Cell)
    (carried : List Carried) : Prop where
  groups : ∀ c ∈ carried, Groups regions c.net c.group
  paths : ∀ c ∈ carried, IsRoute device c.net.src c.net.dst c.route
  all : (carried.flatMap Carried.group).Perm (g.nets.filter (Net.crosses regions))

theorem exists_carried {groups : List (List Net)}
    (hgroups : List.Forall₂ (Groups regions) nets groups)
    (hpaths : List.Forall₂ (fun net path => IsRoute device net.src net.dst path)
      (nets.map PendingNet.toRouteNet) routes) :
    ∃ carried : List Carried, nets = carried.map Carried.net ∧
      routes = carried.map Carried.route ∧ groups = carried.map Carried.group ∧
      ∀ c ∈ carried, Groups regions c.net c.group ∧
        IsRoute device c.net.src c.net.dst c.route := by
  induction hgroups generalizing routes with
  | nil =>
    cases hpaths
    exact ⟨[], rfl, rfl, rfl, by simp⟩
  | @cons net group nets groups hgroup _ ih =>
    cases hpaths with
    | @cons _ route _ routes hpath hpaths =>
      obtain ⟨carried, rfl, rfl, rfl, hall⟩ := ih hpaths
      exact ⟨⟨net, route, group⟩ :: carried, rfl, rfl, rfl,
        forall_mem_cons.mpr ⟨⟨hgroup, hpath⟩, hall⟩⟩

theorem Routable.carrying (hg : g.Sound) (h : Routable g device regions nets routes) :
    ∃ carried : List Carried, nets = carried.map Carried.net ∧
      routes = carried.map Carried.route ∧ Carrying g device regions carried := by
  obtain ⟨groups, hgroups, hperm⟩ := cross_slot_nets_groups hg h.crossing
  obtain ⟨carried, hnets, hroutes, rfl, hall⟩ := exists_carried hgroups h.paths
  exact ⟨carried, hnets, hroutes, fun c hc => (hall c hc).1, fun c hc => (hall c hc).2, hperm⟩

/-- Every channel of a group has a route on the path of its net. -/
theorem Carrying.planned_eq {carried : List Carried} (h : Carrying g device regions carried) :
    planned scheme (carried.map Carried.net) (carried.map Carried.route) =
      carried.flatMap fun c => c.group.map (c.toRoute scheme) := by
  rw [planned, zip_map', flatMap_map]
  refine flatMap_congr fun c hc => ?_
  simp only [planned_routes, ← (h.groups c hc).channels, map_map]
  rfl

theorem Carrying.known {carried : List Carried} (h : Carrying g device regions carried)
    {c : Carried} (hc : c ∈ carried) {n : Net} (hn : n ∈ c.group) : n ∈ g.nets :=
  (mem_filter.mp (h.all.subset (mem_flatMap.mpr ⟨c, hc, hn⟩))).1

/-- Every channel between different slots has one route, at the slots of its clusters. -/
theorem Carrying.oneRouteEach (hg : g.Sound) {carried : List Carried}
    (h : Carrying g device regions carried) : OneRouteEach g regions
      (planned scheme (carried.map Carried.net) (carried.map Carried.route)) := by
  rw [h.planned_eq]
  constructor
  · have hchannels : (carried.flatMap fun c => c.group.map (c.toRoute scheme)).map
        PlannedRoute.channel =
        (carried.flatMap Carried.group).map fun n => n.toChannel.channel := by
      simp only [map_flatMap, map_map]
      rfl
    rw [hchannels, FloorGraph.crossing, g.channels_eq, filter_map, map_map]
    exact h.all.map _
  · intro r hr ch hch hchannel
    obtain ⟨c, hc, hr⟩ := mem_flatMap.mp hr
    obtain ⟨n, hn, rfl⟩ := mem_map.mp hr
    rw [g.channels_eq] at hch
    obtain ⟨m, hm, rfl⟩ := mem_map.mp hch
    obtain rfl := hg.net_unique (h.known hc hn) hm hchannel
    obtain ⟨hsrc, hdst, _⟩ := crossing_cells_eq_some.mp ((h.groups c hc).ends _ hn)
    exact ⟨(h.paths c hc).head.trans hsrc.symm, (h.paths c hc).last.trans hdst.symm⟩

end Planned

end Tapa.Floorplan
