-- Cuts and routes: a placement whose nets have paths within the borders of the slots
-- keeps to every cut of the placement program, over the slots and over the rows. A net
-- between the two sides of a line crosses one of its borders.
import Tapa.CrossingNets
import Tapa.RouteAccounting
import Tapa.RowRelaxation

namespace Tapa.Floorplan

open Ir Text Fallible LinearProgram List

/-! ## Lines of the grid -/

/-- A path between the two sides of a line has a hop across it. -/
theorem exists_hop_across {side : Cell → Bool} {path : List Cell} {src dst : Cell}
    (hhead : path.head? = some src) (hlast : path.getLast? = some dst) (h : side src ≠ side dst) :
    ∃ hop ∈ hops path, side hop.1 ≠ side hop.2 := by
  induction path generalizing src with
  | nil => cases hhead
  | cons a path ih =>
    obtain rfl : a = src := Option.some.inj hhead
    cases path with
    | nil =>
      obtain rfl : a = dst := Option.some.inj hlast
      exact absurd rfl h
    | cons b path =>
      by_cases hab : side a = side b
      · obtain ⟨hop, hmem, hne⟩ := ih rfl hlast (hab ▸ h)
        exact ⟨hop, mem_cons_of_mem _ hmem, hne⟩
      · exact ⟨(a, b), mem_cons_self, hab⟩

/-- A line of the grid: every hop of the device between its sides is over one of its
borders. -/
structure Line (device : Device) (side : Cell → Bool) (n : Nat) (border : Nat → Boundary) :
    Prop where
  member : ∀ i < n, border i ∈ boundaries device
  crossed : ∀ a b : Cell, (device.slot a.1 a.2).isSome = true →
    (device.slot b.1 b.2).isSome = true → manhattan a b = 1 → side a ≠ side b →
    ∃ i < n, (a = (border i).a ∧ b = (border i).b) ∨ (a = (border i).b ∧ b = (border i).a)

section Lines

variable {device : Device} {side : Cell → Bool} {n : Nat} {border : Nat → Boundary}

variable {x y : Nat}

theorem slot_bounds (hd : device.Complete) (h : (device.slot x y).isSome = true) :
    x < device.cols ∧ y < device.rows := by
  obtain ⟨slot, hslot⟩ := Option.isSome_iff_exists.mp h
  obtain ⟨hmem, rfl, rfl⟩ := Device.slot_eq_some hslot
  exact hd.bounds slot hmem

theorem mem_boundaries (hx : x < device.cols) (hy : y < device.rows) {b : Boundary}
    (h : b ∈ slot_boundaries device x y) : b ∈ boundaries device :=
  mem_flatMap.mpr ⟨y, mem_range.mpr hy,
    mem_flatMap.mpr ⟨x, mem_range.mpr hx, h⟩⟩

theorem horizontal_line (hd : device.Complete) (hy : y + 1 < device.rows) :
    Line device (fun cell => cell.2 ≤ y) device.cols
      fun x => ⟨(x, y), (x, y + 1), north_border device y x⟩ := by
  constructor
  · intro x hx
    obtain ⟨slot, hslot⟩ := hd.covered x hx y (by omega)
    obtain ⟨up, hup⟩ := hd.covered x hx (y + 1) hy
    have hborder : ⟨(x, y), (x, y + 1), north_border device y x⟩ ∈ slot_boundaries device x y := by
      simp [slot_boundaries, north_border, hslot, hup, hy]
    exact mem_boundaries hx (by omega) hborder
  · rintro ⟨x, v⟩ ⟨x', v'⟩ ha hb hadj hside
    have hx := (slot_bounds hd ha).1
    simp only [manhattan, abs_diff] at hadj
    simp only [ne_eq, decide_eq_decide] at hside
    have hcases : x' = x ∧ (v = y ∧ v' = y + 1 ∨ v = y + 1 ∧ v' = y) := by
      split at hadj <;> split at hadj <;> omega
    obtain ⟨rfl, ⟨rfl, rfl⟩ | ⟨rfl, rfl⟩⟩ := hcases
    · exact ⟨x', hx, .inl ⟨rfl, rfl⟩⟩
    · exact ⟨x', hx, .inr ⟨rfl, rfl⟩⟩

theorem vertical_line (hd : device.Complete) (hx : x + 1 < device.cols) :
    Line device (fun cell => cell.1 ≤ x) device.rows
      fun y => ⟨(x, y), (x + 1, y), east_border device x y⟩ := by
  constructor
  · intro y hy
    obtain ⟨slot, hslot⟩ := hd.covered x (by omega) y hy
    obtain ⟨right, hright⟩ := hd.covered (x + 1) hx y hy
    have hborder : ⟨(x, y), (x + 1, y), east_border device x y⟩ ∈ slot_boundaries device x y := by
      simp [slot_boundaries, east_border, hslot, hright, hx]
    exact mem_boundaries (by omega) hy hborder
  · rintro ⟨v, y⟩ ⟨v', y'⟩ ha hb hadj hside
    have hy := (slot_bounds hd ha).2
    simp only [manhattan, abs_diff] at hadj
    simp only [ne_eq, decide_eq_decide] at hside
    have hcases : y' = y ∧ (v = x ∧ v' = x + 1 ∨ v = x + 1 ∧ v' = x) := by
      split at hadj <;> split at hadj <;> omega
    obtain ⟨rfl, ⟨rfl, rfl⟩ | ⟨rfl, rfl⟩⟩ := hcases
    · exact ⟨y', hy, .inl ⟨rfl, rfl⟩⟩
    · exact ⟨y', hy, .inr ⟨rfl, rfl⟩⟩

/-- A path between the sides of a line crosses one of its borders. -/
theorem Line.crosses (line : Line device side n border) {src dst : Cell} {path : List Cell}
    (h : IsRoute device src dst path) (hside : side src ≠ side dst) :
    ∃ i < n, path_crosses path (border i) = true := by
  obtain ⟨⟨a, b⟩, hhop, hne⟩ := exists_hop_across h.head h.last hside
  obtain ⟨ha, hb⟩ := of_mem_zip hhop
  obtain ⟨i, hi, hcross⟩ := line.crossed a b (h.slots a ha) (h.slots b (mem_of_mem_tail hb))
    (h.adjacent (a, b) hhop) hne
  refine ⟨i, hi, any_eq_true.mpr ⟨(a, b), hhop, ?_⟩⟩
  simpa using hcross

/-- The wires over a border, of all nets with their paths. -/
def wires_over (nets : List RouteNet) (routes : List (List Cell)) (boundary : Boundary) : Nat :=
  (((nets.zip routes).filter fun p => path_crosses p.2 boundary).map fun p => p.1.width).sum

theorem wires_over_eq (nets : List RouteNet) (routes : List (List Cell)) (boundary : Boundary) :
    wires_over nets routes boundary = ((nets.zip routes).map fun p =>
      if path_crosses p.2 boundary then p.1.width else 0).sum := by
  unfold wires_over
  induction nets.zip routes with
  | nil => rfl
  | cons p l ih =>
    rw [filter_cons, map_cons, sum_cons, ← ih]
    split <;> simp

theorem validate_within_capacity_ok {nets : List RouteNet} {routes : List (List Cell)}
    {limits : List Boundary} (h : validate_within_capacity nets routes limits = .ok ())
    {boundary : Boundary} (hmem : boundary ∈ limits) {capacity : Nat}
    (hcap : boundary.capacity = some capacity) : wires_over nets routes boundary ≤ capacity := by
  have hcheck := forM_eq_ok.mp h boundary hmem
  simp only [hcap, ensure_eq_ok] at hcheck
  exact hcheck

/-- The nets between the sides of a line are within the total of its borders. -/
theorem Line.width_le (line : Line device side n border) {nets : List RouteNet}
    {routes : List (List Cell)}
    (hroutes : List.Forall₂ (fun net path => IsRoute device net.src net.dst path) nets routes)
    (hcap : validate_within_capacity nets routes (boundaries device) = .ok ()) {total : Nat}
    (htotals : Totals ((List.range n).map fun i => (border i).capacity) total) :
    (nets.map fun net => if side net.src ≠ side net.dst then net.width else 0).sum ≤ total := by
  have hzip : (nets.map fun net => if side net.src ≠ side net.dst then net.width else 0) =
      (nets.zip routes).map fun p => if side p.1.src ≠ side p.1.dst then p.1.width else 0 := by
    have hfst : (nets.zip routes).map Prod.fst = nets :=
      map_fst_zip (le_of_eq hroutes.length_eq)
    conv_lhs => rw [← hfst]
    rw [map_map]
    rfl
  have hall : ∀ p ∈ nets.zip routes, IsRoute device p.1.src p.1.dst p.2 :=
    fun p hp => (List.forall₂_iff_zip.mp hroutes).2 hp
  calc (nets.map fun net => if side net.src ≠ side net.dst then net.width else 0).sum
      = ((nets.zip routes).map fun p =>
          if side p.1.src ≠ side p.1.dst then p.1.width else 0).sum := by rw [hzip]
    _ ≤ ((List.range n).map fun i => ((nets.zip routes).map fun p =>
          if path_crosses p.2 (border i) then p.1.width else 0).sum).sum := by
        refine sum_le_sum_columns fun p hp => ?_
        split
        · rename_i hside
          obtain ⟨i, hi, hcross⟩ := line.crosses (hall p hp) hside
          have hterm := le_sum_range
            (g := fun i => if path_crosses p.2 (border i) then p.1.width else 0) hi
          simpa [hcross] using hterm
        · exact Nat.zero_le _
    _ ≤ ((List.range n).map fun i => ((border i).capacity).getD 0).sum := by
        refine sum_le_sum fun i hi => ?_
        have hi' := mem_range.mp hi
        obtain ⟨capacity, hsome⟩ := Option.isSome_iff_exists.mp
          (htotals.1 _ (mem_map_of_mem hi))
        rw [← wires_over_eq, hsome]
        exact validate_within_capacity_ok hcap (line.member i hi') hsome
    _ = total := by
        rw [← htotals.2, map_map]
        rfl

end Lines

/-! ## Nets across a line -/

/-- The slots of two clusters are on different sides. -/
def apart (regions : List Cell) (side : Cell → Bool) (i j : Nat) : Bool :=
  match regions[i]?, regions[j]? with
  | some a, some b => side a != side b
  | _, _ => false

theorem apart_symm (regions : List Cell) (side : Cell → Bool) (i j : Nat) :
    apart regions side i j = apart regions side j i := by
  unfold apart
  cases regions[i]? <;> cases regions[j]? <;> simp [bne_comm]

section Nets

variable {flat : TaskGraph} {memory : List MemoryInterface} {control : Option ControlInterface}
variable {anchor : Option Str} {projection : Option FlatProjection} {g : FloorGraph}
variable {regions : List Cell} {side : Cell → Bool}

variable {a b : Cell}

theorem apart_eq {i j : Nat} (h : crossing_cells regions i j = some (a, b)) :
    apart regions side i j = (side a != side b) := by
  obtain ⟨ha, hb, _⟩ := crossing_cells_eq_some.mp h
  simp [apart, ha, hb]

/-- Clusters on different sides are in different slots. -/
theorem Net.crosses_of_apart {n : Net}
    (h : apart regions side n.toChannel.src n.toChannel.dst = true) : n.crosses regions = true := by
  unfold apart at h
  split at h
  · rename_i a b ha hb
    have hne : a ≠ b := by
      rintro rfl
      simp at h
    have hcells := crossing_cells_eq_some.mpr ⟨ha, hb, hne⟩
    rw [Net.crosses, hcells]
    rfl
  · cases h

theorem Groups.across {net : PendingNet} {group : List Net} (h : Groups regions net group) :
    nets_across (apart regions side) group =
      if side net.src ≠ side net.dst then net.width else 0 := by
  have hterm : ∀ n ∈ group, (if apart regions side n.toChannel.src n.toChannel.dst then n.width
      else 0) = if side net.src ≠ side net.dst then n.width else 0 := by
    intro n hn
    rw [apart_eq (h.ends n hn)]
    simp [bne_iff_ne]
  rw [nets_across, map_congr_left hterm, h.width]
  split
  · rfl
  · exact sum_eq_zero (by simp)

variable {nets : List PendingNet}

/-- The channels across a line have the wires of the nets of the router across it. -/
theorem nets_across_eq (hg : g.Sound) (hnets : cross_slot_nets g regions = .ok nets) :
    nets_across (apart regions side) g.nets = ((nets.map PendingNet.toRouteNet).map fun net =>
      if side net.src ≠ side net.dst then net.width else 0).sum := by
  obtain ⟨groups, hgroups, hperm⟩ := cross_slot_nets_groups hg hnets
  rw [← nets_across_filter (fun _ h => Net.crosses_of_apart h), ← nets_across_perm hperm,
    nets_across_flatten, map_map]
  clear hperm hnets
  induction hgroups with
  | nil => rfl
  | cons hgroup _ ih =>
    rw [map_cons, map_cons, sum_cons, ih, hgroup.across]
    rfl

/-- The placement of the clusters into the slots of a list of cells. -/
def slot_placement (regions : List Cell) : List Coor :=
  regions.map fun cell => Coor.slot cell.1 cell.2

theorem region_of_slot_placement {i : Nat} {cell : Cell} (h : regions[i]? = some cell) :
    region_of (slot_placement regions) i = .slot cell.1 cell.2 := by
  simp [region_of, slot_placement, h]

variable {cut : Cut}

/-- The edges across a cut have the wires of the channels across its line. -/
theorem width_across_eq (hbuild : build_with_scopes flat memory control anchor projection = .ok g)
    (hlen : regions.length = g.vertices.length) (hcut : ∀ a ∈ regions, ∀ b ∈ regions, cut.crosses
    (.slot a.1 a.2) (.slot b.1 b.2) = (side a != side b)) :
    width_across g (slot_placement regions) cut = nets_across (apart regions side) g.nets := by
  rw [← edges_carry_the_nets hbuild (apart_symm regions side), width_across]
  congr 1
  refine map_congr_left fun edge hedge => ?_
  obtain ⟨hsrc, hdst⟩ := edges_between_clusters hbuild edge hedge
  rw [← hlen] at hsrc hdst
  have ha := getElem?_eq_getElem hsrc
  have hb := getElem?_eq_getElem hdst
  rw [region_of_slot_placement ha, region_of_slot_placement hb,
    hcut _ (getElem_mem hsrc) _ (getElem_mem hdst)]
  simp [apart, ha, hb]

/-! ## Cuts -/

variable {device : Device}

theorem slot_placement_inSlots (hd : device.Complete) (hlen : regions.length = g.vertices.length)
    (hcells : ∀ cell ∈ regions, (device.slot cell.1 cell.2).isSome = true) :
    InSlots device g (slot_placement regions) := by
  intro vi hvi
  rw [← hlen] at hvi
  obtain ⟨hx, hy⟩ := slot_bounds hd (hcells _ (getElem_mem hvi))
  exact ⟨_, hx, _, hy, region_of_slot_placement (getElem?_eq_getElem hvi)⟩

/-- The sides of a cut between two rows or columns are those of its line. -/
theorem crosses_slots_line (hd : device.Complete) {l u : Coor → Nat} {z : Nat}
    (hflat : ∀ region ∈ atomic_regions device, u region = l region)
    (hlhs : cut.lhs = (atomic_regions device).filter fun region => u region ≤ z)
    (hrhs : cut.rhs = (atomic_regions device).filter fun region => l region > z)
    (ha : (device.slot a.1 a.2).isSome = true) (hb : (device.slot b.1 b.2).isSome = true) :
    cut.crosses (.slot a.1 a.2) (.slot b.1 b.2) =
      (decide (l (.slot a.1 a.2) ≤ z) != decide (l (.slot b.1 b.2) ≤ z)) := by
  obtain ⟨hax, hay⟩ := slot_bounds hd ha
  obtain ⟨hbx, hby⟩ := slot_bounds hd hb
  have hiff := crosses_line_iff hflat hlhs hrhs
    ((mem_atomic_regions hd).mpr ⟨a.1, hax, a.2, hay, rfl⟩)
    ((mem_atomic_regions hd).mpr ⟨b.1, hbx, b.2, hby, rfl⟩)
  rw [Bool.eq_iff_iff, hiff, bne_iff_ne, ne_eq, decide_eq_decide]
  omega

/-- The edges across a line are within the total of its borders. -/
theorem Routable.width_le {routes : List (List Cell)} (h : Routable g device regions nets routes)
    (hbuild : build_with_scopes flat memory control anchor projection = .ok g)
    (hlen : regions.length = g.vertices.length) {n : Nat} {border : Nat → Boundary}
    (line : Line device side n border) (hcut : ∀ a ∈ regions, ∀ b ∈ regions, cut.crosses (.slot a.1
    a.2) (.slot b.1 b.2) = (side a != side b))
    (htotals : Totals ((List.range n).map fun i => (border i).capacity) cut.capacity) :
    width_across g (slot_placement regions) cut ≤ cut.capacity := by
  rw [width_across_eq hbuild hlen hcut, nets_across_eq (build_with_scopes_sound hbuild) h.crossing]
  exact line.width_le h.paths h.capacity htotals

theorem Routable.withinCuts {routes : List (List Cell)}
    (h : Routable g device regions nets routes)
    (hbuild : build_with_scopes flat memory control anchor projection = .ok g)
    (hd : device.Complete) (hlen : regions.length = g.vertices.length)
    (hcells : ∀ cell ∈ regions, (device.slot cell.1 cell.2).isSome = true) :
    WithinCuts g (slot_cuts device) (slot_placement regions) := by
  intro cut hcut
  rcases (mem_cuts_slots hd).mp hcut with ⟨y, hy, hsome⟩ | ⟨x, hx, hsome⟩
  · have hflat : ∀ region ∈ atomic_regions device, region.ur_y = region.dl_y :=
      fun _ h => (atomic_regions_flat hd h).2
    obtain ⟨hcap, _, hlhs, hrhs⟩ := (clean_cut_line hflat).mp hsome
    rw [hlhs, hrhs, cut_capacity_slots_north hd hy] at hcap
    exact h.width_le hbuild hlen (horizontal_line hd hy) (fun a ha b hb =>
      crosses_slots_line hd hflat hlhs hrhs (hcells a ha) (hcells b hb)) hcap
  · have hflat : ∀ region ∈ atomic_regions device, region.ur_x = region.dl_x :=
      fun _ h => (atomic_regions_flat hd h).1
    obtain ⟨hcap, _, hlhs, hrhs⟩ := (clean_cut_line hflat).mp hsome
    rw [hlhs, hrhs, cut_capacity_slots_east hd hx] at hcap
    exact h.width_le hbuild hlen (vertical_line hd hx) (fun a ha b hb =>
      crosses_slots_line hd hflat hlhs hrhs (hcells a ha) (hcells b hb)) hcap

/-- The rows of the cuts hold at every solution that selects a placement. -/
def CutRowsHold (g : FloorGraph) (cuts : List Cut) (p : List Coor) : Prop :=
  ∀ domains σ lp, WellPosed g domains → Selects domains σ p → Products g domains σ →
    lp.Feasible σ → (add_cut_constraints lp g domains cuts).Feasible σ

theorem WithinCuts.rowsHold {cuts : List Cut} {p : List Coor} (h : WithinCuts g cuts p) :
    CutRowsHold g cuts p := by
  intro domains σ lp hw hsel hprod hfeasible
  refine feasible_cut_constraints.mpr ⟨hfeasible, fun cut hcut => ?_⟩
  rw [sum_across_cut hw hsel hprod]
  exact_mod_cast h cut hcut

end Nets

/-- Cuts never exclude a placement that can be routed: it keeps to the cuts of the
slots and, with its slots mapped to their rows, to those of the rows, so every cut row
of the two programs holds. -/
theorem cuts_never_exclude_a_routable_placement {flat : TaskGraph} {memory : List MemoryInterface}
    {control : Option ControlInterface} {anchor : Option Str} {projection : Option FlatProjection}
    {g : FloorGraph} (hbuild : build_with_scopes flat memory control anchor projection = .ok g)
    {device : Device} (hd : device.Complete) {regions : List Cell}
    (hlen : regions.length = g.vertices.length)
    (hcells : ∀ cell ∈ regions, (device.slot cell.1 cell.2).isSome = true)
    {nets : List PendingNet} {routes : List (List Cell)}
    (hroutable : Routable g device regions nets routes) :
    let p := slot_placement regions
    (WithinCuts g (slot_cuts device) p ∧ CutRowsHold g (slot_cuts device) p) ∧
    (WithinCuts g (row_cuts device) (p.map (row_of device)) ∧
      CutRowsHold g (row_cuts device) (p.map (row_of device))) := by
  intro p
  have hslots : WithinCuts g (slot_cuts device) p := hroutable.withinCuts hbuild hd hlen hcells
  have hplen : p.length = g.vertices.length := by simp [p, slot_placement, hlen]
  have hrows := WithinCuts.rows hd (edges_between_clusters hbuild) hplen
    (slot_placement_inSlots hd hlen hcells) hslots
  exact ⟨⟨hslots, hslots.rowsHold⟩, hrows, hrows.rowsHold⟩

/-- Two slots with seventy usable wires between them. -/
def wideSlots : Device where
  key := ['d']
  rows := 2
  cols := 1
  planned_resources := Resource.ALL
  usage_ceiling := none
  slots := [⟨0, 0, ⟨100, 100, 0, 0, 0⟩, 0, 0, ⟨100, 100, 100, 100⟩, [], zero_fits, zero_fits⟩,
    ⟨0, 1, ⟨100, 100, 0, 0, 0⟩, 0, 150, ⟨100, 100, 100, 100⟩, [], zero_fits, one_fits⟩]
  anchors := []

/-- The net of `q` between the two slots. -/
def handOverNet : PendingNet := ⟨.Stream ['q'], none, (0, 0), (0, 1), 35⟩

theorem handOver_routable : Routable handOverGraph wideSlots [(0, 0), (0, 1)] [handOverNet]
    [[(0, 0), (0, 1)]] := by
  refine ⟨rfl, .cons ⟨rfl, rfl, by decide, by decide, by decide⟩ .nil, rfl⟩

/-- The thirty-five wires of `q` are within the cut between the two slots. -/
theorem a_hand_over_keeps_to_the_cuts :
    WithinCuts handOverGraph (slot_cuts wideSlots) [.slot 0 0, .slot 0 1] ∧
      (slot_cuts wideSlots).map Cut.capacity = [70] := by
  have hbuild : build_with_scopes handOver [] none none none = .ok handOverGraph := eq_ok_get rfl
  have hd : wideSlots.Complete := Device.validate_grid_ok rfl
  have hcells : ∀ cell ∈ [((0, 0) : Cell), (0, 1)],
      (wideSlots.slot cell.1 cell.2).isSome = true := by decide
  obtain ⟨⟨hslots, _⟩, _⟩ := cuts_never_exclude_a_routable_placement hbuild hd rfl hcells
    handOver_routable
  exact ⟨hslots, by decide +kernel⟩

end Tapa.Floorplan
