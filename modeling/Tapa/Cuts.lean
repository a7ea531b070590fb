-- The straight cuts of a complete grid (`partition/cut.rs`). A cut between two rows
-- holds the borders of all slots along it, whether its regions are the slots or the
-- rows. A cut between two columns holds the borders along it, and rows have none.
import Tapa.Placement

namespace Tapa.Floorplan

open Ir Text Fallible List

/-! ## Totals -/

/-- All capacities are limited, and they add up to a number. -/
def Totals (caps : List (Option Nat)) (total : Nat) : Prop :=
  (∀ cap ∈ caps, cap.isSome) ∧ (caps.map fun cap => cap.getD 0).sum = total

variable {total : Nat}

theorem totals_nil : Totals [] total ↔ total = 0 := by
  simp only [Totals, not_mem_nil, false_implies, implies_true, map_nil, sum_nil,
    true_and]
  exact eq_comm

theorem totals_cons {cap : Option Nat} {caps : List (Option Nat)} :
    Totals (cap :: caps) total ↔ ∃ n rest, cap = some n ∧ Totals caps rest ∧ n + rest = total := by
  unfold Totals
  constructor
  · rintro ⟨hall, hsum⟩
    obtain ⟨n, rfl⟩ := Option.isSome_iff_exists.mp (hall cap mem_cons_self)
    exact ⟨n, _, rfl, ⟨fun c hc => hall c (mem_cons_of_mem _ hc), rfl⟩, by simpa using hsum⟩
  · rintro ⟨n, rest, rfl, ⟨hall, rfl⟩, rfl⟩
    exact ⟨forall_mem_cons.mpr ⟨rfl, hall⟩, by simp⟩

theorem Totals.perm {caps caps' : List (Option Nat)} (hperm : caps.Perm caps')
    (h : Totals caps total) : Totals caps' total :=
  ⟨fun cap hcap => h.1 cap (hperm.mem_iff.mpr hcap), by
    rw [← h.2]
    exact ((hperm.map _).sum_eq).symm⟩

theorem sum_mapM_totals {α : Type} {f : α → Option Nat} {l : List α} :
    (l.mapM f).map List.sum = some total ↔ Totals (l.map f) total := by
  induction l generalizing total with
  | nil => simp [totals_nil, eq_comm]
  | cons a l ih =>
    rw [map_cons, totals_cons, mapM_cons]
    cases ha : f a with
    | none => simp
    | some n =>
      cases hl : l.mapM f with
      | none =>
        rw [hl] at ih
        simp only [Option.map_none, reduceCtorEq, false_iff] at ih
        simp [ih]
      | some ns =>
        rw [hl] at ih
        simp [← ih]

/-- A sum with an overflow check, where the capacities are too small for an overflow. -/
theorem sum_checked_totals {α : Type} {f : α → Option Nat} {l : List α} {bound start result : Nat}
    (hbound : ∀ a ∈ l, ∀ n, f a = some n → n ≤ bound) (hfit : start + l.length * bound < 2 ^ 64) :
    l.foldlM (fun sum a => do checked_add_u64 sum (← f a)) start = some result ↔
      ∃ total, Totals (l.map f) total ∧ start + total = result := by
  induction l generalizing start with
  | nil => simp [totals_nil]
  | cons a l ih =>
    rw [foldlM_cons, map_cons]
    simp only [totals_cons]
    cases ha : f a with
    | none => simp
    | some n =>
      have hn := hbound a mem_cons_self n ha
      rw [length_cons, Nat.add_mul] at hfit
      have hstep : checked_add_u64 start n = some (start + n) := if_pos (by omega)
      have hrest := ih (fun b hb => hbound b (mem_cons_of_mem a hb))
        (by omega : start + n + l.length * bound < 2 ^ 64)
      simp only [Option.bind_eq_bind, Option.bind_some, hstep] at hrest ⊢
      rw [hrest]
      constructor
      · rintro ⟨rest, htotals, rfl⟩
        exact ⟨n + rest, ⟨n, rest, rfl, htotals, rfl⟩, by omega⟩
      · rintro ⟨_, ⟨m, rest, hm, htotals, rfl⟩, rfl⟩
        cases hm
        exact ⟨rest, htotals, by omega⟩

/-! ## Borders -/

/-- The wires of the border above a slot, where they are limited. -/
def north_border (device : Device) (y x : Nat) : Option Nat :=
  (device.slot x y).bind fun near => (device.slot x (y + 1)).bind fun far =>
    bounded_border_capacity near.wire_cap.north far.wire_cap.south

/-- The wires of the border to the right of a slot, where they are limited. -/
def east_border (device : Device) (x y : Nat) : Option Nat :=
  (device.slot x y).bind fun near => (device.slot (x + 1) y).bind fun far =>
    bounded_border_capacity near.wire_cap.east far.wire_cap.west

/-- The row of the grid at a height, over its full width. -/
def row_at (device : Device) (y : Nat) : Coor := Coor.span 0 y (device.cols - 1) y

theorem bounded_border_capacity_le {a b n : Nat} (h : bounded_border_capacity a b = some n) :
    n ≤ WIRE_CAPACITY_INF := by
  unfold bounded_border_capacity at h
  split at h
  · rw [← Option.some.inj h]
    unfold usable_wire_capacity
    omega
  · cases h

/-- A capacity alone does not overflow. -/
theorem checked_add_zero {cap : Option Nat} (h : ∀ n, cap = some n → n ≤ WIRE_CAPACITY_INF) :
    (cap.bind fun n => checked_add_u64 0 n) = cap := by
  cases cap with
  | none => rfl
  | some n =>
    have hn := h n rfl
    unfold WIRE_CAPACITY_INF at hn
    rw [Option.bind_some, checked_add_u64, if_pos (by omega), Nat.zero_add]

section Grid

variable {device : Device} {x y : Nat}

theorem Device.Complete.cols_le (hd : device.Complete) : device.cols ≤ 2 ^ 32 := by
  obtain ⟨slot, hslot⟩ := hd.covered (device.cols - 1) (by have := hd.cols; omega) 0 hd.rows
  obtain ⟨_, hx, _⟩ := Device.slot_eq_some hslot
  have hlt := slot.x_lt
  omega

/-- The capacity of the border of a region with one above it, slot by slot. -/
theorem border_capacity_south (hd : device.Complete) {lhs rhs : Coor}
    (hsouth : lhs.is_south_neighbor_of rhs = true) (hx : min lhs.ur_x rhs.ur_x < device.cols)
    (hy : rhs.dl_y < device.rows) : border_capacity device lhs rhs =
      (inclusive_range (max lhs.dl_x rhs.dl_x) (min lhs.ur_x rhs.ur_x)).foldlM
        (fun sum x => do checked_add_u64 sum (← north_border device lhs.ur_y x)) 0 := by
  have hline : lhs.ur_y + 1 = rhs.dl_y := by
    simp only [Coor.is_south_neighbor_of, decide_eq_true_eq] at hsouth
    exact hsouth.1
  have hmem : ∀ x ∈ inclusive_range (max lhs.dl_x rhs.dl_x) (min lhs.ur_x rhs.ur_x),
      x < device.cols := by
    intro x h
    rw [inclusive_range, mem_range'_1] at h
    omega
  unfold border_capacity facing
  simp only [hsouth, if_true, ← hline]
  generalize inclusive_range (max lhs.dl_x rhs.dl_x) (min lhs.ur_x rhs.ur_x) = xs at hmem
  generalize 0 = start
  induction xs generalizing start with
  | nil => rfl
  | cons x xs ih =>
    obtain ⟨near, hnear⟩ := hd.covered x (hmem x mem_cons_self) lhs.ur_y (by omega)
    obtain ⟨far, hfar⟩ := hd.covered x (hmem x mem_cons_self) (lhs.ur_y + 1) (by omega)
    rw [filterMap_cons_some (b := (near.wire_cap.north, far.wire_cap.south))
      (by simp [hnear, hfar]), foldlM_cons, foldlM_cons]
    simp only [north_border, hnear, hfar, Option.bind_some]
    congr 1
    funext total
    exact ih (fun x' hx' => hmem x' (mem_cons_of_mem x hx')) total

theorem north_border_le {n : Nat} (h : north_border device y x = some n) :
    n ≤ WIRE_CAPACITY_INF := by
  simp only [north_border, Option.bind_eq_some_iff] at h
  obtain ⟨_, _, _, _, h⟩ := h
  exact bounded_border_capacity_le h

section

variable (hd : device.Complete)
include hd

theorem border_capacity_slots_north (hx : x < device.cols) (hy : y + 1 < device.rows) :
    border_capacity device (.slot x y) (.slot x (y + 1)) = north_border device y x := by
  rw [border_capacity_south hd (by simp [Coor.is_south_neighbor_of, Coor.slot])
    (by simpa [Coor.slot] using hx) (by simpa [Coor.slot] using hy)]
  have hshared : inclusive_range (max (Coor.slot x y).dl_x (Coor.slot x (y + 1)).dl_x)
      (min (Coor.slot x y).ur_x (Coor.slot x (y + 1)).ur_x) = [x] := by
    simp [inclusive_range, Coor.slot]
  rw [hshared]
  simpa [Coor.slot] using checked_add_zero fun n => north_border_le

variable {total : Nat}

/-- Between two rows are the borders of all their slots. -/
theorem border_capacity_rows (hy : y + 1 < device.rows) :
    border_capacity device (row_at device y) (row_at device (y + 1)) = some total ↔
      Totals ((List.range device.cols).map (north_border device y)) total := by
  have hcols := hd.cols
  rw [border_capacity_south hd (by simp [Coor.is_south_neighbor_of, row_at, Coor.span])
    (by simp [row_at, Coor.span]; omega) (by simpa [row_at, Coor.span] using hy)]
  have hshared : inclusive_range (max (row_at device y).dl_x (row_at device (y + 1)).dl_x)
      (min (row_at device y).ur_x (row_at device (y + 1)).ur_x) = List.range device.cols := by
    simp only [inclusive_range, row_at, Coor.span, max_self, min_self, range_eq_range']
    congr 1
    omega
  rw [hshared]
  have hfit : 0 + (List.range device.cols).length * WIRE_CAPACITY_INF < 2 ^ 64 := by
    have hle := hd.cols_le
    rw [length_range, WIRE_CAPACITY_INF]
    omega
  change (List.range device.cols).foldlM
    (fun sum x => do checked_add_u64 sum (← north_border device y x)) 0 = some total ↔ _
  rw [sum_checked_totals (fun x _ n h => north_border_le h) hfit]
  simp

theorem border_capacity_slots_east (hx : x + 1 < device.cols) (hy : y < device.rows) :
    border_capacity device (.slot x y) (.slot (x + 1) y) = east_border device x y := by
  obtain ⟨near, hnear⟩ := hd.covered x (by omega) y hy
  obtain ⟨far, hfar⟩ := hd.covered (x + 1) hx y hy
  have hfacing : facing device (.slot x y) (.slot (x + 1) y) =
      [(near.wire_cap.east, far.wire_cap.west)] := by
    simp [facing, Coor.slot, Coor.is_south_neighbor_of, Coor.is_north_neighbor_of,
      Coor.is_west_neighbor_of, inclusive_range, hnear, hfar]
  rw [border_capacity, hfacing]
  simpa [east_border, hnear, hfar] using checked_add_zero fun n => bounded_border_capacity_le

/-! ## Regions of the grid -/

variable {region : Coor}

theorem mem_atomic_regions : region ∈ atomic_regions device ↔
      ∃ x < device.cols, ∃ y < device.rows, region = .slot x y := by
  simp only [atomic_regions, mem_flatMap, mem_filterMap, mem_range,
    Option.map_eq_some_iff]
  constructor
  · rintro ⟨x, hx, y, hy, slot, _, rfl⟩
    exact ⟨x, hx, y, hy, rfl⟩
  · rintro ⟨x, hx, y, hy, rfl⟩
    obtain ⟨slot, hslot⟩ := hd.covered x hx y hy
    exact ⟨x, hx, y, hy, slot, hslot, rfl⟩

end

theorem mem_row_regions :
    region ∈ row_regions device ↔ ∃ y < device.rows, region = row_at device y := by
  simp only [row_regions, mem_map, mem_range]
  constructor
  · rintro ⟨y, hy, rfl⟩
    exact ⟨y, hy, rfl⟩
  · rintro ⟨y, hy, rfl⟩
    exact ⟨y, hy, rfl⟩

theorem atomic_regions_nodup (device : Device) : (atomic_regions device).Nodup := by
  unfold atomic_regions
  rw [nodup_flatMap]
  constructor
  · intro x _
    refine nodup_range.filterMap ?_
    intro y y' region h h'
    simp only [Option.mem_def, Option.map_eq_some_iff] at h h'
    obtain ⟨_, _, rfl⟩ := h
    obtain ⟨_, _, heq⟩ := h'
    exact (congrArg Coor.dl_y heq).symm
  · refine nodup_range.imp fun {x x'} hne region h h' => hne ?_
    simp only [mem_filterMap, Option.map_eq_some_iff] at h h'
    obtain ⟨_, _, _, _, rfl⟩ := h
    obtain ⟨_, _, _, _, heq⟩ := h'
    exact (congrArg Coor.dl_x heq).symm

theorem row_regions_nodup (device : Device) : (row_regions device).Nodup :=
  nodup_range.map fun _ _ h => congrArg Coor.dl_y h

/-! ## Cuts -/

/-- The capacity of a cut whose neighbors are known. -/
theorem cut_capacity_totals {lhs rhs : List Coor} {pairs : List (Coor × Coor)} (hlhs : lhs.Nodup)
    (hrhs : rhs.Nodup) (hpairs : pairs.Nodup) (hmem : ∀ left right, (left, right) ∈ pairs ↔ left ∈
    lhs ∧ right ∈ rhs ∧ left.is_neighbor right = true) :
    cut_capacity device lhs rhs = some total ↔
      Totals (pairs.map fun pair => border_capacity device pair.1 pair.2) total := by
  have hnodup : (lhs.flatMap fun left => rhs.map fun right => (left, right)).Nodup :=
    hlhs.product hrhs
  have hperm : ((lhs.flatMap fun left => rhs.map fun right => (left, right)).filter
      fun pair => pair.1.is_neighbor pair.2).Perm pairs := by
    refine (perm_ext_iff_of_nodup (hnodup.filter _) hpairs).mpr ?_
    rintro ⟨left, right⟩
    rw [hmem]
    simp [and_assoc]
  unfold cut_capacity
  rw [sum_mapM_totals]
  exact ⟨fun h => h.perm (hperm.map _), fun h => h.perm (hperm.map _).symm⟩

variable {regions : List Coor} {cut : Cut}

/-- The capacity of a cut along which each index has a region on either side. -/
theorem cut_capacity_line {p q : Coor → Bool} {n : Nat} {a b : Nat → Coor}
    {caps : Nat → Option Nat} (hregions : regions.Nodup) (hinj : a.Injective)
    (hmem : ∀ left right, (∃ i < n, a i = left ∧ b i = right) ↔
      (left ∈ regions ∧ p left = true) ∧ (right ∈ regions ∧ q right = true) ∧
        left.is_neighbor right = true)
    (hcaps : ∀ i < n, border_capacity device (a i) (b i) = caps i) :
    cut_capacity device (regions.filter p) (regions.filter q) = some total ↔
      Totals ((List.range n).map caps) total := by
  have hpairs : ((List.range n).map fun i => (a i, b i)).Nodup :=
    nodup_range.map fun _ _ h => hinj (congrArg Prod.fst h)
  rw [cut_capacity_totals (hregions.filter _) (hregions.filter _) hpairs ?_, map_map,
    ← map_congr_left fun i hi => hcaps i (mem_range.mp hi)]
  · rfl
  intro left right
  simpa using hmem left right

theorem clean_cut_eq_some {lhs rhs : List Coor} {name : Str}
    (hclean : lhs.length + rhs.length = regions.length) :
    clean_cut device regions name lhs rhs = some cut ↔
      cut_capacity device lhs rhs = some cut.capacity ∧ cut.name = name ∧ cut.lhs = lhs ∧
        cut.rhs = rhs := by
  rw [clean_cut, if_neg (not_not.mpr hclean), Option.map_eq_some_iff]
  constructor
  · rintro ⟨capacity, hcap, rfl⟩
    exact ⟨hcap, rfl, rfl, rfl⟩
  · obtain ⟨name', lhs', rhs', capacity⟩ := cut
    rintro ⟨hcap, rfl, rfl, rfl⟩
    exact ⟨capacity, hcap, rfl⟩

section Line

variable {l u : Coor → Nat} {z : Nat} (hflat : ∀ region ∈ regions, u region = l region)
include hflat

/-- A line between regions of one height or width leaves none of them out. -/
theorem clean_cut_line {name : Str} : clean_cut device regions name
      (regions.filter fun region => u region ≤ z) (regions.filter fun region => l region > z) =
        some cut ↔
      cut_capacity device cut.lhs cut.rhs = some cut.capacity ∧ cut.name = name ∧
      cut.lhs = regions.filter (fun region => u region ≤ z) ∧
      cut.rhs = regions.filter (fun region => l region > z) := by
  have hclean : (regions.filter fun region => u region ≤ z).length +
      (regions.filter fun region => l region > z).length = regions.length := by
    rw [filter_congr (p := fun region => decide (l region > z))
      fun region hregion => ?_]
    · exact (length_eq_length_filter_add _).symm
    · rw [← decide_not, hflat region hregion]
      exact decide_eq_decide.mpr Nat.not_le.symm
  rw [clean_cut_eq_some hclean]
  refine and_congr_left fun h => ?_
  rw [h.2.1, h.2.2]

/-- The edges across a line have their ends on either side of it. -/
theorem crosses_line_iff (hlhs : cut.lhs = regions.filter (fun region => u region ≤ z))
    (hrhs : cut.rhs = regions.filter (fun region => l region > z)) {src dst : Coor}
    (hsrc : src ∈ regions) (hdst : dst ∈ regions) :
    cut.crosses src dst = true ↔
      (l src ≤ z ∧ z < l dst) ∨ (z < l src ∧ l dst ≤ z) := by
  simp [Cut.crosses, hlhs, hrhs, hsrc, hdst, hflat src hsrc, hflat dst hdst]

end Line

theorem is_neighbor_iff {c other : Coor} : c.is_neighbor other = true ↔
    (max c.dl_x other.dl_x ≤ min c.ur_x other.ur_x ∧
      (c.dl_y = other.ur_y + 1 ∨ c.ur_y + 1 = other.dl_y)) ∨
    (max c.dl_y other.dl_y ≤ min c.ur_y other.ur_y ∧
      (c.dl_x = other.ur_x + 1 ∨ c.ur_x + 1 = other.dl_x)) := by
  rw [Coor.is_neighbor, Bool.or_eq_true, Bool.or_eq_true, Bool.or_eq_true]
  simp only [Coor.is_north_neighbor_of, Coor.is_south_neighbor_of, Coor.is_east_neighbor_of,
    Coor.is_west_neighbor_of, decide_eq_true_eq]
  omega

variable {y' : Nat}

theorem slot_neighbor_above {x y x' : Nat} (h : y < y') :
    (Coor.slot x y).is_neighbor (.slot x' y') = true ↔ x = x' ∧ y' = y + 1 := by
  simp only [is_neighbor_iff, Coor.slot]
  omega

theorem slot_neighbor_right {x y x' : Nat} (h : x < x') :
    (Coor.slot x y).is_neighbor (.slot x' y') = true ↔ y = y' ∧ x' = x + 1 := by
  simp only [is_neighbor_iff, Coor.slot]
  omega

theorem row_neighbor_above {y : Nat} (h : y < y') :
    (row_at device y).is_neighbor (row_at device y') = true ↔ y' = y + 1 := by
  simp only [is_neighbor_iff, row_at, Coor.span]
  omega

theorem atomic_regions_flat (hd : device.Complete) (h : region ∈ atomic_regions device) :
    region.ur_x = region.dl_x ∧ region.ur_y = region.dl_y := by
  obtain ⟨x, _, y, _, rfl⟩ := (mem_atomic_regions hd).mp h
  exact ⟨rfl, rfl⟩

theorem row_regions_flat (h : region ∈ row_regions device) :
    region.ur_y = region.dl_y := by
  obtain ⟨y, _, rfl⟩ := mem_row_regions.mp h
  rfl

/-- Between two rows of slots are the borders of the slots along the line. -/
theorem cut_capacity_slots_north (hd : device.Complete) (hy : y + 1 < device.rows) :
    cut_capacity device ((atomic_regions device).filter fun region => region.ur_y ≤ y)
      ((atomic_regions device).filter fun region => region.dl_y > y) = some total ↔
      Totals ((List.range device.cols).map (north_border device y)) total := by
  refine cut_capacity_line
    (atomic_regions_nodup device) (fun _ _ h => congrArg Coor.dl_x h) (fun left right => ?_)
    fun x hx => border_capacity_slots_north hd hx hy
  simp only [decide_eq_true_eq, mem_atomic_regions hd]
  constructor
  · rintro ⟨x, hx, rfl, rfl⟩
    refine ⟨⟨⟨x, hx, y, by omega, rfl⟩, le_refl y⟩, ⟨⟨x, hx, y + 1, hy, rfl⟩, ?_⟩, ?_⟩
    · exact Nat.lt_succ_self y
    · exact (slot_neighbor_above (Nat.lt_succ_self y)).mpr ⟨rfl, rfl⟩
  · rintro ⟨⟨⟨x, hx, y1, hy1, rfl⟩, (hle : y1 ≤ y)⟩, ⟨⟨x', hx', y2, hy2, rfl⟩, (hgt : y < y2)⟩,
      hneighbor⟩
    obtain ⟨rfl, rfl⟩ := (slot_neighbor_above (by omega)).mp hneighbor
    obtain rfl : y1 = y := by omega
    exact ⟨x, hx, rfl, rfl⟩

/-- Between two columns of slots are the borders of the slots along the line. -/
theorem cut_capacity_slots_east (hd : device.Complete) (hx : x + 1 < device.cols) :
    cut_capacity device ((atomic_regions device).filter fun region => region.ur_x ≤ x)
      ((atomic_regions device).filter fun region => region.dl_x > x) = some total ↔
      Totals ((List.range device.rows).map (east_border device x)) total := by
  refine cut_capacity_line
    (atomic_regions_nodup device) (fun _ _ h => congrArg Coor.dl_y h) (fun left right => ?_)
    fun y hy => border_capacity_slots_east hd hx hy
  simp only [decide_eq_true_eq, mem_atomic_regions hd]
  constructor
  · rintro ⟨y, hy, rfl, rfl⟩
    refine ⟨⟨⟨x, by omega, y, hy, rfl⟩, le_refl x⟩, ⟨⟨x + 1, hx, y, hy, rfl⟩, ?_⟩, ?_⟩
    · exact Nat.lt_succ_self x
    · exact (slot_neighbor_right (Nat.lt_succ_self x)).mpr ⟨rfl, rfl⟩
  · rintro ⟨⟨⟨x1, hx1, y, hy, rfl⟩, (hle : x1 ≤ x)⟩, ⟨⟨x2, hx2, y', hy', rfl⟩, (hgt : x < x2)⟩,
      hneighbor⟩
    obtain ⟨rfl, rfl⟩ := (slot_neighbor_right (by omega)).mp hneighbor
    obtain rfl : x1 = x := by omega
    exact ⟨y, hy, rfl, rfl⟩

theorem cut_capacity_rows (hd : device.Complete) (hy : y + 1 < device.rows) :
    cut_capacity device ((row_regions device).filter fun region => region.ur_y ≤ y)
      ((row_regions device).filter fun region => region.dl_y > y) = some total ↔
      Totals ((List.range device.cols).map (north_border device y)) total := by
  have hnodup := row_regions_nodup device
  rw [← border_capacity_rows hd hy,
    cut_capacity_totals (hnodup.filter _) (hnodup.filter _)
      (nodup_singleton (row_at device y, row_at device (y + 1))) ?_]
  · rw [map_singleton, totals_cons]
    simp [totals_nil]
  · intro left right
    simp only [mem_singleton, mem_filter, decide_eq_true_eq, mem_row_regions,
      Prod.mk.injEq]
    constructor
    · rintro ⟨rfl, rfl⟩
      refine ⟨⟨⟨y, by omega, rfl⟩, le_refl y⟩, ⟨⟨y + 1, hy, rfl⟩, Nat.lt_succ_self y⟩, ?_⟩
      exact (row_neighbor_above (Nat.lt_succ_self y)).mpr rfl
    · rintro ⟨⟨⟨y1, hy1, rfl⟩, hle⟩, ⟨⟨y2, hy2, rfl⟩, hgt⟩, hneighbor⟩
      have hle' : y1 ≤ y := hle
      have hgt' : y < y2 := hgt
      obtain rfl := (row_neighbor_above (by omega)).mp hneighbor
      obtain rfl : y1 = y := by omega
      exact ⟨rfl, rfl⟩

/-- No line between two columns is clear of the rows. -/
theorem vertical_cut_rows (hd : device.Complete) (hx : x + 1 < device.cols) :
    vertical_cut device (row_regions device) x = none := by
  have hlhs : (row_regions device).filter (fun region => region.ur_x ≤ x) = [] := by
    refine filter_eq_nil_iff.mpr fun region hregion => ?_
    obtain ⟨y, _, rfl⟩ := mem_row_regions.mp hregion
    intro h
    have hle : device.cols - 1 ≤ x := of_decide_eq_true h
    omega
  have hrhs : (row_regions device).filter (fun region => region.dl_x > x) = [] := by
    refine filter_eq_nil_iff.mpr fun region hregion => ?_
    obtain ⟨y, _, rfl⟩ := mem_row_regions.mp hregion
    simp [row_at, Coor.span]
  have hrows := hd.rows
  rw [vertical_cut, hlhs, hrhs, clean_cut, if_pos]
  simp only [length_nil, row_regions, length_map, length_range]
  omega

/-! ## All cuts -/

theorem lt_foldl_max {n start : Nat} {l : List Nat} :
    n < l.foldl max start ↔ n < start ∨ ∃ a ∈ l, n < a := by
  induction l generalizing start with
  | nil => simp
  | cons a l ih => rw [foldl_cons, ih, lt_max_iff, exists_mem_cons_iff, or_assoc]

theorem lt_max_iff_of_hits {f : Coor → Nat} {n z : Nat} (hlt : ∀ region ∈ regions, f region < n)
    (hhit : ∀ k < n, ∃ region ∈ regions, f region = k) :
    z < (regions.map f).foldl max 0 ↔ z + 1 < n := by
  simp only [lt_foldl_max, mem_map, Nat.not_lt_zero, false_or]
  constructor
  · rintro ⟨_, ⟨region, hregion, rfl⟩, h⟩
    have := hlt region hregion
    omega
  · intro h
    exact ⟨z + 1, hhit _ h, Nat.lt_succ_self z⟩

section

variable (hd : device.Complete)
include hd

/-- The cuts over the slots are the lines between their rows and columns. -/
theorem mem_cuts_slots :
    cut ∈ find_cuts_for_regions device (atomic_regions device) ↔
      (∃ y, y + 1 < device.rows ∧ horizontal_cut device (atomic_regions device) y = some cut) ∨
      ∃ x, x + 1 < device.cols ∧ vertical_cut device (atomic_regions device) x = some cut := by
  have hmax_y (y : Nat) : y < ((atomic_regions device).map Coor.ur_y).foldl max 0 ↔
      y + 1 < device.rows := by
    refine lt_max_iff_of_hits ?_ fun y hy => ⟨.slot 0 y, ?_, rfl⟩ <;>
      simp only [mem_atomic_regions hd]
    · rintro _ ⟨_, _, y, hy, rfl⟩
      exact hy
    · exact ⟨0, hd.cols, y, hy, rfl⟩
  have hmax_x (x : Nat) : x < ((atomic_regions device).map Coor.ur_x).foldl max 0 ↔
      x + 1 < device.cols := by
    refine lt_max_iff_of_hits ?_ fun x hx => ⟨.slot x 0, ?_, rfl⟩ <;>
      simp only [mem_atomic_regions hd]
    · rintro _ ⟨x, hx, _, _, rfl⟩
      exact hx
    · exact ⟨x, hx, 0, hd.rows, rfl⟩
  simp only [find_cuts_for_regions, mem_append, mem_filterMap, mem_range, hmax_x, hmax_y]

theorem mem_cuts_rows :
    cut ∈ find_cuts_for_regions device (row_regions device) ↔
      ∃ y, y + 1 < device.rows ∧ horizontal_cut device (row_regions device) y = some cut := by
  have hmax_y (y : Nat) : y < ((row_regions device).map Coor.ur_y).foldl max 0 ↔
      y + 1 < device.rows := by
    refine lt_max_iff_of_hits ?_ fun y hy =>
      ⟨row_at device y, mem_row_regions.mpr ⟨y, hy, rfl⟩, rfl⟩
    rintro _ hregion
    obtain ⟨y, hy, rfl⟩ := mem_row_regions.mp hregion
    exact hy
  have hvertical : ∀ x < ((row_regions device).map Coor.ur_x).foldl max 0,
      vertical_cut device (row_regions device) x = none := by
    intro x hx
    simp only [lt_foldl_max, mem_map, mem_row_regions, Nat.not_lt_zero, false_or] at hx
    obtain ⟨_, ⟨_, ⟨y', _, rfl⟩, rfl⟩, (hlt : x < device.cols - 1)⟩ := hx
    exact vertical_cut_rows hd (by omega)
  simp only [find_cuts_for_regions, mem_append, mem_filterMap, mem_range, hmax_y]
  refine or_iff_left ?_
  rintro ⟨x, hx, hcut⟩
  rw [hvertical x hx] at hcut
  cases hcut

end

end Grid

end Tapa.Floorplan
