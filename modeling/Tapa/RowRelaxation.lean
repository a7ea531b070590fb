-- Rows relax slots: a placement into single slots is a placement into the rows of
-- these slots at the same limit. A row has room for what its slots hold, keeps their
-- tags, needs no more registers at its borders and meets the same cuts.
import Tapa.Cuts
import Tapa.PlacementSearch

namespace Tapa.Floorplan

open Ir Text Fallible LinearProgram List Nat

/-! ## Limits of block resources -/

/-- One limit for the planned resources that are not logic, in every row and slot. -/
def exact_resource_cap_constraints (device : Device) (block_limit : ℚ) : RegionResourceLimits :=
  let by_resource : BTreeMap Resource ℚ :=
    (Resource.ALL.filter fun resource => device.plans_resource resource && !resource.is_logic).foldl
      (fun limits resource => limits.insert resource block_limit) ∅
  (row_regions device ++ atomic_regions device).foldl
    (fun limits region => limits.insert region.region_name by_resource) ∅

/-- The limits of a pass, with a limit of its own for block resources or without. -/
def block_limits (device : Device) : Option ℚ → RegionResourceLimits
  | none => ∅
  | some block_limit => exact_resource_cap_constraints device block_limit

theorem getElem?_foldl_insert {α κ ν : Type} [Ord κ] [Std.TransOrd κ] [Std.LawfulEqOrd κ]
    [DecidableEq κ] (key : α → κ) (value : ν) (l : List α) (m : BTreeMap κ ν) (k : κ) :
    (l.foldl (fun m a => m.insert (key a) value) m)[k]? =
      if k ∈ l.map key then some value else m[k]? := by
  induction l generalizing m with
  | nil => simp
  | cons a l ih =>
    rw [foldl_cons, ih, Std.ExtTreeMap.getElem?_insert]
    by_cases hk : k ∈ l.map key
    · simp [hk, map_cons, mem_cons, or_true]
    by_cases ha : key a = k
    · subst ha
      simp [hk]
    · have hcmp : compare (key a) k ≠ .eq := fun h => ha (Std.LawfulEqOrd.eq_of_compare h)
      simp [hk, hcmp, map_cons, mem_cons, Ne.symm ha]

/-- The limit of a resource is the same in all rows and slots. -/
theorem block_limits_uniform (device : Device) (block : Option ℚ) (usage_limit : ℚ) :
    ∃ limit : Resource → ℚ, ∀ region ∈ row_regions device ++ atomic_regions device, ∀ resource,
      limit_of (block_limits device block) usage_limit region resource = limit resource := by
  cases block with
  | none => exact ⟨fun _ => usage_limit, fun region _ resource => by
      simp [block_limits, limit_of, lookup_limit]⟩
  | some block_limit =>
    refine ⟨fun resource => if device.plans_resource resource && !resource.is_logic then block_limit
      else usage_limit, fun region hregion resource => ?_⟩
    have hname : region.region_name ∈
        (row_regions device ++ atomic_regions device).map Coor.region_name :=
      mem_map_of_mem hregion
    simp only [block_limits, exact_resource_cap_constraints, limit_of, lookup_limit,
      getElem?_foldl_insert, if_pos hname, Option.bind_some]
    simp only [map_id', mem_filter, resource.mem_ALL, true_and]
    split <;> simp

/-! ## Areas of rows -/

section Rows

variable {device : Device}

def cell_area (device : Device) (x y : Nat) : Area := ((device.slot x y).map Slot.area).getD 0

theorem island_area_eq {region : Coor} {total : Area} (h : device.island_area region = some total) :
    total = (region.all_slot_coors.map fun cell => cell_area device cell.1 cell.2).sum := by
  have hloop : ∀ (cells : List Cell) (start total : Area),
      cells.foldlM (fun total cell => do
        let slot ← device.slot cell.1 cell.2
        total.checked_add slot.area) start = some total →
      total = start + (cells.map fun cell => cell_area device cell.1 cell.2).sum := by
    intro cells
    induction cells with
    | nil =>
      intro start total h
      simpa using (Option.some.inj h).symm
    | cons cell cells ih =>
      intro start total h
      rw [foldlM_cons] at h
      simp only [Option.bind_eq_bind, Option.bind_eq_some_iff] at h
      obtain ⟨sum, ⟨slot, hslot, hadd⟩, hrest⟩ := h
      have hsum : sum = start + slot.area := by
        unfold Area.checked_add at hadd
        split at hadd
        · exact (Option.some.inj hadd).symm
        · cases hadd
      rw [ih sum total hrest, hsum, map_cons, sum_cons, ← add_assoc]
      simp [cell_area, hslot]
  simpa using hloop region.all_slot_coors 0 total h

theorem island_area_slot {x y : Nat} {total : Area}
    (h : device.island_area (.slot x y) = some total) : total = cell_area device x y := by
  rw [island_area_eq h]
  simp [Coor.all_slot_coors, Coor.slot]

theorem all_slot_coors_row (hd : device.Complete) (y : Nat) :
    (row_at device y).all_slot_coors = (List.range device.cols).map fun x => (x, y) := by
  have hcols := hd.cols
  have hwidth : device.cols - 1 + 1 = device.cols := by omega
  simp [Coor.all_slot_coors, row_at, Coor.span, hwidth, range_eq_range']

theorem island_area_row (hd : device.Complete) {y : Nat} {total : Area}
    (h : device.island_area (row_at device y) = some total) :
    total = ((List.range device.cols).map fun x => cell_area device x y).sum := by
  rw [island_area_eq h, all_slot_coors_row hd, map_map]
  rfl

theorem amount_add (resource : Resource) (a b : Area) :
    resource.amount (a + b) = resource.amount a + resource.amount b := by
  cases resource <;> rfl

theorem amount_sum (resource : Resource) (areas : List Area) :
    resource.amount areas.sum = (areas.map resource.amount).sum := by
  induction areas with
  | nil => cases resource <;> rfl
  | cons a areas ih => rw [sum_cons, amount_add, ih, map_cons, sum_cons]

theorem scaled_amount_add (a b : Nat) (limit : ℚ) :
    scaled_amount a limit + scaled_amount b limit ≤ scaled_amount (a + b) limit := by
  unfold scaled_amount
  rcases le_total 0 limit with hpos | hneg
  · rw [cast_add, add_mul]
    refine le_floor ?_
    rw [cast_add]
    exact add_le_add (floor_le (mul_nonneg (cast_nonneg a) hpos))
      (floor_le (mul_nonneg (cast_nonneg b) hpos))
  · rw [floor_of_nonpos (mul_nonpos_of_nonneg_of_nonpos (cast_nonneg a) hneg),
      floor_of_nonpos (mul_nonpos_of_nonneg_of_nonpos (cast_nonneg b) hneg)]
    exact zero_le _

/-- The whole units of the parts are at most those of the sum. -/
theorem sum_scaled_amount_le (amounts : List Nat) (limit : ℚ) :
    (amounts.map fun amount => scaled_amount amount limit).sum ≤
      scaled_amount amounts.sum limit := by
  induction amounts with
  | nil => exact zero_le _
  | cons amount amounts ih =>
    exact (Nat.add_le_add_left ih _).trans (scaled_amount_add _ _ _)

/-! ## The row of a slot -/

def row_of (device : Device) (region : Coor) : Coor := row_at device region.dl_y

theorem row_at_inj {y y' : Nat} : row_at device y = row_at device y' ↔ y = y' :=
  ⟨fun h => congrArg Coor.dl_y h, fun h => h ▸ rfl⟩

theorem row_has_tag (hd : device.Complete) {x y : Nat} (hx : x < device.cols) {tag : Str}
    (h : region_has_tag device (.slot x y) tag = true) :
    region_has_tag device (row_at device y) tag = true := by
  simp only [region_has_tag, any_eq_true] at h ⊢
  obtain ⟨cell, hcell, htag⟩ := h
  have hxy : cell = (x, y) := by simpa [Coor.all_slot_coors, Coor.slot] using hcell
  subst hxy
  refine ⟨(x, y), ?_, htag⟩
  rw [all_slot_coors_row hd]
  exact mem_map.mpr ⟨x, mem_range.mpr hx, rfl⟩

/-- A table is at most the sum of its columns where each row is at most its sum. -/
theorem sum_le_sum_columns {α : Type} {l : List α} {f : α → Nat} {g : α → Nat → Nat} {n : Nat}
    (h : ∀ a ∈ l, f a ≤ ((List.range n).map (g a)).sum) :
    (l.map f).sum ≤ ((List.range n).map fun x => (l.map fun a => g a x).sum).sum := by
  induction l with
  | nil => exact zero_le _
  | cons a l ih =>
    simp only [map_cons, sum_cons, sum_map_add]
    exact Nat.add_le_add (h a mem_cons_self)
      (ih fun b hb => h b (mem_cons_of_mem a hb))

theorem le_sum_range {g : Nat → Nat} {n x : Nat} (hx : x < n) :
    g x ≤ ((List.range n).map g).sum :=
  le_sum_of_mem (mem_map_of_mem (mem_range.mpr hx))

variable {graph : FloorGraph} {p : List Coor}

/-- Every cluster is in a slot of the grid. -/
def InSlots (device : Device) (graph : FloorGraph) (p : List Coor) : Prop :=
  ∀ vi < graph.vertices.length, ∃ x < device.cols, ∃ y < device.rows, region_of p vi = .slot x y

theorem region_of_rows {vi : Nat} (hvi : vi < p.length) :
    region_of (p.map (row_of device)) vi = row_of device (region_of p vi) := by
  simp [region_of, hvi]

/-- An edge that leaves a row leaves one of its slots with the same wires. -/
theorem crossing_heads_row_le {edge : PlacementEdge} {src dst : Coor} {x y x' y' : Nat}
    (hx : x < device.cols) (hx' : x' < device.cols) (hsrc : src = .slot x y)
    (hdst : dst = .slot x' y') (row : Nat) :
    crossing_heads (row_at device row) edge (row_of device src) (row_of device dst) ≤
      ((List.range device.cols).map fun c => crossing_heads (.slot c row) edge src dst).sum := by
  subst hsrc hdst
  have hrows : ∀ a b : Nat, row_of device (.slot a b) = row_at device b := fun _ _ => rfl
  by_cases hne : y = y'
  · simp [crossing_heads, hrows, hne]
  have hslots : ∀ a b : Nat, Coor.slot a y ≠ Coor.slot b y' :=
    fun a b h => hne (congrArg Coor.dl_y h)
  simp only [crossing_heads, hrows, row_at_inj, if_neg hne, if_neg (hslots x x')]
  by_cases hleave : y = row
  · subst hleave
    have hterm := le_sum_range (g := fun c => if Coor.slot x y = Coor.slot c y then
      edge.forward_width else if Coor.slot x' y' = Coor.slot c y then edge.reverse_width else 0) hx
    simpa using hterm
  · by_cases henter : y' = row
    · subst henter
      have hterm := le_sum_range (g := fun c => if Coor.slot x y = Coor.slot c y' then
        edge.forward_width else if Coor.slot x' y' = Coor.slot c y' then edge.reverse_width
        else 0) hx'
      simpa [hslots, hleave] using hterm
    · simp [hleave, henter]

section

variable (hedges : EdgesInside graph) (hlen : p.length = graph.vertices.length)
  (hslots : InSlots device graph p)
include hlen hslots

theorem vertex_usage_row_le (y : Nat) (resource : Resource) :
    vertex_usage graph (p.map (row_of device)) (row_at device y) resource ≤
      ((List.range device.cols).map fun x => vertex_usage graph p (.slot x y) resource).sum := by
  refine sum_le_sum_columns ?_
  rintro ⟨vertex, vi⟩ hmem
  have hvi := (List.getElem?_eq_some_iff.mp (List.mem_zipIdx_iff_getElem?.mp hmem)).1
  obtain ⟨x, hx, y', _, hregion⟩ := hslots vi hvi
  simp only [region_of_rows (hlen ▸ hvi), hregion]
  split
  · rename_i hrow
    obtain rfl : y' = y := row_at_inj.mp hrow
    have hterm := le_sum_range (g := fun x' => if Coor.slot x y' = Coor.slot x' y' then
      resource.amount vertex.area else 0) hx
    simpa using hterm
  · exact zero_le _

include hedges

theorem head_usage_row_le (y : Nat) :
    head_usage graph (p.map (row_of device)) (row_at device y) ≤
      ((List.range device.cols).map fun x => head_usage graph p (.slot x y)).sum := by
  refine sum_le_sum_columns fun edge hedge => ?_
  obtain ⟨hsrc, hdst⟩ := hedges edge hedge
  obtain ⟨x, hx, y1, _, hfrom⟩ := hslots edge.src hsrc
  obtain ⟨x', hx', y2, _, hto⟩ := hslots edge.dst hdst
  rw [region_of_rows (hlen ▸ hsrc), region_of_rows (hlen ▸ hdst)]
  exact crossing_heads_row_le hx hx' hfrom hto y

theorem usage_in_row_le (y : Nat) (resource : Resource) :
    usage_in graph (p.map (row_of device)) (row_at device y) resource ≤
      ((List.range device.cols).map fun x => usage_in graph p (.slot x y) resource).sum := by
  simp only [usage_in, sum_map_add]
  refine Nat.add_le_add (vertex_usage_row_le hlen hslots y resource) ?_
  split
  · exact head_usage_row_le hedges hlen hslots y
  · exact Nat.zero_le _

end

/-! ## Placements into rows -/

variable {slot_areas row_areas : RegionAreas} {usage_limit : ℚ} {limits : RegionResourceLimits}

def slot_pass (device : Device) (areas : RegionAreas) (usage_limit : ℚ)
    (limits : RegionResourceLimits) : DomainContext :=
  ⟨device, atomic_regions device, areas, usage_limit, limits⟩

def row_pass (device : Device) (areas : RegionAreas) (usage_limit : ℚ)
    (limits : RegionResourceLimits) : DomainContext :=
  ⟨device, row_regions device, areas, usage_limit, limits⟩

def slot_cuts (device : Device) : List Cut := find_cuts_for_regions device (atomic_regions device)

def row_cuts (device : Device) : List Cut := find_cuts_for_regions device (row_regions device)

theorem Places.inSlots (hd : device.Complete) {parents : Option (List Coor)} {cuts : List Cut}
    (h : Places graph (slot_pass device slot_areas usage_limit limits) parents cuts p) :
    InSlots device graph p := by
  intro vi hvi
  have hmem := h.permitted vi _ (getElem?_eq_getElem hvi)
  exact (mem_atomic_regions hd).mp (mem_filter.mp hmem).1

theorem slot_area_eq (hd : device.Complete)
    (hslots : region_areas device (atomic_regions device) = .ok slot_areas) {x y : Nat}
    (hx : x < device.cols) (hy : y < device.rows) :
    slot_areas[Coor.slot x y]? = some (cell_area device x y) := by
  obtain ⟨total, htotal⟩ := region_areas_covers hslots (.slot x y)
    ((mem_atomic_regions hd).mpr ⟨x, hx, y, hy, rfl⟩)
  rw [htotal, island_area_slot ((region_areas_eq_some hslots).mp htotal).2]

theorem row_area_eq (hd : device.Complete)
    (hrows : region_areas device (row_regions device) = .ok row_areas) {y : Nat}
    (hy : y < device.rows) : row_areas[row_at device y]? =
      some ((List.range device.cols).map fun x => cell_area device x y).sum := by
  obtain ⟨total, htotal⟩ := region_areas_covers hrows (row_at device y)
    (mem_row_regions.mpr ⟨y, hy, rfl⟩)
  rw [htotal, island_area_row hd ((region_areas_eq_some hrows).mp htotal).2]

/-- A row has at least the whole units of one of its slots. -/
theorem scaled_cell_le_row {x : Nat} (hx : x < device.cols) (y : Nat) (resource : Resource)
    (limit : ℚ) : scaled_amount (resource.amount (cell_area device x y)) limit ≤
      scaled_amount (resource.amount ((List.range device.cols).map fun x =>
        cell_area device x y).sum) limit := by
  rw [amount_sum, map_map]
  refine le_trans ?_ (sum_scaled_amount_le _ limit)
  rw [map_map]
  exact le_sum_range (g := fun x => scaled_amount (resource.amount (cell_area device x y)) limit) hx

section

variable (hd : device.Complete)
include hd

section

variable (hedges : EdgesInside graph) (hlen : p.length = graph.vertices.length)
  (hslots : InSlots device graph p)
include hedges hlen hslots

/-- The edges across a line are the same for slots and for their rows. -/
theorem width_across_rows {y : Nat} {cut row_cut : Cut}
    (hlhs : cut.lhs = (atomic_regions device).filter fun region => region.ur_y ≤ y)
    (hrhs : cut.rhs = (atomic_regions device).filter fun region => region.dl_y > y)
    (hlhs' : row_cut.lhs = (row_regions device).filter fun region => region.ur_y ≤ y)
    (hrhs' : row_cut.rhs = (row_regions device).filter fun region => region.dl_y > y) :
    width_across graph (p.map (row_of device)) row_cut = width_across graph p cut := by
  unfold width_across
  congr 1
  refine map_congr_left fun edge hedge => ?_
  obtain ⟨hsrc, hdst⟩ := hedges edge hedge
  obtain ⟨x1, hx1, y1, hy1, hfrom⟩ := hslots edge.src hsrc
  obtain ⟨x2, hx2, y2, hy2, hto⟩ := hslots edge.dst hdst
  rw [region_of_rows (hlen ▸ hsrc), region_of_rows (hlen ▸ hdst), hfrom, hto]
  have hrow := crosses_line_iff (fun _ h => row_regions_flat h) hlhs' hrhs'
    (mem_row_regions.mpr ⟨y1, hy1, rfl⟩) (mem_row_regions.mpr ⟨y2, hy2, rfl⟩)
  have hslot := crosses_line_iff (fun _ h => (atomic_regions_flat hd h).2) hlhs hrhs
    ((mem_atomic_regions hd).mpr ⟨x1, hx1, y1, hy1, rfl⟩)
    ((mem_atomic_regions hd).mpr ⟨x2, hx2, y2, hy2, rfl⟩)
  exact if_congr (hrow.trans hslot.symm) rfl rfl

/-- A placement that keeps to the cuts of the slots keeps to those of the rows. -/
theorem WithinCuts.rows (h : WithinCuts graph (slot_cuts device) p) :
    WithinCuts graph (row_cuts device) (p.map (row_of device)) := by
  intro cut hcut
  obtain ⟨y, hy, hsome⟩ := (mem_cuts_rows hd).mp hcut
  obtain ⟨hcap, _, hlhs, hrhs⟩ := (clean_cut_line fun _ h => row_regions_flat h).mp hsome
  rw [hlhs, hrhs, cut_capacity_rows hd hy] at hcap
  -- The same line is a cut of the slots, with the same capacity.
  obtain ⟨slot_cut, hcapacity, hlhs', hrhs', hmem⟩ : ∃ slot_cut : Cut,
      slot_cut.capacity = cut.capacity ∧
      slot_cut.lhs = (atomic_regions device).filter (fun region => region.ur_y ≤ y) ∧
      slot_cut.rhs = (atomic_regions device).filter (fun region => region.dl_y > y) ∧
      slot_cut ∈ slot_cuts device := by
    refine ⟨⟨"y=".toList ++ decimal y, _, _, cut.capacity⟩, rfl, rfl, rfl, ?_⟩
    refine (mem_cuts_slots hd).mpr (.inl ⟨y, hy, ?_⟩)
    refine (clean_cut_line fun _ h => (atomic_regions_flat hd h).2).mpr
      ⟨?_, rfl, rfl, rfl⟩
    exact (cut_capacity_slots_north hd hy).mpr hcap
  rw [width_across_rows hd hedges hlen hslots hlhs' hrhs' hlhs hrhs, ← hcapacity]
  exact h slot_cut hmem

end

variable (hedges : EdgesInside graph)
  (hslots : region_areas device (atomic_regions device) = .ok slot_areas)
  (hrows : region_areas device (row_regions device) = .ok row_areas)

section

variable {limit : Resource → ℚ}
  (huniform : ∀ region ∈ row_regions device ++ atomic_regions device, ∀ resource,
    limit_of limits usage_limit region resource = limit resource)
include hslots hrows huniform

/-- A slot that a cluster may take is in a row that it may take. -/
theorem row_mem_candidates {vertex : Vertex} {x y : Nat}
    (hx : x < device.cols) (hy : y < device.rows)
    (h : .slot x y ∈ candidates (slot_pass device slot_areas usage_limit limits) none vertex) :
    row_at device y ∈ candidates (row_pass device row_areas usage_limit limits) none vertex := by
  have hslot := (mem_atomic_regions hd).mpr ⟨x, hx, y, hy, rfl⟩
  have hrow : row_at device y ∈ row_regions device := mem_row_regions.mpr ⟨y, hy, rfl⟩
  obtain ⟨_, hadmits, hfits⟩ := mem_candidates.mp h
  refine mem_candidates.mpr ⟨hrow, ?_, ?_⟩
  · unfold admits at hadmits ⊢
    cases htag : vertex.required_tag with
    | none => simp
    | some tag =>
      rw [htag] at hadmits
      exact row_has_tag hd hx hadmits
  · refine (fits_iff (row_pass device row_areas usage_limit limits) (row_area_eq hd hrows hy)).mpr
      fun resource hplan => ?_
    have hfit := (fits_iff (slot_pass device slot_areas usage_limit limits)
      (slot_area_eq hd hslots hx hy)).mp hfits resource hplan
    change _ ≤ scaled_amount _ (limit_of limits usage_limit _ resource) at hfit
    change _ ≤ scaled_amount _ (limit_of limits usage_limit _ resource)
    rw [huniform _ (mem_append_right _ hslot)] at hfit
    rw [huniform _ (mem_append_left _ hrow)]
    exact hfit.trans (scaled_cell_le_row hx y resource _)

include hedges

/-- A placement into slots gives one into their rows. -/
theorem Places.rows
    (h : Places graph (slot_pass device slot_areas usage_limit limits) none (slot_cuts device) p) :
    Places graph (row_pass device row_areas usage_limit limits) none (row_cuts device)
      (p.map (row_of device)) := by
  have hin := h.inSlots hd
  refine ⟨by rw [length_map, h.length], fun vi vertex hvertex => ?_, ?_,
    WithinCuts.rows hd hedges h.length hin h.cuts⟩
  · have hvi := (List.getElem?_eq_some_iff.mp hvertex).1
    obtain ⟨x, hx, y, hy, hregion⟩ := hin vi hvi
    have hmem := h.permitted vi vertex hvertex
    rw [hregion] at hmem
    rw [region_of_rows (h.length ▸ hvi), hregion]
    exact row_mem_candidates hd hslots hrows huniform hx hy hmem
  · intro region total htotal resource hplan
    obtain ⟨y, hy, rfl⟩ := mem_row_regions.mp ((region_areas_eq_some hrows).mp htotal).1
    change usage_in _ _ _ _ ≤ scaled_amount _ (limit_of limits usage_limit _ resource)
    rw [huniform _ (mem_append_left _ (mem_row_regions.mpr ⟨y, hy, rfl⟩))]
    obtain rfl := Option.mem_unique htotal (row_area_eq hd hrows hy)
    calc usage_in graph (p.map (row_of device)) (row_at device y) resource
        ≤ ((List.range device.cols).map fun x => usage_in graph p (.slot x y) resource).sum :=
          usage_in_row_le hedges h.length hin y resource
      _ ≤ ((List.range device.cols).map fun x =>
            scaled_amount (resource.amount (cell_area device x y)) (limit resource)).sum := by
          refine sum_le_sum fun x hx => ?_
          have hx' := mem_range.mp hx
          have hbound := h.resources _ _ (slot_area_eq hd hslots hx' hy) resource hplan
          change _ ≤ scaled_amount _ (limit_of limits usage_limit _ resource) at hbound
          rwa [huniform _ (mem_append_right _
            ((mem_atomic_regions hd).mpr ⟨x, hx', y, hy, rfl⟩))] at hbound
      _ ≤ _ := by
          rw [amount_sum, map_map]
          refine le_trans (le_of_eq ?_) (sum_scaled_amount_le _ (limit resource))
          rw [map_map]
          rfl

end

/-! ## The relaxation -/

theorem centroid_quarters_ok {region : Coor}
    (hdl : region.dl_x < device.cols ∧ region.dl_y < device.rows)
    (hur : region.ur_x < device.cols ∧ region.ur_y < device.rows) :
    ∃ c, centroid_quarters device region = .ok c := by
  obtain ⟨dl, hdl⟩ := hd.covered _ hdl.1 _ hdl.2
  obtain ⟨ur, hur⟩ := hd.covered _ hur.1 _ hur.2
  simp only [centroid_quarters, hdl, hur, ok_or, ok_bind]
  exact ⟨_, rfl⟩

include hslots in
theorem covered_slots :
    Covered (slot_pass device slot_areas usage_limit limits) := by
  refine ⟨hslots, fun region hregion => ?_⟩
  obtain ⟨x, hx, y, hy, rfl⟩ := (mem_atomic_regions hd).mp hregion
  exact centroid_quarters_ok hd ⟨hx, hy⟩ ⟨hx, hy⟩

include hrows in
theorem covered_rows :
    Covered (row_pass device row_areas usage_limit limits) := by
  refine ⟨hrows, fun region hregion => ?_⟩
  obtain ⟨y, hy, rfl⟩ := mem_row_regions.mp hregion
  have hcols := hd.cols
  exact centroid_quarters_ok hd ⟨hcols, hy⟩ ⟨sub_lt hcols one_pos, hy⟩

include hedges hslots hrows in
theorem Placeable.rows (block : Option ℚ)
    (h : Placeable graph (slot_pass device slot_areas usage_limit (block_limits device block)) none
      (slot_cuts device)) :
    Placeable graph (row_pass device row_areas usage_limit (block_limits device block)) none
      (row_cuts device) := by
  obtain ⟨limit, huniform⟩ := block_limits_uniform device block usage_limit
  obtain ⟨p, hp⟩ := (placeable_iff hedges (covered_slots hd hslots)).mp h
  exact (placeable_iff hedges (covered_rows hd hrows)).mpr
    ⟨_, hp.rows hd hedges hslots hrows huniform⟩

end

/-- Rows relax slots: each solution of the program over the slots gives one of the
program over the rows, by moving every cluster to the row of its slot. -/
theorem rows_relax_slots (hd : device.Complete) (hedges : EdgesInside graph)
    (hslots : region_areas device (atomic_regions device) = .ok slot_areas)
    (hrows : region_areas device (row_regions device) = .ok row_areas) (usage_limit : ℚ)
    (block : Option ℚ) :
    let limits := block_limits device block
    let slots := slot_pass device slot_areas usage_limit limits
    let rows := row_pass device row_areas usage_limit limits
    (∀ domains lp σ, candidate_domains graph slots none = .ok domains →
      build_model graph device domains slot_areas (slot_cuts device) usage_limit limits = .ok lp →
      lp.Feasible σ →
      ∃ p row_domains row_lp, Selects domains σ p ∧
        candidate_domains graph rows none = .ok row_domains ∧
        build_model graph device row_domains row_areas (row_cuts device) usage_limit limits =
          .ok row_lp ∧
        row_lp.Feasible (selection graph row_domains (p.map (row_of device)))) ∧
    (¬ Placeable graph rows none (row_cuts device) →
      ¬ Placeable graph slots none (slot_cuts device)) := by
  intro limits slots rows
  have hcovered : Covered slots := covered_slots hd hslots
  have hcovered' : Covered rows := covered_rows hd hrows
  constructor
  · intro domains lp σ hdomains hbuild hfeasible
    obtain ⟨limit, huniform⟩ := block_limits_uniform device block usage_limit
    obtain ⟨_, p, hsel, hlegal⟩ := (feasible_build_model
      (wellPosed_of_candidates hedges hcovered hdomains) hbuild).mp hfeasible
    have hplaces := ((places_iff_legal hcovered hdomains).mpr hlegal).rows hd hedges hslots hrows
      huniform
    obtain ⟨row_domains, hrow_domains⟩ := exists_domains hcovered' hplaces
    obtain ⟨row_lp, hrow_build⟩ := exists_model hcovered' hrow_domains (row_cuts device)
    have hwell := wellPosed_of_candidates hedges hcovered' hrow_domains
    have hrow_legal := (places_iff_legal hcovered' hrow_domains).mp hplaces
    refine ⟨p, row_domains, row_lp, hsel, hrow_domains, hrow_build, ?_⟩
    exact (feasible_build_model hwell hrow_build).mpr
      ⟨selection_products, _, selection_selects graph hwell.nodup hrow_legal.chosen, hrow_legal⟩
  · exact fun hnone h => hnone (h.rows hd hedges hslots hrows block)

end Rows

/-- A grid of two rows and two columns, with ten LUTs in each slot. -/
def square : Device where
  key := ['d']
  rows := 2
  cols := 2
  planned_resources := [.Lut]
  usage_ceiling := none
  slots := [⟨0, 0, ⟨10, 0, 0, 0, 0⟩, 0, 0, ⟨10, 10, 10, 10⟩, [], zero_fits, zero_fits⟩,
    ⟨1, 0, ⟨10, 0, 0, 0, 0⟩, 100, 0, ⟨10, 10, 10, 10⟩, [], one_fits, zero_fits⟩,
    ⟨0, 1, ⟨10, 0, 0, 0, 0⟩, 0, 150, ⟨10, 10, 10, 10⟩, [], zero_fits, one_fits⟩,
    ⟨1, 1, ⟨10, 0, 0, 0, 0⟩, 100, 150, ⟨10, 10, 10, 10⟩, [], one_fits, one_fits⟩]
  anchors := []

theorem square_complete : square.Complete := Device.validate_grid_ok rfl

def squareSlotAreas : RegionAreas := (region_areas square (atomic_regions square)).toOption.get rfl

def squareRowAreas : RegionAreas := (region_areas square (row_regions square)).toOption.get rfl

/-- Two clusters of six LUTs fill one row at sixty percent. -/
theorem a_couple_fits_into_the_rows : Placeable couple
    (row_pass square squareRowAreas (3 / 5) (block_limits square none)) none (row_cuts square) := by
  have hslots : region_areas square (atomic_regions square) = .ok squareSlotAreas := eq_ok_get rfl
  have hrows : region_areas square (row_regions square) = .ok squareRowAreas := eq_ok_get rfl
  have hedges : EdgesInside couple := couple_wellPosed.edges
  by_contra hnone
  refine (rows_relax_slots square_complete hedges hslots hrows (3 / 5) none).2 hnone ?_
  exact (placeable_iff hedges (covered_slots square_complete hslots)).mpr
    ⟨[.slot 0 0, .slot 1 0], by decide +kernel⟩

end Tapa.Floorplan
