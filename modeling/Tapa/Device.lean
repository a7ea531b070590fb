-- The device (`device/model.rs`): a grid of slots with their resources, their
-- borders and their tags. A table is read only if its grid is complete.
import Tapa.Fallible
import Tapa.Floorplan

namespace Tapa.Floorplan

open Ir Text Fallible List

/-! ## Slots -/

def UNIT_DIST_X : Int := 100

def UNIT_DIST_Y : Int := 150

def VERTICAL_DIST_PENALTY : Int := 2

/-- The wires that may cross each side of a slot. -/
structure DirCaps where
  north : Nat
  south : Nat
  east : Nat
  west : Nat

/-- A slot of the device. Its coordinates are numbers of 32 bits. -/
structure Slot where
  x : Nat
  y : Nat
  area : Area
  centroid_x : Int
  centroid_y : Int
  wire_cap : DirCaps
  tags : List Str
  x_lt : x < 2 ^ 32
  y_lt : y < 2 ^ 32

theorem zero_fits : 0 < 2 ^ 32 := by decide

theorem one_fits : 1 < 2 ^ 32 := by decide

def Slot.cell (slot : Slot) : Cell := (slot.x, slot.y)

/-- Where the terminal of a tag is, from the centroid of its slot. -/
structure DeviceAnchor where
  tag : Str
  x_offset_quarters : Int
  y_offset_quarters : Int

structure Device where
  key : Str
  rows : Nat
  cols : Nat
  planned_resources : List Resource
  usage_ceiling : Option ℚ
  slots : List Slot
  anchors : List DeviceAnchor

inductive DeviceValidationError where
  | EmptyGrid
  | SlotOutOfBounds (x y cols rows : Nat)
  | DuplicateSlot (x y : Nat)
  | MissingSlot (x y : Nat)
  | CentroidOffGrid (x y : Nat) (centroid_x centroid_y : Int)
deriving DecidableEq, Repr

namespace Device

section

variable (device : Device)

def slot (x y : Nat) : Option Slot :=
  device.slots.find? fun s => s.x = x ∧ s.y = y

def slots_with_tag (tag : Str) : List Slot :=
  device.slots.filter fun slot => slot.tags.contains tag

/-- The place of the terminal of a tag, in quarters of the unit of the centroids. -/
def anchor_position_quarters (tag : Str) : Option (Int × Int) := do
  let anchor ← device.anchors.find? fun anchor => anchor.tag = tag
  let slot ← (device.slots_with_tag tag).head?
  pure (slot.centroid_x * 4 + anchor.x_offset_quarters,
    slot.centroid_y * 4 + anchor.y_offset_quarters)

def plans_resource (resource : Resource) : Bool :=
  device.planned_resources.contains resource

/-- The resources of a region. There are none when one of its slots is missing. -/
def island_area (region : Coor) : Option Area :=
  region.all_slot_coors.foldlM (fun total cell => do
    let slot ← device.slot cell.1 cell.2
    total.checked_add slot.area) 0

/-! ## Grids -/

/-- The cells of the grid, row by row. -/
def cells : List Cell :=
  (List.range device.rows).flatMap fun y => (List.range device.cols).map fun x => (x, y)

/-- A slot is in the grid, and the first of its cell. -/
def validate_cell (seen : List Cell) (slot : Slot) : Except DeviceValidationError (List Cell) := do
  ensure (slot.x < device.cols ∧ slot.y < device.rows)
    (.SlotOutOfBounds slot.x slot.y device.cols device.rows)
  ensure (slot.cell ∉ seen) (.DuplicateSlot slot.x slot.y)
  .ok (seen ++ [slot.cell])

def validate_centroid (slot : Slot) : Except DeviceValidationError Unit :=
  ensure (slot.centroid_x = UNIT_DIST_X * slot.x ∧ slot.centroid_y = UNIT_DIST_Y * slot.y)
    (.CentroidOffGrid slot.x slot.y slot.centroid_x slot.centroid_y)

/-- The grid is a complete rectangle with one slot for each cell. -/
def validate_grid : Except DeviceValidationError Unit := do
  ensure (device.rows ≠ 0 ∧ device.cols ≠ 0) .EmptyGrid
  let seen ← device.slots.foldlM device.validate_cell []
  refuse (if seen.length = device.rows * device.cols then none
    else device.cells.find? fun cell => cell ∉ seen) fun cell => .MissingSlot cell.1 cell.2
  device.slots.forM validate_centroid

/-- A device whose grid is complete, as the planner relies on it. -/
structure Complete (device : Device) : Prop where
  rows : 0 < device.rows
  cols : 0 < device.cols
  bounds : ∀ slot ∈ device.slots, slot.x < device.cols ∧ slot.y < device.rows
  distinct : (device.slots.map Slot.cell).Nodup
  covered : ∀ x < device.cols, ∀ y < device.rows, ∃ slot, device.slot x y = some slot
  centroids : ∀ slot ∈ device.slots,
    slot.centroid_x = UNIT_DIST_X * slot.x ∧ slot.centroid_y = UNIT_DIST_Y * slot.y

theorem mem_cells {device : Device} {cell : Cell} :
    cell ∈ device.cells ↔ cell.1 < device.cols ∧ cell.2 < device.rows := by
  obtain ⟨x, y⟩ := cell
  simp only [cells, mem_flatMap, mem_map, mem_range, Prod.mk.injEq]
  constructor
  · rintro ⟨_, hy, _, hx, rfl, rfl⟩
    exact ⟨hx, hy⟩
  · rintro ⟨hx, hy⟩
    exact ⟨y, hy, x, hx, rfl, rfl⟩

theorem cells_length : device.cells.length = device.rows * device.cols := by
  simp [cells]

/-- The slot of a cell stands there, and is a slot of the device. -/
theorem slot_eq_some {device : Device} {x y : Nat} {slot : Slot} (h : device.slot x y = some slot) :
    slot ∈ device.slots ∧ slot.x = x ∧ slot.y = y := by
  have hxy := find?_some h
  simp only [decide_eq_true_eq] at hxy
  exact ⟨mem_of_find?_eq_some h, hxy⟩

theorem slot_of_mem {device : Device} (hdistinct : (device.slots.map Slot.cell).Nodup)
    {slot : Slot} (h : slot ∈ device.slots) : device.slot slot.x slot.y = some slot := by
  cases hfind : device.slot slot.x slot.y with
  | none =>
    have hnone := find?_eq_none.mp hfind slot h
    simp at hnone
  | some other =>
    obtain ⟨hmem, hx, hy⟩ := slot_eq_some hfind
    have hcell : other.cell = slot.cell := by rw [Slot.cell, Slot.cell, hx, hy]
    rw [inj_on_of_nodup_map hdistinct hmem h hcell]

theorem validate_grid_ok {device : Device} (h : device.validate_grid = .ok ()) :
    device.Complete := by
  simp only [validate_grid, bind_eq_ok, ensure_eq_ok, refuse_eq_ok, forM_eq_ok] at h
  obtain ⟨_, ⟨hrows, hcols⟩, seen, hseen, _, hmissing, hcentroids⟩ := h
  -- The cells that have been seen are those of the slots, in order and without repeats.
  have hinv := foldlM_invariant (P := fun slots seen => seen = slots.map Slot.cell ∧ seen.Nodup ∧
    ∀ slot ∈ slots, slot.x < device.cols ∧ slot.y < device.rows) hseen
    ⟨rfl, nodup_nil, by simp⟩
    (by
      rintro slots slot seen seen' _ ⟨rfl, hnodup, hbounds⟩ hstep
      simp only [validate_cell, bind_eq_ok, ensure_eq_ok] at hstep
      obtain ⟨_, hbound, _, hnew, hstep⟩ := hstep
      cases hstep
      refine ⟨by simp, nodup_snoc hnodup hnew, forall_mem_snoc.mpr ⟨hbounds, hbound⟩⟩)
  obtain ⟨rfl, hnodup, hbounds⟩ := hinv
  have hall : ∀ cell ∈ device.cells, cell ∈ device.slots.map Slot.cell := by
    split at hmissing
    · rename_i hlen
      -- As many distinct cells of the grid as there are: all of them.
      have hsub : ∀ cell ∈ device.slots.map Slot.cell, cell ∈ device.cells := by
        intro cell hcell
        obtain ⟨slot, hslot, rfl⟩ := mem_map.mp hcell
        exact mem_cells.mpr (hbounds slot hslot)
      have hperm := (subperm_of_subset hnodup hsub).perm_of_length_le (by
        rw [cells_length, hlen])
      exact fun cell hcell => hperm.mem_iff.mpr hcell
    · intro cell hcell
      have hfound := find?_eq_none.mp hmissing cell hcell
      simpa using hfound
  refine ⟨by omega, by omega, hbounds, hnodup, fun x hx y hy => ?_, fun slot hslot => ?_⟩
  · obtain ⟨slot, hslot, hcell⟩ := mem_map.mp (hall (x, y) (mem_cells.mpr ⟨hx, hy⟩))
    refine ⟨slot, ?_⟩
    obtain ⟨rfl, rfl⟩ : slot.x = x ∧ slot.y = y := by simpa [Slot.cell] using hcell
    exact slot_of_mem hnodup hslot
  · have hcentroid := hcentroids slot hslot
    simpa [validate_centroid] using hcentroid

theorem island_area_slot_eq (x y : Nat) : device.island_area (.slot x y) =
      (device.slot x y).bind fun slot => if slot.area.fits then some slot.area else none := by
  have hcells : (Coor.slot x y).all_slot_coors = [(x, y)] := by
    simp [Coor.all_slot_coors, Coor.slot]
  simp [island_area, hcells, Area.checked_add]

end

end Device

/-! ## Borders -/

/-- The capacity that stands for no limit. -/
def WIRE_CAPACITY_INF : Nat := 100000000

/-- Seven tenths of the wires of a border, rounded half up. -/
def usable_wire_capacity (raw : Nat) : Nat := raw / 10 * 7 + (raw % 10 * 7 + 5) / 10

/-- The wires that may cross a border, unless neither side declares a limit. -/
def bounded_border_capacity (lhs rhs : Nat) : Option Nat :=
  if min lhs rhs < WIRE_CAPACITY_INF then some (usable_wire_capacity (min lhs rhs)) else none

end Tapa.Floorplan
