-- The floorplan contract (`floorplan.rs`): the tags of regions, the channels that
-- a route carries and the names of the generated instances. The planner writes
-- these and code generation reads them back.
import Tapa.Area

namespace Tapa.Ir

open Text

attribute [instance] lexOrd

/-! ## Identifiers -/

/-- A word of the form `[a-zA-Z_]\w*`, on the characters of ASCII. -/
def isWord : Str → Bool
  | [] => false
  | c :: cs => (c.isAlpha || c = '_') && cs.all fun x => x.isAlphanum || x = '_'

/-- The name `base_index` for `base[index]`. Other names stay as they are. -/
def sanitize_array_name (name : Str) : Str :=
  match split_once '[' name with
  | none => name
  | some (base, rest) =>
    match split_once ']' rest with
    | none => name
    | some (index, suffix) =>
      if isWord base && index ≠ [] && index.all Char.isDigit && (suffix = [] || isWord suffix) then
        base ++ '_' :: index ++ suffix
      else name

/-- A plain Verilog identifier for a name. -/
def sanitize_identifier_name (name : Str) : Str :=
  let clean (c : Char) : Char := if c.isAlphanum || c = '_' || c = '$' then c else '_'
  match sanitize_array_name name with
  | [] => []
  | c :: cs => (if c.isDigit then ['_'] else []) ++ (c :: cs).map clean

/-! ## Regions -/

/-- A slot of the grid, by column and row. -/
abbrev Cell : Type := Nat × Nat

instance lawfulBEqCell : LawfulBEq Cell := inferInstance

/-- A rectangle of slots with its corners. -/
structure Coor where
  dl_x : Nat
  dl_y : Nat
  ur_x : Nat
  ur_y : Nat
deriving DecidableEq, Repr

def slot_tag (cell : Cell) : Str := "SLOT_X".toList ++ decimal cell.1 ++ 'Y' :: decimal cell.2

/-- A slot as the messages print it. -/
def cell_debug (cell : Cell) : Str :=
  '(' :: decimal cell.1 ++ ", ".toList ++ decimal cell.2 ++ [')']

namespace Coor

def slot (x y : Nat) : Coor := ⟨x, y, x, y⟩

def span (dl_x dl_y ur_x ur_y : Nat) : Coor := ⟨dl_x, dl_y, ur_x, ur_y⟩

/-- The slots along x. A reversed range counts as one. -/
def width (c : Coor) : Nat := c.ur_x - c.dl_x + 1

def height (c : Coor) : Nat := c.ur_y - c.dl_y + 1

def is_south_neighbor_of (c other : Coor) : Bool :=
  c.ur_y + 1 = other.dl_y ∧ max c.dl_x other.dl_x ≤ min c.ur_x other.ur_x

def is_north_neighbor_of (c other : Coor) : Bool :=
  c.dl_y = other.ur_y + 1 ∧ max c.dl_x other.dl_x ≤ min c.ur_x other.ur_x

def is_east_neighbor_of (c other : Coor) : Bool :=
  c.dl_x = other.ur_x + 1 ∧ max c.dl_y other.dl_y ≤ min c.ur_y other.ur_y

def is_west_neighbor_of (c other : Coor) : Bool :=
  c.ur_x + 1 = other.dl_x ∧ max c.dl_y other.dl_y ≤ min c.ur_y other.ur_y

def is_neighbor (c other : Coor) : Bool :=
  c.is_north_neighbor_of other || c.is_south_neighbor_of other || c.is_east_neighbor_of other ||
    c.is_west_neighbor_of other

def is_inside (c other : Coor) : Bool :=
  c.dl_x ≥ other.dl_x ∧ c.dl_y ≥ other.dl_y ∧ c.ur_x ≤ other.ur_x ∧ c.ur_y ≤ other.ur_y

/-- The slots of a region, row by row. -/
def all_slot_coors (c : Coor) : List Cell :=
  (List.range' c.dl_y (c.ur_y + 1 - c.dl_y)).flatMap fun y =>
    (List.range' c.dl_x (c.ur_x + 1 - c.dl_x)).map fun x => (x, y)

def region_name (c : Coor) : Str :=
  slot_tag (c.dl_x, c.dl_y) ++ "_TO_".toList ++ slot_tag (c.ur_x, c.ur_y)

/-- Regions are compared by their corners. -/
def key (c : Coor) : Nat × Nat × Nat × Nat := (c.dl_x, c.dl_y, c.ur_x, c.ur_y)

theorem key_injective : Function.Injective key := by
  rintro ⟨a, b, c, d⟩ ⟨a', b', c', d'⟩ h
  simpa [key] using h

instance : Ord Coor := ⟨compareOn key⟩

instance : Std.TransOrd Coor := inferInstanceAs (Std.TransCmp (compareOn key))

instance : Std.LawfulEqOrd Coor where
  eq_of_compare h := key_injective (Std.LawfulEqOrd.eq_of_compare h)

end Coor

/-! ## Channels -/

inductive AxiChannel where
  | ReadAddress | ReadData | WriteAddress | WriteData | WriteResponse
deriving DecidableEq, Ord, Repr

namespace AxiChannel

def rtl_name : AxiChannel → Str
  | ReadAddress => "ar".toList
  | ReadData => "r".toList
  | WriteAddress => "aw".toList
  | WriteData => "w".toList
  | WriteResponse => "b".toList

def debug : AxiChannel → Str
  | ReadAddress => "ReadAddress".toList
  | ReadData => "ReadData".toList
  | WriteAddress => "WriteAddress".toList
  | WriteData => "WriteData".toList
  | WriteResponse => "WriteResponse".toList

end AxiChannel

/-- The widths of the five channels, with their handshakes. A channel of width 0 is absent. -/
structure AxiChannelWidths where
  read_address : Nat
  read_data : Nat
  write_address : Nat
  write_data : Nat
  write_response : Nat
deriving DecidableEq, Repr

namespace AxiChannelWidths

def channels (widths : AxiChannelWidths) : List (AxiChannel × Nat) := [
  (.ReadAddress, widths.read_address),
  (.ReadData, widths.read_data),
  (.WriteAddress, widths.write_address),
  (.WriteData, widths.write_data),
  (.WriteResponse, widths.write_response)]

def enabled_channels (widths : AxiChannelWidths) : List (AxiChannel × Nat) :=
  widths.channels.filter fun entry => entry.2 ≠ 0

theorem enabled_channels_nodup (widths : AxiChannelWidths) :
    (widths.enabled_channels.map Prod.fst).Nodup := by
  have hsub : (widths.enabled_channels.map Prod.fst).Sublist (widths.channels.map Prod.fst) :=
    List.filter_sublist.map Prod.fst
  exact hsub.nodup (by simp [channels])

end AxiChannelWidths

/-- A memory interface of a child, with the port of the kernel that it is connected to. -/
structure AxiEndpoint where
  inst : Str
  port : Str
  top_port : Str
deriving DecidableEq, Repr

namespace AxiEndpoint

def key (e : AxiEndpoint) : Str × Str × Str := (e.inst, e.port, e.top_port)

theorem key_injective : Function.Injective key := by
  rintro ⟨a, b, c⟩ ⟨a', b', c'⟩ h
  simpa [key] using h

instance : Ord AxiEndpoint := ⟨compareOn key⟩

instance : Std.TransOrd AxiEndpoint := inferInstanceAs (Std.TransCmp (compareOn key))

instance : Std.LawfulEqOrd AxiEndpoint where
  eq_of_compare h := key_injective (Std.LawfulEqOrd.eq_of_compare h)

end AxiEndpoint

inductive MemoryKind where
  | Hbm | Ddr
deriving DecidableEq, Repr

structure MemoryBank where
  kind : MemoryKind
  index : Nat
deriving DecidableEq, Repr

def MemoryBank.display (bank : MemoryBank) : Str :=
  (match bank.kind with
    | .Hbm => "HBM[".toList
    | .Ddr => "DDR[".toList) ++ decimal bank.index ++ "]".toList

inductive ControlChannel where
  | Launch | Reset | Completion
deriving DecidableEq, Ord, Repr

namespace ControlChannel

def rtl_name : ControlChannel → Str
  | Launch => "launch".toList
  | Reset => "reset".toList
  | Completion => "completion".toList

def debug : ControlChannel → Str
  | Launch => "Launch".toList
  | Reset => "Reset".toList
  | Completion => "Completion".toList

end ControlChannel

/-- What a route carries. -/
inductive RoutedChannel where
  | Stream (fifo : Str)
  | Axi (endpoint : AxiEndpoint) (bank : MemoryBank) (channel : AxiChannel)
  | Control (inst : Str) (channel : ControlChannel)
deriving DecidableEq, Repr

inductive PipelineScheme where
  | Single | Double | SingleHDoubleV
deriving DecidableEq, Repr

/-! ## Generated names -/

def axi_pipeline_instance_name (endpoint : AxiEndpoint) (channel : AxiChannel) : Str :=
  "__tapa_axi_".toList ++ sanitize_identifier_name endpoint.top_port ++ '_' :: channel.rtl_name

def async_mmap_bridge_instance_name (top_port : Str) : Str :=
  sanitize_identifier_name top_port ++ "__m_axi".toList

def global_controller_instance_name : Str := "__tapa_global_controller".toList

def scope_controller_instance_name (scope : Str) : Str :=
  "__tapa_control_scope_".toList ++ sanitize_identifier_name scope

def local_controller_instance_name (inst : Str) : Str :=
  "__tapa_local_controller_".toList ++ sanitize_identifier_name inst

def control_pipeline_instance_name (inst : Str) (channel : ControlChannel) : Str :=
  "__tapa_control_".toList ++ sanitize_identifier_name inst ++ '_' :: channel.rtl_name

/-! ## FIFO storage -/

/-- The storage of a FIFO in a floorplan: a shallow one has five more entries. -/
def floorplanned_fifo_storage_depth (logical_depth : Nat) : Nat :=
  if logical_depth ≤ 64 then logical_depth + 5 else logical_depth

end Tapa.Ir
