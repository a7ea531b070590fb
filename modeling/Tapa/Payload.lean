-- The launch bundle of a child (`distributed_control.rs`): the start and release
-- bits and one field for each scalar and each memory offset, packed on the side
-- of the controller and cut into fields on the side of the child. The fields of an
-- upper child are taken into registers instead.
import Tapa.Bundle
import Tapa.FloorTasks
import Tapa.Validation

namespace Tapa.Codegen

open Text Fallible Ir Floorplan Tapa.Bundle Std.ExtTreeMap

/-! ## Expressions -/

inductive CodegenError where
  | InvalidFloorplan (detail : Str)
  | TaskNotFound (name : Str)
deriving DecidableEq, Repr

def invalid_floorplan (detail : Str) : CodegenError := .InvalidFloorplan detail

/-- A wire of the parent or a sized literal. -/
inductive Expr where
  | ident (name : Str)
  | lit (value : WireValue)
deriving DecidableEq, Repr

/-- The width that an expression has in a concatenation, from those of the wires. -/
def Expr.width (widths : Str → Nat) : Expr → Nat
  | ident name => widths name
  | lit value => value.width

/-- The values of wires of the given widths. -/
structure Wires (widths : Str → Nat) where
  value : Str → Nat
  value_lt : ∀ name, value name < 2 ^ widths name

def Expr.value {widths : Str → Nat} (wires : Wires widths) : Expr → Nat
  | ident name => wires.value name
  | lit value => value.value % 2 ^ value.width

def scalar_driver : ArgSource → Expr
  | .Name name => .ident (sanitize_array_name name)
  | .Literal value => .lit value

/-- The offset of a memory argument of the parent, or zero for an hmap. -/
def mmap_offset_source (parent : Str) (is_hmap : Str → Bool) : Expr :=
  if is_hmap parent then .lit ⟨64, 0⟩ else .ident (sanitize_array_name parent ++ "_offset".toList)

/-! ## Fields -/

/-- The task graph with what is known of the widths of the ports in the RTL. -/
structure TopologyWithRtl where
  design : TaskGraph
  rtl_width : Str → Str → Option Nat

structure PayloadField where
  output : Str
  source : Expr
  width : Nat
  lsb : Nat
deriving DecidableEq, Repr

section

variable (state : TopologyWithRtl)

/-- The declared width of the first port of the name. -/
def topology_width (child_name port_name : Str) : Option Nat :=
  (state.design.tasks[child_name]?.bind fun task =>
    task.ports.find? fun port => port.name = port_name).map Port.width

def resolve_scalar_width (child_name port_name : Str) : Except CodegenError Nat := do
  let child_port := quoted (child_name ++ '.' :: port_name)
  let topology_width ← ok_or ((topology_width state child_name port_name).filter (0 < ·))
    (invalid_floorplan ("cannot resolve topology scalar width for ".toList ++ child_port))
  refuse ((state.rtl_width child_name port_name).filter (· ≠ topology_width)) fun rtl_width =>
    invalid_floorplan ("scalar width mismatch for ".toList ++ child_port ++
      ": topology is ".toList ++ decimal topology_width ++ " bits but RTL is ".toList ++
      decimal rtl_width ++ " bits".toList)
  .ok topology_width

/-- The output, the source and the width of an argument that is part of a launch. -/
def payload_part (is_hmap : Str → Bool) (child_name inst port_name : Str)
    (arg : Arg) : Except CodegenError (Option (Str × Expr × Nat)) :=
  let output := sanitize_identifier_name inst ++ "__".toList ++ port_name
  if arg.cat.is_scalar then do
    let width ← resolve_scalar_width state child_name port_name
    .ok (some (output, scalar_driver arg.arg, width))
  else if arg.cat.is_direct_mmap then
    -- A memory argument always names a wire of the parent.
    .ok (arg.name.map fun parent =>
      (output ++ "_offset".toList, mmap_offset_source parent is_hmap, 64))
  else .ok none

def push_field (is_hmap : Str → Bool) (child_name inst : Str)
    (s : List PayloadField × Nat) (entry : Str × Arg) :
    Except CodegenError (List PayloadField × Nat) := do
  match ← payload_part state is_hmap child_name inst entry.1 entry.2 with
  | none => .ok s
  | some (output, source, width) =>
    ensure (width ≠ 0) (invalid_floorplan ("child ".toList ++ quoted inst ++ " argument ".toList ++
      quoted entry.1 ++ " has zero width".toList))
    let next_lsb ← ok_or (checked_add_u32 s.2 width) (invalid_floorplan
      ("the Launch width of child ".toList ++ quoted inst ++ " exceeds u32::MAX".toList))
    .ok (s.1 ++ [{ output, source, width, lsb := s.2 }], next_lsb)

/-- Every scalar port of the child has a scalar argument. -/
def require_scalar_arguments (child_name inst : Str)
    (args : BTreeMap Str Arg) : Except CodegenError Unit :=
  (((state.design.tasks[child_name]?.map Task.ports).getD []).filter fun port =>
    port.cat.is_scalar).forM fun port =>
      ensure ((args[port.name]?.any fun argument => argument.cat.is_scalar) = true)
        (invalid_floorplan ("child ".toList ++ quoted inst ++ " scalar port ".toList ++
          quoted (child_name ++ '.' :: port.name) ++ " requires a scalar argument".toList))

def control_width (is_autorun : Bool) : Nat := if is_autorun then 1 else 2

def build_payload_fields (child_name inst : Str) (is_autorun : Bool)
    (args : BTreeMap Str Arg) (is_hmap : Str → Bool) :
    Except CodegenError (List PayloadField × Nat) := do
  require_scalar_arguments state child_name inst args
  args.toList.foldlM (push_field state is_hmap child_name inst) ([], control_width is_autorun)

end

/-! ## The bundle -/

/-- A concatenation of expressions with their widths, the most significant first. -/
def concat (fields : List (Nat × Nat)) : Nat :=
  fields.foldl (fun bits (width, value) => bits * 2 ^ width + value) 0

/-- The wire that the launch of a child is assigned to, with its fields at the
widths their sources have. The bits of the controller come last. -/
def launch_input {widths : Str → Nat} (wires : Wires widths) (is_autorun start release : Bool)
    (payload : List PayloadField) (launch_width : Nat) : Nat :=
  concat ((payload.reverse.map fun field =>
      (field.source.width widths, field.source.value wires)) ++
    (if is_autorun then [] else [(1, release.toNat)]) ++ [(1, start.toNat)]) % 2 ^ launch_width

def select_bits (signal lsb width : Nat) : Nat := signal / 2 ^ lsb % 2 ^ width

/-- What the child gets of a field: the bits of the bundle, or a register that takes the
source. -/
def field_output {widths : Str → Nat} (wires : Wires widths) (register_payload : Bool)
    (launch_output : Nat) (field : PayloadField) : Nat :=
  if register_payload then field.source.value wires % 2 ^ field.width
  else select_bits launch_output field.lsb field.width

/-- The child gets each bit of the controller and each source of the payload as it is. -/
structure Delivered {widths : Str → Nat} (wires : Wires widths) (is_autorun : Bool)
    (register_payload : Bool) (payload : List PayloadField) (launch_width : Nat) : Prop where
  start : ∀ start release, select_bits
    (launch_input wires is_autorun start release payload launch_width) 0 1 = start.toNat
  release : is_autorun = false → ∀ start release, select_bits
    (launch_input wires is_autorun start release payload launch_width) 1 1 = release.toNat
  payload : ∀ start release, ∀ field ∈ payload, field_output wires register_payload
    (launch_input wires is_autorun start release payload launch_width) field =
      field.source.value wires

/-! ## Sources and ports -/

/-- A source that is not the constant zero. -/
def Expr.Live : Expr → Prop
  | ident _ => True
  | lit value => value.value % 2 ^ value.width ≠ 0

/-- A source of which every value fits a port. -/
def Expr.Fits (widths : Str → Nat) (width : Nat) : Expr → Prop
  | ident name => widths name ≤ width
  | lit value => value.value % 2 ^ value.width < 2 ^ width

/-- Each source fits its port, and one that is not the constant zero has as many bits of
sources below it as there are bits of ports. -/
def Sized (widths : Str → Nat) : Nat → Nat → List (Expr × Nat) → Prop
  | _, _, [] => True
  | packed, cut, (source, width) :: parts => (source.Live → packed = cut) ∧
    source.Fits widths width ∧ Sized widths (packed + source.width widths) (cut + width) parts

/-- The source of an argument that is part of a launch, and the width of its port. -/
def launch_part (state : TopologyWithRtl) (is_hmap : Str → Bool) (child_name : Str)
    (entry : Str × Arg) : Option (Expr × Nat) :=
  if entry.2.cat.is_scalar then
    some (scalar_driver entry.2.arg, (topology_width state child_name entry.1).getD 0)
  else if entry.2.cat.is_direct_mmap then
    entry.2.name.map fun parent => (mmap_offset_source parent is_hmap, 64)
  else none

/-- The parts of a launch, in the order of the arguments. -/
def launch_parts (state : TopologyWithRtl) (is_hmap : Str → Bool) (child_name : Str)
    (args : BTreeMap Str Arg) : List (Expr × Nat) :=
  args.toList.filterMap (launch_part state is_hmap child_name)

/-- Fields that follow each other without a gap. -/
def Laid : Nat → List PayloadField → Nat → Prop
  | lsb, [], stop => stop = lsb
  | lsb, field :: fields, stop => field.lsb = lsb ∧ Laid (lsb + field.width) fields stop

theorem laid_append {lsb stop : Nat} {fields : List PayloadField} {field : PayloadField}
    (h : Laid lsb fields stop) (hfield : field.lsb = stop) :
    Laid lsb (fields ++ [field]) (stop + field.width) := by
  induction fields generalizing lsb with
  | nil =>
    obtain rfl : stop = lsb := h
    exact ⟨hfield, rfl⟩
  | cons _ _ ih => exact ⟨h.1, ih h.2⟩

def PayloadField.part (field : PayloadField) : Expr × Nat := (field.source, field.width)

section Fields

variable {state : TopologyWithRtl} {is_hmap : Str → Bool} {child_name inst : Str}
  {args : BTreeMap Str Arg} {widths : Str → Nat} {width : Nat}

theorem resolve_scalar_width_ok {port_name : Str}
    (h : resolve_scalar_width state child_name port_name = .ok width) :
    topology_width state child_name port_name = some width := by
  simp only [resolve_scalar_width, bind_eq_ok, ok_or_eq_ok, refuse_eq_ok] at h
  obtain ⟨width', hwidth, _, _, h⟩ := h
  cases h
  exact (Option.filter_eq_some_iff.mp hwidth).1

theorem payload_part_ok {entry : Str × Arg} {part : Option (Str × Expr × Nat)}
    (h : payload_part state is_hmap child_name inst entry.1 entry.2 = .ok part) :
    part.map Prod.snd = launch_part state is_hmap child_name entry := by
  unfold payload_part at h
  unfold launch_part
  split at h
  · rename_i hcat
    obtain ⟨width, hwidth, h⟩ := bind_eq_ok.mp h
    cases h
    rw [if_pos hcat, resolve_scalar_width_ok hwidth]
    rfl
  · rename_i hscalar
    rw [if_neg hscalar]
    split at h
    · rename_i hcat
      cases h
      rw [if_pos hcat, Option.map_map]
      rfl
    · rename_i hmmap
      cases h
      rw [if_neg hmmap]
      rfl

variable {is_autorun : Bool} {fields : List PayloadField}

/-- The fields are those of the parts, laid one after the other. -/
theorem build_payload_fields_ok
    (h : build_payload_fields state child_name inst is_autorun args is_hmap = .ok (fields, width)) :
    fields.map PayloadField.part = launch_parts state is_hmap child_name args ∧
      Laid (control_width is_autorun) fields width := by
  obtain ⟨_, _, h⟩ := bind_eq_ok.mp h
  refine foldlM_invariant (P := fun entries s =>
    s.1.map PayloadField.part = entries.filterMap (launch_part state is_hmap child_name) ∧
      Laid (control_width is_autorun) s.1 s.2) h ?_ ?_
  · exact ⟨rfl, rfl⟩
  intro entries entry s s' _ ⟨hfields, hlaid⟩ hpush
  obtain ⟨part, hpart, hpush⟩ := bind_eq_ok.mp hpush
  have hlaunch := payload_part_ok hpart
  rw [List.filterMap_append, List.filterMap_cons, ← hlaunch, ← hfields]
  cases part with
  | none =>
    cases hpush
    simpa using hlaid
  | some part =>
    simp only [bind_eq_ok, ensure_eq_ok, ok_or_eq_ok, checked_add_u32_eq_some] at hpush
    obtain ⟨_, _, _, ⟨_, rfl⟩, hpush⟩ := hpush
    cases hpush
    exact ⟨by simp [PayloadField.part], laid_append hlaid rfl⟩

/-- The lane of a field, with the values of the wires. -/
def part_lane (wires : Wires widths) (part : Expr × Nat) : Lane :=
  ⟨part.1.width widths, part.1.value wires, part.2⟩

def field_lanes (wires : Wires widths) (fields : List PayloadField) : List Lane :=
  fields.map fun field => part_lane wires field.part

theorem Expr.value_lt (wires : Wires widths) (source : Expr) :
    source.value wires < 2 ^ source.width widths := by
  cases source with
  | ident name => exact wires.value_lt name
  | lit value => exact Nat.mod_lt _ (by positivity)

theorem Laid.width_eq {lsb stop : Nat} (h : Laid lsb fields stop) (wires : Wires widths) :
    stop = lsb + span (field_lanes wires fields) := by
  induction fields generalizing lsb with
  | nil => exact h
  | cons field fields ih =>
    rw [ih h.2]
    simp [span, field_lanes, part_lane, PayloadField.part, Nat.add_assoc]

/-- Cutting at the recorded positions is cutting one field above the other. -/
theorem Laid.delivers_iff {lsb stop : Nat} (h : Laid lsb fields stop) (wires : Wires widths)
    (word : Nat) :
    (∀ field ∈ fields, select_bits word field.lsb field.width = field.source.value wires) ↔
      Delivers (field_lanes wires fields) (word / 2 ^ lsb) := by
  induction fields generalizing lsb with
  | nil => simp [Delivers, field_lanes]
  | cons field fields ih =>
    rw [List.forall_mem_cons, ih h.2, select_bits, h.1, pow_add, ← Nat.div_div_eq_div_mul]
    rfl

theorem pack_eq (wires : Wires widths) : pack (field_lanes wires fields) =
    fields.foldr (fun field bits =>
      bits * 2 ^ field.source.width widths + field.source.value wires) 0 := by
  induction fields with
  | nil => rfl
  | cons field fields ih =>
    rw [List.foldr_cons, ← ih]
    simp only [field_lanes, List.map_cons, pack, part_lane, PayloadField.part]
    ring

/-- The bundle: the payload above the bits of the controller. -/
theorem launch_input_eq (wires : Wires widths) (is_autorun start release : Bool)
    (payload : List PayloadField) (launch_width : Nat) :
    launch_input wires is_autorun start release payload launch_width =
      ((if is_autorun then 0 else 2 * release.toNat) + start.toNat +
        2 ^ control_width is_autorun * payload.foldr (fun field bits =>
          bits * 2 ^ field.source.width widths + field.source.value wires) 0) %
        2 ^ launch_width := by
  unfold launch_input concat
  rw [List.map_reverse, List.foldl_append, List.foldl_append, List.foldl_reverse,
    List.foldr_map]
  cases is_autorun <;> simp [control_width] <;> ring_nf

/-- The payload is what stands above the bits of the controller. -/
theorem Laid.launch_high (hlaid : Laid (control_width is_autorun) fields width)
    (wires : Wires widths) (start release : Bool) :
    launch_input wires is_autorun start release fields width / 2 ^ control_width is_autorun =
      pack (field_lanes wires fields) % 2 ^ span (field_lanes wires fields) := by
  rw [launch_input_eq, hlaid.width_eq wires, ← pack_eq, pow_add, Nat.mod_mul_right_div_self,
    Nat.add_mul_div_left _ _ (by positivity)]
  cases is_autorun <;> cases start <;> cases release <;> simp [control_width]

theorem Laid.launch_low (hlaid : Laid (control_width is_autorun) fields width)
    (wires : Wires widths) (start release : Bool) :
    launch_input wires is_autorun start release fields width % 2 ^ control_width is_autorun =
      (if is_autorun then 0 else 2 * release.toNat) + start.toNat := by
  rw [launch_input_eq, hlaid.width_eq wires, pow_add, Nat.mod_mul_right_mod,
    Nat.add_mul_mod_self_left]
  cases is_autorun <;> cases start <;> cases release <;> rfl

/-- The bits of the controller always arrive, so that the payload decides. -/
theorem Laid.delivered_iff (hlaid : Laid (control_width is_autorun) fields width)
    (wires : Wires widths) (register_payload : Bool) :
    Delivered wires is_autorun register_payload fields width ↔
      if register_payload then ∀ field ∈ fields, field.source.value wires < 2 ^ field.width
      else Placed 0 0 (field_lanes wires fields) := by
  have hpayload : (∀ start release, ∀ field ∈ fields, field_output wires register_payload
      (launch_input wires is_autorun start release fields width) field =
        field.source.value wires) ↔
      if register_payload then ∀ field ∈ fields, field.source.value wires < 2 ^ field.width
      else Placed 0 0 (field_lanes wires fields) := by
    unfold field_output
    cases register_payload with
    | true =>
      have hmod : ∀ value n, value % 2 ^ n = value ↔ value < 2 ^ n :=
        fun value n => Nat.mod_eq_iff_lt (by positivity)
      simp [hmod]
    | false =>
      have hsize : ∀ lane ∈ field_lanes wires fields, lane.value < 2 ^ lane.size := by
        intro lane hlane
        obtain ⟨field, _, rfl⟩ := List.mem_map.mp hlane
        exact field.source.value_lt wires
      simp only [Bool.false_eq_true, if_false, hlaid.delivers_iff wires, hlaid.launch_high,
        delivers_mod le_rfl, delivers_iff_placed hsize]
      simp
  constructor
  · exact fun h => hpayload.mp h.payload
  · intro h
    refine ⟨fun start release => ?_, fun hrun start release => ?_, hpayload.mpr h⟩
    · have hbits := hlaid.launch_low wires start release
      cases is_autorun <;> cases start <;> cases release <;>
        simp [select_bits, control_width] at hbits ⊢ <;> omega
    · have hbits := hlaid.launch_low wires start release
      subst hrun
      cases start <;> cases release <;> simp [select_bits, control_width] at hbits ⊢ <;> omega

/-! ## When the payload arrives -/

section Values

variable (hwidths : ∀ name, 0 < widths name)

/-- Every wire has the value one. -/
def Wires.ones : Wires widths :=
  ⟨fun _ => 1, fun name => Nat.one_lt_two_pow (hwidths name).ne'⟩

/-- Every wire has its largest value. -/
def Wires.largest (widths : Str → Nat) : Wires widths :=
  ⟨fun name => 2 ^ widths name - 1, fun name => Nat.sub_lt (by positivity) Nat.one_pos⟩

/-- A source that fits with the largest values of the wires fits with all of them. -/
theorem Expr.fits_iff {source : Expr} : source.Fits widths width ↔
    source.value (Wires.largest widths) < 2 ^ width := by
  cases source with
  | ident name =>
    have hpos : 0 < 2 ^ widths name := by positivity
    change widths name ≤ width ↔ 2 ^ widths name - 1 < 2 ^ width
    rw [← Nat.pow_le_pow_iff_right (a := 2) (by decide)]
    omega
  | lit value => exact Iff.rfl

theorem Expr.Fits.value_lt {source : Expr} (h : source.Fits widths width) (wires : Wires widths) :
    source.value wires < 2 ^ width := by
  cases source with
  | ident name => exact (wires.value_lt name).trans_le (Nat.pow_le_pow_right (by decide) h)
  | lit value => exact h

theorem Expr.live_of_value {source : Expr} {wires : Wires widths} (h : source.value wires ≠ 0) :
    source.Live := by
  cases source with
  | ident name => trivial
  | lit value => exact h

theorem Expr.Live.value_ones {source : Expr} (h : source.Live) :
    source.value (Wires.ones hwidths) ≠ 0 := by
  cases source with
  | ident name => exact Nat.one_ne_zero
  | lit value => exact h

include hwidths in
/-- The parts are sized just if they are placed whatever the wires are. -/
theorem sized_iff_placed {parts : List (Expr × Nat)} (packed cut : Nat) :
    Sized widths packed cut parts ↔
      ∀ wires : Wires widths, Placed packed cut (parts.map (part_lane wires)) := by
  induction parts generalizing packed cut with
  | nil => exact ⟨fun _ _ => trivial, fun _ => trivial⟩
  | cons part parts ih =>
    obtain ⟨source, width⟩ := part
    rw [Sized, ih]
    constructor
    · rintro ⟨hlive, hfits, hrest⟩ wires
      exact ⟨fun h => hlive (Expr.live_of_value h), hfits.value_lt wires, hrest wires⟩
    · intro h
      exact ⟨fun hlive => (h (Wires.ones hwidths)).1 (hlive.value_ones hwidths),
        Expr.fits_iff.mpr (h (Wires.largest widths)).2.1, fun wires => (h wires).2.2⟩

end Values

/-- For all values of the wires, the payload arrives exactly when its parts are sized. -/
theorem delivered_iff_sized (hwidths : ∀ name, 0 < widths name) (register_payload : Bool)
    (h : build_payload_fields state child_name inst is_autorun args is_hmap = .ok (fields, width)) :
    (∀ wires : Wires widths, Delivered wires is_autorun register_payload fields width) ↔
      if register_payload then
        ∀ part ∈ launch_parts state is_hmap child_name args, part.1.Fits widths part.2
      else Sized widths 0 0 (launch_parts state is_hmap child_name args) := by
  obtain ⟨hparts, hlaid⟩ := build_payload_fields_ok h
  simp only [hlaid.delivered_iff]
  rw [← hparts]
  cases register_payload with
  | true =>
    simp only [if_true, List.mem_map, forall_exists_index, and_imp, forall_apply_eq_imp_iff₂]
    constructor
    · exact fun hall field hfield => Expr.fits_iff.mpr (hall _ field hfield)
    · exact fun hfits wires field hfield => (hfits field hfield).value_lt wires
  | false =>
    simp only [Bool.false_eq_true, if_false]
    rw [sized_iff_placed hwidths]
    simp only [field_lanes, List.map_map]
    rfl

end Fields

/-! ## The width that is charged -/

/-- Taking one item for each key is taking all of them exactly when no two have
the same key. -/
theorem sum_of_keys_iff {α κ : Type} {items : List α} {key : α → κ} {weight : α → Nat}
    (hpos : ∀ a ∈ items, 0 < weight a) {keys : List κ} (hkeys : keys.Nodup) {first : κ → Option α}
    (hfirst : ∀ k ∈ keys, ∃ a ∈ items, key a = k ∧ first k = some a)
    (hcover : ∀ a ∈ items, key a ∈ keys) :
    (keys.map fun k => ((first k).map weight).getD 0).sum = (items.map weight).sum ↔
      (items.map key).Nodup := by
  let chosen := keys.filterMap first
  have hchosen : chosen.map key = keys ∧
      chosen.map weight = keys.map fun k => ((first k).map weight).getD 0 := by
    clear hkeys hcover
    induction keys with
    | nil => exact ⟨rfl, rfl⟩
    | cons k keys ih =>
      rw [List.forall_mem_cons] at hfirst
      obtain ⟨⟨a, _, hkey, ha⟩, hrest⟩ := hfirst
      obtain ⟨h1, h2⟩ := ih hrest
      simp only [chosen, List.filterMap_cons, ha, List.map_cons, Option.map_some,
        Option.getD_some] at h1 h2 ⊢
      exact ⟨by rw [hkey, h1], by rw [h2]⟩
  have hnodup : chosen.Nodup := List.Nodup.of_map key (hchosen.1 ▸ hkeys)
  have hsub : chosen.Subperm items := by
    refine List.subperm_of_subset hnodup fun a ha => ?_
    obtain ⟨k, hk, hka⟩ := List.mem_filterMap.mp ha
    obtain ⟨b, hb, _, hkb⟩ := hfirst k hk
    rw [hka] at hkb
    exact Option.some.inj hkb ▸ hb
  rw [← hchosen.2]
  constructor
  · intro hsum
    obtain ⟨chosen', hperm, hsub⟩ := hsub
    obtain ⟨rest, hrest⟩ := hsub.exists_perm_append
    have hitems := hrest.trans (hperm.append_right rest)
    have htotal := (hitems.map weight).sum_eq
    rw [List.map_append, List.sum_append] at htotal
    cases rest with
    | nil =>
      rw [List.append_nil] at hitems
      exact ((hitems.map key).nodup_iff).mpr (hchosen.1 ▸ hkeys)
    | cons a rest =>
      have hweight := hpos a (hitems.mem_iff.mpr (by simp))
      rw [List.map_cons, List.sum_cons] at htotal
      omega
  · intro hitems
    have hall : items ⊆ chosen := by
      intro a ha
      obtain ⟨b, hb, hkey, hfirst⟩ := hfirst _ (hcover a ha)
      obtain rfl := List.inj_on_of_nodup_map hitems hb ha hkey
      exact List.mem_filterMap.mpr ⟨_, hcover b hb, hfirst⟩
    have hperm := hsub.antisymm (List.subperm_of_subset (.of_map key hitems) hall)
    exact (hperm.map weight).sum_eq

def categories (args : BTreeMap Str Arg) : BTreeMap Str ArgCategory := args.map fun _ arg => arg.cat

def scalar_names (args : BTreeMap Str Arg) : List Str :=
  ((categories args).toList.filter fun entry => entry.2.is_scalar).map Prod.fst

def mmap_count (args : BTreeMap Str Arg) : Nat :=
  ((categories args).toList.filter fun entry => entry.2.is_direct_mmap).length

variable {args : BTreeMap Str Arg}

theorem mem_scalar_names {name : Str} :
    name ∈ scalar_names args ↔ ∃ arg, args[name]? = some arg ∧ arg.cat.is_scalar = true := by
  simp [scalar_names, categories, mem_toList_iff_getElem?_eq_some, List.mem_filter]

theorem scalar_names_nodup (args : BTreeMap Str Arg) : (scalar_names args).Nodup := by
  refine List.Nodup.sublist (List.Sublist.map _ List.filter_sublist) ?_
  rw [map_fst_toList_eq_keys]
  exact nodup_keys

/-- What the planner has checked and summed up. -/
theorem control_launch_width_ok {task : Task} {inst : TaskInstance} {name : Str} {width : Nat}
    (h : control_launch_width task inst name = .ok width) :
    width = control_width (inst.step < 0) +
        ((task.ports.filter fun port => port.cat.is_scalar).map Port.width).sum +
        64 * mmap_count inst.args ∧
      (∀ port ∈ task.ports.filter fun port => port.cat.is_scalar,
        port.name ∈ scalar_names inst.args ∧ 0 < port.width) ∧
      (∀ port_name ∈ scalar_names inst.args, ∃ port ∈ task.ports.filter fun port =>
        port.cat.is_scalar, port.name = port_name ∧
          (task.ports.find? fun port => port.name = port_name) = some port) := by
  obtain ⟨scalars, hscalars, h⟩ := bind_eq_ok.mp h
  have hports := foldlM_invariant (P := fun ports w =>
    w = control_width (inst.step < 0) + (ports.map Port.width).sum ∧
      ∀ port ∈ ports, port.name ∈ scalar_names inst.args ∧ 0 < port.width) hscalars
    ⟨by simp [control_width], by simp⟩ (by
      rintro ports port w w' _ ⟨rfl, hall⟩ hstep
      split at hstep
      · cases hstep
      rename_i arg harg
      split at hstep
      · cases hstep
      rename_i hcat
      split at hstep
      · cases hstep
      rw [ok_or_eq_ok, checked_add_u32_eq_some] at hstep
      obtain ⟨_, rfl⟩ := hstep
      refine ⟨by simp [Nat.add_assoc], ?_⟩
      simp only [List.mem_append, List.mem_singleton]
      rintro p (hp | rfl)
      · exact hall p hp
      · exact ⟨mem_scalar_names.mpr ⟨arg, harg, by simpa using hcat⟩, by omega⟩)
  have hargs := foldlM_invariant (P := fun entries w =>
    w = scalars + 64 * (entries.filter fun entry => entry.2.cat.is_direct_mmap).length ∧
      ∀ entry ∈ entries, entry.2.cat.is_scalar = true →
        ((task.ports.find? fun port => port.name = entry.1).any fun port => port.cat.is_scalar) =
          true) h ⟨by simp, by simp⟩ (by
      rintro entries ⟨port_name, arg⟩ w w' _ ⟨rfl, hall⟩ hstep
      simp only at hstep
      split at hstep
      · cases hstep
      rename_i hmissing
      have hentry : ∀ entry ∈ entries ++ [(port_name, arg)], entry.2.cat.is_scalar = true →
          ((task.ports.find? fun port => port.name = entry.1).any fun port =>
            port.cat.is_scalar) = true := by
        simp only [List.mem_append, List.mem_singleton]
        rintro entry (he | rfl) hscalar
        · exact hall entry he hscalar
        · simpa [hscalar] using hmissing
      refine ⟨?_, hentry⟩
      split at hstep
      · rename_i hmmap
        rw [ok_or_eq_ok, checked_add_u32_eq_some] at hstep
        obtain ⟨_, rfl⟩ := hstep
        simp only [List.filter_append, List.filter_cons, hmmap, if_true, List.filter_nil,
          List.length_append, List.length_singleton]
        ring
      · rename_i hmmap
        cases hstep
        simp [List.filter_append, hmmap])
  refine ⟨?_, hports.2, ?_⟩
  · rw [hargs.1, hports.1, mmap_count, categories, toList_map, List.filter_map,
      List.length_map]
    rfl
  · intro port_name hname
    obtain ⟨arg, harg, hscalar⟩ := mem_scalar_names.mp hname
    have hany := hargs.2 (port_name, arg)
      (mem_toList_iff_getElem?_eq_some.mpr harg) hscalar
    cases hfind : task.ports.find? fun port => port.name = port_name with
    | none => simp [hfind] at hany
    | some port =>
      have hport : port.cat.is_scalar = true := by simpa [hfind] using hany
      refine ⟨port, List.mem_filter.mpr ⟨List.mem_of_find?_eq_some hfind, hport⟩, ?_, rfl⟩
      simpa using List.find?_some hfind

/-- What the parts take together, where every memory argument has a name. -/
theorem sum_launch_parts (state : TopologyWithRtl) (is_hmap : Str → Bool) (child_name : Str)
    (hnamed : ∀ (port : Str) (arg : Arg), args[port]? = some arg →
      arg.cat.is_direct_mmap = true → ∃ name, arg.name = some name) :
    ((launch_parts state is_hmap child_name args).map Prod.snd).sum =
      ((scalar_names args).map fun name => (topology_width state child_name name).getD 0).sum +
        64 * mmap_count args := by
  have hlist : ∀ entries : List (Str × Arg), (∀ entry ∈ entries,
      entry.2.cat.is_direct_mmap = true → ∃ name, entry.2.name = some name) →
      ((entries.filterMap (launch_part state is_hmap child_name)).map Prod.snd).sum =
        (((entries.filter fun entry => entry.2.cat.is_scalar).map fun entry =>
          (topology_width state child_name entry.1).getD 0).sum) +
          64 * (entries.filter fun entry => entry.2.cat.is_direct_mmap).length := by
    intro entries hall
    induction entries with
    | nil => rfl
    | cons entry entries ih =>
      rw [List.forall_mem_cons] at hall
      have ih := ih hall.2
      rw [List.filterMap_cons]
      by_cases hscalar : entry.2.cat.is_scalar = true
      · have hmmap : entry.2.cat.is_direct_mmap = false := by
          cases hcat : entry.2.cat <;> simp_all [ArgCategory.is_scalar, ArgCategory.is_direct_mmap]
        simp only [launch_part, hscalar, hmmap, if_true, List.map_cons, List.sum_cons,
          List.filter_cons] at ih ⊢
        simp only [Bool.false_eq_true, if_false]
        omega
      · by_cases hmmap : entry.2.cat.is_direct_mmap = true
        · obtain ⟨name, hname⟩ := hall.1 hmmap
          simp only [launch_part, hscalar, hmmap, hname, if_true, Bool.false_eq_true, if_false,
            Option.map_some, List.map_cons, List.sum_cons, List.filter_cons,
            List.length_cons] at ih ⊢
          omega
        · rw [launch_part, if_neg hscalar, if_neg hmmap, List.filter_cons, if_neg hscalar,
            List.filter_cons, if_neg hmmap]
          exact ih
  rw [launch_parts, hlist args.toList fun entry hentry hmmap =>
    hnamed entry.1 entry.2 (mem_toList_iff_getElem?_eq_some.mp hentry) hmmap]
  simp only [scalar_names, mmap_count, categories, toList_map, List.filter_map,
    List.map_map, List.length_map]
  rfl

/-! ## Launches of accepted graphs -/

/-- The arguments of an invocation as its owner has them: names stand for the
forwarding registers of the scope. -/
def scoped_args (owner : Option Str) (args : BTreeMap Str Arg) : BTreeMap Str Arg :=
  args.map fun _ arg =>
    match owner, arg.arg with
    | some owner, .Name name =>
      { arg with arg := .Name (sanitize_identifier_name owner ++ "__".toList ++
          sanitize_array_name name) }
    | _, _ => arg

/-- An invocation as the planner has it: its arguments may be resolved, but their
categories are the same. -/
structure SameBindings (invocation planned : TaskInstance) : Prop where
  step : planned.step < 0 ↔ invocation.step < 0
  categories : categories planned.args = categories invocation.args

theorem scoped_args_getElem? {owner : Option Str} {port : Str} {arg : Arg}
    (h : (scoped_args owner args)[port]? = some arg) :
    ∃ original, args[port]? = some original ∧ original.cat = arg.cat ∧
      ∀ value, arg.arg = .Literal value → original.arg = .Literal value := by
  rw [scoped_args, getElem?_map] at h
  obtain ⟨original, horiginal, rfl⟩ := Option.map_eq_some_iff.mp h
  refine ⟨original, horiginal, ?_, ?_⟩
  · split <;> rfl
  · intro value hvalue
    split at hvalue
    · cases hvalue
    · exact hvalue

theorem categories_scoped_args (owner : Option Str) (args : BTreeMap Str Arg) :
    categories (scoped_args owner args) = categories args := by
  refine ext_getElem? fun port => ?_
  simp only [categories, scoped_args, getElem?_map, Option.map_map]
  congr 1
  funext arg
  simp only [Function.comp_apply]
  split <;> rfl

/-- The constants of an accepted invocation are for scalars, and of 1 to 64 bits. -/
theorem accepted_constant {design : TaskGraph} (haccepted : design.Accepted) {task_name d : Str}
    {task : Task} {index : Nat} {invocation : TaskInstance}
    (htask : design.tasks[task_name]? = some task)
    (hinvocation : (d, index, invocation) ∈ task.invocations) {port : Str} {arg : Arg}
    {value : WireValue} (harg : invocation.args[port]? = some arg)
    (hvalue : arg.arg = .Literal value) :
    1 ≤ value.width ∧ value.width ≤ 64 ∧ arg.cat = .Scalar := by
  have h := TaskGraph.accepted_iff.mp haccepted task_name task htask d index invocation hinvocation
    port arg harg
  obtain ⟨hvalid, hcat, _⟩ := (TaskGraph.validate_literal_literal hvalue).mp h
  simp only [WireValue.is_valid, decide_eq_true_eq] at hvalid
  exact ⟨hvalid.1, hvalid.2.1, hcat⟩

/-- The payload of a launch arrives, whatever the wires are, exactly when its sources fit
the ports and, where it is cut out of the bundle, stand at their places; and the width of
the launch is the one that was charged exactly when no two scalar ports of the child have
the same name. -/
theorem launch_payload_arrives_iff_sized {state : TopologyWithRtl}
    (haccepted : state.design.Accepted) {task_name child_name inst : Str} {task : Task}
    {index : Nat} {invocation : TaskInstance} (htask : state.design.tasks[task_name]? = some task)
    (hinvocation : (child_name, index, invocation) ∈ task.invocations) (owner : Option Str)
    {is_hmap : Str → Bool} {widths : Str → Nat} (hwidths : ∀ name, 0 < widths name)
    {fields : List PayloadField} {width : Nat}
    (hbuild : build_payload_fields state child_name inst (invocation.step < 0)
      (scoped_args owner invocation.args) is_hmap = .ok (fields, width)) :
    (∀ register_payload, (∀ wires : Wires widths,
        Delivered wires (invocation.step < 0) register_payload fields width) ↔
      if register_payload then ∀ part ∈ launch_parts state is_hmap child_name
          (scoped_args owner invocation.args), part.1.Fits widths part.2
      else Sized widths 0 0
        (launch_parts state is_hmap child_name (scoped_args owner invocation.args))) ∧
    ∀ child planned name charged, state.design.tasks[child_name]? = some child →
      SameBindings invocation planned → control_launch_width child planned name = .ok charged →
        (width = charged ↔
          ((child.ports.filter fun port => port.cat.is_scalar).map Port.name).Nodup) := by
  refine ⟨fun register_payload => delivered_iff_sized hwidths register_payload hbuild, ?_⟩
  · intro child planned name charged hchild hsame hcharged
    obtain ⟨hsum, hports, hnames⟩ := control_launch_width_ok hcharged
    obtain ⟨hparts, hlaid⟩ := build_payload_fields_ok hbuild
    -- The planner sums over the ports, the code generator over the arguments.
    have hscalars :
        scalar_names (scoped_args owner invocation.args) = scalar_names planned.args := by
      rw [scalar_names, scalar_names, categories_scoped_args, hsame.categories]
    have hmmaps : mmap_count (scoped_args owner invocation.args) = mmap_count planned.args := by
      rw [mmap_count, mmap_count, categories_scoped_args, hsame.categories]
    have hspan := sum_launch_parts state is_hmap child_name (fun port arg (harg :
      (scoped_args owner invocation.args)[port]? = some arg) hmmap => by
        cases hsource : arg.arg with
        | Name name => exact ⟨name, by simp [Arg.name, hsource]⟩
        | Literal value =>
          obtain ⟨original, horiginal, hcat, hliteral⟩ := scoped_args_getElem? harg
          have := accepted_constant haccepted htask hinvocation horiginal (hliteral value hsource)
          rw [← hcat, this.2.2] at hmmap
          cases hmmap)
    have hstep : control_width (decide (planned.step < 0)) =
        control_width (decide (invocation.step < 0)) := by
      simp only [hsame.step]
    have hwidth : ∀ name, (topology_width state child_name name).getD 0 =
        (((child.ports.find? fun port => port.name = name).map Port.width).getD 0) := by
      intro name
      rw [topology_width, hchild]
      rfl
    have htotal : span (field_lanes (Wires.largest widths) fields) =
        ((fields.map PayloadField.part).map Prod.snd).sum := by
      simp [span, field_lanes, part_lane, PayloadField.part, Function.comp_def]
    rw [hlaid.width_eq (Wires.largest widths), htotal, hparts, hspan, hscalars, hsum]
    simp only [hwidth]
    rw [← sum_of_keys_iff (fun port hport => (hports port hport).2)
      (scalar_names_nodup planned.args) hnames fun port hport => (hports port hport).1]
    omega

/-! ## A constant of the wrong width -/

def word (name : Str) : Port := ⟨.Scalar, name, 32, none, none⟩

/-- A leaf with two scalar ports of 32 bits. -/
def receiver : Task := ⟨.Lower, [word "a".toList, word "b".toList], ∅, ∅, none⟩

/-- An invocation of it with a constant and with a wire. -/
def binding (constant_width : Nat) : TaskInstance :=
  ⟨none, .ofList [("a".toList, Arg.mk (.Literal ⟨constant_width, 5⟩) .Scalar),
    ("b".toList, Arg.mk (.Name "n".toList) .Scalar)], 0⟩

def sender (constant_width : Nat) : Task :=
  ⟨.Upper, [word "n".toList], .ofList [("Receiver".toList, [binding constant_width])], ∅, none⟩

def constantDesign (constant_width : Nat) : TopologyWithRtl where
  design := ⟨"Top".toList,
    .ofList [("Receiver".toList, receiver), ("Top".toList, sender constant_width)]⟩
  rtl_width _ _ := none

def receiverFields (constant_width : Nat) : List PayloadField :=
  [⟨"Receiver_0__a".toList, .lit ⟨constant_width, 5⟩, 32, 2⟩,
    ⟨"Receiver_0__b".toList, .ident "n".toList, 32, 34⟩]

/-- A constant of 8 bits for a port of 32 is accepted, and the port then gets the
low bits of the next argument above the constant. -/
theorem a_narrow_constant_shifts_the_payload :
    (constantDesign 8).design.Accepted ∧
      build_payload_fields (constantDesign 8) "Receiver".toList "Receiver_0".toList false
        (scoped_args none (binding 8).args) (fun _ => false) = .ok (receiverFields 8, 66) ∧
      ∃ wires : Wires fun _ => 32, ∃ field ∈ receiverFields 8, field_output wires false
        (launch_input wires false true false (receiverFields 8) 66) field = 261 ∧
          field.source.value wires = 5 := by
  refine ⟨rfl, rfl, Wires.ones fun _ => by decide, _, List.mem_cons_self, ?_, ?_⟩ <;> decide

/-- A constant of the width of its port arrives, and so does one of 8 bits that a register
takes. -/
theorem a_constant_of_the_width_of_its_port_arrives :
    (∀ wires : Wires fun _ => 32, Delivered wires false false (receiverFields 32) 66) ∧
      (∀ wires : Wires fun _ => 32, Delivered wires false true (receiverFields 8) 66) ∧
      ∀ charged, control_launch_width receiver (binding 32) "Receiver_0".toList = .ok charged →
        66 = charged := by
  have hbuild : ∀ n, build_payload_fields (constantDesign n) "Receiver".toList
      "Receiver_0".toList false (scoped_args none (binding n).args) (fun _ => false) =
        .ok (receiverFields n, 66) := fun _ => rfl
  have htask : ∀ n, (constantDesign n).design.tasks["Top".toList]? = some (sender n) :=
    fun _ => rfl
  have hinvocation : ∀ n, ("Receiver".toList, 0, binding n) ∈ (sender n).invocations :=
    fun _ => Task.mem_invocations.mpr ⟨_, rfl, rfl⟩
  have hwidths : ∀ name : Str, 0 < (fun _ => 32 : Str → Nat) name := fun _ => Nat.succ_pos 31
  have hparts : ∀ n, launch_parts (constantDesign n) (fun _ => false) "Receiver".toList
      (scoped_args none (binding n).args) =
        [(.lit ⟨n, 5⟩, 32), (.ident "n".toList, 32)] := fun _ => rfl
  have haccepted : (constantDesign 32).design.Accepted ∧ (constantDesign 8).design.Accepted :=
    ⟨rfl, rfl⟩
  obtain ⟨hcut, hcharged⟩ := launch_payload_arrives_iff_sized haccepted.1 (htask 32)
    (hinvocation 32) none hwidths (hbuild 32)
  obtain ⟨htaken, -⟩ := launch_payload_arrives_iff_sized haccepted.2 (htask 8)
    (hinvocation 8) none hwidths (hbuild 8)
  refine ⟨(hcut false).mpr ?_, (htaken true).mpr ?_, fun charged h => ?_⟩
  · rw [hparts]
    exact ⟨fun _ => rfl, by simp [Expr.Fits], fun _ => rfl, by simp [Expr.Fits], trivial⟩
  · rw [hparts]
    simp [Expr.Fits]
  · exact (hcharged receiver (binding 32) _ charged rfl ⟨Iff.rfl, rfl⟩ h).mpr (by decide)

end Tapa.Codegen
