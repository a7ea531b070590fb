-- What tapacc records of a body without errors: the k-th element that is taken of an
-- array in a direction is the one at position k, around the array; and an array whose
-- ends are watched is never taken around.
import Tapa.HostAccess

namespace Tapa.Frontend

open Text Fallible List

/-! ## Lanes -/

/-- What an argument takes: of which array, and how many elements. -/
def Expr.takes : PortKind → Expr → Option (Access × Str × Nat)
  | .mmap _, .decl_ref name => some (.mmap, name, 1)
  | .stream dir, .decl_ref name => some (.stream dir, name, 1)
  | .streams dir length, .decl_ref name => some (.stream dir, name, length)
  | _, _ => none

def Cursors.add (c : Cursors) : Option (Access × Str × Nat) → Cursors
  | none => c
  | some (acc, name, k) => fun acc' name' =>
    if acc' = acc ∧ name' = name then c acc' name' + k else c acc' name'

theorem Cursors.add_zero (c : Cursors) (acc : Access) (name : Str) :
    c.add (some (acc, name, 0)) = c := by
  funext acc' name'
  simp [Cursors.add]

theorem Cursors.add_add (c : Cursors) (acc : Access) (name : Str) (j k : Nat) :
    (c.add (some (acc, name, j))).add (some (acc, name, k)) =
      c.add (some (acc, name, j + k)) := by
  funext acc' name'
  simp only [Cursors.add]
  split
  · exact Nat.add_assoc _ _ _
  · rfl

theorem Cursors.add_self (c : Cursors) (acc : Access) (name : Str) (k : Nat) :
    c.add (some (acc, name, k)) acc name = c acc name + k := by
  simp [Cursors.add]

/-- The positions after an argument. -/
def Cursors.after (c : Cursors) (p : Port × Expr) : Cursors := c.add (p.2.takes p.1.kind)

/-- How an index and the number of a lane are read. -/
structure Reading where
  index : Index → Int
  seq : Nat → ScalarType → Nat

/-- What the ports of a parameter are connected to: the elements of an array from its
position on, around the array; an element and the number of the lane as they are read. -/
def Body.wires (b : Body) (read : Reading) (number : Nat) (c : Cursors) (p : Port × Expr) :
    List (Str × Wire) :=
  match p.1.kind, p.2 with
  | .mmap _, .decl_ref name =>
    [(p.1.name, .named (array_element name (c .mmap name) (b.decl name)))]
  | .stream dir, .decl_ref name =>
    [(p.1.name, .named (array_element name (c (.stream dir) name) (b.decl name)))]
  | .streams dir length, .decl_ref name =>
    (List.range length).map fun (i : Nat) =>
      (array_name_at p.1.name i,
        .named (array_element name (c (.stream dir) name + i) (b.decl name)))
  | .scalar type, .seq => [(p.1.name, .constant (read.seq number type))]
  | _, .subscript base index => [(p.1.name, .named (array_name_at base (read.index index)))]
  | _, _ => []

def Invoke.pairs (inv : Invoke) : List (Port × Expr) := inv.callee.params.zip inv.args

/-- What the ports of a call are connected to, from left to right. -/
def Body.lane_wires (b : Body) (read : Reading) (number : Nat) :
    List (Port × Expr) → Cursors → List (Str × Wire)
  | [], _ => []
  | p :: ps, c => b.wires read number c p ++ b.lane_wires read number ps (c.after p)

/-- One instance of an invoke, with the positions before it. -/
structure Lane where
  invoke : Invoke
  number : Nat
  cursors : Cursors

structure Lanes where
  lanes : List Lane
  cursors : Cursors

def Lanes.push (st : Lanes) (inv : Invoke) (number : Nat) : Lanes :=
  ⟨st.lanes ++ [⟨inv, number, st.cursors⟩], inv.pairs.foldl Cursors.after st.cursors⟩

def Lanes.invoke (st : Lanes) (inv : Invoke) : Lanes :=
  (List.range inv.vec_length).foldl (fun st number => st.push inv number) st

/-- The instances of a body in order, each with the positions before it. -/
def Body.lanes (b : Body) : Lanes := b.invokes.foldl Lanes.invoke ⟨[], fun _ _ => 0⟩

theorem Body.lane_wires_append (b : Body) (read : Reading) (number : Nat)
    (ps qs : List (Port × Expr)) (c : Cursors) : b.lane_wires read number (ps ++ qs) c =
      b.lane_wires read number ps c ++ b.lane_wires read number qs (ps.foldl Cursors.after c) := by
  induction ps generalizing c with
  | nil => rfl
  | cons p ps ih => rw [cons_append, lane_wires, lane_wires, ih, append_assoc,
      foldl_cons]

/-! ## One argument -/

/-- The index as tapacc reads it. -/
def Index.recorded (index : Index) : Int := (eval_int index).getD 0

/-- Tapacc gives the number itself to a type whose conversion it does not know. -/
def recorded_seq (number : Nat) : ScalarType → Nat
  | .other _ _ _ _ => number
  | type => seq_value number type

def Reading.recorded : Reading := ⟨Index.recorded, recorded_seq⟩

def Reading.run : Reading := ⟨Index.value, seq_value⟩

namespace TaskModel

/-- What becomes of an argument that has an accessor. -/
def bind_pair (s : TaskModel) (b : Body) (task_name : Str) (key : Nat × Nat) (p : Port × Expr) :
    Except Fault TaskModel :=
  match p.1.kind, p.2 with
  | .mmap kind, .decl_ref name => s.bind_mmap kind task_name name (b.decl name) p.1.name
  | .mmap _, .subscript _ _ => .ok (s.report (.cannot_bind "CXXOperatorCallExpr"))
  | .stream dir, .decl_ref name => s.bind_stream b dir task_name name (b.decl name) p.1.name
  | .stream dir, .subscript base index =>
    s.bind_stream b dir task_name (array_name_at base index.recorded) none p.1.name
  | .streams dir length, .decl_ref name =>
    (List.range length).foldlM (fun s (j : Nat) =>
      s.bind_stream b dir task_name name (b.decl name) (array_name_at p.1.name j)) s
  | .scalar type, .seq => s.bind_seq type task_name key p.1.name
  | _, _ => .ok s

theorem parse_argument_eq {b : Body} {inv : Invoke} {p : Port × Expr} {i : Nat}
    (hparam : inv.callee.params[i]? = some p.1) (hacc : b.has_accessor p.1.kind p.2 = true)
    (hidx : b.indexable p.2 = true) (number i_vec : Nat) (s : TaskModel) :
    parse_argument b inv number i_vec s (p.2, 1 + inv.name.isSome.toNat + i) =
      s.bind_pair b inv.callee.task_name (number, 1 + inv.name.isSome.toNat + i) p := by
  have hbind : ∀ arg_name ref operand, s.bind_parameter b inv number
      (1 + inv.name.isSome.toNat + i) arg_name ref operand =
        s.bind_argument b inv.callee.task_name p.1
          (number, 1 + inv.name.isSome.toNat + i) arg_name ref operand := by
    intro arg_name ref operand
    unfold bind_parameter
    have hi : 1 + inv.name.isSome.toNat + i - 1 - inv.name.isSome.toNat = i := by omega
    simp only [hi, hparam]
    rw [if_neg (by omega)]
  obtain ⟨⟨port, kind⟩, e⟩ := p
  unfold parse_argument bind_pair
  cases e with
  | literal text | scalar e => cases kind <;> exact absurd hacc Bool.false_ne_true
  | decl_ref name =>
    simp only [hbind, bind_argument]
    cases kind with
    | scalar type => exact absurd hacc Bool.false_ne_true
    | _ => rfl
  | seq =>
    simp only [hbind, bind_argument]
    cases kind with
    | scalar type => rfl
    | _ => exact absurd hacc Bool.false_ne_true
  | subscript base index =>
    simp only [hbind, bind_argument]
    unfold Body.has_accessor at hacc
    unfold Body.indexable at hidx
    cases kind with
    | mmap kind =>
      cases hd : b.decl base with
      | none => simp [hd] at hidx
      | some d => cases d <;> simp_all [Decl.length]
    | stream dir =>
      cases hd : b.decl base with
      | none => simp [hd] at hidx
      | some d => cases d <;> simp_all [Decl.length, Index.recorded]
    | streams dir length | scalar type => exact absurd hacc Bool.false_ne_true

/-- The name that a position is kept under stands for what it is taken of. -/
def Resolved (b : Body) (arg_name : Str) (ref : Option Decl) : Prop :=
  (ref = b.decl arg_name ∧ '[' ∉ arg_name) ∨ (ref = none ∧ '[' ∈ arg_name)

/-- What every binding keeps. -/
structure Kept (b : Body) (P : TaskModel → Prop) : Prop where
  stream : ∀ s s' dir task_name arg_name ref port, Resolved b arg_name ref → P s →
    bind_stream s b dir task_name arg_name ref port = .ok s' → P s'
  mmap : ∀ s s' kind task_name arg_name ref port, P s →
    bind_mmap s kind task_name arg_name ref port = .ok s' → P s'
  seq : ∀ s s' type task_name key port, P s → bind_seq s type task_name key port = .ok s' → P s'
  report : ∀ s d, P s → P (s.report d)
  name : ∀ s task_name name, P s → P (s.set_name task_name name)
  push : ∀ s task_name step, P s → P (s.push_instance task_name step)

end TaskModel

theorem mem_array_name_at (base : Str) (i : Int) : '[' ∈ array_name_at base i := by
  simp [array_name_at]

namespace Body.Compiles

variable {b : Body} (hb : b.Compiles)
include hb

theorem notMem_of_decl {name : Str} {d : Decl} (hd : b.decl name = some d) : '[' ∉ name := by
  obtain ⟨l₁, l₂, heq, _⟩ := lookup_eq_some_iff.mp hd
  exact hb.names (name, d) (by simp [heq])

theorem notMem_of_accessor {kind : PortKind} {name : Str}
    (h : b.has_accessor kind (.decl_ref name) = true) : '[' ∉ name := by
  cases hd : b.decl name with
  | some d => exact hb.notMem_of_decl hd
  | none => cases kind <;> simp [Body.has_accessor, hd] at h

end Body.Compiles

namespace TaskModel

variable {b : Body} {P : TaskModel → Prop} {s s' : TaskModel}

theorem bind_pair_keeps (hb : b.Compiles) (hP : Kept b P) {t : Str} {key : Nat × Nat}
    {p : Port × Expr} (hacc : b.has_accessor p.1.kind p.2 = true)
    (h : s.bind_pair b t key p = .ok s') (hs : P s) :
    P s' := by
  obtain ⟨⟨port, kind⟩, e⟩ := p
  have hresolved : ∀ name, e = .decl_ref name → Resolved b name (b.decl name) := by
    rintro name rfl
    exact .inl ⟨rfl, hb.notMem_of_accessor hacc⟩
  unfold bind_pair at h
  split at h
  · exact hP.mmap _ _ _ _ _ _ _ hs h
  · cases h
    exact hP.report _ _ hs
  · rename_i heq
    exact hP.stream _ _ _ _ _ _ _ (hresolved _ heq) hs h
  · exact hP.stream _ _ _ _ _ _ _ (.inr ⟨rfl, mem_array_name_at _ _⟩) hs h
  · rename_i heq
    exact foldlM_invariant (P := fun _ s => P s) h hs
      (fun _ _ _ _ _ hs hj => hP.stream _ _ _ _ _ _ _ (hresolved _ heq) hs hj)
  · exact hP.seq _ _ _ _ _ _ hs h
  · cases h
    exact hs

/-- The model before the arguments of an instance: the instance with its name. -/
def start_lane (s : TaskModel) (inv : Invoke) (i_vec : Nat) : TaskModel :=
  match inv.name with
  | none => s.push_instance inv.callee.task_name inv.step
  | some text => (s.push_instance inv.callee.task_name inv.step).set_name inv.callee.task_name
      (if 1 < inv.vec_length then text ++ '_' :: decimal i_vec else text)

theorem parse_lane_eq (hb : b.Compiles) {inv : Invoke} (hinv : inv ∈ b.invokes)
    (number i_vec : Nat) (s : TaskModel) : parse_lane b inv number s i_vec =
      (inv.pairs.zipIdx (1 + inv.name.isSome.toNat)).foldlM
        (fun s q => s.bind_pair b inv.callee.task_name (number, q.2) q.1)
        (s.start_lane inv i_vec) := by
  have hargs : ∀ s, (inv.args.zipIdx (1 + inv.name.isSome.toNat)).foldlM
      (parse_argument b inv number i_vec) s =
        (inv.pairs.zipIdx (1 + inv.name.isSome.toNat)).foldlM
          (fun s q => s.bind_pair b inv.callee.task_name (number, q.2) q.1) s := by
    intro s
    have hmap : inv.args = inv.pairs.map Prod.snd :=
      (map_snd_zip (Nat.le_of_eq (hb.arity inv hinv))).symm
    rw [hmap, zipIdx_map, foldlM_map]
    apply foldlM_congr
    rintro ⟨p, i⟩ hp s
    obtain ⟨hle, hget⟩ := mk_mem_zipIdx_iff_le_and_getElem?_sub.mp hp
    obtain ⟨k, rfl⟩ := Nat.exists_eq_add_of_le hle
    rw [Nat.add_sub_cancel_left] at hget
    have hmem := hb.accessors inv hinv p (mem_of_getElem? hget)
    exact parse_argument_eq (getElem?_zip_eq_some.mp hget).1 hmem.1 hmem.2 number i_vec s
  unfold parse_lane start_lane Invoke.arguments
  cases hname : inv.name with
  | none =>
    rw [← hname, ← hargs, hname]
    rfl
  | some text =>
    rw [← hname, ← hargs, hname]
    simp only [Option.map_some, Option.toList_some, cons_append, nil_append,
      zipIdx_cons, foldlM_cons]
    simp only [parse_argument, hname, Option.isSome_some, and_self, if_true, ok_bind]
    rfl

theorem start_lane_keeps (hP : Kept b P) (hs : P s) (inv : Invoke) (i_vec : Nat) :
    P (s.start_lane inv i_vec) := by
  unfold start_lane
  split
  · exact hP.push _ _ _ hs
  · exact hP.name _ _ _ (hP.push _ _ _ hs)

theorem parse_lane_keeps (hb : b.Compiles) (hP : Kept b P) {inv : Invoke} (hinv : inv ∈ b.invokes)
    {number i_vec : Nat} (h : parse_lane b inv number s i_vec = .ok s') (hs : P s) : P s' := by
  rw [parse_lane_eq hb hinv] at h
  refine foldlM_invariant (P := fun _ s => P s) h (start_lane_keeps hP hs inv i_vec) ?_
  rintro ys ⟨p, i⟩ s s' hpre hs hstep
  have hmem := mem_of_getElem? (zipIdx_turn hpre).1
  exact bind_pair_keeps hb hP (hb.accessors inv hinv p hmem).1 hstep hs

theorem parse_invocations_keeps (hb : b.Compiles) (hP : Kept b P)
    (h : parse_invocations b s = .ok s') (hs : P s) : P s' := by
  refine foldlM_invariant (P := fun _ s => P s) h hs ?_
  rintro ys ⟨inv, number⟩ s s' hpre hs hstep
  have hinv := mem_of_getElem? (zipIdx_turn hpre).1
  exact foldlM_invariant (P := fun _ s => P s) hstep hs
    (fun _ _ _ _ _ hs hlane => parse_lane_keeps hb hP hinv hlane hs)

end TaskModel

/-! ## What a binding does -/

namespace TaskModel

def advance (s : TaskModel) (acc : Access) (arg_name : Str) : TaskModel :=
  { s with
    pos := fun acc' name' =>
      if acc' = acc ∧ name' = arg_name then s.pos acc arg_name + 1 else s.pos acc' name' }

variable {s s' : TaskModel} {dir : Direction} {t port : Str}

theorem next_element_ok {acc : Access} {arg_name : Str} {ref : Option Decl} {r : Str × TaskModel}
    (h : s.next_element acc arg_name ref = .ok r) :
    r = (array_element arg_name (s.pos acc arg_name) ref, s.advance acc arg_name) := by
  unfold next_element at h
  split at h
  · exact (Except.ok.inj h).symm
  · cases h

theorem bind_stream_ok {b : Body} {arg_name : Str} {ref : Option Decl}
    (h : s.bind_stream b dir t arg_name ref port = .ok s') :
    ∃ e, s' = ((s.advance (.stream dir) arg_name).mark b dir
      (array_element arg_name (s.pos (.stream dir) arg_name) ref) e).set_arg t port
        (.named (array_element arg_name (s.pos (.stream dir) arg_name) ref) (.stream dir)) := by
  obtain ⟨r, hr, h⟩ := bind_eq_ok.mp h
  obtain rfl := next_element_ok hr
  exact ⟨_, (Except.ok.inj h).symm⟩

theorem bind_mmap_ok {kind : MmapKind} {arg_name : Str} {ref : Option Decl}
    (h : s.bind_mmap kind t arg_name ref port = .ok s') :
    s' = (s.advance .mmap arg_name).set_arg t port
      (.named (array_element arg_name (s.pos .mmap arg_name) ref) (.mmap kind)) := by
  obtain ⟨r, hr, h⟩ := bind_eq_ok.mp h
  obtain rfl := next_element_ok hr
  exact (Except.ok.inj h).symm

theorem bind_seq_ok {type : ScalarType} {key : Nat × Nat}
    (h : s.bind_seq type t key port = .ok s') : s.seq_pos key + 1 < 2 ^ 31 ∧
      s' = { s with
        seq_pos := fun key' => if key' = key then s.seq_pos key + 1 else s.seq_pos key' }.set_arg
          t port (.constant (convert_to_port_type (s.seq_pos key) type) type.bit_width) := by
  unfold bind_seq at h
  split at h
  · rename_i hlt
    exact ⟨hlt, (Except.ok.inj h).symm⟩
  · cases h

section Mark

variable (s : TaskModel) (b : Body) (dir : Direction) (a : Str) (e : Endpoint)

@[simp] theorem mark_instances : (s.mark b dir a e).instances = s.instances := by
  unfold mark
  split <;> rfl

@[simp] theorem mark_pos : (s.mark b dir a e).pos = s.pos := by
  unfold mark
  split <;> rfl

@[simp] theorem mark_seq_pos : (s.mark b dir a e).seq_pos = s.seq_pos := by
  unfold mark
  split <;> rfl

theorem errors_isPrefix_mark : s.errors <+: (s.mark b dir a e).errors := by
  unfold mark
  split
  · exact prefix_rfl
  · split
    · exact prefix_append _ _
    · exact prefix_rfl

end Mark

/-- No binding takes an error back. -/
theorem kept_errors (b : Body) (l : List Diag) : Kept b (fun s => l <+: s.errors) where
  stream := by
    intro s s' dir t arg_name ref port _ hs h
    obtain ⟨e, rfl⟩ := bind_stream_ok h
    exact hs.trans (errors_isPrefix_mark (s.advance _ _) b dir _ e)
  mmap := by
    intro s s' kind t arg_name ref port hs h
    obtain rfl := bind_mmap_ok h
    exact hs
  seq := by
    intro s s' type t key port hs h
    obtain ⟨_, rfl⟩ := bind_seq_ok h
    exact hs
  report := fun s d hs => hs.trans (prefix_append _ _)
  name := fun _ _ _ hs => hs
  push := fun _ _ _ hs => hs

/-! ## Watched arrays -/

/-- A stream that has an end in a direction. -/
def Marked (s : TaskModel) (dir : Direction) (a : Str) : Prop :=
  ∃ d, s.streams[a]? = some d ∧ (d.endpoint dir).isSome = true

theorem endpoint_set_endpoint (d : StreamDecl) (e : Endpoint) (dir : Direction) :
    ((d.set_endpoint e dir).endpoint dir).isSome = true := by
  cases dir <;> rfl

theorem isSome_endpoint_set_endpoint {d : StreamDecl} (h : (d.endpoint dir).isSome = true)
    (e : Endpoint) (dir' : Direction) :
    ((d.set_endpoint e dir').endpoint dir).isSome = true := by
  cases dir <;> cases dir' <;> first | rfl | exact h

variable {a : Str}

theorem marked_mark (h : s.Marked dir a) (b : Body) (dir' : Direction) (a' : Str) (e : Endpoint) :
    (s.mark b dir' a' e).Marked dir a := by
  obtain ⟨d, hd, hend⟩ := h
  unfold mark
  split
  · exact ⟨d, hd, hend⟩
  rename_i d' hd'
  unfold Marked
  rw [Ir.get_insert]
  by_cases heq : a' = a
  · subst heq
    rw [Body.find_or_external_stream, hd] at hd'
    cases hd'
    exact ⟨_, if_pos rfl, isSome_endpoint_set_endpoint hend e dir'⟩
  · exact ⟨d, (if_neg heq).trans hd, hend⟩

theorem isSome_streams_mark (h : s.streams[a]?.isSome = true) (b : Body) (dir : Direction)
    (a' : Str) (e : Endpoint) :
    (s.mark b dir a' e).streams[a]?.isSome = true := by
  unfold mark
  split
  · exact h
  · exact Ir.isSome_get_insert.mpr (.inr h)

/-- A stream that has an end already is reported. -/
theorem errors_mark_of_marked (h : s.Marked dir a) (b : Body) (e : Endpoint) :
    (s.mark b dir a e).errors ≠ [] := by
  obtain ⟨d, hd, hend⟩ := h
  unfold mark
  rw [Body.find_or_external_stream, hd]
  simp [hend]

theorem marked_mark_self {b : Body} {d : StreamDecl}
    (h : b.find_or_external_stream s.streams a = some d) (e : Endpoint) :
    (s.mark b dir a e).Marked dir a := by
  unfold mark Marked
  rw [h]
  rw [Ir.get_insert, if_pos rfl]
  exact ⟨_, rfl, endpoint_set_endpoint d e dir⟩

end TaskModel

/-- The arrays whose ends tapacc watches: those that the body declares, and the ports of
the top. -/
def Body.watches (b : Body) : Decl → Bool
  | .streams _ _ => true
  | .ports _ _ => b.is_top
  | _ => false

/-- A watched array, as it stands after the elements taken so far. -/
structure TaskModel.Watched (s : TaskModel) (name : Str) (d : Decl) (dir : Direction)
    (length : Nat) : Prop where
  within : s.pos (.stream dir) name ≤ length
  marked : ∀ i : Nat, i < s.pos (.stream dir) name → s.Marked dir (array_name_at name i)
  declared : ∀ depth, d = .streams length depth → ∀ i : Nat, i < length →
    s.streams[array_name_at name i]?.isSome = true

namespace TaskModel

theorem array_base_name_at {name : Str} (h : '[' ∉ name) (i : Int) :
    array_base_name (array_name_at name i) = name := by
  unfold array_base_name array_name_at
  rw [takeWhile_append_of_pos]
  · simp
  · intro c hc
    have hne : c ≠ '[' := by
      rintro rfl
      exact h hc
    simpa using hne

theorem length_of_channels {d : Decl} {dir : Direction} {length : Nat}
    (h : d.channels dir = some length) : d.length = some length := by
  cases d with
  | streams l depth => exact h
  | ports d l =>
    simp only [Decl.channels] at h
    split at h
    · exact h
    · cases h
  | _ => cases h

theorem array_element_eq {name : Str} {d : Decl} {length : Nat} (h : d.length = some length)
    (hpos : 0 < length) (pos : Nat) :
    array_element name pos (some d) = array_name_at name (pos % length : Nat) := by
  obtain ⟨len, rfl⟩ := Nat.exists_eq_add_of_lt hpos
  unfold array_element
  rw [Option.bind_some, h]

/-- A watched array is found, with each of its elements. -/
theorem Watched.found {s : TaskModel} {b : Body} {name : Str} {d : Decl} {dir : Direction}
    {length : Nat} (h : s.Watched name d dir length) (hname : '[' ∉ name)
    (hd : b.decl name = some d) (hwatch : b.watches d = true)
    (hch : d.channels dir = some length) {i : Nat} (hi : i < length) :
    ∃ e, b.find_or_external_stream s.streams (array_name_at name i) = some e := by
  unfold Body.find_or_external_stream
  cases hs : s.streams[array_name_at name i]? with
  | some e => exact ⟨e, rfl⟩
  | none =>
    cases d with
    | streams l depth =>
      obtain rfl : l = length := Option.some.inj hch
      have := h.declared depth rfl i hi
      rw [hs] at this
      cases this
    | ports d l =>
      have htop : b.is_top = true := hwatch
      have hport : b.is_stream_port_arg (array_name_at name i) = true := by
        unfold Body.is_stream_port_arg
        rw [array_base_name_at hname, hd]
      simp [htop, hport]
    | _ => cases hwatch

theorem Watched.of_eq {s s' : TaskModel} {name : Str} {d : Decl} {dir : Direction} {length : Nat}
    (h : s.Watched name d dir length)
    (hpos : s'.pos (.stream dir) name = s.pos (.stream dir) name)
    (hstreams : s'.streams = s.streams) : s'.Watched name d dir length where
  within := hpos ▸ h.within
  marked := by
    unfold Marked
    rw [hpos, hstreams]
    exact h.marked
  declared := hstreams ▸ h.declared

theorem Watched.mark {s : TaskModel} {name : Str} {d : Decl} {dir : Direction} {length : Nat}
    (h : s.Watched name d dir length) (b : Body) (dir' : Direction) (a : Str) (e : Endpoint) :
    (s.mark b dir' a e).Watched name d dir length where
  within := by simpa using h.within
  marked := fun i hi => marked_mark (h.marked i (by simpa using hi)) b dir' a e
  declared := fun depth hdepth i hi => isSome_streams_mark (h.declared depth hdepth i hi) b dir' a e

/-- Without an error, a watched array is not taken around. -/
theorem kept_watched {b : Body} {name : Str} {d : Decl} {dir : Direction} {length : Nat}
    (hname : '[' ∉ name) (hd : b.decl name = some d) (hwatch : b.watches d = true)
    (hch : d.channels dir = some length) (hpos : 0 < length) :
    Kept b (fun s => s.errors = [] → s.Watched name d dir length) where
  stream := by
    intro s s' dir' t arg_name ref port hresolved hs h herr
    obtain ⟨e, rfl⟩ := bind_stream_ok h
    have hnone : s.errors = [] :=
      prefix_nil.mp (herr ▸ errors_isPrefix_mark (s.advance (.stream dir') arg_name) b dir' _ e)
    have hw := hs hnone
    by_cases hthis : dir' = dir ∧ arg_name = name
    · obtain ⟨rfl, rfl⟩ := hthis
      obtain ⟨rfl, _⟩ := hresolved.resolve_right fun hr => hname hr.2
      rw [hd, array_element_eq (length_of_channels hch) hpos] at herr ⊢
      have hlt : s.pos (.stream dir') arg_name < length := by
        -- At the end of the array the first element would be marked again.
        refine Nat.lt_of_le_of_ne hw.within fun heq => ?_
        rw [heq, Nat.mod_self] at herr
        exact errors_mark_of_marked (s := s.advance (.stream dir') arg_name)
          (hw.marked 0 (heq ▸ hpos)) b e herr
      rw [Nat.mod_eq_of_lt hlt] at herr ⊢
      refine ⟨?_, ?_, fun depth hdepth i hi => isSome_streams_mark
        (s := s.advance (.stream dir') arg_name) (hw.declared depth hdepth i hi) b dir' _ e⟩
      · simpa [set_arg, advance] using Nat.succ_le_of_lt hlt
      · intro i hi
        have hi' : i < s.pos (.stream dir') arg_name + 1 := by simpa [set_arg, advance] using hi
        rcases Nat.lt_succ_iff_lt_or_eq.mp hi' with hi' | rfl
        · exact marked_mark (s := s.advance (.stream dir') arg_name) (hw.marked i hi') b dir' _ e
        · obtain ⟨entry, hfound⟩ := hw.found hname hd hwatch hch hlt
          exact marked_mark_self (s := s.advance (.stream dir') arg_name) hfound e
    · have hsame : (s.advance (.stream dir') arg_name).pos (.stream dir) name =
          s.pos (.stream dir) name :=
        if_neg fun h => hthis ⟨(Access.stream.inj h.1).symm, h.2.symm⟩
      exact ((hw.of_eq hsame rfl).mark b dir' _ e).of_eq rfl rfl
  mmap := by
    intro s s' kind t arg_name ref port hs h herr
    obtain rfl := bind_mmap_ok h
    exact (hs herr).of_eq (by simp [set_arg, advance]) rfl
  seq := by
    intro s s' type t key port hs h herr
    obtain ⟨_, rfl⟩ := bind_seq_ok h
    exact (hs herr).of_eq rfl rfl
  report := fun s d hs herr => absurd herr (by simp [report])
  name := fun _ _ _ hs herr => (hs herr).of_eq rfl rfl
  push := fun _ _ _ hs herr => (hs herr).of_eq rfl rfl

end TaskModel

/-- The streams that a body declares have entries for their elements. -/
theorem Body.isSome_collect_stream_decls {b : Body} {name : Str} {length depth : Nat}
    (h : (name, Decl.streams length depth) ∈ b.names) {i : Nat} (hi : i < length) :
    b.collect_stream_decls[array_name_at name i]?.isSome = true := by
  have hkeeps : ∀ (l : List Nat) (m : Ir.BTreeMap Str StreamDecl) (a base : Str) (d : StreamDecl),
      m[a]?.isSome = true → (l.foldl (fun m (i : Nat) =>
        m.insert (array_name_at base i) d) m)[a]?.isSome = true := by
    intro l m a base d hm
    exact List.foldlRecOn (motive := fun m => m[a]?.isSome = true) l _ hm
      fun m hm i _ => Ir.isSome_get_insert.mpr (.inr hm)
  have hmakes : ∀ (l : List Nat) (m : Ir.BTreeMap Str StreamDecl) (d : StreamDecl), i ∈ l →
      (l.foldl (fun m (i : Nat) => m.insert (array_name_at name i) d)
        m)[array_name_at name i]?.isSome = true := by
    intro l m d hmem
    obtain ⟨xs, ys, rfl⟩ := append_of_mem hmem
    rw [foldl_append]
    exact hkeeps ys _ _ name d (Ir.isSome_get_insert.mpr (.inl rfl))
  obtain ⟨xs, ys, hxs⟩ := append_of_mem h
  unfold Body.collect_stream_decls
  rw [hxs, foldl_append]
  refine List.foldlRecOn (motive := fun m => m[array_name_at name i]?.isSome = true) ys _
    (hmakes _ _ _ (mem_range.mpr hi)) ?_
  rintro m hm ⟨base, d⟩ _
  cases d with
  | stream depth => exact Ir.isSome_get_insert.mpr (.inr hm)
  | streams length depth => exact hkeeps _ m _ _ _ hm
  | _ => exact hm

/-! ## Records -/

def Arg.wire : Arg → Wire
  | .named arg _ => .named arg
  | .constant value _ => .constant value

/-- The ports of an instance are recorded as connected in a list, where a later
connection of a port takes the place of an earlier one. -/
def Instance.Records (inst : Instance) (ws : List (Str × Wire)) : Prop :=
  ∀ port, inst.args[port]?.map Arg.wire = ws.reverse.lookup port

/-- An instance of the task `t` while its arguments are bound. -/
structure TaskModel.Binding (s : TaskModel) (before : Str → List Instance) (t : Str)
    (ws : List (Str × Wire)) (c : Cursors) : Prop where
  current : ∃ inst, s.instances t = before t ++ [inst] ∧ inst.Records ws
  others : ∀ t', t' ≠ t → s.instances t' = before t'
  pos : ∀ acc name, '[' ∉ name → s.pos acc name = c acc name

namespace TaskModel

variable {s : TaskModel} {before : Str → List Instance} {t : Str} {ws : List (Str × Wire)}
  {c : Cursors}

section

variable (h : s.Binding before t ws c)
include h

theorem Binding.set_arg (port : Str) (arg : Arg) :
    (s.set_arg t port arg).Binding before t (ws ++ [(port, arg.wire)]) c := by
  obtain ⟨⟨inst, hinst, hrec⟩, hothers, hpos⟩ := h
  refine ⟨⟨{ inst with args := inst.args.insert port arg }, ?_, ?_⟩, ?_, hpos⟩
  · simp only [TaskModel.set_arg, if_true]
    rw [hinst, modifyLast_concat]
  · intro port'
    rw [Ir.get_insert, reverse_append, reverse_singleton, singleton_append, lookup_cons]
    by_cases heq : port = port'
    · subst heq
      simp
    · rw [if_neg heq, hrec port', beq_eq_false_iff_ne.mpr (Ne.symm heq)]
  · intro t' ht'
    simp only [TaskModel.set_arg, if_neg ht']
    exact hothers t' ht'

theorem Binding.mark (b : Body) (dir : Direction) (a : Str)
    (e : Endpoint) : (s.mark b dir a e).Binding before t ws c := by
  obtain ⟨h1, h2, h3⟩ := h
  exact ⟨by simpa using h1, by simpa using h2, by simpa using h3⟩

theorem Binding.advance (acc : Access) {arg_name : Str} (hname : '[' ∉ arg_name) :
    (s.advance acc arg_name).Binding before t ws (c.add (some (acc, arg_name, 1))) := by
  refine ⟨h.current, h.others, ?_⟩
  intro acc' name' hname'
  simp only [TaskModel.advance, Cursors.add]
  split
  · rename_i heq
    rw [heq.1, heq.2, h.pos acc arg_name hname]
  · exact h.pos acc' name' hname'

/-- The position of an element that is named by its index is no position of an array. -/
theorem Binding.advance_element (acc : Access) {arg_name : Str}
    (hname : '[' ∈ arg_name) : (s.advance acc arg_name).Binding before t ws c := by
  refine ⟨h.current, h.others, ?_⟩
  intro acc' name' hname'
  simp only [TaskModel.advance]
  rw [if_neg]
  · exact h.pos acc' name' hname'
  · rintro ⟨_, rfl⟩
    exact hname' hname

theorem Binding.bind_stream {b : Body} {dir : Direction}
    {name port : Str} {ref : Option Decl} (hname : '[' ∉ name) {s' : TaskModel}
    (hs : s.bind_stream b dir t name ref port = .ok s') : s'.Binding before t
      (ws ++ [(port, .named (array_element name (c (.stream dir) name) ref))])
      (c.add (some (.stream dir, name, 1))) := by
  obtain ⟨e, rfl⟩ := bind_stream_ok hs
  rw [h.pos _ name hname]
  exact ((h.advance _ hname).mark b dir _ e).set_arg port _

/-- The elements of an array that the ports of an array of streams take. -/
theorem Binding.bind_streams {b : Body} {dir : Direction}
    {name port : Str} {ref : Option Decl} (hname : '[' ∉ name) (length : Nat) {s' : TaskModel}
    (hs : (List.range length).foldlM (fun s (j : Nat) =>
      s.bind_stream b dir t name ref (array_name_at port j)) s = .ok s') : s'.Binding before t
      (ws ++ (List.range length).map fun (i : Nat) => (array_name_at port i,
        .named (array_element name (c (.stream dir) name + i) ref)))
      (c.add (some (.stream dir, name, length))) := by
  induction length generalizing s' with
  | zero =>
    cases hs
    rw [c.add_zero]
    simpa using h
  | succ length ih =>
    rw [range_succ, foldlM_snoc_eq_ok] at hs
    obtain ⟨s1, h1, h2⟩ := hs
    have hstep := (ih h1).bind_stream hname h2
    rw [c.add_add, c.add_self] at hstep
    rw [range_succ, map_append, ← append_assoc]
    exact hstep

/-- Binding an argument records what its ports are connected to. -/
theorem Binding.bind_pair {b : Body} (hb : b.Compiles)
    {p : Port × Expr} (hacc : b.has_accessor p.1.kind p.2 = true) {key : Nat × Nat} {number : Nat}
    (hseq : p.2 = .seq → s.seq_pos key = number) {s' : TaskModel}
    (hs : s.bind_pair b t key p = .ok s') (herr : s'.errors = []) :
    s'.Binding before t (ws ++ b.wires .recorded number c p) (c.after p) := by
  obtain ⟨⟨port, kind⟩, e⟩ := p
  cases e with
  | literal text | scalar e => cases kind <;> exact absurd hacc Bool.false_ne_true
  | decl_ref name =>
    have hname := hb.notMem_of_accessor hacc
    cases kind with
    | mmap kind =>
      obtain rfl := bind_mmap_ok hs
      rw [h.pos _ name hname]
      exact (h.advance .mmap hname).set_arg port _
    | stream dir => exact h.bind_stream hname hs
    | streams dir length => exact h.bind_streams hname length hs
    | scalar type => exact absurd hacc Bool.false_ne_true
  | seq =>
    cases kind with
    | scalar type =>
      obtain ⟨hlt, rfl⟩ := bind_seq_ok hs
      rw [hseq rfl] at hlt ⊢
      have hvalue : convert_to_port_type number type = recorded_seq number type := by
        have hbits : ((number : Int) % 2 ^ 64).toNat = number := by omega
        cases type with
        | boolean => simp [convert_to_port_type, recorded_seq, seq_value]
        | integral width => exact congrArg (· % 2 ^ width) hbits
        | floating width convert => simp [convert_to_port_type, recorded_seq, seq_value]
        | other spelling width is_floating convert => exact hbits
      rw [hvalue]
      have hcounted : Binding { s with seq_pos := fun key' =>
          if key' = key then number + 1 else s.seq_pos key' } before t ws c :=
        ⟨h.current, h.others, h.pos⟩
      exact hcounted.set_arg port _
    | _ => exact absurd hacc Bool.false_ne_true
  | subscript base index =>
    cases kind with
    | mmap kind =>
      cases hs
      simp [report] at herr
    | stream dir =>
      obtain ⟨e, rfl⟩ := bind_stream_ok hs
      exact ((h.advance_element _ (mem_array_name_at _ _)).mark b dir _ e).set_arg port _
    | streams dir length | scalar type => exact absurd hacc Bool.false_ne_true

end

end TaskModel

/-! ## Instances -/

/-- The instances of each task record the lanes of its invokes. -/
structure TaskModel.Recorded (s : TaskModel) (b : Body) (st : Lanes) : Prop where
  records : ∀ t, List.Forall₂ (fun inst lane => Instance.Records inst
      (b.lane_wires .recorded lane.number lane.invoke.pairs lane.cursors))
    (s.instances t) (st.lanes.filter fun lane => lane.invoke.callee.task_name = t)
  pos : ∀ acc name, '[' ∉ name → s.pos acc name = st.cursors acc name

namespace TaskModel

variable {s s' : TaskModel} {b : Body} {t : Str}

theorem bind_stream_seq_pos {dir : Direction} {arg_name port : Str} {ref : Option Decl}
    (h : s.bind_stream b dir t arg_name ref port = .ok s') : s'.seq_pos = s.seq_pos := by
  obtain ⟨e, rfl⟩ := bind_stream_ok h
  simp [set_arg, advance]

theorem bind_pair_seq_pos {key key' : Nat × Nat} {p : Port × Expr}
    (h : s.bind_pair b t key p = .ok s') (hkey : key' ≠ key) :
    s'.seq_pos key' = s.seq_pos key' := by
  unfold bind_pair at h
  split at h
  · obtain rfl := bind_mmap_ok h
    rfl
  · cases h
    rfl
  · rw [bind_stream_seq_pos h]
  · rw [bind_stream_seq_pos h]
  · exact congrFun (foldlM_invariant (P := fun _ x => x.seq_pos = s.seq_pos) h rfl
      (fun _ _ _ _ _ hs hj => (bind_stream_seq_pos hj).trans hs)) key'
  · obtain ⟨_, rfl⟩ := bind_seq_ok h
    exact if_neg hkey
  · cases h
    rfl

theorem bind_pair_seq_pos_self {key : Nat × Nat} {p : Port × Expr}
    (hacc : b.has_accessor p.1.kind p.2 = true) (hseq : p.2 = .seq)
    (h : s.bind_pair b t key p = .ok s') : s'.seq_pos key = s.seq_pos key + 1 := by
  obtain ⟨⟨port, kind⟩, e⟩ := p
  obtain rfl : e = .seq := hseq
  cases kind with
  | scalar type =>
    obtain ⟨_, rfl⟩ := bind_seq_ok h
    simp [set_arg]
  | _ => exact absurd hacc Bool.false_ne_true

theorem binding_start_lane {s : TaskModel} {c : Cursors}
    (hpos : ∀ acc name, '[' ∉ name → s.pos acc name = c acc name) (inv : Invoke) (i_vec : Nat) :
    (s.start_lane inv i_vec).Binding s.instances inv.callee.task_name [] c := by
  have hempty : Instance.Records ⟨inv.step, none, ∅⟩ [] := fun port => by simp
  have hpush : (s.push_instance inv.callee.task_name inv.step).Binding s.instances
      inv.callee.task_name [] c := by
    refine ⟨⟨_, by simp [push_instance], hempty⟩, ?_, hpos⟩
    intro t' ht'
    simp [push_instance, ht']
  unfold start_lane
  split
  · exact hpush
  rename_i text _
  obtain ⟨⟨inst, hinst, hrec⟩, hothers, hp⟩ := hpush
  refine ⟨⟨{ inst with name := some (if 1 < inv.vec_length then text ++ '_' :: decimal i_vec
    else text) }, ?_, hrec⟩, ?_, hp⟩
  · simp only [set_name, if_true]
    rw [hinst, modifyLast_concat]
  · intro t' ht'
    simp only [set_name, if_neg ht']
    exact hothers t' ht'

/-- The sequences of an invoke stand at the number of its lane. -/
def SeqsAt (s : TaskModel) (inv : Invoke) (number k : Nat) : Prop :=
  ∀ p i, (p, i) ∈ inv.pairs.zipIdx (1 + inv.name.isSome.toNat) → p.2 = .seq →
    s.seq_pos (number, i) = k

theorem parse_lane_records (hb : b.Compiles) {inv : Invoke} (hinv : inv ∈ b.invokes)
    {number k : Nat} {st : Lanes} (h : parse_lane b inv number s k = .ok s')
    (herr : s'.errors = []) (hs : s.Recorded b st) (hseqs : s.SeqsAt inv number k) :
    s'.Recorded b (st.push inv k) ∧ s'.SeqsAt inv number (k + 1) ∧
      ∀ m, m ≠ number → ∀ i, s'.seq_pos (m, i) = s.seq_pos (m, i) := by
  rw [parse_lane_eq hb hinv] at h
  have hstart : (s.start_lane inv k).seq_pos = s.seq_pos := by
    unfold start_lane
    split <;> rfl
  have hlast := foldlM_invariant
    (P := fun ys x => x.errors = [] →
      x.Binding s.instances inv.callee.task_name
        (b.lane_wires .recorded k (ys.map Prod.fst) st.cursors)
        ((ys.map Prod.fst).foldl Cursors.after st.cursors) ∧
      (∀ p i, (p, i) ∈ inv.pairs.zipIdx (1 + inv.name.isSome.toNat) → p.2 = .seq →
        x.seq_pos (number, i) =
          if i < 1 + inv.name.isSome.toNat + ys.length then k + 1 else k) ∧
      ∀ m, m ≠ number → ∀ i, x.seq_pos (m, i) = s.seq_pos (m, i))
    h ?_ ?_ herr
  · obtain ⟨⟨⟨inst, hinst, hrec⟩, hothers, hpos⟩, hseq, hother⟩ := hlast
    rw [zipIdx_map_fst] at hrec hpos
    refine ⟨⟨?_, hpos⟩, ?_, hother⟩
    · intro t
      unfold Lanes.push
      rw [filter_append]
      by_cases ht : t = inv.callee.task_name
      · subst ht
        rw [hinst]
        refine rel_append (hs.records _) ?_
        simpa using hrec
      · rw [hothers t ht]
        simpa [Ne.symm ht] using hs.records t
    · intro p i hp hpseq
      have hlt := (mem_zipIdx hp).2.1
      rw [hseq p i hp hpseq, if_pos (by simpa using hlt)]
  · intro _
    refine ⟨binding_start_lane hs.pos inv k, ?_, ?_⟩
    · intro p i hp hpseq
      have hle := (mem_zipIdx hp).1
      rw [hstart, hseqs p i hp hpseq, if_neg (by simpa using hle)]
    · intro m _ i
      rw [hstart]
  · rintro ys ⟨p, i⟩ x x' hpre hx hstep herr'
    have hp := hpre.subset (mem_snoc.mpr (.inr rfl))
    obtain ⟨hget, rfl⟩ := zipIdx_turn hpre
    have hacc := (hb.accessors inv hinv p (mem_of_getElem? hget)).1
    have hnone : x.errors = [] := prefix_nil.mp
      (herr' ▸ bind_pair_keeps hb (kept_errors b x.errors) hacc hstep prefix_rfl)
    obtain ⟨hbind, hseq, hother⟩ := hx hnone
    refine ⟨?_, ?_, ?_⟩
    · rw [map_append, Body.lane_wires_append]
      have hk : p.2 = .seq →
          x.seq_pos (number, 1 + inv.name.isSome.toNat + ys.length) = k := by
        intro hpseq
        rw [hseq _ _ hp hpseq, if_neg (by omega)]
      have hnow := hbind.bind_pair hb hacc hk hstep herr'
      simpa [Body.lane_wires] using hnow
    · intro p' i' hp' hpseq'
      by_cases hi : i' = 1 + inv.name.isSome.toNat + ys.length
      · subst hi
        have hget' := (mk_mem_zipIdx_iff_le_and_getElem?_sub.mp hp').2
        rw [Nat.add_sub_cancel_left, hget] at hget'
        cases hget'
        rw [bind_pair_seq_pos_self hacc hpseq' hstep, hseq _ _ hp hpseq', if_neg (by omega),
          if_pos (by simp)]
      · rw [bind_pair_seq_pos hstep (by simp [hi]), hseq p' i' hp' hpseq']
        simp only [length_append, length_singleton]
        split <;> split <;> omega
    · intro m hm i'
      rw [← hother m hm i', bind_pair_seq_pos hstep (by simp [hm])]

theorem parse_lanes_records (hb : b.Compiles) {inv : Invoke} (hinv : inv ∈ b.invokes)
    {number : Nat} {st : Lanes} (hs : s.Recorded b st) (hseqs : s.SeqsAt inv number 0) (n : Nat)
    (h : (List.range n).foldlM (parse_lane b inv number) s = .ok s') (herr : s'.errors = []) :
    s'.Recorded b ((List.range n).foldl (fun st k => st.push inv k) st) ∧
      s'.SeqsAt inv number n ∧ ∀ m, m ≠ number → ∀ i, s'.seq_pos (m, i) = s.seq_pos (m, i) := by
  induction n generalizing s' with
  | zero =>
    cases h
    exact ⟨hs, hseqs, fun _ _ _ => rfl⟩
  | succ n ih =>
    rw [range_succ, foldlM_snoc_eq_ok] at h
    obtain ⟨s1, h1, h2⟩ := h
    have hnone : s1.errors = [] := prefix_nil.mp
      (herr ▸ parse_lane_keeps hb (kept_errors b s1.errors) hinv h2 prefix_rfl)
    obtain ⟨hrec, hseq, hother⟩ := ih h1 hnone
    obtain ⟨hrec', hseq', hother'⟩ := parse_lane_records hb hinv h2 herr hrec hseq
    rw [range_succ, foldl_append]
    exact ⟨hrec', hseq', fun m hm i => (hother' m hm i).trans (hother m hm i)⟩

/-- The invokes of a body are recorded lane by lane. -/
theorem parse_invocations_records (hb : b.Compiles) (h : parse_invocations b s = .ok s')
    (herr : s'.errors = []) (hs : s.Recorded b ⟨[], fun _ _ => 0⟩)
    (hseqs : ∀ key, s.seq_pos key = 0) :
    s'.Recorded b b.lanes := by
  have hlast := foldlM_invariant
    (P := fun ys x => x.errors = [] →
      x.Recorded b ((ys.map Prod.fst).foldl Lanes.invoke ⟨[], fun _ _ => 0⟩) ∧
      ∀ m, ys.length ≤ m → ∀ i, x.seq_pos (m, i) = 0)
    h (fun _ => ⟨hs, fun m _ i => hseqs (m, i)⟩) ?_ herr
  · rw [zipIdx_map_fst] at hlast
    exact hlast.1
  · rintro ys ⟨inv, number⟩ x x' hpre hx hstep herr'
    obtain ⟨hget, hnumber⟩ := zipIdx_turn hpre
    have hinv := mem_of_getElem? hget
    obtain rfl := hnumber.trans (Nat.zero_add _)
    have hnone : x.errors = [] := prefix_nil.mp
      (herr' ▸ foldlM_invariant (P := fun _ y => x.errors <+: y.errors) hstep prefix_rfl
        (fun _ _ _ _ _ hy hlane =>
          parse_lane_keeps hb (kept_errors b x.errors) hinv hlane hy))
    obtain ⟨hrec, hfresh⟩ := hx hnone
    obtain ⟨hrec', _, hother⟩ := parse_lanes_records hb hinv hrec
      (fun p i _ _ => hfresh ys.length (Nat.le_refl _) i) inv.vec_length hstep herr'
    refine ⟨?_, ?_⟩
    · rw [map_append, foldl_append]
      exact hrec'
    · intro m hm i
      rw [length_append, length_singleton] at hm
      rw [hother m (by omega) i]
      exact hfresh m (by omega) i

theorem errors_isPrefix_validate (s : TaskModel) : s.errors <+: s.validate_streams.errors := by
  unfold validate_streams
  refine List.foldlRecOn (motive := fun x : TaskModel => s.errors <+: x.errors) _ _ prefix_rfl ?_
  rintro x hx ⟨a, d⟩ _
  split
  · split
    · exact hx
    · exact hx.trans (prefix_append _ _)
    · exact hx.trans (prefix_append _ _)
    · exact hx
  · exact hx

theorem validate_streams_instances (s : TaskModel) :
    s.validate_streams.instances = s.instances := by
  unfold validate_streams
  refine List.foldlRecOn (motive := fun x : TaskModel => x.instances = s.instances) _ _ rfl ?_
  rintro x hx ⟨a, d⟩ _
  split
  · split <;> exact hx
  · exact hx

end TaskModel

/-- A body without errors: its instances record its lanes, and no watched array is taken
around. -/
theorem Body.Compiles.parse_upper_task_records {b : Body} (hb : b.Compiles) {m : TaskModel}
    (h : b.parse_upper_task = .ok m) (herr : m.errors = []) :
    (∀ t, List.Forall₂ (fun inst lane => Instance.Records inst
        (b.lane_wires .recorded lane.number lane.invoke.pairs lane.cursors))
      (m.instances t) (b.lanes.lanes.filter fun lane => lane.invoke.callee.task_name = t)) ∧
    ∀ name d dir length, b.decl name = some d → b.watches d = true →
      d.channels dir = some length → 0 < length →
      b.lanes.cursors (.stream dir) name ≤ length := by
  obtain ⟨s, hs, h⟩ := bind_eq_ok.mp h
  cases h
  have hnone : s.errors = [] := prefix_nil.mp (herr ▸ s.errors_isPrefix_validate)
  have hrec := TaskModel.parse_invocations_records hb hs hnone
    ⟨fun t => List.Forall₂.nil, fun _ _ _ => rfl⟩ (fun _ => rfl)
  refine ⟨?_, ?_⟩
  · rw [s.validate_streams_instances]
    exact hrec.records
  · intro name d dir length hd hwatch hch hpos
    have hname := hb.notMem_of_decl hd
    have hmem : (name, d) ∈ b.names := by
      obtain ⟨l₁, l₂, heq, _⟩ := lookup_eq_some_iff.mp hd
      simp [heq]
    have hw := TaskModel.parse_invocations_keeps hb
      (TaskModel.kept_watched hname hd hwatch hch hpos) hs ?_ hnone
    · rw [← hrec.pos _ name hname]
      exact hw.within
    · intro _
      refine ⟨Nat.zero_le _, fun i hi => absurd hi (Nat.not_lt_zero i), ?_⟩
      rintro depth rfl i hi
      exact Body.isSome_collect_stream_decls hmem hi

end Tapa.Frontend
