-- The invokes of an upper task in the software simulation (`host/task.h`, `stream.h`,
-- `mmap.h`): each array object hands out its channels at a cursor of its own, and the
-- accessors check it against the number of channels.
import Tapa.InvokeParser

namespace Tapa.Frontend

open Text Fallible

/-! ## Accessors -/

/-- What a parameter is connected to: a channel, by its name, or the bits of a value. -/
inductive Wire where
  | named (channel : Str)
  | constant (bits : Nat)
deriving DecidableEq

/-- The channels that an array hands out in a direction. -/
def Decl.channels (dir : Direction) : Decl → Option Nat
  | .streams length _ => some length
  | .ports d length => if d = dir then some length else none
  | _ => none

/-- The cursors of the objects: a `streams` object has one for each direction, an
`istreams`, `ostreams` or `mmaps` object has one. -/
abbrev Cursors := Access → Str → Nat

def Cursors.advance (c : Cursors) (acc : Access) (name : Str) : Cursors :=
  fun acc' name' => if acc' = acc ∧ name' = name then c acc' name' + 1 else c acc' name'

inductive Abort where
  | accessed_beyond (name : Str) (times length : Nat)
  | no_element (base : Str) (index : Int)
  | no_accessor
deriving DecidableEq, Repr

/-- The argument of an invoke: an object, an element of an array, or a `tapa::seq`, which
lives as long as the invoke and counts. -/
inductive Value where
  | object (name : Str)
  | element (base : Str) (index : Int)
  | seq (pos : Nat)
deriving DecidableEq

/-- The argument as the invoke gets it; a subscript is checked. -/
def Body.eval (b : Body) : Expr → Except Abort Value
  | .decl_ref name => .ok (.object name)
  | .subscript base index =>
    match (b.decl base).bind Decl.length with
    | some length =>
      if 0 ≤ index.value ∧ index.value < length then .ok (.element base index.value)
      else .error (.no_element base index.value)
    | none => .error .no_accessor
  | .seq => .ok (.seq 0)
  | .literal _ | .scalar _ => .error .no_accessor

/-- The next channel of an array of streams; its cursor moves on. -/
def Body.access_next (b : Body) (dir : Direction) (name : Str) (c : Cursors) :
    Except Abort (Str × Cursors) :=
  match (b.decl name).bind (Decl.channels dir) with
  | some length =>
    if c (.stream dir) name < length then
      .ok (array_name_at name (c (.stream dir) name : Nat), c.advance (.stream dir) name)
    else .error (.accessed_beyond name (c (.stream dir) name + 1) length)
  | none => .error .no_accessor

/-- The next channels of an array of streams, as an array of their own. -/
def Body.access_slice (b : Body) (dir : Direction) (name : Str) (port : Str) (length : Nat)
    (c : Cursors) : Except Abort (List (Str × Wire) × Cursors) :=
  (List.range length).foldlM (fun st (i : Nat) => do
    let r ← b.access_next dir name st.2
    pure (st.1 ++ [(array_name_at port i, .named r.1)], r.2)) ([], c)

/-- The next element of an array of memories; its cursor wraps around. -/
def Cursors.access_mmap (c : Cursors) (name : Str) (length : Nat) : Except Abort (Str × Cursors) :=
  if length = 0 then .error (.no_element name 0)
  else .ok (array_name_at name (c .mmap name % length : Nat), c.advance .mmap name)

/-- The bits of a parameter that is made from a position; the conversion is that of its type. -/
def seq_value (pos : Nat) : ScalarType → Nat
  | .boolean => if pos ≠ 0 then 1 else 0
  | .integral width => pos % 2 ^ width
  | .floating _ convert | .other _ _ _ convert => convert pos

/-- What a parameter gets of an argument, as its ports are connected; the argument and the
cursors after it. -/
def Body.access (b : Body) (param : Port) (v : Value) (c : Cursors) :
    Except Abort (List (Str × Wire) × Value × Cursors) :=
  match param.kind, v with
  | .mmap _, .object name =>
    match b.decl name with
    | some (.mmap _) => .ok ([(param.name, .named name)], v, c)
    | some (.mmaps length) => do
      let r ← c.access_mmap name length
      pure ([(param.name, .named r.1)], v, r.2)
    | _ => .error .no_accessor
  | .mmap _, .element base index => .ok ([(param.name, .named (array_name_at base index))], v, c)
  | .stream dir, .object name =>
    match b.decl name with
    | some (.stream _) | some (.port _) => .ok ([(param.name, .named name)], v, c)
    | _ => do
      let r ← b.access_next dir name c
      pure ([(param.name, .named r.1)], v, r.2)
  | .stream _, .element base index =>
    .ok ([(param.name, .named (array_name_at base index))], v, c)
  | .streams dir length, .object name => do
    let r ← b.access_slice dir name param.name length c
    pure (r.1, v, r.2)
  | .scalar type, .seq pos =>
    .ok ([(param.name, .constant (seq_value pos type))], .seq (pos + 1), c)
  | _, _ => .error .no_accessor

/-! ## Invokes -/

/-- A call of a task, with what its parameters are connected to. -/
structure Call where
  task : Str
  wires : List (Str × Wire)
deriving DecidableEq

/-- The accessors of one call, from left to right. -/
structure Calling where
  wires : List (Str × Wire)
  values : List Value
  cursors : Cursors

def Body.access_one (b : Body) (st : Calling) (p : Port × Value) : Except Abort Calling := do
  let r ← b.access p.1 p.2 st.cursors
  pure ⟨st.wires ++ r.1, st.values ++ [r.2.1], r.2.2⟩

/-- The state of a run: the calls so far and the cursors. -/
structure Run where
  calls : List Call
  cursors : Cursors

/-- One call of an invoke, with its arguments as the calls before have left them. -/
def Body.call (b : Body) (callee : Callee) (st : Run × List Value) (_ : Nat) :
    Except Abort (Run × List Value) := do
  let r ← (callee.params.zip st.2).foldlM b.access_one ⟨[], [], st.1.cursors⟩
  pure (⟨st.1.calls ++ [⟨callee.task_name, r.wires⟩], r.cursors⟩, r.values)

/-- An invoke: its arguments are evaluated once for all its calls. -/
def Body.invoke (b : Body) (st : Run) (inv : Invoke) : Except Abort Run := do
  let values ← inv.args.mapM b.eval
  let r ← (List.range inv.vec_length).foldlM (b.call inv.callee) (st, values)
  pure r.1

def Body.run (b : Body) : Except Abort Run := b.invokes.foldlM b.invoke ⟨[], fun _ _ => 0⟩

end Tapa.Frontend
