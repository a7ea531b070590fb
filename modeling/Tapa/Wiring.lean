-- The wiring that tapacc records is the one of the software simulation just when the
-- accessors do not run past the end of an array that tapacc does not watch, and the
-- elements of arrays are named by constants.
import Tapa.WiringRecords

namespace Tapa.Frontend

open Text Fallible List Nat

/-! ## Bounds -/

/-- The positions that the accessors can reach. -/
structure Body.Within (b : Body) (c : Cursors) : Prop where
  streams : ∀ name d dir length, b.decl name = some d → Decl.channels dir d = some length →
    c (.stream dir) name ≤ length
  mmaps : ∀ name, b.decl name = some (.mmaps 0) → c .mmap name = 0

theorem Cursors.le_add (c : Cursors) (x : Option (Access × Str × Nat)) (acc : Access)
    (name : Str) : c acc name ≤ c.add x acc name := by
  cases x with
  | none => exact le_refl _
  | some x =>
    simp only [Cursors.add]
    split
    · exact le_add_right _ _
    · exact le_refl _

variable {b : Body}

theorem Body.Within.of_add {c : Cursors} {x : Option (Access × Str × Nat)}
    (h : b.Within (c.add x)) : b.Within c where
  streams := fun name d dir length hd hch =>
    le_trans (c.le_add x _ _) (h.streams name d dir length hd hch)
  mmaps := fun name hd => le_zero.mp (h.mmaps name hd ▸ c.le_add x _ _)

/-- The cursors of the arrays stand at the positions. -/
def Body.StandsAt (b : Body) (h c : Cursors) : Prop :=
  ∀ acc name d, b.decl name = some d → d.length.isSome = true → h acc name = c acc name

namespace Body

variable {b : Body} {h c : Cursors}

variable {name : Str} {d : Decl}

theorem ne_of_single (hd : b.decl name = some d) (hlen : d.length = none) {name' : Str} {d' : Decl}
    (hd' : b.decl name' = some d') (hlen' : d'.length.isSome = true) : name' ≠ name := by
  rintro rfl
  obtain rfl : d' = d := Option.mem_unique hd' hd
  simp [hlen] at hlen'

/-- A channel that is no array has no position. -/
theorem StandsAt.add_single (hh : b.StandsAt h c) (hd : b.decl name = some d)
    (hlen : d.length = none) (acc : Access) (k : Nat) :
    b.StandsAt h (c.add (some (acc, name, k))) := by
  intro acc' name' d' hd' hlen'
  rw [hh acc' name' d' hd' hlen']
  exact (if_neg fun heq => ne_of_single hd hlen hd' hlen' heq.2).symm

/-- Only the position of the array that is taken from can pass its end. -/
theorem within_add (hw : b.Within c) (acc : Access) (name : Str) (k : Nat) :
    b.Within (c.add (some (acc, name, k))) ↔
      (∀ dir, acc = .stream dir → ∀ d, b.decl name = some d → ∀ length,
        d.channels dir = some length → c acc name + k ≤ length) ∧
      (acc = .mmap → b.decl name = some (.mmaps 0) → c acc name + k = 0) := by
  constructor
  · rintro ⟨hs, hm⟩
    refine ⟨?_, ?_⟩
    · rintro dir rfl d hd length hch
      simpa only [c.add_self] using hs name d dir length hd hch
    · rintro rfl hd
      simpa only [c.add_self] using hm name hd
  · rintro ⟨hs, hm⟩
    refine ⟨fun name' d dir length hd hch => ?_, fun name' hd => ?_⟩ <;> simp only [Cursors.add] <;>
      split
    · rename_i heq
      obtain ⟨rfl, rfl⟩ := heq
      exact hs dir rfl d hd length hch
    · exact hw.streams name' d dir length hd hch
    · rename_i heq
      obtain ⟨rfl, rfl⟩ := heq
      exact hm rfl hd
    · exact hw.mmaps name' hd

theorem Within.add_single (hw : b.Within c) (hd : b.decl name = some d) (hlen : d.length = none)
    (acc : Access) (k : Nat) : b.Within (c.add (some (acc, name, k))) := by
  refine (within_add hw acc name k).mpr ⟨fun dir _ d' hd' length hch => ?_, fun _ hd' => ?_⟩
  · exact (ne_of_single hd hlen hd' (by rw [TaskModel.length_of_channels hch]; rfl) rfl).elim
  · exact (ne_of_single hd hlen hd' rfl rfl).elim

theorem StandsAt.advance (hh : b.StandsAt h c) (acc : Access) (name : Str) :
    b.StandsAt (h.advance acc name) (c.add (some (acc, name, 1))) := by
  intro acc' name' d' hd' hlen'
  simp only [Cursors.advance, Cursors.add, hh acc' name' d' hd' hlen']

variable {dir : Direction} {length : Nat}

/-! ## Accessors -/

section

variable (hh : b.StandsAt h c)
include hh

section

variable (hw : b.Within c)
include hw

/-- An accessor succeeds just where the position stays within the array. -/
theorem access_next_settles (hd : b.decl name = some d) (hch : d.channels dir = some length) :
    Settles (b.access_next dir name h) (b.Within (c.add (some (.stream dir, name, 1))))
      (fun r => r.1 = array_element name (c (.stream dir) name) (b.decl name) ∧
        b.StandsAt r.2 (c.add (some (.stream dir, name, 1)))) := by
  have hlen := TaskModel.length_of_channels hch
  have hpos : h (.stream dir) name = c (.stream dir) name :=
    hh _ name d hd (by rw [hlen]; rfl)
  have hiff : b.Within (c.add (some (.stream dir, name, 1))) ↔ c (.stream dir) name < length := by
    rw [within_add hw]
    simp [hd, hch]
  unfold Body.access_next
  rw [hd, Option.bind_some, hch, hpos, hiff]
  dsimp only
  by_cases hlt : c (.stream dir) name < length
  · rw [if_pos hlt]
    refine ⟨hlt, ?_, hh.advance _ name⟩
    rw [TaskModel.array_element_eq hlen (zero_lt_of_lt hlt), mod_eq_of_lt hlt]
  · rwa [if_neg hlt]

theorem access_slice_settles (hd : b.decl name = some d)
    (hch : d.channels dir = some length) (port : Str) (n : Nat) :
    Settles (b.access_slice dir name port n h) (b.Within (c.add (some (.stream dir, name, n))))
      (fun r => r.1 = (List.range n).map (fun (i : Nat) => (array_name_at port i,
          Wire.named (array_element name (c (.stream dir) name + i) (b.decl name)))) ∧
        b.StandsAt r.2 (c.add (some (.stream dir, name, n)))) := by
  induction n with
  | zero =>
    rw [c.add_zero]
    exact ⟨hw, rfl, hh⟩
  | succ n ih =>
    unfold Body.access_slice at ih ⊢
    rw [range_succ, foldlM_append, ← c.add_add]
    refine ih.bind Within.of_add ?_
    rintro ⟨ws, h'⟩ hw' ⟨rfl, hh'⟩
    rw [foldlM_cons]
    simp only [foldlM_nil, bind_pure]
    refine (access_next_settles hh' hw' hd hch).bind id ?_
    rintro ⟨a, h''⟩ hw'' ⟨rfl, hh''⟩
    refine ⟨hw'', ?_, hh''⟩
    rw [map_append, c.add_self]
    rfl

/-- The argument of an invoke before the call of a number. -/
def valueAt (k : Nat) : Expr → Value
  | .decl_ref name => .object name
  | .subscript base index => .element base index.value
  | .seq => .seq k
  | .literal text => .object text
  | .scalar _ => .object []

/-- What a parameter gets, if the positions stay within the arrays. -/
def Gets (b : Body) (k : Nat) (c : Cursors) (p : Port × Expr)
    (r : List (Str × Wire) × Value × Cursors) : Prop :=
  r.1 = b.wires .run k c p ∧ r.2.1 = valueAt (k + 1) p.2 ∧ b.StandsAt r.2.2 (c.after p)

variable {port : Str}

theorem access_mmap_settles (kind : MmapKind)
    (hacc : b.has_accessor (.mmap kind) (.decl_ref name) = true) (k : Nat) :
    Settles (b.access ⟨port, .mmap kind⟩ (.object name) h)
      (b.Within (c.after (⟨port, .mmap kind⟩, .decl_ref name)))
      (b.Gets k c (⟨port, .mmap kind⟩, .decl_ref name)) := by
  have hafter : c.after (⟨port, .mmap kind⟩, .decl_ref name) = c.add (some (.mmap, name, 1)) := rfl
  rw [hafter]
  simp only [Body.access]
  cases hd : b.decl name with
  | none => simp [Body.has_accessor, hd] at hacc
  | some d =>
    cases d with
    | mmap kind' =>
      refine ⟨hw.add_single hd rfl _ 1, ?_, rfl, hh.add_single hd rfl _ 1⟩
      simp [wires, array_element, hd, Decl.length]
    | mmaps length =>
      unfold Cursors.access_mmap
      by_cases hzero : length = 0
      · subst hzero
        intro hwithin
        have := hwithin.mmaps name hd
        rw [c.add_self] at this
        omega
      · dsimp only
        rw [if_neg hzero]
        refine ⟨(within_add hw _ _ _).mpr ?_, ?_, rfl, hh.advance .mmap name⟩
        · simp [hd, hzero]
        · have hpos := hh .mmap name _ hd rfl
          have hlen : (Decl.mmaps length).length = some length := rfl
          simp [wires, hd, hpos, TaskModel.array_element_eq hlen (Nat.pos_of_ne_zero hzero)]
    | _ => simp [Body.has_accessor, hd] at hacc

theorem access_stream_settles (dir : Direction)
    (hacc : b.has_accessor (.stream dir) (.decl_ref name) = true) (k : Nat) :
    Settles (b.access ⟨port, .stream dir⟩ (.object name) h)
      (b.Within (c.after (⟨port, .stream dir⟩, .decl_ref name)))
      (b.Gets k c (⟨port, .stream dir⟩, .decl_ref name)) := by
  have hsingle : ∀ d, b.decl name = some d → d.length = none →
      Settles (.ok ([(port, Wire.named name)], Value.object name, h) : Except Abort _)
        (b.Within (c.add (some (.stream dir, name, 1))))
        (b.Gets k c (⟨port, .stream dir⟩, .decl_ref name)) := by
    intro d hd hlen
    refine ⟨hw.add_single hd hlen _ 1, ?_, rfl, hh.add_single hd hlen _ 1⟩
    simp [wires, array_element, hd, hlen]
  have harray : ∀ d length, b.decl name = some d → d.channels dir = some length →
      Settles (do
        let r ← b.access_next dir name h
        pure ([(port, Wire.named r.1)], Value.object name, r.2))
        (b.Within (c.add (some (.stream dir, name, 1))))
        (b.Gets k c (⟨port, .stream dir⟩, .decl_ref name)) := by
    intro d length hd hch
    refine (access_next_settles hh hw hd hch).bind id ?_
    rintro ⟨a, h'⟩ hw' ⟨rfl, hh'⟩
    exact ⟨hw', rfl, rfl, hh'⟩
  simp only [Body.access]
  cases hd : b.decl name with
  | none => simp [Body.has_accessor, hd] at hacc
  | some d =>
    cases d with
    | stream depth | port dir' => exact hsingle _ hd rfl
    | streams length depth => exact harray _ length hd rfl
    | ports dir' length =>
      obtain rfl : dir' = dir := by simpa [Body.has_accessor, hd] using hacc
      exact harray _ length hd (if_pos rfl)
    | _ => simp [Body.has_accessor, hd] at hacc

theorem access_streams_settles (dir : Direction) (n : Nat)
    (hacc : b.has_accessor (.streams dir n) (.decl_ref name) = true) (k : Nat) :
    Settles (b.access ⟨port, .streams dir n⟩ (.object name) h)
      (b.Within (c.after (⟨port, .streams dir n⟩, .decl_ref name)))
      (b.Gets k c (⟨port, .streams dir n⟩, .decl_ref name)) := by
  have hchannels : ∃ d length, b.decl name = some d ∧ d.channels dir = some length := by
    cases hd : b.decl name with
    | none => simp [Body.has_accessor, hd] at hacc
    | some d =>
      cases d with
      | streams length depth => exact ⟨_, length, rfl, rfl⟩
      | ports dir' length =>
        obtain rfl : dir' = dir := by simpa [Body.has_accessor, hd] using hacc
        exact ⟨_, length, rfl, if_pos rfl⟩
      | _ => simp [Body.has_accessor, hd] at hacc
  obtain ⟨d, length, hd, hch⟩ := hchannels
  refine (access_slice_settles hh hw hd hch port n).bind id ?_
  rintro ⟨ws, h'⟩ hw' ⟨rfl, hh'⟩
  exact ⟨hw', rfl, rfl, hh'⟩

theorem access_settles {p : Port × Expr} (hacc : b.has_accessor p.1.kind p.2 = true) (k : Nat) :
    Settles (b.access p.1 (valueAt k p.2) h) (b.Within (c.after p)) (b.Gets k c p) := by
  obtain ⟨⟨port, kind⟩, e⟩ := p
  cases e with
  | literal text | scalar e => cases kind <;> exact absurd hacc Bool.false_ne_true
  | decl_ref name =>
    cases kind with
    | mmap kind => exact access_mmap_settles hh hw kind hacc k
    | stream dir => exact access_stream_settles hh hw dir hacc k
    | streams dir n => exact access_streams_settles hh hw dir n hacc k
    | scalar type => exact absurd hacc Bool.false_ne_true
  | seq =>
    cases kind with
    | scalar type => exact ⟨hw, rfl, rfl, hh⟩
    | _ => exact absurd hacc Bool.false_ne_true
  | subscript base index =>
    cases kind with
    | mmap kind | stream dir => exact ⟨hw, rfl, rfl, hh⟩
    | _ => exact absurd hacc Bool.false_ne_true

end

end

/-! ## Calls -/

theorem Within.of_after {ps : List (Port × Expr)} (h : b.Within (ps.foldl Cursors.after c)) :
    b.Within c :=
  of_foldl (W := b.Within) (fun _ _ h => h.of_add) h

/-- The accessors of a call. -/
theorem access_all_settles (hh : b.StandsAt h c) (hw : b.Within c) (ps : List (Port × Expr))
    (hacc : ∀ p ∈ ps, b.has_accessor p.1.kind p.2 = true) (k : Nat) :
    Settles (ps.foldlM (fun st p => b.access_one st (p.1, valueAt k p.2)) ⟨[], [], h⟩)
      (b.Within (ps.foldl Cursors.after c))
      (fun r => r.wires = b.lane_wires .run k ps c ∧
        r.values = ps.map (fun p => valueAt (k + 1) p.2) ∧
        b.StandsAt r.cursors (ps.foldl Cursors.after c)) := by
  refine foldlM_settles_of_prefix (W := fun qs => b.Within (qs.foldl Cursors.after c))
    (P := fun qs (r : Calling) => r.wires = b.lane_wires .run k qs c ∧
      r.values = qs.map (fun p => valueAt (k + 1) p.2) ∧
      b.StandsAt r.cursors (qs.foldl Cursors.after c)) ?_ hw ⟨rfl, rfl, hh⟩ ?_
  · rintro qs ⟨rest, rfl⟩ hall
    rw [foldl_append] at hall
    exact hall.of_after
  · rintro qs p ⟨ws, vs, h'⟩ hpre hw' ⟨rfl, rfl, hh'⟩
    rw [foldl_append]
    refine (access_settles hh' hw' (hacc p (hpre.subset (by simp))) k).bind id ?_
    rintro ⟨ws', v', h''⟩ hw'' ⟨rfl, rfl, hh''⟩
    exact ⟨hw'', by simp [lane_wires_append, lane_wires], by simp, hh''⟩

def callOf (b : Body) (lane : Lane) : Call :=
  ⟨lane.invoke.callee.task_name,
    b.lane_wires .run lane.number lane.invoke.pairs lane.cursors⟩

variable {st : Lanes} {inv : Invoke}

theorem Within.of_push {ns : List Nat}
    (h : b.Within (ns.foldl (fun st k => st.push inv k) st).cursors) : b.Within st.cursors :=
  of_foldl (W := fun st : Lanes => b.Within st.cursors) (fun _ _ h => h.of_after) h

/-- The state of a run, after some lanes. -/
def Ran (b : Body) (st : Lanes) (r : Run) : Prop :=
  r.calls = st.lanes.map b.callOf ∧ b.StandsAt r.cursors st.cursors

variable {r : Run}

theorem call_settles (hb : b.Compiles) (hinv : inv ∈ b.invokes) (hr : b.Ran st r)
    (hw : b.Within st.cursors) (k : Nat) :
    Settles (b.call inv.callee (r, inv.args.map (valueAt k)) k)
      (b.Within (st.push inv k).cursors)
      (fun r' => b.Ran (st.push inv k) r'.1 ∧ r'.2 = inv.args.map (valueAt (k + 1))) := by
  have hzip : inv.callee.params.zip (inv.args.map (valueAt k)) =
      inv.pairs.map fun p => (p.1, valueAt k p.2) := by
    rw [zip_map_right]
    rfl
  have hargs : inv.pairs.map Prod.snd = inv.args :=
    map_snd_zip (le_of_eq (hb.arity inv hinv))
  unfold Body.call
  dsimp only
  rw [hzip, foldlM_map]
  refine (access_all_settles hr.2 hw inv.pairs (fun p hp => (hb.accessors inv hinv p hp).1)
    k).bind id ?_
  rintro ⟨ws, vs, h'⟩ hw' ⟨rfl, rfl, hh'⟩
  refine ⟨hw', ⟨?_, hh'⟩, ?_⟩
  · simp [Lanes.push, callOf, hr.1]
  · rw [← hargs, map_map]
    rfl

theorem calls_settles (hb : b.Compiles) (hinv : inv ∈ b.invokes) (hr : b.Ran st r)
    (hw : b.Within st.cursors) (n : Nat) :
    Settles ((List.range n).foldlM (b.call inv.callee) (r, inv.args.map (valueAt 0)))
      (b.Within ((List.range n).foldl (fun st k => st.push inv k) st).cursors)
      (fun r' => b.Ran ((List.range n).foldl (fun st k => st.push inv k) st) r'.1 ∧
        r'.2 = inv.args.map (valueAt n)) := by
  induction n with
  | zero => exact ⟨hw, hr, rfl⟩
  | succ n ih =>
    rw [range_succ, foldlM_append, foldl_append]
    refine ih.bind (fun h => h.of_after) ?_
    rintro ⟨r', vs⟩ hw' ⟨hr', rfl⟩
    rw [foldlM_cons]
    simp only [foldlM_nil, bind_pure]
    exact call_settles hb hinv hr' hw' n

/-- Every subscript of an invoke names an element of its array. -/
def InRange (b : Body) (inv : Invoke) : Prop :=
  ∀ base index, Expr.subscript base index ∈ inv.args →
    ∃ length, (b.decl base).bind Decl.length = some length ∧
      0 ≤ index.value ∧ index.value < (length : Int)

theorem eval_settles {es : List Expr} (hlit : ∀ text, Expr.literal text ∉ es)
    (hscalar : ∀ e, Expr.scalar e ∉ es) :
    Settles (es.mapM b.eval)
      (∀ base index, Expr.subscript base index ∈ es →
        ∃ length, (b.decl base).bind Decl.length = some length ∧
          0 ≤ index.value ∧ index.value < (length : Int))
      (fun vs => vs = es.map (valueAt 0)) := by
  induction es with
  | nil => exact ⟨fun base index h => (not_mem_nil h).elim, rfl⟩
  | cons e es ih =>
    have hone : Settles (b.eval e) (∀ base index, e = .subscript base index →
        ∃ length, (b.decl base).bind Decl.length = some length ∧
          0 ≤ index.value ∧ index.value < (length : Int)) (fun v => v = valueAt 0 e) := by
      cases e with
      | literal text => exact absurd mem_cons_self (hlit text)
      | scalar e => exact absurd mem_cons_self (hscalar e)
      | decl_ref name | seq => exact ⟨fun _ _ heq => (Expr.noConfusion heq), rfl⟩
      | subscript base index =>
        cases hlen : (b.decl base).bind Decl.length with
        | none =>
          simp only [Body.eval, hlen]
          intro h
          obtain ⟨length, hl, _⟩ := h base index rfl
          rw [hlen] at hl
          cases hl
        | some length =>
          simp only [Body.eval, hlen]
          by_cases hin : 0 ≤ index.value ∧ index.value < (length : Int)
          · rw [if_pos hin]
            refine ⟨?_, rfl⟩
            intro base' index' heq
            obtain ⟨rfl, rfl⟩ := Expr.subscript.inj heq
            exact ⟨length, hlen, hin⟩
          · rw [if_neg hin]
            intro h
            obtain ⟨length', hl, hin'⟩ := h base index rfl
            obtain rfl : length = length' := Option.mem_unique hlen hl
            exact hin hin'
    rw [mapM_cons]
    refine hone.bind (fun h base index heq => h base index (heq ▸ mem_cons_self)) ?_
    rintro v hv rfl
    refine (ih (fun text h => hlit text (mem_cons_of_mem e h))
      (fun e' h => hscalar e' (mem_cons_of_mem e h))).bind
      (fun h base index hmem => h base index (mem_cons_of_mem e hmem)) ?_
    rintro vs hvs rfl
    refine ⟨?_, rfl⟩
    intro base index hmem
    rcases mem_cons.mp hmem with heq | hmem
    · exact hv base index heq.symm
    · exact hvs base index hmem

theorem invoke_settles (hb : b.Compiles) (hinv : inv ∈ b.invokes) (hr : b.Ran st r)
    (hw : b.Within st.cursors) :
    Settles (b.invoke r inv) (b.InRange inv ∧ b.Within (st.invoke inv).cursors)
      (b.Ran (st.invoke inv)) := by
  have hnone : ∀ e, (∀ kind, b.has_accessor kind e = false) → e ∉ inv.args := by
    intro e hfalse hmem
    rw [← map_snd_zip (le_of_eq (hb.arity inv hinv)), mem_map] at hmem
    obtain ⟨⟨p, e⟩, hp, rfl⟩ := hmem
    exact absurd (hb.accessors inv hinv _ hp).1 (by rw [hfalse]; exact Bool.false_ne_true)
  have hlit : ∀ text, Expr.literal text ∉ inv.args :=
    fun text => hnone _ fun kind => by cases kind <;> rfl
  have hscalar : ∀ e, Expr.scalar e ∉ inv.args :=
    fun e => hnone _ fun kind => by cases kind <;> rfl
  unfold Body.invoke
  refine (eval_settles hlit hscalar).bind And.left ?_
  rintro vs hin rfl
  refine (calls_settles hb hinv hr hw inv.vec_length).bind And.right ?_
  rintro ⟨r', vs⟩ hw' ⟨hr', _⟩
  exact ⟨⟨hin, hw'⟩, hr'⟩

/-- The software simulation runs through just when the positions stay within the arrays and
every subscript names an element, and then makes the calls of the lanes. -/
theorem run_settles (hb : b.Compiles) :
    Settles b.run ((∀ inv ∈ b.invokes, b.InRange inv) ∧ b.Within b.lanes.cursors)
      (b.Ran b.lanes) := by
  refine foldlM_settles_of_prefix
    (W := fun invs => (∀ inv ∈ invs, b.InRange inv) ∧
      b.Within (invs.foldl Lanes.invoke ⟨[], fun _ _ => 0⟩).cursors)
    (P := fun invs => b.Ran (invs.foldl Lanes.invoke ⟨[], fun _ _ => 0⟩)) ?_
    ⟨by simp, fun _ _ _ _ _ _ => zero_le _, fun _ _ => rfl⟩ ⟨rfl, fun _ _ _ _ _ => rfl⟩ ?_
  · rintro invs hpre ⟨hin, hw⟩
    refine ⟨fun inv hinv => hin inv (hpre.subset hinv), ?_⟩
    obtain ⟨rest, hrest⟩ := hpre
    rw [← hrest, foldl_append] at hw
    exact of_foldl (W := fun st : Lanes => b.Within st.cursors) (fun _ _ h => h.of_push) hw
  · rintro invs inv r hpre ⟨hin, hw⟩ hr
    rw [foldl_append]
    refine (invoke_settles hb (hpre.subset (by simp)) hr hw).congr ?_
    simp +contextual [or_imp, hin]

/-! ## What a body takes -/

end Body

/-- How many elements of an array one call of an invoke takes. -/
def Invoke.taken (inv : Invoke) (acc : Access) (name : Str) : Nat :=
  (inv.pairs.map fun p => match p.2.takes p.1.kind with
    | some (acc', name', k) => if acc = acc' ∧ name = name' then k else 0
    | none => 0).sum

def Body.taken (b : Body) (acc : Access) (name : Str) : Nat :=
  (b.invokes.map fun inv => inv.vec_length * inv.taken acc name).sum

theorem Invoke.foldl_after (inv : Invoke) (c : Cursors) (acc : Access) (name : Str) :
    inv.pairs.foldl Cursors.after c acc name = c acc name + inv.taken acc name := by
  unfold Invoke.taken
  induction inv.pairs generalizing c with
  | nil => rfl
  | cons p ps ih =>
    rw [foldl_cons, ih, map_cons, sum_cons, ← add_assoc]
    unfold Cursors.after Cursors.add
    cases p.2.takes p.1.kind with
    | none => rfl
    | some x =>
      dsimp only
      split <;> rfl

theorem Lanes.cursors_invoke (st : Lanes) (inv : Invoke) (acc : Access) (name : Str) :
    (st.invoke inv).cursors acc name =
      st.cursors acc name + inv.vec_length * inv.taken acc name := by
  unfold Lanes.invoke
  induction inv.vec_length with
  | zero => simp
  | succ n ih =>
    rw [range_succ, foldl_append, succ_mul, ← add_assoc, ← ih]
    exact inv.foldl_after _ acc name

theorem Body.cursors_lanes (b : Body) (acc : Access) (name : Str) :
    b.lanes.cursors acc name = b.taken acc name := by
  have hgen : ∀ (invs : List Invoke) (st : Lanes), (invs.foldl Lanes.invoke st).cursors acc name =
      st.cursors acc name + (invs.map fun inv => inv.vec_length * inv.taken acc name).sum := by
    intro invs
    induction invs with
    | nil => exact fun st => rfl
    | cons inv invs ih =>
      intro st
      rw [foldl_cons, ih, st.cursors_invoke, map_cons, sum_cons, add_assoc]
  exact (hgen b.invokes _).trans (zero_add _)

/-- The lanes of an invoke: one for each number. -/
theorem Lanes.lanes_invoke (st : Lanes) (inv : Invoke) : ∃ ls,
    (st.invoke inv).lanes = st.lanes ++ ls ∧ (∀ lane ∈ ls, lane.invoke = inv) ∧
      ls.map Lane.number = List.range inv.vec_length := by
  unfold Lanes.invoke
  induction inv.vec_length with
  | zero => exact ⟨[], by simp, fun lane h => (not_mem_nil h).elim, rfl⟩
  | succ n ih =>
    obtain ⟨ls, hls, hinv, hnum⟩ := ih
    rw [range_succ, foldl_append, foldl_cons, Lanes.push, hls]
    refine ⟨ls ++ [_], append_assoc _ _ _, forall_mem_snoc.mpr ⟨hinv, rfl⟩, by simp [hnum]⟩

/-- Each invoke has a lane for each of its calls, and no others. -/
theorem Body.mem_lanes (b : Body) :
    (∀ lane ∈ b.lanes.lanes, lane.invoke ∈ b.invokes ∧ lane.number < lane.invoke.vec_length) ∧
      ∀ inv ∈ b.invokes, ∀ k < inv.vec_length,
        ∃ lane ∈ b.lanes.lanes, lane.invoke = inv ∧ lane.number = k := by
  have hgen : ∀ (invs : List Invoke) (st : Lanes), ∃ ls,
      (invs.foldl Lanes.invoke st).lanes = st.lanes ++ ls ∧
      (∀ lane ∈ ls, lane.invoke ∈ invs ∧ lane.number < lane.invoke.vec_length) ∧
      ∀ inv ∈ invs, ∀ k < inv.vec_length, ∃ lane ∈ ls, lane.invoke = inv ∧ lane.number = k := by
    intro invs
    induction invs with
    | nil =>
      exact fun st => ⟨[], by simp, fun lane h => (not_mem_nil h).elim,
        fun inv h => (not_mem_nil h).elim⟩
    | cons inv invs ih =>
      intro st
      obtain ⟨ls, hls, hinv, hnum⟩ := st.lanes_invoke inv
      obtain ⟨ls', hls', hsub, hall⟩ := ih (st.invoke inv)
      refine ⟨ls ++ ls', by rw [foldl_cons, hls', hls, append_assoc], ?_, ?_⟩
      · intro lane hlane
        rcases mem_append.mp hlane with h | h
        · rw [hinv lane h, ← mem_range, ← hnum]
          exact ⟨mem_cons_self, mem_map_of_mem h⟩
        · exact ⟨mem_cons_of_mem inv (hsub lane h).1, (hsub lane h).2⟩
      · intro inv' hinv' k hk
        rcases mem_cons.mp hinv' with rfl | hinv'
        · rw [← mem_range, ← hnum] at hk
          obtain ⟨lane, hlane, heq⟩ := mem_map.mp hk
          exact ⟨lane, mem_append_left _ hlane, hinv lane hlane, heq⟩
        · obtain ⟨lane, hlane, heq⟩ := hall inv' hinv' k hk
          exact ⟨lane, mem_append_right _ hlane, heq⟩
  obtain ⟨ls, hls, hsub, hall⟩ := hgen b.invokes ⟨[], fun _ _ => 0⟩
  unfold Body.lanes
  rw [hls]
  exact ⟨hsub, hall⟩

/-! ## Ports -/

/-- The ports that a parameter is connected by. -/
def Port.keys (p : Port) : List Str :=
  match p.kind with
  | .streams _ length => (List.range length).map fun (i : Nat) => array_name_at p.name i
  | _ => [p.name]

theorem to_string_inj {i j : Int} (h : to_string i = to_string j) : i = j := by
  have hne : ∀ m n, decimal m ≠ '-' :: decimal n := by
    intro m n heq
    have hdash : '-' ∈ decimal m := by rw [heq]; exact mem_cons_self
    exact absurd (isDigit_of_mem_decimal hdash) (by decide)
  cases i with
  | ofNat m =>
    cases j with
    | ofNat n => rw [decimal_inj h]
    | negSucc n => exact absurd h (hne m (n + 1))
  | negSucc m =>
    cases j with
    | ofNat n => exact absurd h.symm (hne n (m + 1))
    | negSucc n =>
      have := decimal_inj (List.cons.inj h).2
      rw [Nat.succ.inj this]

variable {base : Str}

theorem array_name_at_inj {i j : Int} (h : array_name_at base i = array_name_at base j) :
    i = j := by
  have hbody := (List.cons.inj (append_cancel_left h)).2
  exact to_string_inj (append_cancel_right hbody)

theorem Port.base_name_of_mem_keys {p : Port} (h : '[' ∉ p.name) {key : Str} (hkey : key ∈ p.keys) :
    array_base_name key = p.name := by
  have hself : array_base_name p.name = p.name := by
    unfold array_base_name
    rw [takeWhile_eq_self_iff]
    intro c hc
    have hne : c ≠ '[' := by
      rintro rfl
      exact h hc
    simpa using hne
  unfold Port.keys at hkey
  split at hkey
  · obtain ⟨i, _, rfl⟩ := mem_map.mp hkey
    exact TaskModel.array_base_name_at h i
  · rw [mem_singleton.mp hkey]
    exact hself

theorem Port.nodup_keys (p : Port) : p.keys.Nodup := by
  unfold Port.keys
  split
  · exact nodup_range.map fun i j heq => Int.ofNat.inj (array_name_at_inj heq)
  · exact nodup_singleton _

theorem Body.map_fst_wires {p : Port × Expr} (hacc : b.has_accessor p.1.kind p.2 = true)
    (read : Reading) (k : Nat) (c : Cursors) :
    (b.wires read k c p).map Prod.fst = p.1.keys := by
  obtain ⟨⟨port, kind⟩, e⟩ := p
  cases kind <;> cases e <;>
    first
    | exact absurd hacc Bool.false_ne_true
    | simp [Body.wires, Port.keys]

variable {ps : List (Port × Expr)}

theorem Body.map_fst_lane_wires (hacc : ∀ p ∈ ps, b.has_accessor p.1.kind p.2 = true)
    (read : Reading) (k : Nat) (c : Cursors) :
    (b.lane_wires read k ps c).map Prod.fst = ps.flatMap fun p => p.1.keys := by
  induction ps generalizing c with
  | nil => rfl
  | cons p ps ih =>
    rw [Body.lane_wires, map_append, flatMap_cons,
      b.map_fst_wires (hacc p mem_cons_self),
      ih fun q hq => hacc q (mem_cons_of_mem p hq)]

/-- The callees of a body do not leave two parameters without a name. -/
def Body.PortsNamed (b : Body) : Prop :=
  ∀ inv ∈ b.invokes, (inv.callee.params.map Port.name).Nodup

/-- Then each port is connected once. -/
theorem Body.nodup_lane_wires (hb : b.Compiles) (hnamed : b.PortsNamed) {inv : Invoke}
    (hinv : inv ∈ b.invokes) (read : Reading) (k : Nat) (c : Cursors) :
    ((b.lane_wires read k inv.pairs c).map Prod.fst).Nodup := by
  have hacc : ∀ p ∈ inv.pairs, b.has_accessor p.1.kind p.2 = true :=
    fun p hp => (hb.accessors inv hinv p hp).1
  rw [b.map_fst_lane_wires hacc]
  have hnames : inv.pairs.Pairwise fun p q => p.1.name ≠ q.1.name := by
    have hn := hnamed inv hinv
    rw [← map_fst_zip (le_of_eq (hb.arity inv hinv).symm), map_map] at hn
    exact pairwise_map.mp hn
  rw [nodup_flatMap]
  refine ⟨fun p _ => p.1.nodup_keys, ?_⟩
  refine List.Pairwise.imp_of_mem ?_ hnames
  intro p q hp hq hne key hkp hkq
  have hport : ∀ r ∈ inv.pairs, '[' ∉ r.1.name :=
    fun r hr => hb.ports inv hinv r.1 (of_mem_zip hr).1
  exact hne ((Port.base_name_of_mem_keys (hport p hp) hkp).symm.trans
    (Port.base_name_of_mem_keys (hport q hq) hkq))

theorem lookup_eq_some_iff_mem {l : List (Str × Wire)} (h : (l.map Prod.fst).Nodup) {a : Str}
    {w : Wire} : l.lookup a = some w ↔ (a, w) ∈ l := by
  rw [lookup_eq_some_iff]
  constructor
  · rintro ⟨l₁, l₂, rfl, _⟩
    simp
  · intro hmem
    obtain ⟨l₁, l₂, rfl⟩ := append_of_mem hmem
    refine ⟨l₁, l₂, rfl, ?_⟩
    intro p hp
    rw [map_append, nodup_append] at h
    have hne := h.2.2 p.1 (mem_map_of_mem hp) a (by simp)
    simpa using Ne.symm hne

theorem Instance.Records.eq_some_iff {inst : Instance} {ws : List (Str × Wire)}
    (h : inst.Records ws) (hnodup : (ws.map Prod.fst).Nodup) {port : Str} {w : Wire} :
    inst.args[port]?.map Arg.wire = some w ↔ (port, w) ∈ ws := by
  have hrev : (ws.reverse.map Prod.fst).Nodup := by
    rw [map_reverse]
    exact nodup_reverse.mpr hnodup
  rw [h port, lookup_eq_some_iff_mem hrev, mem_reverse]

/-! ## Elements -/

variable {index : Index}

theorem Body.mem_lane_wires {p : Port × Expr} {read : Reading} {k : Nat} {w : Str × Wire}
    (hp : p ∈ ps) (hw : ∀ c, w ∈ b.wires read k c p) (c : Cursors) :
    w ∈ b.lane_wires read k ps c := by
  induction ps generalizing c with
  | nil => cases hp
  | cons q ps ih =>
    rw [Body.lane_wires, mem_append]
    rcases mem_cons.mp hp with rfl | hp
    · exact .inl (hw c)
    · exact .inr (ih hp _)

theorem Body.wires_subscript {p : Port}
    (hacc : b.has_accessor p.kind (.subscript base index) = true) (read : Reading) (k : Nat)
    (c : Cursors) :
    (p.name, Wire.named (array_name_at base (read.index index))) ∈
      b.wires read k c (p, .subscript base index) := by
  obtain ⟨port, kind⟩ := p
  cases kind with
  | mmap kind | stream dir => exact mem_singleton_self _
  | streams dir length | scalar type => exact absurd hacc Bool.false_ne_true

/-- The wires depend on how the indices and the numbers of the lanes are read, and on
nothing else of the reading. -/
theorem Body.lane_wires_congr {read read' : Reading} {k : Nat}
    (hindex : ∀ p base index, (p, Expr.subscript base index) ∈ ps →
      read.index index = read'.index index)
    (hseq : ∀ p type, (p, Expr.seq) ∈ ps → p.kind = .scalar type →
      read.seq k type = read'.seq k type)
    (c : Cursors) : b.lane_wires read k ps c = b.lane_wires read' k ps c := by
  induction ps generalizing c with
  | nil => rfl
  | cons q ps ih =>
    rw [Body.lane_wires, Body.lane_wires,
      ih (fun p base index hp => hindex p base index (mem_cons_of_mem q hp))
        (fun p type hp => hseq p type (mem_cons_of_mem q hp))]
    obtain ⟨⟨port, kind⟩, e⟩ := q
    cases e with
    | subscript base index =>
      have hread := hindex ⟨port, kind⟩ base index mem_cons_self
      cases kind <;> simp [Body.wires, hread]
    | seq =>
      cases kind with
      | scalar type => simp [Body.wires, hseq ⟨port, _⟩ type mem_cons_self rfl]
      | _ => rfl
    | _ => cases kind <;> rfl

/-! ## Agreement -/

/-- What is recorded for a port of the `k`-th instance of a task. -/
def TaskModel.recorded (m : TaskModel) (t : Str) (k : Nat) (port : Str) : Option Wire :=
  (m.instances t)[k]?.bind fun inst => inst.args[port]?.map Arg.wire

/-- The software simulation runs through, and each port of each instance of a task is
recorded to be what its parameter got in the call of that number. -/
def Body.Agrees (b : Body) (m : TaskModel) : Prop :=
  ∃ r, b.run = .ok r ∧ ∀ t k port w, m.recorded t k port = some w ↔
    ∃ call, (r.calls.filter fun call => call.task = t)[k]? = some call ∧ (port, w) ∈ call.wires

/-- A type whose own conversion gives each of the first `n` numbers itself; the types that
tapacc knows are converted by it. -/
def ScalarType.Numbers (n : Nat) : ScalarType → Prop
  | .other _ _ _ convert => ∀ k < n, convert k = k
  | _ => True

/-- The bodies that are wired as they run: they take no more channels of an array of
streams that tapacc does not watch than it has, no element of an empty array, only
elements that are there, and name them by constants; and a parameter that counts the
replicas is of a type that converts their numbers to themselves. -/
structure Body.Fits (b : Body) : Prop where
  streams : ∀ name d dir length, b.decl name = some d → Decl.channels dir d = some length →
    b.watches d = false ∨ length = 0 → b.taken (.stream dir) name ≤ length
  mmaps : ∀ name, b.decl name = some (.mmaps 0) → b.taken .mmap name = 0
  elements : ∀ inv ∈ b.invokes, b.InRange inv
  constants : ∀ inv ∈ b.invokes, 0 < inv.vec_length → ∀ base index,
    Expr.subscript base index ∈ inv.args → index.constant = true ∨ index.value = 0
  numbers : ∀ inv ∈ b.invokes, ∀ p type, (p, Expr.seq) ∈ inv.pairs → p.kind = .scalar type →
    type.Numbers inv.vec_length

theorem Body.callOf_filter (b : Body) (lanes : List Lane) (t : Str) :
    (lanes.map b.callOf).filter (fun call => call.task = t) =
      (lanes.filter fun lane => lane.invoke.callee.task_name = t).map b.callOf := by
  rw [filter_map]
  rfl

theorem Index.recorded_eq_value_iff :
    index.recorded = index.value ↔ index.constant = true ∨ index.value = 0 := by
  unfold Index.recorded eval_int
  cases index.constant with
  | true => simp
  | false => simpa using eq_comm

theorem ScalarType.numbers_iff {n : Nat} {type : ScalarType} :
    type.Numbers n ↔ ∀ k < n, recorded_seq k type = seq_value k type := by
  cases type with
  | other spelling width floating convert => exact forall₂_congr fun k _ => eq_comm
  | _ => exact ⟨fun _ _ _ => rfl, fun _ => trivial⟩

/-- Where a port of a call is connected alike in every position, it is recorded to be what
its parameter gets. -/
theorem Body.Agrees.wire_eq (hb : b.Compiles) (hnamed : b.PortsNamed) {m : TaskModel}
    (h : b.parse_upper_task = .ok m) (herr : m.errors = []) (hagree : b.Agrees m) {inv : Invoke}
    (hinv : inv ∈ b.invokes) {j : Nat} (hj : j < inv.vec_length) {p : Port × Expr}
    (hp : p ∈ inv.pairs) {port : Str} {w w' : Wire}
    (hw : ∀ c, (port, w) ∈ b.wires .recorded j c p)
    (hw' : ∀ c, (port, w') ∈ b.wires .run j c p) : w = w' := by
  obtain ⟨r, hr, hwires⟩ := hagree
  have hsettles := Body.run_settles hb
  rw [hr] at hsettles
  obtain ⟨_, hcalls, _⟩ := hsettles
  obtain ⟨lane, hlane, rfl, rfl⟩ := b.mem_lanes.2 inv hinv j hj
  have hfilter : lane ∈ b.lanes.lanes.filter fun l =>
      l.invoke.callee.task_name = lane.invoke.callee.task_name :=
    mem_filter.mpr ⟨hlane, by simp⟩
  obtain ⟨k, hk⟩ := mem_iff_getElem?.mp hfilter
  have hrec := (hb.parse_upper_task_records h herr).1 lane.invoke.callee.task_name
  obtain ⟨inst, hinst, hrecords⟩ := exists_getElem?_of_forall₂ hrec hk
  have hcall := (hwires lane.invoke.callee.task_name k port _).mpr
    ⟨b.callOf lane, by rw [hcalls, b.callOf_filter, getElem?_map, hk]; rfl,
      Body.mem_lane_wires hp hw' lane.cursors⟩
  have hmine := (hrecords.eq_some_iff (b.nodup_lane_wires hb hnamed hinv _ _ _)).mpr
    (Body.mem_lane_wires hp hw lane.cursors)
  unfold TaskModel.recorded at hcall
  rw [hinst, Option.bind_some, hmine] at hcall
  exact Option.some.inj hcall

/-- An upper task below the top that hands its two input streams out over `n` sinks. -/
def sinks (n : Nat) : Body where
  is_top := false
  names := [("q".toList, .ports .istream 2)]
  invokes := [⟨⟨"Sink".toList, [⟨"in".toList, .stream .istream⟩]⟩, 0, none, n,
    [.decl_ref "q".toList]⟩]

theorem compiles_sinks (n : Nat) : (sinks n).Compiles := by
  refine ⟨by simp [sinks], by simp [sinks], by simp [sinks], ?_⟩
  intro inv hinv p hp
  obtain rfl := mem_singleton.mp hinv
  obtain rfl := mem_singleton.mp hp
  exact ⟨rfl, rfl⟩

theorem portsNamed_sinks (n : Nat) : (sinks n).PortsNamed := by
  intro inv hinv
  obtain rfl := mem_singleton.mp hinv
  exact nodup_singleton _

end Tapa.Frontend
