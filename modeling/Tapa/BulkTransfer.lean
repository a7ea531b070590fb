-- Bulk transfers over a stream (`base/stream.h`). Values of any type are lined up with the
-- elements of the stream byte for byte, whether a value spans elements or an element holds
-- values.
import Mathlib

namespace Tapa.Bulk

open List

/-- A trivially copyable type. -/
structure CType where
  id : Nat
  size : Nat
  pos : 0 < size
deriving DecidableEq

abbrev Object (T : CType) := Fin T.size → UInt8

/-- The bytes of an array of objects. -/
def bytes {T : CType} (xs : List (Object T)) : List UInt8 := xs.flatMap ofFn

theorem index_lt {l : List UInt8} {size : Nat} (i : Fin (l.length / size)) (j : Fin size) :
    i * size + j < l.length := by
  have hnext := Nat.mul_le_mul_right size (Nat.succ_le_of_lt i.isLt)
  have hall := Nat.div_mul_le_self l.length size
  rw [Nat.succ_mul] at hnext
  omega

/-- `bit_cast` of an array, to an array of another type with as many bytes. -/
def bit_cast {T : CType} (U : CType) (xs : List (Object T)) : List (Object U) :=
  ofFn fun i j => (bytes xs).get ⟨_, index_lt i j⟩

/-- The elements of a stream. Its depth is left out: it makes a write wait. -/
abbrev Stream (T : CType) := List (Object T)

variable {T U : CType}

/-- A read of an empty stream blocks. -/
def read : Stream T → Option (Object T × Stream T)
  | [] => none
  | e :: s => some (e, s)

def write (s : Stream T) (e : Object T) : Stream T := s ++ [e]

def kWide (T U : CType) : Bool := U.size ≥ T.size

def kPer (T U : CType) : Nat := if kWide T U then U.size / T.size else T.size / U.size

/-- A loop of `n` turns that read values. -/
def turns (body : Stream T → Option (List (Object U) × Stream T)) :
    Nat → Stream T → Option (List (Object U) × Stream T)
  | 0, s => some ([], s)
  | n + 1, s => do
    let (values, s) ← body s
    let (more, s) ← turns body n s
    return (values ++ more, s)

def bulk_read (U : CType) (n : Nat) : Stream T → Option (List (Object U) × Stream T) :=
  if h : T = U then turns (fun s => (read s).map fun (e, s) => ([h ▸ e], s)) n
  else if kWide T U then
    turns (fun s => (turns (fun s => (read s).map fun (e, s) => ([e], s)) (kPer T U) s).map
      fun (parts, s) => (bit_cast U parts, s)) n
  else
    turns (fun s => (read s).map fun (e, s) => (bit_cast U [e], s)) ((n + kPer T U - 1) / kPer T U)

/-- The turns of the loop over elements that hold `per` values each. -/
def write_packed (per : Nat) : Nat → Stream T → List (Object U) → Stream T
  | 0, s, _ => s
  | n + 1, s, src =>
    write_packed per n ((bit_cast T (src.take per)).foldl write s) (src.drop per)

def bulk_write (s : Stream T) (src : List (Object U)) : Stream T :=
  if h : U = T then src.foldl (fun s value => write s (h ▸ value)) s
  else if kWide T U then src.foldl (fun s value => (bit_cast T [value]).foldl write s) s
  else write_packed (kPer T U) ((src.length + kPer T U - 1) / kPer T U) s src

/-! ## Bytes -/

theorem bytes_append (xs ys : List (Object T)) : bytes (xs ++ ys) = bytes xs ++ bytes ys :=
  flatMap_append

theorem bytes_length (xs : List (Object T)) : (bytes xs).length = xs.length * T.size := by
  simp [bytes, length_flatMap, map_const']

/-- A cast keeps the bytes. -/
theorem bytes_bit_cast {xs : List (Object T)} (h : U.size ∣ xs.length * T.size) :
    bytes (bit_cast U xs) = bytes xs := by
  have hall : (bytes xs).length / U.size * U.size = (bytes xs).length := by
    rw [bytes_length]
    exact Nat.div_mul_cancel h
  have hflat : bytes (bit_cast U xs) =
      ofFn fun p : Fin ((bytes xs).length / U.size * U.size) =>
        (bytes xs).get ⟨p, p.isLt.trans_eq hall⟩ := by
    rw [ofFn_mul]
    simp [bytes, bit_cast, flatMap_def, map_ofFn, Function.comp_def]
  rw [hflat]
  exact ext_getElem (by simp [hall]) (by simp)

/-- A transfer reads `k` elements, as values with their bytes. -/
def Reads (k : Nat) (m : Stream T → Option (List (Object U) × Stream T)) : Prop :=
  ∀ s, s.length < k ∧ m s = none ∨ ∃ es rest values, s = es ++ rest ∧ es.length = k ∧
    m s = some (values, rest) ∧ bytes values = bytes es

theorem Reads.turns {k : Nat} {body : Stream T → Option (List (Object U) × Stream T)}
    (h : Reads k body) (n : Nat) : Reads (n * k) (turns body n) := by
  induction n with
  | zero => exact fun s => .inr ⟨[], s, [], rfl, (Nat.zero_mul k).symm, rfl, rfl⟩
  | succ n ih =>
    intro s
    rw [Nat.succ_mul]
    rcases h s with ⟨hfew, hnone⟩ | ⟨es, rest, values, rfl, hes, hrun, hbytes⟩
    · exact .inl ⟨by omega, by simp [Bulk.turns, hnone]⟩
    rcases ih rest with ⟨hfew, hnone⟩ | ⟨fs, rest, more, rfl, hfs, hrun', hbytes'⟩
    · exact .inl ⟨by rw [length_append]; omega, by simp [Bulk.turns, hrun, hnone]⟩
    refine .inr ⟨es ++ fs, rest, values ++ more, (append_assoc _ _ _).symm, ?_, ?_, ?_⟩
    · rw [length_append, hes, hfs, Nat.add_comm]
    · simp [Bulk.turns, hrun, hrun']
    · rw [bytes_append, bytes_append, hbytes, hbytes']

/-- A cast of what is read has the same bytes. -/
theorem Reads.cast {V : CType} {k : Nat} {m : Stream T → Option (List (Object V) × Stream T)}
    (h : Reads k m) (hdvd : U.size ∣ k * T.size) :
    Reads k fun s => (m s).map fun (parts, s) => (bit_cast U parts, s) := by
  intro s
  rcases h s with ⟨hfew, hnone⟩ | ⟨es, rest, values, rfl, hes, hrun, hbytes⟩
  · exact .inl ⟨hfew, by simp [hnone]⟩
  · refine .inr ⟨es, rest, bit_cast U values, rfl, hes, by simp [hrun], ?_⟩
    rw [bytes_bit_cast, hbytes]
    rwa [← bytes_length, hbytes, bytes_length, hes]

theorem reads_read : Reads 1 fun s : Stream T => (read s).map fun (e, s) => ([e], s) := by
  rintro (_ | ⟨e, s⟩)
  · exact .inl ⟨Nat.one_pos, rfl⟩
  · exact .inr ⟨[e], s, [e], rfl, rfl, rfl, rfl⟩

/-- A transfer appends elements with the bytes of its values. -/
def Writes (src : List (Object U)) (m : Stream T → Stream T) : Prop :=
  ∃ es, bytes es = bytes src ∧ ∀ s, m s = s ++ es

theorem writes_cast {src : List (Object U)} (h : T.size ∣ src.length * U.size) :
    Writes src fun s : Stream T => (bit_cast T src).foldl write s :=
  ⟨bit_cast T src, bytes_bit_cast h, fun s =>
    (foldl_append_eq_append (f := fun e => [e])).trans (by simp [← flatMap_def])⟩

theorem Writes.comp {src more : List (Object U)} {m m' : Stream T → Stream T}
    (h : Writes src m) (h' : Writes more m') : Writes (src ++ more) (m' ∘ m) := by
  obtain ⟨es, hes, hm⟩ := h
  obtain ⟨fs, hfs, hm'⟩ := h'
  refine ⟨es ++ fs, by rw [bytes_append, bytes_append, hes, hfs], fun s => ?_⟩
  rw [Function.comp_apply, hm, hm', append_assoc]

theorem writes_foldl {f : Stream T → Object U → Stream T}
    (hf : ∀ value, Writes [value] (f · value)) (src : List (Object U)) :
    Writes src fun s => src.foldl f s := by
  induction src with
  | nil => exact ⟨[], rfl, fun s => (append_nil s).symm⟩
  | cons value src ih => exact (hf value).comp ih

theorem write_packed_writes {per : Nat} (hper : per * U.size = T.size) {n : Nat}
    {src : List (Object U)} (hn : src.length = n * per) :
    Writes src fun s : Stream T => write_packed per n s src := by
  induction n generalizing src with
  | zero =>
    obtain rfl : src = [] := length_eq_zero_iff.mp (by omega)
    exact ⟨[], rfl, fun s => (append_nil s).symm⟩
  | succ n ih =>
    rw [Nat.succ_mul] at hn
    have htake : (src.take per).length = per := length_take_of_le (by omega)
    have hfirst : Writes (src.take per) _ := writes_cast (T := T) (by simp [htake, hper])
    have hrest := @ih (src.drop per) (by rw [length_drop]; omega)
    have hboth := hfirst.comp hrest
    rwa [take_append_drop] at hboth

/-! ## The two transfers -/

/-- What a layout needs: the sizes divide one another, and the values fill whole elements. -/
structure Aligned (T U : CType) (n : Nat) : Prop where
  sizes : U.size % T.size = 0 ∨ T.size % U.size = 0
  whole : n * U.size % T.size = 0

/-- The elements that the values of a call take up. -/
def elements (T U : CType) (n : Nat) : Nat := n * U.size / T.size

section

variable {n : Nat} (h : Aligned T U n)
include h

theorem Aligned.wide (hwide : kWide T U) :
    kPer T U * T.size = U.size ∧ n * kPer T U = elements T U n := by
  have hle : T.size ≤ U.size := by simpa [kWide] using hwide
  have hper : kPer T U * T.size = U.size := by
    rw [kPer, if_pos hwide]
    refine Nat.div_mul_cancel (h.sizes.elim Nat.dvd_of_mod_eq_zero fun hdvd => ?_)
    exact (Nat.le_of_dvd T.pos (Nat.dvd_of_mod_eq_zero hdvd)).antisymm hle ▸ Nat.dvd_refl _
  refine ⟨hper, ?_⟩
  rw [elements, ← hper, ← Nat.mul_assoc, Nat.mul_div_cancel _ T.pos]

theorem Aligned.packed (hwide : ¬kWide T U) : kPer T U * U.size = T.size ∧
    n = elements T U n * kPer T U ∧ (n + kPer T U - 1) / kPer T U = elements T U n := by
  have hlt : U.size < T.size := by simpa [kWide] using hwide
  have hper : kPer T U * U.size = T.size := by
    rw [kPer, if_neg hwide]
    refine Nat.div_mul_cancel (h.sizes.elim (fun hdvd => ?_) Nat.dvd_of_mod_eq_zero)
    exact absurd (Nat.le_of_dvd U.pos (Nat.dvd_of_mod_eq_zero hdvd)) (Nat.not_le.mpr hlt)
  have hpos : 0 < kPer T U := Nat.pos_of_mul_pos_right (hper ▸ T.pos)
  have hn : n = elements T U n * kPer T U := by
    refine Nat.eq_of_mul_eq_mul_right U.pos ?_
    rw [Nat.mul_assoc, hper]
    exact (Nat.div_mul_cancel (Nat.dvd_of_mod_eq_zero h.whole)).symm
  exact ⟨hper, hn, Nat.div_eq_of_lt_le (by omega) (by rw [Nat.succ_mul]; omega)⟩

theorem bulk_read_reads : Reads (elements T U n) (bulk_read (T := T) U n) := by
  unfold bulk_read
  split
  · subst T
    simpa [elements, Nat.mul_div_cancel _ U.pos] using reads_read.turns n
  split
  · obtain ⟨hper, hn⟩ := h.wide ‹_›
    have hparts := reads_read.turns (T := T) (kPer T U)
    rw [Nat.mul_one] at hparts
    rw [← hn]
    exact (hparts.cast (hper ▸ Nat.dvd_refl _)).turns n
  · obtain ⟨hper, hn, hturns⟩ := h.packed ‹_›
    have hone : U.size ∣ 1 * T.size := ⟨kPer T U, by rw [← hper, Nat.one_mul, Nat.mul_comm]⟩
    have hread := (reads_read.cast hone).turns (elements T U n)
    rw [Nat.mul_one] at hread
    rw [hturns]
    simpa [Function.comp_def] using hread

end

theorem bulk_write_writes {src : List (Object U)} (h : Aligned T U src.length) :
    Writes src fun s : Stream T => bulk_write s src := by
  unfold bulk_write
  split
  · subst T
    exact writes_foldl (fun value => ⟨[value], rfl, fun s => rfl⟩) src
  split
  · obtain ⟨hper, -⟩ := h.wide ‹_›
    refine writes_foldl (fun value => writes_cast ⟨kPer T U, ?_⟩) src
    rw [← hper, length_singleton, Nat.one_mul, Nat.mul_comm]
  · obtain ⟨hper, hn, hturns⟩ := h.packed ‹_›
    rw [hturns]
    exact write_packed_writes hper hn

/-! ## Sequences of calls -/

inductive Call (T : CType) where
  | write (U : CType) (src : List (Object U))
  | read (U : CType) (n : Nat)

namespace Call

def Aligned : Call T → Prop
  | .write U src => Bulk.Aligned T U src.length
  | .read U n => Bulk.Aligned T U n

def written : Call T → List UInt8
  | .write _ src => bytes src
  | .read _ _ => []

/-- The elements that a call consumes. -/
def takes : Call T → Nat
  | .write _ _ => 0
  | .read U n => elements T U n

/-- One call, with the bytes of the values that it reads. A call that blocks does not end. -/
def run : Call T → Stream T → Option (List UInt8 × Stream T)
  | .write _ src, s => some ([], bulk_write s src)
  | .read U n, s => (bulk_read U n s).map (Prod.map bytes id)

/-- A call consumes its elements, or blocks, and appends elements with the bytes that it
writes. -/
def Moves (c : Call T) : Prop :=
  ∃ new, bytes new = c.written ∧ ∀ s, s.length < c.takes ∧ c.run s = none ∨
    ∃ es rest, s = es ++ rest ∧ es.length = c.takes ∧ c.run s = some (bytes es, rest ++ new)

theorem Aligned.moves {c : Call T} (h : c.Aligned) : c.Moves := by
  cases c with
  | write U src =>
    obtain ⟨new, hnew, hwrite⟩ := bulk_write_writes h
    exact ⟨new, hnew, fun s => .inr ⟨[], s, rfl, rfl, by simp [run, hwrite, bytes]⟩⟩
  | read U n =>
    refine ⟨[], rfl, fun s => ?_⟩
    rcases bulk_read_reads h s with ⟨hfew, hnone⟩ | ⟨es, rest, values, rfl, hes, hrun, hbytes⟩
    · exact .inl ⟨hfew, by rw [run, hnone]; rfl⟩
    · exact .inr ⟨es, rest, rfl, hes, by simp [run, hrun, hbytes]⟩

end Call

def run : List (Call T) → Stream T → Option (List UInt8 × Stream T)
  | [], s => some ([], s)
  | c :: calls, s => do
    let (got, s) ← c.run s
    let (more, s) ← run calls s
    return (got ++ more, s)

theorem run_keeps {calls : List (Call T)} (h : ∀ c ∈ calls, c.Moves) {s s' : Stream T}
    {got : List UInt8} (hrun : run calls s = some (got, s')) :
    got ++ bytes s' = bytes s ++ calls.flatMap Call.written := by
  induction calls generalizing s got with
  | nil =>
    simp only [run, Option.some.injEq, Prod.mk.injEq] at hrun
    obtain ⟨rfl, rfl⟩ := hrun
    simp
  | cons c calls ih =>
    obtain ⟨new, hnew, hmoves⟩ := h c mem_cons_self
    rcases hmoves s with ⟨-, hnone⟩ | ⟨es, rest, rfl, -, hfirst⟩
    · simp [run, hnone] at hrun
    simp only [run, hfirst, Option.bind_eq_bind, Option.bind_some, Option.bind_eq_some_iff,
      Option.pure_def, Option.some.injEq, Prod.mk.injEq, Prod.exists] at hrun
    obtain ⟨more, last, hmore, rfl, rfl⟩ := hrun
    have hrest := ih (fun c hc => h c (mem_cons_of_mem _ hc)) hmore
    rw [append_assoc, hrest, bytes_append, bytes_append, hnew, flatMap_cons]
    simp only [append_assoc]

/-- Bulk transfers are views of the bytes: each call with whole elements moves the elements
that its bytes occupy, and what any such calls read, followed by what is left in the stream,
are the bytes that they wrote. -/
theorem bulk_transfers_are_byte_exact (calls : List (Call T)) (h : ∀ c ∈ calls, c.Aligned) :
    (∀ c ∈ calls, c.Moves) ∧ ∀ got s, run calls [] = some (got, s) →
      got ++ bytes s = calls.flatMap Call.written :=
  ⟨fun c hc => (h c hc).moves, fun _ _ hrun => run_keeps (fun c hc => (h c hc).moves) hrun⟩

/-- Four values of one byte come back as one value of four, by a stream of two bytes. -/
theorem bytes_come_back_as_a_word :
    let calls : List (Call ⟨0, 2, by decide⟩) :=
      [.write ⟨1, 1, by decide⟩ [fun _ => 1, fun _ => 2, fun _ => 3, fun _ => 4],
        .read ⟨2, 4, by decide⟩ 1]
    run calls [] = some ([1, 2, 3, 4], []) ∧ [1, 2, 3, 4] = calls.flatMap Call.written := by
  intro calls
  have hrun : run calls [] = some ([1, 2, 3, 4], []) := by rfl
  have haligned : ∀ c ∈ calls, c.Aligned := by
    simp only [calls, mem_cons, not_mem_nil, or_false, forall_eq_or_imp, forall_eq]
    exact ⟨⟨by decide, by decide⟩, by decide, by decide⟩
  exact ⟨hrun, (bulk_transfers_are_byte_exact calls haligned).2 _ _ hrun⟩

end Tapa.Bulk
