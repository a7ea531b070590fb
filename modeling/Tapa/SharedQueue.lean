-- The queue in shared memory (`frt-shm`): a producer and a consumer, each with
-- its own counter of 64 bits, and a ring of slots. Every load and store of a
-- counter and every copy of a slot is an action of its own.
import Tapa.Fallible
import Tapa.Interleaving
import Tapa.Text

namespace Tapa.Shm

open Fallible Interleaving List Nat

/-! ## Bytes -/

abbrev Bytes := Nat → UInt8

def Bytes.copy_to (m : Bytes) (start : Nat) (data : List UInt8) : Bytes := fun a =>
  if start ≤ a ∧ a < start + data.length then data.getD (a - start) 0 else m a

def Bytes.copy_from (m : Bytes) (start width : Nat) : List UInt8 :=
  (List.range width).map fun k => m (start + k)

theorem copy_from_copy_to (m : Bytes) (start : Nat) (data : List UInt8) :
    (m.copy_to start data).copy_from start data.length = data := by
  apply ext_getElem
  · simp [Bytes.copy_from]
  · intro k h1 h2
    simp [Bytes.copy_from, Bytes.copy_to, h2]

/-- A copy leaves the bytes of another range as they are. -/
theorem copy_from_copy_to_apart (m : Bytes) {start start' width : Nat} {data : List UInt8}
    (h : start' + width ≤ start ∨ start + data.length ≤ start') :
    (m.copy_to start data).copy_from start' width = m.copy_from start' width := by
  unfold Bytes.copy_from
  apply map_congr_left
  intro k hk
  rw [mem_range] at hk
  unfold Bytes.copy_to
  rw [if_neg]
  omega

/-! ## The layout -/

inductive ErrorKind where
  | InvalidInput
deriving DecidableEq, Repr

structure IoError where
  kind : ErrorKind
  message : String
deriving DecidableEq, Repr

/-- The size of the header: two words of 4 bytes, the shape and the two counters. -/
def header_size : Nat := 32

/-- The shape of a queue, which fits into memory. -/
structure QueueLayout where
  depth : Nat
  width : Nat
  byte_len : Nat
  depth_pos : 0 < depth
  width_pos : 0 < width
  depth_lt : depth < 2 ^ 32
  byte_len_eq : byte_len = depth * width + header_size
  byte_len_lt : byte_len < 2 ^ 63

/-- A size that fits into a machine word. -/
def checked (n : Nat) : Option Nat := if n < 2 ^ 64 then some n else none

theorem checked_eq_some {n m : Nat} (h : checked n = some m) : n = m := by
  unfold checked at h
  split at h
  · exact Option.some.inj h
  · cases h

def QueueLayout.new (depth width : UInt32) : Except IoError QueueLayout :=
  if h : depth = 0 ∨ width = 0 then
    .error
      { kind := .InvalidInput
        message := "queue needs depth >= 1 and width >= 1, got depth=" ++ toString depth ++
          " width=" ++ toString width }
  else
    match hlen : ((checked (depth.toNat * width.toNat)).bind fun len =>
        checked (len + header_size)).filter fun len => len < 2 ^ 63 with
    | none =>
      .error
        { kind := .InvalidInput
          message := "queue shape is too large: depth=" ++ toString depth ++
            " width=" ++ toString width }
    | some byte_len =>
      .ok
        { depth := depth.toNat
          width := width.toNat
          byte_len := byte_len
          depth_pos := by
            rw [not_or] at h
            exact pos_of_ne_zero fun h0 => h.1 (UInt32.toNat_inj.mp h0)
          width_pos := by
            rw [not_or] at h
            exact pos_of_ne_zero fun h0 => h.2 (UInt32.toNat_inj.mp h0)
          depth_lt := depth.toNat_lt
          byte_len_eq := by
            rw [Option.filter_eq_some_iff, Option.bind_eq_some_iff] at hlen
            obtain ⟨⟨len, h1, h2⟩, _⟩ := hlen
            rw [← checked_eq_some h2, ← checked_eq_some h1]
          byte_len_lt := by
            rw [Option.filter_eq_some_iff] at hlen
            simpa using hlen.2 }

theorem QueueLayout.new_depth {depth width : UInt32} {q : QueueLayout}
    (h : QueueLayout.new depth width = .ok q) : q.depth = depth.toNat := by
  unfold new at h
  split at h
  · cases h
  · split at h
    · cases h
    · rw [← Except.ok.inj h]

section

variable (q : QueueLayout)

/-- Where the slot of an index starts. -/
def QueueLayout.slot (index : Nat) : Nat :=
  header_size + (index % q.depth) * q.width

/-- Every slot lies behind the header and inside of the segment. -/
theorem QueueLayout.slot_fits (index : Nat) :
    header_size ≤ q.slot index ∧ q.slot index + q.width ≤ q.byte_len := by
  have hlt := mod_lt index q.depth_pos
  have hmul : (index % q.depth + 1) * q.width ≤ q.depth * q.width := mul_le_mul_right _ hlt
  rw [add_mul] at hmul
  unfold slot
  rw [q.byte_len_eq]
  omega

theorem QueueLayout.slot_apart {i j : Nat} (h : i % q.depth ≠ j % q.depth) :
    q.slot j + q.width ≤ q.slot i ∨ q.slot i + q.width ≤ q.slot j := by
  have hmul {a b : Nat} (hab : a < b) : a * q.width + q.width ≤ b * q.width := by
    have := mul_le_mul_right q.width hab
    rwa [succ_mul] at this
  unfold slot
  rcases lt_or_gt_of_ne h with hlt | hgt
  · have := hmul hlt
    omega
  · have := hmul hgt
    omega

/-! ## The two parties -/

def wrapping_sub (a b : Nat) : Nat := (a + 2 ^ 64 - b) % 2 ^ 64

def wrapping_succ (a : Nat) : Nat := (a + 1) % 2 ^ 64

inductive PushError where
  | Full
  | Size

def PushError.message : PushError → String
  | Full => "the queue is full"
  | Size => "the input size does not match the queue width"

/-- What a call of the producer returned last. -/
inductive ProducerResult where
  | none
  | push (result : Except PushError Bool)
  | is_full (result : Bool)

/-- What the producer does next. -/
inductive Producer where
  | idle (last : ProducerResult)
  | push_tail (data : List UInt8)
  | push_head (data : List UInt8) (tail : Nat)
  | push_copy (data : List UInt8) (tail head : Nat)
  | push_store (data : List UInt8) (tail head : Nat)
  | full_head
  | full_tail (head : Nat)

/-- A call that reads the front, with the length of its buffer. -/
structure FrontCall where
  pop : Bool
  buf : Nat
deriving DecidableEq

inductive ConsumerResult where
  | none
  | front (call : FrontCall) (copied : Option (List UInt8))
  | is_empty (result : Bool)

/-- What the consumer does next. -/
inductive Consumer where
  | idle (last : ConsumerResult)
  | front_head (call : FrontCall)
  | front_tail (call : FrontCall) (head : Nat)
  | front_copy (call : FrontCall) (head : Nat)
  | pop_store (call : FrontCall) (head : Nat) (copied : List UInt8)
  | empty_tail
  | empty_head (tail : Nat)

/-- The call in progress that reads the front. -/
def Consumer.call : Consumer → Option FrontCall
  | front_head call | front_tail call _ | front_copy call _ | pop_store call _ _ => some call
  | idle _ | empty_tail | empty_head _ => none

/-- The counters, the bytes and the two parties, with the tokens that went in and
those that came out. -/
structure State where
  tail : Nat
  head : Nat
  bytes : Bytes
  producer : Producer
  consumer : Consumer
  pushed : List (List UInt8)
  popped : List (List UInt8)

def State.create : State where
  tail := 0
  head := 0
  bytes := fun _ => 0
  producer := .idle .none
  consumer := .idle .none
  pushed := []
  popped := []

/-- A call of an idle party, or the next load, copy or store of one in a call. -/
inductive Action where
  | try_push (data : List UInt8)
  | is_full
  | producer
  | pop_into (buf : Nat)
  | peek_into (buf : Nat)
  | is_empty
  | consumer

section

variable (s : State)

/-- A call of the producer starts if it is idle. -/
def State.call_producer (next : Producer) : State :=
  match s.producer with
  | .idle _ => { s with producer := next }
  | _ => s

def State.call_consumer (next : Consumer) : State :=
  match s.consumer with
  | .idle _ => { s with consumer := next }
  | _ => s

/-- The next action of `try_push_check_full` or `is_full`. -/
def State.produce : State :=
  match s.producer with
  | .idle _ => s
  | .push_tail data => { s with producer := .push_head data s.tail }
  | .push_head data tail =>
    if q.depth ≤ wrapping_sub tail s.head then
      { s with producer := .idle (.push (.error .Full)) }
    else if data.length ≠ q.width then
      { s with producer := .idle (.push (.error .Size)) }
    else { s with producer := .push_copy data tail s.head }
  | .push_copy data tail head =>
    { s with
      bytes := s.bytes.copy_to (q.slot tail) data
      producer := .push_store data tail head }
  | .push_store data tail head =>
    { s with
      tail := wrapping_succ tail
      producer := .idle (.push (.ok (q.depth ≤ wrapping_sub (wrapping_succ tail) head)))
      pushed := s.pushed ++ [data] }
  | .full_head => { s with producer := .full_tail s.head }
  | .full_tail head =>
    { s with producer := .idle (.is_full (q.depth ≤ wrapping_sub s.tail head)) }

/-- The next action of `read_front` in `pop_into` or `peek_into`, or of `is_empty`. -/
def State.consume : State :=
  match s.consumer with
  | .idle _ => s
  | .front_head call => { s with consumer := .front_tail call s.head }
  | .front_tail call head =>
    if s.tail = head then { s with consumer := .idle (.front call none) }
    else if call.buf < q.width then { s with consumer := .idle (.front call none) }
    else { s with consumer := .front_copy call head }
  | .front_copy call head =>
    let copied := s.bytes.copy_from (q.slot head) q.width
    if call.pop then { s with consumer := .pop_store call head copied }
    else { s with consumer := .idle (.front call (some copied)) }
  | .pop_store call head copied =>
    { s with
      head := wrapping_succ head
      consumer := .idle (.front call (some copied))
      popped := s.popped ++ [copied] }
  | .empty_tail => { s with consumer := .empty_head s.tail }
  | .empty_head tail => { s with consumer := .idle (.is_empty (tail = s.head)) }

def step : Action → State
  | .try_push data => s.call_producer (.push_tail data)
  | .is_full => s.call_producer .full_head
  | .producer => s.produce q
  | .pop_into buf => s.call_consumer (.front_head ⟨true, buf⟩)
  | .peek_into buf => s.call_consumer (.front_head ⟨false, buf⟩)
  | .is_empty => s.call_consumer .empty_tail
  | .consumer => s.consume q

/-! ## What a faithful bounded queue does -/

/-- The number of tokens that went in and did not come out. -/
def State.outstanding : Nat := s.pushed.length - s.popped.length

/-- The index of a token, as the counters have it. -/
def counter (i : Nat) : Nat := i % 2 ^ 64

/-- A peek, or a pop into a buffer that is too short. -/
def FrontCall.Harmless (call : FrontCall) : Prop :=
  call.pop = false ∨ call.buf < q.width

/-- What holds at every moment of a faithful queue, and of its next action. -/
structure Faithful (q : QueueLayout) (s : State) : Prop where
  /-- No copy touches the header or leaves the segment. -/
  inside : ∀ i, header_size ≤ q.slot i ∧ q.slot i + q.width ≤ q.byte_len
  in_order : s.popped <+: s.pushed
  bounded : s.outstanding ≤ q.depth
  /-- A token stays in its slot until it came out. -/
  kept : ∀ i data, s.popped.length ≤ i → s.pushed[i]? = some data →
    s.bytes.copy_from (q.slot (counter i)) q.width = data
  /-- The next copy of the producer does not touch the slot of such a token. -/
  untouched : ∀ data tail head i, s.producer = .push_copy data tail head →
    s.popped.length ≤ i → i < s.pushed.length →
      q.slot (counter i) + q.width ≤ q.slot tail ∨ q.slot tail + q.width ≤ q.slot (counter i)
  /-- A push fails on data of another size, or in a call that sees a full queue. -/
  full : ∀ data tail error, s.producer = .push_head data tail →
    (s.produce q).producer = .idle (.push (.error error)) →
      s.outstanding = q.depth ∨ error = .Size ∧ data.length ≠ q.width
  consumes_nothing : ∀ call a, s.consumer.call = some call → call.Harmless q →
    (step q s a).head = s.head ∧ (step q s a).popped = s.popped

/-! ## Counters -/

theorem wrapping_sub_counter {t h : Nat} (hle : h ≤ t) (hlt : t - h < 2 ^ 64) :
    wrapping_sub (counter t) (counter h) = t - h := by
  unfold wrapping_sub counter
  omega

theorem wrapping_succ_counter (t : Nat) : wrapping_succ (counter t) = counter (t + 1) := by
  unfold wrapping_succ counter
  omega

theorem counter_inj {t h : Nat} (hle : h ≤ t) (hlt : t - h < 2 ^ 64)
    (heq : counter t = counter h) : t = h := by
  unfold counter at heq
  omega

/-- The counters that a queue gets to wrap around with its slots, or do not wrap
around at all. -/
def Bounded : Prop :=
  q.depth ∣ 2 ^ 64 ∨ s.pushed.length < 2 ^ 64

/-- Two tokens that are outstanding together have slots of their own. -/
theorem counter_mod_ne {d i t : Nat} (hd : d ∣ 2 ^ 64 ∨ t < 2 ^ 64) (hit : i < t)
    (htd : t < i + d) : counter i % d ≠ counter t % d := by
  have hmod : counter i % d = i % d ∧ counter t % d = t % d := by
    unfold counter
    rcases hd with hd | hd
    · exact ⟨mod_mod_of_dvd _ hd, mod_mod_of_dvd _ hd⟩
    · rw [mod_eq_of_lt hd, mod_eq_of_lt (lt_trans hit hd)]
      exact ⟨rfl, rfl⟩
  rw [hmod.1, hmod.2]
  intro heq
  have hdvd : d ∣ t - i := (modEq_iff_dvd' (le_of_lt hit)).mp heq
  have := le_of_dvd (by omega) hdvd
  omega

/-! ## The invariant -/

/-- What the producer knows: its own counter is the one that it loaded, and behind
the check there is room. -/
def Producer.Sound : Producer → Prop
  | push_head _ tail => tail = s.tail
  | push_copy data tail _ =>
    tail = s.tail ∧ data.length = q.width ∧ s.pushed.length < s.popped.length + q.depth
  | push_store data tail _ =>
    tail = s.tail ∧ data.length = q.width ∧ s.pushed.length < s.popped.length + q.depth ∧
      s.bytes.copy_from (q.slot tail) q.width = data
  | idle _ | push_tail _ | full_head | full_tail _ => True

/-- What the consumer knows: its own counter is the one that it loaded, and behind
the check there is a token. -/
def Consumer.Sound : Consumer → Prop
  | front_tail _ head => head = s.head
  | front_copy call head =>
    head = s.head ∧ q.width ≤ call.buf ∧ s.popped.length < s.pushed.length
  | pop_store call head copied =>
    head = s.head ∧ q.width ≤ call.buf ∧ call.pop = true ∧
      s.pushed[s.popped.length]? = some copied
  | idle _ | front_head _ | empty_tail | empty_head _ => True

end

end

/-- The counters count the tokens, whatever the slots hold. -/
structure Counts (q : QueueLayout) (s : State) : Prop where
  tail : s.tail = counter s.pushed.length
  head : s.head = counter s.popped.length
  le : s.popped.length ≤ s.pushed.length
  room : s.pushed.length ≤ s.popped.length + q.depth

structure Inv (q : QueueLayout) (s : State) : Prop where
  tail : s.tail = counter s.pushed.length
  head : s.head = counter s.popped.length
  in_order : s.popped <+: s.pushed
  room : s.pushed.length ≤ s.popped.length + q.depth
  kept : ∀ i data, s.popped.length ≤ i → s.pushed[i]? = some data →
    s.bytes.copy_from (q.slot (counter i)) q.width = data
  producer : s.producer.Sound q s
  consumer : s.consumer.Sound q s

variable {q : QueueLayout} {s : State}

/-- The two counters have the number of outstanding tokens between them. -/
theorem Counts.wrapping_sub (h : Counts q s) : wrapping_sub s.tail s.head = s.outstanding := by
  have hroom := h.room
  have hdepth := q.depth_lt
  rw [h.tail, h.head]
  exact wrapping_sub_counter h.le (by omega)

theorem Counts.empty_iff (h : Counts q s) :
    s.tail = s.head ↔ s.pushed.length = s.popped.length := by
  have hroom := h.room
  have hdepth := q.depth_lt
  rw [h.tail, h.head]
  constructor
  · exact counter_inj h.le (by omega)
  · exact congrArg counter

theorem Inv.create (q : QueueLayout) : Inv q .create := by
  constructor <;> simp [State.create, counter, Producer.Sound, Consumer.Sound]

theorem Inv.le (h : Inv q s) : s.popped.length ≤ s.pushed.length := h.in_order.length_le

theorem Inv.counts (h : Inv q s) : Counts q s := ⟨h.tail, h.head, h.le, h.room⟩

/-- The slot of the next token is not that of an outstanding one. -/
theorem Inv.slot_apart (h : Inv q s) (hb : Bounded q s)
    (hroom : s.pushed.length < s.popped.length + q.depth) {i : Nat} (hi : s.popped.length ≤ i)
    (hlt : i < s.pushed.length) :
    q.slot (counter i) + q.width ≤ q.slot s.tail ∨
      q.slot s.tail + q.width ≤ q.slot (counter i) := by
  rw [h.tail]
  exact (q.slot_apart (counter_mod_ne hb hlt (by omega))).symm

/-- A load of the producer changes what it knows, and nothing else. -/
theorem Inv.with_producer (h : Inv q s) {next : Producer} (hn : next.Sound q s) :
    Inv q { s with producer := next } :=
  ⟨h.tail, h.head, h.in_order, h.room, h.kept, hn, h.consumer⟩

theorem Inv.with_consumer (h : Inv q s) {next : Consumer} (hn : next.Sound q s) :
    Inv q { s with consumer := next } :=
  ⟨h.tail, h.head, h.in_order, h.room, h.kept, h.producer, hn⟩

theorem Inv.call_producer (h : Inv q s) {next : Producer} (hn : next.Sound q s) :
    Inv q (s.call_producer next) := by
  unfold State.call_producer
  split
  · exact h.with_producer hn
  · exact h

theorem Inv.call_consumer (h : Inv q s) {next : Consumer} (hn : next.Sound q s) :
    Inv q (s.call_consumer next) := by
  unfold State.call_consumer
  split
  · exact h.with_consumer hn
  · exact h

/-- The copy of a push goes to a slot that is free. -/
theorem Inv.copy (h : Inv q s) (hb : Bounded q s) {data : List UInt8} {tail head : Nat}
    (hp : s.producer = .push_copy data tail head) :
    Inv q { s with
      bytes := s.bytes.copy_to (q.slot tail) data
      producer := .push_store data tail head } := by
  have hsound := h.producer
  rw [hp] at hsound
  obtain ⟨rfl, hlen, hroom⟩ := hsound
  refine ⟨h.tail, h.head, h.in_order, h.room, ?_, ⟨rfl, hlen, hroom, ?_⟩, h.consumer⟩
  · intro i token hi htoken
    have hlt := (List.getElem?_eq_some_iff.mp htoken).1
    have hapart := h.slot_apart hb hroom hi hlt
    refine (copy_from_copy_to_apart _ ?_).trans (h.kept i token hi htoken)
    rwa [hlen]
  · rw [← hlen]
    exact copy_from_copy_to _ _ _

/-- The store of a push hands its token over. -/
theorem Inv.publish (h : Inv q s) {data : List UInt8} {tail head : Nat} {last : ProducerResult}
    (hp : s.producer = .push_store data tail head) :
    Inv q { s with
      tail := wrapping_succ tail
      producer := .idle last
      pushed := s.pushed ++ [data] } := by
  have hsound := h.producer
  rw [hp] at hsound
  obtain ⟨rfl, _, hroom, hslot⟩ := hsound
  refine ⟨?_, h.head, h.in_order.trans (prefix_append _ _), ?_, ?_, trivial, ?_⟩
  · simp [h.tail, wrapping_succ_counter, length_append]
  · simp only [length_append, length_singleton]
    omega
  · intro i token hi htoken
    rcases getElem?_snoc_eq_some.mp htoken with htoken | ⟨rfl, rfl⟩
    · exact h.kept i token hi htoken
    · -- The new token is the one that the copy left in its slot.
      rw [← h.tail]
      exact hslot
  · have hcons := h.consumer
    cases hc : s.consumer with
    | front_copy call head =>
      rw [hc] at hcons
      exact ⟨hcons.1, hcons.2.1, by
        simp only [length_append, length_singleton]
        have := hcons.2.2
        omega⟩
    | pop_store call head copied =>
      rw [hc] at hcons
      obtain ⟨hhead, hbuf, hpop, htoken⟩ := hcons
      exact ⟨hhead, hbuf, hpop, getElem?_snoc_eq_some.mpr (.inl htoken)⟩
    | front_tail call head =>
      rw [hc] at hcons
      exact hcons
    | idle last | front_head call | empty_tail | empty_head tail => trivial

theorem Inv.produce (h : Inv q s) (hb : Bounded q s) : Inv q (s.produce q) := by
  have hsound := h.producer
  unfold State.produce
  cases hp : s.producer with
  | idle last => exact h
  | push_tail data => exact h.with_producer rfl
  | push_head data tail =>
    rw [hp] at hsound
    obtain rfl : tail = s.tail := hsound
    simp only [h.counts.wrapping_sub, State.outstanding]
    split
    · exact h.with_producer trivial
    split
    · exact h.with_producer trivial
    rename_i hlen
    exact h.with_producer ⟨rfl, not_not.mp hlen, by omega⟩
  | push_copy data tail head => exact h.copy hb hp
  | push_store data tail head => exact h.publish hp
  | full_head | full_tail head => exact h.with_producer trivial

/-- The store of a pop gives the slot of its token back. -/
theorem Inv.release (h : Inv q s) {call : FrontCall} {head : Nat} {copied : List UInt8}
    {last : ConsumerResult} (hc : s.consumer = .pop_store call head copied) :
    Inv q { s with
      head := wrapping_succ head
      consumer := .idle last
      popped := s.popped ++ [copied] } := by
  have hsound := h.consumer
  rw [hc] at hsound
  obtain ⟨rfl, _, _, htoken⟩ := hsound
  refine ⟨h.tail, ?_, ?_, ?_, ?_, ?_, trivial⟩
  · simp [h.head, wrapping_succ_counter, List.length_append]
  · obtain ⟨rest, hrest⟩ := h.in_order
    rw [← hrest, List.getElem?_append_right (Nat.le_refl _), Nat.sub_self] at htoken
    cases rest with
    | nil => cases htoken
    | cons x rest =>
      rw [List.getElem?_cons_zero, Option.some.injEq] at htoken
      exact ⟨rest, by rw [← hrest, htoken]; simp⟩
  · have := h.room
    simp only [List.length_append, List.length_singleton]
    omega
  · intro i token hi
    simp only [List.length_append, List.length_singleton] at hi
    exact h.kept i token (by omega)
  · have hprod := h.producer
    cases hp : s.producer with
    | push_copy data tail head =>
      rw [hp] at hprod
      exact ⟨hprod.1, hprod.2.1, by
        simp only [List.length_append, List.length_singleton]
        have := hprod.2.2
        omega⟩
    | push_store data tail head =>
      rw [hp] at hprod
      exact ⟨hprod.1, hprod.2.1, by
        simp only [List.length_append, List.length_singleton]
        have := hprod.2.2.1
        omega, hprod.2.2.2⟩
    | push_head data tail =>
      rw [hp] at hprod
      exact hprod
    | idle last | push_tail data | full_head | full_tail head => trivial

theorem Inv.consume (h : Inv q s) : Inv q (s.consume q) := by
  have hsound := h.consumer
  unfold State.consume
  cases hc : s.consumer with
  | idle last => exact h
  | front_head call => exact h.with_consumer rfl
  | front_tail call head =>
    rw [hc] at hsound
    obtain rfl : head = s.head := hsound
    simp only
    split
    · exact h.with_consumer trivial
    rename_i hne
    split
    · exact h.with_consumer trivial
    have hle := h.le
    rw [h.counts.empty_iff] at hne
    exact h.with_consumer ⟨rfl, by omega, by omega⟩
  | front_copy call head =>
    rw [hc] at hsound
    obtain ⟨rfl, hbuf, hlt⟩ := hsound
    simp only
    split
    · rename_i hpop
      refine h.with_consumer ⟨rfl, hbuf, hpop, ?_⟩
      have htoken := getElem?_eq_getElem hlt
      rw [h.head, h.kept _ _ (le_refl _) htoken, htoken]
    · exact h.with_consumer trivial
  | pop_store call head copied => exact h.release hc
  | empty_tail | empty_head tail => exact h.with_consumer trivial

theorem Inv.step (h : Inv q s) (hb : Bounded q s) (a : Action) : Inv q (step q s a) := by
  cases a with
  | try_push data | is_full => exact h.call_producer trivial
  | producer => exact h.produce hb
  | pop_into buf | peek_into buf | is_empty => exact h.call_consumer trivial
  | consumer => exact h.consume

/-- An action is a store of a push, a store of a pop, or leaves the counters and the tokens. -/
theorem step_cases (q : QueueLayout) (s : State) (a : Action) :
    (∃ p c b, step q s a = { s with producer := p, consumer := c, bytes := b }) ∨
    (∃ data tail head last, s.producer = .push_store data tail head ∧ step q s a =
      { s with tail := wrapping_succ tail, producer := last, pushed := s.pushed ++ [data] }) ∨
    ∃ call head copied last, s.consumer = .pop_store call head copied ∧ step q s a =
      { s with head := wrapping_succ head, consumer := last, popped := s.popped ++ [copied] } := by
  cases a with
  | producer =>
    simp only [step, State.produce]
    split
    case h_5 data tail head hp => exact .inr (.inl ⟨data, tail, head, _, hp, rfl⟩)
    case h_3 =>
      left
      split
      · exact ⟨_, _, _, rfl⟩
      · split <;> exact ⟨_, _, _, rfl⟩
    all_goals exact .inl ⟨_, _, _, rfl⟩
  | consumer =>
    simp only [step, State.consume]
    split
    case h_5 call head copied hc => exact .inr (.inr ⟨call, head, copied, _, hc, rfl⟩)
    case h_3 =>
      left
      split
      · exact ⟨_, _, _, rfl⟩
      · split <;> exact ⟨_, _, _, rfl⟩
    case h_4 =>
      left
      split <;> exact ⟨_, _, _, rfl⟩
    all_goals exact .inl ⟨_, _, _, rfl⟩
  | try_push data | is_full =>
    simp only [step, State.call_producer]
    split <;> exact .inl ⟨_, _, _, rfl⟩
  | pop_into buf | peek_into buf | is_empty =>
    simp only [step, State.call_consumer]
    split <;> exact .inl ⟨_, _, _, rfl⟩

/-- No action takes a token back. -/
theorem step_extends_pushed (q : QueueLayout) (s : State) (a : Action) :
    s.pushed <+: (step q s a).pushed := by
  rcases step_cases q s a with ⟨_, _, _, h⟩ | ⟨_, _, _, _, _, h⟩ | ⟨_, _, _, _, _, h⟩ <;> simp [h]

theorem Bounded.back {a : Action} (h : Bounded q (step q s a)) : Bounded q s := by
  refine h.imp_right fun hlt => ?_
  exact lt_of_le_of_lt (step_extends_pushed q s a).length_le hlt

/-- As long as the counters are in bounds, every interleaving keeps the invariant. -/
theorem Inv.run (q : QueueLayout) (actions : List Action)
    (hb : Bounded q (run (Shm.step q) .create actions)) :
    Inv q (run (Shm.step q) .create actions) :=
  run_invariant_within (P := Inv q) (B := Bounded q) (fun _ _ h => h.back)
    (fun _ a h hi => hi.step h.back a) (Inv.create q) actions hb

/-- A harmless call does not come to the store of a pop. -/
theorem Inv.consumes_nothing (h : Inv q s) {call : FrontCall} (hc : s.consumer.call = some call)
    (hcall : call.Harmless q) (a : Action) :
    (Shm.step q s a).head = s.head ∧ (Shm.step q s a).popped = s.popped := by
  have hsound := h.consumer
  rcases step_cases q s a with ⟨_, _, _, hs⟩ | ⟨_, _, _, _, _, hs⟩ | ⟨_, _, _, _, hcons, hs⟩
  · rw [hs]
    exact ⟨rfl, rfl⟩
  · rw [hs]
    exact ⟨rfl, rfl⟩
  rw [hcons] at hsound hc
  cases hc
  obtain ⟨_, hbuf, hpop, _⟩ := hsound
  rcases hcall with hpeek | hshort
  · rw [hpop] at hpeek
    cases hpeek
  · omega

theorem Inv.faithful (h : Inv q s) (hb : Bounded q s) : Faithful q s where
  inside := q.slot_fits
  in_order := h.in_order
  bounded := by
    have := h.room
    unfold State.outstanding
    omega
  kept := h.kept
  untouched := by
    intro data tail head i hp hi hlt
    have hsound := h.producer
    rw [hp] at hsound
    obtain ⟨rfl, _, hroom⟩ := hsound
    exact h.slot_apart hb hroom hi hlt
  full := by
    intro data tail error hp hres
    have hsound := h.producer
    rw [hp] at hsound
    obtain rfl : tail = s.tail := hsound
    have hroom := h.room
    unfold State.outstanding
    simp only [State.produce, hp, h.counts.wrapping_sub, State.outstanding] at hres
    split at hres
    · exact Or.inl (by omega)
    split at hres
    · rename_i hlen
      simp only [Producer.idle.injEq, ProducerResult.push.injEq, Except.error.injEq] at hres
      exact Or.inr ⟨hres.symm, hlen⟩
    · cases hres
  consumes_nothing := fun _ a hc hcall => h.consumes_nothing hc hcall a

/-! ## Counters that wrap around -/

/-- No call is in progress. -/
def State.Idle (s : State) : Prop :=
  (∃ last, s.producer = .idle last) ∧ ∃ last, s.consumer = .idle last

/-- `try_push_check_full` with nothing in between. -/
def State.try_push (q : QueueLayout) (s : State) (data : List UInt8) : State :=
  run (step q) s [.try_push data, .producer, .producer, .producer, .producer]

/-- `pop_into` with nothing in between. -/
def State.pop_into (q : QueueLayout) (s : State) (buf : Nat) : State :=
  run (step q) s [.pop_into buf, .consumer, .consumer, .consumer, .consumer]

theorem try_push_eq (hs : s.Idle) (hroom : wrapping_sub s.tail s.head < q.depth) {data : List UInt8}
    (hlen : data.length = q.width) : s.try_push q data =
      { s with
        tail := wrapping_succ s.tail
        bytes := s.bytes.copy_to (q.slot s.tail) data
        producer := .idle (.push (.ok (q.depth ≤ wrapping_sub (wrapping_succ s.tail) s.head)))
        pushed := s.pushed ++ [data] } := by
  obtain ⟨⟨last, hp⟩, _⟩ := hs
  simp only [State.try_push, run_cons, run_nil, step, State.call_producer, hp, State.produce,
    if_neg (not_le.mpr hroom), hlen, ne_eq, not_true_eq_false, if_false]

theorem pop_into_eq (hs : s.Idle) (hne : s.tail ≠ s.head) {buf : Nat} (hbuf : q.width ≤ buf) :
    s.pop_into q buf =
      { s with
        head := wrapping_succ s.head
        consumer := .idle (.front ⟨true, buf⟩ (some (s.bytes.copy_from (q.slot s.head) q.width)))
        popped := s.popped ++ [s.bytes.copy_from (q.slot s.head) q.width] } := by
  obtain ⟨_, last, hc⟩ := hs
  simp only [State.pop_into, run_cons, run_nil, step, State.call_consumer, hc, State.consume,
    if_neg hne, if_neg (not_lt.mpr hbuf), if_true]

/-- A system that has a new queue, and can push two tokens and pop whenever there is room and
there is a token. -/
structure Drives {σ : Type} (q : QueueLayout) (queue : σ → State) (R : σ → Prop)
    (z o : List UInt8) : Prop where
  start : ∃ a, R a ∧ (queue a).tail = 0 ∧ (queue a).head = 0 ∧ (queue a).pushed = [] ∧
    (queue a).popped = []
  push : ∀ a data, R a → data = z ∨ data = o →
    wrapping_sub (queue a).tail (queue a).head < q.depth →
    ∃ b, R b ∧ (queue b).tail = wrapping_succ (queue a).tail ∧ (queue b).head = (queue a).head ∧
      (queue b).bytes = (queue a).bytes.copy_to (q.slot (queue a).tail) data ∧
      (queue b).pushed = (queue a).pushed ++ [data] ∧ (queue b).popped = (queue a).popped
  pop : ∀ a, R a → (queue a).tail ≠ (queue a).head →
    ∃ b, R b ∧ (queue b).tail = (queue a).tail ∧ (queue b).head = wrapping_succ (queue a).head ∧
      (queue b).pushed = (queue a).pushed ∧
      (queue b).popped.length = (queue a).popped.length + 1

section

variable {σ : Type} {queue : σ → State} {R : σ → Prop} {z o : List UInt8}

/-- Any number of tokens can go through an empty queue. -/
theorem Drives.counter (h : Drives q queue R z o) (n : Nat) :
    ∃ a, R a ∧ (queue a).tail = counter n ∧ (queue a).head = counter n ∧
      (queue a).pushed.length = n ∧ (queue a).popped.length = n := by
  induction n with
  | zero =>
    obtain ⟨a, ha, htail, hhead, hpushed, hpopped⟩ := h.start
    exact ⟨a, ha, htail, hhead, by rw [hpushed]; rfl, by rw [hpopped]; rfl⟩
  | succ n ih =>
    obtain ⟨a, ha, htail, hhead, hpushed, hpopped⟩ := ih
    have hroom : Shm.wrapping_sub (queue a).tail (queue a).head < q.depth := by
      rw [htail, hhead, wrapping_sub_counter (Nat.le_refl _) (by omega), Nat.sub_self]
      exact q.depth_pos
    obtain ⟨b, hb, htail', hhead', _, hpushed', hpopped'⟩ := h.push a z ha (.inl rfl) hroom
    rw [htail, wrapping_succ_counter] at htail'
    rw [hhead] at hhead'
    have hne : (queue b).tail ≠ (queue b).head := by
      rw [htail', hhead']
      unfold Shm.counter
      omega
    obtain ⟨c, hc, htail'', hhead'', hpushed'', hpopped''⟩ := h.pop b hb hne
    refine ⟨c, hc, htail''.trans htail', ?_, ?_, ?_⟩
    · rw [hhead'', hhead', wrapping_succ_counter]
    · rw [hpushed'', hpushed', length_append, hpushed, length_singleton]
    · rw [hpopped'', hpopped', hpopped]

/-- Pushes of one token, as many as there is room for. -/
theorem Drives.pushes (h : Drives q queue R z o) {a : σ} (ha : R a) {t n : Nat}
    (htail : (queue a).tail = Shm.counter t) (hhead : (queue a).head = Shm.counter n) (hle : n ≤ t)
    {data : List UInt8} (hdata : data = z ∨ data = o) (hlen : data.length = q.width) (k : Nat)
    (hk : t + k ≤ n + q.depth) :
    ∃ b, R b ∧ (queue b).tail = Shm.counter (t + k) ∧ (queue b).head = Shm.counter n ∧
      (queue b).pushed = (queue a).pushed ++ List.replicate k data ∧
      (queue b).popped = (queue a).popped ∧
      (0 < k → (queue b).bytes.copy_from (q.slot (Shm.counter (t + k - 1))) q.width = data) := by
  induction k with
  | zero => exact ⟨a, ha, htail, hhead, by simp, rfl, fun h => absurd h (by omega)⟩
  | succ k ih =>
    obtain ⟨b, hb, htail', hhead', hpushed', hpopped', _⟩ := ih (by omega)
    have hdepth := q.depth_lt
    have hroom : Shm.wrapping_sub (queue b).tail (queue b).head < q.depth := by
      rw [htail', hhead', wrapping_sub_counter (by omega) (by omega)]
      omega
    obtain ⟨c, hc, htail'', hhead'', hbytes, hpushed'', hpopped''⟩ := h.push b data hb hdata hroom
    refine ⟨c, hc, ?_, hhead''.trans hhead', ?_, hpopped''.trans hpopped', fun _ => ?_⟩
    · rw [htail'', htail', wrapping_succ_counter, add_assoc]
    · rw [hpushed'', hpushed', append_assoc, replicate_succ']
    · rw [hbytes, htail', ← hlen]
      exact copy_from_copy_to _ _ _

/-- Where the slots do not come around with the counters, the token before the wrap
is overwritten by one behind it. -/
theorem Drives.overwritten (h : Drives q queue R z o) (hq : ¬q.depth ∣ 2 ^ 64)
    (hz : z.length = q.width) (ho : o.length = q.width) : ∃ a, R a ∧
      (queue a).tail ≠ (queue a).head ∧
      (queue a).bytes.copy_from (q.slot (queue a).head) q.width = o ∧
      (queue a).pushed[(queue a).popped.length]? = some z := by
  have hpos : 0 < 2 ^ 64 % q.depth := pos_of_ne_zero fun h0 => hq (dvd_of_mod_eq_zero h0)
  have hlt := mod_lt (2 ^ 64) q.depth_pos
  have hdepth := q.depth_lt
  obtain ⟨a, ha, htail, hhead, hpushed, hpopped⟩ := h.counter (2 ^ 64 - 1)
  obtain ⟨b, hb, htail', hhead', hpushed', hpopped', _⟩ :=
    h.pushes ha htail hhead (le_refl _) (.inl rfl) hz 1 (by omega)
  obtain ⟨c, hc, htail'', hhead'', hpushed'', hpopped'', hslot⟩ :=
    h.pushes hb htail' hhead' (by omega) (.inr rfl) ho (2 ^ 64 % q.depth) (by omega)
  refine ⟨c, hc, ?_, ?_, ?_⟩
  · rw [htail'', hhead'']
    unfold Shm.counter
    omega
  · -- The slot of the last token before the wrap has the last token behind it.
    have hsame : q.slot (queue c).head =
        q.slot (Shm.counter (2 ^ 64 - 1 + 1 + 2 ^ 64 % q.depth - 1)) := by
      have hbefore : Shm.counter (2 ^ 64 - 1) =
          q.depth * (2 ^ 64 / q.depth) + (2 ^ 64 % q.depth - 1) := by
        have hdiv := div_add_mod (2 ^ 64) q.depth
        unfold Shm.counter
        omega
      have hbehind : Shm.counter (2 ^ 64 - 1 + 1 + 2 ^ 64 % q.depth - 1) =
          2 ^ 64 % q.depth - 1 := by
        unfold Shm.counter
        omega
      unfold QueueLayout.slot
      rw [hhead'', hbehind, hbefore, mul_add_mod]
    rw [hsame, hslot hpos]
  · rw [hpushed'', hpushed', hpopped'', hpopped', hpopped, append_assoc,
      getElem?_append_right (by omega), hpushed]
    rfl

end

/-- The two parties alone drive their queue. -/
theorem overwritten_of_not_dvd (q : QueueLayout) (hq : ¬q.depth ∣ 2 ^ 64) : ∃ actions,
    ¬(run (step q) .create actions).popped <+: (run (step q) .create actions).pushed := by
  have hdrives : Drives q id (fun s => Reaches (step q) .create s ∧ s.Idle)
      (List.replicate q.width 0) (List.replicate q.width 1) := by
    refine ⟨⟨.create, ⟨.refl _ _, ⟨_, rfl⟩, _, rfl⟩, rfl, rfl, rfl, rfl⟩, ?_, ?_⟩
    · rintro s data ⟨hreach, hidle⟩ hdata hroom
      have hlen : data.length = q.width := by rcases hdata with rfl | rfl <;> simp
      refine ⟨s.try_push q data, ⟨hreach.trans ⟨_, rfl⟩, ?_⟩, ?_⟩ <;>
        rw [try_push_eq hidle hroom hlen]
      · exact ⟨⟨_, rfl⟩, hidle.2⟩
      · exact ⟨rfl, rfl, rfl, rfl, rfl⟩
    · rintro s ⟨hreach, hidle⟩ hne
      refine ⟨s.pop_into q q.width, ⟨hreach.trans ⟨_, rfl⟩, ?_⟩, ?_⟩ <;>
        rw [pop_into_eq hidle hne (le_refl _)]
      · exact ⟨hidle.1, _, rfl⟩
      · exact ⟨rfl, rfl, rfl, length_append⟩
  obtain ⟨s, ⟨⟨actions, rfl⟩, hidle⟩, hne, hslot, hnext⟩ :=
    hdrives.overwritten hq length_replicate length_replicate
  refine ⟨actions ++ [.pop_into q.width, .consumer, .consumer, .consumer, .consumer], ?_⟩
  have hpop := pop_into_eq hidle hne (le_refl q.width)
  rw [State.pop_into, ← run_append] at hpop
  simp only [id_eq] at hslot hnext
  rw [hpop, hslot]
  rintro ⟨rest, heq⟩
  rw [← heq, append_assoc, getElem?_append_right (Nat.le_refl _), Nat.sub_self, singleton_append,
    getElem?_cons_zero, Option.some.injEq, replicate_right_inj (ne_of_gt q.width_pos)] at hnext
  exact absurd hnext (by decide)

/-! ## The queue is a faithful bounded queue -/

/-- A queue is faithful in every interleaving just when its depth divides `2 ^ 64`,
so that the slots come around with the counters. With any depth it is faithful as
long as the counters do not wrap around. -/
theorem the_queue_is_faithful_iff (depth width : UInt32) (q : QueueLayout)
    (hq : QueueLayout.new depth width = .ok q) :
    ((∀ actions, Faithful q (run (step q) .create actions)) ↔ depth.toNat ∣ 2 ^ 64) ∧
      ∀ actions, (run (step q) .create actions).pushed.length < 2 ^ 64 →
        Faithful q (run (step q) .create actions) := by
  have hdepth := QueueLayout.new_depth hq
  refine ⟨⟨fun h => ?_, fun h actions => ?_⟩, fun actions h => ?_⟩
  · by_contra hdvd
    rw [← hdepth] at hdvd
    obtain ⟨actions, hbad⟩ := overwritten_of_not_dvd q hdvd
    exact hbad (h actions).in_order
  · have hb : Bounded q (run (step q) .create actions) := Or.inl (hdepth ▸ h)
    exact (Inv.run q actions hb).faithful hb
  · exact (Inv.run q actions (Or.inr h)).faithful (Or.inr h)

/-- A queue of 4 tokens of one byte. -/
theorem a_queue_of_four_is_faithful :
    ∃ q, QueueLayout.new 4 1 = .ok q ∧ ∀ actions, Faithful q (run (step q) .create actions) := by
  obtain ⟨q, hq⟩ : ∃ q, QueueLayout.new 4 1 = .ok q := ⟨_, rfl⟩
  exact ⟨q, hq, (the_queue_is_faithful_iff 4 1 q hq).1.mpr (by decide)⟩

/-- A queue of 3 tokens hands out a token that did not go in next: when the counter
wraps around, two outstanding tokens have one slot. -/
theorem a_queue_of_three_loses_a_token :
    ∃ q, QueueLayout.new 3 1 = .ok q ∧ ∃ actions,
      ¬(run (step q) .create actions).popped <+: (run (step q) .create actions).pushed := by
  obtain ⟨q, hq⟩ : ∃ q, QueueLayout.new 3 1 = .ok q := ⟨_, rfl⟩
  refine ⟨q, hq, overwritten_of_not_dvd q ?_⟩
  rw [QueueLayout.new_depth hq]
  decide

end Tapa.Shm
