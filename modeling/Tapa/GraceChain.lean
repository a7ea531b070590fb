-- A chain of registers in front of a queue that lowers its ready early. Words
-- go forward one stage a cycle and the ready of the queue goes back one stage a
-- cycle, so the sender acts on an old ready. The queue keeps a grace of two
-- words a stage, and then no word finds it full.
import Tapa.Clock

namespace Tapa.GraceChain

open Clock List

variable {α τ ι : Type}

/-! ## The chain -/

/-- One register stage: a word on its way, and the ready on its way back. -/
structure Stage (α : Type) where
  valid : Bool
  data : α
  ready : Bool

/-- The ready that the sender sees, with `r` the ready of the queue. -/
def readyAt : List (Stage α) → Bool → Bool
  | [], r => r
  | b :: _, _ => b.ready

theorem readyAt_cons (b : Stage α) (bs : List (Stage α)) (r : Bool) :
    readyAt (b :: bs) r = b.ready := rfl

/-- The word that the queue sees, with `v` and `x` what the sender offers. -/
def carried (v : Bool) (x : α) : List (Stage α) → Bool × α
  | [] => (v, x)
  | b :: bs => carried b.valid b.data bs

def advance : Bool → α → List (Stage α) → Bool → List (Stage α)
  | _, _, [], _ => []
  | v, x, b :: bs, r => ⟨v, x, readyAt bs r⟩ :: advance b.valid b.data bs r

/-- The words in the chain, oldest first. -/
def flight : List (Stage α) → List α
  | [] => []
  | b :: bs => flight bs ++ emit b.valid b.data

def readies : List (Stage α) → Nat
  | [] => 0
  | b :: bs => b.ready.toNat + readies bs

section

variable (v : Bool) (x : α) (bs : List (Stage α))

@[simp] theorem advance_length (r : Bool) : (advance v x bs r).length = bs.length := by
  induction bs generalizing v x with
  | nil => rfl
  | cons b bs ih => simp [advance, ih]

theorem flight_length_le (bs : List (Stage α)) : (flight bs).length ≤ bs.length := by
  induction bs with
  | nil => simp [flight]
  | cons b bs ih =>
    simp only [flight, length_append, emit_length, length_cons]
    have := Bool.toNat_le b.valid
    omega

theorem readies_le (bs : List (Stage α)) : readies bs ≤ bs.length := by
  induction bs with
  | nil => simp [readies]
  | cons b bs ih =>
    simp only [readies, length_cons]
    have := Bool.toNat_le b.ready
    omega

/-- The chain is a queue with one word out for each word that reaches its end. -/
theorem flight_advance (r : Bool) :
    flight bs ++ emit v x = emit (carried v x bs).1 (carried v x bs).2 ++
      flight (advance v x bs r) := by
  induction bs generalizing v x with
  | nil => simp [flight, carried, advance]
  | cons b bs ih =>
    simp only [flight, carried, advance]
    rw [ih b.valid b.data, append_assoc]

/-- A ready goes in at the end of the chain for the one the sender sees. -/
theorem readies_advance (r : Bool) :
    readies (advance v x bs r) + (readyAt bs r).toNat = readies bs + r.toNat := by
  induction bs generalizing v x with
  | nil => simp [readies, readyAt, advance]
  | cons b bs ih =>
    have := ih b.valid b.data
    simp only [readies, advance, readyAt_cons]
    omega

theorem carried_flight (h : bs ≠ []) (hc : (carried v x bs).1 = true) : 0 < (flight bs).length := by
  induction bs generalizing v x with
  | nil => exact absurd rfl h
  | cons b bs ih =>
    simp only [flight, length_append, emit_length]
    cases bs with
    | nil =>
      simp only [carried] at hc
      simp [hc]
    | cons c cs => exact Nat.lt_of_lt_of_le (ih b.valid b.data (by simp) hc) (Nat.le_add_right _ _)

end

/-! ## The queue at the end -/

/-- A queue that lowers `ready` while it still has room for `grace` words. It
takes every word offered while it holds fewer than `cap`. Its `weight` is the
words it holds and those its own ready may still let in. -/
structure TailLaw (step : τ → ι → τ) (live : ι → Prop) (write : ι → Bool) (din : ι → α)
    (ready : τ → Bool) (cap grace : Nat) (inv : τ → Prop) (words : τ → List α)
    (given : τ → ι → List α) (count weight : τ → Nat) : Prop where
  heavy : ∀ s, inv s → count s + (ready s).toNat ≤ weight s
  keep : ∀ s i, inv s → live i → (write i = true → count s < cap) → inv (step s i)
  flow : ∀ s i, inv s → live i → (write i = true → count s < cap) →
    words s ++ emit (write i) (din i) = given s i ++ words (step s i)
  settle : ∀ s i, inv s → live i → (write i = true → count s < cap) → weight s ≤ cap →
    weight (step s i) + (ready s).toNat ≤ weight s + (write i).toNat ∨
      weight (step s i) + grace ≤ cap

/-- The words that the queue holds, the words in the chain and the words that
the readies in the chain may still let in all fit in the queue. -/
def Fits (cap weight : Nat) (bs : List (Stage α)) : Prop :=
  weight + (flight bs).length + readies bs ≤ cap

section Tail

variable {step : τ → ι → τ} {live : ι → Prop} {write : ι → Bool} {din : ι → α}
  {ready : τ → Bool} {cap grace : Nat} {inv : τ → Prop} {words : τ → List α}
  {given : τ → ι → List α} {count weight : τ → Nat}

section

variable (q : TailLaw step live write din ready cap grace inv words given count weight)
include q

variable {s : τ} {v : Bool} {x : α} {bs : List (Stage α)}

/-- The queue has room for a word that the chain carries to it, when the sender
offers words only on the ready it sees. -/
theorem TailLaw.room (hs : inv s) (hf : Fits cap (weight s) bs)
    (hv : v = true → readyAt bs (ready s) = true) (hc : (carried v x bs).1 = true) :
    count s < cap := by
  have hw := q.heavy s hs
  unfold Fits at hf
  cases bs with
  | nil =>
    have hr : ready s = true := hv hc
    simp only [hr, Bool.toNat_true] at hw
    omega
  | cons b bs =>
    have := carried_flight v x (b :: bs) (by simp) hc
    omega

/-- One clock edge of the chain and the queue keeps the fit. -/
theorem TailLaw.fits {i : ι} (hs : inv s) (hl : live i) (hf : Fits cap (weight s) bs)
    (hv : v = true → readyAt bs (ready s) = true) (hw : write i = (carried v x bs).1)
    (hg : 2 * bs.length ≤ grace) :
    Fits cap (weight (step s i)) (advance v x bs (ready s)) := by
  have hroom : write i = true → count s < cap := fun h => q.room hs hf hv (hw ▸ h)
  have hflight := congrArg List.length (flight_advance v x bs (ready s))
  have hready := readies_advance v x bs (ready s)
  have hle1 := flight_length_le (advance v x bs (ready s))
  have hle2 := readies_le (advance v x bs (ready s))
  have hvr : v.toNat ≤ (readyAt bs (ready s)).toNat := by
    cases v with
    | false => simp
    | true => simp [hv rfl]
  simp only [length_append, emit_length, ← hw] at hflight
  rw [advance_length] at hle1 hle2
  unfold Fits at hf ⊢
  rcases q.settle s i hs hl hroom (by omega) with h | h <;> omega

/-- One clock edge of the chain and the queue, as one queue. -/
theorem TailLaw.flow_chain {i : ι} (hs : inv s) (hl : live i) (hf : Fits cap (weight s) bs)
    (hv : v = true → readyAt bs (ready s) = true) (hw : write i = (carried v x bs).1)
    (hd : din i = (carried v x bs).2) :
    (words s ++ flight bs) ++ emit v x =
      given s i ++ (words (step s i) ++ flight (advance v x bs (ready s))) := by
  have hroom : write i = true → count s < cap := fun h => q.room hs hf hv (hw ▸ h)
  rw [append_assoc, flight_advance v x bs (ready s), ← hw, ← hd, ← append_assoc,
    q.flow s i hs hl hroom, append_assoc]

end

end Tail

/-! ## The chain and the queue as one machine -/

/-- The two ends of a chain: the queue at its end, and how a sender's input
offers a word and how it is passed on to the queue with the chain's word. -/
structure Ends (α τ ι κ : Type) where
  step : τ → ι → τ
  ready : τ → Bool
  write : κ → Bool
  din : κ → α
  feed : κ → Bool × α → ι

namespace Ends

variable {κ : Type} (e : Ends α τ ι κ)

/-- The gate at the head: a word goes in only on the ready that the sender sees. -/
def gate (c : List (Stage α) × τ) (k : κ) : Bool := e.write k && readyAt c.1 (e.ready c.2)

/-- What the queue sees. -/
def tailIn (c : List (Stage α) × τ) (k : κ) : ι := e.feed k (carried (e.gate c k) (e.din k) c.1)

def chainStep (c : List (Stage α) × τ) (k : κ) : List (Stage α) × τ :=
  (advance (e.gate c k) (e.din k) c.1 (e.ready c.2), e.step c.2 (e.tailIn c k))

theorem gate_open {c : List (Stage α) × τ} {k : κ} (h : e.gate c k = true) :
    readyAt c.1 (e.ready c.2) = true := by
  unfold gate at h
  exact (Bool.and_eq_true _ _ ▸ h).2

/-- The chain and its queue are one queue, with the chain's words behind those
of the queue. -/
theorem queueLaw {live : ι → Prop} {write : ι → Bool} {din : ι → α} {cap grace : Nat}
    {inv : τ → Prop} {words : τ → List α} {given : τ → ι → List α} {count weight : τ → Nat}
    (q : TailLaw e.step live write din e.ready cap grace inv words given count weight)
    (hw : ∀ k w, write (e.feed k w) = w.1) (hd : ∀ k w, din (e.feed k w) = w.2) :
    QueueLaw e.chainStep (fun k => ∀ w, live (e.feed k w))
      (fun c => inv c.2 ∧ Fits cap (weight c.2) c.1 ∧ 2 * c.1.length ≤ grace)
      (fun c => words c.2 ++ flight c.1) (fun c k => emit (e.gate c k) (e.din k))
      (fun c k => given c.2 (e.tailIn c k)) where
  keep := by
    rintro ⟨bs, s⟩ k ⟨hs, hf, hg⟩ hl
    have hroom : write (e.tailIn (bs, s) k) = true → count s < cap := fun h =>
      q.room hs hf e.gate_open (by rwa [tailIn, hw] at h)
    refine ⟨q.keep s _ hs (hl _) hroom, ?_, ?_⟩
    · exact q.fits hs (hl _) hf e.gate_open (hw _ _) hg
    · show 2 * (advance _ _ bs _).length ≤ grace
      rwa [advance_length]
  flow := by
    rintro ⟨bs, s⟩ k ⟨hs, hf, _⟩ hl
    exact q.flow_chain hs (hl _) hf e.gate_open (hw _ _) (hd _ _)

/-- No word that the chain carries finds the queue full. -/
theorem room {live : ι → Prop} {write : ι → Bool} {din : ι → α} {cap grace : Nat}
    {inv : τ → Prop} {words : τ → List α} {given : τ → ι → List α} {count weight : τ → Nat}
    (q : TailLaw e.step live write din e.ready cap grace inv words given count weight)
    (hw : ∀ k w, write (e.feed k w) = w.1) {c : List (Stage α) × τ} {k : κ} (hs : inv c.2)
    (hf : Fits cap (weight c.2) c.1) (h : write (e.tailIn c k) = true) : count c.2 < cap :=
  q.room hs hf e.gate_open (by rwa [tailIn, hw] at h)

end Ends

/-- A queue that is nearly empty fits with any chain. -/
theorem fits_of_small {cap w : Nat} {bs : List (Stage α)} (h : w + 2 * bs.length ≤ cap) :
    Fits cap w bs := by
  have h1 := flight_length_le bs
  have h2 := readies_le bs
  unfold Fits
  omega

/-! ## The words on their way -/

/-- An edge puts one word in front and leaves the order as it is. -/
theorem flight_take_advance (v : Bool) (x : α) (bs : List (Stage α)) (r : Bool) {k : Nat}
    (h : k < bs.length) :
    flight ((advance v x bs r).take (k + 1)) = flight (bs.take k) ++ emit v x := by
  induction bs generalizing v x k with
  | nil => simp at h
  | cons b bs ih =>
    simp only [advance, take_succ_cons, flight]
    cases k with
    | zero => simp [flight]
    | succ k =>
      rw [ih b.valid b.data (by simpa using h), take_succ_cons, flight]

/-- After as many edges as there are stages, the chain holds what came in since. -/
theorem flight_run (st : Nat → List (Stage α)) (v : Nat → Bool) (x : Nat → α) (r : Nat → Bool)
    (h : ∀ t, st (t + 1) = advance (v t) (x t) (st t) (r t)) (t : Nat) :
    flight (st (t + (st t).length)) =
      window (fun c => emit (v c) (x c)) t (t + (st t).length) := by
  have hlen : ∀ k, (st (t + k)).length = (st t).length := by
    intro k
    induction k with
    | zero => rfl
    | succ k ih => rw [← Nat.add_assoc, h, advance_length, ih]
  have key : ∀ k ≤ (st t).length,
      flight ((st (t + k)).take k) = window (fun c => emit (v c) (x c)) t (t + k) := by
    intro k
    induction k with
    | zero => intro _; simp [flight]
    | succ k ih =>
      intro hk
      rw [← Nat.add_assoc, h, flight_take_advance _ _ _ _ (by rw [hlen]; exact hk),
        ih (by omega), window_succ _ (by omega)]
  have h0 := key _ (Nat.le_refl _)
  rwa [take_of_length_le (Nat.le_of_eq (hlen _))] at h0

/-! ## The ready on its way back -/

/-- The ready that each stage passes back, and at the end that of the queue. -/
def readyList (bs : List (Stage α)) (r : Bool) : List Bool := bs.map Stage.ready ++ [r]

theorem readyList_advance (v : Bool) (x : α) (bs : List (Stage α)) (r r' : Bool) :
    readyList (advance v x bs r) r' = (readyList bs r).tail ++ [r'] := by
  unfold readyList
  induction bs generalizing v x with
  | nil => rfl
  | cons b bs ih =>
    have := ih b.valid b.data
    simp only [advance, map_cons, cons_append, this, tail_cons]
    cases bs <;> rfl

theorem readyAt_eq (bs : List (Stage α)) (r : Bool) :
    (readyList bs r)[0]? = some (readyAt bs r) := by
  cases bs <;> rfl

/-- The sender sees the ready of the queue as late as the chain is long. -/
theorem readyAt_late (st : Nat → List (Stage α)) (v : Nat → Bool) (x : Nat → α) (r : Nat → Bool)
    (h : ∀ t, st (t + 1) = advance (v t) (x t) (st t) (r t)) (t : Nat) :
    readyAt (st (t + (st t).length)) (r (t + (st t).length)) = r t := by
  have key : ∀ k ≤ (st t).length,
      (readyList (st (t + k)) (r (t + k)))[(st t).length - k]? = some (r t) := by
    intro k
    induction k with
    | zero => intro _; simp [readyList]
    | succ k ih =>
      intro hk
      have hlen : (readyList (st (t + k)) (r (t + k))).length = (st t).length + 1 := by
        have : (st (t + k)).length = (st t).length := by
          clear ih hk
          induction k with
          | zero => rfl
          | succ k ih => rw [← Nat.add_assoc, h, advance_length, ih]
        simp [readyList, this]
      rw [← Nat.add_assoc, h, readyList_advance, getElem?_append_left
        (by rw [length_tail]; omega), getElem?_tail, ← ih (by omega)]
      congr 1
      omega
  have h0 := key (st t).length (Nat.le_refl _)
  rw [Nat.sub_self, readyAt_eq] at h0
  exact Option.some.inj h0

/-! ## A chain given by its indices -/

section Indexed

variable {n : Nat} (v : Bool) (x : α) (f : Fin n → Stage α) (r : Bool)

theorem readyAt_ofFn : readyAt (List.ofFn f) r = if h : 0 < n then (f ⟨0, h⟩).ready else r := by
  cases n with
  | zero => rfl
  | succ n => rw [ofFn_succ, readyAt_cons]; rfl

theorem carried_ofFn : carried v x (List.ofFn f) =
    (Fin.cases v (fun j => (f j).valid) (Fin.last n),
      Fin.cases x (fun j => (f j).data) (Fin.last n)) := by
  induction n generalizing v x with
  | zero => rfl
  | succ n ih =>
    rw [ofFn_succ, carried, ih]
    cases n <;> rfl

/-- Stage `i` takes the word of the stage before it and the ready of the stage
after it. -/
theorem advance_ofFn : advance v x (List.ofFn f) r = List.ofFn (fun i =>
    { valid := Fin.cases v (fun j => (f j).valid) i.castSucc
      data := Fin.cases x (fun j => (f j).data) i.castSucc
      ready := if h : i.val + 1 < n then (f ⟨i.val + 1, h⟩).ready else r }) := by
  induction n generalizing v x with
  | zero => rfl
  | succ n ih =>
    rw [ofFn_succ, advance, ih, readyAt_ofFn, ofFn_succ]
    -- The wire of index `k` is the word of stage `k`, with the head's word first.
    have hwire : ∀ {β : Type} (g : Stage α → β) (k : Fin (n + 1)),
        (Fin.cases (g (f 0)) (fun j => g (f j.succ)) k : β) = g (f k) :=
      fun g k => Fin.cases rfl (fun _ => rfl) k
    congr 1
    · simp [Fin.succ_mk]
    · congr 1
      funext i
      rw [hwire Stage.valid, hwire Stage.data]
      simp only [Fin.val_succ, Nat.add_lt_add_iff_right]
      rfl

end Indexed

end Tapa.GraceChain
