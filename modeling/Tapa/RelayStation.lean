-- The relay station: `LEVEL - 1` registers that know no reset and no clock
-- enable, and an almost-full FIFO behind them. With its clock enables tied high
-- it delivers the words that it accepts.
import Tapa.AlmostFull

namespace Tapa.Rtl

open Clock GraceChain

variable {α : Type}

/-! ## The module -/

/-- The registers of `fifo_reg`, which are its output ports. -/
structure fifo_reg (α : Type) where
  if_full_n : Bool
  if_empty_n : Bool
  if_dout : α

/-- The registers of `relay_station` with the FIFO `m` at its last level. -/
structure relay_station (m : FifoModule α) (LEVEL : Nat) where
  inst : Fin (LEVEL - 1) → fifo_reg α
  unit : m.State

/-- The clock enables are tied high. -/
def FifoIn.Tied (i : FifoIn α) : Prop := i.if_write_ce = true ∧ i.if_read_ce = true

namespace relay_station

def GRACE_PERIOD (LEVEL : Nat) : Nat := LEVEL * 2

def REAL_DEPTH (DEPTH LEVEL : Nat) : Nat := GRACE_PERIOD LEVEL + DEPTH + 4

def REAL_ADDR_WIDTH (DEPTH LEVEL : Nat) : Nat := Nat.clog 2 (REAL_DEPTH DEPTH LEVEL)

variable {m : FifoModule α} {LEVEL : Nat}

section

variable (s : relay_station m LEVEL)

def full_n (k : Nat) : Bool :=
  if h : k < LEVEL - 1 then (s.inst ⟨k, h⟩).if_full_n else m.if_full_n s.unit

def empty_n (i : FifoIn α) (k : Fin (LEVEL - 1 + 1)) : Bool :=
  Fin.cases (i.if_write && s.full_n 0) (fun j => (s.inst j).if_empty_n) k

def data (i : FifoIn α) (k : Fin (LEVEL - 1 + 1)) : α :=
  Fin.cases i.if_din (fun j => (s.inst j).if_dout) k

/-- The ports of the FIFO at the last level. -/
def unit_in (i : FifoIn α) : FifoIn α where
  reset := i.reset
  if_write_ce := i.if_write_ce
  if_write := s.empty_n i (Fin.last (LEVEL - 1))
  if_din := s.data i (Fin.last (LEVEL - 1))
  if_read_ce := i.if_read_ce
  if_read := i.if_read

def step (i : FifoIn α) : relay_station m LEVEL where
  inst := fun j =>
    { if_full_n := s.full_n (j.val + 1)
      if_empty_n := s.empty_n i j.castSucc
      if_dout := s.data i j.castSucc }
  unit := m.step s.unit (s.unit_in i)

/-- A word is stored when it passes the gate `if_write & full_n[0]`. -/
def rtl (m : FifoModule α) (LEVEL : Nat) : FifoModule α where
  State := relay_station m LEVEL
  step := step
  if_full_n := fun s => s.full_n 0
  if_empty_n := fun s i => m.if_empty_n s.unit (s.unit_in i)
  if_dout := fun s i => m.if_dout s.unit (s.unit_in i)
  stored := fun s i => s.empty_n i 0

/-! ## The station as a chain -/

def stages : List (Stage α) :=
  List.ofFn fun j => ⟨(s.inst j).if_empty_n, (s.inst j).if_dout, (s.inst j).if_full_n⟩

end

section

variable (s : relay_station m LEVEL)
include s

@[simp] theorem stages_length : s.stages.length = LEVEL - 1 := by
  simp [stages]

/-- The ends of the chain: the FIFO at the last level, and the input ports. -/
def ends (m : FifoModule α) : Ends α m.State (FifoIn α) (FifoIn α) where
  step := m.step
  ready := m.if_full_n
  write := FifoIn.if_write
  din := FifoIn.if_din
  feed := fun i w => ⟨i.reset, true, w.1, w.2, i.if_read_ce, i.if_read⟩

def chain (s : relay_station m LEVEL) : List (Stage α) × m.State := (s.stages, s.unit)

theorem gate_eq (i : FifoIn α) : (ends m).gate s.chain i = (i.if_write && s.full_n 0) := by
  unfold Ends.gate chain stages
  rw [readyAt_ofFn]
  rfl

theorem tailIn_eq {i : FifoIn α} (hi : i.if_write_ce = true) :
    (ends m).tailIn s.chain i = s.unit_in i := by
  unfold Ends.tailIn
  rw [gate_eq]
  unfold chain stages unit_in
  rw [carried_ofFn, hi]
  rfl

theorem accepted_eq {i : FifoIn α} (hi : i.if_write_ce = true) :
    (rtl m LEVEL).accepted s i = emit ((ends m).gate s.chain i) i.if_din := by
  have hwrite : i.write = i.if_write := by
    unfold FifoIn.write
    rw [hi, Bool.and_true]
  unfold FifoModule.accepted
  rw [gate_eq, hwrite]
  rfl

/-- One clock edge of the station is one clock edge of the chain. -/
theorem step_chain {i : FifoIn α} (hi : i.if_write_ce = true) :
    (s.step i).chain = (ends m).chainStep s.chain i := by
  unfold Ends.chainStep
  rw [tailIn_eq s hi, gate_eq]
  unfold chain
  unfold stages
  rw [advance_ofFn]
  rfl

end

/-! ## The station as a queue -/

section Queue

variable {cap : Nat}

section

variable (q : m.IsTail cap (GRACE_PERIOD LEVEL)) (s : relay_station m LEVEL)

/-- The words in the FIFO and then the words in the registers. -/
def words : List α :=
  q.words s.unit ++ flight s.stages

/-- The FIFO is as it should be, and has room for all that is on its way. -/
structure Inv (q : m.IsTail cap (GRACE_PERIOD LEVEL)) (s : relay_station m LEVEL) : Prop where
  unit : q.inv s.unit
  fits : Fits cap (q.weight s.unit) s.stages

theorem queueLaw (q : m.IsTail cap (GRACE_PERIOD LEVEL)) :
    QueueLaw step (fun i => i.Live ∧ i.Tied) (Inv q) (words q) (rtl m LEVEL).accepted
      (rtl m LEVEL).given := by
  have hlaw := (ends m).queueLaw q.tail (fun _ _ => Bool.and_true _) (fun _ _ => rfl)
  have hgrace (s : relay_station m LEVEL) : 2 * s.chain.1.length ≤ GRACE_PERIOD LEVEL := by
    unfold chain GRACE_PERIOD
    rw [stages_length]
    omega
  have hmap := hlaw.comap (fun s : relay_station m LEVEL => s.chain) id
    (fun (i : FifoIn α) (hl : i.Live ∧ i.Tied) _ => hl.1) (fun s i hl => step_chain s hl.2.1)
  refine ⟨fun s i hs hl => ?_, fun s i hs hl => ?_⟩
  · obtain ⟨h1, h2, _⟩ := hmap.keep s i ⟨hs.unit, hs.fits, hgrace s⟩ hl
    exact ⟨h1, h2⟩
  · have h := hmap.flow s i ⟨hs.unit, hs.fits, hgrace s⟩ hl
    simp only [id_eq, tailIn_eq s hl.2.1] at h
    rw [accepted_eq s hl.2.1]
    exact h

/-- One cycle of reset makes room for all that the registers may hold. -/
theorem reset_inv (i : FifoIn α) (hcap : 1 + GRACE_PERIOD LEVEL ≤ cap) (hr : i.reset = true) :
    Inv q (s.step i) := by
  have hw : q.weight (s.step i).unit ≤ 1 := q.reset_weight s.unit (s.unit_in i) hr
  refine ⟨q.reset_inv s.unit (s.unit_in i) hr, fits_of_small ?_⟩
  rw [stages_length]
  unfold GRACE_PERIOD at hcap
  omega

theorem stages_succ (s : relay_station m LEVEL) (ins : Nat → FifoIn α)
    (htied : ∀ c, (ins c).Tied) (t : Nat) :
    (run step s ins (t + 1)).stages =
      advance ((ends m).gate (run step s ins t).chain (ins t)) (ins t).if_din
        (run step s ins t).stages (m.if_full_n (run step s ins t).unit) := by
  exact congrArg Prod.fst (step_chain _ (htied t).1)

/-- The registers hold the words accepted during the last cycles. -/
theorem flight_stages (s : relay_station m LEVEL) (ins : Nat → FifoIn α)
    (htied : ∀ c, (ins c).Tied) {n : Nat} (hn : LEVEL - 1 ≤ n) :
    flight (run step s ins n).stages =
      window (fun c => (rtl m LEVEL).accepted (run step s ins c) (ins c)) (n - (LEVEL - 1)) n := by
  have h := flight_run (fun t => (run step s ins t).stages) _ _ _ (stages_succ s ins htied)
    (n - (LEVEL - 1))
  rw [stages_length, Nat.sub_add_cancel hn] at h
  rw [h]
  apply window_congr (Nat.sub_le n (LEVEL - 1))
  intro c _ _
  exact (accepted_eq _ (htied c).1).symm

/-- The FIFO is empty at the end of a reset, so all words then held are in the
registers. -/
theorem words_of_reset (ins : Nat → FifoIn α) (htied : ∀ c, (ins c).Tied) {n : Nat} (hn : 0 < n)
    (hk : LEVEL - 1 ≤ n) (hreset : (ins (n - 1)).reset = true) :
    words q (run step s ins n) =
      window (fun c => (rtl m LEVEL).accepted (run step s ins c) (ins c)) (n - (LEVEL - 1)) n := by
  have hunit : q.words (run step s ins n).unit = [] := by
    rw [run_pred _ _ _ hn]
    exact q.clears _ _ hreset
  unfold words
  rw [hunit]
  exact flight_stages s ins htied hk

end

theorem output (q : m.IsTail cap (GRACE_PERIOD LEVEL)) : (rtl m LEVEL).RegisteredOutput :=
  fun s i j => q.output s.unit (s.unit_in i) (s.unit_in j)

end Queue

end relay_station

/-! ## The station with its parameters set -/

/-- A station that is cut off: it accepts nothing and delivers nothing. -/
def disconnected (α : Type) [Inhabited α] : FifoModule α where
  State := Unit
  step := fun s _ => s
  if_full_n := fun _ => false
  if_empty_n := fun _ _ => false
  if_dout := fun _ _ => default
  stored := fun _ _ => false

/-- The FIFO that `relay_station` generates at its last level. -/
def relay_unit (DATA_WIDTH DEPTH LEVEL : Nat) : FifoModule (BitVec DATA_WIDTH) :=
  fifo_almost_full DATA_WIDTH (relay_station.REAL_ADDR_WIDTH DEPTH LEVEL)
    (relay_station.REAL_DEPTH DEPTH LEVEL) (relay_station.GRACE_PERIOD LEVEL)

/-- `relay_station` from level 1 up. At level 0 it is three wires. -/
def relay (DATA_WIDTH DEPTH LEVEL CONNECT : Nat) : FifoModule (BitVec DATA_WIDTH) :=
  if 0 < CONNECT then relay_station.rtl (relay_unit DATA_WIDTH DEPTH LEVEL) LEVEL
  else disconnected (BitVec DATA_WIDTH)

/-- A module that is, with its clock enables tied high, a queue of the words it
accepts. At the end of a reset it holds those of the last `turn` cycles. -/
structure FifoModule.IsRelay (m : FifoModule α) (turn : Nat) where
  inv : m.State → Prop
  words : m.State → List α
  law : QueueLaw m.step (fun i => i.Live ∧ i.Tied) inv words m.accepted m.given
  reset_inv : ∀ s i, i.reset = true → inv (m.step s i)
  turns : ∀ (s : m.State) (ins : Nat → FifoIn α) (n : Nat), (∀ c, (ins c).Tied) → 0 < n →
    turn ≤ n → (ins (n - 1)).reset = true → words (run m.step s ins n) =
      window (fun c => m.accepted (run m.step s ins c) (ins c)) (n - turn) n
  output : m.RegisteredOutput

/-- From the end of a reset on, the words accepted since the registers last
turned over are the words delivered and then the words held. -/
theorem FifoModule.IsRelay.conserves {m : FifoModule α} {turn : Nat} (q : m.IsRelay turn)
    (s : m.State) (ins : Nat → FifoIn α) (htied : ∀ c, (ins c).Tied) {n t : Nat} (hn : 0 < n)
    (hk : turn ≤ n) (hreset : (ins (n - 1)).reset = true)
    (hlow : ∀ c, n ≤ c → (ins c).reset = false) (hnt : n ≤ t) :
    window (fun c => m.accepted (run m.step s ins c) (ins c)) (n - turn) t =
      window (fun c => m.given (run m.step s ins c) (ins c)) n t ++
        q.words (run m.step s ins t) := by
  have hinv : q.inv (run m.step s ins n) := by
    rw [run_pred _ _ _ hn]
    exact q.reset_inv _ _ hreset
  have hflow := q.law.conserves hnt hinv (fun c hc _ => ⟨hlow c hc, htied c⟩)
  rwa [q.turns s ins n htied hn hk hreset, ← window_append _ (Nat.sub_le n turn) hnt] at hflow

def disconnected.isRelay [Inhabited α] (turn : Nat) : (disconnected α).IsRelay turn where
  inv := fun _ => True
  words := fun _ => []
  law := ⟨fun _ _ _ _ => trivial, fun _ _ _ _ => by
    simp [FifoModule.accepted, FifoModule.given, disconnected]⟩
  reset_inv := fun _ _ _ => trivial
  turns := by
    intro s ins n _ _ _ _
    symm
    apply window_eq_nil (Nat.sub_le n turn)
    intro c _ _
    simp [FifoModule.accepted, disconnected]
  output := fun _ _ _ => ⟨rfl, rfl⟩

def relay_station.isRelay {m : FifoModule α} {cap LEVEL : Nat}
    (q : m.IsTail cap (GRACE_PERIOD LEVEL)) (hcap : 1 + GRACE_PERIOD LEVEL ≤ cap) :
    (rtl m LEVEL).IsRelay (LEVEL - 1) where
  inv := Inv q
  words := words q
  law := queueLaw q
  reset_inv := fun s i hr => reset_inv q s i hcap hr
  turns := fun s ins _ htied hn hk hreset => words_of_reset q s ins htied hn hk hreset
  output := output q

/-- Every relay station from level 1 up, connected or not, is such a queue. -/
def relay_isRelay (DATA_WIDTH DEPTH LEVEL CONNECT : Nat) :
    (relay DATA_WIDTH DEPTH LEVEL CONNECT).IsRelay (LEVEL - 1) := by
  unfold relay
  refine if h : 0 < CONNECT then ?_ else ?_
  · rw [if_pos h]
    have q : (relay_unit DATA_WIDTH DEPTH LEVEL).IsTail (relay_station.REAL_DEPTH DEPTH LEVEL)
        (relay_station.GRACE_PERIOD LEVEL) :=
      fifo_almost_full_isTail _ _ _ _ (by unfold relay_station.REAL_DEPTH; omega)
        (by unfold relay_station.REAL_DEPTH; omega) (Nat.le_pow_clog (by decide) _)
    exact relay_station.isRelay q (by unfold relay_station.REAL_DEPTH; omega)
  · rw [if_neg h]
    exact disconnected.isRelay _

end Tapa.Rtl
