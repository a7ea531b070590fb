-- The crossing FIFO `tapa_hs_pipeline`: a gate, a head register, `BODY_LEVEL`
-- body registers and an almost-full tail. It maps onto a chain with a grace
-- queue at its end, and so it delivers the words that it accepts.
import Tapa.AlmostFull

namespace Tapa.Rtl

open Clock GraceChain

variable {α : Type}

/-! ## The module -/

structure tapa_hs_pipeline_head (α : Type) where
  if_read_reg : Bool
  if_write_reg : Bool
  if_din_reg : α

structure tapa_hs_pipeline_body (α : Type) where
  if_full_n_reg : Bool
  if_empty_n_reg : Bool
  if_dout_reg : α

/-- The registers of `tapa_hs_pipeline` with the tail `m`. -/
structure tapa_hs_pipeline (m : FifoModule α) (BODY_LEVEL : Nat) where
  head : tapa_hs_pipeline_head α
  body : Fin BODY_LEVEL → tapa_hs_pipeline_body α
  tail : m.State

namespace tapa_hs_pipeline

def GRACE_PERIOD (BODY_LEVEL : Nat) : Nat := BODY_LEVEL * 2 + 2

def REAL_DEPTH (DEPTH BODY_LEVEL : Nat) : Nat := GRACE_PERIOD BODY_LEVEL + DEPTH + 4

def REAL_ADDR_WIDTH (DEPTH BODY_LEVEL : Nat) : Nat := Nat.clog 2 (REAL_DEPTH DEPTH BODY_LEVEL)

variable {m : FifoModule α} {BODY_LEVEL : Nat}

section

variable (s : tapa_hs_pipeline m BODY_LEVEL)

def body_valid (i : Fin (BODY_LEVEL + 1)) : Bool :=
  Fin.cases s.head.if_write_reg (fun j => (s.body j).if_empty_n_reg) i

def body_data (i : Fin (BODY_LEVEL + 1)) : α :=
  Fin.cases s.head.if_din_reg (fun j => (s.body j).if_dout_reg) i

/-- The ready that stage `i` of the body passes back, and last that of the tail. -/
def body_ready (i : Nat) : Bool :=
  if h : i < BODY_LEVEL then (s.body ⟨i, h⟩).if_full_n_reg else m.if_full_n s.tail

def if_full_n : Bool := s.head.if_read_reg

/-- The gate lets a word in only while the ready of the head is high. -/
def head_gate_valid (i : FifoIn α) : Bool :=
  i.write && s.if_full_n

/-- The ports of the tail. Its clock enables are tied high. -/
def tail_in (i : FifoIn α) : FifoIn α where
  reset := i.reset
  if_write_ce := true
  if_write := s.body_valid (Fin.last BODY_LEVEL)
  if_din := s.body_data (Fin.last BODY_LEVEL)
  if_read_ce := true
  if_read := i.read

/-- One clock edge. The head and the body have no reset. -/
def step (i : FifoIn α) : tapa_hs_pipeline m BODY_LEVEL where
  head :=
    { if_read_reg := s.body_ready 0
      if_write_reg := s.head_gate_valid i
      if_din_reg := i.if_din }
  body := fun j =>
    { if_full_n_reg := s.body_ready (j.val + 1)
      if_empty_n_reg := s.body_valid j.castSucc
      if_dout_reg := s.body_data j.castSucc }
  tail := m.step s.tail (s.tail_in i)

/-- A word is stored when the gate lets it into the head. -/
def rtl (m : FifoModule α) (BODY_LEVEL : Nat) : FifoModule α where
  State := tapa_hs_pipeline m BODY_LEVEL
  step := step
  if_full_n := if_full_n
  if_empty_n := fun s i => m.if_empty_n s.tail (s.tail_in i)
  if_dout := fun s i => m.if_dout s.tail (s.tail_in i)
  stored := head_gate_valid

/-! ## The pipeline as a chain -/

/-- The head and the body, as the stages of a chain. -/
def stages : List (Stage α) :=
  ⟨s.head.if_write_reg, s.head.if_din_reg, s.head.if_read_reg⟩ ::
    List.ofFn (fun j =>
      ⟨(s.body j).if_empty_n_reg, (s.body j).if_dout_reg, (s.body j).if_full_n_reg⟩)

end

section

variable (s : tapa_hs_pipeline m BODY_LEVEL)
include s

@[simp] theorem stages_length : s.stages.length = BODY_LEVEL + 1 := by
  simp [stages]

/-- The ends of the chain: the tail, and the input ports of the pipeline. -/
def ends (m : FifoModule α) : Ends α m.State (FifoIn α) (FifoIn α) where
  step := m.step
  ready := m.if_full_n
  write := FifoIn.write
  din := FifoIn.if_din
  feed := fun i w => ⟨i.reset, true, w.1, w.2, true, i.read⟩

def chain (s : tapa_hs_pipeline m BODY_LEVEL) : List (Stage α) × m.State := (s.stages, s.tail)

theorem tailIn_eq (i : FifoIn α) : (ends m).tailIn s.chain i = s.tail_in i := by
  unfold Ends.tailIn chain stages
  rw [carried, carried_ofFn]
  rfl

theorem given_eq (i : FifoIn α) : (rtl m BODY_LEVEL).given s i = m.given s.tail (s.tail_in i) := by
  have hread : (s.tail_in i).read = i.read := Bool.and_true _
  unfold FifoModule.given
  rw [hread]
  rfl

/-- One clock edge of the pipeline is one clock edge of the chain. -/
theorem step_chain (i : FifoIn α) : (s.step i).chain = (ends m).chainStep s.chain i := by
  unfold Ends.chainStep
  rw [tailIn_eq]
  unfold chain
  unfold stages
  rw [advance, advance_ofFn, readyAt_ofFn]
  rfl

end

/-! ## The pipeline as a queue -/

section Queue

variable {cap : Nat}

/-- The words in the tail and then the words in the registers. -/
def words (q : m.IsTail cap (GRACE_PERIOD BODY_LEVEL)) (s : tapa_hs_pipeline m BODY_LEVEL) :
    List α :=
  q.words s.tail ++ flight s.stages

/-- The tail is as it should be, and has room for all that is on its way. -/
structure Inv (q : m.IsTail cap (GRACE_PERIOD BODY_LEVEL)) (s : tapa_hs_pipeline m BODY_LEVEL) :
    Prop where
  tail : q.inv s.tail
  fits : Fits cap (q.weight s.tail) s.stages

section

variable (q : m.IsTail cap (GRACE_PERIOD BODY_LEVEL))
include q

theorem queueLaw : QueueLaw step FifoIn.Live (Inv q) (words q) (rtl m BODY_LEVEL).taken
      (rtl m BODY_LEVEL).given := by
  have hlaw := (ends m).queueLaw q.tail (fun _ _ => Bool.and_true _) (fun _ _ => rfl)
  have hgrace (s : tapa_hs_pipeline m BODY_LEVEL) :
      2 * s.chain.1.length ≤ GRACE_PERIOD BODY_LEVEL := by
    show 2 * s.stages.length ≤ _
    rw [stages_length]
    unfold GRACE_PERIOD
    omega
  have hmap := hlaw.comap (fun s : tapa_hs_pipeline m BODY_LEVEL => s.chain) id
    (fun (i : FifoIn α) (hl : i.Live) _ => hl) (fun s i _ => step_chain s i)
  refine ⟨fun s i hs hl => ?_, fun s i hs hl => ?_⟩
  · obtain ⟨h1, h2, _⟩ := hmap.keep s i ⟨hs.tail, hs.fits, hgrace s⟩ hl
    exact ⟨h1, h2⟩
  · have h := hmap.flow s i ⟨hs.tail, hs.fits, hgrace s⟩ hl
    simp only [id_eq, tailIn_eq] at h
    rw [given_eq]
    exact h

/-- One cycle of reset makes room for all that the registers may hold. -/
theorem reset_inv (s : tapa_hs_pipeline m BODY_LEVEL)
    (i : FifoIn α) (hcap : 1 + GRACE_PERIOD BODY_LEVEL ≤ cap) (hr : i.reset = true) :
    Inv q (s.step i) := by
  have hw : q.weight (s.step i).tail ≤ 1 := q.reset_weight s.tail (s.tail_in i) hr
  refine ⟨q.reset_inv s.tail (s.tail_in i) hr, fits_of_small ?_⟩
  rw [stages_length]
  unfold GRACE_PERIOD at hcap
  omega

theorem given_blind (s : tapa_hs_pipeline m BODY_LEVEL) (i : FifoIn α) :
    (rtl m BODY_LEVEL).given s { i with reset := false } = (rtl m BODY_LEVEL).given s i := by
  rw [given_eq, given_eq]
  exact q.given_blind s.tail (s.tail_in i)

def isQueue (q : m.IsTail cap (GRACE_PERIOD BODY_LEVEL))
    (hcap : 1 + GRACE_PERIOD BODY_LEVEL ≤ cap) : (rtl m BODY_LEVEL).IsQueue where
  inv := Inv q
  words := words q
  law := queueLaw q
  reset_inv := fun s i hr => reset_inv q s i hcap hr
  given_blind := given_blind q
  taken_blind := fun _ _ => rfl

/-- No word that leaves the registers finds the tail full. -/
theorem tail_stores {s : tapa_hs_pipeline m BODY_LEVEL} (hs : Inv q s) (i : FifoIn α) :
    m.stored s.tail (s.tail_in i) = s.body_valid (Fin.last BODY_LEVEL) := by
  have hroom : (s.tail_in i).write = true → q.count s.tail < cap := by
    rw [← tailIn_eq]
    exact (ends m).room q.tail (fun _ _ => Bool.and_true _) hs.tail hs.fits
  rw [q.stores s.tail _ hs.tail hroom]
  exact Bool.and_true _

end

section

variable (s : tapa_hs_pipeline m BODY_LEVEL) (ins : Nat → FifoIn α)

theorem stages_succ (t : Nat) : (run step s ins (t + 1)).stages =
      advance ((run step s ins t).head_gate_valid (ins t)) (ins t).if_din
        (run step s ins t).stages (m.if_full_n (run step s ins t).tail) := by
  exact congrArg Prod.fst (step_chain _ _)

/-- The registers hold the words that the gate let in during the last cycles. -/
theorem flight_stages {n : Nat} (hn : BODY_LEVEL + 1 ≤ n) :
    flight (run step s ins n).stages =
      window (fun c => (rtl m BODY_LEVEL).taken (run step s ins c) (ins c))
        (n - (BODY_LEVEL + 1)) n := by
  have h := flight_run (fun t => (run step s ins t).stages) _ _ _ (stages_succ s ins)
    (n - (BODY_LEVEL + 1))
  rw [stages_length, Nat.sub_add_cancel hn] at h
  exact h

/-- The tail is empty at the end of a reset, so all words then held are in the
registers. -/
theorem words_of_reset (q : m.IsTail cap (GRACE_PERIOD BODY_LEVEL))
    (s : tapa_hs_pipeline m BODY_LEVEL) (ins : Nat → FifoIn α) {n : Nat} (hn : 0 < n)
    (hk : BODY_LEVEL + 1 ≤ n) (hreset : (ins (n - 1)).reset = true) :
    words q (run step s ins n) =
      window (fun c => (rtl m BODY_LEVEL).taken (run step s ins c) (ins c))
        (n - (BODY_LEVEL + 1)) n := by
  have htail : q.words (run step s ins n).tail = [] := by
    rw [run_pred _ _ _ hn]
    exact q.clears _ _ hreset
  unfold words
  rw [htail]
  exact flight_stages s ins hk

/-- The writer sees the ready of the tail `BODY_LEVEL + 1` cycles late. -/
theorem if_full_n_late (t : Nat) :
    (run step s ins (t + (BODY_LEVEL + 1))).if_full_n = m.if_full_n (run step s ins t).tail := by
  have h := readyAt_late (fun t => (run step s ins t).stages) _ _ _ (stages_succ s ins) t
  rw [stages_length] at h
  exact h

end

/-- With fewer words than the logical depth, the ready of the tail goes up and
then comes back to the writer. -/
theorem ready_of_few (q : m.IsTail cap (GRACE_PERIOD BODY_LEVEL)) {depth : Nat}
    (hcap : cap = GRACE_PERIOD BODY_LEVEL + depth + 4) (s : tapa_hs_pipeline m BODY_LEVEL)
    (ins : Nat → FifoIn α) (t : Nat)
    (hinv : ∀ c, t ≤ c → c ≤ t + (BODY_LEVEL + 2) → Inv q (run step s ins c))
    (hlen : ∀ c, t ≤ c → c ≤ t + (BODY_LEVEL + 2) → (words q (run step s ins c)).length < depth) :
    (run step s ins (t + (BODY_LEVEL + 2))).if_full_n = true := by
  have hcount : ∀ c, t ≤ c → c ≤ t + (BODY_LEVEL + 2) →
      q.count (run step s ins c).tail + GRACE_PERIOD BODY_LEVEL + 1 < cap := by
    intro c h1 h2
    have hc := q.count_le _ (hinv c h1 h2).tail
    have hl := hlen c h1 h2
    unfold words at hl
    rw [List.length_append] at hl
    omega
  have h0 := hcount t (by omega) (by omega)
  have h1 := hcount (t + 1) (by omega) (by omega)
  have hready := q.ready (run step s ins t).tail _ (hinv t (by omega) (by omega)).tail
    (hinv (t + 1) (by omega) (by omega)).tail h0 h1
  rw [show t + (BODY_LEVEL + 2) = t + 1 + (BODY_LEVEL + 1) by omega]
  exact (if_full_n_late s ins (t + 1)).trans hready

end Queue

end tapa_hs_pipeline

/-! ## The pipeline with its parameters set -/

/-- The tail that the parameters of `tapa_hs_pipeline` ask for. -/
def TAPA_HS_TAIL (DATA_WIDTH DEPTH BODY_LEVEL : Nat) : FifoModule (BitVec DATA_WIDTH) :=
  fifo_almost_full DATA_WIDTH (tapa_hs_pipeline.REAL_ADDR_WIDTH DEPTH BODY_LEVEL)
    (tapa_hs_pipeline.REAL_DEPTH DEPTH BODY_LEVEL) (tapa_hs_pipeline.GRACE_PERIOD BODY_LEVEL)

def hs_pipeline (DATA_WIDTH DEPTH BODY_LEVEL : Nat) : FifoModule (BitVec DATA_WIDTH) :=
  tapa_hs_pipeline.rtl (TAPA_HS_TAIL DATA_WIDTH DEPTH BODY_LEVEL) BODY_LEVEL

namespace hs_pipeline

open tapa_hs_pipeline

variable (DATA_WIDTH DEPTH BODY_LEVEL : Nat)

def isTail : (TAPA_HS_TAIL DATA_WIDTH DEPTH BODY_LEVEL).IsTail (REAL_DEPTH DEPTH BODY_LEVEL)
    (GRACE_PERIOD BODY_LEVEL) :=
  fifo_almost_full_isTail _ _ _ _ (by unfold REAL_DEPTH; omega) (by unfold REAL_DEPTH; omega)
    (Nat.le_pow_clog (by decide) _)

def isQueue : (hs_pipeline DATA_WIDTH DEPTH BODY_LEVEL).IsQueue :=
  tapa_hs_pipeline.isQueue (isTail DATA_WIDTH DEPTH BODY_LEVEL) (by unfold REAL_DEPTH; omega)

theorem isQueue_turns : (isQueue DATA_WIDTH DEPTH BODY_LEVEL).Turns (BODY_LEVEL + 1) :=
  fun s ins _ hn hk hreset => words_of_reset (isTail DATA_WIDTH DEPTH BODY_LEVEL) s ins hn hk hreset

/-- From a reset that is long enough to drain the registers, the words delivered
are at every cycle a prefix of the words accepted, and the tail stores every
word that reaches it. Words that enter during the reset are not lost either:
the last of them are still in the registers when it ends. -/
theorem a_crossing_delivers_the_words_it_accepts
    (s : (hs_pipeline DATA_WIDTH DEPTH BODY_LEVEL).State) (ins : Nat → FifoIn (BitVec DATA_WIDTH))
    (n : Nat) (hlong : BODY_LEVEL + 1 ≤ n) (hhigh : ∀ c, c < n → (ins c).reset = true)
    (hlow : ∀ c, n ≤ c → (ins c).reset = false) :
    let m := hs_pipeline DATA_WIDTH DEPTH BODY_LEVEL
    let st := run m.step s ins
    let accepted := fun c => m.accepted (st c) (ins c)
    let delivered := fun c => m.given (st c) (ins c)
    ∀ t, n ≤ t →
      (window accepted (n - (BODY_LEVEL + 1)) n = [] →
        window delivered n t <+: window accepted n t) ∧
      window accepted (n - (BODY_LEVEL + 1)) t =
        window delivered n t ++ (isQueue DATA_WIDTH DEPTH BODY_LEVEL).words (st t) ∧
      (TAPA_HS_TAIL DATA_WIDTH DEPTH BODY_LEVEL).stored (st t).tail ((st t).tail_in (ins t)) =
        (st t).body_valid (Fin.last BODY_LEVEL) := by
  intro m st accepted delivered t hnt
  obtain ⟨hinv, heq⟩ := (isQueue_turns DATA_WIDTH DEPTH BODY_LEVEL).conserves s ins (by omega)
    hlong (hhigh _ (by omega)) (fun c hc _ => hlow c hc) hnt
  refine ⟨fun hdrained => ?_, heq, tail_stores _ hinv (ins t)⟩
  have hsplit : window accepted (n - (BODY_LEVEL + 1)) t = _ :=
    window_append _ (Nat.sub_le n (BODY_LEVEL + 1)) hnt
  rw [hdrained] at hsplit
  exact ⟨_, heq.symm.trans hsplit⟩

/-- A crossing with no body register, written in every cycle after its reset. -/
theorem a_crossing_of_depth_one_delivers :
    let m := hs_pipeline 8 1 0
    let s : m.State :=
      ⟨⟨false, false, 0⟩, Fin.elim0, (⟨⟨0, false, false, fun _ => 0⟩, 0, false⟩ :
        fifo_srl_almost_full (BitVec 8) 7 2)⟩
    let ins : Nat → FifoIn (BitVec 8) := fun c =>
      ⟨decide (c < 1), true, decide (1 ≤ c), BitVec.ofNat 8 c, true, true⟩
    window (fun c => m.given (run m.step s ins c) (ins c)) 1 9 <+:
      window (fun c => m.accepted (run m.step s ins c) (ins c)) 1 9 := by
  intro m s ins
  have hhigh : ∀ c, c < 1 → (ins c).reset = true := fun c hc => decide_eq_true hc
  have hlow : ∀ c, 1 ≤ c → (ins c).reset = false := fun c hc => decide_eq_false (by omega)
  exact (a_crossing_delivers_the_words_it_accepts 8 1 0 s ins 1 (by decide) hhigh hlow 9
    (by decide)).1 rfl

end hs_pipeline

end Tapa.Rtl
