-- What a relay station gives to the tasks at its two ends: its FIFO has room for every
-- word that the registers bring, the writer gets in as many words as the station is deep,
-- and a station that stays empty has delivered all.
import Tapa.RelayStation

namespace Tapa.Rtl

open Clock GraceChain WordMemory

variable {α : Type}

/-! ## The tail shows its words -/

/-- A queue with a word shows it at once or after one more cycle. -/
def FifoModule.IsQueue.Shows {m : FifoModule α} (q : m.IsQueue) : Prop :=
  ∀ s i j, q.inv s → i.reset = false → i.if_read_ce = true → q.words s ≠ [] →
    m.if_empty_n s i = true ∨ m.if_empty_n (m.step s i) j = true

theorem fifo_srl_almost_full.isTail_shows [Inhabited α] {DEPTH GRACE_PERIOD : Nat}
    (hs : fifo_srl_almost_full.Sized DEPTH GRACE_PERIOD) :
    (fifo_srl_almost_full.isTail (α := α) hs).Shows := by
  intro s i j hinv _ _ hsome
  left
  refine hinv.core.empty.trans (decide_eq_true fun hzero => hsome ?_)
  show shiftWords s.core.mem s.core.count = []
  rw [hzero, shiftWords_zero]

theorem fifo_bram_almost_full.isTail_shows [Inhabited α] {DEPTH ADDR_WIDTH GRACE_PERIOD : Nat}
    (hs : fifo_bram.Sized DEPTH ADDR_WIDTH) (hg : GRACE_PERIOD + 2 ≤ DEPTH) :
    (fifo_bram_almost_full.isTail (α := α) hs hg).Shows := by
  intro s i _ hinv hlive hce hsome
  exact fifo_bram.Inv.shown hinv hlive hce hsome

/-- Every almost-full FIFO with an address for each word is a queue that shows its words. -/
theorem exists_isTail_shows (DATA_WIDTH ADDR_WIDTH DEPTH GRACE_PERIOD : Nat) (h4 : 4 ≤ DEPTH)
    (hg : GRACE_PERIOD + 2 ≤ DEPTH) (ha : DEPTH ≤ 2 ^ ADDR_WIDTH) :
    ∃ q : (fifo_almost_full DATA_WIDTH ADDR_WIDTH DEPTH GRACE_PERIOD).IsTail DEPTH GRACE_PERIOD,
      q.Shows := by
  have hs : fifo_bram.Sized DEPTH ADDR_WIDTH := .of_two_le (by omega) ha
  unfold fifo_almost_full
  by_cases h1 : 36 ≤ DATA_WIDTH ∧ 4096 ≤ DEPTH
  · rw [if_pos h1]
    exact ⟨_, fifo_bram_almost_full.isTail_shows hs hg⟩
  rw [if_neg h1]
  by_cases h2 : 128 ≤ DEPTH
  · rw [if_pos h2]
    exact ⟨_, fifo_bram_almost_full.isTail_shows hs hg⟩
  · rw [if_neg h2]
    exact ⟨_, fifo_srl_almost_full.isTail_shows ⟨h4, hg, by omega⟩⟩

namespace relay_station

variable {m : FifoModule α} {LEVEL cap : Nat}

/-! ## One clock edge -/

section

variable (q : m.IsTail cap (GRACE_PERIOD LEVEL))

/-- No word that leaves the registers finds the FIFO full. -/
theorem unit_stores {s : relay_station m LEVEL}
    (hs : Inv q s) {i : FifoIn α} (hi : i.if_write_ce = true) :
    m.stored s.unit (s.unit_in i) = (s.unit_in i).write := by
  refine q.stores s.unit _ hs.unit ?_
  rw [← tailIn_eq s hi]
  exact (ends m).room q.tail (fun _ _ => Bool.and_true _) hs.unit hs.fits

/-- The writer sees the ready of the FIFO `LEVEL - 1` cycles late. -/
theorem if_full_n_late (s : relay_station m LEVEL) (ins : Nat → FifoIn α)
    (htied : ∀ c, (ins c).Tied) (t : Nat) :
    (run step s ins (t + (LEVEL - 1))).full_n 0 = m.if_full_n (run step s ins t).unit := by
  have h := readyAt_late (fun t => (run step s ins t).stages) _ _ _ (stages_succ s ins htied) t
  rw [stages_length] at h
  unfold stages at h
  rw [readyAt_ofFn] at h
  exact h

/-- With fewer words than the logical depth, the ready of the FIFO goes up and then comes
back to the writer. -/
theorem ready_of_few {DEPTH : Nat} (hlevel : 1 ≤ LEVEL)
    (hcap : cap = REAL_DEPTH DEPTH LEVEL) (s : relay_station m LEVEL) (ins : Nat → FifoIn α)
    (htied : ∀ c, (ins c).Tied) (t : Nat)
    (hinv : ∀ c, t ≤ c → Inv q (run step s ins c))
    (hlen : ∀ c, t ≤ c → c ≤ t + LEVEL → (words q (run step s ins c)).length < DEPTH) :
    (run step s ins (t + LEVEL)).full_n 0 = true := by
  have hcount : ∀ c, t ≤ c → c ≤ t + LEVEL →
      q.count (run step s ins c).unit + GRACE_PERIOD LEVEL + 1 < cap := by
    intro c h1 h2
    have hc := q.count_le _ (hinv c h1).unit
    have hl := hlen c h1 h2
    unfold words at hl
    rw [List.length_append] at hl
    unfold REAL_DEPTH at hcap
    omega
  have hready := q.ready (run step s ins t).unit _ (hinv t (by omega)).unit
    (hinv (t + 1) (by omega)).unit (hcount t (by omega) (by omega))
    (hcount (t + 1) (by omega) (by omega))
  rw [show t + LEVEL = t + 1 + (LEVEL - 1) by omega]
  exact (if_full_n_late s ins htied (t + 1)).trans hready

theorem accepted_length (s : relay_station m LEVEL) {i : FifoIn α} (hce : i.if_write_ce = true)
    (hwrite : i.if_write = true) (hready : s.full_n 0 = true) :
    ((rtl m LEVEL).accepted s i).length = 1 := by
  rw [accepted_eq s hce, gate_eq, hwrite, hready]
  rfl

/-- The station shows the words of its FIFO. -/
theorem shown_of_unit (hshows : q.Shows)
    {s : relay_station m LEVEL} (hs : Inv q s) {i : FifoIn α} (hlive : i.reset = false)
    (hce : i.if_read_ce = true) (hsome : q.words s.unit ≠ []) (j : FifoIn α) :
    (rtl m LEVEL).if_empty_n s i = true ∨ (rtl m LEVEL).if_empty_n (s.step i) j = true :=
  hshows s.unit (s.unit_in i) ((s.step i).unit_in j) hs.unit hlive hce hsome

/-! ## A whole run -/

/-- The words that the writer hands over in a window of cycles. -/
def accepts (m : FifoModule α) (LEVEL : Nat) (s : relay_station m LEVEL) (ins : Nat → FifoIn α)
    (a b : Nat) : List α :=
  window (fun c => (rtl m LEVEL).accepted (run step s ins c) (ins c)) a b

/-- The words that the reader takes in a window of cycles. -/
def delivers (m : FifoModule α) (LEVEL : Nat) (s : relay_station m LEVEL) (ins : Nat → FifoIn α)
    (a b : Nat) : List α :=
  window (fun c => (rtl m LEVEL).given (run step s ins c) (ins c)) a b

/-- A queue of at least `DEPTH` words from cycle `n` on, with what the registers hold then
as its first words. -/
structure Serves (m : FifoModule α) (DEPTH LEVEL : Nat) (s : relay_station m LEVEL)
    (ins : Nat → FifoIn α) (n : Nat) : Prop where
  in_order : ∀ t, n ≤ t → delivers m LEVEL s ins n t <+: accepts m LEVEL s ins (n - (LEVEL - 1)) t
  stored : ∀ t, n ≤ t → m.stored (run step s ins t).unit ((run step s ins t).unit_in (ins t)) =
    ((run step s ins t).unit_in (ins t)).write
  ready : ∀ t, n ≤ t → (accepts m LEVEL s ins (n - (LEVEL - 1)) (t + LEVEL)).length <
    (delivers m LEVEL s ins n t).length + DEPTH → (run step s ins (t + LEVEL)).full_n 0 = true
  fills : (∀ c, n ≤ c → (ins c).if_write = true ∧ (ins c).if_read = false) →
    DEPTH ≤ (accepts m LEVEL s ins (n - (LEVEL - 1)) (n + LEVEL + DEPTH)).length
  empty : ∀ t, n ≤ t →
    (∀ c, t ≤ c → (rtl m LEVEL).if_empty_n (run step s ins c) (ins c) = false) →
      delivers m LEVEL s ins n t = accepts m LEVEL s ins (n - (LEVEL - 1)) t

/-- A station that stays empty holds nothing: by the time that the registers have turned
over, all that it held is in the FIFO, which would show it. -/
theorem words_of_empty (hshows : q.Shows)
    (s : relay_station m LEVEL) (ins : Nat → FifoIn α) (htied : ∀ c, (ins c).Tied) {t : Nat}
    (hlive : ∀ c, t ≤ c → (ins c).reset = false) (hinv : Inv q (run step s ins t))
    (hempty : ∀ c, t ≤ c → (rtl m LEVEL).if_empty_n (run step s ins c) (ins c) = false) :
    words q (run step s ins t) = [] := by
  have hle : t ≤ t + (LEVEL - 1) := Nat.le_add_right _ _
  have hok : ∀ c, t ≤ c → (ins c).Live ∧ (ins c).Tied := fun c hc => ⟨hlive c hc, htied c⟩
  have hkept := run_keeps (queueLaw q).keep hle hinv fun c hc _ => hok c hc
  have hgiven : delivers m LEVEL s ins t (t + (LEVEL - 1)) = [] := by
    refine window_eq_nil hle fun c hc _ => ?_
    rw [FifoModule.given, hempty c hc, Bool.and_false]
    rfl
  have hflow : words q (run step s ins t) ++ accepts m LEVEL s ins t (t + (LEVEL - 1)) =
      delivers m LEVEL s ins t (t + (LEVEL - 1)) ++ words q (run step s ins (t + (LEVEL - 1))) :=
    (queueLaw q).conserves hle hinv fun c hc _ => hok c hc
  have hflight : flight (run step s ins (t + (LEVEL - 1))).stages =
      accepts m LEVEL s ins t (t + (LEVEL - 1)) := by
    have h := flight_stages s ins htied (Nat.le_add_left (LEVEL - 1) t)
    rwa [Nat.add_sub_cancel] at h
  rw [hgiven, ← hflight] at hflow
  have hunit : words q (run step s ins t) = q.words (run step s ins (t + (LEVEL - 1))).unit :=
    List.append_cancel_right hflow
  by_contra hsome
  rw [hunit] at hsome
  rcases shown_of_unit q hshows hkept (hlive _ hle) (htied _).2 hsome
    (ins (t + (LEVEL - 1) + 1)) with hs | hs
  · exact absurd (hs.symm.trans (hempty _ hle)) (by simp)
  · exact absurd (hs.symm.trans (hempty (t + (LEVEL - 1) + 1) (by omega))) (by simp)

/-- A writer that never stops gets in one word a cycle until `DEPTH` are in. -/
theorem fills_of_ready {DEPTH n k : Nat} (s : relay_station m LEVEL) (ins : Nat → FifoIn α)
    (htied : ∀ c, (ins c).Tied) (hk : k ≤ n) (hwrite : ∀ c, n ≤ c → (ins c).if_write = true)
    (hready : ∀ t, n ≤ t → (accepts m LEVEL s ins k (t + LEVEL)).length < DEPTH →
      (run step s ins (t + LEVEL)).full_n 0 = true) :
    DEPTH ≤ (accepts m LEVEL s ins k (n + LEVEL + DEPTH)).length := by
  have hcount : ∀ d, d ≤ DEPTH → d ≤ (accepts m LEVEL s ins k (n + LEVEL + d)).length := by
    intro d
    induction d with
    | zero => exact fun _ => Nat.zero_le _
    | succ d ih =>
      intro hd
      have hsplit : accepts m LEVEL s ins k (n + LEVEL + (d + 1)) =
          accepts m LEVEL s ins k (n + LEVEL + d) ++
            (rtl m LEVEL).accepted (run step s ins (n + LEVEL + d)) (ins (n + LEVEL + d)) :=
        window_succ _ (show k ≤ n + LEVEL + d by omega)
      rw [hsplit, List.length_append]
      by_cases hfew : (accepts m LEVEL s ins k (n + LEVEL + d)).length < DEPTH
      · have hopen : (run step s ins (n + LEVEL + d)).full_n 0 = true := by
          rw [show n + LEVEL + d = n + d + LEVEL by omega] at hfew ⊢
          exact hready (n + d) (by omega) hfew
        have hone : ((rtl m LEVEL).accepted (run step s ins (n + LEVEL + d))
            (ins (n + LEVEL + d))).length = 1 :=
          accepted_length _ (htied _).1 (hwrite (n + LEVEL + d) (by omega)) hopen
        omega
      · omega
  exact hcount DEPTH (Nat.le_refl DEPTH)

/-- A station whose last level is a tail that shows its words serves as a queue. -/
theorem serves (hshows : q.Shows) {DEPTH : Nat}
    (hlevel : 1 ≤ LEVEL) (hcap : cap = REAL_DEPTH DEPTH LEVEL) (s : relay_station m LEVEL)
    (ins : Nat → FifoIn α) (htied : ∀ c, (ins c).Tied) {n : Nat} (hn : 0 < n) (hk : LEVEL - 1 ≤ n)
    (hreset : (ins (n - 1)).reset = true) (hlow : ∀ c, n ≤ c → (ins c).reset = false) :
    Serves m DEPTH LEVEL s ins n := by
  have hroom : 1 + GRACE_PERIOD LEVEL ≤ cap := by
    unfold REAL_DEPTH at hcap
    omega
  have hinv : ∀ t, n ≤ t → Inv q (run step s ins t) := by
    intro t ht
    have hstart : Inv q (run step s ins n) := by
      rw [run_pred _ _ _ hn]
      exact reset_inv q _ _ hroom hreset
    exact run_keeps (queueLaw q).keep ht hstart fun c hc _ => ⟨hlow c hc, htied c⟩
  have hheld : ∀ t, n ≤ t → accepts m LEVEL s ins (n - (LEVEL - 1)) t =
      delivers m LEVEL s ins n t ++ words q (run step s ins t) :=
    fun t ht => (isRelay q hroom).conserves s ins htied hn hk hreset hlow ht
  have hready : ∀ t, n ≤ t → (accepts m LEVEL s ins (n - (LEVEL - 1)) (t + LEVEL)).length <
      (delivers m LEVEL s ins n t).length + DEPTH →
        (run step s ins (t + LEVEL)).full_n 0 = true := by
    intro t ht hfew
    refine ready_of_few q hlevel hcap s ins htied t (fun c hc => hinv c (by omega)) ?_
    intro c h1 h2
    have hlen := congrArg List.length (hheld c (by omega))
    rw [List.length_append] at hlen
    have hmore : (accepts m LEVEL s ins (n - (LEVEL - 1)) c).length ≤
        (accepts m LEVEL s ins (n - (LEVEL - 1)) (t + LEVEL)).length :=
      window_length_mono _ (by omega) h2
    have hdone : (delivers m LEVEL s ins n t).length ≤ (delivers m LEVEL s ins n c).length :=
      window_length_mono _ ht h1
    omega
  refine ⟨fun t ht => ⟨_, (hheld t ht).symm⟩, fun t ht => unit_stores q (hinv t ht) (htied t).1,
    hready, fun hports => ?_, fun t ht hempty => ?_⟩
  · exact fills_of_ready s ins htied (Nat.sub_le n _) (fun c hc => (hports c hc).1)
      fun t ht hfew => hready t ht (by omega)
  · have hnone := words_of_empty q hshows s ins htied (fun c hc => hlow c (by omega)) (hinv t ht)
      hempty
    rw [hheld t ht, hnone, List.append_nil]

end

end relay_station

/-! ## Every station -/

/-- The FIFO at the last level of a station is a tail that shows its words. -/
theorem exists_relay_unit_shows (DATA_WIDTH DEPTH LEVEL : Nat) :
    ∃ q : (relay_unit DATA_WIDTH DEPTH LEVEL).IsTail (relay_station.REAL_DEPTH DEPTH LEVEL)
      (relay_station.GRACE_PERIOD LEVEL), q.Shows :=
  exists_isTail_shows _ _ _ _ (by unfold relay_station.REAL_DEPTH; omega)
    (by unfold relay_station.REAL_DEPTH; omega) (Nat.le_pow_clog (by decide) _)

/-- A module that, when it stays empty, has delivered all that it accepted since its registers
last turned over. -/
def FifoModule.Drains (m : FifoModule α) (turn : Nat) : Prop :=
  ∀ (s : m.State) (ins : Nat → FifoIn α) (n t : Nat), (∀ c, (ins c).Tied) → 0 < n → turn ≤ n →
    (ins (n - 1)).reset = true → (∀ c, n ≤ c → (ins c).reset = false) → n ≤ t →
    (∀ c, t ≤ c → m.if_empty_n (run m.step s ins c) (ins c) = false) →
      window (fun c => m.given (run m.step s ins c) (ins c)) n t =
        window (fun c => m.accepted (run m.step s ins c) (ins c)) (n - turn) t

/-- Every relay station from level 1 up, connected or not, is one. -/
theorem relay_drains (DATA_WIDTH DEPTH LEVEL CONNECT : Nat) (hlevel : 1 ≤ LEVEL) :
    (relay DATA_WIDTH DEPTH LEVEL CONNECT).Drains (LEVEL - 1) := by
  unfold relay
  split
  · intro s ins n t htied hn hk hreset hlow hnt hempty
    obtain ⟨q, hshows⟩ := exists_relay_unit_shows DATA_WIDTH DEPTH LEVEL
    exact (relay_station.serves q hshows hlevel rfl s ins htied hn hk hreset hlow).empty t hnt
      hempty
  · intro s ins n t _ _ _ _ _ hnt _
    rw [window_eq_nil hnt fun c _ _ => by simp [FifoModule.given, disconnected],
      window_eq_nil (by omega) fun c _ _ => by simp [FifoModule.accepted, disconnected]]

/-- After a reset that the registers turn over in, every relay station delivers the words that it
accepts in order, its FIFO stores each word that the registers bring, it takes in `DEPTH`
words without a read, and when it stays empty it has delivered all. -/
theorem relay_station_refines_a_queue (DATA_WIDTH DEPTH LEVEL : Nat) (hlevel : 1 ≤ LEVEL)
    (s : relay_station (relay_unit DATA_WIDTH DEPTH LEVEL) LEVEL)
    (ins : Nat → FifoIn (BitVec DATA_WIDTH)) (htied : ∀ c, (ins c).Tied) (n : Nat) (hn : 0 < n)
    (hk : LEVEL - 1 ≤ n) (hreset : (ins (n - 1)).reset = true)
    (hlow : ∀ c, n ≤ c → (ins c).reset = false) :
    relay_station.Serves (relay_unit DATA_WIDTH DEPTH LEVEL) DEPTH LEVEL s ins n := by
  obtain ⟨q, hshows⟩ := exists_relay_unit_shows DATA_WIDTH DEPTH LEVEL
  exact relay_station.serves q hshows hlevel rfl s ins htied hn hk hreset hlow

/-- A station of two levels takes in its two words from a writer that never stops, with no
read. -/
theorem an_unread_station_fills :
    let s : relay_station (relay_unit 8 2 2) 2 :=
      ⟨fun _ => ⟨false, false, 0⟩, (⟨⟨0, false, false, fun _ => 0⟩, 0, false⟩ :
        fifo_srl_almost_full (BitVec 8) 10 4)⟩
    let ins : Nat → FifoIn (BitVec 8) := fun c =>
      ⟨decide (c < 1), true, decide (1 ≤ c), BitVec.ofNat 8 c, true, false⟩
    2 ≤ (relay_station.accepts (relay_unit 8 2 2) 2 s ins 0 5).length := by
  intro s ins
  exact (relay_station_refines_a_queue 8 2 2 (by decide) s ins (fun _ => ⟨rfl, rfl⟩) 1 (by decide)
    (by decide) rfl fun c hc => decide_eq_false (by omega)).fills
      fun c hc => ⟨decide_eq_true hc, rfl⟩

end Tapa.Rtl
