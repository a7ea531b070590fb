-- The write responses of `async_mmap`. The length of each burst waits in `write_req` until the
-- memory answers the burst, and then goes to the user: so the user gets the lengths of the
-- answered bursts in their order, and no more acknowledgements than words answered.
import Tapa.AsyncMmap
import Tapa.RelayService

namespace Tapa.Rtl

open Clock List

theorem MmapParams.drains (p : MmapParams) (DATA_WIDTH : Nat) : (p.buffer DATA_WIDTH).Drains 0 :=
  relay_drains DATA_WIDTH p.BufferSize 1 p.EnableWriteChannel (by decide)

namespace async_mmap

variable {p : MmapParams}

/-! ## The ports of the responses -/

section

variable (s : async_mmap p)

def m_axi_BREADY : Bool :=
  (p.buffer _).if_full_n s.write_resp && if_empty_n p s.write_req

def write_resp_empty_n : Bool := if_empty_n p s.write_resp

def write_resp_dout : BitVec 8 := (if_dout p s.write_resp).setWidth 8

/-- The answer that the B channel takes in a cycle. -/
def answer (i : MmapIn p) : List Unit :=
  emit (i.m_axi_BVALID && s.m_axi_BREADY) ()

def resp (i : MmapIn p) : List (BitVec 8) :=
  emit (i.write_resp_read && s.write_resp_empty_n) s.write_resp_dout

/-- The responses that the user has yet to take. -/
def held_resps : List (BitVec 8) :=
  ((p.isRelay _).words s.write_resp).map (BitVec.setWidth 8)

end

/-! ## A run -/

section Run

variable (s : async_mmap p) (ins : Nat → MmapIn p) (n : Nat)

/-- The bursts that the AW channel took by cycle `t`, with their lengths. -/
def aws (t : Nat) : List (BitVec p.AxiSideAddrWidth × BitVec 8) :=
  window (fun c => aw (run step s ins c) (ins c)) n t

/-- The beats that the W channel took by cycle `t`. -/
def ws (t : Nat) : List (BitVec p.DataWidth × Bool) :=
  window (fun c => beat (run step s ins c) (ins c)) n t

/-- The data words that the user handed over by cycle `t`. -/
def user_words (t : Nat) : List (BitVec p.DataWidth) :=
  window (fun c => data (run step s ins c) (ins c)) n t

/-- The number of bursts that the memory answered by cycle `t`. -/
def answered (t : Nat) : Nat :=
  (window (fun c => answer (run step s ins c) (ins c)) n t).length

/-- The responses that the user took by cycle `t`. -/
def resps (t : Nat) : List (BitVec 8) :=
  window (fun c => resp (run step s ins c) (ins c)) n t

/-- The words of the bursts that the memory answered by cycle `t`, by their lengths on AW. -/
def answered_beats (t : Nat) : Nat :=
  (((aws s ins n t).take (answered s ins n t)).map fun b => b.2.toNat + 1).sum

/-- The data words of the user whose burst the memory answered by cycle `t`. The bursts take
the words in their order. -/
def answered_words (t : Nat) : List (BitVec p.DataWidth) :=
  (user_words s ins n t).take (answered_beats s ins n t)

/-- The memory gives one answer for each burst, in order, and only after it has taken the burst
and all its beats. -/
structure AnswersInOrder : Prop where
  taken : ∀ t, n ≤ t → answered s ins n t ≤ (aws s ins n t).length
  beats : ∀ t, n ≤ t → answered_beats s ins n t ≤ (ws s ins n t).length

variable {s ins n} {t : Nat}

/-- The lengths that the answers move from `write_req` to `write_resp`. -/
def moved (s : async_mmap p) (ins : Nat → MmapIn p) (n t : Nat) : List (BitVec p.BurstLenWidth) :=
  window (fun c => emit ((ins c).m_axi_BVALID && (run step s ins c).m_axi_BREADY)
    (if_dout p (run step s ins c).write_req)) n t

theorem moved_length : (moved s ins n t).length = answered s ins n t := by
  have hmap : window (fun c => answer (run step s ins c) (ins c)) n t =
      (moved s ins n t).map fun _ => () := by
    unfold moved
    rw [← window_map]
    simp only [emit_map]
    rfl
  unfold answered
  rw [hmap, length_map]

/-- The lengths of the bursts are those moved, and then those of the bursts without an
answer. -/
theorem lengths_moved (h : Starts ins n) (hnt : n ≤ t) :
    let st := run step s ins
    window (fun c => emit ((st c).burst_write (ins c)) (st c).detect_burst_write.burst_len) n t =
      moved s ins n t ++ (p.isRelay _).words (st t).write_req := by
  intro st
  have hreq := buffer_conserves (fun s => s.write_req) burst_write
    (fun s _ => s.detect_burst_write.burst_len)
    (fun s i => (p.buffer _).if_full_n s.write_resp && i.m_axi_BVALID) (fun _ _ => rfl) s ins h hnt
  refine Eq.trans (window_congr hnt fun c _ _ => ?_) (hreq.trans ?_)
  · rw [(burst_write_taken _ _).2.2]
  · refine congrArg (· ++ _) (window_congr hnt fun c _ _ => ?_)
    unfold m_axi_BREADY
    ac_rfl

/-- What `write_resp` takes is what the answers move. -/
theorem taken_eq_moved (hnt : n ≤ t) :
    window (fun c => emit (((ins c).m_axi_BVALID && if_empty_n p (run step s ins c).write_req) &&
      (p.buffer _).if_full_n (run step s ins c).write_resp)
        (if_dout p (run step s ins c).write_req)) n t = moved s ins n t := by
  refine window_congr hnt fun c _ _ => ?_
  unfold m_axi_BREADY
  ac_rfl

/-- The user takes the lengths moved, and then those that `write_resp` still holds. -/
theorem moved_eq_resps (h : Starts ins n) (hnt : n ≤ t) :
    (moved s ins n t).map (BitVec.setWidth 8) =
      resps s ins n t ++ (run step s ins t).held_resps := by
  have hresp := buffer_conserves (fun s => s.write_resp)
    (fun s i => i.m_axi_BVALID && if_empty_n p s.write_req) (fun s _ => if_dout p s.write_req)
    (fun _ i => i.write_resp_read) (fun _ _ => rfl) s ins h hnt
  have hmap := congrArg (List.map (BitVec.setWidth 8)) ((taken_eq_moved hnt).symm.trans hresp)
  rw [map_append, ← window_map] at hmap
  refine hmap.trans (congrArg (· ++ _) (window_congr hnt fun c _ _ => ?_))
  rw [emit_map]
  rfl

/-- Where `write_resp` stays empty, the user has taken all lengths moved. -/
theorem resps_of_empty (h : Starts ins n) (hnt : n ≤ t)
    (hempty : ∀ c, t ≤ c → (run step s ins c).write_resp_empty_n = false) :
    resps s ins n t = (moved s ins n t).map (BitVec.setWidth 8) := by
  let feed := fun (s : async_mmap p) (i : MmapIn p) => port i.rst
    (i.m_axi_BVALID && if_empty_n p s.write_req) (if_dout p s.write_req) i.write_resp_read
  have hrun (c : Nat) : run (p.buffer _).step s.write_resp
      (fun c => feed (run step s ins c) (ins c)) c = (run step s ins c).write_resp :=
    (run_part step (p.buffer _).step (fun s => s.write_resp) feed (fun _ _ => rfl) s ins c).symm
  have hlow : ∀ c, t ≤ c → (p.buffer _).if_empty_n (run (p.buffer _).step s.write_resp
      (fun c => feed (run step s ins c) (ins c)) c) (feed (run step s ins c) (ins c)) = false := by
    intro c hc
    rw [((p.isRelay _).output _ _ (port false false 0 false)).1, hrun]
    exact hempty c hc
  have hdrain := p.drains p.BurstLenWidth s.write_resp
    (fun c => feed (run step s ins c) (ins c)) n t (fun _ => ⟨rfl, rfl⟩) h.pos (Nat.zero_le n)
    h.high h.low hnt hlow
  simp only [hrun, feed, port_read, port_write, Nat.sub_zero] at hdrain
  rw [← taken_eq_moved hnt, ← hdrain, ← window_map]
  refine window_congr hnt fun c _ _ => ?_
  rw [emit_map]
  rfl

/-- The responses are the lengths on AW of the answered bursts, in their order. -/
theorem moved_eq_aws (h : Starts ins n) (hmem : AnswersInOrder s ins n) (hnt : n ≤ t) :
    (moved s ins n t).map (BitVec.setWidth 8) =
      ((aws s ins n t).take (answered s ins n t)).map Prod.snd := by
  have hlens := (lengths_conserve s ins h hnt).symm.trans (lengths_moved h hnt)
  have haws : (aws s ins n t).map Prod.snd =
      (window (fun c => emit ((run step s ins c).m_axi_AWVALID && (ins c).m_axi_AWREADY)
        ((if_dout p (run step s ins c).burst_write_addr).extractLsb' p.AddrWidth
          p.BurstLenWidth)) n t).map (BitVec.setWidth 8) := by
    unfold aws
    rw [← window_map, ← window_map]
    refine window_congr hnt fun c _ _ => ?_
    rw [aw, emit_map, emit_map]
    rfl
  have hlength := congrArg List.length haws
  rw [length_map, length_map] at hlength
  have htaken := hmem.taken t hnt
  have hmoved : moved s ins n t = List.take (answered s ins n t)
      (window (fun c => emit ((run step s ins c).m_axi_AWVALID && (ins c).m_axi_AWREADY)
        ((if_dout p (run step s ins c).burst_write_addr).extractLsb' p.AddrWidth
          p.BurstLenWidth)) n t) := by
    rw [← take_append_of_le_length (by omega), hlens, ← moved_length, take_left]
  rw [hmoved, map_take, ← haws, map_take]

/-- The user has handed over all words of the answered bursts. -/
theorem answered_words_length (h : Starts ins n) (hmem : AnswersInOrder s ins n) (hnt : n ≤ t) :
    (answered_words s ins n t).length = answered_beats s ins n t := by
  have hdata : user_words s ins n t = (ws s ins n t).map Prod.fst ++ (run step s ins t).held_data :=
    data_conserves s ins h hnt
  have hle := hmem.beats t hnt
  unfold answered_words
  rw [length_take, hdata, length_append, length_map]
  omega

end Run

/-- The words that the responses acknowledge. -/
def acknowledged (values : List (BitVec 8)) : Nat := (values.map fun v => v.toNat + 1).sum

/-- With a memory that answers each burst once, in order and after its last beat, the responses
are the AWLEN of the answered bursts in their order, up to those that wait in the queue. So they
never acknowledge more words than the memory has answered, and all of them once the queue is
empty: that is, when it holds nothing, or when it shows nothing from then on. -/
theorem write_acknowledgements_are_conserved (p : MmapParams) (s : async_mmap p)
    (ins : Nat → MmapIn p) (n : Nat) (h : Starts ins n) (hmem : AnswersInOrder s ins n) (t : Nat)
    (hnt : n ≤ t) :
    resps s ins n t ++ (run step s ins t).held_resps =
        ((aws s ins n t).take (answered s ins n t)).map Prod.snd ∧
      acknowledged (resps s ins n t) ≤ (answered_words s ins n t).length ∧
      ((run step s ins t).held_resps = [] ∨
          (∀ c, t ≤ c → (run step s ins c).write_resp_empty_n = false) →
        acknowledged (resps s ins n t) = (answered_words s ins n t).length) := by
  have hmoved := moved_eq_aws h hmem hnt
  have hresps := moved_eq_resps (s := s) h hnt
  have hsum : acknowledged ((moved s ins n t).map (BitVec.setWidth 8)) =
      (answered_words s ins n t).length := by
    rw [answered_words_length h hmem hnt, hmoved]
    unfold acknowledged answered_beats
    rw [map_map]
    rfl
  refine ⟨hresps.symm.trans hmoved, ?_, ?_⟩
  · rw [← hsum, hresps]
    unfold acknowledged
    rw [map_append, sum_append]
    omega
  · rintro (hnone | hempty)
    · rw [← hsum, hresps, hnone, append_nil]
    · rw [← hsum, resps_of_empty h hnt hempty]

/-- A memory that answers one burst, in cycle `k`, when it has taken the burst and its beats. -/
theorem answersInOrder_once {s : async_mmap p} {ins : Nat → MmapIn p} {n k : Nat} (hk : n ≤ k)
    (hquiet : ∀ c, c ≠ k → (ins c).m_axi_BVALID = false) {b : BitVec p.AxiSideAddrWidth × BitVec 8}
    (htaken : aws s ins n k = [b]) (hbeats : b.2.toNat + 1 ≤ (ws s ins n k).length) :
    AnswersInOrder s ins n := by
  have hsplit : ∀ t, k ≤ t →
      aws s ins n t = b :: window (fun c => aw (run step s ins c) (ins c)) k t := by
    intro t ht
    have happend : aws s ins n t = aws s ins n k ++ _ := window_append _ hk ht
    rw [happend, htaken]
    rfl
  -- There is no answer up to cycle `k`, and one at most from then on.
  have hcount : ∀ t, n ≤ t → answered s ins n t ≤ if k < t then 1 else 0 := by
    intro t hnt
    induction t, hnt using Nat.le_induction with
    | base => simp [answered]
    | succ t hnt ih =>
      have hlast : (answer (run step s ins t) (ins t)).length ≤ if t = k then 1 else 0 := by
        split
        · rw [answer, emit_length]
          exact Bool.toNat_le _
        · rw [answer, hquiet t ‹_›, Bool.false_and, emit_false, length_nil]
      unfold answered at ih ⊢
      rw [window_succ _ hnt, length_append]
      grind
  refine ⟨fun t hnt => ?_, fun t hnt => ?_⟩
  · have hle := hcount t hnt
    split at hle
    · rw [hsplit t (by omega), length_cons]
      omega
    · omega
  · have hle := hcount t hnt
    unfold answered_beats
    split at hle
    · have hws : (ws s ins n k).length ≤ (ws s ins n t).length :=
        window_length_mono _ hk (by omega)
      rw [hsplit t (by omega)]
      rcases Nat.le_one_iff_eq_zero_or_eq_one.mp hle with hzero | hone
      · rw [hzero]
        exact Nat.zero_le _
      · rw [hone, take_succ_cons, take_zero, map_cons, map_nil, sum_cons, sum_nil]
        omega
    · rw [Nat.le_zero.mp hle]
      exact Nat.zero_le _

theorem two_words_are_acknowledged :
    let ins := twoWords fun c => decide (c = 14)
    acknowledged (resps emptied ins 2 17) = 2 ∧
      acknowledged (resps emptied ins 2 17) ≤ (answered_words emptied ins 2 17).length := by
  intro ins
  have hmem : AnswersInOrder emptied ins 2 :=
    answersInOrder_once (b := (16, 1)) (by decide) (fun c hc => decide_eq_false hc)
      (by decide +kernel) (by decide +kernel)
  exact ⟨by decide +kernel, (write_acknowledgements_are_conserved byteWords emptied ins 2
    ⟨by decide, rfl, twoWords_live _⟩ hmem 17 (by decide)).2.1⟩

end async_mmap

end Tapa.Rtl
