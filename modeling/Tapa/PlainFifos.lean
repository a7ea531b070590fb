-- The plain stream FIFOs as the wires of a stream see them: what goes in comes out in
-- order, the word at the output stays until it is read, a word is refused only by a full
-- FIFO, and a FIFO that stays empty has nothing left.
import Tapa.FifoChoice

namespace Tapa.Rtl

open Clock WordMemory

/-! ## The promise -/

section Promise

variable {width : Nat}

section

variable (m : FifoModule (BitVec width)) (s : m.State) (ins : Nat → StreamIn width)

/-- The registers of a FIFO on the wires of a stream at the start of a cycle. -/
def FifoModule.at (t : Nat) : m.State :=
  run m.step s (fun c => fifo_port_args (ins c)) t

/-- The words that the writer hands over in a window of cycles. -/
def FifoModule.accepts (a b : Nat) : List (BitVec width) :=
  window (fun c => m.accepted (m.at s ins c) (fifo_port_args (ins c))) a b

/-- The words that the reader takes in a window of cycles. -/
def FifoModule.delivers (a b : Nat) : List (BitVec width) :=
  window (fun c => m.given (m.at s ins c) (fifo_port_args (ins c))) a b

end

/-- A bounded queue of at least `DEPTH` words, from cycle `n` on. -/
structure FifoModule.Serves (m : FifoModule (BitVec width)) (DEPTH : Nat) (s : m.State)
    (ins : Nat → StreamIn width) (n : Nat) : Prop where
  in_order : ∀ t, n ≤ t → m.delivers s ins n t <+: m.accepts s ins n t
  stable : ∀ t, n ≤ t → m.if_empty_n (m.at s ins t) (fifo_port_args (ins t)) = true →
    (ins t).read = false →
      m.if_empty_n (m.at s ins (t + 1)) (fifo_port_args (ins (t + 1))) = true ∧
      m.if_dout (m.at s ins (t + 1)) (fifo_port_args (ins (t + 1))) =
        m.if_dout (m.at s ins t) (fifo_port_args (ins t))
  full : ∀ t, n ≤ t → m.if_full_n (m.at s ins t) = false →
    (m.delivers s ins n t).length + DEPTH ≤ (m.accepts s ins n t).length
  empty : ∀ t, n ≤ t →
    (∀ c, t ≤ c → m.if_empty_n (m.at s ins c) (fifo_port_args (ins c)) = false) →
      m.delivers s ins n t = m.accepts s ins n t

/-- A FIFO that is a bounded queue after every reset, for every writer and every reader. -/
def FifoModule.RefinesQueue (m : FifoModule (BitVec width)) (DEPTH : Nat) : Prop :=
  ∀ (s : m.State) (ins : Nat → StreamIn width) (n : Nat), 0 < n → (ins (n - 1)).reset = true →
    (∀ c, n ≤ c → (ins c).reset = false) → m.Serves DEPTH s ins n

/-- What the promise asks of one clock edge. -/
structure FifoModule.IsPlain (m : FifoModule (BitVec width)) (DEPTH : Nat) (q : m.IsQueue) :
    Prop where
  clears : q.Clears
  gated : m.Gated
  full : ∀ s, q.inv s → m.if_full_n s = false → DEPTH ≤ (q.words s).length
  stable : ∀ s (i j : StreamIn width), q.inv s → i.reset = false →
    m.if_empty_n s (fifo_port_args i) = true → i.read = false →
      m.if_empty_n (m.step s (fifo_port_args i)) (fifo_port_args j) = true ∧
      m.if_dout (m.step s (fifo_port_args i)) (fifo_port_args j) = m.if_dout s (fifo_port_args i)
  shows : ∀ s (i j : StreamIn width), q.inv s → i.reset = false → q.words s ≠ [] →
    m.if_empty_n s (fifo_port_args i) = true ∨
      m.if_empty_n (m.step s (fifo_port_args i)) (fifo_port_args j) = true

theorem FifoModule.IsPlain.refinesQueue {m : FifoModule (BitVec width)} {DEPTH : Nat}
    {q : m.IsQueue} (h : m.IsPlain DEPTH q) : m.RefinesQueue DEPTH := by
  intro s ins n hn hreset hlive
  have hheld : ∀ t, n ≤ t → q.inv (m.at s ins t) ∧
      m.accepts s ins n t = m.delivers s ins n t ++ q.words (m.at s ins t) := by
    intro t ht
    obtain ⟨hinv, hwords⟩ := h.clears.turns.conserves s (fun c => fifo_port_args (ins c)) hn
      (Nat.zero_le n) hreset (fun c h1 _ => hlive c h1) ht
    refine ⟨hinv, ?_⟩
    refine Eq.trans (window_congr ht fun c _ _ => ?_) hwords
    rw [FifoModule.taken, h.gated]
    rfl
  refine ⟨fun t ht => ?_, fun t ht hempty hread => ?_, fun t ht hfull => ?_, fun t ht hempty => ?_⟩
  · exact ⟨_, (hheld t ht).2.symm⟩
  · exact h.stable _ _ _ (hheld t ht).1 (hlive t ht) hempty hread
  · have hlen := h.full _ (hheld t ht).1 hfull
    rw [(hheld t ht).2, List.length_append]
    omega
  · have hnone : q.words (m.at s ins t) = [] := by
      by_contra hsome
      rcases h.shows _ (ins t) (ins (t + 1)) (hheld t ht).1 (hlive t ht) hsome with hs | hs
      · rw [hempty t (Nat.le_refl t)] at hs
        cases hs
      · have hnext := hempty (t + 1) (Nat.le_succ t)
        exact absurd (hs.symm.trans hnext) (by simp)
    rw [(hheld t ht).2, hnone, List.append_nil]

end Promise

/-! ## The three storages -/

theorem fifo_fwd.isPlain (DATA_WIDTH : Nat) :
    (fifo_fwd.rtl (BitVec DATA_WIDTH)).IsPlain 1 (fifo_fwd.isQueue _) where
  clears := fifo_fwd.isQueue_clears
  gated := fun _ _ => rfl
  full := by
    intro s _ hfull
    have hvalid : s.is_mem_valid = true := by simpa [fifo_fwd.rtl, fifo_fwd.if_full_n] using hfull
    simp [fifo_fwd.isQueue, fifo_fwd.words, hvalid]
  stable := by
    intro s i j _ hlive hempty hread
    have hlive : (fifo_port_args i).reset = false := hlive
    cases hvalid : s.is_mem_valid <;> cases hwrite : i.write <;>
      simp_all [fifo_fwd.rtl, fifo_fwd.if_empty_n, fifo_fwd.if_dout, fifo_fwd.step,
        fifo_fwd.stored, fifo_fwd.if_full_n]
  shows := by
    intro s i j _ _ hsome
    left
    have hvalid : s.is_mem_valid = true := by
      by_contra hno
      exact hsome (by simp [fifo_fwd.isQueue, fifo_fwd.words, hno])
    simp [fifo_fwd.rtl, fifo_fwd.if_empty_n, hvalid]

/-- The word at the pointer is the first of the words. -/
theorem SrlCore.Inv.head_words {α : Type} [Inhabited α] {n full : Nat} {s : SrlCore α n}
    (h : SrlCore.Inv full s) (hs : SrlCore.Sized full n) (h0 : s.count ≠ 0) :
    s.words.head? = some (s.mem.read (SrlCore.addr_of n s.out_ptr)) := by
  rw [h.read_addr hs h0, SrlCore.words]
  obtain ⟨k, hk⟩ : ∃ k, s.count = k + 1 := ⟨s.count - 1, by omega⟩
  rw [hk, shiftWords_pop, List.head?_cons, Nat.add_sub_cancel]

theorem fifo_srl.isPlain (DATA_WIDTH : Nat) {DEPTH : Nat} (h2 : 2 ≤ DEPTH) (h32 : DEPTH < 2 ^ 32) :
    (fifo_srl.rtl (BitVec DATA_WIDTH) DEPTH).IsPlain DEPTH (fifo_srl.isQueue h2 h32) where
  clears := fifo_srl.isQueue_clears h2 h32
  gated := fun _ _ => rfl
  full := by
    intro s hinv hfull
    have hcount : s.count = DEPTH := by
      have hdec := hinv.full.symm.trans hfull
      simpa using hdec
    simp [fifo_srl.isQueue, SrlCore.words, hcount]
  stable := by
    intro s i j hinv hlive hempty hread
    have hcount : s.count ≠ 0 := by
      have hdec := hinv.empty.symm.trans hempty
      simpa using hdec
    have hpop : ((fifo_port_args i).read && s.internal_empty_n) = false := by simp [hread]
    obtain ⟨hinv', hcount'⟩ :=
      SrlCore.step_inv (fifo_srl.sized h2 h32) s (fifo_port_args i) hinv hlive
    have hwords := SrlCore.step_words (fifo_srl.sized h2 h32) s (fifo_port_args i) hinv hlive
    rw [hpop, Bool.toNat_false] at hcount'
    rw [hpop, emit_false, List.nil_append] at hwords
    refine ⟨hinv'.empty.trans (decide_eq_true (by omega)), ?_⟩
    have hhead := hinv.head_words (fifo_srl.sized h2 h32) hcount
    have hhead' := hinv'.head_words (fifo_srl.sized h2 h32) (by omega)
    rw [← hwords, List.head?_append, hhead, Option.some_or, Option.some.injEq] at hhead'
    exact hhead'.symm
  shows := by
    intro s i j hinv _ hsome
    left
    refine hinv.empty.trans (decide_eq_true fun hzero => hsome ?_)
    simp [fifo_srl.isQueue, SrlCore.words, hzero]

theorem fifo_bram.isPlain (DATA_WIDTH : Nat) {DEPTH ADDR_WIDTH : Nat}
    (hs : fifo_bram.Sized DEPTH ADDR_WIDTH) :
    (fifo_bram.rtl (BitVec DATA_WIDTH) DEPTH ADDR_WIDTH).IsPlain DEPTH (fifo_bram.isQueue hs) where
  clears := fifo_bram.isQueue_clears hs
  gated := fifo_bram.gated _ _ _
  full := by
    intro s hinv hfull
    have hcount : s.count = DEPTH := by
      have hdec := hinv.full.symm.trans hfull
      simpa using hdec
    simp [fifo_bram.isQueue, fifo_bram.words, hcount]
  stable := by
    intro s i j _ hlive hempty hread
    have hvalid : s.dout_valid = true := hempty
    have hlive : (fifo_port_args i).reset = false := hlive
    have hread : (fifo_port_args i).if_read = false := hread
    simp [fifo_bram.rtl, fifo_bram.if_empty_n, fifo_bram.if_dout, fifo_bram.step, fifo_bram.pop,
      hvalid, hlive, hread]
  shows := fun s i _ hinv hlive hsome =>
    fifo_bram.Inv.shown hinv hlive rfl hsome

/-- The address of the FIFO that codegen builds has a bit, and enough for its depth. -/
theorem sized_of_fifo_addr_width {DEPTH : Nat} (h1 : 1 ≤ DEPTH) :
    fifo_bram.Sized DEPTH (fifo_addr_width DEPTH) := by
  refine ⟨h1, le_two_pow_fifo_addr_width DEPTH, ?_⟩
  calc 2 = 2 ^ 1 := rfl
    _ ≤ 2 ^ fifo_addr_width DEPTH := Nat.pow_le_pow_right (by decide) (Nat.le_max_right _ 1)

/-- Each storage is a bounded queue at the depths that it is made for: the forwarding register
at one word, the shift register at two or more, and the block RAM at all. So is the FIFO that
codegen instantiates, at every depth. -/
theorem plain_fifos_refine_a_queue (DATA_WIDTH DEPTH : Nat) (h1 : 1 ≤ DEPTH)
    (h32 : DEPTH < 2 ^ 32) :
    (DEPTH = 1 → (fifo_fwd.rtl (BitVec DATA_WIDTH)).RefinesQueue DEPTH) ∧
    (2 ≤ DEPTH → (fifo_srl.rtl (BitVec DATA_WIDTH) DEPTH).RefinesQueue DEPTH) ∧
    (fifo_bram.rtl (BitVec DATA_WIDTH) DEPTH (fifo_addr_width DEPTH)).RefinesQueue DEPTH ∧
    (build_fifo_instance DATA_WIDTH DEPTH).RefinesQueue DEPTH := by
  have hfwd : DEPTH = 1 → (fifo_fwd.rtl (BitVec DATA_WIDTH)).RefinesQueue DEPTH := by
    rintro rfl
    exact (fifo_fwd.isPlain DATA_WIDTH).refinesQueue
  have hsrl : 2 ≤ DEPTH → (fifo_srl.rtl (BitVec DATA_WIDTH) DEPTH).RefinesQueue DEPTH :=
    fun h2 => (fifo_srl.isPlain DATA_WIDTH h2 h32).refinesQueue
  have hbram := (fifo_bram.isPlain DATA_WIDTH (sized_of_fifo_addr_width h1)).refinesQueue
  refine ⟨hfwd, hsrl, hbram, ?_⟩
  unfold build_fifo_instance fifo
  split
  · exact hfwd ‹_›
  split
  · exact hbram
  split
  · exact hbram
  · exact hsrl (by omega)

/-- A FIFO of two words between 32-bit tasks. -/
theorem two_words_refine_a_queue : (build_fifo_instance 32 2).RefinesQueue 2 :=
  (plain_fifos_refine_a_queue 32 2 (by decide) (by decide)).2.2.2

/-- A writer that never stops, with a reader from cycle six on. -/
def burstIn (c : Nat) : StreamIn 32 := ⟨decide (c < 1), true, 1, decide (6 ≤ c)⟩

/-- At other depths they are not: the forwarding register refuses the second of two words, and
the shift register of one word never refuses, so that the first word of five is gone. -/
theorem other_depths_do_not_refine_a_queue :
    ¬ (fifo_fwd.rtl (BitVec 32)).RefinesQueue 2 ∧
    ¬ (fifo_srl.rtl (BitVec 32) 1).RefinesQueue 1 := by
  refine ⟨fun h => ?_, fun h => ?_⟩
  · have hserves := h ⟨0, false⟩ burstIn 1 (by decide) rfl
      fun c hc => decide_eq_false (by omega)
    exact absurd (hserves.full 2 (by decide) (by decide)) (by decide)
  · have hserves := h ⟨0, false, false, fun _ => 0⟩ burstIn 1 (by decide) rfl
      fun c hc => decide_eq_false (by omega)
    exact absurd (hserves.in_order 7 (by decide)) (by decide +kernel)

end Tapa.Rtl
