-- Clocked machines: the state before each cycle of a run, what a window of
-- cycles gives, delay lines, and the law of a queue that works in cycles.
import Mathlib

namespace Tapa.Clock

open List

variable {σ ι α : Type}

/-! ## Runs -/

/-- The state before cycle `t` of a machine that starts in `s`. -/
def run (step : σ → ι → σ) (s : σ) (ins : Nat → ι) : Nat → σ
  | 0 => s
  | t + 1 => step (run step s ins t) (ins t)

section

variable (step : σ → ι → σ) (s : σ) (ins : Nat → ι)

@[simp] theorem run_zero : run step s ins 0 = s := rfl

theorem run_succ (t : Nat) : run step s ins (t + 1) = step (run step s ins t) (ins t) := rfl

theorem run_pred {t : Nat} (h : 0 < t) :
    run step s ins t = step (run step s ins (t - 1)) (ins (t - 1)) := by
  rw [← run_succ step, Nat.sub_add_cancel h]

end

/-- A part of the state that steps on its own inputs is a run of its own. -/
theorem run_part {σ' ι' : Type} (step : σ → ι → σ) (step' : σ' → ι' → σ') (part : σ → σ')
    (feed : σ → ι → ι') (h : ∀ s i, part (step s i) = step' (part s) (feed s i)) (s : σ)
    (ins : Nat → ι) (t : Nat) :
    part (run step s ins t) =
      run step' (part s) (fun u => feed (run step s ins u) (ins u)) t := by
  induction t with
  | zero => rfl
  | succ t ih => rw [run_succ, h, ih, run_succ]

/-- What every live step keeps, a run of live cycles keeps. -/
theorem run_keeps {step : σ → ι → σ} {s : σ} {ins : Nat → ι} {P : σ → Prop} {live : ι → Prop}
    (hstep : ∀ s i, P s → live i → P (step s i)) {a b : Nat} (hab : a ≤ b)
    (ha : P (run step s ins a)) (hlive : ∀ t, a ≤ t → t < b → live (ins t)) :
    P (run step s ins b) := by
  induction b, hab using Nat.le_induction with
  | base => exact ha
  | succ b hab ih =>
    apply hstep
    · exact ih (fun t h1 h2 => hlive t h1 (by omega))
    · exact hlive b hab (by omega)

/-! ## Windows of cycles -/

/-- What the cycles from `a` up to `b` give, in order. -/
def window (f : Nat → List α) (a b : Nat) : List α := (List.range' a (b - a)).flatMap f

@[simp] theorem window_self (f : Nat → List α) (a : Nat) : window f a a = [] := by
  simp [window]

theorem window_succ (f : Nat → List α) {a b : Nat} (h : a ≤ b) :
    window f a (b + 1) = window f a b ++ f b := by
  unfold window
  have hlen : b + 1 - a = (b - a) + 1 := by omega
  have hlast : a + 1 * (b - a) = b := by omega
  rw [hlen, range'_concat, hlast]
  simp

theorem window_append (f : Nat → List α) {a m b : Nat} (h1 : a ≤ m) (h2 : m ≤ b) :
    window f a b = window f a m ++ window f m b := by
  induction b, h2 using Nat.le_induction with
  | base => simp
  | succ b hb ih =>
    rw [window_succ f (Nat.le_trans h1 hb), window_succ f hb, ih, append_assoc]

theorem window_congr {f g : Nat → List α} {a b : Nat} (h : a ≤ b)
    (hfg : ∀ t, a ≤ t → t < b → f t = g t) : window f a b = window g a b := by
  induction b, h using Nat.le_induction with
  | base => simp
  | succ b hb ih =>
    rw [window_succ f hb, window_succ g hb, ih (fun t h1 h2 => hfg t h1 (by omega)),
      hfg b hb (by omega)]

theorem window_length_le_window {β : Type} {f : Nat → List α} {g : Nat → List β} {a b : Nat}
    (h : a ≤ b) (hfg : ∀ t, a ≤ t → t < b → (f t).length ≤ (g t).length) :
    (window f a b).length ≤ (window g a b).length := by
  induction b, h using Nat.le_induction with
  | base => simp
  | succ b hb ih =>
    rw [window_succ f hb, window_succ g hb, length_append, length_append]
    have h1 := ih (fun t h1 h2 => hfg t h1 (by omega))
    have h2 := hfg b hb (by omega)
    omega

theorem window_length_mono (f : Nat → List α) {a b c : Nat} (h1 : a ≤ b) (h2 : b ≤ c) :
    (window f a b).length ≤ (window f a c).length := by
  rw [window_append f h1 h2, length_append]
  omega

theorem window_eq_nil {f : Nat → List α} {a b : Nat} (h : a ≤ b)
    (hf : ∀ t, a ≤ t → t < b → f t = []) : window f a b = [] := by
  rw [window_congr h hf]
  simp [window]

theorem window_map {β : Type} (g : α → β) (f : Nat → List α) (a b : Nat) :
    window (fun t => (f t).map g) a b = (window f a b).map g := by
  unfold window
  rw [map_flatMap]

theorem window_flatMap {β : Type} (g : α → List β) (f : Nat → List α) (a b : Nat) :
    window (fun t => (f t).flatMap g) a b = (window f a b).flatMap g := by
  unfold window
  rw [flatMap_assoc]

/-- The word of a cycle that carries one only when `b` is high. -/
def emit (b : Bool) (x : α) : List α := if b then [x] else []

@[simp] theorem emit_true (x : α) : emit true x = [x] := rfl

@[simp] theorem emit_false (x : α) : emit false x = [] := rfl

@[simp] theorem emit_length (b : Bool) (x : α) : (emit b x).length = b.toNat := by
  cases b <;> rfl

theorem emit_map {β : Type} (g : α → β) (b : Bool) (x : α) : (emit b x).map g = emit b (g x) := by
  cases b <;> rfl

/-! ## Delay lines -/

section

variable (regs : List α) (x : α)

/-- One shift of a line of registers. The newest word stands first. -/
def shift : List α := (x :: regs).dropLast

/-- The word at the end of the line. A line of no registers is a wire. -/
def tapped : α := regs.getLastD x

@[simp] theorem shift_length : (shift regs x).length = regs.length := by
  simp [shift]

/-- A shift moves every register one place on. -/
theorem getElem?_shift_succ (k : Nat) (h : k + 1 < regs.length) :
    (shift regs x)[k + 1]? = regs[k]? := by
  unfold shift
  rw [getElem?_dropLast, if_pos (by simp; omega), getElem?_cons_succ]

theorem getElem?_shift_zero (h : 0 < regs.length) : (shift regs x)[0]? = some x := by
  unfold shift
  rw [getElem?_dropLast, if_pos (by simpa using h), getElem?_cons_zero]

end

/-- Register `k` holds the word that went in `k + 1` cycles ago, and in the
first cycles the word that stood `t` places before it. -/
theorem getElem?_run_shift (regs : List α) (ins : Nat → α) (t k : Nat) (h : k < regs.length) :
    (run shift regs ins t)[k]? = if k < t then some (ins (t - 1 - k)) else regs[k - t]? := by
  have hlen : ∀ t, (run shift regs ins t).length = regs.length := by
    intro t
    induction t with
    | zero => rfl
    | succ t ih => rw [run_succ, shift_length, ih]
  induction t generalizing k with
  | zero => simp
  | succ t ih =>
    rw [run_succ]
    cases k with
    | zero => rw [getElem?_shift_zero _ _ (by rw [hlen]; exact h)]; simp
    | succ k =>
      rw [getElem?_shift_succ _ _ _ (by rw [hlen]; exact h), ih k (by omega)]
      by_cases hk : k < t
      · rw [if_pos hk, if_pos (by omega)]
        congr 2
        omega
      · rw [if_neg hk, if_neg (by omega)]
        congr 1
        omega

/-- What comes out of a line of `n` equal registers is what went in `n`
cycles ago, and the first `n` cycles give what the registers held. -/
theorem tapped_run_shift (n : Nat) (x : α) (ins : Nat → α) (t : Nat) :
    tapped (run shift (List.replicate n x) ins t) (ins t) = if t < n then x else ins (t - n) := by
  have hlen : (run shift (List.replicate n x) ins t).length = n := by
    have : ∀ t, (run shift (List.replicate n x) ins t).length = n := by
      intro t
      induction t with
      | zero => simp
      | succ t ih => rw [run_succ, shift_length, ih]
    exact this t
  unfold tapped
  rw [getLastD_eq_getLast?, getLast?_eq_getElem?, hlen]
  cases n with
  | zero =>
    have hnil : run shift (List.replicate 0 x) ins t = [] := length_eq_zero_iff.mp hlen
    rw [hnil]
    simp
  | succ n =>
    rw [Nat.add_sub_cancel, getElem?_run_shift _ _ _ _ (by simp)]
    by_cases h : n < t
    · rw [if_pos h, if_neg (by omega)]
      simp only [Option.getD_some]
      congr 1
      omega
    · rw [if_neg h, if_pos (by omega), getElem?_replicate, if_pos (by omega)]
      rfl

/-! ## Queues -/

/-- The law of a queue. In a live cycle, the words it holds and then the words
it takes are the words it gives and then the words it holds after. -/
structure QueueLaw (step : σ → ι → σ) (live : ι → Prop) (inv : σ → Prop) (words : σ → List α)
    (taken given : σ → ι → List α) : Prop where
  keep : ∀ s i, inv s → live i → inv (step s i)
  flow : ∀ s i, inv s → live i → words s ++ taken s i = given s i ++ words (step s i)

section Queue

variable {step : σ → ι → σ} {live : ι → Prop} {inv : σ → Prop} {words : σ → List α}
  {taken given : σ → ι → List α} {s : σ} {ins : Nat → ι}

/-- Over a window of live cycles no word is lost, made up or moved. -/
theorem QueueLaw.conserves (q : QueueLaw step live inv words taken given) {a b : Nat}
    (hab : a ≤ b) (ha : inv (run step s ins a)) (hlive : ∀ t, a ≤ t → t < b → live (ins t)) :
    words (run step s ins a) ++ window (fun t => taken (run step s ins t) (ins t)) a b =
      window (fun t => given (run step s ins t) (ins t)) a b ++ words (run step s ins b) := by
  induction b, hab using Nat.le_induction with
  | base => simp
  | succ b hab ih =>
    have hinv : inv (run step s ins b) :=
      run_keeps q.keep hab ha (fun t h1 h2 => hlive t h1 (by omega))
    have hflow := q.flow _ _ hinv (hlive b hab (by omega))
    rw [window_succ _ hab, window_succ _ hab, ← append_assoc,
      ih (fun t h1 h2 => hlive t h1 (by omega)), append_assoc, hflow, run_succ,
      append_assoc]

/-- A machine whose state maps onto that of a queue in its live cycles is that
queue. -/
theorem QueueLaw.comap {σ' ι' : Type} {step' : σ' → ι' → σ'} {live' : ι' → Prop} (abs : σ' → σ)
    (feed : ι' → ι) (q : QueueLaw step live inv words taken given)
    (hlive : ∀ i, live' i → live (feed i))
    (h : ∀ s i, live' i → abs (step' s i) = step (abs s) (feed i)) :
    QueueLaw step' live' (fun s => inv (abs s)) (fun s => words (abs s))
      (fun s i => taken (abs s) (feed i)) (fun s i => given (abs s) (feed i)) where
  keep := fun s i hs hl => by
    rw [h s i hl]
    exact q.keep _ _ hs (hlive i hl)
  flow := fun s i hs hl => by
    rw [h s i hl]
    exact q.flow _ _ hs (hlive i hl)

end Queue

/-! ## What must come -/

/-- Whatever the live inputs are, the machine comes to a state that satisfies `P`. -/
inductive Inevitable (step : σ → ι → σ) (live : ι → Prop) (P : σ → Prop) : σ → Prop
  | now {s : σ} (h : P s) : Inevitable step live P s
  | later {s : σ} (h : ∀ i, live i → Inevitable step live P (step s i)) : Inevitable step live P s

/-- What must come does come in a run whose inputs are live. -/
theorem Inevitable.comes {step : σ → ι → σ} {live : ι → Prop} {P : σ → Prop} {s : σ}
    {ins : Nat → ι} {a : Nat} (h : Inevitable step live P (run step s ins a))
    (hlive : ∀ t, a ≤ t → live (ins t)) : ∃ b, a ≤ b ∧ P (run step s ins b) := by
  generalize hr : run step s ins a = r at h
  induction h generalizing a with
  | now h => exact ⟨a, Nat.le_refl a, hr ▸ h⟩
  | later _ ih =>
    obtain ⟨b, hab, hb⟩ := ih (ins a) (hlive a (Nat.le_refl a))
      (fun t ht => hlive t (Nat.le_of_succ_le ht)) (by rw [run_succ, hr])
    exact ⟨b, Nat.le_of_succ_le hab, hb⟩

/-- By induction on the steps until `P` comes for the first time. -/
theorem Inevitable.first {step : σ → ι → σ} {live : ι → Prop} {P : σ → Prop}
    {motive : (s : σ) → Inevitable step live P s → Prop} (now : ∀ s (h : P s), motive s (.now h))
    (later : ∀ s (h : ∀ i, live i → Inevitable step live P (step s i)), ¬P s →
      (∀ i hi, motive (step s i) (h i hi)) → motive s (.later h))
    {s : σ} (h : Inevitable step live P s) : motive s h := by
  induction h with
  | now h => exact now _ h
  | @later s h ih =>
    by_cases hs : P s
    · exact now s hs
    · exact later s h hs ih

/-- If what must come is kept, it must still come one step later. -/
theorem Inevitable.step {step : σ → ι → σ} {live : ι → Prop} {P : σ → Prop} {s : σ} {i : ι}
    (h : Inevitable step live P s) (hi : live i) (hkept : P s → P (step s i)) :
    Inevitable step live P (step s i) := by
  cases h with
  | now h => exact .now (hkept h)
  | later h => exact h i hi

end Tapa.Clock
