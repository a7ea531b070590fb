-- Computations that may fail: what a success of a chain or of a loop says about
-- its parts, and where a failure of a loop comes from.
import Mathlib

namespace Tapa.Fallible

open List

variable {ε σ α β : Type}

/-- What a loop has gone through after one turn more. -/
theorem mem_snoc {ys : List α} {x y : α} : x ∈ ys ++ [y] ↔ x ∈ ys ∨ x = y := by
  rw [mem_append, mem_singleton]

theorem forall_mem_snoc {ys : List α} {y : α} {P : α → Prop} :
    (∀ x ∈ ys ++ [y], P x) ↔ (∀ x ∈ ys, P x) ∧ P y := by
  simp [or_imp, forall_and]

theorem nodup_snoc {ys : List α} {y : α} (h : ys.Nodup) (hy : y ∉ ys) : (ys ++ [y]).Nodup := by
  refine nodup_append.mpr ⟨h, by simp, fun a ha b hb heq => hy ?_⟩
  rwa [← mem_singleton.mp hb, ← heq]

theorem getElem?_snoc_eq_some {ys : List α} {x y : α} {i : Nat} :
    (ys ++ [y])[i]? = some x ↔ ys[i]? = some x ∨ i = ys.length ∧ x = y := by
  grind

section

variable {κ ν : Type} {cmp : κ → κ → Ordering} [Std.TransCmp cmp] {m : Std.ExtTreeMap κ ν cmp}
  {k : κ}

theorem mem_iff_get : k ∈ m ↔ ∃ v, m[k]? = some v := by
  rw [Std.ExtTreeMap.mem_iff_isSome_getElem?, Option.isSome_iff_exists]

theorem mem_of_get {v : ν} (h : m[k]? = some v) : k ∈ m :=
  mem_iff_get.mpr ⟨v, h⟩

end

/-- The value of an option, or an error where there is none. -/
def ok_or : Option α → ε → Except ε α
  | some a, _ => .ok a
  | none, e => .error e

variable {e : ε}

@[simp] theorem ok_or_eq_ok {x : Option α} {a : α} : ok_or x e = .ok a ↔ x = some a := by
  cases x <;> simp [ok_or]

@[simp] theorem ok_or_eq_error {x : Option α} {e' : ε} :
    ok_or x e = .error e' ↔ x = none ∧ e = e' := by
  cases x <;> simp [ok_or]

variable {x : Except ε α}

theorem eq_ok_get (h : x.toOption.isSome = true) : x = .ok (x.toOption.get h) := by
  cases x with
  | error e => cases h
  | ok a => rfl

def ensure (c : Prop) [Decidable c] (e : ε) : Except ε Unit := if c then .ok () else .error e

variable {u : Unit}

@[simp] theorem ensure_eq_ok {c : Prop} [Decidable c] :
    ensure c e = .ok u ↔ c := by
  unfold ensure
  split <;> simp_all

@[simp] theorem ensure_eq_error {c : Prop} [Decidable c] {e' : ε} :
    ensure c e = .error e' ↔ ¬ c ∧ e = e' := by
  unfold ensure
  split <;> simp_all

/-- A search that must find nothing, with an error for what it finds. -/
def refuse : Option α → (α → ε) → Except ε Unit
  | none, _ => .ok ()
  | some a, e => .error (e a)

@[simp] theorem refuse_eq_ok {x : Option α} {e : α → ε} :
    refuse x e = .ok u ↔ x = none := by
  cases x <;> simp [refuse]

theorem ok_bind (a : α) (f : α → Except ε β) : (Except.ok a >>= f) = f a := rfl

theorem bind_eq_ok {f : α → Except ε β} {b : β} :
    (x >>= f) = .ok b ↔ ∃ a, x = .ok a ∧ f a = .ok b := by
  cases x with
  | error e | ok a => simp [bind, Except.bind]

theorem bind_eq_error {f : α → Except ε β} :
    (x >>= f) = .error e ↔ x = .error e ∨ ∃ a, x = .ok a ∧ f a = .error e := by
  cases x with
  | error e' | ok a => simp [bind, Except.bind]

variable {f : σ → α → Except ε σ} {xs : List α} {s s' : σ}

theorem foldlM_cons_eq_ok {x : α} :
    (x :: xs).foldlM f s = .ok s' ↔ ∃ s1, f s x = .ok s1 ∧ xs.foldlM f s1 = .ok s' := by
  rw [foldlM_cons, bind_eq_ok]

theorem foldlM_snoc_eq_ok {x : α} :
    (xs ++ [x]).foldlM f s = .ok s' ↔ ∃ s1, xs.foldlM f s = .ok s1 ∧ f s1 x = .ok s' := by
  rw [foldlM_append, bind_eq_ok]
  simp

/-- A turn of a loop that counts its turns. -/
theorem zipIdx_turn {ys : List (α × Nat)} {y : α} {i n : Nat} (h : ys ++ [(y, i)] <+: xs.zipIdx n) :
    xs[ys.length]? = some y ∧ i = n + ys.length := by
  obtain ⟨zs, hzs⟩ := h
  have hget : (xs.zipIdx n)[ys.length]? = some (y, i) := by simp [← hzs]
  rw [getElem?_zipIdx] at hget
  obtain ⟨y', hy, heq⟩ := Option.map_eq_some_iff.mp hget
  cases heq
  exact ⟨hy, rfl⟩

/-- A loop depends only on its turns. -/
theorem foldlM_congr {g : σ → α → Except ε σ} (s : σ) (h : ∀ x ∈ xs, ∀ s, f s x = g s x) :
    xs.foldlM f s = xs.foldlM g s := by
  induction xs generalizing s with
  | nil => rfl
  | cons x xs ih =>
    rw [foldlM_cons, h x mem_cons_self]
    exact congrArg _ (funext fun s1 => ih s1 fun y hy => h y (mem_cons_of_mem x hy))

variable {P : List α → σ → Prop}

/-- Along a list, from what is left at its end back to all of it. -/
theorem prefix_rec {Q : List α → List α → Prop} (xs : List α) (hnil : Q xs [])
    (hcons : ∀ ys z zs, ys ++ [z] <+: xs → Q (ys ++ [z]) zs → Q ys (z :: zs)) : Q [] xs := by
  have hgen : ∀ zs ys, ys ++ zs = xs → Q ys zs := by
    intro zs
    induction zs with
    | nil => exact fun ys heq => append_nil ys ▸ heq ▸ hnil
    | cons z zs ih =>
      intro ys heq
      have heq' : ys ++ [z] ++ zs = xs := by rw [← heq]; simp
      exact hcons ys z zs ⟨zs, heq'⟩ (ih (ys ++ [z]) heq')
  exact hgen xs [] rfl

/-- The rule for loops: what holds before and is kept by each turn holds at the end. -/
theorem foldlM_invariant (h : xs.foldlM f s = .ok s') (hstart : P [] s)
    (hstep : ∀ ys y s s', ys ++ [y] <+: xs → P ys s → f s y = .ok s' → P (ys ++ [y]) s') :
    P xs s' := by
  refine prefix_rec (Q := fun ys zs => ∀ t, P ys t → zs.foldlM f t = .ok s' → P xs s') xs
    (fun t hP ht => ?_) (fun ys z zs hpre ih t hP ht => ?_) s hstart h
  · obtain rfl : t = s' := Except.ok.inj ht
    exact hP
  · obtain ⟨t1, h1, h2⟩ := foldlM_cons_eq_ok.mp ht
    exact ih t1 (hstep ys z t t1 hpre hP h1) h2

variable {ys : List β}

theorem of_foldl {τ : Type} {W : τ → Prop} {g : τ → α → τ} (hback : ∀ t x, W (g t x) → W t) {t : τ}
    (h : W (xs.foldl g t)) : W t := by
  induction xs generalizing t with
  | nil => exact h
  | cons x xs ih => exact hback t x (ih h)

/-- A computation succeeds just where `W` holds, and then with a result that satisfies `R`. -/
def Settles (r : Except ε σ) (W : Prop) (R : σ → Prop) : Prop :=
  match r with
  | .ok s => W ∧ R s
  | .error _ => ¬ W

theorem Settles.bind {f : α → Except ε β} {W W' : Prop} {R : α → Prop} {R' : β → Prop}
    (hx : Settles x W R) (hback : W' → W) (hf : ∀ a, W → R a → Settles (f a) W' R') :
    Settles (x >>= f) W' R' := by
  cases x with
  | error e => exact fun h => hx (hback h)
  | ok a => exact hf a hx.1 hx.2

theorem Settles.congr {W W' : Prop} {R : α → Prop} (hx : Settles x W R) (h : W ↔ W') :
    Settles x W' R := by
  cases x with
  | error e => exact fun hw => hx (h.mpr hw)
  | ok a => exact ⟨h.mp hx.1, hx.2⟩

/-- The rule for loops whose turns may fail, depending on the turns before. -/
theorem foldlM_settles_of_prefix {W : List α → Prop} (hback : ∀ ys, ys <+: xs → W xs → W ys)
    (hW : W []) (hstart : P [] s) (hstep : ∀ ys y s, ys ++ [y] <+: xs → W ys → P ys s →
      Settles (f s y) (W (ys ++ [y])) (P (ys ++ [y]))) :
    Settles (xs.foldlM f s) (W xs) (P xs) := by
  refine prefix_rec (Q := fun ys zs => ∀ t, W ys → P ys t → Settles (zs.foldlM f t) (W xs) (P xs))
    xs (fun t hW hP => ⟨hW, hP⟩) (fun ys z zs hpre ih t hW hP => ?_) s hW hstart
  exact (hstep ys z t hpre hW hP).bind (hback _ hpre) ih

/-- The rule for loops whose turns may fail: the loop succeeds just where each turn does. -/
theorem foldlM_settles {W : α → Prop} (hstart : P [] s)
    (hstep : ∀ ys y s, ys ++ [y] <+: xs → P ys s → Settles (f s y) (W y) (P (ys ++ [y]))) :
    Settles (xs.foldlM f s) (∀ x ∈ xs, W x) (P xs) := by
  refine foldlM_settles_of_prefix (W := fun ys => ∀ y ∈ ys, W y)
    (fun ys hpre h y hy => h y (hpre.subset hy)) (by simp) hstart fun ys y s hpre hW hP => ?_
  refine (hstep ys y s hpre hP).congr ?_
  simpa [or_imp, forall_and] using fun _ => hW

/-- The rule for loops that end well: a loop succeeds where its invariant lets each
turn succeed and is kept by it. -/
theorem foldlM_succeeds (hstart : P [] s)
    (hstep : ∀ ys y s, ys ++ [y] <+: xs → P ys s → ∃ s', f s y = .ok s' ∧ P (ys ++ [y]) s') :
    ∃ s', xs.foldlM f s = .ok s' ∧ P xs s' := by
  have h : Settles (xs.foldlM f s) (∀ x ∈ xs, True) (P xs) := by
    refine foldlM_settles hstart fun ys y s hpre hP => ?_
    obtain ⟨s', hs', hP'⟩ := hstep ys y s hpre hP
    rw [hs']
    exact ⟨trivial, hP'⟩
  cases hrun : xs.foldlM f s with
  | error e =>
    rw [hrun] at h
    exact absurd (fun _ _ => trivial) h
  | ok s' =>
    rw [hrun] at h
    exact ⟨s', rfl, h.2⟩

theorem exists_foldlM_eq_ok (h : ∀ x ∈ xs, ∀ s, ∃ s', f s x = .ok s') (s : σ) :
    ∃ s', xs.foldlM f s = .ok s' := by
  obtain ⟨s', hs', -⟩ := foldlM_succeeds (P := fun _ _ => True) trivial
    fun ys y s hpre _ => by
      obtain ⟨s', hs'⟩ := h y (hpre.subset (by simp)) s
      exact ⟨s', hs', trivial⟩
  exact ⟨s', hs'⟩

/-- A failure of a loop is that of the first turn that fails, after those before it. -/
theorem exists_of_foldlM_error (h : xs.foldlM f s = .error e) :
    ∃ ys x zs s', xs = ys ++ x :: zs ∧ ys.foldlM f s = .ok s' ∧ f s' x = .error e := by
  induction xs generalizing s with
  | nil => cases h
  | cons x xs ih =>
    rw [foldlM_cons, bind_eq_error] at h
    rcases h with h | ⟨s1, h1, h⟩
    · exact ⟨[], x, xs, s, rfl, rfl, h⟩
    · obtain ⟨ys, y, zs, s', rfl, hys, hy⟩ := ih h
      refine ⟨x :: ys, y, zs, s', rfl, ?_, hy⟩
      rw [foldlM_cons, h1]
      exact hys

theorem exists_of_foldlM_eq_error (h : xs.foldlM f s = .error e) :
    ∃ x ∈ xs, ∃ s', f s' x = .error e := by
  obtain ⟨ys, x, zs, s', rfl, _, hx⟩ := exists_of_foldlM_error h
  exact ⟨x, by simp, s', hx⟩

theorem forM_eq_ok {f : α → Except ε Unit} :
    xs.forM f = .ok u ↔ ∀ x ∈ xs, f x = .ok u := by
  induction xs with
  | nil => simp [forM_nil, pure, Except.pure]
  | cons x xs ih =>
    rw [forall_mem_cons, ← ih]
    exact bind_eq_ok.trans ⟨fun ⟨_, hx, hxs⟩ => ⟨hx, hxs⟩, fun ⟨hx, hxs⟩ => ⟨u, hx, hxs⟩⟩

theorem exists_of_forM_eq_error {f : α → Except ε Unit} (h : xs.forM f = .error e) :
    ∃ x ∈ xs, f x = .error e := by
  induction xs with
  | nil => cases h
  | cons x xs ih =>
    rcases bind_eq_error.mp h with h | ⟨_, _, h⟩
    · exact ⟨x, by simp, h⟩
    · obtain ⟨y, hy, hfy⟩ := ih h
      exact ⟨y, by simp [hy], hfy⟩

/-- A traversal succeeds when every turn does, with the results in order. -/
theorem mapM_eq_ok {f : α → Except ε β} :
    xs.mapM f = .ok ys ↔ List.Forall₂ (fun x y => f x = .ok y) xs ys := by
  induction xs generalizing ys with
  | nil =>
    rw [List.forall₂_nil_left_iff]
    exact ⟨fun h => (Except.ok.inj h).symm, fun h => h ▸ rfl⟩
  | cons x xs ih =>
    rw [mapM_cons]
    simp only [bind_eq_ok, ih, List.forall₂_cons_left_iff]
    constructor
    · rintro ⟨y, hy, ys', hys, heq⟩
      exact ⟨y, ys', hy, hys, (Except.ok.inj heq).symm⟩
    · rintro ⟨y, ys', hy, hys, rfl⟩
      exact ⟨y, hy, ys', hys, rfl⟩

variable {R : α → β → Prop}

theorem exists_of_forall₂ (h : List.Forall₂ R xs ys) {x : α} (hx : x ∈ xs) : ∃ y ∈ ys, R x y := by
  induction h with
  | nil => cases hx
  | cons hxy _ ih =>
    rcases mem_cons.mp hx with rfl | hx
    · exact ⟨_, mem_cons_self, hxy⟩
    · obtain ⟨y, hy, hxy'⟩ := ih hx
      exact ⟨y, mem_cons_of_mem _ hy, hxy'⟩

theorem exists_of_forall₂_right (h : List.Forall₂ R xs ys) {y : β} (hy : y ∈ ys) :
    ∃ x ∈ xs, R x y :=
  exists_of_forall₂ h.flip hy

theorem exists_getElem?_of_forall₂ (h : List.Forall₂ R xs ys) {i : Nat} {y : β}
    (hy : ys[i]? = some y) :
    ∃ x, xs[i]? = some x ∧ R x y := by
  obtain ⟨hlt, rfl⟩ := List.getElem?_eq_some_iff.mp hy
  have hlt' : i < xs.length := h.length_eq ▸ hlt
  exact ⟨xs[i], getElem?_eq_getElem hlt', h.get hlt' hlt⟩

theorem exists_of_mapM_eq_error {f : α → Except ε β} (h : xs.mapM f = .error e) :
    ∃ x ∈ xs, f x = .error e := by
  induction xs with
  | nil => cases h
  | cons x xs ih =>
    rw [mapM_cons, bind_eq_error] at h
    rcases h with h | ⟨y, _, h⟩
    · exact ⟨x, by simp, h⟩
    rcases bind_eq_error.mp h with h | ⟨ys, _, h⟩
    · obtain ⟨z, hz, hfz⟩ := ih h
      exact ⟨z, by simp [hz], hfz⟩
    · cases h

end Tapa.Fallible
