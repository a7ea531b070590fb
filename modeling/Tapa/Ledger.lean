-- Ledgers: amounts by key. A credit opens its account, a debit needs one that
-- holds enough. Debits that the opening balances cover go through in any order.
import Tapa.Fallible

namespace Tapa.Ledger

open Fallible List Std.ExtTreeMap

/-- The accounts of a ledger with their balances. -/
abbrev Book (κ α : Type) [Ord κ] : Type := Std.ExtTreeMap κ α compare

inductive Posting (κ α : Type) where
  | credit (key : κ) (amount : α)
  | debit (key : κ) (amount : α)

/-- Why a posting does not go through. -/
inductive Refusal where
  | unknown | uncovered | overflow
deriving DecidableEq

variable {κ α ε β : Type} [AddCommMonoid α]

/-! ## Postings -/

/-- The accounts that a list of postings opens. -/
def Opens (k : κ) (ps : List (Posting κ α)) : Prop := ∃ amount, Posting.credit k amount ∈ ps

section

variable [DecidableEq κ] {k : κ} {ps qs : List (Posting κ α)}

/-- What a posting brings to an account. -/
def Posting.credited (k : κ) : Posting κ α → α
  | .credit key amount => if key = k then amount else 0
  | .debit _ _ => 0

/-- What a posting takes from an account. -/
def Posting.debited (k : κ) : Posting κ α → α
  | .credit _ _ => 0
  | .debit key amount => if key = k then amount else 0

def credits (k : κ) (ps : List (Posting κ α)) : α := (ps.map fun p => p.credited k).sum

def debits (k : κ) (ps : List (Posting κ α)) : α := (ps.map fun p => p.debited k).sum

@[simp] theorem credits_cons (k : κ) (p : Posting κ α) (ps : List (Posting κ α)) :
    credits k (p :: ps) = p.credited k + credits k ps := by
  simp [credits]

@[simp] theorem debits_cons (k : κ) (p : Posting κ α) (ps : List (Posting κ α)) :
    debits k (p :: ps) = p.debited k + debits k ps := by
  simp [debits]

@[simp] theorem credits_append (k : κ) (ps qs : List (Posting κ α)) :
    credits k (ps ++ qs) = credits k ps + credits k qs := by
  simp [credits]

@[simp] theorem debits_append (k : κ) (ps qs : List (Posting κ α)) :
    debits k (ps ++ qs) = debits k ps + debits k qs := by
  simp [debits]

@[simp] theorem credits_nil (k : κ) : credits k ([] : List (Posting κ α)) = 0 := rfl

@[simp] theorem debits_nil (k : κ) : debits k ([] : List (Posting κ α)) = 0 := rfl

theorem credits_flatMap (k : κ) (f : β → List (Posting κ α)) (xs : List β) :
    credits k (xs.flatMap f) = (xs.map fun x => credits k (f x)).sum := by
  induction xs with
  | nil => rfl
  | cons x xs ih => simp [flatMap_cons, ih]

theorem debits_flatMap (k : κ) (f : β → List (Posting κ α)) (xs : List β) :
    debits k (xs.flatMap f) = (xs.map fun x => debits k (f x)).sum := by
  induction xs with
  | nil => rfl
  | cons x xs ih => simp [flatMap_cons, ih]

theorem credits_perm (h : ps.Perm qs) :
    credits k ps = credits k qs :=
  (h.map _).sum_eq

theorem debits_perm (h : ps.Perm qs) :
    debits k ps = debits k qs :=
  (h.map _).sum_eq

end

/-- Debits that are shared out among the parts of a balance, each part covering its share,
are covered by the whole. -/
theorem sum_le_of_shares [PartialOrder α] [IsOrderedCancelAddMonoid α] {ι : Type} {xs : List ι}
    (holder : ι → Nat) {amount : ι → α} {parts : List α}
    (hholder : ∀ x ∈ xs, holder x < parts.length)
    (hshare : ∀ i (hi : i < parts.length),
      (xs.map fun x => if holder x = i then amount x else 0).sum ≤ parts[i]) :
    (xs.map amount).sum ≤ parts.sum := by
  have hsplit : (xs.map amount).sum = ∑ i : Fin parts.length,
      (xs.map fun x => if holder x = i.1 then amount x else 0).sum := by
    clear hshare
    induction xs with
    | nil => simp
    | cons x xs ih =>
      have hx := hholder x (by simp)
      have hone : (∑ i : Fin parts.length, if holder x = i.1 then amount x else 0) = amount x := by
        rw [Finset.sum_eq_single (⟨holder x, hx⟩ : Fin parts.length)]
        · simp
        · intro i _ hne
          exact if_neg fun h => hne (Fin.ext h.symm)
        · simp
      simp only [map_cons, sum_cons, Finset.sum_add_distrib, hone]
      rw [ih fun y hy => hholder y (by simp [hy])]
  calc (xs.map amount).sum
      = ∑ i : Fin parts.length, (xs.map fun x => if holder x = i.1 then amount x else 0).sum :=
        hsplit
    _ ≤ ∑ i : Fin parts.length, parts[i.1] := Finset.sum_le_sum fun i _ => hshare i.1 i.2
    _ = parts.sum := Fin.sum_univ_getElem parts

/-! ## Balances -/

variable [Ord κ] [Std.TransOrd κ] {k : κ} {m m' : Book κ α}

def balance (m : Book κ α) (k : κ) : α := m.getD k 0

theorem balance_of_getElem? {a : α} (h : m[k]? = some a) :
    balance m k = a := by
  unfold balance
  rw [getD_eq_getD_getElem?, h]
  rfl

theorem balance_insert [Std.LawfulEqOrd κ] [DecidableEq κ] (m : Book κ α) (key k : κ) (a : α) :
    balance (m.insert key a) k = if key = k then a else balance m k := by
  unfold balance
  rw [getD_insert]
  simp

variable [PartialOrder α] [Sub α] [DecidableLE α] {fits : α → Bool}

/-- One posting. An account can only hold an amount that fits. -/
def post (fits : α → Bool) (m : Book κ α) : Posting κ α → Except Refusal (Book κ α)
  | .credit key amount =>
    if fits (balance m key + amount) then .ok (m.insert key (balance m key + amount))
    else .error .overflow
  | .debit key amount =>
    match m[key]? with
    | none => .error .unknown
    | some held => if amount ≤ held then .ok (m.insert key (held - amount)) else .error .uncovered

def run (fits : α → Bool) (m : Book κ α) (ps : List (Posting κ α)) : Except Refusal (Book κ α) :=
  ps.foldlM (post fits) m

theorem post_debit_eq_ok {key : κ} {amount : α} (h : post fits m (.debit key amount) = .ok m') :
    ∃ held, m[key]? = some held ∧ amount ≤ held ∧ m' = m.insert key (held - amount) := by
  simp only [post] at h
  split at h
  · cases h
  rename_i held hheld
  split at h
  · rename_i hle
    exact ⟨held, hheld, hle, (Except.ok.inj h).symm⟩
  · cases h

theorem post_credit_eq_ok {key : κ} {amount : α} (h : post fits m (.credit key amount) = .ok m') :
    m' = m.insert key (balance m key + amount) := by
  simp only [post] at h
  split at h
  · exact (Except.ok.inj h).symm
  · cases h

section

variable [Std.LawfulEqOrd κ] {p : Posting κ α} {ps : List (Posting κ α)}

theorem post_mem (h : post fits m p = .ok m') (k : κ) : k ∈ m' ↔ k ∈ m ∨ Opens k [p] := by
  cases p with
  | credit key amount =>
    rw [post_credit_eq_ok h, mem_insert, Std.compare_eq_iff_eq]
    simp only [Opens, mem_singleton, Posting.credit.injEq]
    constructor
    · rintro (rfl | hk)
      · exact Or.inr ⟨amount, rfl, rfl⟩
      · exact Or.inl hk
    · rintro (hk | ⟨_, rfl, _⟩)
      · exact Or.inr hk
      · exact Or.inl rfl
  | debit key amount =>
    obtain ⟨held, hheld, _, rfl⟩ := post_debit_eq_ok h
    have hkey : key ∈ m := mem_of_get hheld
    rw [mem_insert, Std.compare_eq_iff_eq]
    simp only [Opens, mem_singleton, reduceCtorEq, exists_false, or_false]
    constructor
    · rintro (rfl | hk)
      · exact hkey
      · exact hk
    · exact Or.inr

theorem run_mem (h : run fits m ps = .ok m') (k : κ) : k ∈ m' ↔ k ∈ m ∨ Opens k ps := by
  induction ps generalizing m with
  | nil =>
    obtain rfl : m = m' := Except.ok.inj h
    simp [Opens]
  | cons p ps ih =>
    obtain ⟨m1, h1, h2⟩ := foldlM_cons_eq_ok.mp h
    rw [ih h2, post_mem h1 k]
    simp only [Opens, mem_cons, not_mem_nil, or_false, exists_or]
    tauto

end

/-! ## Covered debits -/

variable [DecidableEq κ] {p : Posting κ α} {ps qs : List (Posting κ α)}

/-- The accounts hold what a list of postings takes from them. -/
structure Covered (m : Book κ α) (ps : List (Posting κ α)) : Prop where
  open_account : ∀ k amount, Posting.debit k amount ∈ ps → k ∈ m
  enough : ∀ k, debits k ps ≤ balance m k

/-- Every account has room for all that a list of postings brings to it. -/
def Room (fits : α → Bool) (m : Book κ α) (ps : List (Posting κ α)) : Prop :=
  ∀ k, fits (balance m k + credits k ps) = true

/-- A fallible step from `m` books the postings `ps`: when they are covered, together with
those still to come, it can only fail with an error of the given kind, and with `side`
only where an account runs out of room. -/
def Books (fits : α → Bool) (kind : ε → Prop) (side : Prop) (m : Book κ α)
    (ps : List (Posting κ α)) (x : Except ε (Book κ α)) : Prop :=
  ∀ rest, Covered m (ps ++ rest) →
    match x with
    | .ok m' => run fits m ps = .ok m'
    | .error e => kind e ∧ (side → ¬ Room fits m (ps ++ rest))

variable {kind : ε → Prop} {side : Prop}

theorem Books.pure (m : Book κ α) :
    Books fits kind side m [] (.ok m) :=
  fun _ _ => rfl

/-- A check before the step adds an error, which must be of the kind and against `side`. -/
theorem Books.check {y : Except ε β} {f : β → Except ε (Book κ α)}
    (hy : ∀ e, y = .error e → kind e ∧ ¬ side)
    (hf : ∀ b, y = .ok b → Books fits kind side m ps (f b)) :
    Books fits kind side m ps (y >>= f) := by
  cases y with
  | error e =>
    intro rest _
    exact ⟨(hy e rfl).1, fun hside => absurd hside (hy e rfl).2⟩
  | ok b => exact hf b rfl

/-- A posting is booked when only running out of room gives an error, one of the kind. -/
theorem Books.of_post [CanonicallyOrderedAdd α] {x : Except ε (Book κ α)} (why : Refusal → ε)
    (hx : x = (Ledger.post fits m p).mapError why) (hkind : kind (why .overflow))
    (hfits : ∀ a b, a ≤ b → fits b = true → fits a = true) :
    Books fits kind side m [p] x := by
  subst hx
  intro rest hc
  cases p with
  | credit key amount =>
    by_cases hroom : fits (balance m key + amount) = true
    · simp [Ledger.post, hroom, Except.mapError, Ledger.run]
    simp only [Ledger.post, hroom, Bool.false_eq_true, if_false, Except.mapError]
    refine ⟨hkind, fun _ hr => hroom (hfits _ _ ?_ (hr key))⟩
    simp only [cons_append, nil_append, credits_cons, Posting.credited, if_true]
    rw [← add_assoc]
    exact le_self_add
  | debit key amount =>
    have hmem := hc.open_account key amount (by simp)
    obtain ⟨held, hheld⟩ := mem_iff_get.mp hmem
    have hle : amount ≤ held := by
      have he := hc.enough key
      rw [balance_of_getElem? hheld] at he
      simp only [cons_append, nil_append, debits_cons, Posting.debited, if_true] at he
      exact le_self_add.trans he
    simp [Ledger.post, hheld, hle, Except.mapError, Ledger.run]

/-! ## What a run leaves -/

variable [Std.LawfulEqOrd κ] [IsOrderedCancelAddMonoid α] [CanonicallyOrderedAdd α] [OrderedSub α]

theorem post_balance (h : post fits m p = .ok m') (k : κ) :
    balance m' k + p.debited k = balance m k + p.credited k := by
  cases p with
  | credit key amount =>
    rw [post_credit_eq_ok h, balance_insert]
    by_cases hk : key = k
    · simp [Posting.debited, Posting.credited, hk]
    · simp [Posting.debited, Posting.credited, hk]
  | debit key amount =>
    obtain ⟨held, hheld, hle, rfl⟩ := post_debit_eq_ok h
    rw [balance_insert]
    by_cases hk : key = k
    · subst hk
      simp [Posting.debited, Posting.credited, balance_of_getElem? hheld, tsub_add_cancel_of_le hle]
    · simp [Posting.debited, Posting.credited, hk]

/-- What a run leaves in an account. -/
theorem run_balance (h : run fits m ps = .ok m') (k : κ) :
    balance m' k + debits k ps = balance m k + credits k ps := by
  induction ps generalizing m with
  | nil =>
    obtain rfl : m = m' := Except.ok.inj h
    simp
  | cons p ps ih =>
    obtain ⟨m1, h1, h2⟩ := foldlM_cons_eq_ok.mp h
    have hrest := ih h2
    have hp := post_balance h1 k
    calc balance m' k + debits k (p :: ps)
        = balance m' k + debits k ps + p.debited k := by simp only [debits_cons]; abel
      _ = balance m1 k + p.debited k + credits k ps := by rw [hrest]; abel
      _ = balance m k + credits k (p :: ps) := by rw [hp, credits_cons]; abel

/-- Two runs of the same postings end with the same accounts, whatever their order. -/
theorem run_perm {m1 m2 : Book κ α} (hperm : ps.Perm qs) (h1 : run fits m ps = .ok m1)
    (h2 : run fits m qs = .ok m2) : m1 = m2 := by
  have hbal : ∀ k, balance m1 k = balance m2 k := by
    intro k
    have e1 := run_balance h1 k
    have e2 := run_balance h2 k
    rw [credits_perm hperm, ← e2, debits_perm hperm, add_comm, add_comm (balance m2 k)] at e1
    exact add_left_cancel e1
  have hmem : ∀ k, k ∈ m1 ↔ k ∈ m2 := by
    intro k
    rw [run_mem h1 k, run_mem h2 k]
    simp only [Opens, hperm.mem_iff]
  apply Std.ExtTreeMap.ext_getElem?
  intro k
  by_cases hk : k ∈ m1
  · have hk2 := (hmem k).mp hk
    obtain ⟨a, ha⟩ := mem_iff_get.mp hk
    obtain ⟨b, hb⟩ := mem_iff_get.mp hk2
    rw [ha, hb, ← balance_of_getElem? ha, ← balance_of_getElem? hb, hbal k]
  · rw [getElem?_eq_none hk,
      getElem?_eq_none (fun h => hk ((hmem k).mpr h))]

theorem Covered.post (hc : Covered m (p :: ps)) (h : post fits m p = .ok m') :
    Covered m' ps := by
  constructor
  · intro k amount hmem
    rw [post_mem h k]
    exact Or.inl (hc.open_account k amount (mem_cons_of_mem _ hmem))
  · intro k
    have he := hc.enough k
    cases p with
    | credit key amount =>
      rw [post_credit_eq_ok h, balance_insert]
      simp only [debits_cons, Posting.debited, zero_add] at he
      split
      · rename_i hk
        subst hk
        exact he.trans le_self_add
      · exact he
    | debit key amount =>
      obtain ⟨held, hheld, hle, rfl⟩ := post_debit_eq_ok h
      rw [balance_insert]
      simp only [debits_cons, Posting.debited] at he
      split
      · rename_i hk
        subst hk
        rw [if_pos rfl, balance_of_getElem? hheld] at he
        exact le_tsub_of_add_le_left he
      · rename_i hk
        rw [if_neg hk, zero_add] at he
        exact he

theorem Covered.run (hc : Covered m (ps ++ qs)) (h : run fits m ps = .ok m') : Covered m' qs := by
  induction ps generalizing m with
  | nil =>
    obtain rfl : m = m' := Except.ok.inj h
    exact hc
  | cons p ps ih =>
    obtain ⟨m1, h1, h2⟩ := foldlM_cons_eq_ok.mp h
    exact ih (hc.post h1) h2

theorem Room.run (hfits : ∀ a b, a ≤ b → fits b = true → fits a = true)
    (hr : Room fits m (ps ++ qs)) (h : run fits m ps = .ok m') : Room fits m' qs := by
  intro k
  refine hfits _ _ ?_ (hr k)
  calc balance m' k + credits k qs
      ≤ balance m' k + debits k ps + credits k qs := by
        rw [add_right_comm]
        exact le_self_add
    _ = balance m k + credits k (ps ++ qs) := by
        rw [run_balance h k, credits_append, add_assoc]

theorem Books.bind (hfits : ∀ a b, a ≤ b → fits b = true → fits a = true)
    {x : Except ε (Book κ α)} {f : Book κ α → Except ε (Book κ α)}
    (hx : Books fits kind side m ps x) (hf : ∀ m', Books fits kind side m' qs (f m')) :
    Books fits kind side m (ps ++ qs) (x >>= f) := by
  intro rest hc
  rw [append_assoc] at hc
  have h1 := hx (qs ++ rest) hc
  cases x with
  | error e =>
    rw [append_assoc]
    exact h1
  | ok m1 =>
    have h2 := hf m1 rest (hc.run h1)
    change match f m1 with
      | .ok m' => _
      | .error e => _
    cases hm : f m1 with
    | error e =>
      rw [hm] at h2
      refine ⟨h2.1, fun hside hroom => h2.2 hside ?_⟩
      rw [append_assoc] at hroom
      exact hroom.run hfits h1
    | ok m' =>
      rw [hm] at h2
      change (ps ++ qs).foldlM (Ledger.post fits) m = .ok m'
      rw [foldlM_append]
      change (Ledger.run fits m ps >>= fun m => Ledger.run fits m qs) = .ok m'
      rw [h1]
      exact h2

/-- A loop books what its turns book. -/
theorem Books.foldlM (hfits : ∀ a b, a ≤ b → fits b = true → fits a = true)
    {f : Book κ α → β → Except ε (Book κ α)} {entries : β → List (Posting κ α)} {xs : List β}
    (hf : ∀ x ∈ xs, ∀ m, Books fits kind side m (entries x) (f m x)) (m : Book κ α) :
    Books fits kind side m (xs.flatMap entries) (xs.foldlM f m) := by
  induction xs generalizing m with
  | nil => exact Books.pure m
  | cons x xs ih =>
    exact (hf x (by simp) m).bind hfits fun m' => ih (fun y hy => hf y (by simp [hy])) m'

/-! ## Sums over all accounts -/

section Sums

variable {ν β : Type} [AddCommMonoid β]

omit [DecidableEq κ] in
theorem toList_nodup (m : Book κ ν) : m.toList.Nodup := by
  have hkeys := distinct_keys_toList (t := m)
  refine hkeys.imp fun {a b} hne heq => hne ?_
  rw [heq]
  exact Std.ReflCmp.compare_self

/-- The entries after a change: the new one, and the old ones of the other keys. -/
theorem toList_insert_perm (m : Book κ ν) (k : κ) (v : ν) :
    (m.insert k v).toList.Perm ((k, v) :: m.toList.filter fun entry => entry.1 ≠ k) := by
  refine (perm_ext_iff_of_nodup (toList_nodup _) ?_).mpr fun entry => ?_
  · refine nodup_cons.mpr ⟨fun hmem => ?_, (toList_nodup m).filter _⟩
    simpa using (mem_filter.mp hmem).2
  · obtain ⟨key, value⟩ := entry
    rw [Std.ExtTreeMap.mem_toList_iff_getElem?_eq_some, Std.ExtTreeMap.getElem?_insert,
      mem_cons, mem_filter]
    by_cases hkey : k = key
    · subst hkey
      simp [eq_comm]
    · simp [hkey, Ne.symm hkey]

/-- A sum over all accounts is the term of one and the sum over the others. -/
theorem sum_toList_split (m : Book κ ν) (k : κ) (f : κ × ν → β) :
    (m.toList.map f).sum = ((m[k]?).map fun old => f (k, old)).getD 0 +
      ((m.toList.filter fun entry => entry.1 ≠ k).map f).sum := by
  cases hold : m[k]? with
  | none =>
    have hfilter : (m.toList.filter fun entry => entry.1 ≠ k) = m.toList := by
      refine filter_eq_self.mpr fun entry hentry => ?_
      have hsome := mem_toList_iff_getElem?_eq_some.mp hentry
      simp only [ne_eq, decide_eq_true_eq]
      rintro rfl
      rw [hold] at hsome
      cases hsome
    rw [hfilter, Option.map_none, Option.getD_none, zero_add]
  | some old =>
    have hsame : m.insert k old = m := by
      ext key value
      rw [Std.ExtTreeMap.getElem?_insert]
      by_cases hkey : k = key
      · subst hkey
        simp [hold]
      · simp [hkey]
    have hperm := toList_insert_perm m k old
    rw [hsame] at hperm
    rw [(hperm.map f).sum_eq]
    simp

/-- A change of one account moves a sum over all of them by the change of its term. -/
theorem sum_toList_insert (m : Book κ ν) (k : κ) (v : ν) (f : κ × ν → β) :
    ((m.insert k v).toList.map f).sum + ((m[k]?).map fun old => f (k, old)).getD 0 =
      (m.toList.map f).sum + f (k, v) := by
  rw [((toList_insert_perm m k v).map f).sum_eq, sum_toList_split m k f, map_cons,
    sum_cons]
  abel

end Sums

end Tapa.Ledger
