-- Flattening does not check the names of the leaves that it collects. The name of a leaf
-- is followed by those of its scopes, with an underscore before each, and a leaf without
-- a name takes its definition and its place. Two names run together just where the name of
-- an instance ends in that of a sibling, and a leaf has what is missing in its own name.
import Tapa.FlatNames

namespace Tapa.Text

theorem underscore_notMem_decimal (n : Nat) : '_' ∉ decimal n := by
  intro h
  exact absurd (isDigit_of_mem_decimal h) (by decide)

end Tapa.Text

namespace Tapa.Ir

open Text Fallible Std.ExtTreeMap Option

/-! ## Names that end in an index -/

/-- The name of an instance without one of its own. -/
def automatic_name (e : EndpointRef) : Str := e.1 ++ '_' :: decimal e.2

/-- The last underscore of such a name stands before the index. -/
theorem automatic_name_inj {e e' : EndpointRef} (h : automatic_name e = automatic_name e') :
    e = e' := by
  have hrev := congrArg List.reverse h
  simp only [automatic_name, List.reverse_append, List.reverse_cons, List.append_assoc,
    List.singleton_append] at hrev
  have hsplit {e : EndpointRef} :
      split_once '_' ((decimal e.2).reverse ++ '_' :: e.1.reverse) =
        some ((decimal e.2).reverse, e.1.reverse) :=
    split_once_append_cons (by simpa using underscore_notMem_decimal e.2) _
  have heq : some ((decimal e.2).reverse, e.1.reverse) =
      some ((decimal e'.2).reverse, e'.1.reverse) := by
    rw [← hsplit, ← hsplit, hrev]
  simp only [Option.some.injEq, Prod.mk.injEq, List.reverse_inj] at heq
  exact Prod.ext heq.2 (decimal_inj heq.1)

def Task.child_names (task : Task) : List Str :=
  task.invocations.map fun x => x.2.2.canonical_name x.1 x.2.1

/-- The names of a task are apart just when instances with one name are one. -/
theorem Task.child_names_nodup {task : Task} : task.child_names.Nodup ↔
    ∀ d i a d' i' a', (d, i, a) ∈ task.invocations → (d', i', a') ∈ task.invocations →
      a.canonical_name d i = a'.canonical_name d' i' → (d, i) = (d', i') := by
  have hkeys := task.invocations_nodup
  unfold child_names
  rw [List.nodup_map_iff_inj_on (List.Nodup.of_map _ hkeys)]
  constructor
  · intro h d i a d' i' a' hx hy heq
    have hxy := h _ hx _ hy heq
    simp only [Prod.mk.injEq] at hxy ⊢
    exact ⟨hxy.1, hxy.2.1⟩
  · rintro h ⟨d, i, a⟩ hx ⟨d', i', a'⟩ hy heq
    exact List.inj_on_of_nodup_map hkeys hx hy (h d i a d' i' a' hx hy heq)

namespace TaskGraph

variable (g : TaskGraph)

/-- Inside each upper task, the instances have names of their own. -/
def SiblingsApart : Prop :=
  ∀ (name : Str) (task : Task), g.tasks[name]? = some task → task.level = .Upper →
    task.child_names.Nodup

def top_names : List Str := ((g.task_at []).map Task.child_names).getD []

/-- The name that a leaf with a name of its own has in the flat graph. -/
def scoped_name : Path → Option Str
  | [] => none
  | s :: p => (g.inst_at (s :: p)).bind fun inst => inst.name.map fun name =>
      if p = [] then name else in_scope name (g.scope_at p)

/-! ## Names that run together -/

/-- A leaf with a name of its own, and one without. -/
def NamedLeaf (p : Path) : Prop := g.IsLeaf p ∧ ((g.inst_at p).bind TaskInstance.name).isSome

def UnnamedLeaf (p : Path) : Prop := g.IsLeaf p ∧ (g.inst_at p).bind TaskInstance.name = none

/-- The name of a leaf that is `r` below a task, followed by the instances in between. -/
def name_below (p : Path) : Path → Str
  | [] => []
  | s :: r => if r = [] then g.canonical_at (s :: p) else
      in_scope (g.canonical_at (s :: (r ++ p))) (name_below p r)

/-- The place of a leaf among those of its definition, in the order of the graph. -/
noncomputable def place (q : Path) : Nat :=
  {p | (g.IsLeaf p ∧ g.task_name_at p = g.task_name_at q) ∧ Before p q}.ncard

/-- The names of the source do not run together. A leaf does not have the name of a sibling
task behind that of a leaf below this task. Where the name of a task ends in that of a
sibling task, no leaf below the sibling has the rest behind the name of a leaf below the
task. And no name right under the top, and none that ends in the name of the top, is that
of a definition with the place of an unnamed leaf. -/
structure Unambiguous : Prop where
  leaves : ∀ s t r p, p ≠ [] → r ≠ [] → g.NamedLeaf (s :: p) → g.NamedLeaf (r ++ t :: p) →
    g.canonical_at (s :: p) ≠ in_scope (g.name_below (t :: p) r) (g.canonical_at (t :: p))
  top_leaves : ∀ s t r, r ≠ [] → g.NamedLeaf [s] → g.NamedLeaf (r ++ [t]) →
    g.canonical_at [s] ≠
      in_scope (g.name_below [t] r) (in_scope (g.canonical_at [t]) g.top)
  scopes : ∀ s t r r' p rest, r ≠ [] → r' ≠ [] → g.NamedLeaf (r ++ s :: p) →
    g.NamedLeaf (r' ++ t :: p) → g.canonical_at (t :: p) = in_scope rest (g.canonical_at (s :: p)) →
      g.name_below (s :: p) r ≠ in_scope (g.name_below (t :: p) r') rest
  automatic : ∀ q s, g.UnnamedLeaf q → g.NamedLeaf [s] →
    g.canonical_at [s] ≠ automatic_name (g.task_name_at q, g.place q)
  automatic_scopes : ∀ q t r, r ≠ [] → g.UnnamedLeaf q → g.NamedLeaf (r ++ [t]) →
    automatic_name (g.task_name_at q, g.place q) ≠
      in_scope (g.name_below [t] r) (in_scope (g.canonical_at [t]) g.top)

variable {g}

theorem flat_instance_name (p : Path) : (g.flat_instance p).name = g.scoped_name p := by
  cases p with
  | nil => rfl
  | cons s p =>
    cases hinst : g.inst_at (s :: p) with
    | none => simp [flat_instance, scoped_name, hinst]
    | some inst => simp [flat_instance, scoped_name, hinst, leaf_instance]

/-- Siblings with one name are one instance. -/
theorem SiblingsApart.canonical_inj (h : g.SiblingsApart) {s t : EndpointRef} {p : Path}
    (hs : g.Occurs (s :: p)) (ht : g.Occurs (t :: p))
    (heq : g.canonical_at (s :: p) = g.canonical_at (t :: p)) : s = t := by
  cases hs with
  | invoke _ hup hs =>
  cases ht with
  | invoke _ _ ht =>
    obtain ⟨task, htask, hlevel⟩ := map_eq_some_iff.mp hup
    obtain ⟨a, ha⟩ := isSome_iff_exists.mp hs
    obtain ⟨b, hb⟩ := isSome_iff_exists.mp ht
    simp only [canonical_at, ha, hb, map_some, getD_some] at heq
    exact Task.child_names_nodup.mp (h _ task htask hlevel) _ _ a _ _ b
      ((g.inst_at_cons htask a).mp ha) ((g.inst_at_cons htask b).mp hb) heq

/-- The scoped name of a named leaf. -/
theorem NamedLeaf.scoped_name {s : EndpointRef} {p : Path} (h : g.NamedLeaf (s :: p)) :
    g.scoped_name (s :: p) = some (if p = [] then g.canonical_at (s :: p) else
      in_scope (g.canonical_at (s :: p)) (g.scope_at p)) := by
  obtain ⟨name, hname⟩ := isSome_iff_exists.mp h.2
  obtain ⟨inst, hinst, hname⟩ := bind_eq_some_iff.mp hname
  have hcanonical : g.canonical_at (s :: p) = name := by
    simp [canonical_at, hinst, TaskInstance.canonical_name, hname]
  simp [TaskGraph.scoped_name, hinst, hname, hcanonical]

theorem namedLeaf_iff {p : Path} (hp : g.IsLeaf p) :
    g.NamedLeaf p ↔ (g.scoped_name p).isSome := by
  refine (and_iff_right hp).trans ?_
  cases p with
  | nil => rfl
  | cons s p =>
    cases hinst : g.inst_at (s :: p) with
    | none => simp [TaskGraph.scoped_name, hinst]
    | some inst => simp [TaskGraph.scoped_name, hinst]

theorem unnamedLeaf_iff {p : Path} (hp : g.IsLeaf p) :
    g.UnnamedLeaf p ↔ g.scoped_name p = none := by
  have hnamed := namedLeaf_iff hp
  unfold NamedLeaf at hnamed
  rw [and_iff_right hp] at hnamed
  unfold UnnamedLeaf
  rw [and_iff_right hp, ← Option.not_isSome_iff_eq_none, hnamed, Option.not_isSome_iff_eq_none]

theorem scope_at_append {r : Path} (hr : r ≠ []) (p : Path) :
    g.scope_at (r ++ p) = in_scope (g.name_below p r) (g.scope_at p) := by
  induction r with
  | nil => exact absurd rfl hr
  | cons s r ih =>
    rw [List.cons_append, scope_at, name_below]
    split
    · rename_i hr'
      subst hr'
      rfl
    · rename_i hr'
      rw [ih hr']
      simp [in_scope]

/-- The scoped name of a leaf below a task, with the scope of the task behind it. -/
theorem NamedLeaf.scoped_name_below {r p : Path} (hr : r ≠ []) (hp : p ≠ [])
    (h : g.NamedLeaf (r ++ p)) :
    g.scoped_name (r ++ p) = some (in_scope (g.name_below p r) (g.scope_at p)) := by
  cases r with
  | nil => exact absurd rfl hr
  | cons s r =>
    have h' : g.NamedLeaf (s :: (r ++ p)) := h
    rw [List.cons_append, h'.scoped_name, if_neg (by simp [hp]), name_below]
    split
    · rename_i hr'
      subst hr'
      rfl
    · rename_i hr'
      rw [scope_at_append hr']
      simp [in_scope]

theorem in_scope_inj {a b scope : Str} : in_scope a scope = in_scope b scope ↔ a = b :=
  List.append_left_inj _

theorem in_scope_assoc (a b c : Str) : in_scope (in_scope a b) c = in_scope a (in_scope b c) := by
  simp [in_scope]

/-- Two ends of one name are one, or the longer one ends in the shorter one. -/
theorem in_scope_eq_in_scope {x y a b : Str} (h : in_scope x a = in_scope y b) :
    a = b ∨ (∃ rest, b = in_scope rest a ∧ x = in_scope y rest) ∨
      ∃ rest, a = in_scope rest b ∧ y = in_scope x rest := by
  unfold in_scope at h ⊢
  rcases List.append_eq_append_iff.mp h with ⟨w, hy, hw⟩ | ⟨w, hx, hw⟩
  · cases w with
    | nil => exact .inl (List.cons.inj hw).2
    | cons c w =>
      obtain ⟨rfl, htail⟩ := List.cons.inj hw
      exact .inr (.inr ⟨w, htail, hy⟩)
  · cases w with
    | nil => exact .inl (List.cons.inj hw).2.symm
    | cons c w =>
      obtain ⟨rfl, htail⟩ := List.cons.inj hw
      exact .inr (.inl ⟨w, htail, hx⟩)

/-- A leaf and a leaf below one of its siblings have different names. -/
theorem Unambiguous.leaf_ne (hnames : g.Unambiguous) {s t : EndpointRef} {r c : Path}
    (hr : r ≠ []) (hs : g.NamedLeaf (s :: c)) (ht : g.NamedLeaf (r ++ t :: c)) :
    g.scoped_name (s :: c) ≠ g.scoped_name (r ++ t :: c) := by
  rw [hs.scoped_name, ht.scoped_name_below hr (by simp), Ne, Option.some.injEq]
  intro heq
  split at heq
  · rename_i hc
    subst hc
    exact hnames.top_leaves s t r hr hs ht heq
  · rename_i hc
    rw [scope_at, ← in_scope_assoc, in_scope_inj] at heq
    exact hnames.leaves s t r c hc hr hs ht heq

/-- Two leaves with one scoped name are one leaf. -/
theorem Unambiguous.scoped_name_inj (hnames : g.Unambiguous) (hsib : g.SiblingsApart) {p q : Path}
    (hp : g.NamedLeaf p) (hq : g.NamedLeaf q) (heq : g.scoped_name p = g.scoped_name q) :
    p = q := by
  by_contra hne
  have hlow : ∀ {p q : Path}, g.IsLeaf p → g.IsLeaf q → p ≠ q → ¬p <:+ q := by
    rintro p q hp hq hne ⟨r, rfl⟩
    have hup := (hq.1.above g (r := r) (by rintro rfl; exact hne rfl)).2
    rw [hp.2] at hup
    cases hup
  obtain ⟨r, s, r', t, c, hst, rfl, rfl⟩ :=
    exists_fork (hlow hp.1 hq.1 hne) (hlow hq.1 hp.1 (Ne.symm hne))
  have hapart : g.canonical_at (s :: c) ≠ g.canonical_at (t :: c) :=
    fun heq => hst (hsib.canonical_inj (hp.1.1.child g).1 (hq.1.1.child g).1 heq)
  by_cases hr : r = []
  · subst hr
    by_cases hr' : r' = []
    · subst hr'
      -- two siblings: their own names are followed by the same scope
      rw [List.nil_append, List.nil_append, NamedLeaf.scoped_name hp, NamedLeaf.scoped_name hq,
        Option.some.injEq] at heq
      split at heq
      · rename_i hc
        subst hc
        exact hapart heq
      · exact hapart (in_scope_inj.mp heq)
    · exact hnames.leaf_ne hr' hp hq heq
  · by_cases hr' : r' = []
    · subst hr'
      exact hnames.leaf_ne hr hq hp heq.symm
    · rw [hp.scoped_name_below hr (by simp), hq.scoped_name_below hr' (by simp),
        Option.some.injEq, scope_at, scope_at, ← in_scope_assoc, ← in_scope_assoc,
        in_scope_inj] at heq
      rcases in_scope_eq_in_scope heq with hsame | ⟨rest, ht, hx⟩ | ⟨rest, hs, hy⟩
      · exact hapart hsame
      · exact hnames.scopes s t r r' c rest hr hr' hp hq ht hx
      · exact hnames.scopes t s r' r c rest hr' hr hq hp hs hy

section Flat

variable {fuel : Nat} {r : FlatProjection}

theorem Flat.top_names_nodup (h : g.Flat fuel r) (htop : (r.flat.task_at []).isSome) :
    r.flat.top_names.Nodup ↔ ∀ p q, g.IsLeaf p → g.IsLeaf q →
      (g.scoped_name p).getD (automatic_name (g.endpoint fuel p)) =
        (g.scoped_name q).getD (automatic_name (g.endpoint fuel q)) → p = q := by
  obtain ⟨top, htop⟩ := isSome_iff_exists.mp htop
  have hname {p : Path} : (g.flat_instance p).canonical_name (g.endpoint fuel p).1
      (g.endpoint fuel p).2 = (g.scoped_name p).getD (automatic_name (g.endpoint fuel p)) := by
    simp [TaskInstance.canonical_name, flat_instance_name, automatic_name]
  have hbij := h.endpoint_bijOn
  simp only [top_names, htop, map_some, getD_some, Task.child_names_nodup]
  constructor
  · intro hinj p q hp hq heq
    refine hbij.injOn hp hq (hinj _ _ (g.flat_instance p) _ _ (g.flat_instance q) ?_ ?_ ?_)
    · exact (r.flat.inst_at_cons htop _).mp (h.inst_endpoint hp)
    · exact (r.flat.inst_at_cons htop _).mp (h.inst_endpoint hq)
    · exact hname.trans (heq.trans hname.symm)
  · intro hinj d i a d' i' a' ha hb heq
    -- Every instance of the flat top comes from a leaf.
    have hleaf {d : Str} {i : Nat} {a : TaskInstance} (ha : (d, i, a) ∈ top.invocations) :
        ∃ p, g.IsLeaf p ∧ g.endpoint fuel p = (d, i) ∧ a = g.flat_instance p := by
      have hinst := (r.flat.inst_at_cons htop (s := (d, i)) a).mpr ha
      obtain ⟨p, hp, hpe⟩ := hbij.surjOn (show (r.flat.inst_at [(d, i)]).isSome by rw [hinst]; rfl)
      refine ⟨p, hp, hpe, ?_⟩
      have hflat := h.inst_endpoint hp
      rw [hpe, hinst] at hflat
      exact Option.some.inj hflat
    obtain ⟨p, hp, hpe, rfl⟩ := hleaf ha
    obtain ⟨q, hq, hqe, rfl⟩ := hleaf hb
    rw [← hpe, ← hqe]
    refine congrArg _ (hinj p q hp hq ?_)
    rw [← hname, ← hname, hpe, hqe]
    exact heq

/-- The flat index of a leaf is its place in the order of the graph. -/
theorem Flat.endpoint_eq (h : g.Flat fuel r) {p : Path} (hp : g.IsLeaf p) :
    g.endpoint fuel p = (g.task_name_at p, g.place p) := by
  classical
  have hsorted := (g.leaves_below_sorted h.finished .top h.upper).filter
    fun q => decide (g.task_name_at q = g.task_name_at p)
  have hmem : p ∈ (g.leaves_below fuel []).filter fun q => g.task_name_at q = g.task_name_at p := by
    simpa using h.isLeaf_iff.mp hp
  have hnodup := (g.leaves_below_nodup h.finished .top h.upper).filter
    fun q => decide (g.task_name_at q = g.task_name_at p)
  have hset : {q | (g.IsLeaf q ∧ g.task_name_at q = g.task_name_at p) ∧ Before q p} =
      ↑(((g.leaves_below fuel []).filter fun q => g.task_name_at q = g.task_name_at p).filter
        fun q => Before q p).toFinset := by
    ext q
    simp only [Set.mem_ofPred_eq, List.coe_toFinset, List.mem_filter, decide_eq_true_eq,
      h.isLeaf_iff]
  rw [endpoint, idxOf_eq_length_filter (fun _ _ => Before.asymm) hsorted hmem, place, hset,
    Set.ncard_coe_finset, List.toFinset_card_of_nodup (hnodup.filter _)]

theorem Flat.names_apart (h : g.Flat fuel r) (hsib : g.SiblingsApart) (hnames : g.Unambiguous)
    (htop : (r.flat.task_at []).isSome) : r.flat.top_names.Nodup := by
  rw [h.top_names_nodup htop]
  -- a scoped name is not an automatic one
  have hauto {p q : Path} (hp : g.IsLeaf p) (hq : g.IsLeaf q) {name : Str}
      (hnp : g.scoped_name p = some name) (hnq : g.scoped_name q = none) :
      name ≠ automatic_name (g.endpoint fuel q) := by
    have hnamed := (namedLeaf_iff hp).mpr (by rw [hnp]; rfl)
    have hunnamed := (unnamedLeaf_iff hq).mpr hnq
    rw [h.endpoint_eq hq]
    cases p using List.reverseRecOn with
    | nil => cases hnp
    | append_singleton p t =>
      by_cases hpe : p = []
      · subst hpe
        rw [List.nil_append, NamedLeaf.scoped_name hnamed, if_pos rfl] at hnp
        exact Option.some.inj hnp ▸ hnames.automatic q t hunnamed hnamed
      · rw [hnamed.scoped_name_below hpe (by simp)] at hnp
        exact Option.some.inj hnp ▸ (hnames.automatic_scopes q t p hpe hunnamed hnamed).symm
  intro p q hp hq heq
  cases hnp : g.scoped_name p with
  | none =>
    cases hnq : g.scoped_name q with
    | none =>
      rw [hnp, hnq] at heq
      exact h.endpoint_bijOn.injOn hp hq (automatic_name_inj heq)
    | some name =>
      rw [hnp, hnq] at heq
      exact absurd heq.symm (hauto hq hp hnq hnp)
  | some name =>
    cases hnq : g.scoped_name q with
    | none =>
      rw [hnp, hnq] at heq
      exact absurd heq (hauto hp hq hnp hnq)
    | some name' =>
      rw [hnp, hnq, getD_some, getD_some] at heq
      exact hnames.scoped_name_inj hsib ((namedLeaf_iff hp).mpr (by rw [hnp]; rfl))
        ((namedLeaf_iff hq).mpr (by rw [hnq]; rfl)) (by rw [hnp, hnq, heq])

/-- Names that run together give two leaves one name. -/
theorem Flat.unambiguous (h : g.Flat fuel r) (htop : (r.flat.task_at []).isSome)
    (hnodup : r.flat.top_names.Nodup) : g.Unambiguous := by
  rw [h.top_names_nodup htop] at hnodup
  have hnamed {p q : Path} (hp : g.NamedLeaf p) (hq : g.NamedLeaf q)
      (heq : g.scoped_name p = g.scoped_name q) : p = q := hnodup p q hp.1 hq.1 (by
    obtain ⟨name, hname⟩ := isSome_iff_exists.mp ((namedLeaf_iff hp.1).mp hp)
    rw [← heq, hname]
    rfl)
  have hauto {p q : Path} (hp : g.NamedLeaf p) (hq : g.UnnamedLeaf q) :
      g.scoped_name p ≠ some (automatic_name (g.task_name_at q, g.place q)) := by
    intro heq
    have hnone := (unnamedLeaf_iff hq.1).mp hq
    have hpq := hnodup p q hp.1 hq.1 (by rw [heq, hnone, h.endpoint_eq hq.1]; rfl)
    rw [hpq, hnone] at heq
    cases heq
  have hlen {r : Path} (hr : r ≠ []) : 0 < r.length := List.length_pos_iff.mpr hr
  refine ⟨?_, ?_, ?_, ?_, ?_⟩
  · intro s t r p hp hr hs ht heq
    have hpaths := congrArg List.length (hnamed hs ht (by
      rw [hs.scoped_name, ht.scoped_name_below hr (by simp), if_neg hp, heq, in_scope_assoc]
      rfl))
    have hpos := hlen hr
    simp only [List.length_append, List.length_cons] at hpaths
    omega
  · intro s t r hr hs ht heq
    have hpaths := congrArg List.length (hnamed hs ht (by
      rw [hs.scoped_name, ht.scoped_name_below hr (by simp), if_pos rfl, heq]
      rfl))
    have hpos := hlen hr
    simp only [List.length_append, List.length_cons] at hpaths
    omega
  · intro s t r r' p rest hr hr' hs ht hcanonical heq
    have hpaths := hnamed hs ht (by
      rw [hs.scoped_name_below hr (by simp), ht.scoped_name_below hr' (by simp), heq, scope_at,
        scope_at, hcanonical, in_scope_assoc, in_scope_assoc])
    obtain rfl := fork_inj hpaths
    have hlength := congrArg List.length hcanonical
    simp only [in_scope, List.length_append, List.length_cons] at hlength
    omega
  · intro q s hq hs heq
    refine hauto hs hq ?_
    rw [hs.scoped_name, if_pos rfl, heq]
  · intro q t r hr hq ht heq
    refine hauto ht hq ?_
    rw [ht.scoped_name_below hr (by simp), heq]
    rfl

end Flat

theorem flatten_with_origins_top {fuel : Nat} {r : FlatProjection}
    (h : flatten_with_origins fuel g = .ok r) : (r.flat.task_at []).isSome := by
  unfold flatten_with_origins at h
  obtain ⟨top, _, h⟩ := bind_eq_ok.mp h
  split at h
  · cases h
  obtain ⟨c, _, h⟩ := bind_eq_ok.mp h
  cases h
  simp [task_at, task_name_at, flat_graph]

/-! ## Flat leaf names -/

/-- An instance with or without a name, and without arguments. -/
def bareInstance (name : Option Str) : TaskInstance where
  name := name
  args := ∅
  step := 0

/-- `T` invokes `B`, then `C` under a name of its own, and `U`, which invokes `B` too. -/
def nestedAndNamed (name : Str) (inner : Option Str) : TaskGraph where
  top := ['T']
  tasks := ((((∅ : BTreeMap Str Task).insert ['B'] ⟨.Lower, [], ∅, ∅, none⟩).insert ['C']
    ⟨.Lower, [], ∅, ∅, none⟩).insert ['U']
      ⟨.Upper, [], (∅ : BTreeMap Str (List TaskInstance)).insert ['B'] [bareInstance inner], ∅,
        none⟩).insert ['T']
      ⟨.Upper, [], (((∅ : BTreeMap Str (List TaskInstance)).insert ['B'] [bareInstance none]).insert
        ['C'] [bareInstance (some name)]).insert ['U'] [bareInstance none], ∅, none⟩

def nestedRank (name : Str) : Nat := if name = ['T'] then 2 else if name = ['U'] then 1 else 0

theorem siblingsApart_of_all {g : TaskGraph}
    (h : (g.tasks.toList.all fun x => decide x.2.child_names.Nodup) = true) : g.SiblingsApart := by
  intro name task htask _
  have hmem := mem_toList_iff_getElem?_eq_some.mpr htask
  simpa using List.all_eq_true.mp h _ hmem

theorem leaf_nested {p : Path} (h : (nestedAndNamed ['c'] (some ['b'])).IsLeaf p) :
    p = [(['B'], 0)] ∨ p = [(['C'], 0)] ∨ p = [(['B'], 0), (['U'], 0)] := by
  have hok : (flatten_with_origins 3 (nestedAndNamed ['c'] (some ['b']))).toOption.isSome = true :=
    by decide +kernel
  have hflat := flatten_with_origins_ok (eq_ok_get hok)
  have hleaves : (nestedAndNamed ['c'] (some ['b'])).leaves_below 3 [] =
      [[(['B'], 0)], [(['C'], 0)], [(['B'], 0), (['U'], 0)]] := by decide +kernel
  rw [hflat.isLeaf_iff, hleaves] at h
  simpa using h

theorem unambiguous_nested : (nestedAndNamed ['c'] (some ['b'])).Unambiguous := by
  have hnamed : ∀ {p}, (nestedAndNamed ['c'] (some ['b'])).NamedLeaf p →
      p = [(['C'], 0)] ∨ p = [(['B'], 0), (['U'], 0)] := by
    rintro p ⟨hleaf, hname⟩
    rcases leaf_nested hleaf with rfl | hp
    · exact absurd hname (by decide +kernel)
    · exact hp
  have hbelow : ∀ {r t p}, r ≠ [] → (nestedAndNamed ['c'] (some ['b'])).NamedLeaf (r ++ t :: p) →
      r = [(['B'], 0)] ∧ t = (['U'], 0) ∧ p = [] := by
    intro r t p hr hleaf
    obtain ⟨s, r, rfl⟩ := List.exists_cons_of_ne_nil hr
    rcases hnamed hleaf with heq | heq
    · simp at heq
    · cases r with
      | nil => simpa using heq
      | cons x r => simp at heq
  have htop : ∀ {s}, (nestedAndNamed ['c'] (some ['b'])).NamedLeaf [s] → s = (['C'], 0) :=
    fun hs => by simpa using hnamed hs
  have hunnamed : ∀ {q}, (nestedAndNamed ['c'] (some ['b'])).UnnamedLeaf q →
      q = [(['B'], 0)] := by
    rintro q ⟨hleaf, hname⟩
    rcases leaf_nested hleaf with rfl | rfl | rfl
    · rfl
    · exact absurd hname (by decide +kernel)
    · exact absurd hname (by decide +kernel)
  refine ⟨?_, ?_, ?_, ?_, ?_⟩
  · intro s t r p hp hr _ ht
    exact absurd (hbelow hr ht).2.2 hp
  · intro s t r hr hs ht
    obtain ⟨rfl, rfl, -⟩ := hbelow hr ht
    obtain rfl := htop hs
    decide +kernel
  · intro s t r r' p rest hr hr' hs ht hcanonical
    obtain ⟨rfl, rfl, rfl⟩ := hbelow hr hs
    obtain ⟨-, rfl, -⟩ := hbelow hr' ht
    have hlength := congrArg List.length hcanonical
    simp only [in_scope, List.length_append, List.length_cons] at hlength
    omega
  · intro q s hq hs heq
    obtain rfl := hunnamed hq
    obtain rfl := htop hs
    exact absurd (List.cons.inj heq).1 (by decide)
  · intro q t r hr hq ht heq
    obtain rfl := hunnamed hq
    obtain ⟨rfl, rfl, -⟩ := hbelow hr ht
    exact absurd (List.cons.inj heq).1 (by decide)

end TaskGraph

end Tapa.Ir
