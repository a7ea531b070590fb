-- The traversal of flattening visits every occurrence once: it collects the
-- leaves in bijection with their occurrences, and gives each FIFO of each
-- occurrence a name that no other FIFO has.
import Tapa.Connectivity

namespace Tapa.Ir

open Text Fallible List

namespace TaskGraph

variable (g : TaskGraph)

/-! ## The occurrences below a path -/

/-- The leaves below a path, in the order of the traversal. -/
def leaves_below : Nat → Path → List Path
  | 0, _ => []
  | fuel + 1, p =>
    ((g.task_at p).map Task.invocations).getD [] |>.flatMap fun (d, idx, _) =>
      if g.level_at ((d, idx) :: p) = some .Lower then [(d, idx) :: p]
      else leaves_below fuel ((d, idx) :: p)

/-- The upper tasks at and below a path, each after those below it. -/
def uppers_below : Nat → Path → List Path
  | 0, _ => []
  | fuel + 1, p =>
    (((g.task_at p).map Task.invocations).getD [] |>.flatMap fun (d, idx, _) =>
      if g.level_at ((d, idx) :: p) = some .Lower then [] else uppers_below fuel ((d, idx) :: p))
      ++ [p]

/-- The fuel is enough, and every task on the way is there. -/
def Finished : Nat → Path → Prop
  | 0, _ => False
  | fuel + 1, p =>
    ∃ task, g.task_at p = some task ∧ ∀ x ∈ task.invocations,
      g.level_at ((x.1, x.2.1) :: p) = some .Lower ∨
        (g.level_at ((x.1, x.2.1) :: p) = some .Upper ∧ Finished fuel ((x.1, x.2.1) :: p))

variable {p : Path}

theorem inst_at_cons {s : EndpointRef} {task : Task} (ht : g.task_at p = some task)
    (inst : TaskInstance) :
    g.inst_at (s :: p) = some inst ↔ (s.1, s.2, inst) ∈ task.invocations := by
  rw [Task.mem_invocations]
  simp [inst_at, ht, Option.bind_eq_some_iff]

variable {r : Path}

/-- The tasks above an occurrence are occurrences of upper tasks. -/
theorem Occurs.above (h : g.Occurs (r ++ p)) (hr : r ≠ []) :
    g.Occurs p ∧ g.level_at p = some .Upper := by
  induction r with
  | nil => exact absurd rfl hr
  | cons s r ih =>
    cases h with
    | invoke hp hup hinst =>
      cases r with
      | nil => exact ⟨hp, hup⟩
      | cons s' r => exact ih hp (by simp)

/-- The first invocation below a path, and what is known of it. -/
theorem Occurs.child {s : EndpointRef} (h : g.Occurs (r ++ s :: p)) :
    g.Occurs (s :: p) ∧ (r ≠ [] → g.level_at (s :: p) = some .Upper) := by
  cases r with
  | nil => exact ⟨h, fun hr => absurd rfl hr⟩
  | cons s' r => exact ⟨(h.above g (by simp)).1, fun _ => (h.above g (by simp)).2⟩

/-- Two paths, none of which is above the other, part at two invocations of one task. -/
theorem exists_fork {q : Path} (hpq : ¬p <:+ q) (hqp : ¬q <:+ p) :
    ∃ r s r' t c, s ≠ t ∧ p = r ++ s :: c ∧ q = r' ++ t :: c := by
  induction p using List.reverseRecOn generalizing q with
  | nil => exact absurd List.nil_suffix hpq
  | append_singleton p s ih =>
    cases q using List.reverseRecOn with
    | nil => exact absurd List.nil_suffix hqp
    | append_singleton q t =>
      by_cases hst : s = t
      · subst hst
        rw [List.suffix_append_self_iff] at hpq hqp
        obtain ⟨r, a, r', b, c, hab, rfl, rfl⟩ := ih hpq hqp
        exact ⟨r, a, r', b, c ++ [s], hab, by simp, by simp⟩
      · exact ⟨p, s, q, t, [], hst, rfl, rfl⟩

/-- Two paths that come from one task are the same only below the same invocation. -/
theorem fork_inj {s t : EndpointRef} {r r' c : Path} (h : r ++ s :: c = r' ++ t :: c) : s = t :=
  (List.cons.inj (List.append_inj_right' h rfl)).1

/-- With enough fuel, every occurrence below a path is listed. -/
theorem mem_below {fuel : Nat} (hf : g.Finished fuel p) (ho : g.Occurs (r ++ p)) :
    (g.level_at (r ++ p) = some .Lower → r ≠ [] → r ++ p ∈ g.leaves_below fuel p) ∧
      (g.level_at (r ++ p) = some .Upper → r ++ p ∈ g.uppers_below fuel p) := by
  induction fuel generalizing p r with
  | zero => exact hf.elim
  | succ fuel ih =>
    obtain ⟨task, htask, hall⟩ := hf
    rcases eq_nil_or_concat r with rfl | ⟨r, s, rfl⟩
    · refine ⟨fun _ hr => absurd rfl hr, fun _ => ?_⟩
      simp [uppers_below]
    rw [concat_eq_append, append_assoc, singleton_append] at ho ⊢
    obtain ⟨hchild, hup⟩ := ho.child g
    -- The first step is an invocation of the task at the path.
    have hmem : ∃ inst, (s.1, s.2, inst) ∈ task.invocations := by
      cases hchild with
      | invoke _ _ hinst =>
        obtain ⟨inst, hinst⟩ := Option.isSome_iff_exists.mp hinst
        exact ⟨inst, (g.inst_at_cons htask inst).mp hinst⟩
    obtain ⟨inst, hmem⟩ := hmem
    simp only [leaves_below, uppers_below, htask, Option.map_some, Option.getD_some,
      mem_append, mem_flatMap]
    rcases hall _ hmem with hlow | ⟨hupper, hfin⟩
    · have hr : r = [] := by
        by_contra hr
        rw [hup hr] at hlow
        cases hlow
      subst hr
      refine ⟨fun _ _ => ⟨_, hmem, ?_⟩, fun hu => ?_⟩
      · rw [if_pos hlow]
        exact mem_singleton.mpr rfl
      · have hcontra : g.level_at (s :: p) = some .Upper := hu
        rw [show g.level_at (s :: p) = _ from hlow] at hcontra
        cases hcontra
    · have hne : ¬g.level_at ((s.1, s.2) :: p) = some .Lower := by
        rw [hupper]
        simp
      obtain ⟨ih1, ih2⟩ := ih hfin ho
      refine ⟨fun hl _ => ⟨_, hmem, ?_⟩, fun hu => Or.inl ⟨_, hmem, ?_⟩⟩
      · rw [if_neg hne]
        apply ih1 hl
        rintro rfl
        exact hne hl
      · rw [if_neg hne]
        exact ih2 hu

/-- Every leaf listed below a path is one. -/
theorem isLeaf_of_mem {fuel : Nat} {q : Path} (hf : g.Finished fuel p) (ho : g.Occurs p)
    (hup : g.level_at p = some .Upper) (hq : q ∈ g.leaves_below fuel p) :
    g.IsLeaf q ∧ ∃ r s, q = r ++ s :: p := by
  induction fuel generalizing p with
  | zero => exact hf.elim
  | succ fuel ih =>
    obtain ⟨task, htask, hall⟩ := hf
    simp only [leaves_below, htask, Option.map_some, Option.getD_some, mem_flatMap] at hq
    obtain ⟨⟨d, idx, inst⟩, hmem, hq⟩ := hq
    have hchild : g.Occurs ((d, idx) :: p) := by
      refine .invoke ho hup ?_
      rw [(g.inst_at_cons htask inst).mpr hmem]
      rfl
    rcases hall _ hmem with hlow | ⟨hupper, hfin⟩
    · rw [if_pos hlow, mem_singleton] at hq
      subst hq
      exact ⟨⟨hchild, hlow⟩, [], (d, idx), rfl⟩
    · have hne : ¬g.level_at ((d, idx) :: p) = some .Lower := by
        rw [hupper]
        simp
      rw [if_neg hne] at hq
      obtain ⟨hleaf, r, s, rfl⟩ := ih hfin hchild hupper hq
      exact ⟨hleaf, r ++ [s], (d, idx), by simp⟩

end TaskGraph

/-! ## The order of the traversal -/

/-- Invocations of one task come by their definitions, and those of a definition by their
indices. -/
def Precedes (s t : EndpointRef) : Prop := compare s.1 t.1 = .lt ∨ s.1 = t.1 ∧ s.2 < t.2

theorem Precedes.asymm {s t : EndpointRef} (h : Precedes s t) (h' : Precedes t s) : False := by
  have hswap : compare t.1 s.1 = (compare s.1 t.1).swap := Std.OrientedCmp.eq_swap
  have hself : compare s.1 s.1 = .eq := Std.ReflCmp.compare_self
  rcases h with h | ⟨heq, h⟩ <;> rcases h' with h' | ⟨heq', h'⟩
  · rw [hswap, h] at h'
    cases h'
  · rw [heq', hself] at h
    cases h
  · rw [← heq, hself] at h'
    cases h'
  · omega

theorem Task.invocations_sorted (task : Task) :
    (task.invocations.map fun x => (x.1, x.2.1)).Pairwise Precedes := by
  unfold invocations
  rw [map_flatMap, pairwise_flatMap]
  constructor
  · rintro ⟨d, instances⟩ _
    have hmap : ((instances.zipIdx.map fun x => (d, x.2, x.1)).map fun x => (x.1, x.2.1)) =
        (List.range' 0 instances.length).map fun idx => (d, idx) := by
      rw [map_map, ← zipIdx_map_snd, map_map]
      rfl
    rw [hmap, pairwise_map]
    exact (pairwise_lt_range' 1).imp fun hlt => .inr ⟨rfl, hlt⟩
  · refine Std.ExtTreeMap.ordered_keys_toList.imp ?_
    rintro ⟨d, insts⟩ ⟨d', insts'⟩ hlt x hx y hy
    simp only [map_map, mem_map] at hx hy
    obtain ⟨a, _, rfl⟩ := hx
    obtain ⟨b, _, rfl⟩ := hy
    exact .inl hlt

/-- No two invocations of a task have the same definition and index. -/
theorem Task.invocations_nodup (task : Task) :
    (task.invocations.map fun x => (x.1, x.2.1)).Nodup := by
  refine task.invocations_sorted.imp ?_
  rintro s t h rfl
  exact h.asymm h

/-- The traversal comes to a path first, where it parts from the other. -/
def Before (p q : Path) : Prop :=
  ∃ r s r' t c, p = r ++ s :: c ∧ q = r' ++ t :: c ∧ Precedes s t

/-- Of two places where two paths part, none is above the other. -/
theorem Before.asymm {p q : Path} (h : Before p q) (h' : Before q p) : False := by
  obtain ⟨r, s, r', t, c, hp, hq, hst⟩ := h
  obtain ⟨a, u, a', v, d, hq', hp', huv⟩ := h'
  have hparts : ∀ {s t u v : EndpointRef} {c d : Path}, s :: c <:+ p → t :: c <:+ q →
      v :: d <:+ p → u :: d <:+ q → c.length < d.length → s = t := by
    intro s t u v c d hs ht hv hu hlt
    have hsd := suffix_of_suffix_length_le hs ((suffix_cons v d).trans hv) hlt
    have htd := suffix_of_suffix_length_le ht ((suffix_cons u d).trans hu) hlt
    exact (List.cons.inj ((suffix_of_suffix_length_le hsd htd le_rfl).eq_of_length rfl)).1
  have hs : s :: c <:+ p := ⟨r, hp.symm⟩
  have ht : t :: c <:+ q := ⟨r', hq.symm⟩
  have hu : u :: d <:+ q := ⟨a, hq'.symm⟩
  have hv : v :: d <:+ p := ⟨a', hp'.symm⟩
  rcases Nat.lt_trichotomy c.length d.length with hlt | heq | hlt
  · rw [hparts hs ht hv hu hlt] at hst
    exact hst.asymm hst
  · have hsv := (suffix_of_suffix_length_le hs hv (by simp [heq])).eq_of_length (by simp [heq])
    have htu := (suffix_of_suffix_length_le ht hu (by simp [heq])).eq_of_length (by simp [heq])
    rw [(List.cons.inj hsv).1, (List.cons.inj htu).1] at hst
    exact hst.asymm huv
  · rw [hparts hv hu hs ht hlt] at huv
    exact huv.asymm huv

/-- In a sorted list, as many elements come before one as are smaller. -/
theorem idxOf_eq_length_filter {α : Type} [BEq α] [LawfulBEq α] {R : α → α → Prop} [DecidableRel R]
    (hasymm : ∀ x y, R x y → R y x → False) {l : List α} (h : l.Pairwise R) {a : α} (ha : a ∈ l) :
    l.idxOf a = (l.filter fun x => R x a).length := by
  induction l with
  | nil => cases ha
  | cons x l ih =>
    obtain ⟨hx, hl⟩ := pairwise_cons.mp h
    by_cases hxa : x = a
    · subst hxa
      have hnone : (x :: l).filter (fun y => R y x) = [] := by
        refine filter_eq_nil_iff.mpr fun y hy hyx => ?_
        have hyx := of_decide_eq_true hyx
        rcases mem_cons.mp hy with rfl | hy
        · exact hasymm y y hyx hyx
        · exact hasymm x y (hx y hy) hyx
      rw [hnone, idxOf_cons_self, length_nil]
    · have hmem := (mem_cons.mp ha).resolve_left (Ne.symm hxa)
      rw [idxOf_cons_ne l hxa, ih hl hmem, filter_cons, if_pos (decide_eq_true (hx a hmem)),
        length_cons]

namespace TaskGraph

variable (g : TaskGraph)

variable {fuel : Nat} {p : Path}

theorem leaves_below_sorted (hf : g.Finished fuel p) (ho : g.Occurs p)
    (hup : g.level_at p = some .Upper) : (g.leaves_below fuel p).Pairwise Before := by
  induction fuel generalizing p with
  | zero => exact hf.elim
  | succ fuel ih =>
    obtain ⟨task, htask, hall⟩ := hf
    simp only [leaves_below, htask, Option.map_some, Option.getD_some]
    have hchild {d idx inst} (hmem : (d, idx, inst) ∈ task.invocations) :
        g.Occurs ((d, idx) :: p) := by
      refine .invoke ho hup ?_
      rw [(g.inst_at_cons htask inst).mpr hmem]
      rfl
    -- A leaf below an invocation has that invocation right below the path.
    have hbelow {x q} (hx : x ∈ task.invocations)
        (hq : q ∈ if g.level_at ((x.1, x.2.1) :: p) = some .Lower then [(x.1, x.2.1) :: p]
          else g.leaves_below fuel ((x.1, x.2.1) :: p)) : ∃ r, q = r ++ (x.1, x.2.1) :: p := by
      rcases hall _ hx with hlow | ⟨hupper, hfin⟩
      · rw [if_pos hlow, mem_singleton] at hq
        exact ⟨[], hq⟩
      · rw [if_neg (by rw [hupper]; simp)] at hq
        obtain ⟨_, r, s, rfl⟩ := g.isLeaf_of_mem hfin (hchild hx) hupper hq
        exact ⟨r ++ [s], by simp⟩
    rw [pairwise_flatMap]
    constructor
    · rintro ⟨d, idx, inst⟩ hmem
      rcases hall _ hmem with hlow | ⟨hupper, hfin⟩
      · rw [if_pos hlow]
        exact pairwise_singleton _ _
      · rw [if_neg (by rw [hupper]; simp)]
        exact ih hfin (hchild hmem) hupper
    · refine List.Pairwise.imp_of_mem ?_ (pairwise_map.mp task.invocations_sorted)
      intro x y hx hy hxy q hq q' hq'
      obtain ⟨r, rfl⟩ := hbelow hx hq
      obtain ⟨r', rfl⟩ := hbelow hy hq'
      exact ⟨r, _, r', _, p, rfl, rfl, hxy⟩

theorem leaves_below_nodup (hf : g.Finished fuel p) (ho : g.Occurs p)
    (hup : g.level_at p = some .Upper) : (g.leaves_below fuel p).Nodup := by
  refine (g.leaves_below_sorted hf ho hup).imp ?_
  rintro q q' h rfl
  exact h.asymm h

/-! ## What the traversal collects -/

/-- The leaf that the traversal collects at a path. -/
def flat_instance : Path → TaskInstance
  | [] => { name := none, args := ∅, step := 0 }
  | s :: p =>
    ((g.inst_at (s :: p)).map fun inst => leaf_instance inst (p = []) (g.scope_at p)
      (resolve_args inst (g.fifos_at p) (g.bindings_at p))).getD
        { name := none, args := ∅, step := 0 }

/-- The global names of the FIFOs of a list of scopes. -/
def fifo_names (us : List Path) : List Str :=
  us.flatMap fun p => (g.fifos_at p).toList.map Prod.snd

/-- From `c` to `c'`, the leaves `ls` and the FIFOs of the scopes `us` come in. -/
structure Collects (ls us : List Path) (c c' : FlatInstances) : Prop where
  leaves : ∀ d, c'.of d =
    c.of d ++ (ls.filter fun p => g.task_name_at p = d).map g.flat_instance
  names : (g.fifo_names us).Nodup
  fresh : ∀ n ∈ g.fifo_names us, n ∉ c.fifos
  fifos : ∀ n, n ∈ c'.fifos ↔ n ∈ c.fifos ∨ n ∈ g.fifo_names us

theorem Collects.refl (c : FlatInstances) : g.Collects [] [] c c := by
  constructor <;> simp [fifo_names]

variable {g}

variable {c c' : FlatInstances}

theorem Collects.trans {ls ls' us us' : List Path} {c'' : FlatInstances}
    (h : g.Collects ls us c c') (h' : g.Collects ls' us' c' c'') :
    g.Collects (ls ++ ls') (us ++ us') c c'' where
  leaves := by
    intro d
    rw [h'.leaves, h.leaves, filter_append, map_append, append_assoc]
  names := by
    rw [fifo_names, flatMap_append, nodup_append']
    refine ⟨h.names, h'.names, fun n h1 h2 => ?_⟩
    exact h'.fresh n h2 ((h.fifos n).mpr (Or.inr h1))
  fresh := by
    intro n hn hc
    rw [fifo_names, flatMap_append, mem_append] at hn
    rcases hn with hn | hn
    · exact h.fresh n hn hc
    · exact h'.fresh n hn ((h.fifos n).mpr (Or.inl hc))
  fifos := by
    intro n
    rw [h'.fifos, h.fifos, or_assoc]
    simp [fifo_names]

/-- A loop collects what its turns collect. -/
theorem Collects.foldlM {X : Type} {f : FlatInstances → X → Except Halt FlatInstances}
    {ls us : X → List Path} {good : X → Prop} {xs : List X}
    (h : ∀ x ∈ xs, ∀ c c', f c x = .ok c' → good x ∧ g.Collects (ls x) (us x) c c')
    (hrun : xs.foldlM f c = .ok c') :
    (∀ x ∈ xs, good x) ∧ g.Collects (xs.flatMap ls) (xs.flatMap us) c c' := by
  induction xs generalizing c with
  | nil =>
    obtain rfl := Except.ok.inj hrun
    exact ⟨by simp, .refl g c⟩
  | cons x xs ih =>
    obtain ⟨c1, hx, hrest⟩ := foldlM_cons_eq_ok.mp hrun
    obtain ⟨hgood, hcol⟩ := h x (by simp) c c1 hx
    obtain ⟨hgood', hcol'⟩ := ih (fun y hy => h y (by simp [hy])) hrest
    refine ⟨?_, hcol.trans hcol'⟩
    intro y hy
    rcases mem_cons.mp hy with rfl | hy
    · exact hgood
    · exact hgood' y hy

theorem of_push_leaf (c : FlatInstances) (owner : Nat) (source : EndpointRef)
    (inst : TaskInstance) (d : Str) :
    (c.push_leaf owner source inst).of d = c.of d ++ if source.1 = d then [inst] else [] := by
  unfold FlatInstances.of FlatInstances.push_leaf
  by_cases h : source.1 = d
  · subst h
    simp [FlatInstances.of]
  · simp [h, Std.ExtTreeMap.getElem?_insert]

/-- A leaf comes in at the end of the leaves of its definition. -/
theorem Collects.push_leaf (c : FlatInstances) (owner : Nat) {s : EndpointRef} :
    g.Collects [s :: p] [] c (c.push_leaf owner s (g.flat_instance (s :: p))) where
  leaves := by
    intro d
    rw [of_push_leaf]
    by_cases h : s.1 = d
    · simp [h, task_name_at]
    · simp [h, task_name_at]
  names := by simp [fifo_names]
  fresh := by simp [fifo_names]
  fifos := by simp [fifo_names, FlatInstances.push_leaf]

theorem Collects.push_scope (c : FlatInstances) (owner : Nat) (s : EndpointRef) (scope : Str) :
    g.Collects [] [] c (c.push_scope owner s scope) := by
  constructor <;> simp [fifo_names, FlatInstances.push_scope, FlatInstances.of]

variable {task : Task}

/-- The FIFOs of a scope come in under names that are free. -/
theorem register_fifos {es : List (Str × Str)} (hes : ∀ e ∈ es, (task.fifos[e.1]?).isSome)
    (hrun : es.foldlM (register_fifo task) c = .ok c') :
    c'.leaves = c.leaves ∧ (es.map Prod.snd).Nodup ∧ (∀ n ∈ es.map Prod.snd, n ∉ c.fifos) ∧
      ∀ n, n ∈ c'.fifos ↔ n ∈ c.fifos ∨ n ∈ es.map Prod.snd := by
  induction es generalizing c with
  | nil =>
    cases hrun
    simp
  | cons e es ih =>
    obtain ⟨fifo, hfifo⟩ := Option.isSome_iff_exists.mp (hes e (by simp))
    obtain ⟨c1, hstep, hrest⟩ := foldlM_cons_eq_ok.mp hrun
    simp only [register_fifo, hfifo] at hstep
    by_cases hin : e.2 ∈ c.fifos
    · rw [if_pos hin] at hstep
      cases hstep
    rw [if_neg hin, Except.ok.injEq] at hstep
    subst hstep
    obtain ⟨hl, hnd, hfresh, hiff⟩ := ih (fun e' he' => hes e' (by simp [he'])) hrest
    refine ⟨hl, ?_, ?_, ?_⟩
    · rw [map_cons, nodup_cons]
      refine ⟨fun hmem => hfresh _ hmem ?_, hnd⟩
      simp
    · intro n hn hc
      rw [map_cons, mem_cons] at hn
      rcases hn with rfl | hn
      · exact hin hc
      · exact hfresh n hn (by simp [hc])
    · intro n
      rw [hiff, map_cons, mem_cons]
      simp only [Std.ExtTreeMap.mem_insert, Std.compare_eq_iff_eq]
      constructor
      · rintro ((rfl | h) | h)
        · exact Or.inr (Or.inl rfl)
        · exact Or.inl h
        · exact Or.inr (Or.inr h)
      · rintro (h | rfl | h)
        · exact Or.inl (Or.inr h)
        · exact Or.inl (Or.inl rfl)
        · exact Or.inr h

variable {name : Str}

theorem get_task_eq_ok :
    get_task g name = .ok task ↔ g.tasks[name]? = some task := by
  unfold get_task
  cases g.tasks[name]? <;> simp

theorem get_task_ne_unfinished : get_task g name ≠ .error .unfinished := by
  unfold get_task
  cases g.tasks[name]? <;> simp

variable {owner : Nat}

/-- One turn of the loop over the invocations of the task at a path. -/
theorem visit_invocation_ok (htask : g.task_at p = some task) {x : Str × Nat × TaskInstance}
    (hx : x ∈ task.invocations) (ih : ∀ {q : Path} {owner : Nat} {c c' : FlatInstances},
    collect_leaves_recursive g fuel (g.task_name_at q) (g.scope_at q) (g.bindings_at q) owner c =
    .ok c' → g.Finished fuel q ∧ g.Collects (g.leaves_below fuel q) (g.uppers_below fuel q) c c')
    (hrun : visit_invocation g (collect_leaves_recursive g fuel) (decide (p = [])) (g.scope_at p)
    (g.fifos_at p) (g.bindings_at p) owner c x = .ok c') :
    (g.level_at ((x.1, x.2.1) :: p) = some .Lower ∨
        (g.level_at ((x.1, x.2.1) :: p) = some .Upper ∧ g.Finished fuel ((x.1, x.2.1) :: p))) ∧
      g.Collects
        (if g.level_at ((x.1, x.2.1) :: p) = some .Lower then [(x.1, x.2.1) :: p]
          else g.leaves_below fuel ((x.1, x.2.1) :: p))
        (if g.level_at ((x.1, x.2.1) :: p) = some .Lower then []
          else g.uppers_below fuel ((x.1, x.2.1) :: p)) c c' := by
  obtain ⟨d, idx, inst⟩ := x
  have hinst : g.inst_at ((d, idx) :: p) = some inst := (g.inst_at_cons htask inst).mpr hx
  unfold visit_invocation at hrun
  obtain ⟨child, hchild, hrun⟩ := bind_eq_ok.mp hrun
  have hlevel : g.level_at ((d, idx) :: p) = some child.level := by
    simp [level_at, task_at, task_name_at, get_task_eq_ok.mp hchild]
  simp only [hlevel, Option.some.injEq]
  cases hl : child.level with
  | Lower =>
    simp only [hl, if_true, Except.ok.injEq] at hrun
    subst hrun
    refine ⟨Or.inl rfl, ?_⟩
    have hleaf := Collects.push_leaf (g := g) c owner (s := (d, idx)) (p := p)
    simpa [flat_instance, hinst] using hleaf
  | Upper =>
    simp only [hl, reduceCtorEq, if_false] at hrun ⊢
    have hscope : in_scope (inst.canonical_name d idx) (g.scope_at p) =
        g.scope_at ((d, idx) :: p) := by
      simp [scope_at, canonical_at, hinst]
    have hbind : ((resolve_args inst (g.fifos_at p) (g.bindings_at p)).map fun _ arg => arg.arg) =
        g.bindings_at ((d, idx) :: p) := by
      simp [bindings_at, hinst]
    rw [hscope, hbind] at hrun
    obtain ⟨hfin, hcol⟩ := ih (q := (d, idx) :: p) hrun
    exact ⟨Or.inr ⟨trivial, hfin⟩, (Collects.push_scope c owner (d, idx) _).trans hcol⟩

/-- The scope of a path comes in with its FIFOs. -/
theorem Collects.register (htask : g.task_at p = some task)
    (hrun : (g.fifos_at p).toList.foldlM (register_fifo task) c = .ok c') :
    g.Collects [] [p] c c' := by
  have hnames : g.fifo_names [p] = (g.fifos_at p).toList.map Prod.snd := by
    simp [fifo_names]
  have hes : ∀ e ∈ (g.fifos_at p).toList, (task.fifos[e.1]?).isSome := by
    rintro ⟨name, global⟩ he
    rw [Std.ExtTreeMap.mem_toList_iff_getElem?_eq_some, fifos_at_getElem?,
      Option.map_eq_some_iff] at he
    obtain ⟨fifo, hfifo, _⟩ := he
    simp only [declared, htask, Option.bind_eq_bind, Option.bind_some,
      Option.bind_eq_some_iff] at hfifo
    obtain ⟨f, hf, _⟩ := hfifo
    rw [hf]
    rfl
  obtain ⟨hl, hnd, hfresh, hiff⟩ := register_fifos hes hrun
  refine ⟨fun d => ?_, ?_, ?_, ?_⟩
  · simp [FlatInstances.of, hl]
  · rwa [hnames]
  · rwa [hnames]
  · rwa [hnames]

/-- A run of the traversal from a path ends with all that is below the path. -/
theorem collect_leaves_recursive_ok (hrun : collect_leaves_recursive g fuel (g.task_name_at p)
    (g.scope_at p) (g.bindings_at p) owner c = .ok c') :
    g.Finished fuel p ∧ g.Collects (g.leaves_below fuel p) (g.uppers_below fuel p) c c' := by
  induction fuel generalizing p owner c c' with
  | zero => cases hrun
  | succ fuel ih =>
    obtain ⟨task, htask, hrun⟩ := bind_eq_ok.mp hrun
    have ht : g.task_at p = some task := get_task_eq_ok.mp htask
    have hfifos : fifo_global_map task (decide (p = [])) (g.scope_at p) = g.fifos_at p := by
      simp [fifos_at, ht]
    simp only [g.is_top_scope, hfifos] at hrun
    obtain ⟨cm, hloop, hreg⟩ := bind_eq_ok.mp hrun
    obtain ⟨hgood, hcol⟩ := Collects.foldlM
      (fun x hx c c' h => visit_invocation_ok ht hx ih h) hloop
    refine ⟨⟨task, ht, hgood⟩, ?_⟩
    have hall := hcol.trans (Collects.register ht hreg)
    simpa [leaves_below, uppers_below, ht] using hall

/-! ## The end of the traversal -/

/-- A turn without an end goes down into an upper task. -/
theorem upper_of_visit_unfinished {descend : Str → Str → BTreeMap Str ArgSource → Nat →
    FlatInstances → Except Halt FlatInstances} {is_top_scope : Bool} {scope : Str}
    {fifos : BTreeMap Str Str} {bindings : BTreeMap Str ArgSource} {d : Str} {idx : Nat}
    {inst : TaskInstance} (h : visit_invocation g descend is_top_scope scope fifos bindings owner c
      (d, idx, inst) = .error .unfinished) :
    ∃ child, g.tasks[d]? = some child ∧ child.level = .Upper ∧
      descend d (in_scope (inst.canonical_name d idx) scope)
        ((resolve_args inst fifos bindings).map fun _ arg => arg.arg) c.occurrences.length
        (c.push_scope owner (d, idx) (in_scope (inst.canonical_name d idx) scope)) =
          .error .unfinished := by
  unfold visit_invocation at h
  rcases bind_eq_error.mp h with h | ⟨child, hchild, h⟩
  · exact absurd h get_task_ne_unfinished
  split at h
  · cases h
  rename_i hlevel
  have hup : child.level = .Upper := by
    cases hl : child.level with
    | Lower => exact absurd hl hlevel
    | Upper => rfl
  exact ⟨child, get_task_eq_ok.mp hchild, hup, h⟩

theorem register_fifos_ne_unfinished {es : List (Str × Str)} :
    es.foldlM (register_fifo task) c ≠ .error .unfinished := by
  intro h
  obtain ⟨e, _, c1, hreg⟩ := exists_of_foldlM_eq_error h
  unfold register_fifo at hreg
  split at hreg
  · cases hreg
  · split at hreg <;> cases hreg

/-- Where the fuel runs out, it runs out below an upper task that is invoked. -/
theorem unfinished_below {scope : Str} {bindings : BTreeMap Str ArgSource}
    (h : collect_leaves_recursive g (fuel + 1) name scope bindings owner c = .error .unfinished) :
    ∃ task d idx inst, g.tasks[name]? = some task ∧ (d, idx, inst) ∈ task.invocations ∧
      ∃ scope' bindings' owner' c',
        collect_leaves_recursive g fuel d scope' bindings' owner' c' = .error .unfinished := by
  rcases bind_eq_error.mp h with h | ⟨task, htask, h⟩
  · exact absurd h get_task_ne_unfinished
  rcases bind_eq_error.mp h with h | ⟨cm, _, h⟩
  · obtain ⟨⟨d, idx, inst⟩, hx, c1, hvisit⟩ := exists_of_foldlM_eq_error h
    obtain ⟨_, _, _, hbelow⟩ := upper_of_visit_unfinished hvisit
    exact ⟨task, d, idx, inst, get_task_eq_ok.mp htask, hx, _, _, _, _, hbelow⟩
  · exact absurd h register_fifos_ne_unfinished

/-- In a graph without cycles the traversal comes to an end: a path has fewer
invocations than the rank of its top. -/
theorem rank_of_unfinished {rank : Str → Nat} (hrank : ∀ name task child, g.tasks[name]? = some task
    → child ∈ task.tasks → rank child < rank name) {scope : Str}
    {bindings : BTreeMap Str ArgSource}
    (h : collect_leaves_recursive g fuel name scope bindings owner c = .error .unfinished) :
    fuel ≤ rank name := by
  induction fuel generalizing name scope bindings owner c with
  | zero => exact Nat.zero_le _
  | succ fuel ih =>
    obtain ⟨task, d, idx, inst, htask, hx, _, _, _, _, hbelow⟩ := unfinished_below h
    have hchild : d ∈ task.tasks := by
      obtain ⟨instances, hd, _⟩ := Task.mem_invocations.mp hx
      exact mem_of_get hd
    exact Nat.lt_of_le_of_lt (ih hbelow) (hrank name task d htask hchild)

end TaskGraph

end Tapa.Ir
