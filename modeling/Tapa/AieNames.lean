-- The names of derived kernels and streams are instance paths that are joined by two
-- underscores and sanitized. Nothing checks them: two of them are one just where a
-- sanitized name begins with that of a sibling, and what is left of it is made up below.
import Tapa.AieConnectivity

namespace Tapa.AiEngine

open Ir Text Fallible

/-! ## Sanitized names -/

/-- A character that an identifier may have. -/
def identChar (c : Char) : Bool := c.isAlphanum || c = '_' || c = '$'

def cleanChar (c : Char) : Char := if identChar c then c else '_'

/-- A name that sanitizing leaves as it is. -/
structure Clean (name : Str) : Prop where
  chars : ∀ c ∈ name, identChar c = true
  head : ∀ c ∈ name.head?, c.isDigit = false

theorem identChar_cleanChar (c : Char) : identChar (cleanChar c) = true := by
  unfold cleanChar
  split
  · assumption
  · rfl

theorem cleanChar_of_identChar {c : Char} (h : identChar c = true) : cleanChar c = c := if_pos h

theorem dollar_cleanChar {c : Char} : cleanChar c = '$' ↔ c = '$' := by
  unfold cleanChar
  split
  · rfl
  · rename_i h
    refine ⟨fun heq => absurd heq (by decide), ?_⟩
    rintro rfl
    exact absurd rfl h

theorem sanitize_identifier_name_eq (name : Str) : sanitize_identifier_name name =
    match sanitize_array_name name with
    | [] => []
    | c :: cs => (if c.isDigit then ['_'] else []) ++ (c :: cs).map cleanChar := rfl

theorem clean_sanitize (name : Str) : Clean (sanitize_identifier_name name) := by
  rw [sanitize_identifier_name_eq]
  cases sanitize_array_name name with
  | nil => exact ⟨by simp, by simp⟩
  | cons c cs =>
    refine ⟨fun x hx => ?_, fun x hx => ?_⟩
    · rcases List.mem_append.mp hx with hx | hx
      · split at hx
        · obtain rfl := List.mem_singleton.mp hx
          rfl
        · cases hx
      · obtain ⟨y, -, rfl⟩ := List.mem_map.mp hx
        exact identChar_cleanChar y
    · by_cases hdigit : c.isDigit = true
      · simp only [hdigit, if_true, List.singleton_append, List.head?_cons, Option.mem_some_iff]
          at hx
        rw [← hx]
        rfl
      · simp only [hdigit, Bool.false_eq_true, if_false, List.nil_append, List.map_cons,
          List.head?_cons, Option.mem_some_iff] at hx
        rw [← hx]
        unfold cleanChar
        split
        · simpa using hdigit
        · rfl

/-- A collapsed index has no dollar sign around it. -/
theorem dollar_sanitize_array_name (name : Str) : '$' ∈ sanitize_array_name name ↔ '$' ∈ name := by
  unfold sanitize_array_name
  split
  · rfl
  rename_i base rest hbase
  split
  · rfl
  rename_i index suffix hindex
  split
  · obtain ⟨rfl, -⟩ := split_once_eq_some hbase
    obtain ⟨rfl, -⟩ := split_once_eq_some hindex
    simp
  · rfl

theorem dollar_sanitize (name : Str) : '$' ∈ sanitize_identifier_name name ↔ '$' ∈ name := by
  rw [← dollar_sanitize_array_name name, sanitize_identifier_name_eq]
  cases sanitize_array_name name with
  | nil => rfl
  | cons c cs =>
    have hmap : '$' ∈ (c :: cs).map cleanChar ↔ '$' ∈ c :: cs := by
      simp only [List.mem_map, dollar_cleanChar, exists_eq_right]
    rw [← hmap, List.mem_append, or_iff_right]
    split <;> simp

/-- What sanitizing makes of a name behind a path. It collapses an index in brackets, but not
behind a dollar sign. -/
def behind (dollar : Bool) (name : Str) : Str :=
  let collapsed := match split_once '[' name with
    | none => name
    | some (base, rest) =>
      match split_once ']' rest with
      | none => name
      | some (index, suffix) =>
        if (base.all fun x => x.isAlphanum || x = '_') && index ≠ [] && index.all Char.isDigit &&
            (suffix = [] || isWord suffix) then base ++ '_' :: index ++ suffix
        else name
  (if dollar then name else collapsed).map cleanChar

theorem split_once_append_left {c : Char} {a : Str} (h : c ∉ a) (b : Str) :
    split_once c (a ++ b) = (split_once c b).map fun p => (a ++ p.1, p.2) := by
  induction a with
  | nil => simp
  | cons x xs ih =>
    simp only [List.mem_cons, not_or] at h
    rw [List.cons_append, split_once, if_neg (fun hx => h.1 hx.symm), ih h.2, Option.map_map]
    rfl

theorem isWord_path {path : Str} (hpath : Clean path) (base : Str) :
    isWord (path ++ "__".toList ++ base) =
      (decide ('$' ∉ path) && base.all fun x => x.isAlphanum || x = '_') := by
  have hword : ∀ cs : Str, (∀ c ∈ cs, identChar c = true) →
      (cs.all fun x => x.isAlphanum || x = '_') = decide ('$' ∉ cs) := by
    intro cs hcs
    rw [Bool.eq_iff_iff, List.all_eq_true, decide_eq_true_eq]
    constructor
    · intro hall hmem
      exact absurd (hall _ hmem) (by decide)
    · intro hmem c hc
      have hident := hcs c hc
      unfold identChar at hident
      have hne : c ≠ '$' := fun heq => hmem (heq ▸ hc)
      simpa [hne] using hident
  cases path with
  | nil => simp [isWord]
  | cons c cs =>
    have hcs := hword cs fun x hx => hpath.chars x (List.mem_cons_of_mem _ hx)
    have hdigit := hpath.head c rfl
    have hident := hpath.chars c List.mem_cons_self
    have hfirst : (c.isAlpha || decide (c = '_')) = decide ('$' ≠ c) := by
      unfold identChar Char.isAlphanum at hident
      rw [hdigit] at hident
      by_cases hdollar : c = '$'
      · subst hdollar
        rfl
      · simpa [hdollar, Ne.symm hdollar] using hident
    rw [List.cons_append, List.cons_append, isWord, hfirst, List.all_append, List.all_append, hcs]
    simp [Bool.and_assoc]

/-- Behind a path, a name is sanitized by itself. -/
theorem inside_eq {path : Str} (hpath : Clean path) (name : Str) :
    inside path name = path ++ "__".toList ++ behind (decide ('$' ∈ path)) name := by
  have hbracket : '[' ∉ path ++ "__".toList := by
    intro hmem
    rcases List.mem_append.mp hmem with hmem | hmem
    · exact absurd (hpath.chars _ hmem) (by decide)
    · exact absurd hmem (by decide)
  -- the array name, with the path in front of it
  have harray : ∃ tail, sanitize_array_name (path ++ "__".toList ++ name) =
      path ++ "__".toList ++ tail ∧ behind (decide ('$' ∈ path)) name = tail.map cleanChar := by
    unfold sanitize_array_name behind
    rw [split_once_append_left hbracket]
    cases hopen : split_once '[' name with
    | none => exact ⟨name, rfl, by simp⟩
    | some p =>
      obtain ⟨base, rest⟩ := p
      dsimp only [Option.map_some]
      cases hclose : split_once ']' rest with
      | none => exact ⟨name, rfl, by simp⟩
      | some q =>
        obtain ⟨index, suffix⟩ := q
        dsimp only
        rw [isWord_path hpath]
        by_cases hdollar : '$' ∈ path
        · exact ⟨name, by simp [hdollar], by simp [hdollar]⟩
        · simp only [hdollar, not_false_eq_true, decide_true, Bool.true_and, decide_false,
            Bool.false_eq_true, if_false]
          split
          · exact ⟨base ++ '_' :: index ++ suffix, by simp, rfl⟩
          · exact ⟨name, rfl, rfl⟩
  obtain ⟨tail, htail, hbehind⟩ := harray
  have hfix : path.map cleanChar = path :=
    List.map_congr_left (fun c hc => cleanChar_of_identChar (hpath.chars c hc)) |>.trans
      (List.map_id _)
  rw [inside, sanitize_identifier_name_eq, htail, hbehind]
  cases path with
  | nil => rfl
  | cons c cs =>
    have hdigit := hpath.head c rfl
    simp only [List.cons_append, hdigit, Bool.false_eq_true, if_false, List.nil_append]
    rw [← List.cons_append, ← List.cons_append, List.map_append, List.map_append, hfix]
    rfl

namespace Graph

/-! ## Names that run together -/

section

variable (g : Graph)

/-- A dollar sign is in a name of the path. -/
def dollar : Path → Bool
  | [] => false
  | s :: p => (g.canonical_at (s :: p)).contains '$' || dollar p

/-- What a name adds to the spelling of the path that it stands in. -/
def part (p : Path) (name : Str) : Str :=
  if p = [] then sanitize_identifier_name name
  else "__".toList ++ behind (g.dollar p) name

def IsKernel (p : Path) : Prop := g.Visited p ∧ g.level_at p = some .Lower

/-- What the names of the occurrences `r` below a path add to its spelling. -/
def rest (p : Path) : Path → Str
  | [] => []
  | s :: r => rest p r ++ g.part (r ++ p) (g.canonical_at (s :: (r ++ p)))

/-- What the name of a FIFO `r` below a path adds to its spelling. -/
def fifo_rest (p r : Path) (name : Str) : Str := g.rest p r ++ g.part (r ++ p) name

/-- The sanitized names of the source do not run together: kernels of one task have
different ones, and so have its FIFOs. The name of a kernel or of a FIFO is not that of a
sibling task with what a kernel or a FIFO below this task adds. And where the name of a
sibling task begins with that of another one, what is left of it is not made up below. -/
structure Unambiguous : Prop where
  kernels : ∀ s t p, s ≠ t → g.IsKernel (s :: p) → g.IsKernel (t :: p) →
    g.part p (g.canonical_at (s :: p)) ≠ g.part p (g.canonical_at (t :: p))
  kernel_scopes : ∀ s t r p, r ≠ [] → g.IsKernel (s :: p) → g.IsKernel (r ++ t :: p) →
    g.part p (g.canonical_at (s :: p)) ≠ g.part p (g.canonical_at (t :: p)) ++ g.rest (t :: p) r
  scopes : ∀ s t r r' p left, s ≠ t → r ≠ [] → r' ≠ [] → g.IsKernel (r ++ s :: p) →
    g.IsKernel (r' ++ t :: p) →
      g.part p (g.canonical_at (t :: p)) = g.part p (g.canonical_at (s :: p)) ++ left →
        g.rest (s :: p) r ≠ left ++ g.rest (t :: p) r'
  fifos : ∀ p name name', g.IsStream (p, name) → g.IsStream (p, name') →
    g.part p name = g.part p name' → name = name'
  fifo_scopes : ∀ p name t r name', g.IsStream (p, name) → g.IsStream (r ++ t :: p, name') →
    g.part p name ≠ g.part p (g.canonical_at (t :: p)) ++ g.fifo_rest (t :: p) r name'
  stream_scopes : ∀ s t r r' p name name' left, s ≠ t → g.IsStream (r ++ s :: p, name) →
    g.IsStream (r' ++ t :: p, name') →
      g.part p (g.canonical_at (t :: p)) = g.part p (g.canonical_at (s :: p)) ++ left →
        g.fifo_rest (s :: p) r name ≠ left ++ g.fifo_rest (t :: p) r' name'

end

variable {g : Graph}

theorem clean_spelled (p : Path) : Clean (g.spelled p) := by
  match p with
  | [] => exact ⟨by simp [spelled], by simp [spelled]⟩
  | [s] => exact clean_sanitize _
  | s :: t :: p => exact clean_sanitize _

theorem dollar_spelled (p : Path) : '$' ∈ g.spelled p ↔ g.dollar p = true := by
  induction p with
  | nil => simp [spelled, dollar]
  | cons s p ih =>
    rw [dollar, Bool.or_eq_true, List.contains_iff_mem, ← ih]
    cases p with
    | nil => simp [spelled, dollar_sanitize]
    | cons t p =>
      rw [spelled_cons (by simp), inside, dollar_sanitize]
      simp [or_comm]

/-- A path is spelled by what its names add, one after the other. -/
theorem spelled_eq (s : EndpointRef) (p : Path) :
    g.spelled (s :: p) = g.spelled p ++ g.part p (g.canonical_at (s :: p)) := by
  cases p with
  | nil => rfl
  | cons t p =>
    rw [spelled_cons (by simp), inside_eq (clean_spelled _), part, if_neg (by simp)]
    simp [dollar_spelled]

theorem stream_name_eq (p : Path) (name : Str) :
    g.stream_name (p, name) = g.spelled p ++ g.part p name := by
  unfold stream_name part
  split
  · rename_i hp
    obtain rfl : p = [] := hp
    rfl
  · rename_i hp
    rw [inside_eq (clean_spelled _)]
    simp [dollar_spelled]

theorem spelled_append (r p : Path) : g.spelled (r ++ p) = g.spelled p ++ g.rest p r := by
  induction r with
  | nil => exact (List.append_nil _).symm
  | cons s r ih => rw [List.cons_append, spelled_eq, ih, rest, List.append_assoc]

theorem stream_name_append (r p : Path) (name : Str) :
    g.stream_name (r ++ p, name) = g.spelled p ++ g.fifo_rest p r name := by
  rw [stream_name_eq, spelled_append, fifo_rest, List.append_assoc]

/-- A path below an occurrence, from the task that invokes it on. -/
theorem spelled_fork (r c : Path) (s : EndpointRef) : g.spelled (r ++ s :: c) =
    g.spelled c ++ (g.part c (g.canonical_at (s :: c)) ++ g.rest (s :: c) r) := by
  rw [spelled_append, spelled_eq, List.append_assoc]

theorem stream_name_fork (r c : Path) (s : EndpointRef) (name : Str) :
    g.stream_name (r ++ s :: c, name) =
      g.spelled c ++ (g.part c (g.canonical_at (s :: c)) ++ g.fifo_rest (s :: c) r name) := by
  rw [stream_name_append, spelled_eq, List.append_assoc]

section Apart

variable (h : g.Unambiguous)
include h

/-- A kernel and a kernel below one of its siblings have different names. -/
theorem Unambiguous.kernel_ne {s t : EndpointRef} {r c : Path} (hr : r ≠ [])
    (hs : g.IsKernel (s :: c)) (ht : g.IsKernel (r ++ t :: c)) :
    g.spelled (s :: c) ≠ g.spelled (r ++ t :: c) := by
  intro heq
  rw [spelled_fork, spelled_eq] at heq
  exact h.kernel_scopes s t r c hr hs ht (List.append_cancel_left heq)

/-- Two kernels that are spelled alike are one kernel. -/
theorem Unambiguous.spelled_inj {p q : Path} (hp : g.IsKernel p) (hq : g.IsKernel q)
    (heq : g.spelled p = g.spelled q) : p = q := by
  by_contra hne
  have hpq : ¬p <:+ q := fun hs => hne (hq.1.eq_of_suffix hp.1.ne_nil hp.2 hs).symm
  have hqp : ¬q <:+ p := fun hs => hne (hp.1.eq_of_suffix hq.1.ne_nil hq.2 hs)
  obtain ⟨r, s, r', t, c, hst, rfl, rfl⟩ := TaskGraph.exists_fork hpq hqp
  by_cases hr : r = []
  · subst hr
    by_cases hr' : r' = []
    · subst hr'
      rw [List.nil_append, List.nil_append, spelled_eq, spelled_eq] at heq
      exact h.kernels s t c hst hp hq (List.append_cancel_left heq)
    · exact h.kernel_ne hr' hp hq heq
  · by_cases hr' : r' = []
    · subst hr'
      exact h.kernel_ne hr hq hp heq.symm
    · rw [spelled_fork, spelled_fork] at heq
      rcases List.append_eq_append_iff.mp (List.append_cancel_left heq) with
        ⟨left, ht, hx⟩ | ⟨left, hs, hy⟩
      · exact h.scopes s t r r' c left hst hr hr' hp hq ht hx
      · exact h.scopes t s r' r c left (Ne.symm hst) hr' hr hq hp hs hy

/-- Two FIFOs whose streams have one name are one FIFO. -/
theorem Unambiguous.stream_name_inj {p q : Path} {name name' : Str} (hp : g.IsStream (p, name))
    (hq : g.IsStream (q, name')) (heq : g.stream_name (p, name) = g.stream_name (q, name')) :
    (p, name) = (q, name') := by
  -- a FIFO of a task and one below it have different names
  have habove : ∀ {p q : Path} {name name' : Str}, g.IsStream (p, name) → g.IsStream (q, name') →
      g.stream_name (p, name) = g.stream_name (q, name') → p ≠ q → ¬p <:+ q := by
    rintro p q name name' hp hq heq hne ⟨r, rfl⟩
    cases r using List.reverseRecOn with
    | nil => exact hne rfl
    | append_singleton r t =>
      rw [List.append_assoc] at hq heq
      rw [stream_name_eq, List.singleton_append, stream_name_fork] at heq
      exact h.fifo_scopes p name t r name' hp hq (List.append_cancel_left heq)
  by_cases hne : p = q
  · subst hne
    rw [stream_name_eq, stream_name_eq] at heq
    rw [h.fifos p name name' hp hq (List.append_cancel_left heq)]
  · exfalso
    obtain ⟨r, s, r', t, c, hst, rfl, rfl⟩ := TaskGraph.exists_fork (habove hp hq heq hne)
      (habove hq hp heq.symm (Ne.symm hne))
    rw [stream_name_fork, stream_name_fork] at heq
    rcases List.append_eq_append_iff.mp (List.append_cancel_left heq) with
      ⟨left, ht, hx⟩ | ⟨left, hs, hy⟩
    · exact h.stream_scopes s t r r' c name name' left hst hp hq ht hx
    · exact h.stream_scopes t s r' r c name' name left (Ne.symm hst) hq hp hs hy

end Apart

/-- Names that run together give two kernels or two streams one name. -/
theorem unambiguous_of_inj
    (hkernels : ∀ p q, g.IsKernel p → g.IsKernel q → g.spelled p = g.spelled q → p = q)
    (hstreams : ∀ x y, g.IsStream x → g.IsStream y → g.stream_name x = g.stream_name y → x = y) :
    g.Unambiguous := by
  refine ⟨?_, ?_, ?_, ?_, ?_, ?_⟩
  · intro s t p hst hs ht heq
    have hpq := hkernels _ _ hs ht (by rw [spelled_eq, spelled_eq, heq])
    exact hst (List.cons.inj hpq).1
  · intro s t r p hr hs ht heq
    have hpq := congrArg List.length (hkernels _ _ hs ht (by rw [spelled_eq, spelled_fork, heq]))
    have hpos := List.length_pos_iff.mpr hr
    simp only [List.length_append, List.length_cons] at hpq
    omega
  · intro s t r r' p left hst _ _ hs ht hpart heq
    refine hst (TaskGraph.fork_inj (hkernels _ _ hs ht ?_))
    rw [spelled_fork, spelled_fork, hpart, heq, List.append_assoc]
  · intro p name name' hs hs' heq
    have hpq := hstreams _ _ hs hs' (by rw [stream_name_eq, stream_name_eq, heq])
    exact (Prod.mk.inj hpq).2
  · intro p name t r name' hs hs' heq
    have hpq := hstreams _ _ hs hs' (by rw [stream_name_eq, stream_name_fork, heq])
    have hlength := congrArg List.length (Prod.mk.inj hpq).1
    simp only [List.length_append, List.length_cons] at hlength
    omega
  · intro s t r r' p name name' left hst hs ht hpart heq
    refine hst (TaskGraph.fork_inj (Prod.mk.inj (hstreams _ _ hs ht ?_)).1)
    rw [stream_name_fork, stream_name_fork, hpart, heq, List.append_assoc]

/-! ## The names of a derivation -/

theorem map_eq_of_forall₂ {α β γ : Type} {R : α → β → Prop} {f : α → γ} {f' : β → γ}
    (hR : ∀ a x, R a x → f' x = f a) {l : List α} {m : List β} (h : List.Forall₂ R l m) :
    m.map f' = l.map f := by
  induction h with
  | nil => rfl
  | cons hax _ ih => rw [List.map_cons, List.map_cons, hR _ _ hax, ih]

/-- The names that a derivation gives. -/
theorem Derived.names {b : Builder} (h : g.Derived b) :
    b.partition.kernels.map AieKernel.name = b.leaves.map g.spelled ∧
      b.partition.streams.map AieStream.name = b.sources.map g.stream_name :=
  ⟨map_eq_of_forall₂ (fun _ _ hk => hk.name) h.inv.kernels,
    map_eq_of_forall₂ (fun _ _ hs => hs.name) h.inv.streams⟩

/-- The top `T` invokes the AI Engine task `U` twice. In `U`, the kernel `A` writes the FIFO
`q` and `B` reads it. -/
def twoPairs : Graph where
  top := ['T']
  tasks := (((∅ : BTreeMap Str Task).insert ['T']
    ⟨.Upper, [], (∅ : BTreeMap Str (List TaskInstance)).insert ['U']
      [⟨none, ∅, 0⟩, ⟨none, ∅, 0⟩], ∅, none⟩).insert ['U']
    ⟨.Upper, [], ((∅ : BTreeMap Str (List TaskInstance)).insert ['A']
        [boundInstance ['q'] .Ostream]).insert ['B'] [boundInstance ['q'] .Istream],
      (∅ : BTreeMap Str InterconnectDefinition).insert ['q']
        ⟨some 2, some (['B'], 0), some (['A'], 0)⟩, none⟩).insert ['A']
    ⟨.Lower, [{ istreamPort with cat := .Ostream }], ∅, ∅, none⟩ |>.insert ['B']
    ⟨.Lower, [istreamPort], ∅, ∅, none⟩
  attributes := fun name =>
    { synth := if name = ['T'] then .Hls else .Aie
      readable_name := name
      aie_location := []
      aie_stack_bytes := none
      port := fun _ => ⟨[], none, none⟩ }

/-- The kernels of the pairs. -/
def pairKernels : List Path := [[(['A'], 0), (['U'], 0)], [(['B'], 0), (['U'], 0)],
  [(['A'], 0), (['U'], 1)], [(['B'], 0), (['U'], 1)]]

section

variable {b : Builder} (h : derive_with_origins 3 twoPairs = .ok (some b))
include h

theorem isKernel_twoPairs {p : Path} (hp : twoPairs.IsKernel p) : p ∈ pairKernels := by
  have hleaves : ((derive_with_origins 3 twoPairs).toOption.bind id).map Builder.leaves =
      some pairKernels := by decide +kernel
  rw [h] at hleaves
  exact Option.some.inj hleaves ▸ ((derived_of_ok h).leaves p).mpr hp

theorem isStream_twoPairs {p : Path} {name : Str} (hs : twoPairs.IsStream (p, name)) :
    (p = [(['U'], 0)] ∨ p = [(['U'], 1)]) ∧ name = ['q'] := by
  have hsources : ((derive_with_origins 3 twoPairs).toOption.bind id).map Builder.sources =
      some [([(['U'], 0)], ['q']), ([(['U'], 1)], ['q'])] := by decide +kernel
  rw [h] at hsources
  have hmem := Option.some.inj hsources ▸ ((derived_of_ok h).sources _).mpr hs
  simpa [← or_and_right] using hmem

theorem unambiguous_twoPairs : twoPairs.Unambiguous := by
  have hall : ∀ x ∈ pairKernels, ∀ y ∈ pairKernels, x ≠ y → x.tail = y.tail →
      twoPairs.part x.tail (twoPairs.canonical_at x) ≠
        twoPairs.part y.tail (twoPairs.canonical_at y) := by
    decide +kernel
  have hroots : ∀ {s t : EndpointRef}, (s = (['U'], 0) ∨ s = (['U'], 1)) →
      (t = (['U'], 0) ∨ t = (['U'], 1)) → s ≠ t →
      ∀ left, twoPairs.part [] (twoPairs.canonical_at [t]) ≠
        twoPairs.part [] (twoPairs.canonical_at [s]) ++ left := by
    intro s t hs ht hst left heq
    have hpre : twoPairs.part [] (twoPairs.canonical_at [s]) <+:
        twoPairs.part [] (twoPairs.canonical_at [t]) := ⟨left, heq.symm⟩
    rcases hs with rfl | rfl <;> rcases ht with rfl | rfl
    · exact hst rfl
    · exact absurd hpre (by decide +kernel)
    · exact absurd hpre (by decide +kernel)
    · exact hst rfl
  have hkernel : ∀ {r t p}, r ≠ [] → twoPairs.IsKernel (r ++ t :: p) →
      p = [] ∧ (t = (['U'], 0) ∨ t = (['U'], 1)) := by
    intro r t p hr hp
    obtain ⟨s, r, rfl⟩ := List.exists_cons_of_ne_nil hr
    have hmem := isKernel_twoPairs h hp
    cases r with
    | nil => grind [pairKernels]
    | cons x r => simp [pairKernels] at hmem
  have hstream : ∀ {r t p name}, twoPairs.IsStream (r ++ t :: p, name) →
      p = [] ∧ (t = (['U'], 0) ∨ t = (['U'], 1)) := by
    intro r t p name hs
    have hmem := (isStream_twoPairs h hs).1
    cases r with
    | nil => grind
    | cons x r => simp at hmem
  refine ⟨?_, ?_, ?_, ?_, ?_, ?_⟩
  · intro s t p hst hs ht
    exact hall _ (isKernel_twoPairs h hs) _ (isKernel_twoPairs h ht)
      (fun heq => hst (List.cons.inj heq).1) rfl
  · intro s t r p hr hs ht
    obtain ⟨rfl, -⟩ := hkernel hr ht
    have hmem := isKernel_twoPairs h hs
    simp [pairKernels] at hmem
  · intro s t r r' p left hst hr hr' hs ht hpart
    obtain ⟨rfl, hroot⟩ := hkernel hr hs
    exact absurd hpart (hroots hroot (hkernel hr' ht).2 hst left)
  · intro p name name' hs hs' _
    rw [(isStream_twoPairs h hs).2, (isStream_twoPairs h hs').2]
  · intro p name t r name' hs ht
    obtain ⟨rfl, -⟩ := hstream ht
    have hmem := (isStream_twoPairs h hs).1
    simp at hmem
  · intro s t r r' p name name' left hst hs ht hpart
    obtain ⟨rfl, hroot⟩ := hstream hs
    exact absurd hpart (hroots hroot (hstream ht).2 hst left)

end

/-- The top `T` invokes the kernel `K` under two names. -/
def invokedTwice (first second : Str) : Graph where
  top := ['T']
  tasks := ((∅ : BTreeMap Str Task).insert ['T']
    ⟨.Upper, [], (∅ : BTreeMap Str (List TaskInstance)).insert ['K']
      [⟨some first, ∅, 0⟩, ⟨some second, ∅, 0⟩], ∅, none⟩).insert ['K']
    ⟨.Lower, [], ∅, ∅, none⟩
  attributes := fun name =>
    { synth := if name = ['K'] then .Aie else .Hls
      readable_name := name
      aie_location := []
      aie_stack_bytes := none
      port := fun _ => ⟨[], none, none⟩ }

end Graph

end Tapa.AiEngine
