-- The includes of the rewritten tree (`tree_writer.cpp`). The recorder keeps the first
-- sighting of a directive, files that are not found by a system search are mirrored, and
-- a quoted include of a mirror outside of the source root is redirected to its bucket.
import Tapa.Fallible
import Tapa.Text

namespace Tapa.Tree

open Text Fallible List

/-! ## Recording -/

/-- A place in a file. Each inclusion of a file and each expansion of a macro has a `FileID`
of its own. -/
structure SourceRange where
  file_id : Nat
  is_macro : Bool
  start : Nat
  stop : Nat
deriving DecidableEq

structure IncludeDirective where
  writing_file : Str
  spelling : Str
  resolved : Str
  angled : Bool
  from_system_search : Bool
  filename_range : SourceRange
deriving DecidableEq

/-- What tells two directives apart. -/
def IncludeDirective.key (r : IncludeDirective) : Str × Str × Bool × Str :=
  (r.writing_file, r.spelling, r.angled, r.resolved)

/-- One callback of the preprocessor: a directive that was sighted before is not kept. -/
def inclusion_directive (log : List IncludeDirective) (record : IncludeDirective) :
    List IncludeDirective :=
  if log.any (·.key = record.key) then log else log ++ [record]

def include_log (sightings : List IncludeDirective) : List IncludeDirective :=
  sightings.foldl inclusion_directive []

theorem mem_foldl_inclusion_directive {sightings log : List IncludeDirective}
    {r : IncludeDirective} : r ∈ sightings.foldl inclusion_directive log ↔ r ∈ log ∨
      (∀ x ∈ log, x.key ≠ r.key) ∧ sightings.find? (·.key = r.key) = some r := by
  induction sightings generalizing log with
  | nil => simp
  | cons y ys ih =>
    rw [foldl_cons, ih, inclusion_directive, find?_cons]
    by_cases hseen : ∃ x ∈ log, x.key = y.key
    · rw [if_pos (by simpa using hseen)]
      grind
    · rw [if_neg (by simpa using hseen)]
      grind

/-- The log has the first sighting of each directive. -/
theorem mem_include_log {sightings : List IncludeDirective} {r : IncludeDirective} :
    r ∈ include_log sightings ↔ sightings.find? (·.key = r.key) = some r := by
  simp [include_log, mem_foldl_inclusion_directive]

/-! ## The layout -/

def filename (path : Str) : Str := (path.reverse.takeWhile (· ≠ '/')).reverse

/-- The bucket of a path, from the digest that `SHA256` gives it. -/
def external_key (digest8 : Str → Str) (path : Str) : Str :=
  "_external/".toList ++ digest8 path ++ '/' :: filename path

def shared : List Str → List Str → List Str
  | a :: as, b :: bs => if a = b then a :: shared as bs else []
  | _, _ => []

/-- The deepest directory above all main files. -/
def src_root (main_files : List Str) : Str :=
  let dirs := main_files.map fun file =>
    ((file.splitOn '/').filter fun piece => piece ≠ [] && piece ≠ ['.']).dropLast
  '/' :: ['/'].intercalate (dirs.tail.foldl shared (dirs.headD []))

def in_root (root path : Str) : Bool :=
  root.isPrefixOf path && (root = ['/'] || path[root.length]? = some '/')

/-! ## A translation unit -/

/-- A unit as Clang has it: its main file, the sightings, and the `FileID` of a file. -/
structure Tu where
  main : Option (Str × Nat)
  sightings : List IncludeDirective
  file_id : Str → Nat

def mirror_closure (main_files : List Str) (log : List IncludeDirective) : List Str :=
  main_files ++
    (log.filter fun r => r.resolved ≠ [] && !r.from_system_search).map (·.resolved)

/-- The mirrored files that a unit can speak for. The first `FileID` of a path is taken. -/
def mirror_files (main_files : List Str) (tu : Tu) : List (Str × Nat) :=
  let log := include_log tu.sightings
  let mirrored := mirror_closure main_files log
  tu.main.toList ++ log.flatMap fun r =>
    (if r.writing_file ∈ mirrored then [(r.writing_file, r.filename_range.file_id)] else []) ++
    if r.resolved ∈ mirrored ∧ r.resolved ≠ [] then [(r.resolved, tu.file_id r.resolved)] else []

inductive TreeError where
  | cannot_rewrite (resolved writing_file : Str)
  | rewritten_differently (path : Str)

/-- A replacement of a range of a file. -/
structure Edit where
  path : Str
  start : Nat
  stop : Nat
  text : Str
deriving DecidableEq

/-- The writer, with the digest of a path and the bytes of a file after its edits. -/
structure TreeWriter where
  main_files : List Str
  digest8 : Str → Str
  render : Str → List Edit → Str

section

variable (w : TreeWriter)

/-- A quoted include of a file outside of the root that no system search found. -/
def TreeWriter.moved (r : IncludeDirective) : Bool :=
  !(r.angled || r.resolved = [] || r.from_system_search ||
    in_root (src_root w.main_files) r.resolved)

def TreeWriter.redirect (r : IncludeDirective) : Edit :=
  ⟨r.writing_file, r.filename_range.start, r.filename_range.stop,
    '"' :: external_key w.digest8 r.resolved ++ ['"']⟩

/-- A range can be replaced where it is in the file of the buffer itself. -/
def TreeWriter.rewrite_include (files : List (Str × Nat)) (edits : List Edit)
    (r : IncludeDirective) : Except TreeError (List Edit) :=
  if w.moved r then
    match files.lookup r.writing_file with
    | none => .ok edits
    | some file =>
      if r.filename_range.file_id = file ∧ r.filename_range.is_macro = false then
        .ok (edits ++ [w.redirect r])
      else .error (.cannot_rewrite r.resolved r.writing_file)
  else .ok edits

def TreeWriter.include_edits (tu : Tu) : Except TreeError (List Edit) :=
  (include_log tu.sightings).foldlM (w.rewrite_include (mirror_files w.main_files tu)) []

/-- What a unit makes of a file. -/
def TreeWriter.bytes (edits : List Edit) (path : Str) : Str :=
  w.render path (edits.filter (·.path = path))

/-- The first unit that has a file owns it, and the others must come to the same bytes. -/
def TreeWriter.absorb (edits : List Edit) (rendered : List (Str × Str)) (path : Str) :
    Except TreeError (List (Str × Str)) :=
  match rendered.lookup path with
  | none => .ok (rendered ++ [(path, w.bytes edits path)])
  | some old =>
    if old = w.bytes edits path then .ok rendered else .error (.rewritten_differently path)

def TreeWriter.add_tu (rendered : List (Str × Str)) (tu : Tu) :
    Except TreeError (List (Str × Str)) := do
  let edits ← w.include_edits tu
  ((mirror_files w.main_files tu).map Prod.fst).foldlM (w.absorb edits) rendered

variable {w}

/-! ## What a unit redirects -/

variable {files : List (Str × Nat)} {edits : List Edit}

theorem mem_edits {log : List IncludeDirective}
    (h : log.foldlM (w.rewrite_include files) [] = .ok edits) {e : Edit} :
    e ∈ edits ↔ ∃ r ∈ log, w.moved r = true ∧ (files.lookup r.writing_file).isSome = true ∧
      w.redirect r = e := by
  refine foldlM_invariant (P := fun ys edits => e ∈ edits ↔ ∃ r ∈ ys, w.moved r = true ∧
    (files.lookup r.writing_file).isSome = true ∧ w.redirect r = e) h (by simp) ?_
  intro ys y edits edits' _ ih hstep
  simp only [mem_snoc, or_and_right, exists_or, exists_eq_left, ← ih]
  unfold TreeWriter.rewrite_include at hstep
  split at hstep
  · rename_i hmoved
    split at hstep
    · rename_i hnone
      cases hstep
      simp [hnone]
    · rename_i file hfile
      split at hstep
      · cases hstep
        simp [hmoved, hfile, eq_comm]
      · cases hstep
  · rename_i hstays
    cases hstep
    simp [hstays]

theorem absorb_ok {paths : List Str} {rendered tree : List (Str × Str)}
    (h : paths.foldlM (w.absorb edits) rendered = .ok tree) :
    (∀ path bytes, rendered.lookup path = some bytes → tree.lookup path = some bytes) ∧
      ∀ path ∈ paths, tree.lookup path = some (w.bytes edits path) := by
  refine foldlM_invariant (P := fun ys (tree : List (Str × Str)) =>
    (∀ path bytes, rendered.lookup path = some bytes → tree.lookup path = some bytes) ∧
      ∀ path ∈ ys, tree.lookup path = some (w.bytes edits path)) h
    ⟨fun _ _ => id, by simp⟩ ?_
  rintro ys y t t' _ ⟨hkept, hdone⟩ hstep
  have hgrows : (∀ path bytes, t.lookup path = some bytes → t'.lookup path = some bytes) ∧
      t'.lookup y = some (w.bytes edits y) := by
    unfold TreeWriter.absorb at hstep
    split at hstep
    · rename_i hnone
      cases hstep
      refine ⟨fun path bytes hpath => ?_, ?_⟩
      · rw [lookup_append, hpath]
        rfl
      · rw [lookup_append, hnone]
        simp
    · rename_i old hold
      split at hstep
      · rename_i hsame
        cases hstep
        exact ⟨fun _ _ => id, hold.trans (congrArg some hsame)⟩
      · cases hstep
  refine ⟨fun path bytes hpath => hgrows.1 _ _ (hkept path bytes hpath),
    forall_mem_snoc.mpr ⟨fun path hpath => hgrows.1 _ _ (hdone path hpath), hgrows.2⟩⟩

variable (w) in
/-- The sightings of a unit that are to be redirected. -/
def TreeWriter.to_redirect (tu : Tu) : List IncludeDirective :=
  tu.sightings.filter fun r => w.moved r &&
    ((mirror_files w.main_files tu).lookup r.writing_file).isSome

theorem mem_include_edits {tu : Tu} (h : w.include_edits tu = .ok edits)
    {e : Edit} : e ∈ edits ↔ ∃ r ∈ w.to_redirect tu,
      tu.sightings.find? (·.key = r.key) = some r ∧ w.redirect r = e := by
  rw [mem_edits h]
  constructor
  · rintro ⟨r, hr, hmoved, hfile, he⟩
    have hfirst := mem_include_log.mp hr
    refine ⟨r, mem_filter.mpr ⟨mem_of_find?_eq_some hfirst, ?_⟩, hfirst, he⟩
    rw [hmoved, hfile]
    rfl
  · rintro ⟨r, hr, hfirst, he⟩
    have hcond := (mem_filter.mp hr).2
    rw [Bool.and_eq_true] at hcond
    exact ⟨r, mem_include_log.mpr hfirst, hcond.1, hcond.2, he⟩

/-- In a tree that is written, a file has the bytes that each unit with it comes to, and
nothing but quoted includes of files outside of the root is redirected. All of them are just
when each is at the place of a first sighting that is redirected to the same file. -/
theorem includes_are_redirected_iff_sighted_first {tus : List Tu} {tree : List (Str × Str)}
    (h : tus.foldlM w.add_tu [] = .ok tree) :
    ∀ tu ∈ tus, ∃ edits, w.include_edits tu = .ok edits ∧
      (∀ path ∈ (mirror_files w.main_files tu).map Prod.fst,
        tree.lookup path = some (w.bytes edits path)) ∧
      (∀ e ∈ edits, ∃ r ∈ w.to_redirect tu, w.redirect r = e) ∧
      ((∀ r ∈ w.to_redirect tu, w.redirect r ∈ edits) ↔
        ∀ r ∈ w.to_redirect tu, ∃ r' ∈ w.to_redirect tu,
          tu.sightings.find? (·.key = r'.key) = some r' ∧
          w.redirect r' = w.redirect r) := by
  have hwritten := foldlM_invariant (P := fun ys (tree : List (Str × Str)) => ∀ tu ∈ ys,
    ∃ edits, w.include_edits tu = .ok edits ∧
      ∀ path ∈ (mirror_files w.main_files tu).map Prod.fst,
        tree.lookup path = some (w.bytes edits path)) h (by simp) ?_
  · intro tu htu
    obtain ⟨edits, hedits, hbytes⟩ := hwritten tu htu
    refine ⟨edits, hedits, hbytes, fun e he => ?_, ?_⟩
    · obtain ⟨r, hr, _, he⟩ := (mem_include_edits hedits).mp he
      exact ⟨r, hr, he⟩
    · exact forall₂_congr fun r _ => mem_include_edits hedits
  · intro ys tu tree tree' _ ih hstep
    obtain ⟨edits, hedits, hrun⟩ := bind_eq_ok.mp hstep
    obtain ⟨hkept, hnew⟩ := absorb_ok hrun
    refine forall_mem_snoc.mpr ⟨fun tu' htu' => ?_, edits, hedits, hnew⟩
    obtain ⟨edits', hedits', hbytes⟩ := ih tu' htu'
    exact ⟨edits', hedits', fun path hpath => hkept _ _ (hbytes path hpath)⟩

end

/-- `/r/a.cpp`, a line for each header of `/x` that it includes. -/
def source (headers : List Str) : Str :=
  headers.flatMap fun h => "#include \"../x/".toList ++ h ++ "\"\n".toList

/-- The unit of `/r/a.cpp`, with headers whose names have three letters. -/
def includer (headers : List Str) : Tu where
  main := some ("/r/a.cpp".toList, 0)
  sightings := headers.zipIdx.map fun (h, i) =>
    ⟨"/r/a.cpp".toList, "../x/".toList ++ h, "/x/".toList ++ h, false, false,
      ⟨0, false, 20 * i + 9, 20 * i + 19⟩⟩
  file_id := fun path => 1 + headers.idxOf (filename path)

/-- A digest of eight hexadecimal digits. -/
def checksum (path : Str) : Str :=
  (Nat.toDigits 16 (2 ^ 32 + path.foldl (fun sum c => (31 * sum + c.toNat) % 2 ^ 32) 0)).tail

/-- The edits, which are in the order of their places, are made from the last one on. -/
def splice (text : Str) (edits : List Edit) : Str :=
  edits.foldr (fun e text => text.take e.start ++ e.text ++ text.drop e.stop) text

def writer (headers : List Str) : TreeWriter where
  main_files := ["/r/a.cpp".toList]
  digest8 := checksum
  render path := splice (if path = "/r/a.cpp".toList then source headers else "int x;".toList)

def twoHeaders : List Str := ["h.h".toList, "k.h".toList]

/-- What is written for the unit. -/
def written (headers : List Str) : Except TreeError (List (Str × Str)) :=
  [includer headers].foldlM (writer headers).add_tu []

theorem two_includes_are_redirected : ∃ tree edits, written twoHeaders = .ok tree ∧
    (writer twoHeaders).include_edits (includer twoHeaders) = .ok edits ∧
    (writer twoHeaders).to_redirect (includer twoHeaders) = (includer twoHeaders).sightings ∧
    (∀ r ∈ (writer twoHeaders).to_redirect (includer twoHeaders),
      (writer twoHeaders).redirect r ∈ edits) ∧
    tree.lookup "/r/a.cpp".toList = some ("#include \"_external/56e5b37c/h.h\"\n".toList ++
      "#include \"_external/56e5bebf/k.h\"\n".toList) := by
  have hsome : (written twoHeaders).toOption.isSome = true := by decide +kernel
  have htext : ((written twoHeaders).toOption.get hsome).lookup "/r/a.cpp".toList = some
      ("#include \"_external/56e5b37c/h.h\"\n".toList ++
        "#include \"_external/56e5bebf/k.h\"\n".toList) := by
    decide +kernel +revert
  obtain ⟨edits, hedits, _, _, hiff⟩ :=
    includes_are_redirected_iff_sighted_first (eq_ok_get hsome) (includer twoHeaders) mem_cons_self
  exact ⟨_, edits, eq_ok_get hsome, hedits, by decide +kernel, hiff.mpr (by decide +kernel), htext⟩

def sameHeader : List Str := ["h.h".toList, "h.h".toList]

/-- The second include of one header in one file is written as it was. -/
theorem a_second_include_is_not_redirected :
    (written sameHeader).toOption.isSome = true ∧
    (writer sameHeader).to_redirect (includer sameHeader) = (includer sameHeader).sightings ∧
    ((writer sameHeader).include_edits (includer sameHeader)).toOption.any (fun edits =>
      ∀ r ∈ (includer sameHeader).sightings, (writer sameHeader).redirect r ∈ edits) = false := by
  decide +kernel

end Tapa.Tree
