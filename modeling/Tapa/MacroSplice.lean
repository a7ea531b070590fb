-- Edits inside a macro expansion (`macro_splice.cpp`). The tokens of an expansion have a slot
-- before each one and one after the last. An edit puts a text into a slot and may drop tokens,
-- and the expansion is rendered from its slots and the tokens that are left.
import Tapa.Text

namespace Tapa.Splice

open Text
open List hiding Disjoint disjoint_comm

/-- An expanded token, with its place in the translation unit. -/
structure Token where
  location : Nat
  text : Str

structure ExpansionSplice where
  slots : Nat → Str := fun _ => []
  dropped : Finset Nat := ∅
  edited : Bool := false

/-- Why a call is rejected. -/
inductive Why where
  /-- The edit anchors outside the invocation's recorded tokens. -/
  | outside
  /-- It overlaps another replacement of the same invocation. -/
  | overlaps
deriving DecidableEq

/-- `std::lower_bound` over `len` places from `first` on. -/
def lower_bound (before : Nat → Bool) (first len : Nat) : Nat :=
  if len = 0 then first
  else if before (first + len / 2) then
    lower_bound before (first + len / 2 + 1) (len - len / 2 - 1)
  else lower_bound before first (len / 2)
termination_by len

inductive Method where
  | InsertBefore (loc : Nat)
  | InsertAfter (loc : Nat)
  | Replace (first last : Nat)

structure Call where
  method : Method
  text : Str

/-- A text after the texts of a slot. -/
def glue (piece text : Str) : Str :=
  (if piece ≠ [] ∧ piece.getLast? ≠ some '\n' then piece ++ [' '] else piece) ++ text

def append_piece (out piece : Str) : Str :=
  if piece = [] then out
  else if piece.getLast? ≠ some ' ' ∧ piece.getLast? ≠ some '\n' then out ++ piece ++ [' ']
  else out ++ piece

section

variable (tokens : List Token) (s : ExpansionSplice)

def IndexAtOrAfter (loc : Nat) : Option Nat :=
  if tokens.head?.all (loc < ·.location) then none
  else
    let it := lower_bound (fun i => tokens[i]?.any (·.location < loc)) 0 tokens.length
    if it = tokens.length then none else some it

def IndexAtOrBefore (loc : Nat) : Option Nat := do
  let after ← IndexAtOrAfter tokens loc
  if tokens[after]?.any (·.location = loc) then some after
  else if after = 0 then none
  else some (after - 1)

def Append (slot : Nat) (text : Str) : ExpansionSplice where
  slots := Function.update s.slots slot (glue (s.slots slot) text)
  dropped := s.dropped
  edited := true

def DropTokens (first last : Nat) (text : Str) : Option Why × ExpansionSplice :=
  if first > last ∨ last ≥ tokens.length then (some .outside, s)
  else if ¬Disjoint s.dropped (Finset.Icc first last) then (some .overlaps, s)
  else (none, Append { s with dropped := s.dropped ∪ Finset.Icc first last } first text)

/-- A call, with the reason if it is rejected. -/
def apply (c : Call) : Option Why × ExpansionSplice :=
  match c.method with
  | .InsertBefore loc =>
    match IndexAtOrAfter tokens loc with
    | none => (some .outside, s)
    | some i => (none, Append s i c.text)
  | .InsertAfter loc =>
    match IndexAtOrBefore tokens loc with
    | none => (some .outside, s)
    | some i => (none, Append s (i + 1) c.text)
  | .Replace first last =>
    match IndexAtOrAfter tokens first, IndexAtOrBefore tokens last with
    | some i, some j => if i > j then (some .outside, s) else DropTokens tokens s i j c.text
    | _, _ => (some .outside, s)

def run (calls : List Call) : ExpansionSplice :=
  calls.foldl (fun s c => (apply tokens s c).2) {}

def Render : Str :=
  let out := tokens.zipIdx.foldl (fun out (token, i) =>
    let out := append_piece out (s.slots i)
    if i ∈ s.dropped then out else out ++ token.text ++ [' ']) []
  (append_piece out (s.slots tokens.length)).rdropWhile (· = ' ')

/-! ## What calls ask for -/

def tokensBefore (loc : Nat) : Nat := tokens.countP (·.location < loc)

def tokensUpTo (loc : Nat) : Nat := tokens.countP (·.location ≤ loc)

/-- A place that is neither before all tokens nor after all. -/
def Inside (loc : Nat) : Prop := 0 < tokensUpTo tokens loc ∧ tokensBefore tokens loc < tokens.length

instance (loc : Nat) : Decidable (Inside tokens loc) :=
  inferInstanceAs (Decidable (_ ∧ _))

/-- A text in a slot, and the tokens that it takes the place of. -/
structure Edit where
  slot : Nat
  text : Str
  drops : Finset Nat

/-- A text goes before the first token at or after its anchor, or behind the last one at or
before it. A replacement drops the tokens from its first place to its last, one at least. -/
def Call.edit (c : Call) : Option Edit :=
  match c.method with
  | .InsertBefore loc =>
    if Inside tokens loc then some ⟨tokensBefore tokens loc, c.text, ∅⟩ else none
  | .InsertAfter loc =>
    if Inside tokens loc then some ⟨tokensUpTo tokens loc, c.text, ∅⟩ else none
  | .Replace first last =>
    let i := tokensBefore tokens first
    let j := tokensUpTo tokens last
    if Inside tokens first ∧ Inside tokens last ∧ i < j then some ⟨i, c.text, Finset.Ico i j⟩
    else none

/-- An edit is accepted if no other has dropped one of its tokens. -/
def accept (edits : List Edit) (c : Call) : Option Edit :=
  (c.edit tokens).filter fun e => ∀ e' ∈ edits, Disjoint e'.drops e.drops

def accepted (calls : List Call) : List Edit :=
  calls.foldl (fun edits c => edits ++ (accept tokens edits c).toList) []

end

/-! ## Anchors -/

theorem lower_bound_eq {before : Nat → Bool} {k : Nat} (h : ∀ i, before i = true ↔ i < k)
    {first len : Nat} (hfirst : first ≤ k) (hlast : k ≤ first + len) :
    lower_bound before first len = k := by
  fun_induction lower_bound before first len with
  | case1 first => omega
  | case2 first len hlen hmid ih =>
    rw [h] at hmid
    exact ih (by omega) (by omega)
  | case3 first len hlen hmid ih =>
    rw [h] at hmid
    exact ih hfirst (by omega)

/-- The elements with a property that only the first ones have are those that are counted. -/
theorem lt_countP_iff {α : Type} {p : α → Bool} {l : List α} (h : l.Pairwise fun a b => p b → p a)
    {i : Nat} (hi : i < l.length) : p l[i] ↔ i < l.countP p := by
  induction l generalizing i with
  | nil => simp at hi
  | cons a l ih =>
    obtain ⟨hfirst, hrest⟩ := pairwise_cons.mp h
    by_cases ha : p a
    · cases i with
      | zero => simp [ha]
      | succ i => simpa [ha] using ih hrest (by simpa using hi)
    · have hnone : ∀ b ∈ a :: l, ¬p b := by
        rintro b (_ | ⟨_, hb⟩)
        · exact ha
        · exact fun hp => ha (hfirst b hb hp)
      rw [countP_eq_zero.mpr hnone]
      exact iff_of_false (hnone _ (getElem_mem hi)) (Nat.not_lt_zero i)

variable {tokens : List Token} (hsorted : tokens.Pairwise (·.location < ·.location))

section

include hsorted

theorem location_lt_iff (loc : Nat) {i : Nat} (hi : i < tokens.length) :
    tokens[i].location < loc ↔ i < tokensBefore tokens loc := by
  rw [tokensBefore, ← lt_countP_iff (hsorted.imp fun _ => by grind) hi, decide_eq_true_eq]

theorem location_le_iff (loc : Nat) {i : Nat} (hi : i < tokens.length) :
    tokens[i].location ≤ loc ↔ i < tokensUpTo tokens loc := by
  rw [tokensUpTo, ← lt_countP_iff (hsorted.imp fun _ => by grind) hi, decide_eq_true_eq]

theorem indexAtOrAfter_eq (loc : Nat) : IndexAtOrAfter tokens loc =
    if Inside tokens loc then some (tokensBefore tokens loc) else none := by
  have hle : tokensBefore tokens loc ≤ tokens.length := countP_le_length
  have hbefore : ∀ i, tokens[i]?.any (·.location < loc) = true ↔ i < tokensBefore tokens loc := by
    intro i
    by_cases hi : i < tokens.length
    · simp [hi, location_lt_iff hsorted loc hi]
    · simp [hi]
      omega
  have hhead : tokens.head?.all (loc < ·.location) = true ↔ tokensUpTo tokens loc = 0 := by
    cases tokens with
    | nil => simp [tokensUpTo]
    | cons t rest =>
      have hfirst := location_le_iff hsorted loc (Nat.zero_lt_succ rest.length)
      simp only [getElem_cons_zero] at hfirst
      simp only [head?_cons, Option.all_some, decide_eq_true_eq]
      omega
  simp only [IndexAtOrAfter, hhead, lower_bound_eq hbefore (Nat.zero_le _)
    (hle.trans_eq (Nat.zero_add _).symm), Inside]
  grind

theorem indexAtOrBefore_eq (loc : Nat) : IndexAtOrBefore tokens loc =
    if Inside tokens loc then some (tokensUpTo tokens loc - 1) else none := by
  rw [IndexAtOrBefore, indexAtOrAfter_eq hsorted]
  by_cases hin : Inside tokens loc
  · have hpos := hin.1
    have hlt := hin.2
    have hlt' := location_lt_iff hsorted loc hlt
    have hle' := location_le_iff hsorted loc hlt
    have hmono : tokensBefore tokens loc ≤ tokensUpTo tokens loc :=
      countP_mono_left fun t _ => by simp; omega
    have hone : tokensUpTo tokens loc ≤ tokensBefore tokens loc + 1 := by
      by_contra hmore
      have hbound : tokensUpTo tokens loc ≤ tokens.length := countP_le_length
      have hnext : tokensBefore tokens loc + 1 < tokens.length := by omega
      have hle := (location_le_iff hsorted loc hnext).mpr (by omega)
      have hstep := pairwise_iff_getElem.mp hsorted _ _ hlt hnext (Nat.lt_add_one _)
      omega
    simp only [hin, if_true, Option.bind_eq_bind, Option.bind_some, getElem?_eq_getElem hlt,
      Option.any_some, decide_eq_true_eq]
    split
    · congr 1
      omega
    · rw [if_neg (by omega)]
      congr 1
      omega
  · simp [hin]

/-! ## Edits -/

def ExpansionSplice.put (s : ExpansionSplice) (e : Edit) : ExpansionSplice :=
  Append { s with dropped := s.dropped ∪ e.drops } e.slot e.text

theorem apply_eq (s : ExpansionSplice) (c : Call) : apply tokens s c =
    match c.edit tokens with
    | none => (some .outside, s)
    | some e => if Disjoint s.dropped e.drops then (none, s.put e) else (some .overlaps, s) := by
  unfold apply Call.edit
  cases c.method with
  | InsertBefore loc =>
    simp only [indexAtOrAfter_eq hsorted]
    by_cases h : Inside tokens loc <;> simp [h, ExpansionSplice.put]
  | InsertAfter loc =>
    simp only [indexAtOrBefore_eq hsorted]
    by_cases h : Inside tokens loc
    · have hpos := h.1
      simp [h, ExpansionSplice.put, Nat.sub_add_cancel hpos]
    · simp [h]
  | Replace first last =>
    simp only [indexAtOrAfter_eq hsorted, indexAtOrBefore_eq hsorted]
    by_cases h : Inside tokens first
    swap
    · simp [h]
    by_cases h' : Inside tokens last
    swap
    · simp [h, h']
    have hbound : tokensUpTo tokens last ≤ tokens.length := countP_le_length
    have hpos := h'.1
    by_cases hlt : tokensBefore tokens first < tokensUpTo tokens last
    · have hdrops : Finset.Icc (tokensBefore tokens first) (tokensUpTo tokens last - 1) =
          Finset.Ico (tokensBefore tokens first) (tokensUpTo tokens last) := by
        ext i
        simp only [Finset.mem_Icc, Finset.mem_Ico]
        omega
      simp only [h, h', hlt, if_true, and_self, DropTokens, hdrops, ite_not]
      rw [if_neg (by omega), if_neg (by omega)]
      rfl
    · simp only [h, h', hlt, if_true, and_false, if_false]
      rw [if_pos (by omega)]

end

/-- The texts of a slot, in the order of their calls. -/
def texts (edits : List Edit) (i : Nat) : List Str :=
  (edits.filter (·.slot = i)).map Edit.text

/-- What is recorded of edits. -/
structure Records (edits : List Edit) (s : ExpansionSplice) : Prop where
  slots : ∀ i, s.slots i = (texts edits i).foldl glue []
  dropped : ∀ i, i ∈ s.dropped ↔ ∃ e ∈ edits, i ∈ e.drops
  apart : edits.Pairwise fun e e' : Edit => Disjoint e.drops e'.drops

section

variable {edits : List Edit} {s : ExpansionSplice} (h : Records edits s)
include h

theorem Records.put {e : Edit} (he : ∀ e' ∈ edits, Disjoint e'.drops e.drops) :
    Records (edits ++ [e]) (s.put e) where
  slots i := by
    by_cases hi : e.slot = i
    · subst hi
      simp [ExpansionSplice.put, Append, texts, h.slots]
    · simp [ExpansionSplice.put, Append, texts, h.slots, hi, Ne.symm hi]
  dropped i := by
    simp [ExpansionSplice.put, Append, h.dropped, or_and_right, exists_or]
  apart := pairwise_append.mpr ⟨h.apart, by simp, by simpa using he⟩

include hsorted in
/-- A call that is accepted is recorded, and a rejected one changes nothing. -/
theorem Records.apply (c : Call) : match accept tokens edits c with
    | some e => apply tokens s c = (none, s.put e) ∧ Records (edits ++ [e]) (s.put e)
    | none => ∃ why, apply tokens s c = (some why, s) := by
  have hfree : ∀ e : Edit,
      Disjoint s.dropped e.drops ↔ ∀ e' ∈ edits, Disjoint e'.drops e.drops := by
    intro e
    simp only [Finset.disjoint_left, h.dropped]
    grind
  rw [apply_eq hsorted, accept]
  cases c.edit tokens with
  | none => exact ⟨_, rfl⟩
  | some e =>
    simp only [Option.filter_some, decide_eq_true_eq, hfree]
    by_cases he : ∀ e' ∈ edits, Disjoint e'.drops e.drops
    · rw [if_pos he, if_pos he]
      exact ⟨rfl, h.put he⟩
    · rw [if_neg he, if_neg he]
      exact ⟨_, rfl⟩

end

include hsorted in
theorem records_run (calls : List Call) : Records (accepted tokens calls) (run tokens calls) := by
  induction calls using reverseRecOn with
  | nil => exact ⟨fun _ => rfl, by simp [run, accepted], .nil⟩
  | append_singleton calls c ih =>
    have hstep := ih.apply hsorted c
    have hrun : run tokens (calls ++ [c]) = (apply tokens (run tokens calls) c).2 := by simp [run]
    have hedits : accepted tokens (calls ++ [c]) = accepted tokens calls ++
        (accept tokens (accepted tokens calls) c).toList := by simp [accepted]
    rw [hrun, hedits]
    split at hstep
    · rename_i e he
      rw [hstep.1, he]
      exact hstep.2
    · rename_i hnone
      obtain ⟨why, hwhy⟩ := hstep
      rw [hwhy, hnone]
      simpa using ih

/-! ## Rendering -/

/-- How a text is taken apart into tokens. Spaces at its ends do not matter. -/
structure Lexer where
  lex : Str → List Str
  nil : lex [] = []
  space_start : ∀ text, lex (' ' :: text) = lex text
  space_end : ∀ text, lex (text ++ [' ']) = lex text

namespace Lexer

variable (L : Lexer)

/-- After the text the next one is taken apart on its own. -/
def Flushes (text : Str) (ws : List Str) : Prop := ∀ rest, L.lex (text ++ rest) = ws ++ L.lex rest

/-- A space after the text ends it, and so does a blank at its end. -/
structure Ends (text : Str) (ws : List Str) : Prop where
  space : L.Flushes (text ++ [' ']) ws
  blank : text.getLast? = some ' ' ∨ text.getLast? = some '\n' → L.Flushes text ws

/-- No comment or literal is left open at the end of the text. -/
def Closed (text : Str) : Prop := L.Ends text (L.lex text)

/-- The texts of a slot and its token, if it is not dropped. -/
def slotWords (edits : List Edit) (entry : Token × Nat) : List Str :=
  (texts edits entry.2).flatMap L.lex ++
    if ∃ e ∈ edits, entry.2 ∈ e.drops then [] else [entry.1.text]

def words (tokens : List Token) (edits : List Edit) : List Str :=
  tokens.zipIdx.flatMap (L.slotWords edits) ++ (texts edits tokens.length).flatMap L.lex

variable {L} {a b : Str} {u v : List Str}

theorem Flushes.append (ha : L.Flushes a u) (hb : L.Flushes b v) :
    L.Flushes (a ++ b) (u ++ v) := by
  intro rest
  rw [append_assoc, ha, hb, append_assoc]

theorem flushes_nil : L.Flushes [] [] := fun _ => rfl

theorem ends_nil : L.Ends [] [] := ⟨L.space_start, by simp⟩

theorem Ends.eq_nil (h : L.Ends [] u) : u = [] := by
  have hnil := h.space []
  rw [ends_nil.space, L.nil, append_nil] at hnil
  simpa using hnil.symm

theorem Ends.glue (ha : L.Ends a u) (hb : L.Closed b) : L.Ends (glue a b) (u ++ L.lex b) := by
  have hgap : L.Flushes (if a ≠ [] ∧ a.getLast? ≠ some '\n' then a ++ [' '] else a) u := by
    split
    · exact ha.space
    · by_cases hnil : a = []
      · subst hnil
        exact ha.eq_nil ▸ flushes_nil
      · exact ha.blank (by tauto)
  unfold Splice.glue
  refine ⟨append_assoc _ b _ ▸ hgap.append hb.space, fun hblank => ?_⟩
  cases b using reverseRecOn with
  | nil => simpa [L.nil] using hgap
  | append_singleton b c =>
    exact hgap.append (hb.blank (by simpa [← append_assoc] using hblank))

theorem Flushes.append_piece (ha : L.Flushes a u) (hb : L.Ends b v) :
    L.Flushes (append_piece a b) (u ++ v) := by
  unfold Splice.append_piece
  split
  · subst b
    rw [hb.eq_nil, append_nil]
    exact ha
  split
  · rw [append_assoc]
    exact ha.append hb.space
  · exact ha.append (hb.blank (by tauto))

theorem ends_foldl_glue {ts : List Str} (hts : ∀ text ∈ ts, L.Closed text) :
    L.Ends (ts.foldl Splice.glue []) (ts.flatMap L.lex) := by
  induction ts using reverseRecOn with
  | nil => exact ends_nil
  | append_singleton ts text ih =>
    have hlast := (ih fun t ht => hts t (by simp [ht])).glue (hts text (by simp))
    simpa using hlast

theorem lex_rdropWhile (text : Str) : L.lex (text.rdropWhile (· = ' ')) = L.lex text := by
  induction text using reverseRecOn with
  | nil => rfl
  | append_singleton text c ih =>
    rw [rdropWhile_concat]
    split
    · rename_i hc
      rw [ih, of_decide_eq_true hc, L.space_end]
    · rfl

theorem lex_render {edits : List Edit} {s : ExpansionSplice} (h : Records edits s)
    (htokens : ∀ t ∈ tokens, L.lex t.text = [t.text] ∧ L.Closed t.text)
    (htexts : ∀ e ∈ edits, L.Closed e.text) : L.lex (Render tokens s) = L.words tokens edits := by
  have hslot : ∀ i, L.Ends (s.slots i) ((texts edits i).flatMap L.lex) := by
    intro i
    rw [h.slots]
    refine ends_foldl_glue fun text ht => ?_
    obtain ⟨e, he, rfl⟩ := mem_map.mp ht
    exact htexts e (mem_of_mem_filter he)
  have hloop : ∀ (l : List (Token × Nat)), (∀ p ∈ l, p.1 ∈ tokens) → ∀ out ws, L.Flushes out ws →
      L.Flushes (l.foldl (fun out (token, i) =>
        let out := Splice.append_piece out (s.slots i)
        if i ∈ s.dropped then out else out ++ token.text ++ [' ']) out)
        (ws ++ l.flatMap (L.slotWords edits)) := by
    intro l hl
    induction l with
    | nil => simp
    | cons p l ih =>
      intro out ws hout
      rw [foldl_cons, flatMap_cons, ← append_assoc]
      refine ih (fun q hq => hl q (mem_cons_of_mem p hq)) _ _ ?_
      have hpiece := hout.append_piece (hslot p.2)
      obtain ⟨hlex, hclosed⟩ := htokens p.1 (hl p mem_cons_self)
      have htoken := hlex ▸ hclosed.space
      simp only [h.dropped, slotWords]
      split
      · simpa using hpiece
      · simpa using hpiece.append htoken
  have hout := hloop tokens.zipIdx (fun p hp => fst_mem_of_mem_zipIdx hp) [] [] flushes_nil
  have hall := hout.append_piece (hslot tokens.length) []
  rw [append_nil, L.nil, append_nil] at hall
  rw [Render, lex_rdropWhile, hall]
  rfl

end Lexer

/-- Edits compose: a call is accepted just when it selects tokens that no other replacement
has, a rejected one changes nothing, and where no text is left open, what is rendered has the
tokens that are not dropped in order, with the texts in the slots that their calls select. -/
theorem splices_compose_without_losing_tokens (tokens : List Token)
    (hsorted : tokens.Pairwise (·.location < ·.location)) (calls : List Call) :
    (∀ c, match accept tokens (accepted tokens calls) c with
      | some _ => (apply tokens (run tokens calls) c).1 = none
      | none => ∃ why, apply tokens (run tokens calls) c = (some why, run tokens calls)) ∧
    ((accepted tokens calls).Pairwise fun e e' : Edit => Disjoint e.drops e'.drops) ∧
    ∀ L : Lexer, (∀ t ∈ tokens, L.lex t.text = [t.text] ∧ L.Closed t.text) →
      (∀ e ∈ accepted tokens calls, L.Closed e.text) →
      L.lex (Render tokens (run tokens calls)) = L.words tokens (accepted tokens calls) := by
  have hrecords := records_run hsorted calls
  refine ⟨fun c => ?_, hrecords.apart, fun L => Lexer.lex_render hrecords⟩
  have hstep := hrecords.apply hsorted c
  split at hstep <;> simp_all

/-- Words between blanks, up to a `//` on each line. The word so far is lost in a comment. -/
def lexWords : Option Str → Str → List Str
  | w, [] => (w.filter (· ≠ [])).toList
  | none, c :: rest => lexWords (if c = '\n' then some [] else none) rest
  | some w, c :: rest =>
    if c = ' ' ∨ c = '\n' then ((some w).filter (· ≠ [])).toList ++ lexWords (some []) rest
    else if c = '/' ∧ w.getLast? = some '/' then
      ((some w.dropLast).filter (· ≠ [])).toList ++ lexWords none rest
    else lexWords (some (w ++ [c])) rest

theorem lexWords_space_end (w : Option Str) (text : Str) :
    lexWords w (text ++ [' ']) = lexWords w text := by
  induction text generalizing w with
  | nil => cases w <;> simp [lexWords]
  | cons c text ih => cases w <;> simp [lexWords, ih]

def lineLexer : Lexer where
  lex := lexWords (some [])
  nil := rfl
  space_start := fun _ => rfl
  space_end := lexWords_space_end (some [])

/-- A word of one letter ends at the next blank. -/
theorem lineLexer_closed {c : Char} (h : c ≠ ' ' ∧ c ≠ '\n') : lineLexer.Closed [c] := by
  refine ⟨fun rest => ?_, by simp [h]⟩
  simp [lineLexer, lexWords, h, Option.filter]

def pair : List Token := [⟨1, ['a']⟩, ⟨5, ['b']⟩]

/-- A text that opens a comment takes the next token with it. -/
theorem an_open_comment_loses_a_token :
    (apply pair {} ⟨.InsertBefore 5, "//".toList⟩).1 = none ∧
      lineLexer.lex (Render pair (run pair [⟨.InsertBefore 5, "//".toList⟩])) = [['a']] := by
  decide +kernel

/-- Three tokens, the middle one replaced between two texts that are put beside it. The last
call would drop it again and is rejected. -/
def triple : List Token := [⟨1, ['a']⟩, ⟨5, ['b']⟩, ⟨9, ['c']⟩]

def beside : List Call :=
  [⟨.InsertBefore 5, ['x']⟩, ⟨.Replace 5 5, ['y']⟩, ⟨.InsertAfter 5, ['z']⟩, ⟨.Replace 1 5, ['w']⟩]

theorem texts_stand_beside_a_replaced_token :
    lineLexer.lex (Render triple (run triple beside)) =
        lineLexer.words triple (accepted triple beside) ∧
      lineLexer.words triple (accepted triple beside) = [['a'], ['x'], ['y'], ['z'], ['c']] := by
  refine ⟨(splices_compose_without_losing_tokens triple (by decide) _).2.2 lineLexer ?_ ?_,
    by decide +kernel⟩
  · simp only [triple, mem_cons, not_mem_nil, or_false, forall_eq_or_imp, forall_eq]
    exact ⟨⟨rfl, lineLexer_closed (by decide)⟩, ⟨rfl, lineLexer_closed (by decide)⟩, rfl,
      lineLexer_closed (by decide)⟩
  · have htexts : ∀ e ∈ accepted triple beside, e.text ∈ [['x'], ['y'], ['z']] := by
      decide +kernel
    intro e he
    have htext := htexts e he
    simp only [mem_cons, not_mem_nil, or_false] at htext
    obtain h | h | h := htext <;> exact h ▸ lineLexer_closed (by decide)

end Tapa.Splice
