-- The candidate paths of the router (`route/paths.rs`): every simple path within the hop
-- budget is found once, since a path that is cut could not have reached its end in time.
-- The distances are numbers of 32 bits and the budget is one of 64, and they can overflow.
-- The search goes back to where it branched with its path and its visited set restored.
import Tapa.FloorTasks
import Tapa.Placement
import Tapa.Routing

namespace Tapa.Floorplan

open Ir Fallible List

/-! ## Distances -/

theorem abs_diff_self (n : Nat) : abs_diff n n = 0 := by
  simp [abs_diff]

theorem manhattan_self (a : Cell) : manhattan a a = 0 := by
  simp [manhattan, abs_diff_self]

theorem manhattan_comm (a b : Cell) : manhattan a b = manhattan b a := by
  unfold manhattan abs_diff
  split_ifs <;> omega

theorem manhattan_eq_zero {a b : Cell} : manhattan a b = 0 ↔ a = b := by
  unfold manhattan abs_diff
  rw [Prod.ext_iff]
  split_ifs <;> omega

theorem manhattan_triangle (a b c : Cell) : manhattan a c ≤ manhattan a b + manhattan b c := by
  unfold manhattan abs_diff
  split_ifs <;> omega

def in_grid (cols rows : Nat) (cell : Cell) : Bool := cell.1 < cols ∧ cell.2 < rows

variable {cols rows : Nat} {cell : Cell}

theorem in_grid_iff :
    in_grid cols rows cell = true ↔ cell.1 < cols ∧ cell.2 < rows := by
  simp [in_grid]

/-- The cells whose coordinates and their successors are numbers of 32 bits, and which the
number before zero is not. -/
def Narrow (cell : Cell) : Prop := cell.1 < 2 ^ 32 - 1 ∧ cell.2 < 2 ^ 32 - 1

theorem wrapping_pred_eq {n : Nat} (h : n < 2 ^ 32 - 1) :
    wrapping_pred n = if n = 0 then 2 ^ 32 - 1 else n - 1 := by
  unfold wrapping_pred
  split <;> omega

/-- The neighbours are the cells at distance one. -/
theorem mem_neighbours {next : Cell} (hcell : Narrow cell) (hnext : Narrow next) :
    next ∈ neighbours cell ↔ manhattan cell next = 1 := by
  obtain ⟨hx, hy⟩ := hcell
  obtain ⟨hx', hy'⟩ := hnext
  simp only [neighbours, mem_cons, not_mem_nil, or_false, Prod.ext_iff,
    wrapping_pred_eq hx, wrapping_pred_eq hy, manhattan, abs_diff]
  split_ifs <;> omega

theorem neighbours_nodup (hcell : Narrow cell) : (neighbours cell).Nodup := by
  obtain ⟨hx, hy⟩ := hcell
  simp only [neighbours, nodup_cons, mem_cons, not_mem_nil, or_false,
    Prod.ext_iff, wrapping_pred_eq hx, wrapping_pred_eq hy, nodup_nil, not_false_eq_true,
    and_true]
  split_ifs <;> omega

/-! ## The search -/

/-- A way on from `current` to `dst` that keeps away from the cells before it. -/
structure Continues (dst : Cell) (in_bounds : Cell → Bool) (hops : Nat) (current : Cell)
    (before rest : List Cell) : Prop where
  steps : (current :: rest).IsChain fun a b => manhattan a b = 1
  inside : ∀ cell ∈ rest, in_bounds cell = true
  simple : (current :: rest).Nodup
  apart : ∀ cell ∈ rest, cell ∉ before
  ends : (current :: rest).getLast? = some dst
  short : rest.length ≤ hops

section Search

variable {dst current next : Cell} {in_bounds : Cell → Bool} {hops : Nat}
  {before rest path : List Cell}

/-- A way on from the destination stays there. -/
theorem continues_dst :
    Continues dst in_bounds hops dst before rest ↔ rest = [] := by
  refine ⟨fun h => ?_, ?_⟩
  · cases rest with
    | nil => rfl
    | cons next rest =>
      have hlast := h.ends
      rw [getLast?_cons_cons] at hlast
      exact absurd (mem_of_getLast? hlast) (nodup_cons.mp h.simple).1
  · rintro rfl
    exact ⟨isChain_singleton _, by simp, by simp, by simp, rfl, Nat.zero_le _⟩

/-- A way on is a hop to a fresh cell and a way on from there. -/
theorem continues_cons (hne : current ≠ dst) :
    Continues dst in_bounds (hops + 1) current before (next :: rest) ↔
      manhattan current next = 1 ∧ in_bounds next = true ∧ next ∉ current :: before ∧
        Continues dst in_bounds hops next (current :: before) rest := by
  refine ⟨fun h => ?_, fun ⟨hstep, hin, hfresh, h⟩ => ?_⟩
  · obtain ⟨hnot, hnodup⟩ := nodup_cons.mp h.simple
    have hsteps := isChain_cons_cons.mp h.steps
    refine ⟨hsteps.1, h.inside _ mem_cons_self, ?_, hsteps.2,
      fun cell hc => h.inside _ (mem_cons_of_mem _ hc), hnodup, fun cell hc hmem => ?_, ?_,
      Nat.le_of_succ_le_succ h.short⟩
    · intro hmem
      rcases mem_cons.mp hmem with rfl | hmem
      · exact hnot mem_cons_self
      · exact h.apart _ mem_cons_self hmem
    · rcases mem_cons.mp hmem with rfl | hmem
      · exact hnot (mem_cons_of_mem _ hc)
      · exact h.apart _ (mem_cons_of_mem _ hc) hmem
    · rw [← h.ends, getLast?_cons_cons]
  · rw [mem_cons, not_or] at hfresh
    refine ⟨isChain_cons_cons.mpr ⟨hstep, h.steps⟩, ?_, nodup_cons.mpr ⟨?_, h.simple⟩,
      ?_, ?_, Nat.succ_le_succ h.short⟩
    · simpa [hin] using h.inside
    · intro hmem
      rcases mem_cons.mp hmem with rfl | hmem
      · exact hfresh.1 rfl
      · exact h.apart _ hmem mem_cons_self
    · intro cell hc hmem
      rcases mem_cons.mp hc with rfl | hc
      · exact hfresh.2 hmem
      · exact h.apart _ hc (mem_cons_of_mem _ hmem)
    · rw [getLast?_cons_cons, h.ends]

/-- A way on takes as many hops as the distance to its end. -/
theorem Continues.manhattan_le (h : Continues dst in_bounds hops current before rest) :
    manhattan current dst ≤ hops := by
  induction rest generalizing hops current before with
  | nil =>
    obtain rfl : current = dst := by simpa using h.ends
    rw [manhattan_self]
    exact Nat.zero_le _
  | cons next rest ih =>
    by_cases hne : current = dst
    · rw [hne, manhattan_self]
      exact Nat.zero_le _
    obtain ⟨hops, rfl⟩ : ∃ n, hops = n + 1 :=
      ⟨hops - 1, by have := h.short; simp only [length_cons] at this; omega⟩
    obtain ⟨hstep, -, -, h'⟩ := (continues_cons hne).mp h
    have htri := manhattan_triangle current next dst
    have := ih h'
    omega

/-- What is found from a cell that is not the destination. -/
theorem visit_of_ne (hne : current ≠ dst) :
    visit dst in_bounds hops current before =
      if manhattan current dst > hops then []
      else match hops with
        | 0 => []
        | hops + 1 => (neighbours current).flatMap fun next =>
          if ¬ in_bounds next ∨ next ∈ current :: before then []
          else visit dst in_bounds hops next (current :: before) := by
  rw [visit.eq_def]
  exact if_neg hne

/-- The search finds the ways on, and a way that it cuts is too long. -/
theorem mem_visit (hgrid : ∀ cell, in_bounds cell = true → Narrow cell)
    (hcurrent : Narrow current) :
    path ∈ visit dst in_bounds hops current before ↔
      ∃ rest, path = before.reverse ++ current :: rest ∧
        Continues dst in_bounds hops current before rest := by
  induction hops generalizing current before path with
  | zero =>
    by_cases hne : current = dst
    · subst hne
      simp [visit.eq_def, continues_dst]
    have hempty : visit dst in_bounds 0 current before = [] := by
      rw [visit_of_ne hne, ite_self]
    rw [hempty]
    simp only [not_mem_nil, false_iff, not_exists, not_and]
    rintro rest - h
    obtain rfl := length_eq_zero_iff.mp (Nat.le_zero.mp h.short)
    exact hne (by simpa using h.ends)
  | succ hops ih =>
    by_cases hne : current = dst
    · subst hne
      simp [visit.eq_def, continues_dst]
    rw [visit_of_ne hne]
    split
    · simp only [not_mem_nil, false_iff, not_exists, not_and]
      intro rest _ h
      exact absurd h.manhattan_le (by omega)
    · simp only [mem_flatMap, mem_ite_nil_left]
      refine ⟨fun ⟨next, hnext, hok, hpath⟩ => ?_, fun ⟨rest, hpath, h⟩ => ?_⟩
      · rw [not_or, not_not] at hok
        have hnarrow := hgrid _ hok.1
        obtain ⟨rest, rfl, h⟩ := (ih hnarrow).mp hpath
        exact ⟨next :: rest, by simp, (continues_cons hne).mpr
          ⟨(mem_neighbours hcurrent hnarrow).mp hnext, hok.1, hok.2, h⟩⟩
      · cases rest with
        | nil => exact absurd (by simpa using h.ends) hne
        | cons next rest =>
          obtain ⟨hstep, hin, hfresh, h'⟩ := (continues_cons hne).mp h
          have hnarrow := hgrid _ hin
          refine ⟨next, (mem_neighbours hcurrent hnarrow).mpr hstep, ?_, ?_⟩
          · rw [not_or, not_not]
            exact ⟨hin, hfresh⟩
          · exact (ih hnarrow).mpr ⟨rest, by simp [hpath], h'⟩

/-- No path is found twice: the searches from two neighbours find paths that differ in the
cell after the current one. -/
theorem visit_nodup (hgrid : ∀ cell, in_bounds cell = true → Narrow cell)
    (hcurrent : Narrow current) : (visit dst in_bounds hops current before).Nodup := by
  induction hops generalizing current before with
  | zero =>
    by_cases hne : current = dst
    · simp [visit.eq_def, hne]
    · rw [visit_of_ne hne, ite_self]
      exact nodup_nil
  | succ hops ih =>
    by_cases hne : current = dst
    · simp [visit.eq_def, hne]
    rw [visit_of_ne hne]
    split
    · exact nodup_nil
    refine nodup_flatMap.mpr ⟨fun next _ => ?_, ?_⟩
    · split
      · exact nodup_nil
      · rename_i hok
        rw [not_or, not_not] at hok
        exact ih (hgrid _ hok.1)
    · refine (neighbours_nodup hcurrent).imp fun {a b} hab path ha hb => hab ?_
      simp only [mem_ite_nil_left, not_or, not_not] at ha hb
      obtain ⟨⟨hina, -⟩, ha⟩ := ha
      obtain ⟨⟨hinb, -⟩, hb⟩ := hb
      obtain ⟨resta, hpatha, -⟩ := (mem_visit hgrid (hgrid _ hina)).mp ha
      obtain ⟨restb, hpathb, -⟩ := (mem_visit hgrid (hgrid _ hinb)).mp hb
      have heq := append_cancel_left (hpatha.symm.trans hpathb)
      exact (List.cons.inj heq).1

end Search

/-! ## The paths of a grid -/

/-- A simple path of the grid from `src` to `dst`. -/
structure IsGridPath (cols rows : Nat) (src dst : Cell) (path : List Cell) : Prop where
  head : path.head? = some src
  last : path.getLast? = some dst
  inside : ∀ cell ∈ path, in_grid cols rows cell = true
  simple : path.Nodup
  steps : path.IsChain fun a b => manhattan a b = 1

/-- What the router is promised of its candidates: the simple paths with `max_detour` hops
more than the distance, each of them once, short ones first and then by their cells. -/
structure Enumerates (src dst : Cell) (cols rows max_detour : Nat) (paths : List (List Cell)) :
    Prop where
  complete : ∀ path, path ∈ paths ↔ IsGridPath cols rows src dst path ∧
    (hops path).length ≤ manhattan src dst + max_detour
  once : paths.Nodup
  sorted : paths.Pairwise path_le

theorem path_le_total (a b : List Cell) : path_le a b ∨ path_le b a := by
  have hswap : compare b a = (compare a b).swap := Std.OrientedCmp.eq_swap
  unfold path_le
  rcases Nat.lt_trichotomy a.length b.length with h | h | h
  · exact .inl (.inl h)
  · rw [hswap]
    cases compare a b <;> simp [h]
  · exact .inr (.inl h)

theorem path_le_trans (a b c : List Cell) (hab : path_le a b) (hbc : path_le b c) :
    path_le a c := by
  rcases hab with hab | ⟨hab, hab'⟩
  · rcases hbc with hbc | ⟨hbc, -⟩
    · exact .inl (hab.trans hbc)
    · exact .inl (hbc ▸ hab)
  · rcases hbc with hbc | ⟨hbc, hbc'⟩
    · exact .inl (hab ▸ hbc)
    · exact .inr ⟨hab.trans hbc, Std.TransCmp.isLE_trans hab' hbc'⟩

instance : Std.Total path_le := ⟨path_le_total⟩

instance : IsTrans (List Cell) path_le := ⟨path_le_trans⟩

theorem narrow_of_in_grid (hcols : cols < 2 ^ 32) (hrows : rows < 2 ^ 32)
    (h : in_grid cols rows cell = true) : Narrow cell := by
  obtain ⟨hx, hy⟩ := in_grid_iff.mp h
  exact ⟨by omega, by omega⟩

theorem hops_cons_length (cell : Cell) (rest : List Cell) :
    (hops (cell :: rest)).length = rest.length := by
  simp [hops]

variable {src dst : Cell}

/-- The ways on from the source are the simple paths of the grid within the budget. -/
theorem isGridPath_iff_continues {budget : Nat} {path : List Cell}
    (hsrc : in_grid cols rows src = true) :
    (IsGridPath cols rows src dst path ∧ (hops path).length ≤ budget) ↔
      ∃ rest, path = src :: rest ∧ Continues dst (in_grid cols rows) budget src [] rest := by
  refine ⟨fun ⟨h, hlength⟩ => ?_, ?_⟩
  · obtain ⟨rest, rfl⟩ : ∃ rest, path = src :: rest := head?_eq_some_iff.mp h.head
    rw [hops_cons_length] at hlength
    exact ⟨rest, rfl, h.steps, fun cell hc => h.inside _ (mem_cons_of_mem _ hc), h.simple,
      by simp, h.last, hlength⟩
  · rintro ⟨rest, rfl, h⟩
    refine ⟨⟨rfl, h.ends, fun cell hc => ?_, h.simple, h.steps⟩, ?_⟩
    · rcases mem_cons.mp hc with rfl | hc
      · exact hsrc
      · exact h.inside _ hc
    · rw [hops_cons_length]
      exact h.short

theorem enumerate_paths_eq {max_detour : Nat} (hsrc : in_grid cols rows src = true)
    (hdst : in_grid cols rows dst = true) :
    enumerate_paths src dst cols rows max_detour =
      (visit dst (in_grid cols rows) (manhattan src dst + max_detour) src []).insertionSort
        path_le := by
  refine if_neg ?_
  rw [not_or, not_not, not_not]
  exact ⟨hsrc, hdst⟩

/-- Without the bounds of the machine the candidates are as promised. -/
theorem enumerate_paths_enumerates {max_detour : Nat} (hcols : cols < 2 ^ 32)
    (hrows : rows < 2 ^ 32) (hsrc : in_grid cols rows src = true)
    (hdst : in_grid cols rows dst = true) :
    Enumerates src dst cols rows max_detour (enumerate_paths src dst cols rows max_detour) := by
  have hgrid : ∀ cell, in_grid cols rows cell = true → Narrow cell :=
    fun cell h => narrow_of_in_grid hcols hrows h
  rw [enumerate_paths_eq hsrc hdst]
  refine ⟨fun path => ?_, ?_, pairwise_insertionSort _ _⟩
  · rw [mem_insertionSort, mem_visit hgrid (hgrid _ hsrc), isGridPath_iff_continues hsrc]
    rfl
  · exact (perm_insertionSort _ _).nodup_iff.mpr (visit_nodup hgrid (hgrid _ hsrc))

/-! ## The arithmetic of the machine -/

/-- What stops the search: a sum that overflows, a path without a head, or too little fuel. -/
inductive Stop where
  | distance (a b : Cell)
  | budget (distance max_detour : Nat)
  | no_head
  | unfinished
deriving DecidableEq, Repr

namespace Machine

def manhattan (a b : Cell) : Except Stop Nat :=
  ok_or (checked_add_u32 (abs_diff a.1 b.1) (abs_diff a.2 b.2)) (.distance a b)

/-- What the search changes: the path to where it stands, its last cell first, the cells of
that path as a set, and the paths that it has found. -/
structure Trail where
  path : List Cell
  visited : Finset Cell
  paths : List (List Cell)

namespace Trail

variable (s : Trail)

def enter (next : Cell) : Trail :=
  { s with path := next :: s.path, visited := insert next s.visited }

def leave (next : Cell) : Trail :=
  { s with path := s.path.tail, visited := s.visited.erase next }

def push : Trail := { s with paths := s.paths ++ [s.path.reverse] }

end Trail

/-- The search. The sum of the hops that are used and a distance does not overflow: a simple
path has fewer than `2 ^ 64 - 2 ^ 33` hops. -/
def visit (dst : Cell) (hop_budget : Nat) (in_bounds : Cell → Bool) :
    Nat → Trail → Except Stop Trail
  | 0, _ => .error .unfinished
  | fuel + 1, s =>
    match s.path with
    | [] => .error .no_head
    | current :: before =>
      if current = dst then .ok s.push
      else do
        let distance ← manhattan current dst
        if before.length + distance > hop_budget then pure s
        else (neighbours current).foldlM (fun s next =>
          if ¬ in_bounds next ∨ next ∈ s.visited then pure s
          else do
            let s ← visit dst hop_budget in_bounds fuel (s.enter next)
            pure (s.leave next)) s

/-- Each hop is one of the budget, so the search goes no deeper than that. -/
def enumerate_paths (src dst : Cell) (grid_cols grid_rows max_detour : Nat) :
    Except Stop (List (List Cell)) :=
  if ¬ in_grid grid_cols grid_rows src ∨ ¬ in_grid grid_cols grid_rows dst then .ok []
  else do
    let distance ← manhattan src dst
    let hop_budget ← ok_or (checked_add_u64 distance max_detour) (.budget distance max_detour)
    let s ← visit dst hop_budget (in_grid grid_cols grid_rows) (hop_budget + 1) ⟨[src], {src}, []⟩
    pure (s.paths.insertionSort path_le)

/-- The ways on that are found from a cell, with nothing to restore. -/
def ways (dst : Cell) (in_bounds : Cell → Bool) :
    Nat → Cell → List Cell → Except Stop (List (List Cell))
  | hops, current, before =>
    if current = dst then .ok [(current :: before).reverse]
    else do
      let distance ← manhattan current dst
      if distance > hops then .ok []
      else match hops with
        | 0 => .ok []
        | hops + 1 => do
          let found ← (neighbours current).mapM fun next =>
            if ¬ in_bounds next ∨ next ∈ current :: before then .ok []
            else ways dst in_bounds hops next (current :: before)
          pure found.flatten

theorem manhattan_eq_ok {a b : Cell} {n : Nat} :
    manhattan a b = .ok n ↔ Floorplan.manhattan a b < 2 ^ 32 ∧ Floorplan.manhattan a b = n := by
  rw [manhattan, ok_or_eq_ok, checked_add_u32_eq_some]
  rfl

section Search

variable {dst current next : Cell} {in_bounds : Cell → Bool} {hops : Nat} {before : List Cell}
  {paths : List (List Cell)}

/-- Turns that each add what they find to the paths add all of it. -/
theorem foldlM_eq_mapM {s : Trail} {f : Trail → Cell → Except Stop Trail}
    {g : Cell → Except Stop (List (List Cell))} {cells : List Cell}
    (h : ∀ cell ∈ cells, ∀ paths, f { s with paths := paths } cell =
      (g cell).map fun found => { s with paths := paths ++ found }) (paths : List (List Cell)) :
    cells.foldlM f { s with paths := paths } =
      (cells.mapM g).map fun found => { s with paths := paths ++ found.flatten } := by
  induction cells generalizing paths with
  | nil => simp [Except.map, pure, Except.pure]
  | cons cell cells ih =>
    rw [foldlM_cons, h cell mem_cons_self, mapM_cons]
    cases g cell with
    | error e => rfl
    | ok found =>
      have hrest := ih (fun c hc => h c (mem_cons_of_mem cell hc)) (paths ++ found)
      change cells.foldlM f { s with paths := paths ++ found } = _
      rw [hrest]
      cases cells.mapM g with
      | error e => rfl
      | ok rest => simp [Except.map, bind, Except.bind, pure, Except.pure]

/-- The search adds the ways on to its paths, and restores its path and its visited set. -/
theorem visit_eq_ways {hop_budget fuel : Nat} {visited : Finset Cell}
    (hvisited : ∀ cell, cell ∈ visited ↔ cell ∈ current :: before)
    (hused : before.length ≤ hop_budget) (hfuel : hop_budget < before.length + fuel) :
    visit dst hop_budget in_bounds fuel ⟨current :: before, visited, paths⟩ =
      (ways dst in_bounds (hop_budget - before.length) current before).map fun found =>
        ⟨current :: before, visited, paths ++ found⟩ := by
  induction fuel generalizing current before visited paths with
  | zero => omega
  | succ fuel ih =>
    unfold visit
    rw [ways.eq_def]
    by_cases hdst : current = dst
    · simp [hdst, Trail.push, Except.map]
    simp only [if_neg hdst]
    cases hmanhattan : manhattan current dst with
    | error e => rfl
    | ok distance =>
      have hpos : distance ≠ 0 := by
        obtain ⟨-, rfl⟩ := manhattan_eq_ok.mp hmanhattan
        exact fun h => hdst (manhattan_eq_zero.mp h)
      simp only [ok_bind]
      by_cases hfar : before.length + distance > hop_budget
      · rw [if_pos hfar, if_pos (by omega)]
        simp [Except.map, pure, Except.pure]
      rw [if_neg hfar, if_neg (by omega)]
      obtain ⟨left, hleft⟩ : ∃ left, hop_budget - before.length = left + 1 :=
        ⟨hop_budget - before.length - 1, by omega⟩
      rw [hleft]
      dsimp only
      rw [foldlM_eq_mapM (s := ⟨current :: before, visited, paths⟩) (g := fun next =>
        if ¬ in_bounds next ∨ next ∈ current :: before then .ok []
        else ways dst in_bounds left next (current :: before)) ?_ paths]
      · generalize (neighbours current).mapM (m := Except Stop) _ = found
        cases found <;> rfl
      -- One neighbour: what is entered is left again.
      intro next _ paths
      simp only [hvisited]
      by_cases hskip : ¬ in_bounds next ∨ next ∈ current :: before
      · rw [if_pos hskip, if_pos hskip]
        simp [Except.map, pure, Except.pure]
      rw [if_neg hskip, if_neg hskip]
      have hfresh : next ∉ visited := fun h => hskip (.inr ((hvisited next).mp h))
      have hnext : ∀ cell, cell ∈ insert next visited ↔ cell ∈ next :: current :: before := by
        simp [hvisited]
      have hsame : hop_budget - (current :: before).length = left := by
        rw [length_cons]
        omega
      unfold Trail.enter
      rw [ih hnext (by rw [length_cons]; omega) (by rw [length_cons]; omega), hsame]
      cases ways dst in_bounds left next (current :: before) with
      | error e => rfl
      | ok found => simp [Except.map, bind, Except.bind, Trail.leave, Finset.erase_insert hfresh,
          pure, Except.pure]

/-- A turn of the search: it goes to no neighbour, or to all those that are fresh. -/
theorem ways_eq_ok (hne : current ≠ dst) :
    ways dst in_bounds hops current before = .ok paths ↔
      Floorplan.manhattan current dst < 2 ^ 32 ∧
        ((hops < Floorplan.manhattan current dst ∧ paths = []) ∨
          ∃ left found, hops = left + 1 ∧ Floorplan.manhattan current dst ≤ hops ∧
            List.Forall₂ (fun next found => (if ¬ in_bounds next ∨ next ∈ current :: before
              then .ok [] else ways dst in_bounds left next (current :: before)) = .ok found)
              (neighbours current) found ∧ found.flatten = paths) := by
  have hpos : Floorplan.manhattan current dst ≠ 0 := fun h => hne (manhattan_eq_zero.mp h)
  rw [ways.eq_def]
  simp only [if_neg hne, bind_eq_ok, manhattan_eq_ok]
  refine ⟨fun ⟨n, ⟨hfits, hn⟩, h⟩ => ⟨hfits, ?_⟩, fun ⟨hfits, h⟩ => ⟨_, ⟨hfits, rfl⟩, ?_⟩⟩
  · subst hn
    split at h
    · rename_i hfar
      exact .inl ⟨hfar, by cases h; rfl⟩
    cases hops with
    | zero => omega
    | succ left =>
      obtain ⟨found, hfound, hflat⟩ := bind_eq_ok.mp h
      refine .inr ⟨left, found, rfl, by omega, mapM_eq_ok.mp hfound, ?_⟩
      cases hflat
      rfl
  · rcases h with ⟨hfar, rfl⟩ | ⟨left, found, rfl, hnear, hfound, rfl⟩
    · rw [if_pos hfar]
    · rw [if_neg (by omega)]
      exact bind_eq_ok.mpr ⟨found, mapM_eq_ok.mpr hfound, rfl⟩

/-- No cell that the search comes to is `2 ^ 32` hops away from the destination. -/
def Near (dst : Cell) (in_bounds : Cell → Bool) (hops : Nat) (current : Cell) : Prop :=
  ∀ cell, in_bounds cell = true → Floorplan.manhattan cell dst = 2 ^ 32 →
    hops + 2 < Floorplan.manhattan current cell + 2 ^ 32

theorem Near.step (h : Near dst in_bounds (hops + 1) current)
    (hstep : Floorplan.manhattan current next = 1) : Near dst in_bounds hops next := by
  intro cell hin hfar
  have hcell := h cell hin hfar
  have htri := manhattan_triangle current next cell
  omega

/-- A hop to a neighbour does not overflow, for the search goes on only where the distance is
within the hops that are left. -/
theorem Near.distance_lt (h : Near dst in_bounds hops current)
    (hfits : Floorplan.manhattan current dst < 2 ^ 32)
    (hnear : Floorplan.manhattan current dst ≤ hops) (hin : in_bounds next = true)
    (hstep : Floorplan.manhattan current next = 1) : Floorplan.manhattan next dst < 2 ^ 32 := by
  have hback := manhattan_triangle next current dst
  rw [manhattan_comm next current] at hback
  by_contra hover
  have hcell := h next hin (by omega)
  omega

/-- A search that stays near finds what the search without bounds finds. -/
theorem ways_eq (hgrid : ∀ cell, in_bounds cell = true → Narrow cell) (hcurrent : Narrow current)
    (hfits : Floorplan.manhattan current dst < 2 ^ 32)
    (hsafe : current ≠ dst → Near dst in_bounds hops current) :
    ways dst in_bounds hops current before =
      .ok (Floorplan.visit dst in_bounds hops current before) := by
  induction hops generalizing current before with
  | zero =>
    by_cases hne : current = dst
    · simp [ways.eq_def, Floorplan.visit.eq_def, hne]
    · have hpos : Floorplan.manhattan current dst ≠ 0 := fun h => hne (manhattan_eq_zero.mp h)
      rw [Floorplan.visit_of_ne hne, ways_eq_ok hne, ite_self]
      exact ⟨hfits, .inl ⟨by omega, rfl⟩⟩
  | succ hops ih =>
    by_cases hne : current = dst
    · simp [ways.eq_def, Floorplan.visit.eq_def, hne]
    rw [Floorplan.visit_of_ne hne, ways_eq_ok hne]
    refine ⟨hfits, ?_⟩
    split
    · rename_i hfar
      exact .inl ⟨hfar, rfl⟩
    refine .inr ⟨hops, _, rfl, by omega, ?_, flatMap_def.symm⟩
    rw [List.forall₂_map_right_iff, List.forall₂_same]
    intro next hnext
    split
    · rfl
    rename_i hok
    rw [not_or, not_not] at hok
    have hnarrow := hgrid _ hok.1
    have hstep := (mem_neighbours hcurrent hnarrow).mp hnext
    exact ih hnarrow ((hsafe hne).distance_lt hfits (by omega) hok.1 hstep)
      fun _ => (hsafe hne).step hstep

/-- A number one closer to a goal. -/
def closer (n goal : Nat) : Nat := if n < goal then n + 1 else n - 1

theorem closer_spec {n goal : Nat} (hne : n ≠ goal) :
    abs_diff n (closer n goal) = 1 ∧ abs_diff (closer n goal) goal + 1 = abs_diff n goal ∧
      closer n goal ≤ max n goal ∧ closer n goal ≠ n := by
  unfold closer abs_diff
  split_ifs <;> omega

/-- A cell far from the destination differs from it in both coordinates, so that one of two
ways to it does not pass the destination. -/
theorem exists_closer {cols rows : Nat} {goal : Cell} (hcols : cols < 2 ^ 32)
    (hrows : rows < 2 ^ 32) (hcurrent : in_grid cols rows current = true)
    (hgoal : in_grid cols rows goal = true) (hdst : in_grid cols rows dst = true)
    (hfar : Floorplan.manhattan goal dst = 2 ^ 32) (hne : current ≠ goal) :
    ∃ next, in_grid cols rows next = true ∧ next ≠ dst ∧ Floorplan.manhattan current next = 1 ∧
      Floorplan.manhattan next goal + 1 = Floorplan.manhattan current goal := by
  obtain ⟨hx, hy⟩ := in_grid_iff.mp hcurrent
  obtain ⟨hgx, hgy⟩ := in_grid_iff.mp hgoal
  obtain ⟨hdx, hdy⟩ := in_grid_iff.mp hdst
  have happart : goal.1 ≠ dst.1 ∧ goal.2 ≠ dst.2 := by
    unfold Floorplan.manhattan abs_diff at hfar
    split_ifs at hfar <;> omega
  by_cases hside : current.1 ≠ goal.1 ∧ (closer current.1 goal.1, current.2) ≠ dst
  · obtain ⟨hstep, hcloser, hmax, -⟩ := closer_spec hside.1
    refine ⟨(closer current.1 goal.1, current.2), in_grid_iff.mpr ⟨by omega, hy⟩, hside.2, ?_, ?_⟩
    · simp only [Floorplan.manhattan, hstep, abs_diff_self]
    · simp only [Floorplan.manhattan]
      omega
  · have hsecond : current.2 ≠ goal.2 ∧ (current.1, closer current.2 goal.2) ≠ dst := by
      rw [not_and_not_right] at hside
      refine ⟨fun heq => ?_, fun heq => ?_⟩
      · by_cases hfirst : current.1 = goal.1
        · exact hne (Prod.ext hfirst heq)
        · rw [← hside hfirst] at happart
          exact happart.2 heq.symm
      · by_cases hfirst : current.1 = goal.1
        · rw [← heq] at happart
          exact happart.1 hfirst.symm
        · have hcol := congrArg Prod.fst (hside hfirst)
          rw [← heq] at hcol
          exact (closer_spec hfirst).2.2.2 hcol
    obtain ⟨hstep, hcloser, hmax, -⟩ := closer_spec hsecond.1
    refine ⟨(current.1, closer current.2 goal.2), in_grid_iff.mpr ⟨hx, by omega⟩, hsecond.2,
      ?_, ?_⟩
    · simp only [Floorplan.manhattan, hstep, abs_diff_self]
    · simp only [Floorplan.manhattan]
      omega

/-- A search that does not stop is near: from a far cell that is close enough to where it
stands, it would have gone on to that cell. -/
theorem near_of_ways_eq_ok {cols rows : Nat} (hcols : cols < 2 ^ 32) (hrows : rows < 2 ^ 32)
    (hcurrent : in_grid cols rows current = true) (hdst : in_grid cols rows dst = true)
    (hne : current ≠ dst) {goal : Cell} (hgoal : in_grid cols rows goal = true)
    (hfar : Floorplan.manhattan goal dst = 2 ^ 32)
    (hbefore : ∀ cell ∈ before, Floorplan.manhattan current goal < Floorplan.manhattan cell goal)
    (h : ways dst (in_grid cols rows) hops current before = .ok paths) :
    hops + 2 < Floorplan.manhattan current goal + 2 ^ 32 := by
  induction hops generalizing current before paths with
  | zero => omega
  | succ hops ih =>
    obtain ⟨hfits, hturn⟩ := (ways_eq_ok hne).mp h
    have hgne : current ≠ goal := by
      rintro rfl
      omega
    have hpos : Floorplan.manhattan current goal ≠ 0 := fun h => hgne (manhattan_eq_zero.mp h)
    rcases hturn with ⟨hcut, -⟩ | ⟨left, found, hleft, -, hfound, -⟩
    · omega
    obtain rfl : hops = left := by omega
    obtain ⟨next, hin, hnext, hstep, hcloser⟩ :=
      exists_closer hcols hrows hcurrent hgoal hdst hfar hgne
    have hmem := (mem_neighbours (narrow_of_in_grid hcols hrows hcurrent)
      (narrow_of_in_grid hcols hrows hin)).mpr hstep
    have hfresh : next ∉ current :: before := by
      intro hmem
      rcases mem_cons.mp hmem with rfl | hmem
      · omega
      · have := hbefore _ hmem
        omega
    obtain ⟨rest, -, hrest⟩ := exists_of_forall₂ hfound hmem
    rw [if_neg (by rw [not_or, not_not]; exact ⟨hin, hfresh⟩)] at hrest
    have hgo := ih hin hnext (fun cell hc => ?_) hrest
    · omega
    · rcases mem_cons.mp hc with rfl | hc
      · omega
      · have := hbefore _ hc
        omega

end Search

/-- The sums of an enumeration fit: the distance of its ends is a number of 32 bits, the budget
one of 64, and no cell within reach is `2 ^ 32` hops away from the destination. -/
structure Fits (src dst : Cell) (cols rows max_detour : Nat) : Prop where
  distance : Floorplan.manhattan src dst < 2 ^ 32
  budget : Floorplan.manhattan src dst + max_detour < 2 ^ 64
  near : src ≠ dst →
    Near dst (in_grid cols rows) (Floorplan.manhattan src dst + max_detour) src

section Enumeration

variable {src dst : Cell} {cols rows max_detour : Nat} {paths : List (List Cell)}

theorem enumerate_paths_eq_ok (hsrc : in_grid cols rows src = true)
    (hdst : in_grid cols rows dst = true) :
    enumerate_paths src dst cols rows max_detour = .ok paths ↔
      Floorplan.manhattan src dst < 2 ^ 32 ∧ Floorplan.manhattan src dst + max_detour < 2 ^ 64 ∧
        ∃ found, ways dst (in_grid cols rows) (Floorplan.manhattan src dst + max_detour) src [] =
          .ok found ∧ found.insertionSort path_le = paths := by
  have hvisit : ∀ hop_budget, visit dst hop_budget (in_grid cols rows) (hop_budget + 1)
      ⟨[src], {src}, []⟩ = (ways dst (in_grid cols rows) hop_budget src []).map fun found =>
        ⟨[src], {src}, found⟩ :=
    fun hop_budget => visit_eq_ways (by simp) (Nat.zero_le _) (by simp)
  unfold enumerate_paths
  rw [if_neg (by rw [not_or, not_not, not_not]; exact ⟨hsrc, hdst⟩)]
  simp only [bind_eq_ok, manhattan_eq_ok, ok_or_eq_ok, checked_add_u64, hvisit,
    Option.ite_none_right_eq_some, Option.some.injEq, pure, Except.pure, Except.ok.injEq]
  constructor
  · rintro ⟨_, ⟨hdistance, rfl⟩, _, ⟨hbudget, rfl⟩, s, hs, h⟩
    refine ⟨hdistance, hbudget, ?_⟩
    cases hways :
        ways dst (in_grid cols rows) (Floorplan.manhattan src dst + max_detour) src [] with
    | error e =>
      rw [hways] at hs
      cases hs
    | ok found =>
      rw [hways] at hs
      cases hs
      exact ⟨found, rfl, h⟩
  · rintro ⟨hdistance, hbudget, found, hways, h⟩
    exact ⟨_, ⟨hdistance, rfl⟩, _, ⟨hbudget, rfl⟩, _, by rw [hways]; rfl, h⟩

/-- Where the sums fit, the machine finds what is found without bounds. -/
theorem Fits.enumerate_paths_eq (h : Fits src dst cols rows max_detour) (hcols : cols < 2 ^ 32)
    (hrows : rows < 2 ^ 32) (hsrc : in_grid cols rows src = true)
    (hdst : in_grid cols rows dst = true) :
    enumerate_paths src dst cols rows max_detour =
      .ok (Floorplan.enumerate_paths src dst cols rows max_detour) := by
  rw [enumerate_paths_eq_ok hsrc hdst]
  refine ⟨h.distance, h.budget, _, ways_eq (fun cell => narrow_of_in_grid hcols hrows)
    (narrow_of_in_grid hcols hrows hsrc) h.distance h.near, ?_⟩
  exact (Floorplan.enumerate_paths_eq hsrc hdst).symm

/-- An enumeration that does not stop fits. -/
theorem fits_of_enumerate_paths_eq_ok (hcols : cols < 2 ^ 32) (hrows : rows < 2 ^ 32)
    (hsrc : in_grid cols rows src = true) (hdst : in_grid cols rows dst = true)
    (h : enumerate_paths src dst cols rows max_detour = .ok paths) :
    Fits src dst cols rows max_detour := by
  obtain ⟨hdistance, hbudget, found, hfound, -⟩ := (enumerate_paths_eq_ok hsrc hdst).mp h
  refine ⟨hdistance, hbudget, fun hne goal hgoal hfar => ?_⟩
  exact near_of_ways_eq_ok hcols hrows hsrc hdst hne hgoal hfar (by simp) hfound

end Enumeration

end Machine

/-- The candidates of the router are all the simple paths within the detour, each of them once
and in order, just where no sum of the enumeration overflows. -/
theorem candidates_are_all_short_paths_just_where_no_sum_overflows (src dst : Cell)
    (cols rows max_detour : Nat) (hcols : cols < 2 ^ 32) (hrows : rows < 2 ^ 32)
    (hsrc : in_grid cols rows src = true) (hdst : in_grid cols rows dst = true) :
    (∃ paths, Machine.enumerate_paths src dst cols rows max_detour = .ok paths ∧
      Enumerates src dst cols rows max_detour paths) ↔
      Machine.Fits src dst cols rows max_detour := by
  refine ⟨fun ⟨paths, hpaths, _⟩ => ?_, fun h => ?_⟩
  · exact Machine.fits_of_enumerate_paths_eq_ok hcols hrows hsrc hdst hpaths
  · exact ⟨_, h.enumerate_paths_eq hcols hrows hsrc hdst,
      enumerate_paths_enumerates hcols hrows hsrc hdst⟩

/-- On a small grid with a detour of two hops the sums fit. -/
theorem small_grid_candidates : ∃ paths, Machine.enumerate_paths (0, 0) (1, 2) 2 3 2 = .ok paths ∧
    Enumerates (0, 0) (1, 2) 2 3 2 paths := by
  refine (candidates_are_all_short_paths_just_where_no_sum_overflows (0, 0) (1, 2) 2 3 2 (by decide)
    (by decide) (by decide) (by decide)).mpr ⟨by decide, by decide, fun _ cell hin hfar => ?_⟩
  obtain ⟨hx, hy⟩ := in_grid_iff.mp hin
  unfold manhattan abs_diff at hfar
  split_ifs at hfar <;> omega

/-- The largest detour overflows the budget of two neighbours, which have a path. -/
theorem largest_detour_overflows :
    Machine.enumerate_paths (0, 0) (0, 1) 1 2 (2 ^ 64 - 1) = .error (.budget 1 (2 ^ 64 - 1)) ∧
      IsGridPath 1 2 (0, 0) (0, 1) [(0, 0), (0, 1)] := by
  refine ⟨by decide, rfl, rfl, by decide, by decide, by simp [manhattan, abs_diff]⟩

end Tapa.Floorplan
