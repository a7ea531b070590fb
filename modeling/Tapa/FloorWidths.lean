-- The widths of the placement edges (`add_placement_width` of `build.rs`): the edges of
-- a graph that is built carry the wires of its channels, all of them and no others.
import Tapa.FloorSound
import Tapa.Ledger

namespace Tapa.Floorplan

open Ir Text Fallible Ledger

/-! ## Edges and nets -/

/-- The two clusters of a net, the one with the lower index first. -/
def Net.pair (n : Net) : Nat × Nat :=
  (min n.toChannel.src n.toChannel.dst, max n.toChannel.src n.toChannel.dst)

/-- The wires of the nets between clusters that are told apart. -/
def nets_across (apart : Nat → Nat → Bool) (nets : List Net) : Nat :=
  (nets.map fun n => if apart n.toChannel.src n.toChannel.dst then n.width else 0).sum

section Across

variable {apart : Nat → Nat → Bool}

@[simp] theorem nets_across_nil : nets_across apart [] = 0 := rfl

@[simp] theorem nets_across_cons (n : Net) (nets : List Net) : nets_across apart (n :: nets) =
    (if apart n.toChannel.src n.toChannel.dst then n.width else 0) + nets_across apart nets := by
  simp [nets_across]

@[simp] theorem nets_across_append (nets nets' : List Net) :
    nets_across apart (nets ++ nets') = nets_across apart nets + nets_across apart nets' := by
  simp [nets_across]

theorem nets_across_perm {nets nets' : List Net} (h : nets.Perm nets') :
    nets_across apart nets = nets_across apart nets' :=
  (h.map _).sum_eq

theorem nets_across_flatten (groups : List (List Net)) :
    nets_across apart groups.flatten = (groups.map (nets_across apart)).sum := by
  induction groups with
  | nil => rfl
  | cons group groups ih => simp [ih]

/-- Nets that are not told apart may be left out. -/
theorem nets_across_filter {c : Net → Bool}
    (h : ∀ n : Net, apart n.toChannel.src n.toChannel.dst = true → c n = true) (nets : List Net) :
    nets_across apart (nets.filter c) = nets_across apart nets := by
  induction nets with
  | nil => rfl
  | cons n nets ih =>
    by_cases hc : c n = true
    · simp [hc, ih]
    · have hapart : ¬ apart n.toChannel.src n.toChannel.dst = true := fun hn => hc (h n hn)
      simp [hc, hapart, ih]

end Across

variable {b b' : Builder} {nets : List Net}

/-! ## Directions -/

theorem DirectedWidth.add_eq {entry entry' : DirectedWidth} {forward : Bool} {width : Nat}
    (h : entry.add forward width = some entry') :
    entry' = if forward then { entry with forward := entry.forward + width }
      else { entry with reverse := entry.reverse + width } := by
  unfold DirectedWidth.add at h
  split at h
  · rename_i hforward
    obtain ⟨sum, hsum, rfl⟩ := Option.map_eq_some_iff.mp h
    rw [if_pos hforward, (checked_add_u32_eq_some.mp hsum).2]
  · rename_i hforward
    obtain ⟨sum, hsum, rfl⟩ := Option.map_eq_some_iff.mp h
    rw [if_neg hforward, (checked_add_u32_eq_some.mp hsum).2]

/-- The wires of an entry that lead from one cluster to another as asked. -/
def directed_width (out : Nat → Nat → Bool) (entry : (Nat × Nat) × DirectedWidth) : Nat :=
  (if out entry.1.1 entry.1.2 then entry.2.forward else 0) +
    if out entry.1.2 entry.1.1 then entry.2.reverse else 0

/-- A net goes to the entry of its two clusters. -/
theorem Builder.add_net_eq {n : Net}
    (h : b.add_placement_width n.toChannel.src n.toChannel.dst n.width = some b') :
    ∃ entry : DirectedWidth, ((b.placement_widths[n.pair]?).getD ⟨0, 0⟩).add
        (n.toChannel.src < n.toChannel.dst) n.width = some entry ∧
      b'.placement_widths = b.placement_widths.insert n.pair entry := by
  simp only [Builder.add_placement_width, Option.bind_eq_bind, Option.bind_eq_some_iff,
    Option.pure_def, Option.some.injEq] at h
  obtain ⟨entry, hentry, _, _, rfl⟩ := h
  exact ⟨entry, hentry, rfl⟩

/-- The directions of the entries are those of the nets. -/
theorem Builder.Accumulates.directed (h : b.Accumulates nets) (out : Nat → Nat → Bool) :
    (b.placement_widths.toList.map (directed_width out)).sum = nets_across out nets := by
  induction h with
  | empty => rfl
  | congr _ heq ih => rw [heq, ih]
  | @add b b' nets _ n hadd ih =>
    obtain ⟨entry, hentry, hinsert⟩ := Builder.add_net_eq hadd
    have hsum := sum_toList_insert b.placement_widths n.pair entry (directed_width out)
    rw [hinsert, nets_across_append, nets_across_cons, nets_across_nil]
    -- The entry of the pair grows in the direction of the net.
    have hgrown : directed_width out (n.pair, entry) =
        ((b.placement_widths[n.pair]?).map fun old => directed_width out (n.pair, old)).getD 0 +
          if out n.toChannel.src n.toChannel.dst then n.width else 0 := by
      have hold : ((b.placement_widths[n.pair]?).map fun old =>
          directed_width out (n.pair, old)).getD 0 =
            directed_width out (n.pair, (b.placement_widths[n.pair]?).getD ⟨0, 0⟩) := by
        cases b.placement_widths[n.pair]? <;> simp [directed_width]
      rw [hold, DirectedWidth.add_eq hentry]
      by_cases hlt : n.toChannel.src < n.toChannel.dst
      · simp only [hlt, decide_true, if_true, directed_width, Net.pair, min_eq_left hlt.le,
          max_eq_right hlt.le]
        split <;> omega
      · simp only [hlt, decide_false, Bool.false_eq_true, if_false, directed_width, Net.pair,
          min_eq_right (not_lt.mp hlt), max_eq_left (not_lt.mp hlt)]
        split <;> split <;> omega
    omega

/-- The entries are for the pairs of clusters with a net between them. -/
theorem Builder.Accumulates.mem_widths (h : b.Accumulates nets) {key : Nat × Nat} :
    key ∈ b.placement_widths ↔ ∃ n ∈ nets, n.pair = key := by
  induction h with
  | empty => simp [Builder.empty]
  | congr _ heq ih => rw [heq, ih]
  | add _ n hadd ih =>
    obtain ⟨entry, _, hinsert⟩ := Builder.add_net_eq hadd
    rw [hinsert, Std.ExtTreeMap.mem_insert, Std.compare_eq_iff_eq, ih]
    simp [or_and_right, exists_or, or_comm]

/-! ## The graph -/

section Graph

variable {flat : TaskGraph} {memory : List MemoryInterface} {control : Option ControlInterface}
variable {anchor : Option Str} {projection : Option FlatProjection} {g : FloorGraph}

section

variable (h : build_with_scopes flat memory control anchor projection = .ok g)
include h

theorem build_with_scopes_accumulates :
    ∃ b : Builder, g.placement_edges = b.placement_edges ∧ b.Accumulates g.nets := by
  obtain ⟨top, b0, b1, b2, b3, hs⟩ := build_with_scopes_ok h
  obtain ⟨bound, terminals, hm⟩ := hs.memoryPass
  have hmemory := hm.wires _ (hs.fifos.wires hs.tasks.wires)
  refine ⟨b3, hs.edges, ?_⟩
  rcases hs.controlPass with ⟨c, _, _, hc⟩ | ⟨rfl, hnil⟩
  · exact hc.wires _ hmemory
  · rw [FloorGraph.nets, hnil, List.map_nil, List.append_nil]
    exact hmemory

/-- The edges across a line carry the wires of the nets across it. -/
theorem edges_carry_the_nets {apart : Nat → Nat → Bool} (hsymm : ∀ i j, apart i j = apart j i) :
    (g.placement_edges.map fun edge => if apart edge.src edge.dst then edge.width else 0).sum =
      nets_across apart g.nets := by
  obtain ⟨b, hedges, hacc⟩ := build_with_scopes_accumulates h
  rw [← hacc.directed apart, hedges, Builder.placement_edges, List.map_map]
  congr 1
  refine List.map_congr_left fun ⟨(i, j), widths⟩ _ => ?_
  simp only [directed_width, hsymm j, Function.comp_apply]
  split <;> rfl

theorem edges_between_clusters :
    ∀ edge ∈ g.placement_edges, edge.src < g.vertices.length ∧ edge.dst < g.vertices.length := by
  obtain ⟨b, hedges, hacc⟩ := build_with_scopes_accumulates h
  have hsound := build_with_scopes_sound h
  intro edge hedge
  rw [hedges, Builder.placement_edges, List.mem_map] at hedge
  obtain ⟨⟨key, widths⟩, hentry, rfl⟩ := hedge
  have hkey := mem_of_get (Std.ExtTreeMap.mem_toList_iff_getElem?_eq_some.mp hentry)
  obtain ⟨n, hn, rfl⟩ := hacc.mem_widths.mp hkey
  have hends := hsound.ends n.toChannel (by
    rw [g.channels_eq]
    exact List.mem_map_of_mem hn)
  simp only [Net.pair]
  omega

end

end Graph

end Tapa.Floorplan
