-- The placement program says what a placement is: its solutions of zeros and ones
-- are the placements that keep to the resources of the regions and to the cuts,
-- with the products of the choices on the edges, and its objective is their cost.
import Tapa.Placement

namespace Tapa.Floorplan

open Ir Text Fallible LinearProgram List

/-! ## Placements -/

def region_of (p : List Coor) (vertex : Nat) : Coor := p.getD vertex ⟨0, 0, 0, 0⟩

section

variable (graph : FloorGraph)

/-- What the clusters that are placed in a region use of a resource. -/
def vertex_usage (p : List Coor) (region : Coor) (resource : Resource) : Nat :=
  (graph.vertices.zipIdx.map fun (vertex, vi) =>
    if region_of p vi = region then resource.amount vertex.area else 0).sum

/-- The registers that the crossing edges take in a region. -/
def head_usage (p : List Coor) (region : Coor) : Nat :=
  (graph.placement_edges.map fun edge =>
    crossing_heads region edge (region_of p edge.src) (region_of p edge.dst)).sum

def usage_in (p : List Coor) (region : Coor) (resource : Resource) : Nat :=
  vertex_usage graph p region resource + if resource = .Ff then head_usage graph p region else 0

/-- The width of the edges with their ends on different sides of a cut. -/
def width_across (p : List Coor) (cut : Cut) : Nat :=
  (graph.placement_edges.map fun edge =>
    if cut.crosses (region_of p edge.src) (region_of p edge.dst) then edge.width else 0).sum

/-- The cost of a placement: one, and the distance of the ends of each edge by its width. -/
def placement_cost (device : Device) (graph : FloorGraph) (p : List Coor) : ℚ :=
  1 + (graph.placement_edges.map fun edge => (edge.width : ℚ) *
    distance_quarters device graph edge (region_of p edge.src) (region_of p edge.dst) / 4).sum

/-- The resources of every region are within their limits. -/
def WithinResources (device : Device) (areas : RegionAreas) (usage_limit : ℚ)
    (limits : RegionResourceLimits) (p : List Coor) : Prop :=
  ∀ (region : Coor) (total : Area), areas[region]? = some total →
    ∀ resource, device.plans_resource resource = true →
      usage_in graph p region resource ≤
        scaled_amount (resource.amount total) (limit_of limits usage_limit region resource)

def WithinCuts (cuts : List Cut) (p : List Coor) : Prop :=
  ∀ cut ∈ cuts, width_across graph p cut ≤ cut.capacity

theorem withinResources_iff {graph : FloorGraph} {device : Device} {areas : RegionAreas}
    {usage_limit : ℚ} {limits : RegionResourceLimits} {p : List Coor} :
    WithinResources graph device areas usage_limit limits p ↔ ∀ entry ∈ areas.toList,
      ∀ resource ∈ Resource.ALL, device.plans_resource resource = true →
        usage_in graph p entry.1 resource ≤ scaled_amount (resource.amount entry.2)
          (limit_of limits usage_limit entry.1 resource) := by
  constructor
  · intro h entry hentry resource _
    exact h _ _ (Std.ExtTreeMap.mem_toList_iff_getElem?_eq_some.mp hentry) resource
  · intro h region total htotal resource
    exact h (region, total) (Std.ExtTreeMap.mem_toList_iff_getElem?_eq_some.mpr htotal) resource
      resource.mem_ALL

instance {graph : FloorGraph} {device : Device} {areas : RegionAreas} {usage_limit : ℚ}
    {limits : RegionResourceLimits} {p : List Coor} :
    Decidable (WithinResources graph device areas usage_limit limits p) :=
  decidable_of_iff' _ withinResources_iff

instance {graph : FloorGraph} {cuts : List Cut} {p : List Coor} :
    Decidable (WithinCuts graph cuts p) :=
  inferInstanceAs (Decidable (∀ cut ∈ cuts, width_across graph p cut ≤ cut.capacity))

/-- A placement into candidate regions that keeps to all limits. -/
structure Legal (graph : FloorGraph) (device : Device) (domains : List (List Coor))
    (areas : RegionAreas) (cuts : List Cut) (usage_limit : ℚ) (limits : RegionResourceLimits)
    (p : List Coor) : Prop where
  chosen : List.Forall₂ (fun region domain => region ∈ domain) p domains
  resources : WithinResources graph device areas usage_limit limits p
  cuts : WithinCuts graph cuts p

/-- Each cluster selects the candidate that is its region. -/
def Selects (domains : List (List Coor)) (σ : PlaceVar → ℚ) (p : List Coor) : Prop :=
  ∀ vi < domains.length, ∃ k, OneHot (domain_of domains vi).length (fun ci => σ (.x vi ci)) k ∧
    (domain_of domains vi)[k]? = some (region_of p vi)

/-- Each pair of candidates of an edge has the product of the two choices. -/
def Products (domains : List (List Coor)) (σ : PlaceVar → ℚ) : Prop :=
  ∀ edge ei, (edge, ei) ∈ graph.placement_edges.zipIdx →
    ∀ a < (domain_of domains edge.src).length, ∀ b < (domain_of domains edge.dst).length,
      σ (.y ei a b) = σ (.x edge.src a) * σ (.x edge.dst b)

end

/-- What a pass gives its program: candidates without repeats for every cluster,
and edges between clusters. -/
structure WellPosed (graph : FloorGraph) (domains : List (List Coor)) : Prop where
  length : domains.length = graph.vertices.length
  nodup : ∀ domain ∈ domains, domain.Nodup
  edges : ∀ edge ∈ graph.placement_edges,
    edge.src < graph.vertices.length ∧ edge.dst < graph.vertices.length

theorem WellPosed.ends_lt {graph : FloorGraph} {domains : List (List Coor)}
    (hw : WellPosed graph domains) {edge : PlacementEdge} {ei : Nat}
    (hmem : (edge, ei) ∈ graph.placement_edges.zipIdx) :
    edge.src < domains.length ∧ edge.dst < domains.length := by
  rw [hw.length]
  exact hw.edges edge (mem_of_getElem? (mem_zipIdx_iff_getElem?.mp hmem))

section Program

variable {graph : FloorGraph} {device : Device} {domains : List (List Coor)} {areas : RegionAreas}
  {cuts : List Cut} {usage_limit : ℚ} {limits : RegionResourceLimits} {σ : PlaceVar → ℚ}
  {p : List Coor} {lp : PlaceModel}

theorem domain_of_mem {vi : Nat} (h : vi < domains.length) : domain_of domains vi ∈ domains := by
  rw [domain_of, getD_eq_getElem?_getD, getElem?_eq_getElem h]
  exact getElem_mem h

/-! ## Terms of an edge -/

def term_at (domains : List (List Coor)) (ei : Nat) (edge : PlacementEdge) (a b : Nat) : YTerm where
  ei := ei
  edge := edge
  src_ci := a
  src := (domain_of domains edge.src).getD a ⟨0, 0, 0, 0⟩
  dst_ci := b
  dst := (domain_of domains edge.dst).getD b ⟨0, 0, 0, 0⟩

theorem edge_y_terms_eq (ei : Nat) (edge : PlacementEdge) :
    edge_y_terms ei edge domains =
      (List.range (domain_of domains edge.src).length).flatMap fun a =>
        (List.range (domain_of domains edge.dst).length).map fun b =>
          term_at domains ei edge a b := by
  unfold edge_y_terms
  rw [zipIdx_eq_map_range _ ⟨0, 0, 0, 0⟩, zipIdx_eq_map_range _ ⟨0, 0, 0, 0⟩, flatMap_map]
  simp only [map_map]
  rfl

theorem mem_edge_y_terms {ei : Nat} {edge : PlacementEdge} {term : YTerm} :
    term ∈ edge_y_terms ei edge domains ↔ ∃ a < (domain_of domains edge.src).length,
      ∃ b < (domain_of domains edge.dst).length, term = term_at domains ei edge a b := by
  rw [edge_y_terms_eq]
  simp only [mem_flatMap, mem_map, mem_range]
  constructor
  · rintro ⟨a, ha, b, hb, rfl⟩
    exact ⟨a, ha, b, hb, rfl⟩
  · rintro ⟨a, ha, b, hb, rfl⟩
    exact ⟨a, ha, b, hb, rfl⟩

theorem sum_edge_y_terms (ei : Nat) (edge : PlacementEdge) (f : YTerm → ℚ) :
    ((edge_y_terms ei edge domains).map f).sum =
      ∑ a ∈ Finset.range (domain_of domains edge.src).length,
        ∑ b ∈ Finset.range (domain_of domains edge.dst).length,
          f (term_at domains ei edge a b) := by
  rw [edge_y_terms_eq, sum_flatMap, sum_range]
  refine Finset.sum_congr rfl fun a _ => ?_
  rw [map_map]
  rfl

/-! ## Rows -/

theorem feasible_assignment_vars :
    (add_assignment_vars lp graph domains).Feasible σ ↔ lp.Feasible σ ∧
      ∀ vi < graph.vertices.length,
        ∃ k, OneHot (domain_of domains vi).length (fun ci => σ (.x vi ci)) k := by
  refine (LpModel.feasible_foldl (fun lp entry _ => LpModel.feasible_choice_row) lp).trans ?_
  rw [forall_mem_zipIdx']

theorem feasible_edge_vars :
    (add_edge_vars lp graph domains).Feasible σ ↔ lp.Feasible σ ∧
      ∀ entry ∈ graph.placement_edges.zipIdx,
        (∀ a < (domain_of domains entry.1.src).length, ∀ b < (domain_of domains entry.1.dst).length,
          σ (.y entry.2 a b) = 0 ∨ σ (.y entry.2 a b) = 1) ∧
        ∑ a ∈ Finset.range (domain_of domains entry.1.src).length,
          ∑ b ∈ Finset.range (domain_of domains entry.1.dst).length, σ (.y entry.2 a b) = 1 := by
  refine LpModel.feasible_foldl (fun lp entry _ => ?_) lp
  rw [LpModel.feasible_add_one_of_k_row, map_map, sum_edge_y_terms]
  refine and_congr_right fun _ => and_congr ?_ Iff.rfl
  simp only [forall_mem_map, mem_edge_y_terms]
  constructor
  · intro h a ha b hb
    exact h _ ⟨a, ha, b, hb, rfl⟩
  · rintro h _ ⟨a, ha, b, hb, rfl⟩
    exact h a ha b hb

theorem feasible_coupling_row {terms : List YTerm} {var : PlaceVar} :
    (add_coupling_row lp terms var).Feasible σ ↔
      lp.Feasible σ ∧ (terms.map fun term => σ term.var).sum = σ var := by
  have heval : (LinExpr.sum ((terms.map fun term => ((1 : ℚ), term.var)) ++ [(-1, var)])).eval σ =
      (terms.map fun term => σ term.var).sum - σ var := by
    simp only [LinExpr.eval, LinExpr.sum, map_append, map_map, sum_append,
      map_cons, map_nil, sum_cons, sum_nil, Function.comp_def, one_mul]
    ring
  rw [add_coupling_row, LpModel.feasible_add_constraint, heval]
  exact and_congr_right fun _ => sub_eq_zero

theorem feasible_coupling :
    (add_coupling lp graph domains).Feasible σ ↔ lp.Feasible σ ∧
      ∀ entry ∈ graph.placement_edges.zipIdx,
        (∀ a ∈ List.range (domain_of domains entry.1.src).length,
          ∑ b ∈ Finset.range (domain_of domains entry.1.dst).length, σ (.y entry.2 a b) =
            σ (.x entry.1.src a)) ∧
        ∀ b ∈ List.range (domain_of domains entry.1.dst).length,
          ∑ a ∈ Finset.range (domain_of domains entry.1.src).length, σ (.y entry.2 a b) =
            σ (.x entry.1.dst b) := by
  -- A filter on one candidate leaves a row or a column of the table.
  have hrow : ∀ ei edge, ∀ a ∈ List.range (domain_of domains edge.src).length,
      (((edge_y_terms ei edge domains).filter fun term => term.src_ci = a).map
        fun term => σ term.var).sum =
      ∑ b ∈ Finset.range (domain_of domains edge.dst).length, σ (.y ei a b) := by
    intro ei edge a ha
    rw [sum_filter, sum_edge_y_terms,
      Finset.sum_eq_single_of_mem a (Finset.mem_range.mpr (mem_range.mp ha))]
    · refine Finset.sum_congr rfl fun b _ => ?_
      simp [term_at, YTerm.var]
    · intro c _ hne
      exact Finset.sum_eq_zero fun b _ => by simp [term_at, hne]
  have hcol : ∀ ei edge, ∀ b ∈ List.range (domain_of domains edge.dst).length,
      (((edge_y_terms ei edge domains).filter fun term => term.dst_ci = b).map
        fun term => σ term.var).sum =
      ∑ a ∈ Finset.range (domain_of domains edge.src).length, σ (.y ei a b) := by
    intro ei edge b hb
    rw [sum_filter, sum_edge_y_terms]
    refine Finset.sum_congr rfl fun a _ => ?_
    rw [Finset.sum_eq_single_of_mem b (Finset.mem_range.mpr (mem_range.mp hb))]
    · simp [term_at, YTerm.var]
    · intro c _ hne
      simp [term_at, hne]
  refine LpModel.feasible_foldl (fun lp entry _ => ?_) lp
  rw [← and_assoc]
  refine (LpModel.feasible_foldl (fun lp b hb => ?_) _).trans
    (and_congr_left fun _ => LpModel.feasible_foldl (fun lp a ha => ?_) lp)
  · rw [feasible_coupling_row, hcol _ _ b hb]
  · rw [feasible_coupling_row, hrow _ _ a ha]

theorem feasible_resource_constraints {lp' : PlaceModel}
    (h : add_resource_constraints device lp graph areas domains usage_limit limits = .ok lp') :
    lp'.Feasible σ ↔ lp.Feasible σ ∧ ∀ region ∈ sorted_set domains.flatten, ∀ total,
      areas[region]? = some total → ∀ resource, device.plans_resource resource = true →
        (LinExpr.sum (resource_terms graph domains region resource)).eval σ ≤
          scaled_amount (resource.amount total) (limit_of limits usage_limit region resource) := by
  refine LpModel.feasible_foldlM h fun lp lp' region _ hstep => ?_
  simp only [add_region_rows, bind_eq_ok, ok_or_eq_ok] at hstep
  obtain ⟨total, htotal, hstep⟩ := hstep
  cases hstep
  have hplanned : ∀ resource, device.plans_resource resource = true ↔
      resource ∈ Resource.ALL.filter device.plans_resource := by
    simp [Resource.mem_ALL]
  simp only [htotal, Option.some.injEq, forall_eq', hplanned]
  exact LpModel.feasible_foldl (fun lp resource _ => by exact LpModel.feasible_add_constraint) lp

theorem feasible_cut_constraints :
    (add_cut_constraints lp graph domains cuts).Feasible σ ↔ lp.Feasible σ ∧ ∀ cut ∈ cuts,
      (((y_terms graph domains).filter fun term => cut.crosses term.src term.dst).map
        fun term => (term.edge.width : ℚ) * σ term.var).sum ≤ cut.capacity := by
  unfold add_cut_constraints
  refine LpModel.feasible_foldl (fun lp cut _ => ?_) lp
  simp [LinExpr.eval, LinExpr.sum, Comparison.Holds, Function.comp_def]

/-! ## Values of the rows at a placement -/

theorem region_of_eq {vi k : Nat} (hk : (domain_of domains vi)[k]? = some (region_of p vi)) :
    (domain_of domains vi).getD k ⟨0, 0, 0, 0⟩ = region_of p vi := by
  rw [getD_eq_getElem?_getD, hk, Option.getD_some]

section

variable (hw : WellPosed graph domains)
include hw

section

variable (hsel : Selects domains σ p)
include hsel

/-- The term of a cluster counts if the cluster is placed in the region. -/
theorem eval_vertex_term {vi : Nat} (hvi : vi < domains.length) (region : Coor) (amount : Nat) :
    ((((domain_of domains vi).idxOf? region).map fun ci => ((amount : ℚ), PlaceVar.x vi ci)).map
      fun term => term.1 * σ term.2).getD 0 =
      ((if region_of p vi = region then amount else 0 : Nat) : ℚ) := by
  obtain ⟨k, hhot, hk⟩ := hsel vi hvi
  have hnodup := hw.nodup _ (domain_of_mem hvi)
  cases hidx : (domain_of domains vi).idxOf? region with
  | none =>
    have hne : region_of p vi ≠ region := by
      rintro rfl
      exact idxOf?_eq_none_iff.mp hidx (mem_of_getElem? hk)
    simp [hne]
  | some ci =>
    have hci : (domain_of domains vi)[ci]? = some region := by
      rw [List.idxOf?, findIdx?_eq_some_iff_getElem] at hidx
      obtain ⟨hlt, heq, _⟩ := hidx
      rw [getElem?_eq_getElem hlt, beq_iff_eq.mp heq]
    have hlt := (List.getElem?_eq_some_iff.mp hci).1
    have hiff : region_of p vi = region ↔ ci = k := by
      constructor
      · rintro rfl
        exact (getElem?_inj hlt hnodup).mp (hci.trans hk.symm)
      · rintro rfl
        exact Option.mem_unique hk hci
    simp only [Option.map_some, Option.getD_some, hhot.2 ci hlt, hiff]
    split <;> simp

theorem eval_vertex_terms (region : Coor) (resource : Resource) :
    ((vertex_terms graph domains region resource).map fun term => term.1 * σ term.2).sum =
      (vertex_usage graph p region resource : ℚ) := by
  unfold vertex_terms vertex_usage
  rw [sum_filterMap, Nat.cast_list_sum, map_map]
  congr 1
  refine map_congr_left ?_
  rintro ⟨vertex, vi⟩ hmem
  have hvi : vi < domains.length := by
    rw [hw.length]
    exact (List.getElem?_eq_some_iff.mp (List.mem_zipIdx_iff_getElem?.mp hmem)).1
  exact eval_vertex_term hw hsel hvi region (resource.amount vertex.area)

section

variable (hprod : Products graph domains σ)
include hprod

/-- A sum over the terms of the edges has one summand for each edge: that of the
regions of its ends. -/
theorem sum_y_terms (c : PlacementEdge → Coor → Coor → ℚ) :
    ((y_terms graph domains).map fun term => c term.edge term.src term.dst * σ term.var).sum =
      (graph.placement_edges.map fun edge =>
        c edge (region_of p edge.src) (region_of p edge.dst)).sum := by
  have hedge : ∀ entry ∈ graph.placement_edges.zipIdx,
      ((edge_y_terms entry.2 entry.1 domains).map fun term =>
        c term.edge term.src term.dst * σ term.var).sum =
      c entry.1 (region_of p entry.1.src) (region_of p entry.1.dst) := by
    rintro ⟨edge, ei⟩ hmem
    obtain ⟨i, hi, hsrc⟩ := hsel edge.src (hw.ends_lt hmem).1
    obtain ⟨j, hj, hdst⟩ := hsel edge.dst (hw.ends_lt hmem).2
    rw [sum_edge_y_terms, ← region_of_eq hsrc, ← region_of_eq hdst]
    exact sum_product_of_choices hi hj (hprod edge ei hmem) fun a b =>
      c edge ((domain_of domains edge.src).getD a ⟨0, 0, 0, 0⟩)
        ((domain_of domains edge.dst).getD b ⟨0, 0, 0, 0⟩)
  have hfst : graph.placement_edges = graph.placement_edges.zipIdx.map Prod.fst := by simp
  rw [y_terms, sum_flatMap, map_congr_left hedge]
  conv_rhs => rw [hfst, map_map]
  rfl

theorem eval_crossing_head_terms (region : Coor) :
    ((crossing_head_terms graph domains region).map fun term => term.1 * σ term.2).sum =
      (head_usage graph p region : ℚ) := by
  unfold crossing_head_terms head_usage
  rw [sum_filterMap, Nat.cast_list_sum, map_map]
  refine Eq.trans ?_ (sum_y_terms hw hsel hprod fun edge src dst =>
    (crossing_heads region edge src dst : ℚ))
  congr 1
  refine map_congr_left fun term _ => ?_
  by_cases h : crossing_heads region term.edge term.src term.dst > 0
  · simp [h]
  · have hzero : crossing_heads region term.edge term.src term.dst = 0 := by omega
    simp [hzero]

theorem eval_resource_terms (region : Coor) (resource : Resource) :
    (LinExpr.sum (resource_terms graph domains region resource)).eval σ =
      (usage_in graph p region resource : ℚ) := by
  simp only [LinExpr.eval, LinExpr.sum, resource_terms, usage_in, map_append, sum_append,
    zero_add]
  rw [eval_vertex_terms hw hsel, Nat.cast_add]
  congr 1
  split
  · exact eval_crossing_head_terms hw hsel hprod region
  · simp

theorem sum_across_cut (cut : Cut) :
    (((y_terms graph domains).filter fun term => cut.crosses term.src term.dst).map
      fun term => (term.edge.width : ℚ) * σ term.var).sum = (width_across graph p cut : ℚ) := by
  unfold width_across
  rw [sum_filter, Nat.cast_list_sum, map_map]
  refine Eq.trans ?_ (sum_y_terms hw hsel hprod fun edge src dst =>
    ((if cut.crosses src dst then edge.width else 0 : Nat) : ℚ))
  congr 1
  refine map_congr_left fun term _ => ?_
  split <;> simp

theorem eval_objective :
    ((LinExpr.sum (objective_terms device graph domains)).plus_constant 1).eval σ =
      placement_cost device graph p := by
  simp only [LinExpr.eval, LinExpr.sum, LinExpr.plus_constant, placement_cost]
  congr 1
  unfold objective_terms
  rw [sum_filterMap]
  refine Eq.trans ?_ (sum_y_terms hw hsel hprod fun edge src dst =>
    (edge.width : ℚ) * distance_quarters device graph edge src dst / 4)
  congr 1
  refine map_congr_left fun term _ => ?_
  by_cases h : distance_quarters device graph term.edge term.src term.dst = 0
  · simp [h]
  · simp [h]

end

end

/-! ## Exactness -/

/-- The rows of the choices and of the edges say that there are a placement and
the products of its choices. -/
theorem feasible_choices :
    (add_coupling (add_edge_vars (add_assignment_vars .new graph domains) graph domains)
      graph domains).Feasible σ ↔
      (∃ p, p.length = domains.length ∧ Selects domains σ p) ∧ Products graph domains σ := by
  rw [feasible_coupling, feasible_edge_vars, feasible_assignment_vars]
  constructor
  · rintro ⟨⟨⟨_, hchoice⟩, hy⟩, hc⟩
    rw [← hw.length] at hchoice
    constructor
    · choose! k hk using hchoice
      refine ⟨(List.range domains.length).map fun vi =>
        (domain_of domains vi).getD (k vi) ⟨0, 0, 0, 0⟩, by simp, fun vi hvi => ?_⟩
      refine ⟨k vi, hk vi hvi, ?_⟩
      have hlt := (hk vi hvi).1
      simp [region_of, hvi, hlt]
    · intro edge ei hmem
      obtain ⟨i, hi⟩ := hchoice edge.src (hw.ends_lt hmem).1
      obtain ⟨j, hj⟩ := hchoice edge.dst (hw.ends_lt hmem).2
      refine (product_of_choices hi hj (hy _ hmem).1).mp ?_
      simpa only [mem_range] using hc _ hmem
  · rintro ⟨⟨p, _, hsel⟩, hprod⟩
    have hbin : ∀ vi < domains.length, ∀ ci < (domain_of domains vi).length,
        σ (.x vi ci) = 0 ∨ σ (.x vi ci) = 1 := by
      intro vi hvi ci hci
      obtain ⟨k, hk, _⟩ := hsel vi hvi
      exact (exists_oneHot_iff.mp ⟨k, hk⟩).1 ci hci
    have hybin : ∀ edge ei, (edge, ei) ∈ graph.placement_edges.zipIdx →
        ∀ a < (domain_of domains edge.src).length, ∀ b < (domain_of domains edge.dst).length,
          σ (.y ei a b) = 0 ∨ σ (.y ei a b) = 1 := by
      intro edge ei hmem a ha b hb
      rw [hprod edge ei hmem a ha b hb]
      rcases hbin edge.src (hw.ends_lt hmem).1 a ha with h | h <;>
        rcases hbin edge.dst (hw.ends_lt hmem).2 b hb with h' | h' <;> simp [h, h']
    refine ⟨⟨⟨LpModel.feasible_new, fun vi hvi => ?_⟩, fun (edge, ei) hmem => ?_⟩,
      fun (edge, ei) hmem => ?_⟩
    · obtain ⟨k, hk, _⟩ := hsel vi (hw.length ▸ hvi)
      exact ⟨k, hk⟩
    · obtain ⟨i, hi, _⟩ := hsel edge.src (hw.ends_lt hmem).1
      obtain ⟨j, hj, _⟩ := hsel edge.dst (hw.ends_lt hmem).2
      refine ⟨hybin edge ei hmem, ?_⟩
      simpa using sum_product_of_choices hi hj (hprod edge ei hmem) fun _ _ => 1
    · obtain ⟨i, hi, _⟩ := hsel edge.src (hw.ends_lt hmem).1
      obtain ⟨j, hj, _⟩ := hsel edge.dst (hw.ends_lt hmem).2
      simpa only [mem_range] using
        (product_of_choices hi hj (hybin edge ei hmem)).mpr (hprod edge ei hmem)

end

theorem Selects.chosen (hsel : Selects domains σ p) (hlen : p.length = domains.length) :
    List.Forall₂ (fun region domain => region ∈ domain) p domains := by
  refine List.forall₂_iff_get.mpr ⟨hlen, fun i h1 h2 => ?_⟩
  obtain ⟨k, _, hk⟩ := hsel i h2
  have hmem := mem_of_getElem? hk
  simpa [region_of, domain_of, h1, h2] using hmem

theorem region_of_mem (hchosen : List.Forall₂ (fun region domain => region ∈ domain) p domains)
    {vi : Nat} (hvi : vi < domains.length) : region_of p vi ∈ domain_of domains vi := by
  have hlen := hchosen.length_eq
  have h := hchosen.get (hlen ▸ hvi) hvi
  simpa [region_of, domain_of, hvi, hlen ▸ hvi] using h

theorem usage_in_eq_zero (hw : WellPosed graph domains)
    (hchosen : List.Forall₂ (fun region domain => region ∈ domain) p domains) {region : Coor}
    (hregion : region ∉ domains.flatten) (resource : Resource) :
    usage_in graph p region resource = 0 := by
  have hne : ∀ vi < graph.vertices.length, region_of p vi ≠ region := by
    rintro vi hvi rfl
    rw [← hw.length] at hvi
    exact hregion (mem_flatten.mpr ⟨_, domain_of_mem hvi, region_of_mem hchosen hvi⟩)
  have hvertices : vertex_usage graph p region resource = 0 := by
    refine sum_eq_zero fun n hn => ?_
    obtain ⟨⟨vertex, vi⟩, hmem, rfl⟩ := mem_map.mp hn
    have hvi := (List.getElem?_eq_some_iff.mp (List.mem_zipIdx_iff_getElem?.mp hmem)).1
    exact if_neg (hne vi hvi)
  have hheads : head_usage graph p region = 0 := by
    refine sum_eq_zero fun n hn => ?_
    obtain ⟨edge, hmem, rfl⟩ := mem_map.mp hn
    obtain ⟨hsrc, hdst⟩ := hw.edges edge hmem
    simp [crossing_heads, hne _ hsrc, hne _ hdst]
  simp [usage_in, hvertices, hheads]

theorem mem_sorted_set {regions : List Coor} {region : Coor} :
    region ∈ sorted_set regions ↔ region ∈ regions := by
  rw [sorted_set, mem_dedup, mem_insertionSort]

section

variable (hbuild : build_model graph device domains areas cuts usage_limit limits = .ok lp)
include hbuild

theorem build_model_objective :
    lp.objective = (LinExpr.sum (objective_terms device graph domains)).plus_constant 1 := by
  simp only [build_model, add_objective, bind_eq_ok] at hbuild
  obtain ⟨_, _, _, _, hlp⟩ := hbuild
  cases hlp
  rfl

theorem has_x
    {vi ci : Nat} (hvi : vi < graph.vertices.length) (hci : ci < (domain_of domains vi).length) :
    lp.Has (.x vi ci) := by
  simp only [build_model, add_objective, bind_eq_ok] at hbuild
  obtain ⟨lp', hres, _, _, hlp⟩ := hbuild
  cases hlp
  refine LpModel.Has.foldl (fun lp cut h => LpModel.has_add_constraint.mpr h) ?_
  refine foldlM_invariant (P := fun _ lp => LpModel.Has lp (.x vi ci)) hres ?_ ?_
  · refine LpModel.Has.foldl (fun lp entry h => ?_) (LpModel.Has.foldl (fun lp entry h => ?_) ?_)
    · exact LpModel.Has.foldl (fun lp b h => LpModel.has_add_constraint.mpr h)
        (LpModel.Has.foldl (fun lp a h => LpModel.has_add_constraint.mpr h) h)
    · exact LpModel.has_add_one_of_k_row.mpr (.inl h)
    · unfold add_assignment_vars
      rw [LpModel.has_foldl
        (P := fun entry : Vertex × Nat => PlaceVar.x vi ci ∈ x_row domains entry.2)
        (fun lp entry => LpModel.has_add_one_of_k_row)]
      refine .inr ⟨(graph.vertices[vi], vi), ?_, ?_⟩
      · exact mem_zipIdx_iff_getElem?.mpr (getElem?_eq_getElem hvi)
      · exact mem_map.mpr ⟨ci, mem_range.mpr hci, rfl⟩
  · intro done region lp lp' _ h hstep
    simp only [add_region_rows, bind_eq_ok, ok_or_eq_ok] at hstep
    obtain ⟨total, _, hstep⟩ := hstep
    cases hstep
    exact LpModel.Has.foldl (fun lp resource h => LpModel.has_add_constraint.mpr h) h

end

/-- A program can be built where the candidates are regions of the device. -/
theorem build_model_ok
    (hareas : ∀ region ∈ domains.flatten, ∃ total, areas[region]? = some total)
    (hcentroids : ∀ region ∈ domains.flatten, ∃ c, centroid_quarters device region = .ok c) :
    ∃ lp, build_model graph device domains areas cuts usage_limit limits = .ok lp := by
  have hrows : ∀ lp, ∃ lp', add_resource_constraints device lp graph areas domains usage_limit
      limits = .ok lp' := by
    refine exists_foldlM_eq_ok fun region h lp => ?_
    obtain ⟨total, htotal⟩ := hareas region (mem_sorted_set.mp h)
    rw [add_region_rows, htotal]
    exact ⟨_, rfl⟩
  have hforM : domains.flatten.forM (fun region =>
      (centroid_quarters device region).map fun _ => ()) = .ok () := by
    refine forM_eq_ok.mpr fun region h => ?_
    obtain ⟨c, hc⟩ := hcentroids region h
    rw [hc]
    rfl
  obtain ⟨lp', hlp'⟩ := hrows (add_coupling (add_edge_vars (add_assignment_vars .new graph domains)
    graph domains) graph domains)
  simp only [build_model, add_objective, hlp', hforM]
  exact ⟨_, rfl⟩

/-- A solution is a legal placement with the products of its choices. -/
theorem feasible_build_model (hw : WellPosed graph domains)
    (hbuild : build_model graph device domains areas cuts usage_limit limits = .ok lp) :
    lp.Feasible σ ↔ Products graph domains σ ∧ ∃ p, Selects domains σ p ∧
      Legal graph device domains areas cuts usage_limit limits p := by
  simp only [build_model, add_objective, bind_eq_ok] at hbuild
  obtain ⟨lp', hres, _, _, hlp⟩ := hbuild
  cases hlp
  rw [LpModel.feasible_set_objective, feasible_cut_constraints, feasible_resource_constraints hres,
    feasible_choices hw]
  constructor
  · rintro ⟨⟨⟨⟨p, hlen, hsel⟩, hprod⟩, hresources⟩, hcuts⟩
    refine ⟨hprod, p, hsel, hsel.chosen hlen, ?_, fun cut hcut => ?_⟩
    · intro region total htotal resource hplan
      by_cases hregion : region ∈ domains.flatten
      · have h := hresources region (mem_sorted_set.mpr hregion) total htotal resource hplan
        rw [eval_resource_terms hw hsel hprod] at h
        exact_mod_cast h
      · rw [usage_in_eq_zero hw (hsel.chosen hlen) hregion]
        exact Nat.zero_le _
    · have h := hcuts cut hcut
      rw [sum_across_cut hw hsel hprod] at h
      exact_mod_cast h
  · rintro ⟨hprod, p, hsel, hlegal⟩
    refine ⟨⟨⟨⟨p, hlegal.chosen.length_eq, hsel⟩, hprod⟩, ?_⟩, fun cut hcut => ?_⟩
    · intro region _ total htotal resource hplan
      rw [eval_resource_terms hw hsel hprod]
      exact_mod_cast hlegal.resources region total htotal resource hplan
    · rw [sum_across_cut hw hsel hprod]
      exact_mod_cast hlegal.cuts cut hcut

/-- The objective is the cost of the placement that is selected. -/
theorem eval_build_model (hw : WellPosed graph domains)
    (hbuild : build_model graph device domains areas cuts usage_limit limits = .ok lp)
    (hsel : Selects domains σ p) (hprod : Products graph domains σ) :
    lp.objective.eval σ = placement_cost device graph p := by
  rw [build_model_objective hbuild, eval_objective hw hsel hprod]

/-- The program is the placement problem: a solution is a legal placement with the
products of its choices, and the objective is the cost of the placement. -/
theorem placement_program_is_exact (hw : WellPosed graph domains)
    (hbuild : build_model graph device domains areas cuts usage_limit limits = .ok lp)
    (σ : PlaceVar → ℚ) :
    (lp.Feasible σ ↔ Products graph domains σ ∧ ∃ p, Selects domains σ p ∧
      Legal graph device domains areas cuts usage_limit limits p) ∧
    ∀ p, Selects domains σ p → Products graph domains σ →
      lp.objective.eval σ = placement_cost device graph p :=
  ⟨feasible_build_model hw hbuild, fun _ hsel hprod => eval_build_model hw hbuild hsel hprod⟩

end Program

/-- A column of two slots, each of ten LUTs. -/
def column : Device where
  key := ['d']
  rows := 2
  cols := 1
  planned_resources := [.Lut]
  usage_ceiling := none
  slots := [⟨0, 0, ⟨10, 0, 0, 0, 0⟩, 0, 0, ⟨10, 10, 10, 10⟩, [], zero_fits, zero_fits⟩,
    ⟨0, 1, ⟨10, 0, 0, 0, 0⟩, 0, 150, ⟨10, 10, 10, 10⟩, [], zero_fits, one_fits⟩]
  anchors := []

/-- Two clusters of six LUTs, with a wire from the first to the second. -/
def couple : FloorGraph where
  vertices := [⟨['A'], ⟨6, 0, 0, 0, 0⟩, none, true⟩, ⟨['B'], ⟨6, 0, 0, 0, 0⟩, none, true⟩]
  placement_edges := [⟨0, 1, 1, 1, 0⟩]
  streams := []
  axi_nets := []
  control_nets := []
  index := ∅
  co_located := []

def columnSlots : List Coor := [.slot 0 0, .slot 0 1]

def columnAreas : RegionAreas :=
  ((∅ : RegionAreas).insert (.slot 0 0) ⟨10, 0, 0, 0, 0⟩).insert (.slot 0 1) ⟨10, 0, 0, 0, 0⟩

def columnCut : Cut := ⟨"y=0".toList, [.slot 0 0], [.slot 0 1], 7⟩

/-- The first cluster is below the second one. -/
def stacked : PlaceVar → ℚ
  | .x 0 0 => 1
  | .x 1 1 => 1
  | .y 0 0 1 => 1
  | _ => 0

theorem couple_wellPosed : WellPosed couple [columnSlots, columnSlots] where
  length := rfl
  nodup := by decide
  edges := by decide

/-- Placing the clusters above each other is a solution that costs 301. -/
theorem stacked_clusters_are_a_solution : ∃ lp,
    build_model couple column [columnSlots, columnSlots] columnAreas [columnCut] 1 ∅ = .ok lp ∧
    lp.Feasible stacked ∧ lp.objective.eval stacked = 301 := by
  obtain ⟨lp, hlp⟩ : ∃ lp,
      build_model couple column [columnSlots, columnSlots] columnAreas [columnCut] 1 ∅ =
        .ok lp := by
    exact ⟨_, eq_ok_get rfl⟩
  have hsel : Selects [columnSlots, columnSlots] stacked columnSlots := by
    intro vi hvi
    change vi < 2 at hvi
    unfold OneHot
    interval_cases vi
    · exact ⟨0, by decide +kernel⟩
    · exact ⟨1, by decide +kernel⟩
  have hprod : Products couple [columnSlots, columnSlots] stacked := by
    intro edge ei hmem a ha b hb
    simp only [couple, zipIdx_cons, zipIdx_nil, mem_singleton, Prod.mk.injEq] at hmem
    obtain ⟨rfl, rfl⟩ := hmem
    change a < 2 at ha
    change b < 2 at hb
    interval_cases a <;> interval_cases b <;> simp [stacked]
  have hlegal : Legal couple column [columnSlots, columnSlots] columnAreas [columnCut] 1 ∅
      columnSlots := ⟨by decide, by decide +kernel, by decide⟩
  obtain ⟨hfeasible, hcost⟩ := placement_program_is_exact couple_wellPosed hlp stacked
  refine ⟨lp, hlp, hfeasible.mpr ⟨hprod, columnSlots, hsel, hlegal⟩, ?_⟩
  have hdistance : distance_quarters column couple ⟨0, 1, 1, 1, 0⟩ (.slot 0 0) (.slot 0 1) = 1200 :=
    rfl
  rw [hcost columnSlots hsel hprod]
  change 1 + ((1 : ℚ) *
    distance_quarters column couple ⟨0, 1, 1, 1, 0⟩ (.slot 0 0) (.slot 0 1) / 4 + 0) = 301
  rw [hdistance]
  norm_num

end Tapa.Floorplan
