-- The register budget of the router (`register_budgets` of `pipeline/plan.rs`): the
-- flip-flops that a slot has beside what is placed there. It rejects no routes that
-- realize as long as the Tails and Heads of a slot make up for its estimates.
import Tapa.CrossingNets
import Tapa.RouteAccounting
import Tapa.RouteProgram

namespace Tapa.Floorplan

open Ir Text Fallible LinearProgram Ledger List

/-! ## Budgets -/

/-- The flip-flops that each slot may still spend on Body registers. -/
def register_budgets (baseline : Usage) (device : Device) (logic_capacity_limit : ℚ) :
    BTreeMap Cell Nat :=
  Std.ExtTreeMap.ofList (device.slots.map fun slot =>
    (slot.cell, (scaled_area slot.area logic_capacity_limit).ff -
      (baseline.getD slot.cell 0).ff)) compare

def register_budget (baseline : Usage) (device : Device) (scheme : PipelineScheme)
    (logic_capacity_limit : ℚ) : RegisterBudget :=
  ⟨fun path => pipeline_reg_cells path scheme,
    register_budgets baseline device logic_capacity_limit⟩

def realize_slot_usage (g : FloorGraph) (regions : List Cell) (baseline : Usage)
    (routes : List PlannedRoute) (device : Device) (capacity_limit : ℚ) :
    Except PipelineError Usage :=
  realize_slot_usage_with_resource_caps g regions baseline routes device
    (scaled_area · capacity_limit) (scaled_area · capacity_limit)

/-- Every choice of these routes satisfies the rows of the budget. -/
def BudgetRowsHold (nets : List RouteNet) (routes : List (List Cell)) (budget : RegisterBudget) :
    Prop :=
  ∀ candidates σ lp, Picks candidates σ routes → lp.Feasible σ →
    (add_register_budget_rows lp nets candidates budget).Feasible σ

theorem picks_only (routes : List (List Cell)) :
    Picks (routes.map fun route => [route]) (fun _ => 1) routes := by
  refine ⟨by simp, fun i h h' => ⟨0, ?_, by simp⟩⟩
  simp [OneHot]

theorem budgetRowsHold_iff {nets : List RouteNet} {routes : List (List Cell)}
    {budget : RegisterBudget} : BudgetRowsHold nets routes budget ↔
      ∀ cell available, budget.available[cell]? = some available →
        registers_on budget nets routes cell ≤ available := by
  constructor
  · intro h
    have hrows := h _ _ .new (picks_only routes) LpModel.feasible_new
    exact ((feasible_register_budget_rows (picks_only routes) budget).mp hrows).2
  · intro h candidates σ lp hpicks hlp
    exact (feasible_register_budget_rows hpicks budget).mpr ⟨hlp, h⟩

theorem getElem?_register_budgets {device : Device} (hd : (device.slots.map Slot.cell).Nodup)
    (baseline : Usage) (limit : ℚ) {slot : Slot} (hslot : slot ∈ device.slots) :
    (register_budgets baseline device limit)[slot.cell]? =
      some ((scaled_area slot.area limit).ff - (baseline.getD slot.cell 0).ff) := by
  refine Std.ExtTreeMap.getElem?_ofList_of_mem Std.ReflCmp.compare_self ?_ ?_
  · rw [List.Nodup, pairwise_map] at hd
    rw [pairwise_map]
    simpa only [Std.compare_eq_iff_eq] using hd
  · exact mem_map.mpr ⟨slot, hslot, rfl⟩

theorem mem_register_budgets {device : Device} {baseline : Usage} {limit : ℚ} {cell : Cell}
    (h : cell ∈ register_budgets baseline device limit) :
    ∃ slot ∈ device.slots, slot.cell = cell := by
  rw [register_budgets, Std.ExtTreeMap.mem_ofList, map_map, contains_eq_mem,
    decide_eq_true_eq] at h
  exact mem_map.mp h

/-! ## Registers of the planned routes -/

section Planned

variable {g : FloorGraph} {device : Device} {regions : List Cell} {carried : List Carried}
  {scheme : PipelineScheme}

theorem ff_sum (l : List Area) : l.sum.ff = (l.map Area.ff).sum := by
  induction l with
  | nil => rfl
  | cons a l ih =>
    rw [sum_cons, map_cons, sum_cons, ← ih]
    rfl

theorem Net.body_ff (n : Net) : n.body.ff = n.width := by cases n <;> rfl

theorem sum_if_eq_count (l : List Cell) (cell : Cell) (n : Nat) :
    (l.map fun region => if region = cell then n else 0).sum = l.count cell * n := by
  induction l with
  | nil => simp
  | cons a l ih =>
    rw [map_cons, sum_cons, ih]
    by_cases h : a = cell
    · simp [h, Nat.add_mul, Nat.add_comm]
    · simp [h]

theorem bodies_ff (g : FloorGraph) (routes : List PlannedRoute) (cell : Cell) :
    (bodies g routes cell).ff = (routes.map fun r =>
      r.reg_regions.count cell * ((g.net r.channel).map Net.width).getD 0).sum := by
  rw [bodies, ff_sum, map_map]
  congr 1
  refine map_congr_left fun r _ => ?_
  rw [Function.comp_apply, ff_sum, map_map, ← sum_if_eq_count]
  congr 1
  refine map_congr_left fun region _ => ?_
  by_cases hregion : region = cell
  · simp only [Function.comp_apply, hregion, if_true]
    cases g.net r.channel with
    | none => rfl
    | some n => exact n.body_ff
  · simp only [Function.comp_apply, hregion, if_false]
    rfl

/-- The registers that the program counts are those of the Bodies. -/
theorem Carrying.registers_on_eq (hg : g.Sound) (h : Carrying g device regions carried)
    {budget : RegisterBudget} (hbodies : budget.bodies = fun path => pipeline_reg_cells path scheme)
    (cell : Cell) :
    registers_on budget ((carried.map Carried.net).map PendingNet.toRouteNet)
      (carried.map Carried.route) cell =
      (bodies g (planned scheme (carried.map Carried.net) (carried.map Carried.route))
        cell).ff := by
  rw [h.planned_eq, bodies_ff, sum_flatMap, registers_on, map_map, zip_map',
    map_map]
  congr 1
  refine map_congr_left fun c hc => ?_
  have hterm : ∀ n ∈ c.group, ((g.net (c.toRoute scheme n).channel).map Net.width).getD 0 =
      n.width := by
    intro n hn
    rw [Carried.toRoute, hg.net_eq (h.known hc hn)]
    rfl
  have hgroup : ((c.group.map (c.toRoute scheme)).map fun r => r.reg_regions.count cell *
      ((g.net r.channel).map Net.width).getD 0).sum =
      (pipeline_reg_cells c.route scheme).count cell * c.net.width := by
    rw [(h.groups c hc).width, ← sum_map_mul_left, map_map]
    congr 1
    refine map_congr_left fun n hn => ?_
    rw [Function.comp_apply, hterm n hn]
    rfl
  rw [hgroup]
  simp [body_registers, hbodies, PendingNet.toRouteNet]

end Planned

/-! ## Budgets and realized usage -/

section Budget

variable {g : FloorGraph} {device : Device} {regions : List Cell} {carried : List Carried}
  {scheme : PipelineScheme} {baseline usage : Usage}

theorem realize_slot_usage_eq_ok {routes : List PlannedRoute} {limit : ℚ} :
    realize_slot_usage g regions baseline routes device limit = .ok usage ↔
      account_routes g regions baseline routes = .ok usage ∧
        ∀ (cell : Cell) (area : Area), usage[cell]? = some area → ∃ capacity,
          device.island_area (.slot cell.1 cell.2) = some capacity ∧
          ∀ resource : Resource, device.plans_resource resource = true →
            resource.amount area ≤ resource.amount (scaled_area capacity limit) := by
  simp only [realize_slot_usage, realize_slot_usage_with_resource_caps, bind_eq_ok]
  constructor
  · rintro ⟨usage', hok, _, hvalid, heq⟩
    cases heq
    exact ⟨hok, by simpa using validate_realized_usage_eq_ok.mp hvalid⟩
  · rintro ⟨hok, hvalid⟩
    exact ⟨usage, hok, (), validate_realized_usage_eq_ok.mpr (by simpa using hvalid), rfl⟩

/-- The Bodies of a slot are paid for: there are none, or flip-flops are planned and its
Tails and Heads have as many as the estimates that they replace. -/
def BodiesArePaid (g : FloorGraph) (device : Device) (regions : List Cell)
    (routes : List PlannedRoute) (cell : Cell) : Prop :=
  (bodies g routes cell).ff = 0 ∨ device.plans_resource .Ff = true ∧
    (estimates g regions cell).ff ≤ (tails g routes cell + heads g routes cell).ff

variable (hg : g.Sound) (h : Carrying g device regions carried)
  (hlen : regions.length = g.vertices.length) (hbase : IsBaseline g regions baseline)
  {routes : List PlannedRoute}
  (hroutes : routes = planned scheme (carried.map Carried.net) (carried.map Carried.route))
include hg h hlen hbase hroutes

/-- The flip-flops of a slot before and after the routes. -/
theorem Carrying.balance_ff (hacc : account_routes g regions baseline routes = .ok usage)
    (cell : Cell) :
    (usage.getD cell 0).ff + (estimates g regions cell).ff = (baseline.getD cell 0).ff +
      ((tails g routes cell + heads g routes cell).ff + (bodies g routes cell).ff) := by
  have heach : OneRouteEach g regions routes := hroutes ▸ h.oneRouteEach hg
  exact congrArg Area.ff (account_routes_balance hg heach hlen hbase hacc cell)

/-- Where the Bodies are paid for, a slot that holds what is realized has the budget. -/
theorem Carrying.within_budget (hdistinct : (device.slots.map Slot.cell).Nodup) {slot : Slot}
    (hslot : slot ∈ device.slots) (hpaid : BodiesArePaid g device regions routes slot.cell)
    {limit : ℚ} (hreal : realize_slot_usage g regions baseline routes device limit = .ok usage) :
    (bodies g routes slot.cell).ff ≤
      (scaled_area slot.area limit).ff - (baseline.getD slot.cell 0).ff := by
  obtain ⟨hacc, hvalid⟩ := realize_slot_usage_eq_ok.mp hreal
  have hbal := h.balance_ff hg hlen hbase hroutes hacc slot.cell
  rcases hpaid with hnone | ⟨hplanned, hle⟩
  · omega
  cases hheld : usage[slot.cell]? with
  | none =>
    -- A slot without an account has no Bodies.
    rw [Std.ExtTreeMap.getD_eq_getD_getElem?, hheld] at hbal
    simp only [Option.getD_none, Area.zero_def] at hbal
    omega
  | some area =>
    obtain ⟨capacity, hcapacity, hfits⟩ := hvalid slot.cell area hheld
    have hff := hfits .Ff hplanned
    have harea : capacity = slot.area := by
      rw [Device.island_area_slot_eq, Slot.cell, Device.slot_of_mem hdistinct hslot,
        Option.bind_some] at hcapacity
      split at hcapacity
      · exact (Option.some.inj hcapacity).symm
      · cases hcapacity
    rw [Std.ExtTreeMap.getD_eq_getD_getElem?, hheld, Option.getD_some] at hbal
    rw [harea] at hff
    simp only [Resource.amount] at hff
    omega

end Budget

/-- The rows of the budget hold for every choice of paths whose routes realize, if in every
slot with Bodies flip-flops are planned and the Tails and Heads have as many as the
estimates that they replace. -/
theorem routes_that_realize_are_in_budget {flat : TaskGraph} {memory : List MemoryInterface}
    {control : Option ControlInterface} {anchor : Option Str} {projection : Option FlatProjection}
    {g : FloorGraph} (hbuild : build_with_scopes flat memory control anchor projection = .ok g)
    {device : Device} (hd : device.Complete) {regions : List Cell}
    (hlen : regions.length = g.vertices.length) {baseline : Usage}
    (hbase : IsBaseline g regions baseline) {nets : List PendingNet} {paths : List (List Cell)}
    (hroutable : Routable g device regions nets paths) {scheme : PipelineScheme}
    (hpaid : ∀ slot ∈ device.slots,
      BodiesArePaid g device regions (planned scheme nets paths) slot.cell)
    {limit : ℚ} {usage : Usage} (hreal : realize_slot_usage g regions baseline
      (planned scheme nets paths) device limit = .ok usage) :
    BudgetRowsHold (nets.map PendingNet.toRouteNet) paths
      (register_budget baseline device scheme limit) := by
  have hg := build_with_scopes_sound hbuild
  obtain ⟨carried, rfl, rfl, hcarrying⟩ := hroutable.carrying hg
  refine budgetRowsHold_iff.mpr fun cell available havailable => ?_
  obtain ⟨slot, hslot, rfl⟩ := mem_register_budgets (mem_of_get havailable)
  rw [register_budget, getElem?_register_budgets hd.distinct baseline limit hslot] at havailable
  cases havailable
  rw [hcarrying.registers_on_eq hg rfl]
  exact hcarrying.within_budget hg hlen hbase rfl hd.distinct hslot (hpaid slot hslot) hreal

/-- Two slots with the wires for `q` between them, and some flip-flops in the second. -/
def narrowSlots (ff : Nat) : Device where
  key := ['d']
  rows := 2
  cols := 1
  planned_resources := Resource.ALL
  usage_ceiling := none
  slots := [⟨0, 0, ⟨400, 100, 4, 0, 0⟩, 0, 0, ⟨100, 100, 100, 100⟩, [], zero_fits, zero_fits⟩,
    ⟨0, 1, ⟨400, ff, 4, 0, 0⟩, 0, 150, ⟨100, 100, 100, 100⟩, [], zero_fits, one_fits⟩]
  anchors := []

theorem narrowSlots_complete (ff : Nat) : (narrowSlots ff).Complete := Device.validate_grid_ok rfl

def crossingNet : PendingNet := ⟨.Stream ['q'], none, (0, 0), (0, 1), 35⟩

theorem handOver_crosses : Routable handOverGraph (narrowSlots 100) [(0, 0), (0, 1)] [crossingNet]
    [[(0, 0), (0, 1)]] :=
  ⟨rfl, .cons ⟨rfl, rfl, by decide, by decide, by decide⟩ .nil, rfl⟩

/-- The Tail of a shallow FIFO has as many flip-flops as its estimate, so the budget does not
reject the crossing. -/
theorem a_shallow_crossing_is_in_budget :
    build_with_scopes handOver [] none none none = .ok handOverGraph ∧
    (bodies handOverGraph (planned .Double [crossingNet] [[(0, 0), (0, 1)]]) (0, 1)).ff = 35 ∧
    BudgetRowsHold [⟨(0, 0), (0, 1), 35⟩] [[(0, 0), (0, 1)]]
      (register_budget handOverUsage (narrowSlots 100) .Double 1) := by
  have hbuild : build_with_scopes handOver [] none none none = .ok handOverGraph := eq_ok_get rfl
  have hpaid : ∀ slot ∈ (narrowSlots 100).slots, BodiesArePaid handOverGraph (narrowSlots 100)
      [(0, 0), (0, 1)] (planned .Double [crossingNet] [[(0, 0), (0, 1)]]) slot.cell := by
    unfold BodiesArePaid
    decide +kernel
  have hreal : (realize_slot_usage handOverGraph [(0, 0), (0, 1)] handOverUsage
      (planned .Double [crossingNet] [[(0, 0), (0, 1)]]) (narrowSlots 100) 1).toOption.isSome =
        true := by
    decide +kernel
  exact ⟨hbuild, by decide +kernel, routes_that_realize_are_in_budget hbuild
    (narrowSlots_complete 100) rfl handOverUsage_baseline handOver_crosses hpaid (eq_ok_get hreal)⟩

/-- The FIFO of the hand-over with room for 122 entries. -/
def deepHandOver : TaskGraph where
  top := ['T']
  tasks := handOver.tasks.insert ['T']
    { level := .Upper
      ports := []
      tasks := ((∅ : BTreeMap Str (List TaskInstance)).insert ['A']
        [endInstance ['o'] .Ostream]).insert ['B'] [endInstance ['i'] .Istream]
      fifos := (∅ : BTreeMap Str InterconnectDefinition).insert ['q']
        ⟨some 122, some (['B'], 0), some (['A'], 0)⟩
      self_area := none }

def deepGraph : FloorGraph := (build_with_scopes deepHandOver [] none none none).toOption.get rfl

def deepAssignment : Assignment :=
  (complete_assignment deepGraph [.slot 0 0, .slot 0 1]).toOption.get rfl

/-- The FIFO is estimated with 25 flip-flops. Its Tail is deeper and takes block memory
instead, so the slot of `B` holds 35 flip-flops after the routes. The budget has 25 left for
the 35 of the Bodies. -/
theorem the_budget_rejects_a_deep_crossing :
    build_with_scopes deepHandOver [] none none none = .ok deepGraph ∧
    complete_assignment deepGraph [.slot 0 0, .slot 0 1] = .ok deepAssignment ∧
    Routable deepGraph (narrowSlots 50) deepAssignment.regions [crossingNet] [[(0, 0), (0, 1)]] ∧
    (∃ usage, realize_slot_usage deepGraph deepAssignment.regions deepAssignment.slot_usage
      (planned .Double [crossingNet] [[(0, 0), (0, 1)]]) (narrowSlots 50) 1 = .ok usage) ∧
    ¬ BudgetRowsHold [⟨(0, 0), (0, 1), 35⟩] [[(0, 0), (0, 1)]]
      (register_budget deepAssignment.slot_usage (narrowSlots 50) .Double 1) := by
  have hrealize : (realize_slot_usage deepGraph deepAssignment.regions deepAssignment.slot_usage
      (planned .Double [crossingNet] [[(0, 0), (0, 1)]]) (narrowSlots 50) 1).toOption.isSome =
        true := by
    decide +kernel
  refine ⟨eq_ok_get rfl, eq_ok_get rfl, ⟨rfl, .cons ?_ .nil, rfl⟩, ⟨_, eq_ok_get hrealize⟩, ?_⟩
  · exact ⟨rfl, rfl, by decide, by decide, by decide⟩
  · rw [budgetRowsHold_iff]
    intro h
    have hrow := h (0, 1) 25 (by decide +kernel)
    exact absurd hrow (by decide)

end Tapa.Floorplan
