-- Realized usage (`pipeline/plan.rs`): the estimate of a routed FIFO gives way to the
-- Head, the Bodies and the Tail of its pipeline, slot by slot. The accounts of the slots
-- are a ledger, and the estimates are debits that the placement covers.
import Tapa.Ledger
import Tapa.Placement
import Tapa.RoutePlan

namespace Tapa.Floorplan

open Ir Text Fallible Ledger List

/-! ## Counters of 32 bits -/

def u32_try_from (n : Nat) : Option Nat := if n < 2 ^ 32 then some n else none

def checked_mul_u32 (a b : Nat) : Option Nat := if a * b < 2 ^ 32 then some (a * b) else none

/-! ## Accounting -/

def subtract_usage (usage : Usage) (region : Cell) (area : Area) (link : Str) :
    Except PipelineError Usage := do
  let current ← ok_or usage[region]?
    (accounting_error link ("missing baseline usage for ".toList ++ quoted (cell_debug region)))
  let rest ← ok_or (current.checked_sub area)
    (accounting_error link ("baseline usage in ".toList ++ quoted (cell_debug region) ++
      " does not contain its FIFO estimate".toList))
  pure (usage.insert region rest)

/-- The message for a slot whose counters are full. -/
def overflow_detail (region : Cell) : Str :=
  "resource count overflows in ".toList ++ quoted (cell_debug region)

def add_usage (usage : Usage) (region : Cell) (area : Area) (link : Str) :
    Except PipelineError Usage := do
  let total ← ok_or ((usage.getD region 0).checked_add area)
    (accounting_error link (overflow_detail region))
  pure (usage.insert region total)

/-- A bundle of `width` registers, with the gates before it. -/
def register_area (width luts : Nat) : Area where
  lut := luts
  ff := width
  bram_18k := 0
  dsp := 0
  uram := 0

def account_head_and_body (usage : Usage) (head : Cell) (bodies : List Cell)
    (width head_luts : Nat) (link : Str) : Except PipelineError Usage := do
  let usage ← add_usage usage head (register_area width head_luts) link
  bodies.foldlM (fun usage region => add_usage usage region (register_area width 0) link) usage

section

variable (g : FloorGraph) (regions : List Cell)

def verify_route_endpoint (vertex : Nat)
    (route_region : Cell) (link endpoint : Str) : Except PipelineError Unit := do
  let vertex_name := ((g.vertices[vertex]?).map Vertex.name).getD []
  let placed_region ← ok_or regions[vertex]?
    (accounting_error link ("missing region for ".toList ++ quoted vertex_name))
  ensure (placed_region = route_region)
    (accounting_error link (endpoint ++ " route region ".toList ++
      quoted (cell_debug route_region) ++ " differs from ".toList ++
      quoted (cell_debug placed_region)))

def route_endpoints (route : PlannedRoute)
    (src dst : Nat) (link : Str) : Except PipelineError (Cell × Cell) := do
  let head ← ok_or route.route.head? (accounting_error link "route has no Head region".toList)
  let tail ← ok_or route.route.getLast? (accounting_error link "route has no Tail region".toList)
  verify_route_endpoint g regions src head link "Head".toList
  verify_route_endpoint g regions dst tail link "Tail".toList
  pure (head, tail)

section

variable (usage : Usage) (g : FloorGraph) (regions : List Cell) (route : PlannedRoute)

def account_control_pipeline (net : ControlNet) (link : Str) : Except PipelineError Usage := do
  let (head, tail) ← route_endpoints g regions route net.src net.dst link
  let usage ← account_head_and_body usage head route.reg_regions net.width 0 link
  add_usage usage tail (register_area net.width 0) link

/-- The entries that a Tail stores for the words under way. -/
def tail_extra (body_level more : Nat) : Option Nat :=
  (checked_mul_u32 body_level 2).bind fun level => checked_add_u32 level more

def account_axi_pipeline (net : AxiNet) (link : Str) : Except PipelineError Usage := do
  let (head, tail) ← route_endpoints g regions route net.src net.dst link
  let body_level ← ok_or (u32_try_from route.reg_regions.length)
    (accounting_error link "Body level exceeds u32".toList)
  let real_depth ← ok_or (tail_extra body_level 8)
    (accounting_error link "Tail depth overflows u32".toList)
  let usage ← add_usage usage tail (fifo_area net.payload_width real_depth) link
  account_head_and_body usage head route.reg_regions net.width 1 link

def account_stream_pipeline (stream : Stream) (fifo : Str) : Except PipelineError Usage := do
  let (head, tail) ← route_endpoints g regions route stream.src stream.dst fifo
  let original_fifo := fifo_area stream.data_width (floorplanned_fifo_storage_depth stream.depth)
  let usage ← subtract_usage usage tail original_fifo fifo
  let body_level ← ok_or (u32_try_from route.reg_regions.length)
    (accounting_error fifo "Body level exceeds u32".toList)
  let extra_depth ← ok_or (tail_extra body_level 6)
    (accounting_error fifo "Tail depth overflows u32".toList)
  let real_depth ← ok_or (checked_add_u32 stream.depth extra_depth)
    (accounting_error fifo "Tail depth overflows u32".toList)
  let usage ← add_usage usage tail (fifo_area stream.data_width real_depth) fifo
  let register_width ← ok_or ((checked_add_u32 stream.data_width 2).filter (· = stream.width))
    (accounting_error fifo "inconsistent stream width metadata".toList)
  account_head_and_body usage head route.reg_regions register_width 1 fifo

end

def stream_index (g : FloorGraph) : BTreeMap Str Stream :=
  Std.ExtTreeMap.ofList (g.streams.map fun stream => (stream.link, stream)) compare

def axi_link (endpoint : AxiEndpoint) (channel : AxiChannel) : Str :=
  endpoint.inst ++ '.' :: endpoint.port ++ ' ' :: channel.debug

def control_link (inst : Str) (channel : ControlChannel) : Str := inst ++ ' ' :: channel.rtl_name

def account_route (usage : Usage) (route : PlannedRoute) : Except PipelineError Usage :=
  match route.channel with
  | .Stream fifo => do
    let stream ← ok_or (stream_index g)[fifo]?
      (accounting_error fifo "no matching stream metadata".toList)
    account_stream_pipeline usage g regions route stream fifo
  | .Axi endpoint bank channel => do
    let net ← ok_or (g.axi_nets.find? fun net =>
        net.endpoint = endpoint ∧ net.bank = bank ∧ net.channel = channel)
      (accounting_error (axi_link endpoint channel) "no matching AXI channel metadata".toList)
    account_axi_pipeline usage g regions route net (axi_link endpoint channel)
  | .Control inst channel => do
    let net ← ok_or (g.control_nets.find? fun net => net.inst = inst ∧ net.channel = channel)
      (accounting_error (control_link inst channel) "no matching control metadata".toList)
    account_control_pipeline usage g regions route net (control_link inst channel)

def account_routes (baseline : Usage) (routes : List PlannedRoute) : Except PipelineError Usage :=
  routes.foldlM (account_route g regions) baseline

/-- The limits of logic and of blocks are capacities scaled by a fraction each. -/
def validate_slot (device : Device) (logic_limit block_limit : Area → Area)
    (entry : Cell × Area) : Except PipelineError Unit := do
  let coor := Coor.slot entry.1.1 entry.1.2
  let capacity ← ok_or (device.island_area coor) (.BadRegion coor.region_name)
  Resource.ALL.forM fun resource =>
    let used := resource.amount entry.2
    let allowed := if resource.is_logic then resource.amount (logic_limit capacity)
      else resource.amount (block_limit capacity)
    ensure (device.plans_resource resource = true → used ≤ allowed)
      (.RealizedCapacity coor.region_name resource.name used allowed)

def validate_realized_usage (usage : Usage) (device : Device)
    (logic_limit block_limit : Area → Area) :
    Except PipelineError Unit :=
  usage.toList.forM (validate_slot device logic_limit block_limit)

def realize_slot_usage_with_resource_caps (baseline : Usage)
    (routes : List PlannedRoute) (device : Device) (logic_limit block_limit : Area → Area) :
    Except PipelineError Usage := do
  let usage ← account_routes g regions baseline routes
  validate_realized_usage usage device logic_limit block_limit
  pure usage

/-! ## Placements -/

/-- The area of the clusters of a list that are placed in a slot. -/
def placed_area (placed : List (Vertex × Cell)) (cell : Cell) : Area :=
  (placed.map fun (v, c) => if v.materialize ∧ c = cell then v.area else 0).sum

/-- A baseline holds, in every slot, the area of the clusters that are placed there. -/
def IsBaseline (baseline : Usage) : Prop :=
  ∀ cell, baseline.getD cell 0 = placed_area (g.vertices.zip regions) cell

end

theorem checked_add_eq_some {a b c : Area} (h : a.checked_add b = some c) : c = a + b := by
  unfold Area.checked_add at h
  split at h
  · exact (Option.some.inj h).symm
  · cases h

/-- What holds of an assignment after some of the clusters. -/
def Assigns (done : List (Vertex × Coor)) (a : Assignment) : Prop :=
  ∀ cell, balance a.slot_usage cell =
    placed_area (done.map fun (v, slot) => (v, (slot.dl_x, slot.dl_y))) cell

theorem Assigns.step {done : List (Vertex × Coor)} {a a' : Assignment} {v : Vertex} {slot : Coor}
    (h : Assigns done a) (hstep : place_vertex a (v, slot) = .ok a') :
    Assigns (done ++ [(v, slot)]) a' := by
  intro cell
  simp only [place_vertex, bind_eq_ok, ensure_eq_ok] at hstep
  obtain ⟨_, _, hstep⟩ := hstep
  split at hstep
  · rename_i hmat
    simp only [bind_eq_ok, ok_or_eq_ok] at hstep
    obtain ⟨total, htotal, heq⟩ := hstep
    cases heq
    simp only [placed_area, map_append, sum_append, map_cons, map_nil,
      sum_cons, sum_nil, add_zero, hmat, true_and]
    rw [balance_insert, checked_add_eq_some htotal]
    split
    · rename_i hcell
      subst hcell
      exact congrArg (· + v.area) (h _)
    · exact h cell
  · rename_i hmat
    cases hstep
    simp only [placed_area, map_append, sum_append, map_cons, map_nil,
      sum_cons, sum_nil, hmat, false_and, if_false, add_zero, Bool.false_eq_true]
    exact h cell

/-! ## Nets -/

namespace Net

/-- The estimate that the placement made for the storage of a channel. -/
def estimate : Net → Area
  | stream s => s.estimate
  | axi _ => 0
  | control _ => 0

/-- The entries of the Tail behind `level` Body registers. -/
def tail_depth : Net → Nat → Nat
  | stream s, level => s.depth + (level * 2 + 6)
  | axi _, level => level * 2 + 8
  | control _, _ => 0

/-- The resources of the Tail behind `level` Body registers. -/
def tail (n : Net) (level : Nat) : Area :=
  match n with
  | stream s => fifo_area s.data_width (n.tail_depth level)
  | axi net => fifo_area net.payload_width (n.tail_depth level)
  | control net => register_area net.width 0

def body : Net → Area
  | stream s => register_area s.width 0
  | axi n => register_area n.width 0
  | control n => register_area n.width 0

/-- The register bundle of the Head, with its gate where a handshake needs one. -/
def head : Net → Area
  | stream s => register_area s.width 1
  | axi n => register_area n.width 1
  | control n => register_area n.width 0

/-- What a pipeline changes in the accounts, in the order of the code. -/
def postings (n : Net) (first last : Cell) (bodies : List Cell) : List (Posting Cell Area) :=
  match n with
  | stream s => [.debit last s.estimate, .credit last (n.tail bodies.length)] ++
      (.credit first n.head :: bodies.map (.credit · n.body))
  | axi _ => [.credit last (n.tail bodies.length)] ++
      (.credit first n.head :: bodies.map (.credit · n.body))
  | control _ => (.credit first n.head :: bodies.map (.credit · n.body)) ++
      [.credit last (n.tail bodies.length)]

end Net

variable {g : FloorGraph}

theorem FloorGraph.Sound.stream_index (hg : g.Sound) {s : Stream} (hs : s ∈ g.streams) :
    (stream_index g)[s.link]? = some s := by
  have hnodup := hg.nodup
  rw [FloorGraph.channels, map_append, map_append, nodup_append] at hnodup
  have hstreams := (nodup_append.mp hnodup.1).1
  rw [map_map, List.Nodup, pairwise_map] at hstreams
  refine Std.ExtTreeMap.getElem?_ofList_of_mem (k := s.link) Std.ReflCmp.compare_self ?_ ?_
  · rw [pairwise_map]
    refine hstreams.imp fun hne heq => hne ?_
    simp only [Std.compare_eq_iff_eq] at heq
    simp [Stream.toChannel, heq]
  · exact mem_map.mpr ⟨s, hs, rfl⟩

/-- What the loop does for a route, given its net. -/
def account_net (g : FloorGraph) (regions : List Cell) (usage : Usage) (route : PlannedRoute) :
    Net → Except PipelineError Usage
  | .stream s => account_stream_pipeline usage g regions route s s.link
  | .axi n => account_axi_pipeline usage g regions route n (axi_link n.endpoint n.channel)
  | .control n => account_control_pipeline usage g regions route n (control_link n.inst n.channel)

theorem account_route_eq (hg : g.Sound) {regions : List Cell} {usage : Usage}
    {route : PlannedRoute} {n : Net} (hn : n ∈ g.nets)
    (hroute : n.toChannel.channel = route.channel) :
    account_route g regions usage route = account_net g regions usage route n := by
  unfold account_route
  rw [← hroute]
  cases n with
  | stream s =>
    have hs : s ∈ g.streams := by simpa [FloorGraph.nets] using hn
    simp only [Net.toChannel, Stream.toChannel, hg.stream_index hs, account_net]
    rfl
  | axi a =>
    have hfind : (g.axi_nets.find? fun net => net.endpoint = a.endpoint ∧ net.bank = a.bank ∧
        net.channel = a.channel) = some a := by
      refine find?_of_unique (by simpa [FloorGraph.nets] using hn) (by simp) fun m hm h => ?_
      have hm' : Net.axi m ∈ g.nets := by simpa [FloorGraph.nets] using hm
      simp only [decide_eq_true_eq] at h
      exact Net.axi.inj (hg.net_unique hn hm' (by simp [Net.toChannel, AxiNet.toChannel, h]))
    simp only [Net.toChannel, AxiNet.toChannel, hfind, account_net]
    rfl
  | control c =>
    have hfind : (g.control_nets.find? fun net => net.inst = c.inst ∧ net.channel = c.channel) =
        some c := by
      refine find?_of_unique (by simpa [FloorGraph.nets] using hn) (by simp) fun m hm h => ?_
      have hm' : Net.control m ∈ g.nets := by simpa [FloorGraph.nets] using hm
      simp only [decide_eq_true_eq] at h
      exact Net.control.inj
        (hg.net_unique hn hm' (by simp [Net.toChannel, ControlNet.toChannel, h]))
    simp only [Net.toChannel, ControlNet.toChannel, hfind, account_net]
    rfl

/-! ## The ledger of the slots -/

/-- The error of a counter that is too narrow. -/
def CounterOverflow (e : PipelineError) : Prop :=
  ∃ link detail, e = .Accounting link detail ∧ (detail = "Body level exceeds u32".toList ∨
    detail = "Tail depth overflows u32".toList ∨ ∃ cell, detail = overflow_detail cell)

variable {side : Prop}

theorem add_usage_books (usage : Usage) (region : Cell) (area : Area) (link : Str) :
    Books Area.fits CounterOverflow side usage [.credit region area]
      (add_usage usage region area link) := by
  refine Books.of_post (fun _ => accounting_error link (overflow_detail region)) ?_ ?_
    Area.fits_of_le
  · unfold add_usage Ledger.post balance Area.checked_add
    by_cases h : (usage.getD region 0 + area).fits = true
    · simp [h, ok_or, Except.mapError, bind, Except.bind, pure, Except.pure]
    · simp [h, ok_or, Except.mapError, bind, Except.bind]
  · exact ⟨link, _, rfl, Or.inr (Or.inr ⟨region, rfl⟩)⟩

theorem subtract_usage_books (usage : Usage) (region : Cell) (area : Area) (link : Str) :
    Books Area.fits CounterOverflow side usage [.debit region area]
      (subtract_usage usage region area link) := by
  -- A debit that is covered never asks for the error.
  refine Books.of_post (fun
    | .unknown => accounting_error link
        ("missing baseline usage for ".toList ++ quoted (cell_debug region))
    | .uncovered => accounting_error link ("baseline usage in ".toList ++
        quoted (cell_debug region) ++ " does not contain its FIFO estimate".toList)
    | .overflow => accounting_error link (overflow_detail region)) ?_ ?_ Area.fits_of_le
  · unfold subtract_usage Ledger.post Area.checked_sub
    cases hget : usage[region]? with
    | none => simp [hget, ok_or, Except.mapError, bind, Except.bind]
    | some held =>
      by_cases h : area ≤ held
      · simp [hget, h, ok_or, Except.mapError, bind, Except.bind, pure, Except.pure]
      · simp [hget, h, ok_or, Except.mapError, bind, Except.bind]
  · exact ⟨link, _, rfl, Or.inr (Or.inr ⟨region, rfl⟩)⟩

theorem account_head_and_body_books (usage : Usage) (first : Cell) (bodies : List Cell)
    (width luts : Nat) (link : Str) :
    Books Area.fits CounterOverflow side usage
      (.credit first (register_area width luts) ::
        bodies.map (.credit · (register_area width 0)))
      (account_head_and_body usage first bodies width luts link) := by
  have hbodies : ∀ m : Usage, Books Area.fits CounterOverflow side m
      (bodies.map (Posting.credit · (register_area width 0)))
      (bodies.foldlM (fun usage region => add_usage usage region (register_area width 0) link)
        m) := by
    intro m
    rw [← flatMap_singleton' (bodies.map _), flatMap_map]
    exact Books.foldlM Area.fits_of_le (fun region _ m => add_usage_books m region _ link) m
  exact (add_usage_books usage first (register_area width luts) link).bind Area.fits_of_le hbodies

/-- A route between the slots of the clusters of a net. -/
structure RouteOf (regions : List Cell) (n : Net) (r : PlannedRoute) (first last : Cell) :
    Prop where
  starts : r.route.head? = some first
  stops : r.route.getLast? = some last
  src : regions[n.toChannel.src]? = some first
  dst : regions[n.toChannel.dst]? = some last

theorem RouteOf.endpoints {regions : List Cell} {n : Net} {r : PlannedRoute} {first last : Cell}
    (h : RouteOf regions n r first last) (link : Str) :
    route_endpoints g regions r n.toChannel.src n.toChannel.dst link = .ok (first, last) := by
  simp only [route_endpoints, verify_route_endpoint, bind_eq_ok, ok_or_eq_ok, ensure_eq_ok]
  exact ⟨first, h.starts, last, h.stops, (), ⟨first, h.src, rfl⟩, (), ⟨last, h.dst, rfl⟩, rfl⟩

theorem u32_try_from_eq_some {n m : Nat} : u32_try_from n = some m ↔ n < 2 ^ 32 ∧ m = n := by
  unfold u32_try_from
  split <;> grind

variable {level : Nat}

theorem tail_extra_eq_some {more d : Nat} (h : tail_extra level more = some d) :
    d = level * 2 + more := by
  simp only [tail_extra, checked_mul_u32, Option.bind_eq_some_iff, checked_add_u32_eq_some] at h
  obtain ⟨a, ha, _, hd⟩ := h
  split at ha
  · cases ha
    exact hd.symm
  · cases ha

theorem tail_extra_ne_none {more : Nat} (h : level * 2 + more < 2 ^ 32) :
    tail_extra level more ≠ none := by
  unfold tail_extra checked_mul_u32 checked_add_u32
  rw [if_pos (by omega), Option.bind_some, if_pos h]
  simp

/-- The checks of a Tail fail only when its depth needs more than 32 bits. -/
theorem level_books {link : Str} (hside : side → level < 2 ^ 32) {e : PipelineError} (h : ok_or
    (u32_try_from level) (accounting_error link "Body level exceeds u32".toList) = .error e) :
    CounterOverflow e ∧ ¬ side := by
  obtain ⟨hnone, rfl⟩ := ok_or_eq_error.mp h
  refine ⟨⟨link, _, rfl, Or.inl rfl⟩, fun hs => ?_⟩
  unfold u32_try_from at hnone
  rw [if_pos (hside hs)] at hnone
  cases hnone

theorem depth_books {depth : Option Nat} {link : Str} (hside : side → depth ≠ none)
    {e : PipelineError}
    (h : ok_or depth (accounting_error link "Tail depth overflows u32".toList) = .error e) :
    CounterOverflow e ∧ ¬ side := by
  obtain ⟨hnone, rfl⟩ := ok_or_eq_error.mp h
  exact ⟨⟨link, _, rfl, Or.inr (Or.inl rfl)⟩, fun hs => hside hs hnone⟩

section

variable {g : FloorGraph} {regions : List Cell} {r : PlannedRoute} {first last : Cell} {side : Prop}

theorem account_control_books (usage : Usage) {c : ControlNet} (link : Str)
    (hr : RouteOf regions (.control c) r first last) :
    Books Area.fits CounterOverflow side usage ((Net.control c).postings first last r.reg_regions)
      (account_control_pipeline usage g regions r c link) := by
  have hends := hr.endpoints (g := g) link
  simp only [Net.toChannel, ControlNet.toChannel] at hends
  unfold account_control_pipeline
  rw [hends]
  exact (account_head_and_body_books usage first r.reg_regions c.width 0 link).bind
    Area.fits_of_le fun m => add_usage_books m last _ link

theorem account_axi_books (usage : Usage) {a : AxiNet} (link : Str)
    (hr : RouteOf regions (.axi a) r first last)
    (hside : side → (Net.axi a).tail_depth r.reg_regions.length < 2 ^ 32) :
    Books Area.fits CounterOverflow side usage ((Net.axi a).postings first last r.reg_regions)
      (account_axi_pipeline usage g regions r a link) := by
  have hends := hr.endpoints (g := g) link
  simp only [Net.toChannel, AxiNet.toChannel] at hends
  simp only [Net.tail_depth] at hside
  unfold account_axi_pipeline
  rw [hends]
  refine Books.check (by simp) ?_
  rintro _ ⟨⟩
  refine Books.check (fun e he => level_books (fun hs => by have := hside hs; omega) he) ?_
  intro level hlevel
  obtain ⟨_, rfl⟩ := u32_try_from_eq_some.mp (ok_or_eq_ok.mp hlevel)
  refine Books.check (fun e he => depth_books (fun hs => tail_extra_ne_none (hside hs)) he) ?_
  intro depth hdepth
  obtain rfl := tail_extra_eq_some (ok_or_eq_ok.mp hdepth)
  exact (add_usage_books usage last _ link).bind Area.fits_of_le fun m =>
    account_head_and_body_books m first r.reg_regions a.width 1 link

theorem account_stream_books (usage : Usage) {s : Stream} (link : Str)
    (hr : RouteOf regions (.stream s) r first last)
    (hwidth : s.width = s.data_width + 2 ∧ s.width < 2 ^ 32)
    (hside : side → (Net.stream s).tail_depth r.reg_regions.length < 2 ^ 32) :
    Books Area.fits CounterOverflow side usage ((Net.stream s).postings first last r.reg_regions)
      (account_stream_pipeline usage g regions r s link) := by
  have hends := hr.endpoints (g := g) link
  simp only [Net.toChannel, Stream.toChannel] at hends
  simp only [Net.tail_depth] at hside
  unfold account_stream_pipeline
  rw [hends]
  refine (subtract_usage_books usage last s.estimate link).bind Area.fits_of_le fun m => ?_
  refine Books.check (fun e he => level_books (fun hs => by have := hside hs; omega) he) ?_
  intro level hlevel
  obtain ⟨_, rfl⟩ := u32_try_from_eq_some.mp (ok_or_eq_ok.mp hlevel)
  refine Books.check (fun e he => depth_books (fun hs => tail_extra_ne_none (by
    have := hside hs; omega)) he) ?_
  intro extra hextra
  obtain rfl := tail_extra_eq_some (ok_or_eq_ok.mp hextra)
  refine Books.check (fun e he => depth_books (fun hs => by
    rw [checked_add_u32, if_pos (hside hs)]
    simp) he) ?_
  intro depth hdepth
  obtain ⟨_, rfl⟩ := checked_add_u32_eq_some.mp (ok_or_eq_ok.mp hdepth)
  refine (add_usage_books m last _ link).bind Area.fits_of_le fun m' => ?_
  have hreg : (checked_add_u32 s.data_width 2).filter (· = s.width) = some s.width := by
    rw [checked_add_u32, ← hwidth.1, if_pos hwidth.2]
    simp
  rw [hreg]
  exact account_head_and_body_books m' first r.reg_regions s.width 1 link

/-- The accounting of a route books the postings of its net. -/
theorem account_route_books (hg : g.Sound) {n : Net} (hn : n ∈ g.nets)
    (hch : n.toChannel.channel = r.channel) (hr : RouteOf regions n r first last)
    (hside : side → n.tail_depth r.reg_regions.length < 2 ^ 32) (usage : Usage) :
    Books Area.fits CounterOverflow side usage (n.postings first last r.reg_regions)
      (account_route g regions usage r) := by
  rw [account_route_eq hg hn hch]
  cases n with
  | stream s =>
    obtain ⟨hw, _, hlt⟩ := hg.streams s (by simpa [FloorGraph.nets] using hn)
    exact account_stream_books usage s.link hr ⟨hw, hlt⟩ hside
  | axi a => exact account_axi_books usage _ hr hside
  | control c => exact account_control_books usage _ hr

end

/-! ## What a list of routes changes -/

section

variable (g : FloorGraph) (routes : List PlannedRoute) (cell : Cell)

/-- The Tails that end in a slot. -/
def tails : Area :=
  (routes.map fun r => if r.route.getLast? = some cell then
    ((g.net r.channel).map fun n => n.tail r.reg_regions.length).getD 0 else 0).sum

/-- The register bundles of the Heads in a slot. -/
def heads : Area :=
  (routes.map fun r => if r.route.head? = some cell then
    ((g.net r.channel).map Net.head).getD 0 else 0).sum

/-- The register bundles of the Bodies in a slot, one for each of their cells. -/
def bodies : Area :=
  (routes.map fun r => (r.reg_regions.map fun region => if region = cell then
    ((g.net r.channel).map Net.body).getD 0 else 0).sum).sum

end

/-- The storage estimates of the streams that cross into a slot. -/
def estimates (g : FloorGraph) (regions : List Cell) (cell : Cell) : Area :=
  (g.streams.map fun s => if (crossing_cells regions s.src s.dst).isSome ∧
    regions[s.dst]? = some cell then s.estimate else 0).sum

/-- The Tails of a list of routes and the totals of its slots stay in the range of their
counters. -/
structure Countable (g : FloorGraph) (baseline : Usage) (routes : List PlannedRoute) : Prop where
  depth : ∀ r ∈ routes, ∀ n ∈ g.nets, n.toChannel.channel = r.channel →
    n.tail_depth r.reg_regions.length < 2 ^ 32
  total : ∀ cell, (baseline.getD cell 0 + (tails g routes cell + heads g routes cell +
    bodies g routes cell)).fits = true

/-- The postings of a route. -/
def route_postings (g : FloorGraph) (r : PlannedRoute) : List (Posting Cell Area) :=
  match g.net r.channel, r.route.head?, r.route.getLast? with
  | some n, some first, some last => n.postings first last r.reg_regions
  | _, _, _ => []

theorem Net.credits_postings (n : Net) (first last cell : Cell) (bodies : List Cell) :
    credits cell (n.postings first last bodies) =
      (if last = cell then n.tail bodies.length else 0) + (if first = cell then n.head else 0) +
        (bodies.map fun region => if region = cell then n.body else 0).sum := by
  have hbodies : credits cell (bodies.map (Posting.credit · n.body)) =
      (bodies.map fun region => if region = cell then n.body else 0).sum := by
    simp [credits, Posting.credited, Function.comp_def]
  cases n with
  | stream s | axi a => simp [Net.postings, Posting.credited, hbodies, add_assoc]
  | control c =>
    simp only [Net.postings, credits_append, credits_cons, credits_nil, hbodies,
      Posting.credited, add_zero]
    abel

theorem Net.debits_postings (n : Net) (first last cell : Cell) (bodies : List Cell) :
    debits cell (n.postings first last bodies) = if last = cell then n.estimate else 0 := by
  have hbodies : debits cell (bodies.map (Posting.credit · n.body)) = 0 := by
    refine sum_eq_zero fun a ha => ?_
    simp only [map_map, mem_map, Function.comp_apply, Posting.debited] at ha
    obtain ⟨_, _, rfl⟩ := ha
    rfl
  cases n with
  | stream s | axi a | control c => simp [Net.postings, Net.estimate, Posting.debited, hbodies]

section

variable {g : FloorGraph} {regions : List Cell} {routes : List PlannedRoute}

/-- Every route has its net, which crosses from its first slot to its last. -/
theorem OneRouteEach.routeOf (h : OneRouteEach g regions routes) {r : PlannedRoute}
    (hr : r ∈ routes) : ∃ n ∈ g.nets, n.toChannel.channel = r.channel ∧ ∃ first last,
      crossing_cells regions n.toChannel.src n.toChannel.dst = some (first, last) ∧
      RouteOf regions n r first last := by
  have hmem := h.each.subset (mem_map_of_mem hr)
  obtain ⟨c, hc, hch⟩ := mem_map.mp hmem
  obtain ⟨hc, hcross⟩ := mem_filter.mp hc
  obtain ⟨⟨first, last⟩, hcells⟩ := Option.isSome_iff_exists.mp hcross
  obtain ⟨hsrc, hdst, _⟩ := crossing_cells_eq_some.mp hcells
  obtain ⟨hhead, hlast⟩ := h.ends r hr c hc hch
  rw [g.channels_eq] at hc
  obtain ⟨n, hn, rfl⟩ := mem_map.mp hc
  exact ⟨n, hn, hch, first, last, hcells, hhead.trans hsrc, hlast.trans hdst, hsrc, hdst⟩

theorem route_postings_eq (hg : g.Sound) {r : PlannedRoute} {n : Net} {first last : Cell}
    (hn : n ∈ g.nets) (hch : n.toChannel.channel = r.channel)
    (hr : RouteOf regions n r first last) :
    route_postings g r = n.postings first last r.reg_regions := by
  unfold route_postings
  rw [← hch, hg.net_eq hn, hr.starts, hr.stops]

theorem OneRouteEach.credits (hg : g.Sound) (h : OneRouteEach g regions routes) (cell : Cell) :
    credits cell (routes.flatMap (route_postings g)) =
      tails g routes cell + heads g routes cell + bodies g routes cell := by
  rw [credits_flatMap, tails, heads, bodies, ← sum_map_add, ← sum_map_add]
  refine congrArg List.sum (map_congr_left fun r hr => ?_)
  obtain ⟨n, hn, hch, first, last, _, hroute⟩ := h.routeOf hr
  rw [route_postings_eq hg hn hch hroute, Net.credits_postings, ← hch, hg.net_eq hn]
  simp [hroute.starts, hroute.stops]

/-- What the channel of a route owes to a slot. -/
def owed (g : FloorGraph) (regions : List Cell) (cell : Cell) (channel : RoutedChannel) : Area :=
  match g.net channel with
  | some n => if regions[n.toChannel.dst]? = some cell then n.estimate else 0
  | none => 0

theorem owed_eq (hg : g.Sound) {n : Net} (hn : n ∈ g.nets) (cell : Cell) :
    owed g regions cell n.toChannel.channel =
      if regions[n.toChannel.dst]? = some cell then n.estimate else 0 := by
  unfold owed
  rw [hg.net_eq hn]

/-- The debits of the routes are the estimates of the streams that cross. -/
theorem OneRouteEach.debits (hg : g.Sound) (h : OneRouteEach g regions routes) (cell : Cell) :
    debits cell (routes.flatMap (route_postings g)) = estimates g regions cell := by
  have hroutes : routes.map (fun r => Ledger.debits cell (route_postings g r)) =
      (routes.map PlannedRoute.channel).map (owed g regions cell) := by
    rw [map_map]
    refine map_congr_left fun r hr => ?_
    obtain ⟨n, hn, hch, first, last, _, hroute⟩ := h.routeOf hr
    rw [route_postings_eq hg hn hch hroute, Net.debits_postings, Function.comp_apply, ← hch,
      owed_eq hg hn, hroute.dst]
    simp only [Option.some.injEq]
  have hcrossing : ((g.crossing regions).map Channel.channel).map (owed g regions cell) =
      (g.nets.filter fun n => (crossing_cells regions n.toChannel.src n.toChannel.dst).isSome).map
        fun n => if regions[n.toChannel.dst]? = some cell then n.estimate else 0 := by
    rw [FloorGraph.crossing, g.channels_eq, filter_map, map_map, map_map]
    refine map_congr_left fun n hn => ?_
    exact owed_eq hg (mem_filter.mp hn).1 cell
  rw [debits_flatMap, hroutes, (h.each.map _).sum_eq, hcrossing]
  have hzero : ∀ ns : List Net, (∀ n ∈ ns, n.estimate = 0) → ((ns.filter fun n =>
      (crossing_cells regions n.toChannel.src n.toChannel.dst).isSome).map fun n =>
        if regions[n.toChannel.dst]? = some cell then n.estimate else 0).sum = 0 := by
    intro ns hns
    refine sum_eq_zero fun a ha => ?_
    obtain ⟨n, hn, rfl⟩ := mem_map.mp ha
    rw [hns n (mem_filter.mp hn).1, ite_self]
  rw [FloorGraph.nets, filter_append, filter_append, map_append, map_append,
    sum_append, sum_append, hzero (g.axi_nets.map .axi), hzero (g.control_nets.map .control),
    add_zero, add_zero, filter_map, map_map, estimates]
  · simp only [ite_and]
    rw [sum_map_ite]
    simp only [Function.comp_def, Net.toChannel, Stream.toChannel, Net.estimate, map_const',
      sum_replicate, nsmul_zero, add_zero, Bool.decide_eq_true]
    congr
  · intro n hn
    obtain ⟨c, _, rfl⟩ := mem_map.mp hn
    rfl
  · intro n hn
    obtain ⟨c, _, rfl⟩ := mem_map.mp hn
    rfl

/-! ## The placement covers the estimates -/

/-- The estimate of a stream is not empty. -/
theorem estimate_lut_pos {s : Stream} (hs : 0 < s.data_width) : 0 < s.estimate.lut := by
  unfold Stream.estimate storage_estimate fifo_area
  split
  · simp only
    omega
  · exact Nat.mul_pos hs (Nat.succ_pos _)

section

variable (hg : g.Sound)
include hg

/-- The clusters in a slot hold the estimates of the streams that cross into it. -/
theorem estimates_le_placed (hlen : regions.length = g.vertices.length)
    (cell : Cell) : estimates g regions cell ≤ placed_area (g.vertices.zip regions) cell := by
  have hreader : ∀ s ∈ g.streams, ∃ v : Vertex, g.vertices[s.dst]? = some v ∧
      v.materialize = true ∧ s.dst < (g.vertices.zip regions).length := by
    intro s hs
    obtain ⟨v, hv, hm⟩ := hg.reader s hs
    have hlt := (List.getElem?_eq_some_iff.mp hv).1
    exact ⟨v, hv, hm, by rw [length_zip]; omega⟩
  refine sum_le_of_shares Stream.dst (fun s hs => ?_) (fun i hi => ?_)
  · obtain ⟨v, _, _, hlt⟩ := hreader s hs
    simpa using hlt
  · simp only [length_map, length_zip] at hi
    have hv : g.vertices[i]? = some g.vertices[i] := getElem?_eq_getElem (by omega)
    simp only [getElem_map, getElem_zip]
    split
    · -- A cluster in the slot: its share is part of what it hosts.
      refine le_trans (sum_le_sum fun s hs => ?_) (hg.hosts i _ hv)
      split
      · split
        · exact le_refl _
        · exact zero_le
      · exact zero_le
    · -- Any other cluster reads no stream that crosses into the slot.
      rename_i hout
      refine (sum_eq_zero fun a ha => ?_).le
      obtain ⟨s, hs, rfl⟩ := mem_map.mp ha
      split
      · rename_i hdst
        obtain ⟨v, hv', hm, _⟩ := hreader s hs
        rw [hdst, hv] at hv'
        rw [if_neg]
        rintro ⟨_, hcell⟩
        rw [hdst, getElem?_eq_getElem (by omega), Option.some.injEq] at hcell
        exact hout ⟨Option.some.inj hv' ▸ hm, hcell⟩
      · rfl

variable {baseline : Usage}

section

variable (h : OneRouteEach g regions routes)
include h

theorem OneRouteEach.covered
    (hlen : regions.length = g.vertices.length) (hbase : IsBaseline g regions baseline) :
    Ledger.Covered baseline (routes.flatMap (route_postings g)) := by
  have henough : ∀ cell, Ledger.debits cell (routes.flatMap (route_postings g)) ≤
      balance baseline cell := by
    intro cell
    rw [h.debits hg, balance, hbase cell]
    exact estimates_le_placed hg hlen cell
  refine ⟨fun cell amount hmem => ?_, henough⟩
  obtain ⟨r, hr, hmem⟩ := mem_flatMap.mp hmem
  obtain ⟨n, hn, hch, first, last, hcells, hroute⟩ := h.routeOf hr
  rw [route_postings_eq hg hn hch hroute] at hmem
  cases n with
  | stream s =>
    simp only [Net.postings, mem_append, mem_cons, Posting.debit.injEq, reduceCtorEq,
      mem_map, not_mem_nil, or_false, and_false, exists_false] at hmem
    obtain ⟨rfl, rfl⟩ := hmem
    have hs : s ∈ g.streams := by simpa [FloorGraph.nets] using hn
    by_contra hnone
    -- A slot without an account holds nothing, but the estimate is not empty.
    have hbal : balance baseline cell = 0 := by
      rw [balance, Std.ExtTreeMap.getD_eq_getD_getElem?, Std.ExtTreeMap.getElem?_eq_none hnone]
      rfl
    have hle := henough cell
    rw [h.debits hg, hbal] at hle
    have hterm : s.estimate ≤ estimates g regions cell := by
      refine single_le_sum (fun a _ => zero_le) _ (mem_map.mpr ⟨s, hs, ?_⟩)
      rw [if_pos]
      simp only [Net.toChannel, Stream.toChannel] at hcells
      exact ⟨by rw [hcells]; rfl, hroute.dst⟩
    have hpos := estimate_lut_pos (hg.streams s hs).2.1
    have hzero := (Area.le_def.mp (hterm.trans hle)).1
    simp only [Area.zero_def] at hzero
    omega
  | axi a | control c => simp [Net.postings] at hmem

/-- The loop over the routes keeps the ledger of the slots. -/
theorem account_routes_books (baseline : Usage) : Books Area.fits CounterOverflow
      (∀ r ∈ routes, ∀ n ∈ g.nets, n.toChannel.channel = r.channel →
        n.tail_depth r.reg_regions.length < 2 ^ 32)
      baseline (routes.flatMap (route_postings g)) (account_routes g regions baseline routes) := by
  refine Books.foldlM Area.fits_of_le (fun r hr usage => ?_) baseline
  obtain ⟨n, hn, hch, first, last, _, hroute⟩ := h.routeOf hr
  rw [route_postings_eq hg hn hch hroute]
  exact account_route_books hg hn hch hroute (fun hside => hside r hr n hn hch) usage

section

variable (hlen : regions.length = g.vertices.length)
include hlen

section

variable (hbase : IsBaseline g regions baseline)
include hbase

/-- The loop over the routes gives the accounts of a run, or a counter overflows. -/
theorem account_routes_spec : (∃ usage, account_routes g regions baseline routes = .ok usage ∧
      Ledger.run Area.fits baseline (routes.flatMap (route_postings g)) = .ok usage) ∨
    (∃ e, account_routes g regions baseline routes = .error e ∧ CounterOverflow e ∧
      ¬ Countable g baseline routes) := by
  have hcovered := h.covered hg hlen hbase
  have hbooks := account_routes_books hg h baseline []
  rw [append_nil] at hbooks
  have hb := hbooks hcovered
  cases hres : account_routes g regions baseline routes with
  | ok usage =>
    rw [hres] at hb
    exact Or.inl ⟨usage, rfl, hb⟩
  | error e =>
    rw [hres] at hb
    refine Or.inr ⟨e, rfl, hb.1, fun hcount => hb.2 hcount.depth fun cell => ?_⟩
    rw [h.credits hg]
    exact hcount.total cell

variable {usage : Usage}

theorem account_routes_run (hok : account_routes g regions baseline routes = .ok usage) :
    Ledger.run Area.fits baseline (routes.flatMap (route_postings g)) = .ok usage := by
  rcases account_routes_spec hg h hlen hbase with ⟨usage', hok', hrun⟩ | ⟨e, herr, _⟩
  · rw [hok] at hok'
    exact Except.ok.inj hok' ▸ hrun
  · rw [hok] at herr
    cases herr

/-- What the routes change in a slot: estimates go, Tails, Heads and Bodies come. -/
theorem account_routes_balance
    (hok : account_routes g regions baseline routes = .ok usage) (cell : Cell) :
    usage.getD cell 0 + estimates g regions cell = baseline.getD cell 0 +
      (tails g routes cell + heads g routes cell + bodies g routes cell) := by
  have hbal := run_balance (account_routes_run hg h hlen hbase hok) cell
  rwa [h.debits hg, h.credits hg] at hbal

end

end

end

end

variable {device : Device} {logic_limit block_limit : Area → Area}

theorem validate_slot_eq_ok {entry : Cell × Area} :
    validate_slot device logic_limit block_limit entry = .ok () ↔
      ∃ capacity, device.island_area (.slot entry.1.1 entry.1.2) = some capacity ∧
        ∀ resource : Resource, device.plans_resource resource = true → resource.amount entry.2 ≤
          resource.amount (if resource.is_logic then logic_limit capacity
            else block_limit capacity) := by
  simp only [validate_slot, bind_eq_ok, ok_or_eq_ok, forM_eq_ok, ensure_eq_ok]
  refine exists_congr fun capacity => and_congr_right fun _ => ?_
  refine ⟨fun h resource => ?_, fun h resource _ => ?_⟩
  · have hresource := h resource (Resource.mem_ALL resource)
    split at hresource <;> rename_i hlogic <;> simpa [hlogic] using hresource
  · have hresource := h resource
    split at hresource <;> rename_i hlogic <;> simpa [hlogic] using hresource

/-- The planned resources of every slot are within its limits. -/
theorem validate_realized_usage_eq_ok :
    validate_realized_usage usage device logic_limit block_limit = .ok () ↔
      ∀ (cell : Cell) (area : Area), usage[cell]? = some area → ∃ capacity,
        device.island_area (.slot cell.1 cell.2) = some capacity ∧
        ∀ resource : Resource, device.plans_resource resource = true → resource.amount area ≤
          resource.amount (if resource.is_logic then logic_limit capacity
            else block_limit capacity) := by
  simp only [validate_realized_usage, forM_eq_ok, validate_slot_eq_ok, Prod.forall,
    Std.ExtTreeMap.mem_toList_iff_getElem?_eq_some]

/-- The check of the capacities makes no accounting error. -/
theorem validate_realized_usage_error {e : PipelineError}
    (h : validate_realized_usage usage device logic_limit block_limit = .error e)
    (link detail : Str) : e ≠ .Accounting link detail := by
  rintro rfl
  obtain ⟨entry, _, h⟩ := exists_of_forM_eq_error h
  simp only [validate_slot, bind_eq_error, ok_or_eq_error, reduceCtorEq, and_false, false_or] at h
  obtain ⟨capacity, _, h⟩ := h
  obtain ⟨resource, _, h⟩ := exists_of_forM_eq_error h
  cases (ensure_eq_error.mp h).2

end

/-! ## Realized usage -/

/-- A result is the error of a counter that is too narrow. -/
def Overflows (x : Except PipelineError Usage) : Prop := ∃ e, x = .error e ∧ CounterOverflow e

/-- The accounting of generated pipelines is exact. For a placement of a built graph with its
baseline, and one route for every channel that crosses, the usage that is checked holds in
every slot the baseline, less the estimates of the streams that cross into it, with the Tails
and one register bundle for each Head and each Body cell. The accounting can only fail where a
counter overflows, which `Countable` excludes, and the order of the routes does not matter. -/
theorem realized_usage_is_exact {flat : TaskGraph} {memory : List MemoryInterface}
    {control : Option ControlInterface} {anchor : Option Str} {projection : Option FlatProjection}
    {g : FloorGraph} (hbuild : build_with_scopes flat memory control anchor projection = .ok g)
    {regions : List Cell} {baseline : Usage} {routes : List PlannedRoute}
    (hlen : regions.length = g.vertices.length) (hbase : IsBaseline g regions baseline)
    (hroutes : OneRouteEach g regions routes) (device : Device)
    (logic_limit block_limit : Area → Area) :
    let realize := fun rs => realize_slot_usage_with_resource_caps g regions baseline rs device
      logic_limit block_limit
    ((∃ usage, realize routes =
        (validate_realized_usage usage device logic_limit block_limit).map (fun _ => usage) ∧
        ∀ cell, estimates g regions cell ≤ baseline.getD cell 0 ∧
          usage.getD cell 0 = baseline.getD cell 0 - estimates g regions cell +
            (tails g routes cell + heads g routes cell + bodies g routes cell)) ∨
      Overflows (realize routes) ∧ ¬ Countable g baseline routes) ∧
    (∀ link detail, realize routes = .error (.Accounting link detail) →
      Overflows (realize routes)) ∧
    ∀ others, routes.Perm others →
      realize others = realize routes ∨ Overflows (realize others) ∨
        Overflows (realize routes) := by
  intro realize
  have hg := build_with_scopes_sound hbuild
  have herr : ∀ {rs e}, account_routes g regions baseline rs = .error e →
      realize rs = .error e := by
    intro rs e h
    simp only [realize, realize_slot_usage_with_resource_caps, h]
    rfl
  have hok : ∀ {rs usage}, account_routes g regions baseline rs = .ok usage → realize rs =
      (validate_realized_usage usage device logic_limit block_limit).map (fun _ => usage) := by
    intro rs usage h
    simp only [realize, realize_slot_usage_with_resource_caps, h]
    rfl
  have hspec := account_routes_spec hg hroutes hlen hbase
  refine ⟨?_, fun link detail h => ?_, fun others hperm => ?_⟩
  · rcases hspec with ⟨usage, h, _⟩ | ⟨e, h, hover, hcount⟩
    · refine Or.inl ⟨usage, hok h, fun cell => ?_⟩
      have hle : estimates g regions cell ≤ baseline.getD cell 0 := by
        rw [hbase cell]
        exact estimates_le_placed hg hlen cell
      refine ⟨hle, ?_⟩
      rw [tsub_add_eq_add_tsub hle]
      exact eq_tsub_of_add_eq (account_routes_balance hg hroutes hlen hbase h cell)
    · exact Or.inr ⟨⟨e, herr h, hover⟩, hcount⟩
  · rcases hspec with ⟨usage, h1, _⟩ | ⟨e, h1, hover, _⟩
    · rw [hok h1] at h
      cases hv : validate_realized_usage usage device logic_limit block_limit with
      | ok u =>
        rw [hv] at h
        cases h
      | error e =>
        rw [hv] at h
        exact absurd (Except.error.inj h) (validate_realized_usage_error hv link detail)
    · exact ⟨e, herr h1, hover⟩
  · have hothers : OneRouteEach g regions others :=
      ⟨(hperm.map _).symm.trans hroutes.each, fun r hr => hroutes.ends r (hperm.symm.subset hr)⟩
    rcases account_routes_spec hg hothers hlen hbase with ⟨u1, h1, hrun1⟩ | ⟨e, h1, hover, _⟩
    · rcases hspec with ⟨u2, h2, hrun2⟩ | ⟨e, h2, hover, _⟩
      · left
        rw [hok h1, hok h2, run_perm (hperm.symm.flatMap_right _) hrun1 hrun2]
      · exact Or.inr (Or.inr ⟨e, herr h2, hover⟩)
    · exact Or.inr (Or.inl ⟨e, herr h1, hover⟩)

/-- A leaf that reads or writes the FIFO `q`, and its invocation. -/
def fifoEnd (port : Str) (cat : ArgCategory) : Task where
  level := .Lower
  ports := [⟨cat, port, 32, none, none⟩]
  tasks := ∅
  fifos := ∅
  self_area := some ⟨1, 0, 0, 0, 0⟩

def endInstance (port : Str) (cat : ArgCategory) : TaskInstance where
  name := none
  args := (∅ : BTreeMap Str Arg).insert port ⟨.Name ['q'], cat⟩
  step := 0

/-- `A` writes the FIFO `q` and `B` reads it. -/
def handOver : TaskGraph where
  top := ['T']
  tasks := (((∅ : BTreeMap Str Task).insert ['A'] (fifoEnd ['o'] .Ostream)).insert ['B']
    (fifoEnd ['i'] .Istream)).insert ['T']
      { level := .Upper
        ports := []
        tasks := ((∅ : BTreeMap Str (List TaskInstance)).insert ['A']
          [endInstance ['o'] .Ostream]).insert ['B'] [endInstance ['i'] .Istream]
        fifos := (∅ : BTreeMap Str InterconnectDefinition).insert ['q']
          ⟨some 2, some (['B'], 0), some (['A'], 0)⟩
        self_area := none }

def handOverGraph : FloorGraph := (build_with_scopes handOver [] none none none).toOption.get rfl

/-- `q` crosses from the slot of `A` to the slot above it. -/
def handOverRoute : PlannedRoute := ⟨.Stream ['q'], [(0, 0), (0, 1)], .Single, []⟩

def handOverUsage : Usage :=
  ((∅ : Usage).insert (0, 0) ⟨1, 0, 0, 0, 0⟩).insert (0, 1) ⟨67, 13, 0, 0, 0⟩

theorem handOverUsage_baseline : IsBaseline handOverGraph [(0, 0), (0, 1)] handOverUsage := by
  intro cell
  have hvertices : handOverGraph.vertices = [⟨['A', '_', '0'], ⟨1, 0, 0, 0, 0⟩, none, true⟩,
      ⟨['B', '_', '0'], ⟨67, 13, 0, 0, 0⟩, none, true⟩] := rfl
  rw [hvertices, handOverUsage, Std.ExtTreeMap.getD_insert, Std.ExtTreeMap.getD_insert]
  simp only [Std.compare_eq_iff_eq, Std.ExtTreeMap.getD_empty, placed_area, zip_cons_cons,
    zip_nil_left, map_cons, map_nil, sum_cons, sum_nil, true_and]
  by_cases h0 : ((0, 0) : Cell) = cell
  · subst h0
    rfl
  by_cases h1 : ((0, 1) : Cell) = cell
  · subst h1
    rfl
  · simp [h0, h1]

def twoSlots : Device where
  key := ['d']
  rows := 2
  cols := 1
  planned_resources := Resource.ALL
  usage_ceiling := none
  slots := [⟨0, 0, ⟨100, 100, 0, 0, 0⟩, 0, 0, ⟨1, 1, 1, 1⟩, [], zero_fits, zero_fits⟩,
    ⟨0, 1, ⟨100, 100, 0, 0, 0⟩, 0, 150, ⟨1, 1, 1, 1⟩, [], zero_fits, one_fits⟩]
  anchors := []

/-- The slot of `B` exchanges the estimate of `q` for its Tail. -/
theorem a_crossing_fifo_is_accounted : ∃ usage, realize_slot_usage_with_resource_caps handOverGraph
      [(0, 0), (0, 1)] handOverUsage [handOverRoute] twoSlots id id =
        (validate_realized_usage usage twoSlots id id).map (fun _ => usage) ∧
      usage.getD (0, 1) 0 = ⟨67, 13, 0, 0, 0⟩ - storage_estimate 33 2 + fifo_area 33 8 := by
  have hroutes : OneRouteEach handOverGraph [(0, 0), (0, 1)] [handOverRoute] := by
    refine ⟨List.Perm.refl _, fun r hr c hc _ => ?_⟩
    obtain rfl := mem_singleton.mp hr
    obtain rfl := mem_singleton.mp hc
    exact ⟨rfl, rfl⟩
  have hbuild : build_with_scopes handOver [] none none none = .ok handOverGraph := eq_ok_get rfl
  obtain ⟨husage, _, _⟩ := realized_usage_is_exact hbuild rfl handOverUsage_baseline hroutes
    twoSlots id id
  rcases husage with ⟨usage, hrealize, hcell⟩ | ⟨⟨e, herr, _⟩, _⟩
  · refine ⟨usage, hrealize, ?_⟩
    rw [(hcell (0, 1)).2]
    rfl
  · cases herr

end Tapa.Floorplan
