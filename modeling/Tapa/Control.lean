-- The control network of a floorplanned design, from `tapa_control.v` and
-- `distributed_control.rs`: the global controller, the local controller of each
-- child, and the registers between them, with the flush time codegen gives it.
import Tapa.Clock

namespace Tapa.Control

open Clock Option

/-! ## `tapa_global_controller` -/

inductive GlobalState where
  | IDLE
  | RUNNING
  | RELEASING
  | DONE
  deriving DecidableEq, Repr

structure tapa_global_controller where
  state : GlobalState
  flush_count : Nat
  pending_start : Bool
  start_armed : Bool

structure GlobalIn where
  ap_rst_n : Bool
  ap_start : Bool
  children_done : Bool
  children_clear : Bool

def FLUSH_WIDTH (FLUSH_CYCLES : Nat) : Nat :=
  if FLUSH_CYCLES < 2 then 1 else Nat.clog 2 (FLUSH_CYCLES + 1)

namespace tapa_global_controller

/-- The values at power-on, which are also those after a reset. -/
def init (FLUSH_CYCLES : Nat) : tapa_global_controller where
  state := .IDLE
  flush_count := FLUSH_CYCLES % 2 ^ FLUSH_WIDTH FLUSH_CYCLES
  pending_start := false
  start_armed := true

section

variable (s : tapa_global_controller)

def flush_done : Bool := decide (s.flush_count = 0)

def accept_start (i : GlobalIn) : Bool :=
  (i.ap_start || s.pending_start) && (s.flush_done && i.children_clear) &&
    decide (s.state = .IDLE)

def launch_start (i : GlobalIn) : Bool := s.accept_start i

def launch_release : Bool := decide (s.state = .RELEASING)

def fabric_reset_n (i : GlobalIn) : Bool := i.ap_rst_n && s.flush_done

def ap_done : Bool := decide (s.state = .DONE)

/-- The start request after one edge, before an accepted start clears it. A
level that stays high from the accepted request is not a new request. -/
def remember (i : GlobalIn) : tapa_global_controller :=
  if !i.ap_start then { s with start_armed := true }
  else if s.start_armed then { s with pending_start := true, start_armed := false }
  else s

def step (FLUSH_CYCLES : Nat) (s : tapa_global_controller) (i : GlobalIn) :
    tapa_global_controller :=
  if !i.ap_rst_n then init FLUSH_CYCLES
  else if !s.flush_done then
    { s.remember i with
      flush_count := (s.flush_count + 2 ^ FLUSH_WIDTH FLUSH_CYCLES - 1) %
        2 ^ FLUSH_WIDTH FLUSH_CYCLES }
  else
    match s.state with
    | .IDLE =>
      if s.accept_start i then
        { s with state := .RUNNING, pending_start := false, start_armed := !i.ap_start }
      else s.remember i
    | .RUNNING =>
      if i.children_done then { s.remember i with state := .RELEASING } else s.remember i
    | .RELEASING =>
      if i.children_clear then { s.remember i with state := .DONE } else s.remember i
    | .DONE => { s.remember i with state := .IDLE }

@[simp] theorem remember_state (i : GlobalIn) : (s.remember i).state = s.state := by
  unfold remember
  split
  · rfl
  · split <;> rfl

@[simp] theorem remember_flush_count (i : GlobalIn) :
    (s.remember i).flush_count = s.flush_count := by
  unfold remember
  split
  · rfl
  · split <;> rfl

end

end tapa_global_controller

/-! ## `tapa_local_controller` -/

inductive LocalState where
  | IDLE
  | RUNNING
  | WAITING
  | DONE
  deriving DecidableEq, Repr

structure LocalIn where
  reset_n : Bool
  launch_start : Bool
  launch_release : Bool
  child_done : Bool
  child_ready : Bool

/-- One edge of the state register of a child that is joined. -/
def LocalState.step (s : LocalState) (i : LocalIn) : LocalState :=
  if !i.reset_n then .IDLE
  else
    match s with
    | .IDLE => if i.launch_start then .RUNNING else .IDLE
    | .RUNNING =>
      if i.child_ready && i.child_done then .DONE
      else if i.child_ready then .WAITING
      else .RUNNING
    | .WAITING => if i.child_done then .DONE else .WAITING
    | .DONE => if i.launch_release then .IDLE else .DONE

/-- The registers of `tapa_local_controller`: those of the branch that `AUTORUN`
generates. -/
inductive tapa_local_controller where
  | TAPA_AUTORUN (start_latched : Bool)
  | TAPA_NORMAL (state : LocalState)

namespace tapa_local_controller

def init (AUTORUN : Bool) : tapa_local_controller :=
  if AUTORUN then .TAPA_AUTORUN false else .TAPA_NORMAL .IDLE

def step : tapa_local_controller → LocalIn → tapa_local_controller
  | .TAPA_AUTORUN start_latched, i =>
    .TAPA_AUTORUN (if !i.reset_n then false else if i.launch_start then true else start_latched)
  | .TAPA_NORMAL state, i => .TAPA_NORMAL (state.step i)

def child_start : tapa_local_controller → Bool
  | .TAPA_AUTORUN start_latched => start_latched
  | .TAPA_NORMAL state => decide (state = .RUNNING)

def completion : tapa_local_controller → Bool
  | .TAPA_AUTORUN _ => false
  | .TAPA_NORMAL state => decide (state = .DONE)

end tapa_local_controller

/-! ## The control plan -/

def checked_add (a b : Nat) : Option Nat := if a + b < 2 ^ 32 then some (a + b) else none

theorem checked_add_eq {a b c : Nat} (h : checked_add a b = some c) : c = a + b := by
  unfold checked_add at h
  split at h
  · exact (Option.some.inj h).symm
  · exact absurd h (by simp)

/-- The routes of one child, each as its Body level, and `none` where the child
is in the slot of the global controller. -/
structure ChildRoutes where
  is_autorun : Bool
  launch : Option Nat
  reset : Option Nat
  completion : Option Nat
  launch_eq_reset : launch = reset
  autorun_silent : is_autorun = true → completion = none

/-- The registers of a route: a head, the Body levels and a tail. -/
def latency : Option Nat → Nat
  | none => 0
  | some body_level => body_level + 2

/-- The latency of a route as codegen computes it. -/
def route_latency : Option Nat → Option Nat
  | none => some 0
  | some body_level => checked_add body_level 2

theorem route_latency_eq {r : Option Nat} {n : Nat} (h : route_latency r = some n) :
    n = latency r := by
  cases r with
  | none => exact (Option.some.inj h).symm
  | some b => exact checked_add_eq h

/-- `max_data_latency` of `collect_control_routes`, from the Body levels of the
data routes. -/
def max_data_latency (data : List Nat) : Option Nat :=
  data.foldlM (fun m body_level => (checked_add body_level 2).map (max m)) 0

/-- One child of `plan_children`: the flush bound and the largest reset latency. -/
def plan_child (acc : Nat × Nat) (c : ChildRoutes) : Option (Nat × Nat) := do
  let reset_latency ← route_latency c.reset
  let completion_latency ← route_latency c.completion
  let sum ← checked_add reset_latency completion_latency
  return (max acc.1 sum, max acc.2 reset_latency)

/-- `flush_cycles` as `plan_children` and `from_floorplan` compute it. -/
def flush_cycles (children : List ChildRoutes) (data : List Nat) : Option Nat := do
  let max_data_latency ← max_data_latency data
  let (flush_cycles, max_reset_latency) ← children.foldlM plan_child (0, 0)
  let fabric ← checked_add max_reset_latency max_data_latency
  return max flush_cycles fabric

theorem plan_child_eq {acc acc' : Nat × Nat} {c : ChildRoutes} (h : plan_child acc c = some acc') :
    acc' = (max acc.1 (latency c.reset + latency c.completion), max acc.2 (latency c.reset)) := by
  unfold plan_child at h
  simp only [bind_eq_bind, bind_eq_some_iff, pure_def, Option.some.injEq] at h
  obtain ⟨r, hr, d, hd, m, hm, rfl⟩ := h
  rw [checked_add_eq hm, route_latency_eq hr, route_latency_eq hd]

/-- The fold only grows, and covers every child it has seen. -/
theorem plan_children_covers (children : List ChildRoutes) {acc acc' : Nat × Nat}
    (h : children.foldlM plan_child acc = some acc') :
    acc.1 ≤ acc'.1 ∧ acc.2 ≤ acc'.2 ∧ ∀ c ∈ children,
      latency c.reset + latency c.completion ≤ acc'.1 ∧ latency c.reset ≤ acc'.2 := by
  induction children generalizing acc with
  | nil =>
    obtain rfl : acc = acc' := by simpa using h
    simp
  | cons c cs ih =>
    simp only [List.foldlM_cons, bind_eq_bind, bind_eq_some_iff] at h
    obtain ⟨mid, hmid, hrest⟩ := h
    obtain ⟨h1, h2, h3⟩ := ih hrest
    have heq := plan_child_eq hmid
    subst heq
    simp only [Nat.max_le] at h1 h2
    refine ⟨h1.1, h2.1, fun x hx => ?_⟩
    rcases List.mem_cons.mp hx with rfl | hx
    · exact ⟨h1.2, h2.2⟩
    · exact h3 x hx

theorem max_data_latency_covers (data : List Nat) {m m' : Nat}
    (h : data.foldlM (fun m body_level => (checked_add body_level 2).map (max m)) m = some m') :
    m ≤ m' ∧ ∀ b ∈ data, b + 2 ≤ m' := by
  induction data generalizing m with
  | nil =>
    obtain rfl : m = m' := by simpa using h
    simp
  | cons b bs ih =>
    simp only [List.foldlM_cons, bind_eq_bind, bind_eq_some_iff,
      map_eq_some_iff] at h
    obtain ⟨mid, ⟨x, hx, rfl⟩, hrest⟩ := h
    obtain ⟨h1, h2⟩ := ih hrest
    have hxb := checked_add_eq hx
    simp only [Nat.max_le] at h1
    refine ⟨h1.1, fun y hy => ?_⟩
    rcases List.mem_cons.mp hy with rfl | hy
    · omega
    · exact h2 y hy

/-- The flush time covers the way to each child and back, and the way to each
child and then through each data route. -/
theorem flush_cycles_covers {children : List ChildRoutes} {data : List Nat} {F : Nat}
    (h : flush_cycles children data = some F) :
    (∀ c ∈ children, latency c.reset + latency c.completion ≤ F) ∧
      (∀ c ∈ children, ∀ b ∈ data, latency c.reset + (b + 2) ≤ F) ∧
      ∀ c ∈ children, latency c.reset ≤ F := by
  unfold flush_cycles at h
  simp only [bind_eq_bind, bind_eq_some_iff, pure_def,
    Option.some.injEq] at h
  obtain ⟨d, hd, ⟨f, r⟩, hf, x, hx, rfl⟩ := h
  obtain ⟨_, _, hc⟩ := plan_children_covers children hf
  obtain ⟨_, hb⟩ := max_data_latency_covers data hd
  have hxe := checked_add_eq hx
  refine ⟨fun c h => ?_, fun c h b h' => ?_, fun c h => ?_⟩
  · have := (hc c h).1
    omega
  · have := (hc c h).2
    have := hb b h'
    omega
  · have := (hc c h).2
    omega

/-! ## The network -/

variable {n : Nat}

/-- The registers of the control network: the global controller, and for each
child its local controller and the registers of its three routes. -/
structure Network (n : Nat) where
  global : tapa_global_controller
  launch : Fin n → List (Bool × Bool)
  reset : Fin n → List Bool
  child : Fin n → tapa_local_controller
  completion : Fin n → List Bool

/-- The inputs of the network in one cycle, with the handshake of each child. -/
structure NetworkIn (n : Nat) where
  ap_rst_n : Bool
  ap_start : Bool
  child_ready : Fin n → Bool
  child_done : Fin n → Bool

namespace Network

/-- The values at power-on. Every register of a route starts at 0. -/
def init (children : Fin n → ChildRoutes) (FLUSH_CYCLES : Nat) : Network n where
  global := tapa_global_controller.init FLUSH_CYCLES
  launch := fun j => List.replicate (latency (children j).launch) (false, false)
  reset := fun j => List.replicate (latency (children j).reset) false
  child := fun j => tapa_local_controller.init (children j).is_autorun
  completion := fun j => List.replicate (latency (children j).completion) false

variable (children : Fin n → ChildRoutes)

section

variable (s : Network n) (i : NetworkIn n)

def reset_n (j : Fin n) : Bool := tapped (s.reset j) i.ap_rst_n

/-- The completion of child `j` as the global controller sees it. -/
def is_done (s : Network n) (j : Fin n) : Bool := tapped (s.completion j) (s.child j).completion

/-- `done_and_clear` takes the completion of each joined child. -/
def global_in : GlobalIn where
  ap_rst_n := i.ap_rst_n
  ap_start := i.ap_start
  children_done := decide (∀ j, (children j).is_autorun = false → s.is_done j = true)
  children_clear := decide (∀ j, (children j).is_autorun = false → s.is_done j = false)

/-- The start bit and the release bit that the global controller sends. -/
def launch_input : Bool × Bool :=
  (s.global.launch_start (s.global_in children i), s.global.launch_release)

def launch_output (j : Fin n) : Bool × Bool :=
  tapped (s.launch j) (s.launch_input children i)

/-- The ports of a local controller. Those that an autorun child has no use for
are tied low. -/
def local_in (j : Fin n) : LocalIn where
  reset_n := s.reset_n i j
  launch_start := (s.launch_output children i j).1
  launch_release := !(children j).is_autorun && (s.launch_output children i j).2
  child_done := !(children j).is_autorun && i.child_done j
  child_ready := !(children j).is_autorun && i.child_ready j

end

def step (FLUSH_CYCLES : Nat) (s : Network n) (i : NetworkIn n) : Network n where
  global := s.global.step FLUSH_CYCLES (s.global_in children i)
  launch := fun j => shift (s.launch j) (s.launch_input children i)
  reset := fun j => shift (s.reset j) i.ap_rst_n
  child := fun j => (s.child j).step (s.local_in children i j)
  completion := fun j => shift (s.completion j) (s.child j).completion

end Network

end Tapa.Control
