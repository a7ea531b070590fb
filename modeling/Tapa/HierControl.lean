-- The control of a hierarchy of upper tasks (`program.rs`, `children/fsm.rs`): each has
-- a global controller of three states and one of four states for each joined child. An
-- upper task obeys the handshake that its parent expects of a leaf.
import Mathlib

namespace Tapa.Hier

/-! ## Controllers -/

inductive GlobalState where
  | IDLE | RUNNING | DONE
deriving DecidableEq, Repr

inductive ChildState where
  | IDLE | RUNNING | WAITING | DONE
deriving DecidableEq, Repr

/-- One edge of the state register of an upper task. -/
def apply_global_fsm (ap_rst ap_start all_done : Bool) (state : GlobalState) : GlobalState :=
  if ap_rst then .IDLE
  else
    match state with
    | .IDLE => if ap_start then .RUNNING else .IDLE
    | .RUNNING => if all_done then .DONE else .RUNNING
    | .DONE => .IDLE

/-- One edge of the state register of a joined child. -/
def generate_child_fsm (ap_rst start_input done_release ready done : Bool) (state : ChildState) :
    ChildState :=
  if ap_rst then .IDLE
  else
    match state with
    | .IDLE => if start_input then .RUNNING else .IDLE
    | .RUNNING => if ready && done then .DONE else if ready then .WAITING else .RUNNING
    | .WAITING => if done then .DONE else .WAITING
    | .DONE => if done_release then .IDLE else .DONE

/-- One edge of the start register of an autorun child. -/
def generate_autorun_start (ap_rst ap_start start : Bool) : Bool :=
  if ap_rst then false else if ap_start then true else start

def generate_is_done_assign (state : ChildState) : Bool := state = .DONE

def generate_start_assign (state : ChildState) : Bool := state = .RUNNING

/-! ## Leaves -/

/-- A leaf that obeys `ap_ctrl_hs`. Its schedule says in which cycles it could take an
invocation to the point where it is ready, and finish one: any latency is a schedule. It
has started an invocation that it is not ready with, or not, and has invocations that it
was ready with and has not finished. It counts its starts and its ends since a reset. -/
structure Leaf where
  schedule : Nat → Bool × Bool
  time : Nat
  started : Bool
  outstanding : Nat
  starts : Nat
  dones : Nat

namespace Leaf

def ready (l : Leaf) (ap_start : Bool) : Bool :=
  (l.started || ap_start) && (l.schedule l.time).1

/-- What it can finish in this cycle. -/
def pending (l : Leaf) (ap_start : Bool) : Nat := l.outstanding + (l.ready ap_start).toNat

def done (l : Leaf) (ap_start : Bool) : Bool :=
  decide (0 < l.pending ap_start) && (l.schedule l.time).2

def step (ap_rst ap_start : Bool) (l : Leaf) : Leaf :=
  if ap_rst then
    { l with time := l.time + 1, started := false, outstanding := 0, starts := 0, dones := 0 }
  else
    { schedule := l.schedule
      time := l.time + 1
      started := (l.started || ap_start) && !(l.schedule l.time).1
      outstanding := l.pending ap_start - (l.done ap_start).toNat
      starts := l.starts + (ap_start && !l.started).toNat
      dones := l.dones + (l.done ap_start).toNat }

end Leaf

/-! ## The hierarchy -/

mutual

/-- A task with its state, and below an upper task its children with theirs. -/
inductive Node where
  | leaf (l : Leaf)
  | upper (state : GlobalState) (children : Children)

inductive Children where
  | nil
  | joined (state : ChildState) (child : Node) (rest : Children)
  | autorun (start : Bool) (child : Node) (rest : Children)

end

def Node.ready (ap_start : Bool) : Node → Bool
  | .leaf l => l.ready ap_start
  | .upper state _ => state = .DONE

def Node.done (ap_start : Bool) : Node → Bool
  | .leaf l => l.done ap_start
  | .upper state _ => state = .DONE

/-- The condition on which an upper task is done: that every joined child is. -/
def Children.all_done : Children → Bool
  | .nil => true
  | .joined state _ rest => generate_is_done_assign state && rest.all_done
  | .autorun _ _ rest => rest.all_done

mutual

def Node.step (ap_rst ap_start : Bool) : Node → Node
  | .leaf l => .leaf (l.step ap_rst ap_start)
  | .upper state children =>
    .upper (apply_global_fsm ap_rst ap_start children.all_done state)
      (children.step ap_rst ap_start (decide (state = .DONE)))

/-- One clock cycle of the children of an upper task with the nets `start_q` and `done_q`. -/
def Children.step (ap_rst start_q done_q : Bool) : Children → Children
  | .nil => .nil
  | .joined state child rest =>
    let start := generate_start_assign state
    .joined (generate_child_fsm ap_rst start_q done_q (child.ready start) (child.done start) state)
      (child.step ap_rst start) (rest.step ap_rst start_q done_q)
  | .autorun start child rest =>
    .autorun (generate_autorun_start ap_rst start_q start) (child.step ap_rst start)
      (rest.step ap_rst start_q done_q)

end

mutual

/-- The leaves that are joined all the way up. -/
def Node.joined_leaves : Node → List Leaf
  | .leaf l => [l]
  | .upper _ children => children.joined_leaves

def Children.joined_leaves : Children → List Leaf
  | .nil => []
  | .joined _ child rest => child.joined_leaves ++ rest.joined_leaves
  | .autorun _ _ rest => rest.joined_leaves

end

/-! ## The handshake -/

/-- Where a task is in the handshake: between invocations, in one that it is not ready
with, or in one that it was ready with. -/
inductive Phase where
  | idle | busy | readied
deriving DecidableEq

/-- A leaf that has finished `n` invocations. -/
structure Leaf.At (l : Leaf) (n : Nat) (phase : Phase) : Prop where
  started : l.started = decide (phase = .busy)
  outstanding : l.outstanding = (decide (phase = .readied)).toNat
  starts : l.starts = n + (decide (phase ≠ .idle)).toNat
  dones : l.dones = n

mutual

/-- A task that has finished `n` invocations, with all that are joined below it. -/
def Node.At : Node → Nat → Phase → Prop
  | .leaf l, n, phase => l.At n phase
  | .upper state children, n, .idle => state = .IDLE ∧ children.At n .IDLE
  | .upper state children, n, .busy => state ≠ .IDLE ∧ children.At n state
  | .upper _ _, _, .readied => False

/-- The children of a task in a state that has finished `n` invocations. -/
def Children.At : Children → Nat → GlobalState → Prop
  | .nil, _, _ => True
  | .joined state child rest, n, .IDLE => (state = .IDLE ∧ child.At n .idle) ∧ rest.At n .IDLE
  | .joined state child rest, n, .RUNNING =>
    ((state = .RUNNING ∧ (child.At n .idle ∨ child.At n .busy)) ∨
      (state = .WAITING ∧ child.At n .readied) ∨ (state = .DONE ∧ child.At (n + 1) .idle)) ∧
      rest.At n .RUNNING
  | .joined state child rest, n, .DONE =>
    (state = .DONE ∧ child.At (n + 1) .idle) ∧ rest.At n .DONE
  | .autorun _ _ rest, n, state => rest.At n state

end

/-- What a cycle with a start makes of a task. -/
def Node.Proceeds (node : Node) (n : Nat) : Prop :=
  (node.ready true = true ∧ node.done true = true ∧ (node.step false true).At (n + 1) .idle) ∨
    (node.ready true = true ∧ node.done true = false ∧ (node.step false true).At n .readied) ∨
    (node.ready true = false ∧ (node.step false true).At n .busy)

/-- What a task does in one cycle, if its start is held until it is ready. -/
structure Node.Obeys (node : Node) (n : Nat) : Prop where
  rests : node.At n .idle → (node.step false false).At n .idle
  starts : node.At n .idle → node.Proceeds n
  goes_on : node.At n .busy → node.Proceeds n
  finishes : node.At n .readied →
    (node.done false = true ∧ (node.step false false).At (n + 1) .idle) ∨
      (node.done false = false ∧ (node.step false false).At n .readied)

/-- What the children of a task do in one cycle. -/
structure Children.Obey (children : Children) (n : Nat) : Prop where
  rest : children.At n .IDLE → (children.step false false false).At n .IDLE
  start : children.At n .IDLE → (children.step false true false).At n .RUNNING
  run : ∀ start_q, children.At n .RUNNING → (children.step false start_q false).At n .RUNNING
  hold : ∀ start_q, children.At n .DONE → (children.step false start_q false).At n .DONE
  release : ∀ start_q, children.At n .DONE → (children.step false start_q true).At (n + 1) .IDLE

theorem Leaf.proceeds {l : Leaf} {n : Nat} (h : l.At n .idle ∨ l.At n .busy) :
    (Node.leaf l).Proceeds n := by
  have hstarted : l.starts + (!l.started).toNat = n + 1 := by
    rcases h with h | h <;> rw [h.starts, h.started] <;> rfl
  have hout : l.outstanding = 0 := by
    rcases h with h | h <;> exact h.outstanding
  have hdones : l.dones = n := by
    rcases h with h | h <;> exact h.dones
  unfold Node.Proceeds
  cases hready : (l.schedule l.time).1 with
  | false =>
    refine .inr (.inr ⟨by simp [Node.ready, Leaf.ready, hready], ?_⟩)
    constructor <;>
      simp [Leaf.step, Leaf.pending, Leaf.done, Leaf.ready, hready, hout, hdones, hstarted]
  | true =>
    cases hdone : (l.schedule l.time).2 with
    | true =>
      refine .inl ⟨by simp [Node.ready, Leaf.ready, hready],
        by simp [Node.done, Leaf.done, Leaf.pending, Leaf.ready, hready, hdone], ?_⟩
      constructor <;>
        simp [Leaf.step, Leaf.pending, Leaf.done, Leaf.ready, hready, hdone, hout, hdones, hstarted]
    | false =>
      refine .inr (.inl ⟨by simp [Node.ready, Leaf.ready, hready],
        by simp [Node.done, Leaf.done, hdone], ?_⟩)
      constructor <;>
        simp [Leaf.step, Leaf.pending, Leaf.done, Leaf.ready, hready, hdone, hout, hdones, hstarted]

theorem Leaf.At.pending_pos {l : Leaf} {n : Nat} (h : l.At n .readied) : 0 < l.pending false := by
  unfold Leaf.pending
  rw [h.outstanding]
  exact Nat.add_pos_left Nat.one_pos _

theorem Leaf.obeys (l : Leaf) (n : Nat) : (Node.leaf l).Obeys n where
  rests := by
    intro h
    obtain ⟨h1, h2, h3, h4⟩ := h
    constructor <;> simp_all [Leaf.step, Leaf.pending, Leaf.done, Leaf.ready]
  starts := fun h => Leaf.proceeds (.inl h)
  goes_on := fun h => Leaf.proceeds (.inr h)
  finishes := by
    intro h
    have hpending := h.pending_pos
    obtain ⟨h1, h2, h3, h4⟩ := h
    cases hdone : (l.schedule l.time).2 with
    | true =>
      refine .inl ⟨by simp [Node.done, Leaf.done, hpending, hdone], ?_⟩
      constructor <;> simp_all [Leaf.step, Leaf.pending, Leaf.done, Leaf.ready]
    | false =>
      refine .inr ⟨by simp_all [Node.done, Leaf.done], ?_⟩
      constructor <;> simp_all [Leaf.step, Leaf.pending, Leaf.done, Leaf.ready]

/-- When every joined child is done, so are the children of a running task. -/
theorem Children.done_of_all_done (children : Children) {n : Nat} (h : children.At n .RUNNING)
    (hdone : children.all_done = true) : children.At n .DONE := by
  match children with
  | .nil => trivial
  | .joined state child rest =>
    obtain ⟨hchild, hrest⟩ := h
    rw [Children.all_done, Bool.and_eq_true] at hdone
    refine ⟨?_, Children.done_of_all_done rest hrest hdone.2⟩
    have hstate : state = .DONE := by simpa [generate_is_done_assign] using hdone.1
    subst hstate
    rcases hchild with ⟨hs, _⟩ | ⟨hs, _⟩ | hchild
    · cases hs
    · cases hs
    · exact hchild
  | .autorun start child rest => exact Children.done_of_all_done rest h hdone

mutual

/-- Every task obeys the handshake: a leaf by assumption, an upper task by its children. -/
theorem Node.obeys (node : Node) (n : Nat) : node.Obeys n := by
  match node with
  | .leaf l => exact Leaf.obeys l n
  | .upper state children =>
    have hch := Children.obey children n
    refine ⟨?_, ?_, ?_, fun h => h.elim⟩
    · rintro ⟨rfl, h⟩
      exact ⟨rfl, hch.rest h⟩
    · rintro ⟨rfl, h⟩
      exact .inr (.inr ⟨rfl, GlobalState.noConfusion, hch.start h⟩)
    · rintro ⟨hne, h⟩
      cases state with
      | IDLE => exact absurd rfl hne
      | RUNNING =>
        refine .inr (.inr ⟨rfl, ?_⟩)
        unfold Node.step apply_global_fsm
        cases hdone : children.all_done with
        | true =>
          exact ⟨GlobalState.noConfusion, hch.hold true (children.done_of_all_done h hdone)⟩
        | false => exact ⟨GlobalState.noConfusion, hch.run true h⟩
      | DONE => exact .inl ⟨rfl, rfl, rfl, hch.release true h⟩

theorem Children.obey (children : Children) (n : Nat) : children.Obey n := by
  match children with
  | .nil => exact ⟨fun _ => trivial, fun _ => trivial, fun _ _ => trivial, fun _ _ => trivial,
      fun _ _ => trivial⟩
  | .autorun start child rest =>
    have hrest := Children.obey rest n
    exact ⟨hrest.rest, hrest.start, hrest.run, hrest.hold, hrest.release⟩
  | .joined state child rest =>
    have hrest := Children.obey rest n
    have hnow := Node.obeys child n
    have hnext := Node.obeys child (n + 1)
    refine ⟨?_, ?_, ?_, ?_, ?_⟩
    · rintro ⟨⟨rfl, h⟩, hr⟩
      exact ⟨⟨rfl, hnow.rests h⟩, hrest.rest hr⟩
    · rintro ⟨⟨rfl, h⟩, hr⟩
      exact ⟨.inl ⟨rfl, .inl (hnow.rests h)⟩, hrest.start hr⟩
    · rintro start_q ⟨h, hr⟩
      refine ⟨?_, hrest.run start_q hr⟩
      rcases h with ⟨rfl, h⟩ | ⟨rfl, h⟩ | ⟨rfl, h⟩
      · -- The start is held, and the child goes on to one of three places.
        have hproceeds : child.Proceeds n := h.elim hnow.starts hnow.goes_on
        rcases hproceeds with ⟨hr, hd, hat⟩ | ⟨hr, hd, hat⟩ | ⟨hr, hat⟩
        · exact .inr (.inr ⟨by simp [generate_child_fsm, generate_start_assign, hr, hd], hat⟩)
        · exact .inr (.inl ⟨by simp [generate_child_fsm, generate_start_assign, hr, hd], hat⟩)
        · exact .inl ⟨by simp [generate_child_fsm, generate_start_assign, hr], .inr hat⟩
      · rcases hnow.finishes h with ⟨hd, hat⟩ | ⟨hd, hat⟩
        · exact .inr (.inr ⟨by simp [generate_child_fsm, generate_start_assign, hd], hat⟩)
        · exact .inr (.inl ⟨by simp [generate_child_fsm, generate_start_assign, hd], hat⟩)
      · exact .inr (.inr ⟨rfl, hnext.rests h⟩)
    · rintro start_q ⟨⟨rfl, h⟩, hr⟩
      exact ⟨⟨rfl, hnext.rests h⟩, hrest.hold start_q hr⟩
    · rintro start_q ⟨⟨rfl, h⟩, hr⟩
      exact ⟨⟨rfl, hnext.rests h⟩, hrest.release start_q hr⟩

end

mutual

/-- A reset takes every task back to the start. -/
theorem Node.reset (node : Node) (ap_start : Bool) : (node.step true ap_start).At 0 .idle := by
  match node with
  | .leaf l => exact ⟨rfl, rfl, rfl, rfl⟩
  | .upper state children => exact ⟨rfl, Children.reset children ap_start _⟩

theorem Children.reset (children : Children) (start_q done_q : Bool) :
    (children.step true start_q done_q).At 0 .IDLE := by
  match children with
  | .nil => trivial
  | .joined state child rest =>
    exact ⟨⟨rfl, Node.reset child _⟩, Children.reset rest start_q done_q⟩
  | .autorun start child rest => exact Children.reset rest start_q done_q

end

end Tapa.Hier
