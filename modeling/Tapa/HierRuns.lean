-- Runs of a hierarchy of tasks: the starts that the top accepts and the ends that it
-- signals, counted beside the starts and ends of the leaves, over every trace of starts
-- and resets.
import Tapa.Clock
import Tapa.HierControl

namespace Tapa.Hier

open Clock

/-! ## Runs -/

/-- The top task with the starts it has accepted and the cycles in which it has signalled
`ap_done` and `ap_ready`, since the last reset. -/
structure Top where
  state : GlobalState
  children : Children
  accepted : Nat
  pulses : Nat

namespace Top

def ap_done (top : Top) : Bool := (Node.upper top.state top.children).done false

def ap_ready (top : Top) : Bool := (Node.upper top.state top.children).ready false

/-- One cycle with `ap_rst` and `ap_start` as given. -/
def step (top : Top) (input : Bool × Bool) : Top where
  state := apply_global_fsm input.1 input.2 top.children.all_done top.state
  children := top.children.step input.1 input.2 (decide (top.state = .DONE))
  accepted :=
    if input.1 then 0 else top.accepted + (decide (top.state = .IDLE) && input.2).toNat
  pulses := if input.1 then 0 else top.pulses + top.ap_done.toNat

end Top

/-! ## Counts -/

/-- The accepted starts and the signalled ends of a top whose tasks have finished `n`
invocations. -/
structure Top.At (top : Top) (n : Nat) : Prop where
  children : top.children.At n top.state
  accepted : top.accepted = n + (decide (top.state ≠ .IDLE)).toNat
  pulses : top.pulses = n

variable {top : Top} {n : Nat}

theorem Top.at_step (h : top.At n) (input : Bool × Bool) :
    ∃ n, (top.step input).At n := by
  obtain ⟨state, children, accepted, pulses⟩ := top
  obtain ⟨hch, hacc, hpul⟩ := h
  obtain ⟨rst, start⟩ := input
  have hobey := Children.obey children n
  cases rst with
  | true => exact ⟨0, Children.reset children start _, rfl, rfl⟩
  | false =>
    cases state with
    | IDLE =>
      cases start with
      | true => exact ⟨n, hobey.start hch, by rw [Top.step, hacc]; rfl, by rw [Top.step, hpul]; rfl⟩
      | false => exact ⟨n, hobey.rest hch, by rw [Top.step, hacc]; rfl, by rw [Top.step, hpul]; rfl⟩
    | RUNNING =>
      refine ⟨n, ?_, ?_, by rw [Top.step, hpul]; rfl⟩
      · unfold Top.step apply_global_fsm
        cases hdone : children.all_done with
        | true => exact hobey.hold start (children.done_of_all_done hch hdone)
        | false => exact hobey.run start hch
      · unfold Top.step apply_global_fsm
        cases hdone : children.all_done <;> exact hacc
    | DONE =>
      exact ⟨n + 1, hobey.release start hch, hacc, by rw [Top.step, hpul]; rfl⟩

theorem Top.at_run (h : top.At n) (inputs : Nat → Bool × Bool) (t : Nat) :
    ∃ n, (run Top.step top inputs t).At n := by
  induction t with
  | zero => exact ⟨n, h⟩
  | succ t ih =>
    obtain ⟨m, hm⟩ := ih
    exact Top.at_step hm (inputs t)

/-- The starts and ends of a leaf are between two numbers. -/
structure Leaf.Between (l : Leaf) (low high : Nat) : Prop where
  low : low ≤ l.dones
  ordered : l.dones ≤ l.starts
  high : l.starts ≤ high

variable {l : Leaf}

theorem Leaf.Between.exactly (h : l.Between n n) :
    l.starts = n ∧ l.dones = n := by
  obtain ⟨h1, h2, h3⟩ := h
  omega

mutual

/-- A task between invocations has started and ended every joined leaf as often as itself;
within one, a leaf can be one ahead. -/
theorem Node.leaves_between (node : Node) {n : Nat} {phase : Phase} (h : node.At n phase) :
    ∀ l ∈ node.joined_leaves, l.Between n (n + (decide (phase ≠ .idle)).toNat) := by
  match node, phase with
  | .leaf l, phase =>
    intro l' hl'
    obtain rfl := List.mem_singleton.mp hl'
    exact ⟨Nat.le_of_eq h.dones.symm, by rw [h.dones, h.starts]; exact Nat.le_add_right n _,
      Nat.le_of_eq h.starts⟩
  | .upper state children, .idle =>
    intro l hl
    obtain ⟨_, hch⟩ := h
    exact Children.leaves_between children hch l hl
  | .upper state children, .busy =>
    intro l hl
    obtain ⟨hne, hch⟩ := h
    have hl := Children.leaves_between children hch l hl
    rw [decide_eq_true hne] at hl
    exact ⟨Nat.le_trans (Nat.le_add_right n _) hl.low, hl.ordered, hl.high⟩
  | .upper state children, .readied => exact h.elim

theorem Children.leaves_between (children : Children) {n : Nat} {state : GlobalState}
    (h : children.At n state) : ∀ l ∈ children.joined_leaves,
      l.Between (n + (decide (state = .DONE)).toNat) (n + (decide (state ≠ .IDLE)).toNat) := by
  match children, state with
  | .nil, state =>
    intro l hl
    cases hl
  | .autorun start child rest, state => exact Children.leaves_between rest h
  | .joined s child rest, .IDLE | .joined s child rest, .DONE =>
    obtain ⟨⟨_, hchild⟩, hrest⟩ := h
    intro l hl
    exact (List.mem_append.mp hl).elim (Node.leaves_between child hchild l)
      (Children.leaves_between rest hrest l)
  | .joined s child rest, .RUNNING =>
    obtain ⟨hchild, hrest⟩ := h
    intro l hl
    refine (List.mem_append.mp hl).elim (fun hl => ?_) (Children.leaves_between rest hrest l)
    rcases hchild with ⟨_, hchild | hchild⟩ | ⟨_, hchild⟩ | ⟨_, hchild⟩
    · have hl := Node.leaves_between child hchild l hl
      exact ⟨hl.low, hl.ordered, Nat.le_succ_of_le hl.high⟩
    · exact Node.leaves_between child hchild l hl
    · exact Node.leaves_between child hchild l hl
    · have hl := Node.leaves_between child hchild l hl
      exact ⟨Nat.le_of_succ_le hl.low, hl.ordered, hl.high⟩

end

/-- Every start that the top has accepted has started and ended each joined leaf once and
was signalled once, but for one start that is still under way. -/
structure Top.EachStartOnce (top : Top) : Prop where
  ready : top.ap_ready = top.ap_done
  idle : top.state = .IDLE → top.pulses = top.accepted ∧
    ∀ l ∈ top.children.joined_leaves, l.starts = top.accepted ∧ l.dones = top.accepted
  running : top.state = .RUNNING → top.pulses + 1 = top.accepted ∧
    ∀ l ∈ top.children.joined_leaves,
      top.pulses ≤ l.dones ∧ l.dones ≤ l.starts ∧ l.starts ≤ top.accepted
  done : top.ap_done = true → top.pulses + 1 = top.accepted ∧
    ∀ l ∈ top.children.joined_leaves, l.starts = top.accepted ∧ l.dones = top.accepted

theorem Top.At.eachStartOnce (h : top.At n) : top.EachStartOnce := by
  obtain ⟨state, children, accepted, pulses⟩ := top
  obtain ⟨hch, hacc, hpul⟩ := h
  subst hpul
  have hleaves := children.leaves_between hch
  refine ⟨rfl, ?_, ?_, ?_⟩
  · rintro rfl
    obtain rfl : accepted = pulses := hacc
    exact ⟨rfl, fun l hl => (hleaves l hl).exactly⟩
  · rintro rfl
    obtain rfl : accepted = pulses + 1 := hacc
    exact ⟨rfl, fun l hl => ⟨(hleaves l hl).low, (hleaves l hl).ordered, (hleaves l hl).high⟩⟩
  · intro hdone
    obtain rfl : state = .DONE := of_decide_eq_true hdone
    obtain rfl : accepted = pulses + 1 := hacc
    exact ⟨rfl, fun l hl => (hleaves l hl).exactly⟩

/-! ## Shapes -/

mutual

/-- The levels of joined tasks below a task. -/
def Node.height : Node → Nat
  | .leaf _ => 0
  | .upper _ children => children.height + 1

def Children.height : Children → Nat
  | .nil => 0
  | .joined _ child rest => max child.height rest.height
  | .autorun _ _ rest => rest.height

end

mutual

@[simp] theorem Node.height_step (node : Node) (ap_rst ap_start : Bool) :
    (node.step ap_rst ap_start).height = node.height := by
  match node with
  | .leaf l => rfl
  | .upper state children =>
    rw [Node.step, Node.height, Node.height, Children.height_step children]

@[simp] theorem Children.height_step (children : Children) (ap_rst start_q done_q : Bool) :
    (children.step ap_rst start_q done_q).height = children.height := by
  match children with
  | .nil => rfl
  | .joined state child rest =>
    rw [Children.step, Children.height, Children.height, Node.height_step child,
      Children.height_step rest]
  | .autorun start child rest => exact Children.height_step rest ap_rst start_q done_q

end

theorem Leaf.schedule_step (l : Leaf) (ap_rst ap_start : Bool) :
    (l.step ap_rst ap_start).schedule = l.schedule := by
  cases ap_rst <;> rfl

theorem Leaf.time_step (l : Leaf) (ap_rst ap_start : Bool) :
    (l.step ap_rst ap_start).time = l.time + 1 := by
  cases ap_rst <;> rfl

mutual

theorem Node.schedules_step (node : Node) (ap_rst ap_start : Bool) :
    (node.step ap_rst ap_start).joined_leaves.map Leaf.schedule =
      node.joined_leaves.map Leaf.schedule := by
  match node with
  | .leaf l => exact congrArg (fun s => [s]) (l.schedule_step ap_rst ap_start)
  | .upper state children => exact Children.schedules_step children ap_rst ap_start _

theorem Children.schedules_step (children : Children) (ap_rst start_q done_q : Bool) :
    (children.step ap_rst start_q done_q).joined_leaves.map Leaf.schedule =
      children.joined_leaves.map Leaf.schedule := by
  match children with
  | .nil => rfl
  | .joined state child rest =>
    rw [Children.step, Children.joined_leaves, Children.joined_leaves, List.map_append,
      List.map_append, Node.schedules_step child, Children.schedules_step rest]
  | .autorun start child rest => exact Children.schedules_step rest ap_rst start_q done_q

end

/-! ## Ends -/

/-- A leaf of finite latency: it can always still become ready, and always still finish. -/
def Fair (schedule : Nat → Bool × Bool) : Prop :=
  ∀ t, (∃ u, t ≤ u ∧ (schedule u).1 = true) ∧ ∃ u, t ≤ u ∧ (schedule u).2 = true

def Node.Fair (node : Node) : Prop := ∀ s ∈ node.joined_leaves.map Leaf.schedule, Hier.Fair s

def Children.Fair (children : Children) : Prop :=
  ∀ s ∈ children.joined_leaves.map Leaf.schedule, Hier.Fair s

theorem Node.Fair.step {node : Node} (h : node.Fair) (ap_rst ap_start : Bool) :
    (node.step ap_rst ap_start).Fair := by
  unfold Node.Fair
  rw [Node.schedules_step]
  exact h

variable {children : Children}

theorem Children.Fair.step (h : children.Fair) (ap_rst start_q done_q : Bool) :
    (children.step ap_rst start_q done_q).Fair := by
  unfold Children.Fair
  rw [Children.schedules_step]
  exact h

variable {child : Node} {rest : Children}

theorem Children.Fair.joined {state : ChildState} (h : (Children.joined state child rest).Fair) :
    child.Fair ∧ rest.Fair := by
  unfold Children.Fair at h
  rw [Children.joined_leaves, List.map_append, List.forall_mem_append] at h
  exact h

/-- With its start held, the task must become ready. -/
def Node.Readies : Node → Prop :=
  Inevitable (fun node start => node.step false start) (· = true)
    (fun node => node.ready true = true)

/-- Without a start, the task must finish what it was ready with. -/
def Node.Finishes : Node → Prop :=
  Inevitable (fun node start => node.step false start) (· = false)
    (fun node => node.done false = true)

/-- All joined children must become done. -/
def Children.End : Children → Prop :=
  Inevitable (fun children start_q => children.step false start_q false) (fun _ => True)
    (fun children => children.all_done = true)

theorem Leaf.readies (h : Hier.Fair l.schedule) : (Node.leaf l).Readies := by
  obtain ⟨u, hu, hready⟩ := (h l.time).1
  obtain ⟨k, rfl⟩ := Nat.exists_eq_add_of_le hu
  clear h hu
  induction k generalizing l with
  | zero => exact .now (by simpa [Node.ready, Leaf.ready] using hready)
  | succ k ih =>
    refine .later (fun start _ => ih ?_)
    rw [l.time_step]
    rwa [Nat.add_assoc, Nat.add_comm 1]

theorem Leaf.finishes (h : Hier.Fair l.schedule) (hat : l.At n .readied) :
    (Node.leaf l).Finishes := by
  obtain ⟨u, hu, hdone⟩ := (h l.time).2
  obtain ⟨k, rfl⟩ := Nat.exists_eq_add_of_le hu
  clear h hu
  induction k generalizing l with
  | zero =>
    refine .now ?_
    rcases (Leaf.obeys l n).finishes hat with ⟨hd, _⟩ | ⟨hd, _⟩
    · exact hd
    · simpa [Node.done, Leaf.done, hat.pending_pos] using hdone
  | succ k ih =>
    rcases (Leaf.obeys l n).finishes hat with ⟨hd, _⟩ | ⟨_, hat'⟩
    · exact .now hd
    refine .later (fun start hstart => ?_)
    subst hstart
    refine ih hat' ?_
    rw [l.time_step]
    rwa [Nat.add_assoc, Nat.add_comm 1]

theorem Children.all_done_of_done (children : Children) (h : children.At n .DONE) :
    children.all_done = true := by
  match children with
  | .nil => rfl
  | .joined state child rest =>
    obtain ⟨⟨rfl, _⟩, hrest⟩ := h
    exact Children.all_done_of_done rest hrest
  | .autorun start child rest => exact Children.all_done_of_done rest h

theorem Children.End.step (h : children.End) (hat : children.At n .RUNNING) (start_q : Bool) :
    (children.step false start_q false).End := by
  refine Inevitable.step h trivial (fun hdone => ?_)
  have hheld := (children.obey n).hold start_q (children.done_of_all_done hat hdone)
  exact Children.all_done_of_done _ hheld

theorem Children.End.autorun (h : rest.End) (start : Bool) (child : Node) :
    (Children.autorun start child rest).End := by
  induction h generalizing start child with
  | now h => exact .now h
  | later _ ih => exact .later (fun start_q _ => ih start_q trivial _ _)

theorem Children.End.joined_done (h : rest.End) (child : Node) :
    (Children.joined .DONE child rest).End := by
  induction h generalizing child with
  | now h => exact .now h
  | later _ ih => exact .later (fun start_q _ => ih start_q trivial _)

section

variable (child : Node) (rest : Children) (start_q : Bool)

theorem Children.step_waiting : (Children.joined .WAITING child rest).step false start_q false =
    .joined (if child.done false then .DONE else .WAITING) (child.step false false)
      (rest.step false start_q false) := rfl

theorem Children.step_running : (Children.joined .RUNNING child rest).step false start_q false =
    .joined (if child.ready true && child.done true then .DONE
      else if child.ready true then .WAITING else .RUNNING) (child.step false true)
      (rest.step false start_q false) := rfl

end

/-- A child that was ready ends, whatever the others do. -/
theorem Children.End.joined_waiting (hchild : child.Finishes) (h : rest.End)
    (hat : rest.At n .RUNNING) :
    (Children.joined .WAITING child rest).End := by
  induction hchild using Inevitable.first generalizing rest with
  | now child hdone =>
    refine .later (fun start_q _ => ?_)
    rw [Children.step_waiting, hdone]
    exact (h.step hat start_q).joined_done _
  | later child _ hdone ih =>
    refine .later (fun start_q _ => ?_)
    rw [Children.step_waiting, eq_false_of_ne_true hdone]
    exact ih false rfl (h.step hat start_q) ((rest.obey n).run start_q hat)

/-- The handshake ends for every joined task up to a height. -/
def EndUpTo (height : Nat) : Prop :=
  ∀ node : Node, node.height ≤ height → node.Fair → ∀ n,
    (node.At n .idle ∨ node.At n .busy → node.Readies) ∧ (node.At n .readied → node.Finishes)

variable {height : Nat}

/-- A child that was started ends, whatever the others do. -/
theorem Children.End.joined_running (hall : EndUpTo height) (hreadies : child.Readies)
    (hheight : child.height ≤ height) (hfair : child.Fair)
    (hchild : child.At n .idle ∨ child.At n .busy) (h : rest.End) (hat : rest.At n .RUNNING) :
    (Children.joined .RUNNING child rest).End := by
  induction hreadies using Inevitable.first generalizing rest with
  | now child hready =>
    refine .later (fun start_q _ => ?_)
    rw [Children.step_running, hready]
    rcases hchild.elim (child.obeys n).starts (child.obeys n).goes_on with
      ⟨_, hdone, _⟩ | ⟨_, hdone, hreadied⟩ | ⟨hnot, _⟩
    · rw [hdone]
      exact (h.step hat start_q).joined_done _
    · rw [hdone]
      refine Children.End.joined_waiting ?_ (h.step hat start_q) ((rest.obey n).run start_q hat)
      exact (hall _ (by rwa [Node.height_step]) (hfair.step false true) n).2 hreadied
    · cases hnot.symm.trans hready
  | later child _ hready ih =>
    have hbusy : (child.step false true).At n .busy := by
      rcases hchild.elim (child.obeys n).starts (child.obeys n).goes_on with
        ⟨hr, _⟩ | ⟨hr, _⟩ | ⟨_, hbusy⟩
      · exact absurd hr hready
      · exact absurd hr hready
      · exact hbusy
    refine .later (fun start_q _ => ?_)
    rw [Children.step_running, eq_false_of_ne_true hready]
    exact ih true rfl (by rwa [Node.height_step]) (hfair.step false true) (.inr hbusy)
      (h.step hat start_q) ((rest.obey n).run start_q hat)

theorem Children.ends (hall : EndUpTo height) (children : Children)
    (hheight : children.height ≤ height) (hfair : children.Fair) (hat : children.At n .RUNNING) :
    children.End := by
  match children with
  | .nil => exact .now rfl
  | .autorun start child rest =>
    have hrest : rest.End := Children.ends hall rest hheight hfair hat
    exact hrest.autorun start child
  | .joined state child rest =>
    obtain ⟨hchild, hrestAt⟩ := hat
    obtain ⟨hfairChild, hfairRest⟩ := hfair.joined
    obtain ⟨hheightChild, hheightRest⟩ := Nat.max_le.mp hheight
    have hrest : rest.End := Children.ends hall rest hheightRest hfairRest hrestAt
    have hchildEnds := hall child hheightChild hfairChild n
    rcases hchild with ⟨rfl, hchild⟩ | ⟨rfl, hchild⟩ | ⟨rfl, hchild⟩
    · exact .joined_running hall (hchildEnds.1 hchild) hheightChild hfairChild hchild hrest hrestAt
    · exact .joined_waiting (hchildEnds.2 hchild) hrest hrestAt
    · exact hrest.joined_done child

/-- A running task whose children must end becomes ready. -/
theorem Node.Readies.running (h : children.End) :
    (Node.upper .RUNNING children).Readies := by
  induction h using Inevitable.first with
  | now children hcs =>
    refine .later (fun start _ => .now ?_)
    rw [Node.step, hcs]
    rfl
  | later children _ hcs ih =>
    refine .later (fun start _ => ?_)
    rw [Node.step, eq_false_of_ne_true hcs]
    exact ih start trivial

/-- By induction on the height: a task of any height is as live as a leaf. -/
theorem ends_up_to (height : Nat) : EndUpTo height := by
  intro node hheight hfair n
  match node, height with
  | .leaf l, _ =>
    have hl : Hier.Fair l.schedule := hfair l.schedule List.mem_cons_self
    exact ⟨fun _ => Leaf.readies hl, fun h => Leaf.finishes hl h⟩
  | .upper state children, height + 1 =>
    have ih := ends_up_to height
    have hch : children.height ≤ height := Nat.le_of_succ_le_succ hheight
    refine ⟨?_, fun h => h.elim⟩
    rintro (⟨rfl, h⟩ | ⟨hne, h⟩)
    · refine .later (fun start hstart => ?_)
      subst hstart
      have hfair' := Children.Fair.step hfair false true false
      refine Node.Readies.running (Children.ends ih _ ?_ hfair' ((children.obey n).start h))
      rwa [Children.height_step]
    · cases state with
      | IDLE => exact absurd rfl hne
      | RUNNING => exact .running (children.ends ih hch hfair h)
      | DONE => exact .now rfl

/-- A running top whose children must end comes to signal the end of the start that it
has accepted. -/
theorem Top.ends_running (h : children.End) (accepted pulses : Nat) :
    Inevitable Top.step (fun input => input.1 = false)
      (fun top => top.ap_done = true ∧ top.accepted = accepted)
      ⟨.RUNNING, children, accepted, pulses⟩ := by
  induction h using Inevitable.first with
  | now children hcs =>
    refine .later ?_
    rintro ⟨rst, start⟩ rfl
    refine .now ?_
    rw [Top.step, hcs]
    exact ⟨rfl, rfl⟩
  | later children _ hcs ih =>
    refine .later ?_
    rintro ⟨rst, start⟩ rfl
    rw [Top.step, eq_false_of_ne_true hcs]
    exact ih start trivial

theorem Top.ends_start (h : top.At n) (hidle : top.state = .IDLE) (hfair : top.children.Fair) :
    Inevitable Top.step (fun input => input.1 = false)
      (fun later => later.ap_done = true ∧ later.accepted = top.accepted + 1)
      (top.step (false, true)) := by
  obtain ⟨state, children, accepted, pulses⟩ := top
  obtain rfl : state = .IDLE := hidle
  have hrunning := (children.obey n).start h.children
  exact Top.ends_running (Children.ends (ends_up_to _) _ (Nat.le_refl _)
    (hfair.step false true false) hrunning) (accepted + 1) pulses

theorem Top.fair_run (h : top.children.Fair) (inputs : Nat → Bool × Bool) (t : Nat) :
    (run Top.step top inputs t).children.Fair := by
  induction t with
  | zero => exact h
  | succ t ih =>
    exact ih.step _ _ _

/-- From a reset on, whatever is started and reset, each start that the top accepts starts
each joined leaf once, and the top signals its end once, when all of them have ended. With
leaves of finite latency and no further reset it does signal it. -/
theorem each_start_runs_every_leaf_once (top : Top) (start : Bool) (inputs : Nat → Bool × Bool) :
    (∀ t, (run Top.step (top.step (true, start)) inputs t).EachStartOnce) ∧
      (top.children.Fair → ∀ t,
        (run Top.step (top.step (true, start)) inputs t).state = .IDLE →
        (inputs t).2 = true → (∀ u, t ≤ u → (inputs u).1 = false) →
        ∃ u, t < u ∧ (run Top.step (top.step (true, start)) inputs u).ap_done = true ∧
          (run Top.step (top.step (true, start)) inputs u).accepted =
            (run Top.step (top.step (true, start)) inputs t).accepted + 1) := by
  have hreset : (top.step (true, start)).At 0 :=
    ⟨Children.reset top.children start _, rfl, rfl⟩
  refine ⟨fun t => ?_, ?_⟩
  · obtain ⟨n, hn⟩ := Top.at_run hreset inputs t
    exact hn.eachStartOnce
  · intro hfair t hidle hstart hlive
    obtain ⟨n, hn⟩ := Top.at_run hreset inputs t
    have hfair' : (top.step (true, start)).children.Fair := hfair.step _ _ _
    have hends := Top.ends_start hn hidle (Top.fair_run hfair' inputs t)
    have hinput : inputs t = (false, true) := Prod.ext (hlive t (Nat.le_refl t)) hstart
    rw [← hinput] at hends
    exact hends.comes (fun u hu => hlive u (Nat.le_of_succ_le hu))

/-- A top over an upper task over a leaf that takes one cycle, started in every cycle. -/
theorem a_nested_leaf_is_run :
    ∃ u, 0 < u ∧ (run Top.step (Top.step ⟨.DONE, .joined .IDLE (.upper .RUNNING (.joined .WAITING
      (.leaf ⟨fun _ => (true, true), 0, false, 0, 0, 0⟩) .nil)) .nil, 0, 0⟩ (true, false))
      (fun _ => (false, true)) u).ap_done = true := by
  have hfair : Hier.Fair (fun _ => (true, true)) :=
    fun t => ⟨⟨t, Nat.le_refl t, rfl⟩, t, Nat.le_refl t, rfl⟩
  obtain ⟨u, hu, hdone, _⟩ := (each_start_runs_every_leaf_once
    ⟨.DONE, .joined .IDLE (.upper .RUNNING (.joined .WAITING
      (.leaf ⟨fun _ => (true, true), 0, false, 0, 0, 0⟩) .nil)) .nil, 0, 0⟩ false
    (fun _ => (false, true))).2 (fun s hs => by rwa [List.mem_singleton.mp hs]) 0 rfl rfl
    (fun _ _ => rfl)
  exact ⟨u, hu, hdone⟩

end Tapa.Hier
