-- The software side of a hybrid run (`task.cpp`). An invoke on the far side of a kernel
-- stream runs in software, and so does all that it reaches through other streams.
import Tapa.Text

namespace Tapa.Host

open Text List Relation

/-- A queue, by its address, with its name. -/
structure Queue where
  address : Nat
  name : Str
deriving DecidableEq

structure stream_use where
  queue : Queue
  task_reads : Bool

structure HostStream where
  name : Str
  index : Int
  kernel_reads : Bool

/-- The channel `a[2]` of an array is the argument `a_2`. -/
def KernelArgName (name : Str) : Str :=
  (name.map fun c => if c = '[' then '_' else c).filter (· ≠ ']')

/-- The streams of the instance, and the invokes that its top task makes. -/
structure Recording where
  streams : List HostStream
  bound_args : Int
  invokes : List (List stream_use)

namespace Recording

variable (r : Recording)

/-- The stream that the kernel has for a use, among those that the host does not bind. -/
def port (use : stream_use) : Option HostStream :=
  (r.streams.filter (·.index ≥ r.bound_args)).find? (·.name = KernelArgName use.queue.name)

/-- The invokes that read what the kernel writes, or write what it reads. -/
def far_side : Finset (Fin r.invokes.length) :=
  {i | r.invokes[i].any fun use => (r.port use).any fun p => use.task_reads ≠ p.kernel_reads}

variable (software : Finset (Fin r.invokes.length))

/-- The queues of the software side that are no streams of the kernel. -/
def reached : Finset Queue :=
  software.biUnion fun i =>
    ((r.invokes[i].filter fun use => (r.port use).isNone).map (·.queue)).toFinset

/-- One turn of the loop. -/
def spread : Finset (Fin r.invokes.length) :=
  software ∪ Finset.univ.filter fun i => r.invokes[i].any (·.queue ∈ r.reached software)

/-- The loop goes on while a turn changes something. -/
def closure (software : Finset (Fin r.invokes.length)) : Finset (Fin r.invokes.length) :=
  if r.spread software = software then software else closure (r.spread software)
termination_by softwareᶜ.card
decreasing_by
  refine Finset.card_lt_card (Finset.compl_ssubset_compl.mpr ?_)
  exact Finset.subset_union_left.ssubset_of_ne (Ne.symm ‹_›)

/-- The invokes that run in software. -/
def hybrid_run : Finset (Fin r.invokes.length) := r.closure r.far_side

/-- The second invoke has a queue of the first which is no stream of the kernel. -/
def Shares (i j : Fin r.invokes.length) : Prop :=
  ∃ use ∈ r.invokes[i], r.port use = none ∧ ∃ use' ∈ r.invokes[j], use'.queue = use.queue

variable {r software}

theorem mem_spread {j : Fin r.invokes.length} :
    j ∈ r.spread software ↔ j ∈ software ∨ ∃ i ∈ software, r.Shares i j := by
  unfold spread reached Shares
  simp only [Finset.mem_union, Finset.mem_filter, Finset.mem_univ, true_and, any_eq_true,
    decide_eq_true_eq, Finset.mem_biUnion, mem_toFinset, mem_map, mem_filter,
    Option.isNone_iff_eq_none]
  grind

theorem subset_closure : software ⊆ r.closure software := by
  fun_induction closure with
  | case1 software hfix => exact subset_rfl
  | case2 software hfix ih => exact Finset.subset_union_left.trans ih

theorem spread_closure : r.spread (r.closure software) = r.closure software := by
  fun_induction closure with
  | case1 software hfix => exact hfix
  | case2 software hfix ih => exact ih

/-- The loop gives what chains of shared queues lead to. -/
theorem mem_closure_iff {i : Fin r.invokes.length} :
    i ∈ r.closure software ↔ ∃ j ∈ software, ReflTransGen r.Shares j i := by
  constructor
  · -- a turn adds one queue to the chains of the turns before it
    fun_induction closure with
    | case1 software hfix => exact fun hi => ⟨i, hi, .refl⟩
    | case2 software hfix ih =>
      intro hi
      obtain ⟨j, hj, hchain⟩ := ih hi
      rcases mem_spread.mp hj with hj | ⟨k, hk, hkj⟩
      · exact ⟨j, hj, hchain⟩
      · exact ⟨k, hk, hchain.head hkj⟩
  · rintro ⟨j, hj, hchain⟩
    induction hchain with
    | refl => exact subset_closure hj
    | tail _ hshares ih =>
      rw [← spread_closure]
      exact mem_spread.mpr (.inr ⟨_, ih, hshares⟩)

/-- The loop ends, and an invoke runs in software just when a chain of shared queues leads
to it from the far side of the kernel. -/
theorem software_is_what_the_far_side_reaches (r : Recording) (i : Fin r.invokes.length) :
    i ∈ r.hybrid_run ↔ ∃ j ∈ r.far_side, ReflTransGen r.Shares j i :=
  mem_closure_iff

/-- The software side is the least set with the far side that shares no queue with the other
invokes, streams of the kernel apart. -/
theorem software_meets_the_rest_at_kernel_streams (r : Recording) :
    IsLeast {s | r.far_side ⊆ s ∧ ∀ i ∈ s, ∀ j ∉ s, ¬ r.Shares i j} r.hybrid_run := by
  refine ⟨⟨subset_closure, fun i hi j hj hij => hj ?_⟩, ?_⟩
  · obtain ⟨k, hk, hchain⟩ := mem_closure_iff.mp hi
    exact mem_closure_iff.mpr ⟨k, hk, hchain.tail hij⟩
  · rintro s ⟨hfar, hapart⟩ i hi
    obtain ⟨j, hj, hchain⟩ := mem_closure_iff.mp hi
    induction hchain with
    | refl => exact hfar hj
    | tail _ hshares ih =>
      by_contra hout
      exact hapart _ (ih (mem_closure_iff.mpr ⟨j, hj, ‹_›⟩)) _ hout hshares

end Recording

end Tapa.Host
