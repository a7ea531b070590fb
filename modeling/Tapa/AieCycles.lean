-- The kernels that keep the order of their accesses (`mark_cycles` of `aie.rs`): those
-- from which streams lead back to them, through other kernels or PL invocations.
import Tapa.AieConnectivity

namespace Tapa.AiEngine

open Ir Text Fallible List

/-! ## The search -/

section Search

variable {edges : List (Node × Node)} {start : Node} {fuel : Nat} {stack seen : List Node}

theorem mem_successors {a b : Node} : b ∈ successors edges a ↔ (a, b) ∈ edges := by
  simp [successors]

theorem search_sound (h : search edges start fuel stack seen = true) :
    ∃ node ∈ stack, Relation.ReflTransGen (fun a b => (a, b) ∈ edges) node start := by
  induction fuel generalizing stack seen with
  | zero => cases h
  | succ fuel ih =>
    cases stack with
    | nil => cases h
    | cons node stack =>
      unfold search at h
      split at h
      · rename_i heq
        exact ⟨node, by simp, heq ▸ .refl⟩
      split at h
      · obtain ⟨x, hx, hpath⟩ := ih h
        exact ⟨x, mem_cons_of_mem _ hx, hpath⟩
      obtain ⟨x, hx, hpath⟩ := ih h
      rcases mem_append.mp hx with hx | hx
      · exact ⟨node, by simp, .head (mem_successors.mp hx) hpath⟩
      · exact ⟨x, mem_cons_of_mem _ hx, hpath⟩

/-- The edges out of a node that is seen now are no longer open. -/
theorem countP_open_cons {node : Node} (h : node ∉ seen) :
    (edges.countP fun e => e.1 ∉ node :: seen) + (successors edges node).length =
      edges.countP fun e => e.1 ∉ seen := by
  rw [successors, length_map, ← countP_eq_length_filter]
  induction edges with
  | nil => rfl
  | cons e rest ih =>
    rw [countP_cons, countP_cons, countP_cons, ← ih]
    by_cases heq : e.1 = node
    · simp [heq, h]
      omega
    · simp [heq]
      omega

/-- A search that ends without the start leaves a set that no edge leaves. -/
theorem search_complete (hfuel : stack.length + (edges.countP fun e => e.1 ∉ seen) < fuel)
    (hstart : start ∉ seen) (hseen : ∀ e ∈ edges, e.1 ∈ seen → e.2 ∈ seen ∨ e.2 ∈ stack)
    (h : search edges start fuel stack seen = false) :
    ∃ all : List Node, stack ⊆ all ∧ start ∉ all ∧ seen ⊆ all ∧
      ∀ e ∈ edges, e.1 ∈ all → e.2 ∈ all := by
  induction fuel generalizing stack seen with
  | zero => omega
  | succ fuel ih =>
    cases stack with
    | nil => exact ⟨seen, by simp, hstart, fun _ hx => hx, by simpa using hseen⟩
    | cons node stack =>
      unfold search at h
      split at h
      · cases h
      rename_i hne
      split at h
      · rename_i hmem
        rw [length_cons] at hfuel
        obtain ⟨all, hsub, hrest⟩ := ih (by omega) hstart (fun e he hs => by
          rcases hseen e he hs with h | h
          · exact .inl h
          rcases mem_cons.mp h with h | h
          · exact .inl (h ▸ hmem)
          · exact .inr h) h
        exact ⟨all, cons_subset.mpr ⟨hrest.2.1 hmem, hsub⟩, hrest⟩
      · rename_i hmem
        have hless : (successors edges node ++ stack).length +
            (edges.countP fun e => e.1 ∉ node :: seen) < fuel := by
          rw [← countP_open_cons hmem, length_cons] at hfuel
          rw [length_append]
          omega
        obtain ⟨all, hsub, hnot, hall, hclosed⟩ := ih hless
          (by simp [Ne.symm hne, hstart]) (fun e he hs => by
            rcases mem_cons.mp hs with hs | hs
            · exact .inr (mem_append_left _ (mem_successors.mpr (hs ▸ he)))
            rcases hseen e he hs with h | h
            · exact .inl (mem_cons_of_mem _ h)
            rcases mem_cons.mp h with h | h
            · exact .inl (h ▸ mem_cons_self)
            · exact .inr (mem_append_right _ h)) h
        obtain ⟨hhead, htail⟩ := cons_subset.mp hall
        exact ⟨all, cons_subset.mpr ⟨hhead, (append_subset.mp hsub).2⟩, hnot, htail,
          hclosed⟩

theorem reaches_itself_iff : reaches_itself edges start = true ↔
    Relation.TransGen (fun a b => (a, b) ∈ edges) start start := by
  constructor
  · intro h
    obtain ⟨node, hnode, hpath⟩ := search_sound h
    exact .head' (mem_successors.mp hnode) hpath
  · intro hcycle
    by_contra h
    have hlen : (successors edges start).length ≤ edges.length := by
      rw [successors, length_map]
      exact length_filter_le _ edges
    have hopen : (edges.countP fun e => e.1 ∉ ([] : List Node)) ≤ edges.length :=
      countP_le_length
    obtain ⟨all, hsub, hnot, -, hclosed⟩ := search_complete (by omega) (by simp) (by simp)
      (Bool.eq_false_iff.mpr h)
    -- All that the start leads to is in the set, and so would be the start.
    have hall : ∀ node, Relation.TransGen (fun a b => (a, b) ∈ edges) start node →
        node ∈ all := by
      intro node hpath
      induction hpath with
      | single hstep => exact hsub (mem_successors.mpr hstep)
      | tail _ hstep ih => exact hclosed _ hstep ih
    exact hnot (hall start hcycle)

end Search

/-! ## The streams -/

namespace AiePartition

variable (p : AiePartition)

/-- A kernel at an end of a stream. -/
def HasEnd (input : Bool) (stream i : Nat) : Prop :=
  ∃ k ∈ p.kernels[i]?, k.holds input stream = true

instance (input : Bool) (stream i : Nat) : Decidable (p.HasEnd input stream i) := by
  unfold HasEnd
  infer_instance

/-- A stream leads from a kernel to a kernel. -/
def KernelStream (i j : Nat) : Prop :=
  ∃ index < p.streams.length, p.HasEnd false index i ∧ p.HasEnd true index j

instance (i j : Nat) : Decidable (p.KernelStream i j) := by
  unfold KernelStream
  infer_instance

/-- No stream has two kernels at one end. -/
def SingleEnds : Prop :=
  ∀ input stream i j, p.HasEnd input stream i → p.HasEnd input stream j → i = j

/-- The end of a stream: each kernel there, or else the PL invocation at that end of the
top's FIFO. -/
inductive End (g : Graph) (endpoint : Option EndpointRef) (input : Bool) (index : Nat) :
    Node → Prop
  | kernel {i : Nat} (h : p.HasEnd input index i) : End g endpoint input index (.Kernel i)
  | pl {node : Node} (h : ∀ i, ¬p.HasEnd input index i) (hpl : pl_node g endpoint = some node) :
      End g endpoint input index node

/-- A stream leads from its producer to its consumer. So does a FIFO of the top between PL
invocations. -/
inductive Flows (g : Graph) (top : Task) (a b : Node) : Prop
  | stream {index : Nat} {stream : AieStream} (at_index : p.streams[index]? = some stream)
      (producer : p.End g ((top.fifos[stream.fifo]?).bind (·.produced_by)) false index a)
      (consumer : p.End g ((top.fifos[stream.fifo]?).bind (·.consumed_by)) true index b)
  | fifo {name : Str} {fifo : InterconnectDefinition} (declared : top.fifos[name]? = some fifo)
      (producer : pl_node g fifo.produced_by = some a)
      (consumer : pl_node g fifo.consumed_by = some b)

end AiePartition

section Streams

variable {g : Graph} {top : Task} {p : AiePartition} {input : Bool} {index : Nat}

theorem hasEnd_of_kernel_end {node : Node} (h : kernel_end p.kernels input index = some node) :
    ∃ i, node = .Kernel i ∧ p.HasEnd input index i := by
  unfold kernel_end at h
  obtain ⟨i, hi, rfl⟩ := Option.map_eq_some_iff.mp h
  rw [findSomeRev?_eq_findSome?_reverse] at hi
  obtain ⟨⟨k, j⟩, hmem, hk⟩ := exists_of_findSome?_eq_some hi
  obtain ⟨hholds, rfl⟩ : k.holds input index = true ∧ j = i := by simpa using hk
  exact ⟨j, rfl, k, mk_mem_zipIdx_iff_getElem?.mp (mem_reverse.mp hmem), hholds⟩

theorem kernel_end_eq_none : kernel_end p.kernels input index = none ↔
    ∀ i, ¬p.HasEnd input index i := by
  unfold kernel_end
  rw [Option.map_eq_none_iff, findSomeRev?_eq_findSome?_reverse, findSome?_eq_none_iff]
  constructor
  · rintro h i ⟨k, hk, hholds⟩
    have := h (k, i) (mem_reverse.mpr (mk_mem_zipIdx_iff_getElem?.mpr hk))
    simp [hholds] at this
  · rintro h ⟨k, i⟩ hmem
    have hk := mk_mem_zipIdx_iff_getElem?.mp (mem_reverse.mp hmem)
    exact if_neg fun hholds => h i ⟨k, hk, hholds⟩

/-- With one kernel at each end, the ends that are found are those of the stream. -/
theorem end_iff (hsingle : p.SingleEnds) {endpoint : Option EndpointRef} {node : Node} :
    (kernel_end p.kernels input index).or (pl_node g endpoint) = some node ↔
      p.End g endpoint input index node := by
  cases hend : kernel_end p.kernels input index with
  | none =>
    have hnone := kernel_end_eq_none.mp hend
    rw [Option.none_or]
    constructor
    · exact .pl hnone
    · rintro (h | ⟨-, hpl⟩)
      · exact absurd h (hnone _)
      · exact hpl
  | some found =>
    obtain ⟨i, rfl, hi⟩ := hasEnd_of_kernel_end hend
    rw [Option.some_or, Option.some.injEq]
    constructor
    · rintro rfl
      exact .kernel hi
    · rintro (h | ⟨hnone, -⟩)
      · rw [hsingle _ _ _ _ hi h]
      · exact absurd hi (hnone i)

theorem mem_stream_edges (hsingle : p.SingleEnds) {a b : Node} :
    (a, b) ∈ stream_edges g top p ↔ p.Flows g top a b := by
  have hedge (x y : Option Node) :
      (do pure (← x, ← y) : Option (Node × Node)) = some (a, b) ↔ x = some a ∧ y = some b := by
    cases x <;> cases y <;> simp
  unfold stream_edges
  rw [mem_append, mem_filterMap, mem_filterMap]
  constructor
  · rintro (⟨⟨stream, index⟩, hmem, h⟩ | ⟨⟨name, fifo⟩, hmem, h⟩)
    · obtain ⟨hfrom, hto⟩ := (hedge _ _).mp h
      exact .stream (mk_mem_zipIdx_iff_getElem?.mp hmem) ((end_iff hsingle).mp hfrom)
        ((end_iff hsingle).mp hto)
    · obtain ⟨hfrom, hto⟩ := (hedge _ _).mp h
      exact .fifo (Std.ExtTreeMap.mem_toList_iff_getElem?_eq_some.mp hmem) hfrom hto
  · rintro (⟨hat, hfrom, hto⟩ | ⟨hdeclared, hfrom, hto⟩)
    · exact .inl ⟨_, mk_mem_zipIdx_iff_getElem?.mpr hat,
        (hedge _ _).mpr ⟨(end_iff hsingle).mpr hfrom, (end_iff hsingle).mpr hto⟩⟩
    · exact .inr ⟨_, Std.ExtTreeMap.mem_toList_iff_getElem?_eq_some.mpr hdeclared,
        (hedge _ _).mpr ⟨hfrom, hto⟩⟩

theorem flows_of_kernelStream {i j : Nat} (h : p.KernelStream i j) :
    p.Flows g top (.Kernel i) (.Kernel j) := by
  obtain ⟨index, hlt, hfrom, hto⟩ := h
  exact .stream (getElem?_eq_getElem hlt) (.kernel hfrom) (.kernel hto)

theorem not_pl_node_kernel {endpoint : Option EndpointRef} {i : Nat} :
    pl_node g endpoint ≠ some (.Kernel i) := by
  unfold pl_node
  cases endpoint with
  | none => simp
  | some e =>
    rw [Option.bind_some]
    split <;> simp

/-- Only a kernel of the partition is the source of a stream. -/
theorem lt_of_flows {i : Nat} {b : Node} (h : p.Flows g top (.Kernel i) b) :
    i < p.kernels.length := by
  rcases h with ⟨_, ⟨k, hk, _⟩ | ⟨_, hpl⟩, _⟩ | ⟨_, hpl, _⟩
  · exact (List.getElem?_eq_some_iff.mp hk).1
  · exact absurd hpl not_pl_node_kernel
  · exact absurd hpl not_pl_node_kernel

end Streams

/-! ## The marks -/

section Marks

variable {g : Graph} {top : Task} {p : AiePartition}

theorem getElem?_mark_cycles (i : Nat) : (mark_cycles g top p).kernels[i]? =
    p.kernels[i]?.map fun k =>
      { k with ordered := reaches_itself (stream_edges g top p) (.Kernel i) } := by
  unfold mark_cycles
  simp [getElem?_zipIdx, Option.map_map, Function.comp_def]

/-- Marking is the last step of the derivation. -/
theorem marked_of_derive {fuel : Nat} (h : derive fuel g = .ok (some p))
    (htop : g.tasks[g.top]? = some top) : ∃ p0, p = mark_cycles g top p0 := by
  unfold derive at h
  cases hb : derive_with_origins fuel g with
  | error e =>
    rw [hb] at h
    cases h
  | ok found =>
    rw [hb] at h
    obtain ⟨b, rfl, rfl⟩ := Option.map_eq_some_iff.mp (Except.ok.inj h)
    unfold derive_with_origins at hb
    split at hb
    · cases hb
    obtain ⟨top', htop', hb⟩ := bind_eq_ok.mp hb
    obtain ⟨_, _, hb⟩ := bind_eq_ok.mp hb
    obtain ⟨b0, _, hb⟩ := bind_eq_ok.mp hb
    obtain ⟨_, _, hb⟩ := bind_eq_ok.mp hb
    obtain rfl := Option.some.inj (Except.ok.inj hb)
    rw [Graph.task_eq_ok, htop] at htop'
    cases htop'
    exact ⟨_, rfl⟩

/-- With one kernel at each end of a stream, the marked kernels are those on a cycle of
streams, by way of other kernels or PL invocations. -/
theorem ordered_iff_on_cycle (hsingle : p.SingleEnds) {i : Nat} {k : AieKernel}
    (hk : (mark_cycles g top p).kernels[i]? = some k) :
    k.ordered = true ↔ Relation.TransGen (p.Flows g top) (.Kernel i) (.Kernel i) := by
  have hflows : p.Flows g top = fun a b => (a, b) ∈ stream_edges g top p := by
    funext a b
    rw [mem_stream_edges hsingle]
  rw [hflows, ← reaches_itself_iff]
  rw [getElem?_mark_cycles] at hk
  obtain ⟨k0, _, rfl⟩ := Option.map_eq_some_iff.mp hk
  rfl

end Marks

/-! ## A kernel with a loop -/

def loopArgs (i o : Str) : BTreeMap Str Arg :=
  ((∅ : BTreeMap Str Arg).insert ['i'] ⟨.Name i, .Istream⟩).insert ['o'] ⟨.Name o, .Ostream⟩

def loopPorts : List Port := [Graph.istreamPort, ⟨.Ostream, ['o'], 32, none, none⟩]

/-- The FIFO `s` of the top leads from `child` back to it. -/
def loopTop (child : Str) : Task where
  level := .Upper
  ports := []
  tasks := (∅ : BTreeMap Str (List TaskInstance)).insert child
    [⟨none, loopArgs ['s'] ['s'], 0⟩]
  fifos := (∅ : BTreeMap Str InterconnectDefinition).insert ['s']
    ⟨some 2, some (child, 0), some (child, 0)⟩
  self_area := none

/-- The kernel `K` alone. -/
def oneLoop : Graph where
  top := ['T']
  tasks := ((∅ : BTreeMap Str Task).insert ['T'] (loopTop ['K'])).insert ['K']
    ⟨.Lower, loopPorts, ∅, ∅, none⟩
  attributes := fun name => ⟨if name = ['T'] then .Hls else .Aie, name, [], none,
    fun _ => ⟨[], none, none⟩⟩

/-- The kernel `K`, whose input goes to the kernel `R` as well: an upper task `U` hands its
own to both. -/
def readLoop : Graph where
  top := ['T']
  tasks := ((((∅ : BTreeMap Str Task).insert ['T'] (loopTop ['U'])).insert ['U']
    ⟨.Upper, loopPorts, ((∅ : BTreeMap Str (List TaskInstance)).insert ['K']
      [⟨none, loopArgs ['i'] ['o'], 0⟩]).insert ['R']
      [⟨none, (∅ : BTreeMap Str Arg).insert ['i'] ⟨.Name ['i'], .Istream⟩, 0⟩], ∅, none⟩).insert
    ['K'] ⟨.Lower, loopPorts, ∅, ∅, none⟩).insert ['R']
    ⟨.Lower, [Graph.istreamPort], ∅, ∅, none⟩
  attributes := oneLoop.attributes

end Tapa.AiEngine
