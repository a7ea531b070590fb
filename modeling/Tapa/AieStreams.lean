-- What the derived streams must be: following the bindings of a kernel port upward
-- reaches a FIFO, and the stream of the port is the one that was made for it. A FIFO
-- that an upper task lists for a port of its own gets a second stream.
import Tapa.AiePartition
import Tapa.Traversal

namespace Tapa.AiEngine

open Ir Text Fallible List

/-! ## Following a kernel port -/

/-- Some invocation produces or consumes the FIFO. -/
def has_end (fifo : InterconnectDefinition) : Bool := (fifo.produced_by.or fifo.consumed_by).isSome

namespace Graph

variable (g : Graph)

def fifo_at (p : Path) (name : Str) : Option InterconnectDefinition :=
  (g.task_at p).bind fun task => task.fifos[name]?

/-- A FIFO that the task at an occurrence declares, and that is connected below the top. -/
def declares (p : Path) (name : Str) : Bool :=
  (g.fifo_at p name).any fun fifo => fifo.depth.isSome && (p = [] || has_end fifo)

/-- A FIFO without a depth, which stands for a port of the task. -/
def lists_port (p : Path) (name : Str) : Bool :=
  (g.fifo_at p name).any fun fifo => fifo.depth.isNone && has_end fifo

/-- The name that a port is bound to in the scope of the caller. An argument of the top
that is no stream has none. -/
def bound : Path → Str → Option Str
  | [], _ => none
  | s :: p, port => do
    let inst ← g.inst_at (s :: p)
    let arg ← inst.args[port]?
    if p = [] && !arg.cat.is_stream then none else arg.name

/-- The FIFO that a name in the scope of an occurrence reaches, with its scope. -/
def follow : Path → Str → Option (Path × Str)
  | [], name => if g.declares [] name then some ([], name) else none
  | s :: p, name =>
    if g.declares (s :: p) name then some (s :: p, name)
    else (g.bound (s :: p) name).bind (follow p)

/-- The FIFO that a port of an occurrence reaches. -/
def reach : Path → Str → Option (Path × Str)
  | [], _ => none
  | s :: p, port => (g.bound (s :: p) port).bind (g.follow p)

/-- An occurrence of a task below an AI Engine task that the top invokes. -/
inductive Visited : Path → Prop
  | invoke {s : EndpointRef} (haie : is_aie g s.1 = true) (hinst : (g.inst_at [s]).isSome) :
      Visited [s]
  | descend {s : EndpointRef} {p : Path} (hp : Visited p) (hup : g.level_at p = some .Upper)
      (hinst : (g.inst_at (s :: p)).isSome) : Visited (s :: p)

/-- A FIFO that gets a stream: one of the top that an AI Engine task is bound to, or one
that an AI Engine upper task lists with an end. -/
inductive IsStream : Path × Str → Prop
  | top {s : EndpointRef} {port name : Str} (haie : is_aie g s.1 = true)
      (hbound : g.bound [s] port = some name) : IsStream ([], name)
  | net {p : Path} {name : Str} (hp : Visited g p) (hup : g.level_at p = some .Upper)
      (hend : (g.fifo_at p name).any has_end = true) : IsStream (p, name)

/-! ## Names -/

/-- The sanitized instance path of an occurrence. -/
def spelled : Path → Str
  | [] => []
  | [s] => sanitize_identifier_name (g.canonical_at [s])
  | s :: p => inside (spelled p) (g.canonical_at (s :: p))

def stream_name (source : Path × Str) : Str :=
  if source.1 = [] then sanitize_identifier_name source.2
  else inside (g.spelled source.1) source.2

variable {g}

variable {s : EndpointRef} {p : Path}

theorem spelled_cons (hp : p ≠ []) :
    g.spelled (s :: p) = inside (g.spelled p) (g.canonical_at (s :: p)) := by
  cases p with
  | nil => exact absurd rfl hp
  | cons t p => rfl

theorem Visited.ne_nil (h : g.Visited p) : p ≠ [] := by
  cases h <;> simp

theorem Visited.above {r : Path} (h : g.Visited (r ++ p)) (hp : p ≠ []) (hr : r ≠ []) :
    g.Visited p ∧ g.level_at p = some .Upper := by
  induction r with
  | nil => exact absurd rfl hr
  | cons s r ih =>
    generalize hq : s :: r ++ p = q at h
    cases h with
    | invoke haie hinst =>
      simp only [cons_append, List.cons.injEq, append_eq_nil_iff] at hq
      exact absurd hq.2.2 hp
    | descend hv hup hinst =>
      obtain ⟨rfl, rfl⟩ := hq
      by_cases hr' : r = []
      · subst hr'
        exact ⟨hv, hup⟩
      · exact ih hv hr'

theorem Visited.inst (h : g.Visited (s :: p)) :
    (g.inst_at (s :: p)).isSome := by
  cases h with
  | invoke haie hinst | descend hv hup hinst => exact hinst

theorem Visited.child {r : Path} (h : g.Visited (r ++ s :: p)) :
    (g.inst_at (s :: p)).isSome := by
  cases r with
  | nil => exact h.inst
  | cons t r => exact (h.above (by simp) (by simp)).1.inst

/-- A name that is no connected FIFO of an occurrence is one of its ports. -/
theorem follow_of_not_declares {name : Str} (hp : p ≠ []) (h : g.declares p name = false) :
    g.follow p name = g.reach p name := by
  cases p with
  | nil => exact absurd rfl hp
  | cons s p => simp [follow, reach, h]

theorem follow_of_declares {name : Str} (h : g.declares p name = true) :
    g.follow p name = some (p, name) := by
  cases p <;> simp [follow, h]

end Graph

/-! ## Streams of a kernel -/

def AieKernelPort.channels (port : AieKernelPort) : List (Str × Nat) :=
  match port.kind with
  | .Streams _ plural streams _ _ =>
    if plural then streams.zipIdx.map fun (stream, i) => (array_name port.name i [], stream)
    else streams.map fun stream => (port.name, stream)
  | .Scalar .. => []

def AieKernel.channels (k : AieKernel) : List (Str × Nat) := k.ports.flatMap AieKernelPort.channels

def AieStream.is_plio (stream : AieStream) : Bool :=
  match stream.kind with
  | .Plio .. => true
  | .Net .. => false

variable {task_name : Str} {scope : BTreeMap Str Binding}

theorem kernel_channel_eq_ok {channel : Str} {t : Nat} :
    kernel_channel task_name scope channel = .ok t ↔
      scope[channel]? = some (.Stream t) := by
  unfold kernel_channel
  split
  · rename_i stream h
    rw [h]
    simp
  · rename_i h
    constructor
    · intro hc
      cases hc
    · intro hc
      exact absurd hc (h t)

/-- A kernel gets the streams that its channels are bound to. -/
theorem channels_kernel_port {g : Graph} {port : Port} {kp : AieKernelPort}
    (h : kernel_port g task_name scope port = .ok kp) {c : Str} {t : Nat}
    (hmem : (c, t) ∈ kp.channels) : scope[c]? = some (.Stream t) := by
  unfold kernel_port at h
  split at h
  · obtain ⟨streams, hstreams, h⟩ := bind_eq_ok.mp h
    cases h
    have hall := List.forall₂_iff_get.mp (mapM_eq_ok.mp hstreams)
    simp only [AieKernelPort.channels] at hmem
    by_cases hplural : (decide (port.cat = .Istreams) || decide (port.cat = .Ostreams)) = true
    · rw [if_pos hplural] at hmem
      simp only [mem_map, Prod.exists, Prod.mk.injEq] at hmem
      obtain ⟨stream, i, hmem, rfl, rfl⟩ := hmem
      obtain ⟨hi, hget⟩ := List.getElem?_eq_some_iff.mp (List.mem_zipIdx_iff_getElem?.mp hmem)
      have hname := hall.2 i (by omega) hi
      rw [kernel_channel_eq_ok] at hname
      simp only [channel_names, hplural, if_true, get_eq_getElem, getElem_map,
        getElem_range] at hname
      rw [hname, hget]
    · rw [if_neg hplural] at hmem
      simp only [mem_map, Prod.mk.injEq] at hmem
      obtain ⟨stream, hmem, rfl, rfl⟩ := hmem
      obtain ⟨i, hi, hget⟩ := mem_iff_getElem.mp hmem
      have hname := hall.2 i (by omega) hi
      rw [kernel_channel_eq_ok] at hname
      simp only [channel_names, hplural, Bool.false_eq_true, if_false, get_eq_getElem,
        getElem_singleton] at hname
      rw [hname, hget]
  · split at h
    · split at h
      · cases h
        simp [AieKernelPort.channels] at hmem
      · cases h
    · cases h

theorem channels_kernel {g : Graph} {path : Str} {index : Nat} {definition : Task} {k : AieKernel}
    (h : kernel g task_name index path definition scope = .ok k) :
    k.name = path ∧ ∀ c t, (c, t) ∈ k.channels → scope[c]? = some (.Stream t) := by
  obtain ⟨ports, hports, h⟩ := bind_eq_ok.mp h
  cases h
  refine ⟨rfl, fun c t hmem => ?_⟩
  obtain ⟨kp, hkp, hmem⟩ := mem_flatMap.mp hmem
  obtain ⟨i, hi, rfl⟩ := mem_iff_getElem.mp hkp
  have hall := List.forall₂_iff_get.mp (mapM_eq_ok.mp hports)
  exact channels_kernel_port (hall.2 i (hall.1 ▸ hi) hi) hmem

/-! ## What has been built -/

namespace Graph

variable (g : Graph)

/-- The FIFO that a stream stands for: the one that its name reaches in its scope. -/
def stands (sources : List (Path × Str)) (stream : Nat) : Option (Path × Str) :=
  sources[stream]?.bind fun source => g.follow source.1 source.2

/-- A stream that was made for a FIFO of a scope. -/
structure StreamOf (source : Path × Str) (stream : AieStream) : Prop where
  fifo : stream.fifo = source.2
  name : stream.name = g.stream_name source
  plio : stream.is_plio = true → source.1 = []

/-- A kernel of an occurrence, whose streams stand for what its ports reach. -/
structure KernelOf (sources : List (Path × Str)) (leaf : Path) (k : AieKernel) : Prop where
  name : k.name = g.spelled leaf
  streams : ∀ c t, (c, t) ∈ k.channels → t < sources.length ∧ g.stands sources t = g.reach leaf c

/-- A scope that binds the ports of an occurrence to the streams of what they reach. -/
structure ScopeOf (sources : List (Path × Str)) (p : Path) (scope : BTreeMap Str Binding) :
    Prop where
  sound : ∀ c t, scope[c]? = some (.Stream t) →
    t < sources.length ∧ g.stands sources t = g.reach p c
  complete : ∀ c, (g.reach p c).isSome → ∃ t, scope[c]? = some (.Stream t)

structure Inv (b : Builder) : Prop where
  streams : List.Forall₂ (StreamOf g) b.sources b.partition.streams
  kernels : List.Forall₂ (KernelOf g b.sources) b.leaves b.partition.kernels
  top : ∀ (name : Str) (t : Nat), b.top_streams[name]? = some t ↔ b.sources[t]? = some ([], name)
  declared : ∀ name : Str, ([], name) ∈ b.sources → g.declares [] name = true
  sources_nodup : b.sources.Nodup
  leaves_nodup : b.leaves.Nodup
  is_stream : ∀ source ∈ b.sources, g.IsStream source
  is_leaf : ∀ p ∈ b.leaves, g.Visited p ∧ g.level_at p = some .Lower
  -- A stream for a port of an upper task repeats an earlier one, or stands for nothing.
  repeats : ∀ (u : Nat) (p : Path) (name : Str), b.sources[u]? = some (p, name) →
    g.lists_port p name = true → p ≠ [] →
    g.follow p name = none ∨ ∃ t < u, g.stands b.sources t = g.follow p name

variable {g}

variable {sources : List (Path × Str)}

theorem stands_of_append {t : Nat} (ht : t < sources.length) (more : List (Path × Str)) :
    g.stands (sources ++ more) t = g.stands sources t := by
  unfold stands
  rw [getElem?_append_left ht]

theorem KernelOf.append {leaf : Path} {k : AieKernel} (h : g.KernelOf sources leaf k)
    (more : List (Path × Str)) :
    g.KernelOf (sources ++ more) leaf k where
  name := h.name
  streams := by
    intro c t hmem
    obtain ⟨hlt, hstands⟩ := h.streams c t hmem
    rw [stands_of_append hlt, length_append]
    exact ⟨by omega, hstands⟩

variable {p : Path}

theorem ScopeOf.append {scope : BTreeMap Str Binding} (h : g.ScopeOf sources p scope)
    (more : List (Path × Str)) :
    g.ScopeOf (sources ++ more) p scope where
  sound := by
    intro c t hc
    obtain ⟨hlt, hstands⟩ := h.sound c t hc
    rw [stands_of_append hlt, length_append]
    exact ⟨by omega, hstands⟩
  complete := h.complete

theorem ScopeOf.mono {sources' : List (Path × Str)} {scope : BTreeMap Str Binding}
    (h : g.ScopeOf sources p scope) (hgrow : sources <+: sources') :
    g.ScopeOf sources' p scope := by
  obtain ⟨more, rfl⟩ := hgrow
  exact h.append more

theorem Inv.start : g.Inv Builder.start where
  streams := .nil
  kernels := .nil
  top := by simp [Builder.start]
  declared := by simp [Builder.start]
  sources_nodup := nodup_nil
  leaves_nodup := nodup_nil
  is_stream := by simp [Builder.start]
  is_leaf := by simp [Builder.start]
  repeats := by simp [Builder.start]

variable {b : Builder}

/-- The two fields that the invariant does not read. -/
theorem Inv.set_run_forever (h : g.Inv b) (run_forever : Bool) :
    g.Inv (b.set_run_forever run_forever) :=
  ⟨h.streams, h.kernels, h.top, h.declared, h.sources_nodup, h.leaves_nodup, h.is_stream,
    h.is_leaf, h.repeats⟩

theorem Inv.sources_length (h : g.Inv b) :
    b.sources.length = b.partition.streams.length := h.streams.length_eq

theorem forall₂_concat {α β : Type} {R : α → β → Prop} {l : List α} {m : List β}
    (h : List.Forall₂ R l m) {a : α} {x : β} (hax : R a x) :
    List.Forall₂ R (l ++ [a]) (m ++ [x]) :=
  rel_append h (.cons hax .nil)

theorem Inv.push_kernel (h : g.Inv b) {k : AieKernel} (hk : g.KernelOf b.sources p k)
    (hfresh : p ∉ b.leaves) (hp : g.Visited p) (hlevel : g.level_at p = some .Lower) :
    g.Inv (b.push_kernel p k) where
  streams := h.streams
  kernels := forall₂_concat h.kernels hk
  top := h.top
  declared := h.declared
  sources_nodup := h.sources_nodup
  leaves_nodup := nodup_snoc h.leaves_nodup hfresh
  is_stream := h.is_stream
  is_leaf := forall_mem_snoc.mpr ⟨h.is_leaf, hp, hlevel⟩
  repeats := h.repeats

theorem Inv.push_stream (h : g.Inv b) {source : Path × Str} {stream : AieStream}
    (hstream : g.StreamOf source stream) (hfresh : source ∉ b.sources) (his : g.IsStream source)
    {top_streams : BTreeMap Str Nat} (htop : ∀ (name : Str) (t : Nat), top_streams[name]? = some t ↔
    (b.sources ++ [source])[t]? = some ([], name))
    (hdeclared : source.1 = [] → g.declares [] source.2 = true) (hrepeats : g.lists_port source.1
    source.2 = true → source.1 ≠ [] → g.follow source.1 source.2 = none ∨ ∃ t < b.sources.length,
    g.stands b.sources t = g.follow source.1 source.2) :
    g.Inv { b.push_stream source stream with top_streams := top_streams } where
  streams := forall₂_concat h.streams hstream
  kernels := h.kernels.imp fun _ _ hk => hk.append _
  top := htop
  declared := by
    intro name hmem
    rcases mem_snoc.mp hmem with hmem | rfl
    · exact h.declared name hmem
    · exact hdeclared rfl
  sources_nodup := nodup_snoc h.sources_nodup hfresh
  leaves_nodup := h.leaves_nodup
  is_stream := forall_mem_snoc.mpr ⟨h.is_stream, his⟩
  is_leaf := h.is_leaf
  repeats := by
    intro u p name hu hlists hp
    have hmono {t : Nat} (ht : t < b.sources.length) :
        g.stands (b.push_stream source stream).sources t = g.stands b.sources t :=
      stands_of_append ht _
    rcases getElem?_snoc_eq_some.mp hu with hu | ⟨rfl, rfl⟩
    · have hlt := (List.getElem?_eq_some_iff.mp hu).1
      rcases h.repeats u p name hu hlists hp with hnone | ⟨t, ht, heq⟩
      · exact .inl hnone
      · exact .inr ⟨t, ht, (hmono (by omega)).trans heq⟩
    · rcases hrepeats hlists hp with hnone | ⟨t, ht, heq⟩
      · exact .inl hnone
      · exact .inr ⟨t, ht, (hmono ht).trans heq⟩

end Graph

end Tapa.AiEngine
