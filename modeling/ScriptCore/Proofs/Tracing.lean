import Mathlib.Data.List.Perm.Lattice
import ScriptCore.Proofs.Counting
import ScriptCore.Proofs.Exploring

/-!
# Tracing is exact

The graph around a frame, as a set.  A trace lists exactly its cells, counts every reference
held within it, and so knows which of its cells are referred to from elsewhere.  Its garbage
are the cells of the graph to which no chain of references leads that starts outside it.
-/

namespace ScriptCore

open Relation

namespace Heap

/-- The frames around a frame, the nearest first. -/
def around (heap : Heap) (frame : CellId) : List CellId :=
  (heap.frameChain frame).tail

/-- A reference that a trace from `root` follows. -/
def Traces (heap : Heap) (root holder id : CellId) : Prop :=
  id ∈ heap.tracedReferences (heap.around root) holder

/-- Everything reachable from a frame without entering a top-level frame or a frame
around it. -/
def graph (heap : Heap) (root : CellId) : Set CellId :=
  {id | heap.enters (heap.around root) root = true ∧ ReflTransGen (heap.Traces root) root id}

/-- A chain of references leads to a cell that starts at a reference listed outside or held by
a cell that is not of the group. -/
def ReachedPast (heap : Heap) (outside : List CellId) (group : Set CellId) (id : CellId) :
    Prop :=
  ∃ first, (first ∈ outside ∨ ∃ holder, holder ∉ group ∧ heap.Refers holder first) ∧
    heap.Reaches first id

variable {heap : Heap} {root holder id : CellId}

theorem traces_iff :
    heap.Traces root holder id ↔
      heap.Refers holder id ∧ heap.enters (heap.around root) id = true := by
  simp [Traces, tracedReferences, Refers]

theorem enters_of_mem_graph (member : id ∈ heap.graph root) :
    heap.enters (heap.around root) id = true := by
  obtain ⟨entered, chain⟩ := member
  rcases ReflTransGen.cases_tail chain with rfl | ⟨holder, -, edge⟩
  · exact entered
  · exact (traces_iff.mp edge).2

theorem mem_graph_of_refers (member : holder ∈ heap.graph root) (edge : heap.Refers holder id)
    (entered : heap.enters (heap.around root) id = true) : id ∈ heap.graph root :=
  ⟨member.1, member.2.tail (traces_iff.mpr ⟨edge, entered⟩)⟩

theorem reaches_of_mem_graph (member : id ∈ heap.graph root) : heap.Reaches root id :=
  ReflTransGen.mono (fun _ _ edge => (traces_iff.mp edge).1) _ _ member.2

theorem not_mem_graph_of_mem_around (member : id ∈ heap.around root) :
    id ∉ heap.graph root := by
  intro inGraph
  have := enters_of_mem_graph inGraph
  simp [enters, member] at this

/-- A reference that leads out of the graph leads to a frame around its root or to a frame at
the top level. -/
theorem leaves_graph (member : holder ∈ heap.graph root) (edge : heap.Refers holder id)
    (outside : id ∉ heap.graph root) :
    id ∈ heap.around root ∨ ∃ frame, heap.frame? id = some frame ∧ frame.isTop = true := by
  by_contra neither
  rw [not_or] at neither
  obtain ⟨notAround, notTop⟩ := neither
  refine outside (mem_graph_of_refers member edge ?_)
  cases found : heap.frame? id with
  | none => simp [enters, notAround, found]
  | some frame =>
      have nested : frame.isTop = false := by
        by_contra top
        exact notTop ⟨frame, found, by simpa using top⟩
      simp [enters, notAround, found, nested]

theorem ReachedPast.trans {outside : List CellId} {group : Set CellId} {further : CellId}
    (reached : heap.ReachedPast outside group id) (onward : heap.Reaches id further) :
    heap.ReachedPast outside group further := by
  obtain ⟨first, start, chain⟩ := reached
  exact ⟨first, start, chain.trans onward⟩

theorem ReachedPast.of_reachedFrom {outside : List CellId} (group : Set CellId)
    (reached : heap.ReachedFrom outside id) : heap.ReachedPast outside group id := by
  obtain ⟨first, listed, chain⟩ := reached
  exact ⟨first, Or.inl listed, chain⟩

/-- Within the graph, a chain from outside goes on from a cell that is referred to from
outside along traced references only. -/
theorem reachedPast_graph_iff {outside : List CellId} (member : id ∈ heap.graph root) :
    heap.ReachedPast outside (heap.graph root) id ↔
      ∃ first ∈ heap.graph root,
        (first ∈ outside ∨ ∃ holder, holder ∉ heap.graph root ∧ heap.Refers holder first) ∧
        ReflTransGen (heap.Traces root) first id := by
  constructor
  · rintro ⟨start, entry, chain⟩
    -- The last step into the graph is the one to start from.
    induction chain with
    | refl => exact ⟨start, member, entry, .refl⟩
    | @tail holder id _ edge ih =>
        by_cases inGraph : holder ∈ heap.graph root
        · obtain ⟨first, firstMember, firstEntry, traced⟩ := ih inGraph
          exact ⟨first, firstMember, firstEntry,
            traced.tail (traces_iff.mpr ⟨edge, enters_of_mem_graph member⟩)⟩
        · exact ⟨id, member, Or.inr ⟨holder, inGraph, edge⟩, .refl⟩
  · rintro ⟨first, -, entry, traced⟩
    exact ⟨first, entry, ReflTransGen.mono (fun _ _ edge => (traces_iff.mp edge).1) _ _ traced⟩

theorem references_eq_flatMap_range (heap : Heap) :
    heap.references = (List.range heap.size).flatMap heap.referencesOf := by
  have cells : heap.cells.toList = (List.range heap.size).map heap.get? := by
    apply List.ext_getElem?
    intro place
    by_cases inside : place < heap.cells.size
    · simp [size, inside, get?]
    · simp [size, inside]
  rw [references, cells, List.flatMap_map]
  rfl

end Heap

namespace Counted

section Grounded

variable {counted : Counted} {root : CellId}

theorem graph_made (grounded : counted.heap.Grounded) (made : root < counted.heap.size)
    {id : CellId} (member : id ∈ counted.heap.graph root) : id < counted.heap.size := by
  rcases ReflTransGen.cases_tail member.2 with rfl | ⟨holder, -, edge⟩
  · exact made
  · exact grounded holder id (Heap.traces_iff.mp edge).1

theorem mem_nodes_iff_mem_graph (grounded : counted.heap.Grounded)
    (made : root < counted.heap.size) (id : CellId) :
    id ∈ (counted.trace root).nodes ↔ id ∈ counted.heap.graph root := by
  rw [nodes_trace grounded made]
  refine (mem_reachable_iff ?_ ?_ id).trans ?_
  · intro start member
    rw [List.mem_singleton.mp (List.mem_of_mem_filter member)]
    exact made
  · intro holder id member
    exact grounded holder id (List.mem_of_mem_filter member)
  · simp only [List.mem_filter, List.mem_singleton, Heap.graph, Set.mem_ofPred_eq]
    constructor
    · rintro ⟨start, ⟨rfl, entered⟩, chain⟩
      exact ⟨entered, chain⟩
    · rintro ⟨entered, chain⟩
      exact ⟨root, ⟨rfl, entered⟩, chain⟩

theorem nodup_nodes (grounded : counted.heap.Grounded) (made : root < counted.heap.size) :
    (counted.trace root).nodes.Nodup := by
  rw [nodes_trace grounded made]
  refine reachable_nodup ?_ ?_
  · intro start member
    rw [List.mem_singleton.mp (List.mem_of_mem_filter member)]
    exact made
  · intro holder id member
    exact grounded holder id (List.mem_of_mem_filter member)

/-- The references held within the graph to one of its cells are all those that its cells hold
to it. -/
theorem internal_eq_count (grounded : counted.heap.Grounded) (made : root < counted.heap.size)
    {id : CellId} (member : id ∈ counted.heap.graph root) :
    (counted.trace root).internal id =
      ((counted.trace root).nodes.flatMap counted.heap.referencesOf).count id := by
  have entered := Heap.enters_of_mem_graph member
  rw [internal_trace grounded made ((mem_nodes_iff_mem_graph grounded made id).mpr member),
    List.count_flatMap, List.count_flatMap]
  congr 1
  refine List.map_congr_left fun holder _ => ?_
  exact List.count_filter entered

/-- A trace knows of no references but those that a trace follows. -/
theorem mem_edges_iff (grounded : counted.heap.Grounded) (made : root < counted.heap.size)
    {holder : CellId} (member : holder ∈ counted.heap.graph root) (id : CellId) :
    id ∈ (counted.trace root).edges holder ↔ counted.heap.Traces root holder id := by
  rw [edges_trace grounded made ((mem_nodes_iff_mem_graph grounded made holder).mpr member)]
  rfl

theorem mem_graph_of_mem_edges (grounded : counted.heap.Grounded) (made : root < counted.heap.size)
    {holder id : CellId} (edge : id ∈ (counted.trace root).edges holder) :
    holder ∈ counted.heap.graph root := by
  rw [← mem_nodes_iff_mem_graph grounded made]
  by_contra apart
  rw [edges_trace_of_not_mem grounded made apart] at edge
  exact List.not_mem_nil edge

/-- From a cell of the graph the same is reached through what a trace knows as through the
references that it follows. -/
theorem edges_path_iff (grounded : counted.heap.Grounded) (made : root < counted.heap.size)
    {first id : CellId} (member : first ∈ counted.heap.graph root) :
    ReflTransGen (fun holder target => target ∈ (counted.trace root).edges holder) first id ↔
      ReflTransGen (counted.heap.Traces root) first id := by
  constructor
  · refine ReflTransGen.mono (fun holder target edge => ?_) _ _
    exact (mem_edges_iff grounded made (mem_graph_of_mem_edges grounded made edge) target).mp edge
  · intro chain
    induction chain with
    | refl => exact .refl
    | tail before edge ih =>
        have inGraph := (⟨member.1, member.2.trans before⟩ : _ ∈ counted.heap.graph root)
        exact ih.tail ((mem_edges_iff grounded made inGraph _).mpr edge)

end Grounded

section Trace

variable {outside : List CellId} {counted : Counted} {root : CellId}

theorem Exact.grounded (exact : counted.Exact outside) : counted.heap.Grounded :=
  fun _ _ edge => exact.refers_inside edge

theorem Exact.root_made (exact : counted.Exact (root :: outside)) : root < counted.heap.size :=
  exact.outside_inside List.mem_cons_self

theorem mem_trace_nodes_iff (exact : counted.Exact (root :: outside)) (id : CellId) :
    id ∈ (counted.trace root).nodes ↔ id ∈ counted.heap.graph root :=
  mem_nodes_iff_mem_graph exact.grounded exact.root_made id

theorem nodup_trace_nodes (exact : counted.Exact (root :: outside)) :
    (counted.trace root).nodes.Nodup :=
  nodup_nodes exact.grounded exact.root_made

theorem graph_inside (exact : counted.Exact (root :: outside)) {id : CellId}
    (member : id ∈ counted.heap.graph root) : id < counted.heap.size :=
  graph_made exact.grounded exact.root_made member

/-- The references held by cells that a trace does not list. -/
def referencesBeyond (counted : Counted) (root : CellId) : List CellId :=
  ((List.range counted.heap.size).filter fun holder =>
    !(counted.trace root).nodes.contains holder).flatMap counted.heap.referencesOf

theorem mem_referencesBeyond_iff (exact : counted.Exact (root :: outside)) (id : CellId) :
    id ∈ counted.referencesBeyond root ↔
      ∃ holder, holder ∉ counted.heap.graph root ∧ counted.heap.Refers holder id := by
  simp only [referencesBeyond, List.mem_flatMap, List.mem_filter, List.mem_range,
    Bool.not_eq_true', List.contains_eq_mem, decide_eq_false_iff_not,
    mem_trace_nodes_iff exact]
  constructor
  · rintro ⟨holder, ⟨-, notMember⟩, edge⟩
    exact ⟨holder, notMember, edge⟩
  · rintro ⟨holder, notMember, edge⟩
    obtain ⟨cell, found⟩ := Heap.get?_isSome_of_refers edge
    exact ⟨holder, ⟨Heap.lt_size_of_get? found, notMember⟩, edge⟩

/-- The references to a cell are those listed outside, those held within the graph and those
held by other cells. -/
theorem count_eq_within_add_beyond (exact : counted.Exact (root :: outside)) (id : CellId) :
    counted.count id = (root :: outside).count id +
      ((counted.trace root).nodes.flatMap counted.heap.referencesOf).count id +
      (counted.referencesBeyond root).count id := by
  have split : (List.range counted.heap.size).Perm
      ((counted.trace root).nodes ++ (List.range counted.heap.size).filter fun holder =>
        !(counted.trace root).nodes.contains holder) := by
    refine (List.perm_ext_iff_of_nodup List.nodup_range ?_).mpr fun holder => ?_
    · refine List.nodup_append.mpr
        ⟨nodup_trace_nodes exact, List.nodup_range.filter _, ?_⟩
      rintro holder inNodes other filtered rfl
      simp [inNodes] at filtered
    · simp only [List.mem_append, List.mem_filter, List.mem_range, Bool.not_eq_true',
        List.contains_eq_mem, decide_eq_false_iff_not]
      constructor
      · intro inside
        by_cases inNodes : holder ∈ (counted.trace root).nodes
        · exact Or.inl inNodes
        · exact Or.inr ⟨inside, inNodes⟩
      · rintro (inNodes | ⟨inside, -⟩)
        · exact graph_inside exact ((mem_trace_nodes_iff exact holder).mp inNodes)
        · exact inside
  rw [exact.count_eq, List.count_append, counted.heap.references_eq_flatMap_range,
    (split.flatMap_right counted.heap.referencesOf).count_eq id, List.flatMap_append,
    List.count_append, referencesBeyond]
  omega

theorem internal_eq (exact : counted.Exact (root :: outside)) {id : CellId}
    (member : id ∈ counted.heap.graph root) :
    (counted.trace root).internal id =
      ((counted.trace root).nodes.flatMap counted.heap.referencesOf).count id :=
  internal_eq_count exact.grounded exact.root_made member

theorem strong_discount_eq (exact : counted.Exact (root :: outside)) {id : CellId}
    (member : id ∈ counted.heap.graph root) :
    ((counted.trace root).discount root).strong id =
      outside.count id + (counted.trace root).internal id +
        (counted.referencesBeyond root).count id := by
  have counts := count_eq_within_add_beyond exact id
  have strong := strong_trace exact.grounded exact.root_made
    ((mem_trace_nodes_iff exact id).mpr member)
  rw [← internal_eq exact member, List.count_cons] at counts
  change (if id = root then (counted.trace root).strong id - 1
    else (counted.trace root).strong id) = _
  rw [strong]
  by_cases same : id = root
  · simp only [same, if_true, beq_self_eq_true] at counts ⊢
    omega
  · have unequal : (root == id) = false := by
      simpa using fun equal : root = id => same equal.symm
    simp only [same, if_false, unequal, Bool.false_eq_true] at counts ⊢
    omega

/-- The trace finds a cell of the graph referred to from outside exactly when it is listed
there or a cell that is not of the graph refers to it. -/
theorem mem_outside_iff (exact : counted.Exact (root :: outside)) (id : CellId) :
    id ∈ ((counted.trace root).discount root).outside ↔
      id ∈ counted.heap.graph root ∧
        (id ∈ outside ∨
          ∃ holder, holder ∉ counted.heap.graph root ∧ counted.heap.Refers holder id) := by
  simp only [Trace.outside, List.mem_filter, decide_eq_true_eq]
  refine (and_congr (mem_trace_nodes_iff exact id) Iff.rfl).trans
    (and_congr_right fun member => ?_)
  rw [strong_discount_eq exact member, ← mem_referencesBeyond_iff exact,
    ← List.count_pos_iff (l := outside), ← List.count_pos_iff (l := counted.referencesBeyond root)]
  change (counted.trace root).internal id < _ ↔ _
  omega

/-- The garbage of a trace: the cells of the graph that no chain from outside leads to. -/
theorem mem_garbage_iff (exact : counted.Exact (root :: outside)) (id : CellId) :
    id ∈ ((counted.trace root).discount root).garbage ↔
      id ∈ counted.heap.graph root ∧
        ¬counted.heap.ReachedPast outside (counted.heap.graph root) id := by
  have liveIff : ∀ id, id ∈ ((counted.trace root).discount root).live ↔
      ∃ first ∈ ((counted.trace root).discount root).outside,
        ReflTransGen (counted.heap.Traces root) first id := by
    intro id
    refine (mem_reachable_iff ?_ ?_ id).trans
      (exists_congr fun first => and_congr_right fun member =>
        edges_path_iff exact.grounded exact.root_made ((mem_outside_iff exact first).mp member).1)
    · intro start member
      exact graph_inside exact ((mem_outside_iff exact start).mp member).1
    · intro holder id edge
      have inGraph := mem_graph_of_mem_edges exact.grounded exact.root_made edge
      exact exact.refers_inside
        (Heap.traces_iff.mp ((mem_edges_iff exact.grounded exact.root_made inGraph id).mp edge)).1
  have liveInside : ∀ id ∈ ((counted.trace root).discount root).live,
      id < counted.heap.size := by
    intro id member
    obtain ⟨first, firstMember, chain⟩ := (liveIff id).mp member
    obtain ⟨inGraph, -⟩ := (mem_outside_iff exact first).mp firstMember
    exact graph_inside exact ⟨inGraph.1, inGraph.2.trans chain⟩
  have marked := Marks.contains_ofList liveInside id
  have unmarked : (Marks.ofList counted.heap.size
      ((counted.trace root).discount root).live).contains id = false ↔
        id ∉ ((counted.trace root).discount root).live := by
    rw [← marked, Bool.not_eq_true]
  simp only [Trace.garbage, List.mem_filter, Bool.not_eq_true']
  apply and_congr (mem_trace_nodes_iff exact id) unmarked |>.trans
  refine and_congr_right fun member => not_congr ?_
  rw [liveIff, Heap.reachedPast_graph_iff member]
  simp only [mem_outside_iff exact, and_assoc]

end Trace

end Counted

end ScriptCore
