import Mathlib.Data.List.Flatten
import Mathlib.Data.List.Perm.Subperm
import ScriptCore.Proofs.Clearing

/-!
# Every reference is counted once

A trace counts each reference that a cell of the graph holds to a cell of the graph, as often as it
is held, and no other.  So no cell has more references from within the graph than it has at all.
-/

namespace ScriptCore

open Relation

namespace Heap

variable {heap : Heap} {root id : CellId}

/-- A cell is neither a frame at the top level nor a frame around `root`. -/
def Open (heap : Heap) (root id : CellId) : Prop :=
  ¬TransGen (fun inner parent => heap.parent? inner = some parent) root id ∧
    ∀ frame, heap.frame? id = some frame → frame.isTop = false

theorem enters_around_iff (ordered : heap.Ordered) :
    heap.enters (heap.around root) id = true ↔ heap.Open root id := by
  rw [Open, ← mem_around_iff ordered]
  cases found : heap.frame? id <;> simp [enters, found]

/-- What is reached from a frame through open cells is the graph around it. -/
theorem mem_graph_iff_open (ordered : heap.Ordered) :
    id ∈ heap.graph root ↔ heap.Open root root ∧
      ReflTransGen (fun holder target => heap.Refers holder target ∧ heap.Open root target)
        root id := by
  have step : heap.Traces root =
      fun holder target => heap.Refers holder target ∧ heap.Open root target := by
    funext holder target
    exact propext (traces_iff.trans (and_congr_right fun _ => enters_around_iff ordered))
  rw [← step, ← enters_around_iff ordered]
  rfl

end Heap

namespace Counted

section

variable {outside : List CellId} {counted : Counted} {root id : CellId}

/-- Of the references that a node holds, a trace knows those that lead to nodes. -/
theorem edges_eq_filter (grounded : counted.heap.Grounded) (made : root < counted.heap.size)
    (member : id ∈ (counted.trace root).nodes) :
    (counted.trace root).edges id =
      (counted.heap.referencesOf id).filter fun target =>
        target ∈ (counted.trace root).nodes := by
  rw [edges_trace grounded made member]
  refine List.filter_congr fun target edge => ?_
  have holder := (mem_nodes_iff_mem_graph grounded made id).mp member
  rw [Bool.eq_iff_iff, decide_eq_true_iff, mem_nodes_iff_mem_graph grounded made target]
  exact ⟨Heap.mem_graph_of_refers holder edge, Heap.enters_of_mem_graph⟩

/-- Some cells, each named once, hold no more references than all cells together. -/
theorem count_flatMap_le {ids : List CellId} (distinct : ids.Nodup)
    (inside : ∀ holder ∈ ids, holder < counted.heap.size) (id : CellId) :
    (ids.flatMap counted.heap.referencesOf).count id ≤ counted.heap.references.count id := by
  have part : ids.Subperm (List.range counted.heap.size) :=
    distinct.subperm fun holder member => List.mem_range.mpr (inside holder member)
  obtain ⟨chosen, perm, sublist⟩ := part
  rw [counted.heap.references_eq_flatMap_range, ← (perm.flatMap_right _).count_eq]
  exact (sublist.flatMap _).count_le id

/-- What is held within the graph is part of what is held at all. -/
theorem outside_add_internal_le (exact : counted.Exact outside) (made : root < counted.heap.size)
    (member : id ∈ (counted.trace root).nodes) :
    outside.count id + (counted.trace root).internal id ≤ (counted.trace root).strong id := by
  have grounded := exact.grounded
  have inGraph := (mem_nodes_iff_mem_graph grounded made id).mp member
  have within := count_flatMap_le (nodup_nodes grounded made) (fun holder listed =>
    graph_made grounded made ((mem_nodes_iff_mem_graph grounded made holder).mp listed)) id
  rw [strong_trace grounded made member, internal_eq_count grounded made inGraph, exact.count_eq,
    List.count_append]
  omega

end

/-- What a trace of the graph around a frame should say. -/
structure Charts (counted : Counted) (root : CellId) (trace : Trace) : Prop where
  distinct : trace.nodes.Nodup
  /-- The nodes are what is reached through open cells. -/
  node : ∀ id, id ∈ trace.nodes ↔ counted.heap.Open root root ∧
    ReflTransGen (fun holder target => counted.heap.Refers holder target ∧
      counted.heap.Open root target) root id
  /-- The edges of a node are the references that it holds to nodes, as often as it holds them. -/
  edges : ∀ id ∈ trace.nodes, trace.edges id =
    (counted.heap.referencesOf id).filter fun target => target ∈ trace.nodes
  /-- Of the references to a node those are internal that nodes hold. -/
  internal : ∀ id ∈ trace.nodes, trace.internal id =
    (trace.nodes.flatMap counted.heap.referencesOf).count id
  strong : ∀ id ∈ trace.nodes, trace.strong id = counted.count id

/-- A trace counts each reference exactly once: however cyclic the heap is, exploring it ends, the
nodes are what is reached from the frame through open cells, and what is known of each of them are
the references to and from nodes.  If the counts are exact, none is smaller than what is counted
within the graph, also when one handle to the frame is left out of account. -/
theorem trace_counts_each_reference (counted : Counted) (root : CellId)
    (grounded : counted.heap.Grounded) (ordered : counted.heap.Ordered)
    (made : root < counted.heap.size) :
    (∀ limit, counted.heap.size < limit →
      (counted.visit (counted.heap.around root) limit root (.empty counted.heap.size)).2 =
        counted.explore root) ∧
    counted.Charts root (counted.trace root) ∧
    (∀ outside, counted.Exact outside → ∀ id ∈ (counted.trace root).nodes,
      (counted.trace root).internal id ≤ (counted.trace root).strong id) ∧
    ∀ outside, counted.Exact (root :: outside) → ∀ id ∈ (counted.trace root).nodes,
      (counted.trace root).internal id ≤ ((counted.trace root).discount root).strong id := by
  refine ⟨fun limit deep => ?_, ?_, fun outside exact id member => ?_,
    fun outside exact id member => ?_⟩
  · exact congrArg Prod.snd (visit_empty_eq _ grounded made deep (Nat.lt_succ_self _))
  · exact
      { distinct := nodup_nodes grounded made
        node := fun id => (mem_nodes_iff_mem_graph grounded made id).trans
          (Heap.mem_graph_iff_open ordered)
        edges := fun id => edges_eq_filter grounded made
        internal := fun id member =>
          internal_eq_count grounded made ((mem_nodes_iff_mem_graph grounded made id).mp member)
        strong := fun id => strong_trace grounded made }
  · exact Nat.le_of_add_left_le (outside_add_internal_le exact made member)
  · have counts := strong_discount_eq exact ((mem_trace_nodes_iff exact id).mp member)
    omega

end Counted

namespace Machine

/-- The names of a frame are bound to a list, to a dict and to a function made in the frame.  The
list holds itself, and holds a tuple twice; the tuple is both key and value of the dict, and holds
the function. -/
def tangledFrame : Machine where
  heap := ⟨#[
    some (.frame { scope := .global, captured := true }),
    some (.frame
      { scope := .nested 0
          [(⟨"items", 0⟩, .list 2), (⟨"table", 1⟩, .dict 3), (⟨"self", 2⟩, .function 5)]
        captured := true }),
    some (.list [.list 2, .tuple 4, .int 7, .tuple 4]),
    some (.dict [(⟨.tuple 4, rfl⟩, .tuple 4)]),
    some (.tuple [.function 5, .bool true]),
    some (.function
      { name := ⟨"self", 2⟩, params := [], defaults := [], body := [], defining := 1 })]⟩
  globals := [(⟨"shared", 3⟩, .tuple 4)]
  held := [.cell 1, .cell 0]

theorem tangledFrame_is_charted :
    tangledFrame.counted.heap.Grounded ∧ tangledFrame.counted.heap.Ordered ∧
      1 < tangledFrame.counted.heap.size ∧
      (∀ limit, tangledFrame.counted.heap.size < limit →
        (tangledFrame.counted.visit (tangledFrame.counted.heap.around 1) limit 1
          (.empty tangledFrame.counted.heap.size)).2 = tangledFrame.counted.explore 1) ∧
      tangledFrame.counted.Charts 1 (tangledFrame.counted.trace 1) ∧
      tangledFrame.counted.Exact tangledFrame.roots ∧
      4 ∈ (tangledFrame.counted.trace 1).nodes ∧
      (tangledFrame.counted.trace 1).edges 2 = [2, 4, 4] ∧
      (tangledFrame.counted.trace 1).internal 4 = 4 ∧
      (tangledFrame.counted.trace 1).internal 4 ≤ (tangledFrame.counted.trace 1).strong 4 ∧
      tangledFrame.counted.Exact (1 :: tangledFrame.roots.erase 1) ∧
      (tangledFrame.counted.trace 1).internal 1 ≤
        ((tangledFrame.counted.trace 1).discount 1).strong 1 := by
  have bounded : tangledFrame.Bounded := by decide
  have exact := (counted_spec bounded).1
  have handle : 1 ∈ tangledFrame.roots := by decide
  have exactHandle := exact.perm (List.perm_cons_erase handle)
  have ordered : tangledFrame.counted.heap.Ordered := by decide +kernel
  have made : 1 < tangledFrame.counted.heap.size := by decide +kernel
  obtain ⟨ends, charts, covered, coveredHandle⟩ :=
    Counted.trace_counts_each_reference _ 1 exact.grounded ordered made
  have four : 4 ∈ (tangledFrame.counted.trace 1).nodes := by decide +kernel
  exact ⟨exact.grounded, ordered, made, ends, charts, exact, four, by decide +kernel,
    by decide +kernel, covered _ exact 4 four, exactHandle,
    coveredHandle _ exactHandle 1 (by decide +kernel)⟩

end Machine

end ScriptCore
