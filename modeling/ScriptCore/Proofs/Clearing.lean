import Mathlib.Data.Set.Insert
import ScriptCore.Proofs.Knots

/-!
# Clearing frames, one by one or all at once

Frames are cleared one after the other, and after each all is freed that nothing refers to any
more.  What is left in the end is the heap in which all of them have lost their names at once,
less what nothing refers to.  So the names taken decide what is left, and the turns do not.

Reclaiming a frame is exact: it does nothing if the frame is reached from outside the graph
around it, and else takes the names of the frames of the graph that are not reached, and of no
others.
-/

namespace ScriptCore

open Relation

/-- The same cell without names of its own, if it is a frame. -/
def Cell.stripped : Cell → Cell
  | frame content => frame content.cleared
  | cell => cell

theorem Cell.references_stripped_subset (cell : Cell) :
    cell.stripped.references ⊆ cell.references := by
  cases cell with
  | frame content =>
      change content.cleared.references ⊆ content.references
      rw [content.references_cleared]
      exact content.parent?_toList_subset
  | _ => exact List.Subset.refl _

namespace Heap

/-- Heaps with the same numbers in use are equal if they have the same cells. -/
theorem eq_of_get?_eq {left right : Heap} (size_eq : left.size = right.size)
    (same : ∀ id, left.get? id = right.get? id) : left = right := by
  obtain ⟨cells⟩ := left
  obtain ⟨others⟩ := right
  congr 1
  refine Array.ext size_eq fun place inside within => ?_
  simpa [get?, Array.getElem?_eq_getElem inside, Array.getElem?_eq_getElem within] using same place

open Classical in
/-- The heap in which some frames have lost their names. -/
noncomputable def strip (heap : Heap) (group : Set CellId) : Heap :=
  ⟨heap.cells.mapIdx fun id cell => if id ∈ group then cell.map Cell.stripped else cell⟩

section Strip

variable {heap : Heap} {group : Set CellId} {id : CellId}

@[simp]
theorem size_strip (heap : Heap) (group : Set CellId) : (heap.strip group).size = heap.size := by
  simp [strip, size]

theorem get?_strip_of_mem (member : id ∈ group) :
    (heap.strip group).get? id = (heap.get? id).map Cell.stripped := by
  simp only [get?, strip, Array.getElem?_mapIdx]
  cases heap.cells[id]? with
  | none => rfl
  | some cell => simp [member]

theorem get?_strip_of_not_mem (apart : id ∉ group) :
    (heap.strip group).get? id = heap.get? id := by
  simp only [get?, strip, Array.getElem?_mapIdx]
  cases heap.cells[id]? with
  | none => rfl
  | some cell => simp [apart]

@[simp]
theorem contains_strip : (heap.strip group).contains id = heap.contains id := by
  by_cases member : id ∈ group
  · simp [contains, get?_strip_of_mem member]
  · simp [contains, get?_strip_of_not_mem member]

theorem refers_of_strip {holder : CellId} (edge : (heap.strip group).Refers holder id) :
    heap.Refers holder id := by
  by_cases member : holder ∈ group
  · obtain ⟨cell, found⟩ := get?_isSome_of_refers edge
    rw [Refers, referencesOf_of_get? found] at edge
    rw [get?_strip_of_mem member, Option.map_eq_some_iff] at found
    obtain ⟨original, stored, rfl⟩ := found
    rw [Refers, referencesOf_of_get? stored]
    exact original.references_stripped_subset edge
  · exact (refers_iff_of_get?_eq (get?_strip_of_not_mem member) id).mp edge

theorem parent?_strip : (heap.strip group).parent? id = heap.parent? id := by
  by_cases member : id ∈ group
  · simp only [parent?, frame?, get?_strip_of_mem member]
    cases heap.get? id with
    | none => rfl
    | some cell => cases cell <;> simp [Cell.stripped]
  · simp only [parent?, frame?, get?_strip_of_not_mem member]

theorem get?_strip_of_frame?_eq_none (none : heap.frame? id = none) :
    (heap.strip group).get? id = heap.get? id := by
  by_cases member : id ∈ group
  · rw [get?_strip_of_mem member]
    cases found : heap.get? id with
    | none => rfl
    | some cell => cases cell <;> simp_all [frame?, Cell.stripped]
  · exact get?_strip_of_not_mem member

/-- Only frames count in what is stripped. -/
theorem strip_congr {more : Set CellId}
    (same : ∀ id, (heap.frame? id).isSome = true → (id ∈ group ↔ id ∈ more)) :
    heap.strip group = heap.strip more := by
  refine eq_of_get?_eq (by simp) fun id => ?_
  cases found : heap.frame? id with
  | none => rw [get?_strip_of_frame?_eq_none found, get?_strip_of_frame?_eq_none found]
  | some frame =>
      have iff := same id (by simp [found])
      by_cases member : id ∈ group
      · rw [get?_strip_of_mem member, get?_strip_of_mem (iff.mp member)]
      · rw [get?_strip_of_not_mem member, get?_strip_of_not_mem (mt iff.mpr member)]

/-- A group is stripped by taking the names of one frame first. -/
theorem strip_insert {frame : Frame} (found : heap.frame? id = some frame) :
    heap.strip (insert id group) = (heap.set id (.frame frame.cleared)).strip group := by
  have stored := frame?_eq_some_iff.mp found
  have present : heap.contains id = true := by simp [contains, stored]
  refine eq_of_get?_eq (by simp) fun other => ?_
  by_cases same : other = id
  · subst same
    have now : (heap.set other (.frame frame.cleared)).get? other =
        some (.frame frame.cleared) := by simp [get?_set, present]
    rw [get?_strip_of_mem (Set.mem_insert other group), stored]
    by_cases member : other ∈ group
    · simp [get?_strip_of_mem member, now, Cell.stripped]
    · simp [get?_strip_of_not_mem member, now, Cell.stripped]
  · have before : (heap.set id (.frame frame.cleared)).get? other = heap.get? other := by
      simp [get?_set, same]
    by_cases member : other ∈ group
    · rw [get?_strip_of_mem (Set.mem_insert_of_mem id member), get?_strip_of_mem member, before]
    · have apart : other ∉ insert id group := by simp [same, member]
      rw [get?_strip_of_not_mem apart, get?_strip_of_not_mem member, before]

end Strip

namespace Tidied

variable {outside : List CellId} {before after : Heap}

/-- Freeing goes on alike when frames have lost their names. -/
theorem strip (tidied : Tidied outside ∅ before after) (group : Set CellId) :
    Tidied outside ∅ (before.strip group) (after.strip group) where
  size_eq := by simpa using tidied.size_eq
  cell id := by
    have kept : after.get? id = before.get? id ∨ after.get? id = none := by
      rcases tidied.cell id with same | gone | ⟨member, -⟩
      · exact Or.inl same
      · exact Or.inr gone
      · exact absurd member (Set.notMem_empty id)
    rcases kept with same | gone
    · by_cases member : id ∈ group
      · exact Or.inl (by rw [get?_strip_of_mem member, get?_strip_of_mem member, same])
      · exact Or.inl (by rw [get?_strip_of_not_mem member, get?_strip_of_not_mem member, same])
    · refine Or.inr (Or.inl ?_)
      rw [get?_strip_of_frame?_eq_none (by simp [frame?, gone]), gone]
  referred id held present := by
    rw [contains_strip] at present ⊢
    refine tidied.referred id (held.imp_right ?_) present
    rintro ⟨holder, edge⟩
    exact ⟨holder, refers_of_strip edge⟩
  supported members holds _ id member := by
    have holdsBefore : before.Supported outside members := by
      intro id member
      refine (holds id member).imp_right ?_
      rintro ⟨holder, inMembers, edge⟩
      exact ⟨holder, inMembers, refers_of_strip edge⟩
    have same := tidied.supported members holdsBefore (by simp) id member
    by_cases inGroup : id ∈ group
    · rw [get?_strip_of_mem inGroup, get?_strip_of_mem inGroup, same]
    · rw [get?_strip_of_not_mem inGroup, get?_strip_of_not_mem inGroup, same]

end Tidied

end Heap

namespace Counted

variable {outside : List CellId}

/-- What is left after freeing is decided by the references held outside. -/
theorem eq_of_tidied {heap : Heap} {left right : Counted} (leftExact : left.Exact outside)
    (leftSettled : left.Settled) (leftTidied : heap.Tidied outside ∅ left.heap)
    (rightExact : right.Exact outside) (rightSettled : right.Settled)
    (rightTidied : heap.Tidied outside ∅ right.heap) : left = right := by
  -- The cells of one heap hold each other up, so the other has them too.
  have kept : ∀ {first second : Counted}, first.Exact outside → first.Settled →
      heap.Tidied outside ∅ first.heap → heap.Tidied outside ∅ second.heap →
      ∀ id, first.heap.contains id = true → second.heap.get? id = first.heap.get? id := by
    intro first second exact settled tidied other id present
    have same : ∀ id, first.heap.contains id = true → first.heap.get? id = heap.get? id := by
      intro id present
      rcases tidied.cell id with same | gone | ⟨member, -⟩
      · exact same
      · simp [Heap.contains, gone] at present
      · exact absurd member (Set.notMem_empty id)
    have holds : heap.Supported outside {id | first.heap.contains id = true} := by
      intro id present
      refine (exact.referred_of_settled settled present).imp_right ?_
      rintro ⟨holder, edge⟩
      obtain ⟨cell, found⟩ := Heap.get?_isSome_of_refers edge
      exact ⟨holder, by simp [Heap.contains, found], tidied.refers edge⟩
    rw [other.supported _ holds (by simp) id present, same id present]
  have heaps : left.heap = right.heap := by
    refine Heap.eq_of_get?_eq (leftTidied.size_eq.trans rightTidied.size_eq.symm) fun id => ?_
    by_cases inLeft : left.heap.contains id = true
    · exact (kept leftExact leftSettled leftTidied rightTidied id inLeft).symm
    · by_cases inRight : right.heap.contains id = true
      · exact kept rightExact rightSettled rightTidied leftTidied id inRight
      · simp only [Heap.contains, Bool.not_eq_true, Option.isSome_eq_false_iff,
          Option.isNone_iff_eq_none] at inLeft inRight
        rw [inLeft, inRight]
  obtain ⟨leftHeap, ⟨leftCounts⟩⟩ := left
  obtain ⟨rightHeap, ⟨rightCounts⟩⟩ := right
  subst heaps
  congr 2
  refine Array.ext (leftExact.sized.trans rightExact.sized.symm) fun place inside within => ?_
  have counts := (leftExact.count_eq place).trans (rightExact.count_eq place).symm
  simpa [count, Census.count, inside, within] using counts

/-- Clearing frames one by one leaves what is left of the heap in which all are cleared. -/
theorem tidied_clearFrames {counted : Counted} (exact : counted.Exact outside)
    (settled : counted.Settled) (ids : List CellId) :
    (counted.heap.strip {id | id ∈ ids}).Tidied outside ∅ (clearFrames ids counted).2.heap := by
  induction ids generalizing counted with
  | nil =>
      have same : counted.heap.strip {id | id ∈ []} = counted.heap :=
        Heap.eq_of_get?_eq (by simp) fun id => Heap.get?_strip_of_not_mem (by simp)
      rw [same]
      exact .refl _ _ _
  | cons first rest ih =>
      have split : {id | id ∈ first :: rest} = insert first {id | id ∈ rest} := by
        ext id
        simp
      rw [split]
      unfold clearFrames
      cases found : counted.heap.frame? first with
      | none =>
          have same : counted.heap.strip (insert first {id | id ∈ rest}) =
              counted.heap.strip {id | id ∈ rest} := by
            refine Heap.strip_congr fun id isFrame => ?_
            have different : id ≠ first := by
              rintro rfl
              simp [found] at isFrame
            simp [different]
          have unchanged : counted.clearFrame first = counted := by simp [clearFrame, found]
          rw [same, unchanged]
          split <;> exact ih exact settled
      | some frame =>
          have stored := Heap.frame?_eq_some_iff.mp found
          have present : counted.heap.contains first = true := by simp [Heap.contains, stored]
          have fewer : (Cell.frame frame.cleared).references ⊆
              counted.heap.referencesOf first := by
            rw [Heap.referencesOf_of_get? stored]
            exact (Cell.frame frame).references_stripped_subset
          obtain ⟨exactNext, settledNext, freed⟩ := replace_spec exact settled present fewer
          have next : counted.clearFrame first =
              counted.replace first (.frame frame.cleared) := by simp [clearFrame, found]
          rw [if_pos present, next, Heap.strip_insert found]
          simpa using (freed.strip {id | id ∈ rest}).trans (ih exactNext settledNext)

end Counted

namespace Heap

instance (heap : Heap) : Decidable heap.Ordered :=
  decidable_of_iff (∀ id < heap.size, ∀ parent ∈ heap.parent? id, parent < id) <| by
    refine ⟨fun below id parent link => ?_, fun ordered id _ parent link => ordered id parent link⟩
    have nested : heap.Nested id := ⟨parent, link⟩
    exact below id (lt_size_of_contains nested.contains) parent link

/-- The frames of the graph around a frame that no chain from outside leads to. -/
def unreachedFrames (heap : Heap) (outside : List CellId) (root : CellId) : Set CellId :=
  {id | id ∈ heap.garbage outside root ∧ (heap.frame? id).isSome = true}

variable {heap : Heap} {outside : List CellId} {root id : CellId}

theorem mem_graph_self (ordered : heap.Ordered) (nested : heap.Nested root) :
    root ∈ heap.graph root := by
  obtain ⟨frame, found, notTop⟩ := nested_iff.mp nested
  refine ⟨?_, .refl⟩
  simp [enters, not_mem_around_self ordered, found, notTop]

/-- A cell that refers to another is no frame at the top level. -/
theorem not_isTop_of_refers {holder : CellId} (edge : heap.Refers holder id) :
    ∀ frame, heap.frame? holder = some frame → frame.isTop = false := by
  intro frame found
  cases top : frame.isTop with
  | false => rfl
  | true => exact absurd edge (not_refers_of_isTop found top)

/-- With the frames around the root, all that is not garbage is held up without the names of
garbage, but for frames at the top level. -/
theorem supported_strip (ordered : heap.Ordered)
    (referred : ∀ id, heap.contains id = true →
      id ∈ root :: outside ∨ ∃ holder, heap.Refers holder id) :
    (heap.strip (heap.unreachedFrames outside root)).Supported (root :: outside)
      {id | id = root ∨ heap.contains id = true ∧ id ∉ heap.garbage outside root ∧
        ∀ frame, heap.frame? id = some frame → frame.isTop = false} := by
  have heldBy : ∀ holder id, holder ∉ heap.garbage outside root → heap.Refers holder id →
      ∃ other ∈ {id | id = root ∨ heap.contains id = true ∧ id ∉ heap.garbage outside root ∧
          ∀ frame, heap.frame? id = some frame → frame.isTop = false},
        (heap.strip (heap.unreachedFrames outside root)).Refers other id := by
    intro holder id live edge
    obtain ⟨cell, found⟩ := get?_isSome_of_refers edge
    refine ⟨holder, Or.inr ⟨by simp [contains, found], live, not_isTop_of_refers edge⟩, ?_⟩
    exact (refers_iff_of_get?_eq (get?_strip_of_not_mem fun member => live member.1) id).mpr edge
  rintro id (rfl | ⟨present, live, notTop⟩)
  · exact Or.inl List.mem_cons_self
  · by_cases inGraph : id ∈ heap.graph root
    · -- The last step of a chain from outside comes from a cell that is no garbage either.
      obtain ⟨first, entry, chain⟩ : heap.ReachedPast outside (heap.graph root) id := by
        by_contra unreached
        exact live ⟨inGraph, unreached⟩
      rcases ReflTransGen.cases_tail chain with rfl | ⟨holder, before, edge⟩
      · rcases entry with listed | ⟨holder, apart, edge⟩
        · exact Or.inl (List.mem_cons_of_mem root listed)
        · exact Or.inr (heldBy holder id (fun member => apart member.1) edge)
      · exact Or.inr (heldBy holder id (fun member => member.2 ⟨first, entry, before⟩) edge)
    · rcases referred id present with listed | ⟨holder, edge⟩
      · exact Or.inl listed
      · by_cases garbage : holder ∈ heap.garbage outside root
        · rcases leaves_graph garbage.1 edge inGraph with enclosing | ⟨frame, found, top⟩
          · -- A frame around the root is held by the frame inside it, which keeps its parent.
            obtain ⟨inner, path, link⟩ :=
              TransGen.tail'_iff.mp ((mem_around_iff ordered).mp enclosing)
            refine Or.inr ⟨inner, ?_, refers_parent (parent?_strip.trans link)⟩
            rcases reflTransGen_iff_eq_or_transGen.mp path with same | further
            · exact Or.inl same
            · have around := (mem_around_iff ordered).mpr further
              have nested : heap.Nested inner := ⟨id, link⟩
              refine Or.inr ⟨nested.contains,
                fun member => not_mem_graph_of_mem_around around member.1, fun frame found => ?_⟩
              exact not_isTop_of_refers (refers_parent link) frame found
          · simp [notTop frame found] at top
        · exact Or.inr (heldBy holder id garbage edge)

/-- What is done to a heap by taking the names of the frames around `root` that are not
reached. -/
structure Empties (outside : List CellId) (root : CellId) (before after : Heap) : Prop where
  /-- A frame of the graph that no chain from outside leads to loses its names, or goes. -/
  emptied : ∀ id ∈ before.graph root, ¬before.ReachedPast outside (before.graph root) id →
    ∀ frame, before.frame? id = some frame →
      after.get? id = some (.frame frame.cleared) ∨ after.get? id = none
  /-- The root is such a frame, and stays. -/
  own : ∃ frame, before.frame? root = some frame ∧ after.get? root = some (.frame frame.cleared)
  /-- Whatever of the graph a chain from outside leads to stays as it was. -/
  reached : ∀ id ∈ before.graph root, before.ReachedPast outside (before.graph root) id →
    after.get? id = before.get? id
  /-- Whatever else still exists is as it was. -/
  others : ∀ id, (id ∈ before.graph root → ¬before.ReachedPast outside (before.graph root) id →
      before.frame? id = none) →
    after.contains id = true → after.get? id = before.get? id

end Heap

namespace Counted

variable {outside : List CellId} {counted : Counted} {root : CellId}

theorem mem_doomedFrames_iff (exact : counted.Exact (root :: outside))
    (adrift : counted.heap.Adrift outside root) (id : CellId) :
    id ∈ counted.doomedFrames root ↔ id ∈ counted.heap.unreachedFrames outside root := by
  have rootGarbage : root ∈ ((counted.trace root).discount root).garbage :=
    (mem_garbage_iff exact root).mpr adrift
  simp only [doomedFrames, List.contains_iff_mem, rootGarbage, if_true, List.mem_filter,
    mem_garbage_iff exact]
  rfl

/-- Reclaiming a frame that is adrift leaves what is left of the heap in which all frames that
are not reached are without names. -/
theorem tidied_reclaim (exact : counted.Exact (root :: outside)) (settled : counted.Settled)
    (adrift : counted.heap.Adrift outside root) :
    (counted.heap.strip (counted.heap.unreachedFrames outside root)).Tidied (root :: outside) ∅
      (counted.reclaim root).2.heap := by
  have same : {id | id ∈ counted.doomedFrames root} =
      counted.heap.unreachedFrames outside root := by
    ext id
    exact mem_doomedFrames_iff exact adrift id
  rw [← same]
  exact tidied_clearFrames exact settled (counted.doomedFrames root)

theorem empties_reclaim (exact : counted.Exact (root :: outside)) (settled : counted.Settled)
    (ordered : counted.heap.Ordered) (nested : counted.heap.Nested root)
    (adrift : counted.heap.Adrift outside root) :
    counted.heap.Empties outside root (counted.reclaim root).2.heap := by
  have tidied := tidied_reclaim exact settled adrift
  have supported := Heap.supported_strip ordered fun id => exact.referred_of_settled settled
  have kept := tidied.supported _ supported (by simp)
  have cell : ∀ id, (counted.reclaim root).2.heap.get? id =
        (counted.heap.strip (counted.heap.unreachedFrames outside root)).get? id ∨
      (counted.reclaim root).2.heap.get? id = none := by
    intro id
    rcases tidied.cell id with same | gone | ⟨member, -⟩
    · exact Or.inl same
    · exact Or.inr gone
    · exact absurd member (Set.notMem_empty id)
  have cleared : ∀ id ∈ counted.heap.garbage outside root, ∀ frame,
      counted.heap.frame? id = some frame →
      (counted.heap.strip (counted.heap.unreachedFrames outside root)).get? id =
        some (.frame frame.cleared) := by
    intro id garbage frame found
    have member : id ∈ counted.heap.unreachedFrames outside root := ⟨garbage, by simp [found]⟩
    rw [Heap.get?_strip_of_mem member, Heap.frame?_eq_some_iff.mp found]
    rfl
  obtain ⟨rootFrame, rootFound, -⟩ := Heap.nested_iff.mp nested
  refine ⟨fun id inGraph unreached frame found => ?_, ⟨rootFrame, rootFound, ?_⟩,
    fun id inGraph reached => ?_, fun id other present => ?_⟩
  · exact (cell id).imp_left fun same => same.trans (cleared id ⟨inGraph, unreached⟩ frame found)
  · exact (kept root (Or.inl rfl)).trans (cleared root adrift rootFrame rootFound)
  · have live : id ∉ counted.heap.garbage outside root := fun garbage => garbage.2 reached
    have stays : (counted.heap.strip (counted.heap.unreachedFrames outside root)).get? id =
        counted.heap.get? id := Heap.get?_strip_of_not_mem fun member => live member.1
    by_cases present : counted.heap.contains id = true
    · refine (kept id (Or.inr ⟨present, live, fun frame found => ?_⟩)).trans stays
      have entered := Heap.enters_of_mem_graph inGraph
      exact (by simpa [Heap.enters, found] using entered : _ ∧ frame.isTop = false).2
    · have absent : counted.heap.get? id = none := by simpa [Heap.contains] using present
      rcases cell id with same | gone
      · exact same.trans stays
      · exact gone.trans absent.symm
  · have apart : id ∉ counted.heap.unreachedFrames outside root := by
      rintro ⟨garbage, isFrame⟩
      simp [other garbage.1 garbage.2] at isFrame
    rcases cell id with same | gone
    · exact same.trans (Heap.get?_strip_of_not_mem apart)
    · simp [Heap.contains, gone] at present

/-- Reclaiming decides exactly.  Of a frame inside another one, in a heap with exact counts in
which nothing is left to free: if a chain of references from outside the graph around it leads
to it, nothing is cleared and nothing changes; else at least one frame is cleared, and the
frames of the graph that no such chain leads to lose their names, and nothing else changes. -/
theorem reclaim_decides_exactly (counted : Counted) (outside : List CellId) (root : CellId)
    (exact : counted.Exact (root :: outside)) (settled : counted.Settled)
    (ordered : counted.heap.Ordered) (nested : counted.heap.Nested root) :
    (counted.heap.ReachedPast outside (counted.heap.graph root) root →
      counted.reclaim root = (0, counted)) ∧
    (¬counted.heap.ReachedPast outside (counted.heap.graph root) root →
      1 ≤ (counted.reclaim root).1 ∧
        counted.heap.Empties outside root (counted.reclaim root).2.heap) := by
  refine ⟨fun reached => ?_, fun unreached => ?_⟩
  · exact reclaim_of_not_adrift exact fun adrift => adrift.2 reached
  · have adrift : counted.heap.Adrift outside root :=
      ⟨Heap.mem_graph_self ordered nested, unreached⟩
    obtain ⟨frame, found, -⟩ := Heap.nested_iff.mp nested
    exact ⟨(reclaim_of_adrift exact settled adrift (by simp [found])).1,
      empties_reclaim exact settled ordered nested adrift⟩

end Counted

/-- The frame of a call about to return holds a function made in it, and a list; nothing outside
leads back to the frame. -/
theorem Machine.returningClosure_is_emptied :
    returningClosure.counted.Exact (2 :: returningClosure.roots.erase 2) ∧
      returningClosure.counted.Settled ∧ returningClosure.counted.heap.Ordered ∧
      returningClosure.counted.heap.Nested 2 ∧
      ¬returningClosure.counted.heap.ReachedPast (returningClosure.roots.erase 2)
        (returningClosure.counted.heap.graph 2) 2 ∧
      1 ≤ (returningClosure.counted.reclaim 2).1 ∧
      returningClosure.counted.heap.Empties (returningClosure.roots.erase 2) 2
        (returningClosure.counted.reclaim 2).2.heap := by
  have bounded : returningClosure.Bounded := by decide
  have handle : 2 ∈ returningClosure.roots := by decide
  obtain ⟨exactRoots, settled, -⟩ := counted_spec bounded
  have exact := exactRoots.perm (List.perm_cons_erase handle)
  have ordered : returningClosure.counted.heap.Ordered := by decide +kernel
  have nested : returningClosure.counted.heap.Nested 2 := by decide +kernel
  have unreached := ((Counted.mem_garbage_iff exact 2).mp (by decide +kernel)).2
  exact ⟨exact, settled, ordered, nested, unreached,
    (Counted.reclaim_decides_exactly _ _ 2 exact settled ordered nested).2 unreached⟩

end ScriptCore
