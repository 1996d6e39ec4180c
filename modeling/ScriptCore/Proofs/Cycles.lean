import ScriptCore.Proofs.CallFrames
import ScriptCore.Proofs.Clearing

/-!
# What counting cannot free

A heap in which nothing is left to free holds what is reached from outside and what is reached
from a cycle of references, and nothing else.

When the handle of a call frame is given up that nothing outside its graph leads to, and
something still refers to the frame, the frames of the graph lose their names.  A frame without
names refers to the frame around it only, and frames lie inside older ones, so no cycle is left
that passes through a frame.  A frame that nothing else refers to is freed without a look at its
graph, and cycles through other frames stay.
-/

namespace ScriptCore

open Relation

namespace Heap

/-- A chain of references leads from a cell back to it, through cells of a group only. -/
def OnCycle (heap : Heap) (group : Set CellId) (id : CellId) : Prop :=
  TransGen (fun holder target => holder ∈ group ∧ heap.Refers holder target) id id

/-- A chain of references leads to a cell from outside or from a cycle. -/
def Upheld (heap : Heap) (outside : List CellId) (id : CellId) : Prop :=
  heap.ReachedFrom outside id ∨ ∃ knot, heap.OnCycle Set.univ knot ∧ heap.Reaches knot id

section Upheld

variable {heap : Heap} {outside : List CellId} {group : Set CellId} {id knot : CellId}

theorem onCycle_univ_iff : heap.OnCycle Set.univ id ↔ TransGen heap.Refers id id := by
  simp [OnCycle]

/-- A cycle goes through a group if all that leads to it and back is of the group. -/
theorem OnCycle.of_forall (cycle : heap.OnCycle Set.univ knot)
    (member : ∀ id, heap.Reaches knot id → heap.Reaches id knot → id ∈ group) :
    heap.OnCycle group knot := by
  have onward : ∀ id, TransGen heap.Refers knot id → heap.Reaches id knot →
      TransGen (fun holder target => holder ∈ group ∧ heap.Refers holder target) knot id := by
    intro id path
    induction path with
    | single edge => exact fun _ => .single ⟨member knot .refl .refl, edge⟩
    | @tail holder id path edge ih =>
        intro back
        have holderBack : heap.Reaches holder knot := .head edge back
        exact .tail (ih holderBack) ⟨member holder path.to_reflTransGen holderBack, edge⟩
  exact onward knot (onCycle_univ_iff.mp cycle) .refl

/-- All that leads to a cycle and back is on a cycle too. -/
theorem OnCycle.around (cycle : heap.OnCycle Set.univ knot) (onward : heap.Reaches knot id)
    (back : heap.Reaches id knot) : TransGen heap.Refers id id :=
  (TransGen.trans_right back (onCycle_univ_iff.mp cycle)).trans_left onward

theorem OnCycle.mono {before after : Heap}
    (fewer : ∀ holder target, after.Refers holder target → before.Refers holder target)
    (cycle : after.OnCycle group knot) : before.OnCycle group knot :=
  TransGen.mono (fun _ _ step => ⟨step.1, fewer _ _ step.2⟩) _ _ cycle

theorem Upheld.mono {before after : Heap}
    (fewer : ∀ holder target, after.Refers holder target → before.Refers holder target)
    (upheld : after.Upheld outside id) : before.Upheld outside id := by
  rcases upheld with ⟨start, listed, chain⟩ | ⟨knot, cycle, chain⟩
  · exact Or.inl ⟨start, listed, chain.mono fewer⟩
  · exact Or.inr ⟨knot, cycle.mono fewer, chain.mono fewer⟩

/-- What is reached from outside or from a cycle is held up by more of it. -/
theorem supported_upheld (heap : Heap) (outside : List CellId) :
    heap.Supported outside {id | heap.Upheld outside id} := by
  rintro id (reached | ⟨knot, cycle, chain⟩)
  · rcases reached.cases_last with listed | ⟨holder, before, edge⟩
    · exact Or.inl listed
    · exact Or.inr ⟨holder, Or.inl before, edge⟩
  · rcases ReflTransGen.cases_tail chain with rfl | ⟨holder, before, edge⟩
    · obtain ⟨holder, before, edge⟩ := TransGen.tail'_iff.mp (onCycle_univ_iff.mp cycle)
      exact Or.inr ⟨holder, Or.inr ⟨id, cycle, before⟩, edge⟩
    · exact Or.inr ⟨holder, Or.inr ⟨knot, cycle, before⟩, edge⟩

end Upheld

end Heap

namespace Counted

variable {outside : List CellId} {counted : Counted} {id : CellId}

/-- Where nothing is left to free, a cell that exists is reached from outside or from a
cycle. -/
theorem upheld_of_contains (exact : counted.Exact outside) (settled : counted.Settled)
    (present : counted.heap.contains id = true) : counted.heap.Upheld outside id := by
  classical
  by_contra notUpheld
  -- Among the cells that lead to this one, take one that leads to all that lead to it.
  let leading := (List.range counted.heap.size).filter fun other => counted.heap.Reaches other id
  have listed : ∀ other, counted.heap.contains other = true → counted.heap.Reaches other id →
      other ∈ leading := by
    intro other existing chain
    simpa [leading, chain] using Heap.lt_size_of_contains existing
  obtain ⟨least, member, minimal⟩ :=
    @exists_minimal counted.heap.Reaches ReflTransGen.trans leading
      (List.ne_nil_of_mem (listed id present .refl))
  have chain : counted.heap.Reaches least id := by simpa using (List.mem_filter.mp member).2
  have existing : counted.heap.contains least = true := by
    rcases ReflTransGen.cases_head chain with rfl | ⟨next, edge, -⟩
    · exact present
    · obtain ⟨cell, found⟩ := Heap.get?_isSome_of_refers edge
      simp [Heap.contains, found]
  rcases exact.referred_of_settled settled existing with root | ⟨holder, edge⟩
  · exact notUpheld (Or.inl ⟨least, root, chain⟩)
  · obtain ⟨cell, found⟩ := Heap.get?_isSome_of_refers edge
    have before := listed holder (by simp [Heap.contains, found]) (.head edge chain)
    have back := minimal holder before (.single edge)
    have cycle : counted.heap.OnCycle Set.univ least :=
      Heap.onCycle_univ_iff.mpr (TransGen.tail'_iff.mpr ⟨holder, back, edge⟩)
    exact notUpheld (Or.inr ⟨least, cycle, chain⟩)

/-- Freeing spares exactly what is reached from outside or from a cycle. -/
theorem contains_iff_upheld {before : Heap} (exact : counted.Exact outside)
    (settled : counted.Settled) (tidied : before.Tidied outside ∅ counted.heap)
    (present : before.contains id = true) :
    counted.heap.contains id = true ↔ before.Upheld outside id := by
  constructor
  · intro stays
    exact (upheld_of_contains exact settled stays).mono fun _ _ => tidied.refers
  · intro upheld
    rw [Heap.contains, tidied.supported _ (before.supported_upheld outside) (by simp) id upheld]
    exact present

end Counted

namespace Heap

/-- Only functions made in a frame and frames inside it refer to it, and both refer to frames. -/
structure Linked (heap : Heap) : Prop where
  isFrame : ∀ id cell target, heap.get? id = some cell → cell.link? = some target →
    (heap.frame? target).isSome = true
  link : ∀ id cell target, heap.get? id = some cell → target ∈ cell.references →
    (heap.frame? target).isSome = true → cell.link? = some target

/-- The frame that a function was made in, and every frame around it, is marked as captured. -/
def Marked (heap : Heap) : Prop :=
  ∀ code function, heap.function? code = some function →
    ∀ frame ∈ function.defining :: heap.around function.defining, heap.Captured frame

instance (heap : Heap) : Decidable heap.Linked :=
  decidable_of_iff (∀ id < heap.size, ∀ cell ∈ heap.get? id,
      (∀ target ∈ cell.link?, (heap.frame? target).isSome = true) ∧
      ∀ target ∈ cell.references, (heap.frame? target).isSome = true →
        cell.link? = some target) <| by
    constructor
    · intro all
      exact ⟨fun id cell target found => (all id (lt_size_of_get? found) cell found).1 target,
        fun id cell target found => (all id (lt_size_of_get? found) cell found).2 target⟩
    · intro linked id _ cell found
      exact ⟨fun target => linked.isFrame id cell target found,
        fun target => linked.link id cell target found⟩

instance (heap : Heap) (id : CellId) : Decidable (heap.Captured id) :=
  decidable_of_iff ((heap.frame? id).any Frame.captured = true) <| by
    cases found : heap.frame? id <;> simp [Captured, found]

instance (heap : Heap) : Decidable heap.Marked :=
  decidable_of_iff (∀ code < heap.size, ∀ function ∈ heap.function? code,
      ∀ frame ∈ function.defining :: heap.around function.defining, heap.Captured frame) <| by
    constructor
    · intro all code function found
      have stored := function?_eq_some_iff.mp found
      exact all code (lt_size_of_get? stored) function found
    · exact fun marked code _ function found => marked code function found

section Links

variable {heap : Heap} {outside : List CellId} {root id : CellId}

/-- Whatever leads to garbage is garbage. -/
theorem mem_garbage_of_leads (garbage : id ∈ heap.garbage outside root) {other : CellId}
    (chain : heap.Reaches other id) : other ∈ heap.garbage outside root := by
  refine ⟨?_, fun reached => garbage.2 (reached.trans chain)⟩
  by_contra apart
  rcases ReflTransGen.cases_head chain with rfl | ⟨first, edge, rest⟩
  · exact apart garbage.1
  · exact garbage.2 ⟨first, Or.inr ⟨other, apart, edge⟩, rest⟩

theorem Linked.isFrame_of_parent? (linked : heap.Linked) {parent : CellId}
    (link : heap.parent? id = some parent) : (heap.frame? parent).isSome = true := by
  obtain ⟨frame, found, link⟩ := Option.bind_eq_some_iff.mp link
  exact linked.isFrame id _ parent (frame?_eq_some_iff.mp found) link

/-- What refers to a frame is a function made in it or a frame inside it. -/
theorem Linked.holder_cases (linked : heap.Linked) {holder : CellId}
    (edge : heap.Refers holder id) (isFrame : (heap.frame? id).isSome = true) :
    (∃ function, heap.function? holder = some function ∧ function.defining = id) ∨
      heap.parent? holder = some id := by
  obtain ⟨cell, found⟩ := get?_isSome_of_refers edge
  rw [Refers, referencesOf_of_get? found] at edge
  have link := linked.link holder cell id found edge isFrame
  cases cell with
  | function content =>
      exact Or.inl ⟨content, function?_eq_some_iff.mpr found, by simpa [Cell.link?] using link⟩
  | frame content =>
      exact Or.inr (Option.bind_eq_some_iff.mpr ⟨content, frame?_eq_some_iff.mpr found, link⟩)
  | _ => simp [Cell.link?] at link

/-- If the graph around a frame leads to a frame inside it, the frame is marked as captured. -/
theorem captured_of_mem_graph (ordered : heap.Ordered) (linked : heap.Linked)
    (marked : heap.Marked) (member : id ∈ heap.graph root) (inside : root ∈ heap.around id) :
    heap.Captured root := by
  -- A frame is reached through a function made in it, or through a younger frame inside it.
  induction gap_eq : heap.size - id using Nat.strong_induction_on generalizing id with
  | _ gap ih =>
      have younger := lt_of_mem_around ordered inside
      rcases ReflTransGen.cases_tail member.2 with same | ⟨holder, before, step⟩
      · exact absurd same (Nat.ne_of_gt younger)
      · obtain ⟨edge, -⟩ := traces_iff.mp step
        obtain ⟨parent, link, -⟩ := TransGen.head'_iff.mp ((mem_around_iff ordered).mp inside)
        obtain ⟨frame, found, -⟩ := Option.bind_eq_some_iff.mp link
        rcases linked.holder_cases edge (by simp [found]) with ⟨function, code, rfl⟩ | child
        · exact marked holder function code root (List.mem_cons_of_mem _ inside)
        · have later := ordered holder id child
          have within : holder < heap.size := by
            have nested : heap.Nested holder := ⟨id, child⟩
            exact lt_size_of_contains nested.contains
          have closer : heap.size - holder < gap :=
            gap_eq ▸ Nat.sub_lt_sub_left (later.trans within) later
          exact ih _ closer ⟨member.1, before⟩
            (mem_around_trans ordered (mem_around_of_parent? ordered child) inside) rfl

/-- A frame that nothing outside its graph leads to is marked as captured if something refers
to it. -/
theorem captured_of_refers (ordered : heap.Ordered) (linked : heap.Linked) (marked : heap.Marked)
    (nested : heap.Nested root) (adrift : heap.Adrift outside root) {holder : CellId}
    (edge : heap.Refers holder root) : heap.Captured root := by
  obtain ⟨frame, found, -⟩ := nested_iff.mp nested
  rcases linked.holder_cases edge (by simp [found]) with ⟨function, code, rfl⟩ | child
  · exact marked holder function code _ List.mem_cons_self
  · have inGraph : holder ∈ heap.graph root := by
      by_contra apart
      exact adrift.2 ⟨root, Or.inr ⟨holder, apart, edge⟩, .refl⟩
    exact captured_of_mem_graph ordered linked marked inGraph (mem_around_of_parent? ordered child)

/-- No cycle through a frame is left when all frames of the garbage have lost their names. -/
theorem not_cycle_of_strip (ordered : heap.Ordered) (linked : heap.Linked)
    (garbage : id ∈ heap.garbage outside root) (isFrame : (heap.frame? id).isSome = true) :
    ¬TransGen (heap.strip (heap.unreachedFrames outside root)).Refers id id := by
  have frameStep : ∀ holder target, holder ∈ heap.garbage outside root →
      (heap.frame? holder).isSome = true →
      (heap.strip (heap.unreachedFrames outside root)).Refers holder target →
      heap.parent? holder = some target := by
    intro holder target inGarbage holderFrame edge
    obtain ⟨frame, found⟩ := Option.isSome_iff_exists.mp holderFrame
    have member : holder ∈ heap.unreachedFrames outside root := ⟨inGarbage, holderFrame⟩
    have now : (heap.strip (heap.unreachedFrames outside root)).get? holder =
        some (.frame frame.cleared) := by
      rw [get?_strip_of_mem member, frame?_eq_some_iff.mp found]
      rfl
    rw [Refers, referencesOf_of_get? now] at edge
    have link : frame.parent? = some target := by
      simpa [Cell.references, frame.references_cleared] using edge
    exact Option.bind_eq_some_iff.mpr ⟨frame, found, link⟩
  -- Every step of such a cycle leads to the frame around, which is older.
  have descends : ∀ target,
      TransGen (heap.strip (heap.unreachedFrames outside root)).Refers id target →
      heap.Reaches target id → (heap.frame? target).isSome = true ∧ target < id := by
    intro target path
    induction path with
    | single edge =>
        intro _
        have link := frameStep id _ garbage isFrame edge
        exact ⟨linked.isFrame_of_parent? link, ordered _ _ link⟩
    | @tail holder target path edge ih =>
        intro back
        have holderBack : heap.Reaches holder id := .head (refers_of_strip edge) back
        obtain ⟨holderFrame, older⟩ := ih holderBack
        have link := frameStep holder target (mem_garbage_of_leads garbage holderBack)
          holderFrame edge
        exact ⟨linked.isFrame_of_parent? link, Nat.lt_trans (ordered _ _ link) older⟩
  intro cycle
  exact Nat.lt_irrefl id (descends id cycle .refl).2

end Links

end Heap

namespace Counted

section Dropping

variable {outside : List CellId} {counted : Counted} {root id : CellId}

/-- Garbage that is not freed is reached from a cycle. -/
theorem exists_knot {before : Heap} (exact : counted.Exact outside) (settled : counted.Settled)
    (fewer : ∀ holder target, counted.heap.Refers holder target → before.Refers holder target)
    (garbage : id ∈ before.garbage outside root) (stays : counted.heap.contains id = true) :
    ∃ knot, counted.heap.OnCycle Set.univ knot ∧ counted.heap.Reaches knot id := by
  rcases upheld_of_contains exact settled stays with ⟨start, listed, chain⟩ | knotted
  · exact absurd ⟨start, listed, chain.mono fewer⟩ (Heap.not_reachedFrom_of_mem_garbage garbage)
  · exact knotted

/-- A frame that is reclaimed and let go leaves garbage only on cycles without frames. -/
theorem onCycle_of_reclaim_drop (exact : counted.Exact (root :: outside))
    (settled : counted.Settled) (ordered : counted.heap.Ordered) (linked : counted.heap.Linked)
    (adrift : counted.heap.Adrift outside root)
    (garbage : id ∈ counted.heap.garbage outside root)
    (stays : ((counted.reclaim root).2.drop root).heap.contains id = true) :
    ∃ knot, counted.heap.OnCycle {id | counted.heap.frame? id = none} knot ∧
      counted.heap.Reaches knot id := by
  obtain ⟨exactNext, settledNext, -⟩ := reclaim_spec exact settled
  obtain ⟨exactLast, settledLast, freed⟩ := drop_spec exactNext settledNext
  have stripped : ∀ holder target, ((counted.reclaim root).2.drop root).heap.Refers holder target →
      (counted.heap.strip (counted.heap.unreachedFrames outside root)).Refers holder target :=
    fun holder target edge => (tidied_reclaim exact settled adrift).refers (freed.refers edge)
  have fewer : ∀ holder target, ((counted.reclaim root).2.drop root).heap.Refers holder target →
      counted.heap.Refers holder target :=
    fun holder target edge => Heap.refers_of_strip (stripped holder target edge)
  obtain ⟨knot, cycle, chain⟩ := exists_knot exactLast settledLast fewer garbage stays
  refine ⟨knot, (cycle.of_forall fun met onward back => ?_).mono fewer, chain.mono fewer⟩
  by_contra isFrame
  have metGarbage : met ∈ counted.heap.garbage outside root :=
    Heap.mem_garbage_of_leads garbage (Heap.Reaches.mono fewer (back.trans chain))
  exact Heap.not_cycle_of_strip ordered linked metGarbage (Option.isSome_iff_ne_none.mpr isFrame)
    (TransGen.mono stripped _ _ (cycle.around onward back))

/-- A frame that nothing else refers to is freed with its handle, and garbage is left only on
cycles that do not pass through it. -/
theorem onCycle_of_drop (exact : counted.Exact (root :: outside)) (settled : counted.Settled)
    (adrift : counted.heap.Adrift outside root)
    (alone : ∀ holder, ¬counted.heap.Refers holder root) :
    (counted.drop root).heap.contains root = false ∧
      ∀ id ∈ counted.heap.garbage outside root, (counted.drop root).heap.contains id = true →
        ∃ knot, counted.heap.OnCycle {id | id ≠ root} knot ∧ counted.heap.Reaches knot id := by
  obtain ⟨exactLast, settledLast, freed⟩ := drop_spec exact settled
  have fewer : ∀ holder target, (counted.drop root).heap.Refers holder target →
      counted.heap.Refers holder target := fun _ _ => freed.refers
  constructor
  · by_contra present
    rcases exactLast.referred_of_settled settledLast (by simpa using present) with
      listed | ⟨holder, edge⟩
    · exact adrift.2 ⟨root, Or.inl listed, .refl⟩
    · exact alone holder (fewer holder root edge)
  · intro id garbage stays
    obtain ⟨knot, cycle, chain⟩ := exists_knot exactLast settledLast fewer garbage stays
    refine ⟨knot, (cycle.of_forall fun met onward back => ?_).mono fewer, chain.mono fewer⟩
    rintro rfl
    obtain ⟨holder, -, edge⟩ := TransGen.tail'_iff.mp (cycle.around onward back)
    exact alone holder (fewer holder met edge)

end Dropping

end Counted

namespace Machine

/-- The same machine with only some of its handles left. -/
def keeping (machine : Machine) (held : List Hold) : Machine := { machine with held }

variable {machine : Machine} {counted : Counted} {frame : CellId} {held : List Hold}

/-- A handle given up counts no more, whether or not something was freed before. -/
theorem counted_of_dropped (bounded : machine.Bounded)
    (exact : counted.Exact (frame :: machine.roots)) (settled : counted.Settled)
    (tidied : machine.heap.Tidied machine.roots ∅ counted.heap) :
    machine.counted = counted.drop frame := by
  obtain ⟨exactNow, settledNow, tidiedNow⟩ := counted_spec bounded
  obtain ⟨exactDrop, settledDrop, freed⟩ := Counted.drop_spec exact settled
  exact Counted.eq_of_tidied exactNow settledNow tidiedNow exactDrop settledDrop
    (by simpa using tidied.trans freed)

/-- If the handle is all that refers to a frame, the frame is freed without a look at its
graph. -/
theorem counted_release_of_alone (bounded : machine.Bounded)
    (handle : machine.held.Perm (.cell frame :: held)) (alone : machine.counted.count frame = 1) :
    ((machine.release frame).keeping held).counted = machine.counted.drop frame := by
  have perm := Activity.roots_perm_of_handle handle
  obtain ⟨exact, settled, tidied⟩ := counted_spec bounded
  have exactFrame := exact.perm perm
  by_cases captured : (machine.heap.frame? frame).any Frame.captured = true
  · have result : machine.release frame = { machine with heap := machine.counted.heap } := by
      simp [release, captured, alone]
    rw [result]
    refine counted_of_dropped (fun id member => ?_) exactFrame settled (.refl _ _ _)
    exact exactFrame.inside id (List.mem_cons_of_mem frame member)
  · have result : machine.release frame = machine := by simp [release, captured]
    rw [result]
    refine counted_of_dropped (fun id member => bounded id ?_) exactFrame settled
      (tidied.of_more_outside fun id listed => perm.mem_iff.mpr (List.mem_cons_of_mem frame listed))
    exact (perm.append_right _).mem_iff.mpr (List.mem_cons_of_mem frame member)

/-- If something else refers to a frame that is adrift and marked as captured, its graph is
reclaimed. -/
theorem counted_release_of_adrift (bounded : machine.Bounded)
    (handle : machine.held.Perm (.cell frame :: held))
    (captured : machine.counted.heap.Captured frame) (shared : machine.counted.count frame ≠ 1)
    (adrift : machine.counted.heap.Adrift (machine.keeping held).roots frame) :
    ((machine.release frame).keeping held).counted =
      (machine.counted.reclaim frame).2.drop frame := by
  have perm := Activity.roots_perm_of_handle handle
  obtain ⟨exact, settled, -⟩ := counted_spec bounded
  have exactFrame := exact.perm perm
  obtain ⟨content, found, mark⟩ := captured
  have stored : machine.heap.frame? frame = some content :=
    (counted_frame?_of_mem_roots bounded (perm.mem_iff.mpr List.mem_cons_self)).symm.trans found
  have positive := (Counted.reclaim_of_adrift exactFrame settled adrift (by simp [found])).1
  have result : machine.release frame =
      { machine with heap := (machine.counted.reclaim frame).2.heap } := by
    simp [release, stored, mark, shared, Nat.ne_of_gt positive]
  obtain ⟨exactNext, settledNext, -⟩ := Counted.reclaim_spec exactFrame settled
  rw [result]
  refine counted_of_dropped (fun id member => ?_) exactNext settledNext (.refl _ _ _)
  exact exactNext.inside id (List.mem_cons_of_mem frame member)

/-- Giving up the handle of a call frame that nothing outside its graph leads to frees all of
the graph that is not reached from outside, but for what cycles of references keep.  If
something else refers to the frame, such a cycle passes through no frame.  If nothing does, the
frame goes, and such a cycle does not pass through it. -/
theorem release_breaks_cycles (machine : Machine) (frame : CellId) (held : List Hold)
    (bounded : machine.Bounded) (handle : machine.held.Perm (.cell frame :: held))
    (ordered : machine.counted.heap.Ordered) (linked : machine.counted.heap.Linked)
    (marked : machine.counted.heap.Marked) (nested : machine.counted.heap.Nested frame)
    (unreached : ¬machine.counted.heap.ReachedPast (machine.keeping held).roots
      (machine.counted.heap.graph frame) frame) :
    ((∃ holder, machine.counted.heap.Refers holder frame) →
      ∀ id ∈ machine.counted.heap.garbage (machine.keeping held).roots frame,
        ((machine.release frame).keeping held).counted.heap.contains id = false ∨
        ∃ knot, machine.counted.heap.OnCycle {id | machine.counted.heap.frame? id = none} knot ∧
          machine.counted.heap.Reaches knot id) ∧
    ((∀ holder, ¬machine.counted.heap.Refers holder frame) →
      ((machine.release frame).keeping held).counted.heap.contains frame = false ∧
      ∀ id ∈ machine.counted.heap.garbage (machine.keeping held).roots frame,
        ((machine.release frame).keeping held).counted.heap.contains id = false ∨
        ∃ knot, machine.counted.heap.OnCycle {id | id ≠ frame} knot ∧
          machine.counted.heap.Reaches knot id) := by
  obtain ⟨exact, settled, -⟩ := counted_spec bounded
  have exactFrame : machine.counted.Exact (frame :: (machine.keeping held).roots) :=
    exact.perm (Activity.roots_perm_of_handle handle)
  have adrift : machine.counted.heap.Adrift (machine.keeping held).roots frame :=
    ⟨Heap.mem_graph_self ordered nested, unreached⟩
  have count : machine.counted.count frame = 1 + machine.counted.heap.references.count frame := by
    have notListed : frame ∉ (machine.keeping held).roots := fun listed =>
      unreached ⟨frame, Or.inl listed, .refl⟩
    rw [exactFrame.count_eq, List.cons_append, List.count_cons_self, List.count_append,
      List.count_eq_zero.mpr notListed]
    omega
  refine ⟨?_, fun alone => ?_⟩
  · rintro ⟨holder, edge⟩ id garbage
    have shared : machine.counted.count frame ≠ 1 := by
      have := List.count_pos_iff.mpr
        ((machine.counted.heap.mem_references_iff frame).mpr ⟨holder, edge⟩)
      omega
    have captured := Heap.captured_of_refers ordered linked marked nested adrift edge
    rw [counted_release_of_adrift bounded handle captured shared adrift, or_iff_not_imp_left,
      Bool.not_eq_false]
    exact Counted.onCycle_of_reclaim_drop exactFrame settled ordered linked adrift garbage
  · have single : machine.counted.count frame = 1 := by
      have absent : frame ∉ machine.counted.heap.references := fun member =>
        let ⟨holder, edge⟩ := (machine.counted.heap.mem_references_iff frame).mp member
        alone holder edge
      rw [count, List.count_eq_zero.mpr absent]
    obtain ⟨gone, kept⟩ := Counted.onCycle_of_drop exactFrame settled adrift alone
    rw [counted_release_of_alone bounded handle single]
    refine ⟨gone, fun id garbage => ?_⟩
    rw [or_iff_not_imp_left, Bool.not_eq_false]
    exact kept id garbage

/-- The call of `use` is about to return.  It has called `make`, and the function that was made
there keeps the frame of that call. -/
def usingClosure : Machine where
  heap := ⟨#[
    some (.frame { scope := .global, captured := true }),
    some (.function
      { name := ⟨"make", 0⟩, params := [], defaults := [], body := [], defining := 0 }),
    some (.function
      { name := ⟨"use", 1⟩, params := [], defaults := [], body := [], defining := 0 }),
    some (.frame { scope := .nested 0 [(⟨"made", 2⟩, .function 5)] }),
    some (.frame
      { scope := .nested 0 [(⟨"items", 3⟩, .list 6), (⟨"inner", 4⟩, .function 5)]
        captured := true }),
    some (.function
      { name := ⟨"inner", 4⟩, params := [], defaults := [], body := [], defining := 4 }),
    some (.list [])]⟩
  globals := [(⟨"make", 0⟩, .function 1), (⟨"use", 1⟩, .function 2)]
  held := [.cell 3, .cell 0]
  retained := { frames := [4] }

/-- If the handle held is that of the frame of `make`, the frame goes with the handle. -/
theorem makingClosure_breaks_cycles :
    let machine := usingClosure.keeping [.cell 4, .cell 0]
    machine.Bounded ∧ machine.held.Perm (.cell 4 :: [.cell 0]) ∧
      machine.counted.heap.Ordered ∧ machine.counted.heap.Linked ∧
      machine.counted.heap.Marked ∧ machine.counted.heap.Nested 4 ∧
      ¬machine.counted.heap.ReachedPast (machine.keeping [.cell 0]).roots
        (machine.counted.heap.graph 4) 4 ∧
      machine.counted.heap.Refers 5 4 ∧
      ∀ id ∈ machine.counted.heap.garbage (machine.keeping [.cell 0]).roots 4,
        ((machine.release 4).keeping [.cell 0]).counted.heap.contains id = false ∨
        ∃ knot, machine.counted.heap.OnCycle {id | machine.counted.heap.frame? id = none} knot ∧
          machine.counted.heap.Reaches knot id := by
  intro machine
  have bounded : machine.Bounded := by decide
  have handle : machine.held.Perm (.cell 4 :: [.cell 0]) := .refl _
  have exact := (counted_spec bounded).1.perm (Activity.roots_perm_of_handle handle)
  have ordered : machine.counted.heap.Ordered := by decide +kernel
  have linked : machine.counted.heap.Linked := by decide +kernel
  have marked : machine.counted.heap.Marked := by decide +kernel
  have nested : machine.counted.heap.Nested 4 := by decide +kernel
  have unreached := ((Counted.mem_garbage_iff exact 4).mp (by decide +kernel)).2
  have edge : machine.counted.heap.Refers 5 4 := by decide +kernel
  exact ⟨bounded, handle, ordered, linked, marked, nested, unreached, edge,
    (release_breaks_cycles machine 4 [.cell 0] bounded handle ordered linked marked nested
      unreached).1 ⟨5, edge⟩⟩

/-- The call of `use` returns, and nothing leads to the frame of `make` any more.  No cycle does
without a frame, and yet this one stays. -/
theorem usingClosure_keeps_frame :
    usingClosure.Bounded ∧ usingClosure.held.Perm (.cell 3 :: [.cell 0]) ∧
      usingClosure.counted.heap.Ordered ∧ usingClosure.counted.heap.Linked ∧
      usingClosure.counted.heap.Marked ∧ usingClosure.counted.heap.Nested 3 ∧
      ¬usingClosure.counted.heap.ReachedPast (usingClosure.keeping [.cell 0]).roots
        (usingClosure.counted.heap.graph 3) 3 ∧
      4 ∈ usingClosure.counted.heap.garbage (usingClosure.keeping [.cell 0]).roots 3 ∧
      ((usingClosure.release 3).keeping [.cell 0]).counted.heap.contains 4 = true ∧
      ∀ knot, ¬usingClosure.counted.heap.OnCycle
        {id | usingClosure.counted.heap.frame? id = none} knot := by
  have bounded : usingClosure.Bounded := by decide
  have handle : usingClosure.held.Perm (.cell 3 :: [.cell 0]) := .refl _
  have exact := (counted_spec bounded).1.perm (Activity.roots_perm_of_handle handle)
  refine ⟨bounded, handle, by decide +kernel, by decide +kernel, by decide +kernel,
    by decide +kernel, ((Counted.mem_garbage_iff exact 3).mp (by decide +kernel)).2,
    (Counted.mem_garbage_iff exact 4).mp (by decide +kernel), by decide +kernel, ?_⟩
  -- What is no frame refers to frames only, so no cycle takes a second step without one.
  have toFrames : ∀ holder < usingClosure.counted.heap.size,
      usingClosure.counted.heap.frame? holder = none →
      ∀ target ∈ usingClosure.counted.heap.referencesOf holder,
        usingClosure.counted.heap.frame? target ≠ none := by decide +kernel
  intro knot cycle
  obtain ⟨target, ⟨noFrame, edge⟩, rest⟩ := TransGen.head'_iff.mp cycle
  obtain ⟨cell, found⟩ := Heap.get?_isSome_of_refers edge
  have isFrame := toFrames knot (Heap.lt_size_of_get? found) noFrame target edge
  rcases ReflTransGen.cases_head rest with rfl | ⟨next, ⟨again, -⟩, -⟩
  · exact isFrame noFrame
  · exact isFrame again

end Machine

end ScriptCore
