import ScriptCore.Call
import ScriptCore.Proofs.Tracing

/-!
# Reclaiming frames

What one look at a frame does.  A frame is adrift when no chain of references from outside the
graph around it leads to it.  Reclaiming a frame that is not adrift changes nothing; reclaiming
one that is takes the names of every frame of its garbage.  In no case is anything touched that
can be reached from outside, so releasing a call frame and looking through the retained frames
leave every reachable frame, container and attribute as they were.
-/

namespace ScriptCore

open Relation

namespace Heap

theorem frame?_eq_some_iff {heap : Heap} {id : CellId} {frame : Frame} :
    heap.frame? id = some frame ↔ heap.get? id = some (.frame frame) := by
  unfold frame?
  split <;> simp_all

theorem contains_of_frame? {heap : Heap} {id : CellId} {frame : Frame}
    (found : heap.frame? id = some frame) : heap.contains id = true := by
  simp [contains, frame?_eq_some_iff.mp found]

theorem function?_eq_some_iff {heap : Heap} {id : CellId} {function : FunctionCell} :
    heap.function? id = some function ↔ heap.get? id = some (.function function) := by
  unfold function?
  split <;> simp_all

/-- A frame has no names of its own, or there is no frame. -/
def Nameless (heap : Heap) (id : CellId) : Prop :=
  ∀ frame, heap.frame? id = some frame → frame.cleared = frame

theorem Nameless.eq_parent {heap : Heap} {id target : CellId} {frame : Frame}
    (nameless : heap.Nameless id) (found : heap.frame? id = some frame)
    (edge : heap.Refers id target) : frame.parent? = some target := by
  rw [Refers, referencesOf_of_get? (frame?_eq_some_iff.mp found)] at edge
  have held : target ∈ frame.cleared.references := (nameless frame found).symm ▸ edge
  simpa [Frame.references_cleared] using held

/-- No chain of references from outside the graph around a frame leads to the frame. -/
def Adrift (heap : Heap) (outside : List CellId) (root : CellId) : Prop :=
  root ∈ heap.graph root ∧ ¬heap.ReachedPast outside (heap.graph root) root

/-- The cells of the graph around a frame that no chain from outside leads to. -/
def garbage (heap : Heap) (outside : List CellId) (root : CellId) : Set CellId :=
  {id | id ∈ heap.graph root ∧ ¬heap.ReachedPast outside (heap.graph root) id}

theorem not_reachedFrom_of_mem_garbage {heap : Heap} {outside : List CellId}
    {root id : CellId} (member : id ∈ heap.garbage outside root) :
    ¬heap.ReachedFrom outside id :=
  fun reached => member.2 (.of_reachedFrom _ reached)

/-- A tidied heap in which only frames out of reach lost their names. -/
def Spares (outside : List CellId) (before after : Heap) : Prop :=
  Tidied outside {id | ¬before.ReachedFrom outside id} before after

namespace Tidied

variable {outside : List CellId} {cleared : Set CellId} {before after : Heap}

theorem nameless (tidied : Tidied outside cleared before after) {id : CellId}
    (nameless : before.Nameless id) : after.Nameless id := by
  intro frame found
  rw [frame?_eq_some_iff] at found
  rcases tidied.cell id with same | gone | ⟨-, original, -, now⟩
  · exact nameless frame (frame?_eq_some_iff.mpr (same ▸ found))
  · simp [gone] at found
  · rw [now] at found
    cases found
    simp

end Tidied

namespace Spares

variable {outside fewer : List CellId} {before middle after : Heap}

theorem of_tidied {cleared : Set CellId} (tidied : Tidied outside cleared before after)
    (apart : ∀ id ∈ cleared, ¬before.ReachedFrom outside id) : Spares outside before after :=
  tidied.mono apart

theorem get? (spares : Spares outside before after) {id : CellId}
    (reached : before.ReachedFrom outside id) : after.get? id = before.get? id :=
  spares.get?_of_reachedFrom (fun _ reached unreached => unreached reached) reached

theorem reachedFrom (spares : Spares outside before after) {id : CellId}
    (reached : before.ReachedFrom outside id) : after.ReachedFrom outside id := by
  have both : before.ReachedFrom outside id ∧ after.ReachedFrom outside id := by
    refine ReachedFrom.induct
      (motive := fun id => before.ReachedFrom outside id ∧ after.ReachedFrom outside id)
      (fun id listed => ⟨.of_mem listed, .of_mem listed⟩) ?_ reached
    rintro holder id ⟨reachedBefore, reachedAfter⟩ edge
    exact ⟨reachedBefore.tail edge, reachedAfter.tail
      ((refers_iff_of_get?_eq (spares.get? reachedBefore) id).mpr edge)⟩
  exact both.2

theorem reachedFrom_before (spares : Spares outside before after) {id : CellId}
    (reached : after.ReachedFrom outside id) : before.ReachedFrom outside id := by
  obtain ⟨start, listed, chain⟩ := reached
  exact ⟨start, listed, chain.mono fun _ _ edge => spares.refers edge⟩

theorem trans (first : Spares outside before middle) (second : Spares outside middle after) :
    Spares outside before after := by
  apply Tidied.mono (Tidied.trans first second)
  rintro id (unreached | unreached)
  · exact unreached
  · exact fun reached => unreached (first.reachedFrom reached)

theorem of_more_outside (spares : Spares outside before after) (subset : fewer ⊆ outside) :
    Spares fewer before after :=
  (Tidied.of_more_outside spares subset).mono fun _ unreached reached =>
    unreached (reached.mono subset)

end Spares

end Heap

namespace Counted

theorem Exact.perm {outside other : List CellId} {counted : Counted}
    (exact : counted.Exact outside) (perm : outside.Perm other) : counted.Exact other where
  sized := exact.sized
  inside id member := exact.inside id ((perm.append_right _).mem_iff.mpr member)
  count_eq id := by rw [exact.count_eq, (perm.append_right _).count_eq]

section Clearing

variable {outside : List CellId} {counted : Counted}

theorem clearFrame_spec (exact : counted.Exact outside) (settled : counted.Settled)
    (id : CellId) :
    (counted.clearFrame id).Exact outside ∧ (counted.clearFrame id).Settled ∧
      counted.heap.Tidied outside {id} (counted.clearFrame id).heap ∧
      (counted.clearFrame id).heap.Nameless id := by
  unfold clearFrame
  cases found : counted.heap.frame? id with
  | none =>
      refine ⟨exact, settled, .refl _ _ _, ?_⟩
      intro frame again
      simp [found] at again
  | some frame =>
      have stored := Heap.frame?_eq_some_iff.mp found
      have present : counted.heap.contains id = true := by simp [Heap.contains, stored]
      have fewer : (Cell.frame frame.cleared).references ⊆ counted.heap.referencesOf id := by
        rw [Heap.referencesOf_of_get? stored]
        change frame.cleared.references ⊆ frame.references
        rw [frame.references_cleared]
        exact frame.parent?_toList_subset
      obtain ⟨exactAfter, settledAfter, freed⟩ := replace_spec exact settled present fewer
      have emptied : counted.heap.Tidied outside {id}
          (counted.heap.set id (.frame frame.cleared)) := by
        refine ⟨by simp, fun other => ?_, fun other _ present => by simpa using present,
          fun group _ apart other member => ?_⟩
        · by_cases same : other = id
          · subst same
            exact Or.inr (Or.inr ⟨rfl, frame, stored, by simp [Heap.get?_set, present]⟩)
          · exact Or.inl (by simp [Heap.get?_set, same])
        · have different : other ≠ id := fun same => apart other member same
          simp [Heap.get?_set, different]
      refine ⟨exactAfter, settledAfter, by simpa using emptied.trans freed, ?_⟩
      refine freed.nameless fun original again => ?_
      have now : (counted.heap.set id (.frame frame.cleared)).get? id =
          some (.frame frame.cleared) := by simp [Heap.get?_set, present]
      rw [Heap.frame?_eq_some_iff, now] at again
      cases again
      simp

theorem clearFrames_spec (exact : counted.Exact outside) (settled : counted.Settled)
    (ids : List CellId) :
    (clearFrames ids counted).2.Exact outside ∧ (clearFrames ids counted).2.Settled ∧
      counted.heap.Tidied outside {id | id ∈ ids} (clearFrames ids counted).2.heap ∧
      ∀ id ∈ ids, (clearFrames ids counted).2.heap.Nameless id := by
  induction ids generalizing counted with
  | nil => exact ⟨exact, settled, .refl _ _ _, by simp⟩
  | cons first rest ih =>
      unfold clearFrames
      by_cases present : counted.heap.contains first = true
      · rw [if_pos present]
        obtain ⟨exactBetween, settledBetween, tidied, nameless⟩ :=
          clearFrame_spec exact settled first
        obtain ⟨exactAfter, settledAfter, tidiedRest, namelessRest⟩ :=
          ih exactBetween settledBetween
        refine ⟨exactAfter, settledAfter, (tidied.trans tidiedRest).mono ?_, ?_⟩
        · rintro id (rfl | later)
          · exact List.mem_cons_self
          · exact List.mem_cons_of_mem first later
        · intro id member
          rcases List.mem_cons.mp member with rfl | later
          · exact tidiedRest.nameless nameless
          · exact namelessRest id later
      · rw [if_neg present]
        obtain ⟨exactAfter, settledAfter, tidied, nameless⟩ := ih exact settled
        refine ⟨exactAfter, settledAfter, tidied.mono fun id => List.mem_cons_of_mem first, ?_⟩
        intro id member
        rcases List.mem_cons.mp member with rfl | later
        · refine tidied.nameless fun frame found => ?_
          rw [Heap.frame?_eq_some_iff] at found
          simp [Heap.contains, found] at present
        · exact nameless id later

theorem clearFrames_pos {first : CellId} (rest : List CellId)
    (present : counted.heap.contains first = true) :
    0 < (clearFrames (first :: rest) counted).1 := by
  simp [clearFrames, present]

end Clearing

section Reclaiming

variable {outside : List CellId} {counted : Counted} {root : CellId}

theorem mem_doomedFrames {id : CellId} (doomed : id ∈ counted.doomedFrames root) :
    id ∈ ((counted.trace root).discount root).garbage ∧
      (counted.heap.frame? id).isSome = true := by
  have unfolded : root ∈ ((counted.trace root).discount root).garbage ∧
      id ∈ ((counted.trace root).discount root).garbage ∧
        (counted.heap.frame? id).isSome = true := by
    simpa [doomedFrames] using doomed
  exact unfolded.2

/-- Whatever is found, counts stay exact and only garbage loses its names. -/
theorem reclaim_spec (exact : counted.Exact (root :: outside)) (settled : counted.Settled) :
    (counted.reclaim root).2.Exact (root :: outside) ∧ (counted.reclaim root).2.Settled ∧
      counted.heap.Tidied (root :: outside) (counted.heap.garbage outside root)
        (counted.reclaim root).2.heap := by
  obtain ⟨exactAfter, settledAfter, tidied, -⟩ :=
    clearFrames_spec exact settled (counted.doomedFrames root)
  refine ⟨exactAfter, settledAfter, tidied.mono fun id doomed => ?_⟩
  exact (mem_garbage_iff exact id).mp (mem_doomedFrames doomed).1

/-- A frame that is reached from outside its graph is left alone, and all else with it. -/
theorem reclaim_of_not_adrift (exact : counted.Exact (root :: outside))
    (reached : ¬counted.heap.Adrift outside root) : counted.reclaim root = (0, counted) := by
  have spared : root ∉ ((counted.trace root).discount root).garbage :=
    fun member => reached ((mem_garbage_iff exact root).mp member)
  simp [reclaim, doomedFrames, spared, clearFrames]

/-- Around a frame that is adrift, all garbage loses its names, the frame's own among them. -/
theorem reclaim_of_adrift (exact : counted.Exact (root :: outside)) (settled : counted.Settled)
    (adrift : counted.heap.Adrift outside root)
    (isFrame : (counted.heap.frame? root).isSome = true) :
    0 < (counted.reclaim root).1 ∧
      ∀ id ∈ counted.heap.garbage outside root,
        (counted.reclaim root).2.heap.Nameless id := by
  have rootGarbage : root ∈ ((counted.trace root).discount root).garbage :=
    (mem_garbage_iff exact root).mpr adrift
  have doomedEq : counted.doomedFrames root =
      ((counted.trace root).discount root).garbage.filter
        fun id => (counted.heap.frame? id).isSome := by
    simp [doomedFrames, rootGarbage]
  constructor
  · cases listed : counted.doomedFrames root with
    | nil =>
        have : root ∈ counted.doomedFrames root := by
          rw [doomedEq]
          exact List.mem_filter.mpr ⟨rootGarbage, isFrame⟩
        simp [listed] at this
    | cons first rest =>
        have firstDoomed : first ∈ counted.doomedFrames root := by
          rw [listed]
          exact List.mem_cons_self
        obtain ⟨-, firstFrame⟩ := mem_doomedFrames firstDoomed
        obtain ⟨frame, found⟩ := Option.isSome_iff_exists.mp firstFrame
        rw [reclaim, listed]
        apply clearFrames_pos rest
        exact Heap.contains_of_frame? found
  · intro id member
    obtain ⟨-, -, tidied, nameless⟩ :=
      clearFrames_spec exact settled (counted.doomedFrames root)
    by_cases isFrame : (counted.heap.frame? id).isSome = true
    · apply nameless id
      rw [doomedEq]
      exact List.mem_filter.mpr ⟨(mem_garbage_iff exact id).mpr member, isFrame⟩
    · refine tidied.nameless fun frame found => ?_
      simp [found] at isFrame

/-- One turn of a collection: a frame is held, reclaimed and let go. -/
def turn (counted : Counted) (id : CellId) : Counted :=
  ((counted.hold id).reclaim id).2.drop id

theorem turn_spec (exact : counted.Exact outside) (settled : counted.Settled) {id : CellId}
    (inside : id < counted.heap.size) :
    (counted.turn id).Exact outside ∧ (counted.turn id).Settled ∧
      counted.heap.Tidied outside (counted.heap.garbage outside id) (counted.turn id).heap := by
  obtain ⟨exactHeld, settledHeld⟩ := hold_spec exact settled inside
  obtain ⟨exactAfter, settledAfter, tidied⟩ := reclaim_spec exactHeld settledHeld
  obtain ⟨exactLast, settledLast, freed⟩ := drop_spec exactAfter settledAfter
  have whole := (tidied.of_more_outside (List.subset_cons_self id outside)).trans freed
  rw [Set.union_empty] at whole
  exact ⟨exactLast, settledLast, whole⟩

theorem turn_of_not_adrift (exact : counted.Exact outside) (settled : counted.Settled)
    {id : CellId} (inside : id < counted.heap.size)
    (reached : ¬counted.heap.Adrift outside id) :
    ((counted.hold id).reclaim id).1 = 0 ∧ counted.turn id = counted := by
  obtain ⟨exactHeld, -⟩ := hold_spec exact settled inside
  have nothing : (counted.hold id).reclaim id = (0, counted.hold id) :=
    reclaim_of_not_adrift exactHeld reached
  refine ⟨by rw [nothing], ?_⟩
  rw [turn, nothing]
  exact drop_hold settled id

theorem turn_of_adrift (exact : counted.Exact outside) (settled : counted.Settled)
    {id : CellId} (adrift : counted.heap.Adrift outside id)
    (isFrame : (counted.heap.frame? id).isSome = true) :
    0 < ((counted.hold id).reclaim id).1 ∧
      ∀ other ∈ counted.heap.garbage outside id, (counted.turn id).heap.Nameless other := by
  obtain ⟨frame, found⟩ := Option.isSome_iff_exists.mp isFrame
  have inside := Heap.lt_size_of_get? (Heap.frame?_eq_some_iff.mp found)
  obtain ⟨exactHeld, settledHeld⟩ := hold_spec exact settled inside
  have adriftHeld : (counted.hold id).heap.Adrift outside id := adrift
  obtain ⟨positive, nameless⟩ :=
    reclaim_of_adrift exactHeld settledHeld adriftHeld isFrame
  obtain ⟨exactAfter, settledAfter, -⟩ := reclaim_spec exactHeld settledHeld
  obtain ⟨-, -, freed⟩ := drop_spec exactAfter settledAfter
  exact ⟨positive, fun other member => freed.nameless (nameless other member)⟩

theorem spares_turn (exact : counted.Exact outside) (settled : counted.Settled) {id : CellId}
    (inside : id < counted.heap.size) :
    Heap.Spares outside counted.heap (counted.turn id).heap :=
  .of_tidied (turn_spec exact settled inside).2.2 fun _ =>
    Heap.not_reachedFrom_of_mem_garbage

theorem reclaimEach_cons_of_contains {id : CellId} (rest : List CellId)
    (present : counted.heap.contains id = true) :
    reclaimEach (id :: rest) counted =
      (((counted.hold id).reclaim id).1 + (reclaimEach rest (counted.turn id)).1,
        if ((counted.hold id).reclaim id).1 = 0
          then id :: (reclaimEach rest (counted.turn id)).2.1
          else (reclaimEach rest (counted.turn id)).2.1,
        (reclaimEach rest (counted.turn id)).2.2) := by
  simp [reclaimEach, present, turn]

theorem reclaimEach_cons_of_not_contains {id : CellId} (rest : List CellId)
    (absent : counted.heap.contains id = false) :
    reclaimEach (id :: rest) counted = reclaimEach rest counted := by
  simp [reclaimEach, absent]

theorem reclaimEach_spec (exact : counted.Exact outside) (settled : counted.Settled)
    (ids : List CellId) :
    (reclaimEach ids counted).2.2.Exact outside ∧ (reclaimEach ids counted).2.2.Settled ∧
      Heap.Spares outside counted.heap (reclaimEach ids counted).2.2.heap := by
  induction ids generalizing counted with
  | nil => exact ⟨exact, settled, .refl _ _ _⟩
  | cons first rest ih =>
      by_cases present : counted.heap.contains first = true
      · have inside := Heap.lt_size_of_contains present
        obtain ⟨exactTurn, settledTurn, -⟩ := turn_spec exact settled inside
        obtain ⟨exactAfter, settledAfter, spares⟩ := ih exactTurn settledTurn
        rw [reclaimEach_cons_of_contains rest present]
        exact ⟨exactAfter, settledAfter, (spares_turn exact settled inside).trans spares⟩
      · rw [reclaimEach_cons_of_not_contains rest (by simpa using present)]
        exact ih exact settled

end Reclaiming

end Counted

namespace Heap

/-- Where two successor functions agree, on a group closed under them, they are followed
alike, and never out of the group. -/
theorem follow_congr {next other : CellId → Option CellId} {group : CellId → Prop}
    (agree : ∀ id, group id → other id = next id)
    (closed : ∀ id further, group id → next id = some further → group further)
    (limit : Nat) {id : CellId} (member : group id) :
    follow other limit id = follow next limit id ∧ ∀ met ∈ follow next limit id, group met := by
  induction limit generalizing id with
  | zero => simp [follow]
  | succ limit ih =>
      cases onward : next id with
      | none => simp [follow, agree id member, onward, member]
      | some further =>
          obtain ⟨same, met⟩ := ih (closed id further member onward)
          simp only [follow, agree id member, onward, same, true_and, List.mem_cons]
          rintro id (rfl | later)
          · exact member
          · exact met id later

theorem refers_parent {heap : Heap} {id parent : CellId} (link : heap.parent? id = some parent) :
    heap.Refers id parent := by
  obtain ⟨frame, found, link⟩ := Option.bind_eq_some_iff.mp link
  rw [Refers, referencesOf_of_get? (frame?_eq_some_iff.mp found)]
  exact frame.parent?_toList_subset (by simp [link])

/-- Every frame on a frame's chain can be reached from it, and where all that can be reached is
unchanged the chain is the same. -/
theorem frameChain_congr {before after : Heap} {id : CellId} (size_eq : after.size = before.size)
    (same : ∀ other, before.Reaches id other → after.get? other = before.get? other) :
    after.frameChain id = before.frameChain id ∧
      ∀ other ∈ before.frameChain id, before.Reaches id other := by
  unfold frameChain
  rw [size_eq]
  have agree : ∀ other, before.Reaches id other → after.parent? other = before.parent? other := by
    intro other reached
    simp only [parent?, frame?, same other reached]
  exact follow_congr agree (fun _ _ reached link => reached.tail (refers_parent link)) _ .refl

end Heap

namespace Machine

/-- Two states of a machine agree on a cell: on what it holds, on its own names if it is a
frame, and on what every name means there. -/
structure AgreesAt (before after : Machine) (id : CellId) : Prop where
  cell : after.heap.get? id = before.heap.get? id
  locals : after.localsOf id = before.localsOf id
  lookup : ∀ name, after.lookup id name = before.lookup id name

theorem localsOf_congr {before after : Machine} {id : CellId}
    (globals : after.globals = before.globals)
    (cell : after.heap.get? id = before.heap.get? id) :
    after.localsOf id = before.localsOf id := by
  simp only [localsOf, Heap.frame?, cell, globals]

theorem AgreesAt.of_reaches {before after : Machine} {id : CellId}
    (globals : after.globals = before.globals) (builtins : after.builtins = before.builtins)
    (size_eq : after.heap.size = before.heap.size)
    (same : ∀ other, before.heap.Reaches id other →
      after.heap.get? other = before.heap.get? other) : before.AgreesAt after id where
  cell := same id .refl
  locals := localsOf_congr globals (same id .refl)
  lookup name := by
    obtain ⟨chain, reached⟩ := Heap.frameChain_congr size_eq same
    have found : (before.heap.frameChain id).findSome? (fun scope =>
        Names.find? (after.localsOf scope) name) =
        (before.heap.frameChain id).findSome? (fun scope =>
          Names.find? (before.localsOf scope) name) := by
      rw [← List.head?_filterMap, ← List.head?_filterMap]
      congr 1
      refine List.filterMap_congr fun scope member => ?_
      rw [localsOf_congr globals (same scope (reached scope member))]
    simp only [Machine.lookup, chain, found, globals, builtin?, builtins]

theorem agreesAt_of_spares (before after : Machine) {outside : List CellId}
    (globals : after.globals = before.globals) (builtins : after.builtins = before.builtins)
    (spares : Heap.Spares outside before.heap after.heap) {id : CellId}
    (reached : before.heap.ReachedFrom outside id) : before.AgreesAt after id :=
  .of_reaches globals builtins spares.size_eq fun _ onward => spares.get? (reached.trans onward)

/-- Looking through the retained frames spares all that is reached from outside. -/
theorem spares_collect {machine : Machine} (bounded : machine.Bounded) :
    Heap.Spares machine.roots machine.heap machine.collect.2.heap := by
  obtain ⟨exact, settled, tidied⟩ := counted_spec bounded
  obtain ⟨-, -, spares⟩ := Counted.reclaimEach_spec exact settled machine.retained.frames
  exact Heap.Spares.trans (.of_tidied tidied (by simp)) spares

/-- Giving up a handle to a frame spares all that is reached from the other references. -/
theorem spares_release {machine : Machine} (bounded : machine.Bounded) {frame : CellId}
    (handle : frame ∈ machine.roots) :
    Heap.Spares (machine.roots.erase frame) machine.heap (machine.release frame).heap := by
  obtain ⟨exact, settled, tidied⟩ := counted_spec bounded
  have subset : machine.roots.erase frame ⊆ machine.roots := List.erase_subset
  have settling : Heap.Spares (machine.roots.erase frame) machine.heap machine.counted.heap :=
    Heap.Spares.of_more_outside (.of_tidied tidied (by simp)) subset
  unfold release
  split
  · dsimp only
    split
    · exact settling
    · have exactFrame := exact.perm (List.perm_cons_erase handle)
      obtain ⟨exactAfter, settledAfter, reclaimed⟩ := Counted.reclaim_spec exactFrame settled
      have reclaiming : Heap.Spares (machine.roots.erase frame) machine.heap
          (machine.counted.reclaim frame).2.heap :=
        settling.trans (.of_tidied
          (reclaimed.of_more_outside (List.subset_cons_self frame _))
          fun _ => Heap.not_reachedFrom_of_mem_garbage)
      split
      · unfold Retained.push
        dsimp only
        split
        · obtain ⟨-, -, spares⟩ := Counted.reclaimEach_spec
            (exactAfter.perm (List.perm_cons_erase handle).symm) settledAfter
            (machine.retained.frames ++ [frame])
          exact reclaiming.trans (spares.of_more_outside subset)
        · exact reclaiming
      · exact reclaiming
  · exact .refl _ _ _

theorem release_eq (machine : Machine) (frame : CellId) :
    machine.release frame =
      { machine with
        heap := (machine.release frame).heap
        retained := (machine.release frame).retained } := by
  unfold release
  split
  · dsimp only
    split
    · rfl
    · split <;> rfl
  · rfl

theorem release_globals (machine : Machine) (frame : CellId) :
    (machine.release frame).globals = machine.globals := by
  rw [release_eq]

theorem release_builtins (machine : Machine) (frame : CellId) :
    (machine.release frame).builtins = machine.builtins := by
  rw [release_eq]

/-- The references in what a call came to. -/
def resultReferences : Except Stop Value → List CellId
  | .ok value => value.references
  | .error _ => []

theorem roots_holding_perm (machine : Machine) (value : Value) :
    ({ machine with held := .value value :: machine.held } : Machine).roots.Perm
      (value.references ++ machine.roots) := by
  simp only [roots, List.flatMap_cons, Hold.references]
  rw [← List.append_assoc]
  exact (List.perm_append_comm.append_right _).trans (by simp)

theorem roots_holding_erase_perm {machine : Machine} (value : Value) {frame : CellId}
    (handle : frame ∈ machine.roots) :
    (({ machine with held := .value value :: machine.held } : Machine).roots.erase frame).Perm
      (value.references ++ machine.roots.erase frame) := by
  have moved : (value.references ++ machine.roots).Perm
      (frame :: (value.references ++ machine.roots.erase frame)) :=
    ((List.perm_cons_erase handle).append_left _).trans List.perm_middle
  simpa using ((machine.roots_holding_perm value).trans moved).erase frame

/-- Neither the release of a call's frame, however the call ended, nor a look through the
retained frames changes anything about a cell that can be reached from the references held
outside the heap, the one handle that is given up left aside. -/
theorem release_and_collect_spare_reached (machine : Machine) (bounded : machine.Bounded) :
    (∀ (frame : CellId) (result : Except Stop Value), frame ∈ machine.roots →
      (∀ id ∈ resultReferences result, id < machine.heap.size) →
      ∃ after, Act.releaseFrame frame result machine = .ok () after ∧
        ∀ id, machine.heap.ReachedFrom
            (resultReferences result ++ machine.roots.erase frame) id →
          machine.AgreesAt after id) ∧
    ∀ id, machine.heap.ReachedFrom machine.roots id →
      machine.AgreesAt machine.collect.2 id := by
  refine ⟨fun frame result handle resultInside => ?_, fun id reached => ?_⟩
  · cases result with
    | error stop =>
        refine ⟨machine.release frame, rfl, fun id reached => ?_⟩
        exact agreesAt_of_spares _ _ (machine.release_globals frame)
          (machine.release_builtins frame) (spares_release bounded handle) reached
    | ok value =>
        let holding : Machine := { machine with held := .value value :: machine.held }
        have perm := machine.roots_holding_perm value
        have holdingBounded : holding.Bounded := by
          intro id member
          rcases List.mem_append.mp member with root | inHeap
          · rcases List.mem_append.mp (perm.mem_iff.mp root) with ofValue | ofMachine
            · exact resultInside id ofValue
            · exact bounded id (List.mem_append_left _ ofMachine)
          · exact bounded id (List.mem_append_right _ inHeap)
        have handleHeld : frame ∈ holding.roots :=
          perm.mem_iff.mpr (List.mem_append_right _ handle)
        let released : Machine := { holding.release frame with held := machine.held }
        refine ⟨released, rfl, fun id reached => ?_⟩
        refine agreesAt_of_spares machine released (holding.release_globals frame)
          (holding.release_builtins frame) (spares_release holdingBounded handleHeld)
          (reached.mono ?_)
        exact (roots_holding_erase_perm value handle).symm.subset
  · exact agreesAt_of_spares machine machine.collect.2 rfl rfl (spares_collect bounded) reached

/-- A call about to return the function that was made in its frame.  The frame also holds a
list, which holds the function that was called. -/
def returningClosure : Machine where
  heap := ⟨#[
    some (.frame { scope := .global }),
    some (.function
      { name := ⟨"outer", 0⟩, params := [], defaults := [], body := [], defining := 0 }),
    some (.frame
      { scope := .nested 0 [(⟨"inner", 1⟩, .function 3), (⟨"items", 2⟩, .list 4)]
        captured := true }),
    some (.function
      { name := ⟨"inner", 1⟩, params := [], defaults := [], body := [], defining := 2 }),
    some (.list [.function 1])]⟩
  globals := [(⟨"outer", 0⟩, .function 1)]
  held := [.cell 2, .cell 0]

theorem returned_closure_is_spared :
    returningClosure.Bounded ∧ 2 ∈ returningClosure.roots ∧
      (∀ id ∈ resultReferences (.ok (.function 3)), id < returningClosure.heap.size) ∧
      returningClosure.heap.ReachedFrom [3] 4 ∧
      (∃ after, Act.releaseFrame 2 (.ok (.function 3)) returningClosure = .ok () after ∧
        returningClosure.AgreesAt after 4) ∧
      returningClosure.AgreesAt returningClosure.collect.2 2 := by
  have bounded : returningClosure.Bounded := by decide
  have handle : 2 ∈ returningClosure.roots := by decide
  have inside : ∀ id ∈ resultReferences (.ok (.function 3)),
      id < returningClosure.heap.size := by decide
  have toFrame : returningClosure.heap.Refers 3 2 := by decide
  have toList : returningClosure.heap.Refers 2 4 := by decide
  have reached : returningClosure.heap.ReachedFrom [3] 4 :=
    ⟨3, List.mem_singleton_self 3, .tail (.single toFrame) toList⟩
  obtain ⟨releasing, collecting⟩ := release_and_collect_spare_reached returningClosure bounded
  obtain ⟨after, released, agrees⟩ := releasing 2 (.ok (.function 3)) handle inside
  exact ⟨bounded, handle, inside, reached, ⟨after, released, agrees 4 (reached.mono (by decide))⟩,
    collecting 2 (.of_mem handle)⟩

end Machine

end ScriptCore
