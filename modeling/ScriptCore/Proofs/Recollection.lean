import ScriptCore.Proofs.CallFrames
import ScriptCore.Proofs.Exposure
import ScriptCore.Session

/-!
# Collecting again

A collection looks at the retained frames in the order in which their calls returned, and each
only once.  A frame is therefore kept when another one, which lies inside it, still refers to it,
even if that one is cleared right after.  So a second collection can find something to clear; it
finds nothing exactly when the first leaves no lost frame outermost in its knot.
-/

namespace ScriptCore

namespace Machine

variable {machine : Machine}

theorem collect_collect_eq_zero_iff (orderly : machine.Orderly) :
    machine.collect.2.collect.1 = 0 ↔
      ¬∃ frame ∈ machine.collect.2.retained.frames,
        machine.collect.2.heap.contains frame = true ∧
        machine.collect.2.heap.Lost machine.roots frame ∧
        machine.collect.2.heap.Outermost frame frame := by
  obtain ⟨orderlyAfter, settledAfter⟩ := collect_spec orderly
  have same := counted_heap_of_settled orderlyAfter.bounded settledAfter
  rw [collect_eq_zero_iff orderlyAfter, same, not_exists]
  refine forall_congr' fun frame => ?_
  rw [not_and]
  refine forall_congr' fun member => ?_
  rw [not_and]
  refine forall_congr' fun present => not_congr ?_
  apply (Heap.adrift_iff orderlyAfter.ordered (orderlyAfter.nested frame member present)).trans
  exact and_congr Iff.rfl ⟨fun apart => ⟨.refl, apart⟩, And.right⟩

/-- One collection is enough if every frame around a retained one is reached from outside or
bare. -/
theorem collect_collect_eq_zero_of_exposed (orderly : machine.Orderly)
    (exposed : ∀ frame ∈ machine.retained.frames, machine.heap.Exposed machine.roots frame) :
    machine.collect.2.collect.1 = 0 := by
  obtain ⟨exact, settled, tidied⟩ := counted_spec orderly.bounded
  have spares : Heap.Spares machine.roots machine.heap machine.counted.heap :=
    .of_tidied tidied (by simp)
  apply (collect_collect_eq_zero_iff orderly).mpr
  rintro ⟨frame, member, present, lost, -⟩
  exact Counted.not_lost_of_kept exact settled orderly.counted.1 orderly.counted.2
    (fun frame member => (exposed frame member).of_spares orderly.ordered spares)
    member present lost

theorem collect_collect_heap (orderly : machine.Orderly)
    (nothing : machine.collect.2.collect.1 = 0) :
    machine.collect.2.collect.2.heap = machine.collect.2.heap := by
  obtain ⟨orderlyAfter, settledAfter⟩ := collect_spec orderly
  rw [(collect_of_eq_zero orderlyAfter nothing).1]
  exact counted_heap_of_settled orderlyAfter.bounded settledAfter

end Machine

/-- In every state of every run, a collection right after another one clears nothing, and then
changes nothing, exactly when the first leaves no retained frame that is lost and outermost in
its knot.  It does not leave any if every frame around a retained one is reached from outside or
refers to nothing but the frame around itself. -/
theorem Activity.one_collection_is_enough_iff (activity : Activity)
    (run : activity.Reachable) :
    (activity.machine.collect.2.collect.1 = 0 ↔
      ¬∃ frame ∈ activity.machine.collect.2.retained.frames,
        activity.machine.collect.2.heap.contains frame = true ∧
        activity.machine.collect.2.heap.Lost activity.machine.roots frame ∧
        activity.machine.collect.2.heap.Outermost frame frame) ∧
    (activity.machine.collect.2.collect.1 = 0 →
      activity.machine.collect.2.collect.2.heap = activity.machine.collect.2.heap) ∧
    ((∀ frame ∈ activity.machine.retained.frames,
        activity.machine.heap.Exposed activity.machine.roots frame) →
      activity.machine.collect.2.collect.1 = 0) := by
  have orderly := run.sound.orderly
  exact ⟨Machine.collect_collect_eq_zero_iff orderly, Machine.collect_collect_heap orderly,
    Machine.collect_collect_eq_zero_of_exposed orderly⟩

/-- The frame of a returned function lies inside a top-level frame, so it is exposed. -/
theorem Activity.one_collection_is_enough_for_returnedCall :
    returnedCall.Reachable ∧
      (∀ frame ∈ returnedCall.machine.retained.frames,
        returnedCall.machine.heap.Exposed returnedCall.machine.roots frame) ∧
      returnedCall.machine.collect.2.collect.1 = 0 := by
  have retained : returnedCall.machine.retained.frames = [2] := by decide +kernel
  have around : returnedCall.machine.heap.around 2 = [0] := by decide +kernel
  have bare : returnedCall.machine.heap.referencesOf 0 = [] := by decide +kernel
  have exposed : ∀ frame ∈ returnedCall.machine.retained.frames,
      returnedCall.machine.heap.Exposed returnedCall.machine.roots frame := by
    intro frame member enclosing inAround
    rw [retained, List.mem_singleton] at member
    subst member
    rw [around, List.mem_singleton] at inAround
    subst inAround
    refine Or.inr fun target edge => ?_
    simp [Heap.Refers, bare] at edge
  have run := run_returnedCall.reachable
  exact ⟨run, exposed, (one_collection_is_enough_iff returnedCall run).2.2 exposed⟩

/-- A program that calls a function `outer`, which gives a function `mid` made in its frame, and
then `mid`, which gives a function made in its own.  At the end it lets go of both. -/
def nestedClosures : Block :=
  let leaf : Expr := .function "leaf" [] [] [.give (.operate (.literal (.int 1)) [])]
  let mid : Expr := .function "mid" [] []
    [.expr (.operate (.define "leaf") [leaf]), .give (.operate (.name "leaf") [])]
  let outer : Expr := .function "outer" [] []
    [.expr (.operate (.define "mid") [mid]), .give (.operate (.name "mid") [])]
  [.expr (.operate (.define "outer") [outer]),
    .expr (.operate (.define "m") [.call (.operate (.name "outer") []) []]),
    .expr (.operate (.define "l") [.call (.operate (.name "m") []) []]),
    .expr (.operate (.remove "m") []),
    .expr (.operate (.remove "l") []),
    .give (.operate (.literal .null) [])]

/-- The frame of `outer` has its turn while the frame of `mid`, which lies inside it, still
refers to it.  That one is cleared only then, so a second collection clears one more frame. -/
theorem nested_closures_take_two_collections :
    (Machine.standard.after [.run nestedClosures]).collect.1 = 1 ∧
      (Machine.standard.after [.run nestedClosures]).collect.2.collect.1 = 1 ∧
      (Machine.standard.after [.run nestedClosures]).collect.2.collect.2.collect.1 = 0 := by
  decide +kernel

end ScriptCore
