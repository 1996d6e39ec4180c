import ScriptCore.Proofs.CallFrames
import ScriptCore.Session

/-!
# Call frames that outlive their call

A frame that is still in reach when its call returns is retained if, and only if, it was marked
as captured by then; from then on it stays on the list until it is gone, or without names and
out of reach.  Once it is lost, repeated collections take its names exactly if an outermost frame
of its knot is on the list.
-/

namespace ScriptCore

open Relation

namespace Machine

/-- A machine after a number of collections, one right after the other. -/
def collections : Nat → Machine → Machine
  | 0, machine => machine
  | count + 1, machine => collections count machine.collect.2

section Collections

variable {machine : Machine} {id : CellId}

theorem nameless_collections (orderly : machine.Orderly) (nameless : machine.heap.Nameless id)
    (count : Nat) : (collections count machine).heap.Nameless id := by
  induction count generalizing machine with
  | zero => exact nameless
  | succ count ih =>
      exact ih (collect_spec orderly).1
        (Heap.Tidied.nameless (spares_collect orderly.bounded) nameless)

/-- Some collection clears nothing, after at most as many as there are retained frames. -/
theorem exists_idle_collection (orderly : machine.Orderly) :
    ∃ count ≤ machine.retained.frames.length, (collections count machine).collect.1 = 0 := by
  induction bound : machine.retained.frames.length using Nat.strongRecOn generalizing machine with
  | ind length ih =>
      by_cases nothing : machine.collect.1 = 0
      · exact ⟨0, Nat.zero_le _, nothing⟩
      · have shorter : machine.collect.2.retained.frames.length < length := by
          rw [← bound]
          exact (Counted.reclaimEach_kept_sublist _ _).2 (Nat.pos_of_ne_zero nothing)
        obtain ⟨count, few, idle⟩ := ih _ shorter (collect_spec orderly).1 rfl
        exact ⟨count + 1, by omega, idle⟩

/-- Without one of its outermost frames among the retained ones, no number of collections
changes a knot. -/
theorem knotKept_collections (orderly : machine.Orderly)
    (lost : machine.counted.heap.Lost machine.roots id)
    (present : machine.counted.heap.contains id = true)
    (inner : ∀ frame ∈ machine.retained.frames, ¬machine.counted.heap.Outermost id frame)
    (count : Nat) :
    Heap.KnotKept id machine.counted.heap (collections (count + 1) machine).heap := by
  induction count generalizing machine with
  | zero =>
      obtain ⟨exact, settled, -⟩ := counted_spec orderly.bounded
      exact ((Counted.reclaimEach_of_lost exact settled orderly.counted.1 lost present
        orderly.counted.2).2 inner).1
  | succ count ih =>
      obtain ⟨exact, settled, -⟩ := counted_spec orderly.bounded
      obtain ⟨-, -, spares⟩ := Counted.reclaimEach_spec exact settled machine.retained.frames
      have kept : Heap.KnotKept id machine.counted.heap machine.collect.2.heap :=
        ((Counted.reclaimEach_of_lost exact settled orderly.counted.1 lost present
          orderly.counted.2).2 inner).1
      obtain ⟨orderlyAfter, settledAfter⟩ := collect_spec orderly
      have same := counted_heap_of_settled orderlyAfter.bounded settledAfter
      refine kept.trans (same ▸ ih orderlyAfter ?_ ?_ ?_)
      · rw [same]
        exact kept.lost spares lost
      · rw [same, Heap.contains, kept id .refl]
        exact present
      · intro frame member outer
        rw [same] at outer
        exact inner frame ((Counted.reclaimEach_kept_sublist _ _).1.subset member)
          ((kept.outermost_iff spares orderly.counted.1).mp outer)

/-- Repeated collections take the names of a lost frame exactly if an outermost frame of its
knot is retained, or there are none to take. -/
theorem nameless_collections_iff (orderly : machine.Orderly)
    (lost : machine.counted.heap.Lost machine.roots id) (count : Nat) :
    (collections (count + 1) machine).heap.Nameless id ↔
      machine.counted.heap.Nameless id ∨
        ∃ frame ∈ machine.retained.frames, machine.counted.heap.Outermost id frame := by
  obtain ⟨exact, settled, tidied⟩ := counted_spec orderly.bounded
  obtain ⟨-, -, spares⟩ := Counted.reclaimEach_spec exact settled machine.retained.frames
  have orderlyAfter := (collect_spec orderly).1
  have already : machine.counted.heap.Nameless id →
      (collections (count + 1) machine).heap.Nameless id := fun nameless =>
    nameless_collections orderlyAfter (Heap.Tidied.nameless spares nameless) count
  by_cases present : machine.counted.heap.contains id = true
  swap
  · have nameless : machine.counted.heap.Nameless id := by
      intro frame found
      rw [Heap.frame?_eq_some_iff] at found
      simp [Heap.contains, found] at present
    exact ⟨fun _ => Or.inl nameless, fun _ => already nameless⟩
  by_cases outer : ∃ frame ∈ machine.retained.frames, machine.counted.heap.Outermost id frame
  · have taken := (Counted.reclaimEach_of_lost exact settled orderly.counted.1 lost present
      orderly.counted.2).1 outer id .refl
    exact ⟨fun _ => Or.inr outer, fun _ => nameless_collections orderlyAfter taken count⟩
  · refine ⟨fun nameless => Or.inl fun frame found => nameless frame ?_,
      fun either => already (either.resolve_right outer)⟩
    have kept := knotKept_collections orderly lost present
      (fun frame member outermost => outer ⟨frame, member, outermost⟩) count
    rw [Heap.frame?_eq_bind] at found ⊢
    rw [kept id .refl]
    exact found

end Collections

end Machine

namespace Activity

/-- A frame is retained, or it is gone, or without names and out of reach. -/
def Minds (activity : Activity) (frame : CellId) : Prop :=
  frame ∈ activity.machine.retained.frames ∨
    activity.machine.heap.contains frame = false ∨
    activity.machine.heap.Nameless frame ∧ ¬activity.Knows frame

section Escape

variable {activity : Activity} {frame : CellId}

theorem Step.minds {before after : Activity} (step : Step before after) (sound : before.Sound)
    (inside : frame < before.machine.heap.size) (minds : before.Minds frame) :
    after.Minds frame := by
  rcases step.grows_or_tidies sound with grows | tidies
  · rcases minds with retained | gone | ⟨nameless, unknown⟩
    · exact Or.inl (grows.retained ▸ retained)
    · exact Or.inr (Or.inl ((grows.contains_eq inside).trans gone))
    · refine Or.inr (Or.inr ⟨fun content found => nameless content ?_, fun known => ?_⟩)
      · rw [Heap.frame?_eq_bind] at found ⊢
        rwa [grows.get?_of_not_knows inside unknown] at found
      · exact (grows.knows known).elim unknown fun beyond => absurd inside (Nat.not_lt.mpr beyond)
  · rcases minds with retained | gone | ⟨nameless, unknown⟩
    · exact tidies.dropped frame retained
    · refine Or.inr (Or.inl ?_)
      by_contra present
      rw [Bool.not_eq_false] at present
      simp [Heap.Tidied.contains tidies.spares present] at gone
    · exact Or.inr (Or.inr ⟨Heap.Tidied.nameless tidies.spares nameless,
        fun known => unknown (tidies.knows known)⟩)

theorem Step.returned_subset {before after : Activity} (step : Step before after)
    (sound : before.Sound) : before.returned ⊆ after.returned := by
  rcases step.grows_or_tidies sound with grows | tidies
  · rw [grows.returned]
    exact List.Subset.refl _
  · exact tidies.returned_subset

theorem minds_of_steps {last : Activity} (sound : activity.Sound)
    (returned : frame ∈ activity.returned) (steps : ReflTransGen Step activity last) :
    last.Sound ∧ frame ∈ last.returned ∧ (activity.Minds frame → last.Minds frame) := by
  induction steps with
  | refl => exact ⟨sound, returned, id⟩
  | tail _ step ih =>
      obtain ⟨soundBefore, returnedBefore, minds⟩ := ih
      have inside := soundBefore.inside frame (List.mem_append_right _ returnedBefore)
      exact ⟨step.sound soundBefore, step.returned_subset soundBefore returnedBefore,
        fun retained => step.minds soundBefore inside (minds retained)⟩

/-- A frame that is still in reach after its call is retained exactly if it was marked as
captured. -/
theorem retained_afterCall_iff (sound : activity.Sound) {rest : List CellId} {held : List Hold}
    (running : activity.running = frame :: rest)
    (handle : activity.machine.held.Perm (.cell frame :: held))
    (known : (activity.afterCall frame rest held).Knows frame) :
    frame ∈ (activity.afterCall frame rest held).machine.retained.frames ↔
      activity.machine.heap.Captured frame := by
  rcases afterCall_cases sound running handle with
    ⟨same, ⟨unmarked, -⟩ | ⟨-, spent⟩⟩ | ⟨captured, retained, -⟩
  · refine ⟨fun retained => ?_, fun captured => absurd captured unmarked⟩
    rw [same] at retained
    have distinct := sound.distinct
    rw [running, List.cons_append, List.nodup_cons] at distinct
    exact absurd (List.mem_append_right _ (sound.retained retained)) distinct.1
  · exact absurd known spent.1
  · exact ⟨fun _ => captured, fun _ => retained⟩

theorem exists_retained_outermost_of_lost (run : Run CallsOnly activity)
    (nested : activity.machine.counted.heap.Nested frame)
    (lost : activity.machine.counted.heap.Lost activity.machine.roots frame) :
    ∃ outer ∈ activity.machine.retained.frames,
      activity.machine.counted.heap.Outermost frame outer := by
  let settled : Activity := { activity with machine := activity.machine.settle, hand := [] }
  have tidies : Tidies activity settled := tidies_settle run.sound
  have tracked : settled.Tracked := tidies.tracked run.tracked fun frame popped =>
    absurd (congrArg List.length popped) (by simp [settled])
  obtain ⟨exact, nothing, -⟩ := Machine.counted_spec run.sound.bounded
  exact exists_retained_outermost (tidies.sound run.sound) tracked
    (fun id present => exact.referred_of_settled nothing present) nested lost

end Escape

end Activity

/-- What becomes of a call frame, in every run and whoever goes on using the frame.  If it is
still in reach when its call returns, it is retained exactly if it was marked as captured, and a
retained frame stays so until it is gone, or without names and out of reach.  Once it is lost,
collections take its names exactly if an outermost frame of its knot is retained, which is so in
every run with call frames only.  There is a collection that clears nothing. -/
theorem Activity.escaped_frame_is_cleared_iff (activity : Activity) (run : activity.Reachable)
    (frame : CellId) (rest : List CellId) (held : List Hold)
    (running : activity.running = frame :: rest)
    (handle : activity.machine.held.Perm (.cell frame :: held))
    (last : Activity) (later : ReflTransGen Step (activity.afterCall frame rest held) last) :
    ((activity.afterCall frame rest held).Knows frame →
      (frame ∈ (activity.afterCall frame rest held).machine.retained.frames ↔
        activity.machine.heap.Captured frame)) ∧
    (frame ∈ (activity.afterCall frame rest held).machine.retained.frames →
      last.Minds frame) ∧
    (last.machine.counted.heap.Lost last.machine.roots frame →
      (∀ count, (last.machine.collections (count + 1)).heap.Nameless frame ↔
        last.machine.counted.heap.Nameless frame ∨
          ∃ outer ∈ last.machine.retained.frames,
            last.machine.counted.heap.Outermost frame outer) ∧
      (Run CallsOnly last →
        ∀ count, (last.machine.collections (count + 1)).heap.Nameless frame)) ∧
    ∃ count ≤ last.machine.retained.frames.length,
      (last.machine.collections count).collect.1 = 0 := by
  have soundAfter := (tidies_afterCall run.sound running handle).sound run.sound
  obtain ⟨sound, returned, minds⟩ := minds_of_steps soundAfter List.mem_cons_self later
  refine ⟨retained_afterCall_iff run.sound running handle, fun retained => minds (Or.inl retained),
    fun lost => ⟨Machine.nameless_collections_iff sound.orderly lost, fun callRun count => ?_⟩,
    Machine.exists_idle_collection sound.orderly⟩
  apply (Machine.nameless_collections_iff sound.orderly lost count).mpr
  by_cases present : last.machine.counted.heap.contains frame = true
  · have tidied := (Machine.counted_spec sound.bounded).2.2
    have nested := sound.nested.of_tidied tidied frame (List.mem_append_right _ returned) present
    exact Or.inr (exists_retained_outermost_of_lost callRun nested lost)
  · refine Or.inl fun content found => ?_
    rw [Heap.frame?_eq_some_iff] at found
    simp [Heap.contains, found] at present

namespace Activity

/-- After a call that returned a function made in its frame, the function is dropped. -/
def droppedCall : Activity :=
  { returnedCall with machine := { returnedCall.machine with held := [] } }

theorem droppedCall_is_cleared :
    returningCall.Reachable ∧ returnedCall.Knows 2 ∧ ReflTransGen Step returnedCall droppedCall ∧
      droppedCall.machine.counted.heap.Lost droppedCall.machine.roots 2 ∧
      (2 ∈ returnedCall.machine.retained.frames ↔ returningCall.machine.heap.Captured 2) ∧
      droppedCall.Minds 2 ∧ (droppedCall.machine.collections 1).heap.Nameless 2 := by
  have toFrame : returnedCall.machine.heap.Refers 3 2 := by decide +kernel
  have known : returnedCall.Knows 2 :=
    ⟨3, by decide +kernel, .single toFrame⟩
  have dropped : Step returnedCall droppedCall :=
    .move _ { returnedCall.machine with held := [] } [] rfl rfl
      (fun id member => absurd member (by
        have none : ({ returnedCall.machine with held := [] } : Machine).roots = [] := by
          decide +kernel
        simp [none]))
      (fun frame member => by simp [returnedCall, afterCall] at member)
  have callRun : Run CallsOnly droppedCall := run_returnedCall.step dropped (by decide +kernel)
  have bounded : droppedCall.machine.Bounded := by decide +kernel
  have lost : droppedCall.machine.counted.heap.Lost droppedCall.machine.roots 2 :=
    Machine.lost_of_mem_garbage bounded (by decide +kernel) (by decide +kernel)
  have retained : 2 ∈ returnedCall.machine.retained.frames := by decide +kernel
  obtain ⟨marked, minds, cleared, -⟩ := escaped_frame_is_cleared_iff returningCall
    run_returningCall.reachable 2 [] [.value (.function 3)] rfl (.swap _ _ _) droppedCall
    (.single dropped)
  exact ⟨run_returningCall.reachable, known, .single dropped, lost, marked known, minds retained,
    (cleared lost).2 callRun 0⟩

end Activity

/-- A call that keeps its frame under a name, without a function made in it. -/
def keepingCall : List Step :=
  [.run [
    .expr (.operate (.define "f") [.function "f" [] []
      [.expr (.operate (.keepFrame "kept") []), .give (.operate (.literal .null) [])]]),
    .expr (.call (.operate (.name "f") []) [])]]

/-- A list and a function that gives it are made in the kept frame, which is then dropped. -/
def closureInKeptFrame : List Step :=
  [.within "kept" [
    .expr (.operate (.define "items") [.operate .list []]),
    .expr (.operate (.define "g")
      [.function "g" [] [] [.give (.operate (.name "items") [])]])],
   .drop "kept"]

/-- The frame of the call is in reach when the call returns and is not retained; later it is
lost, no collection clears anything, and it keeps its two names. -/
theorem kept_frame_is_never_cleared :
    (Machine.standard.after keepingCall).handle? "kept" = some 2 ∧
      (Machine.standard.after keepingCall).retained.frames = [] ∧
      (Machine.standard.after (keepingCall ++ closureInKeptFrame)).counted.heap.Lost
        (Machine.standard.after (keepingCall ++ closureInKeptFrame)).roots 2 ∧
      (Machine.standard.after (keepingCall ++ closureInKeptFrame)).collect.1 = 0 ∧
      ((Machine.standard.after (keepingCall ++ closureInKeptFrame)).collect.2.localsOf 2).length
        = 2 := by
  have bounded : (Machine.standard.after (keepingCall ++ closureInKeptFrame)).Bounded := by
    decide +kernel
  refine ⟨by decide +kernel, by decide +kernel, ?_, by decide +kernel, by decide +kernel⟩
  exact Machine.lost_of_mem_garbage bounded (by decide +kernel) (by decide +kernel)

end ScriptCore
