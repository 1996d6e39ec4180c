import ScriptCore.Proofs.Run

/-!
# What holds throughout a run

The steps that free cells are the end of a call, a look through the retained frames and
settling.  Each spares what is still held, and takes a frame off the list of retained frames
only when it is gone, or without names and out of reach.  With the steps that free nothing this
makes `Sound` an invariant of all runs.
-/

namespace ScriptCore

open Relation

namespace Activity

/-- What a step that frees cells may do: what is held afterwards is spared, and no frame is
dropped from the list of retained frames while it has names or can be reached. -/
structure Tidies (before after : Activity) : Prop where
  spares : Heap.Spares after.machine.roots before.machine.heap after.machine.heap
  roots : after.machine.roots ⊆ before.machine.roots
  hand : after.hand = []
  held : before.Sound → ∀ frame ∈ after.running, .cell frame ∈ after.machine.held
  dropped : ∀ id ∈ before.machine.retained.frames, id ∈ after.machine.retained.frames ∨
    after.machine.heap.contains id = false ∨
    after.machine.heap.Nameless id ∧ ¬after.Knows id
  kept : ∀ id ∈ after.machine.retained.frames,
    id ∈ before.machine.retained.frames ∨ id ∈ after.returned
  calls : after.running = before.running ∧ after.returned = before.returned ∨
    ∃ frame, before.running = frame :: after.running ∧ after.returned = frame :: before.returned

/-- A cell that nothing can get at any more, and that has no names or is referred to by
nothing. -/
def Spent (activity : Activity) (id : CellId) : Prop :=
  ¬activity.Knows id ∧ (activity.machine.heap.Nameless id ∨
    ∀ holder, ¬activity.machine.heap.Refers holder id)

namespace Tidies

variable {before after : Activity}

theorem starts (tidies : Tidies before after) : after.starts = after.machine.roots := by
  rw [Activity.starts, tidies.hand, List.append_nil]

theorem knows_iff (tidies : Tidies before after) {id : CellId} :
    after.Knows id ↔ after.machine.heap.ReachedFrom after.machine.roots id := by
  rw [Knows, tidies.starts]

/-- Nothing that was out of reach comes back. -/
theorem knows (tidies : Tidies before after) {id : CellId} (known : after.Knows id) :
    before.Knows id := by
  have reached := tidies.spares.reachedFrom_before (tidies.knows_iff.mp known)
  exact reached.mono fun id member => List.mem_append_left _ (tidies.roots member)

theorem contains (tidies : Tidies before after) (sound : before.Sound) {id : CellId}
    (held : id ∈ after.starts ∨ ∃ holder, after.machine.heap.Refers holder id) :
    after.machine.heap.contains id = true := by
  rw [tidies.starts] at held
  refine tidies.spares.referred id held (sound.closed id ?_)
  rcases held with root | ⟨holder, edge⟩
  · exact Or.inl (List.mem_append_left _ (tidies.roots root))
  · exact Or.inr ⟨holder, Heap.Tidied.refers tidies.spares edge⟩

theorem linked (tidies : Tidies before after) (sound : before.Sound) {id : CellId} {cell : Cell}
    {target : CellId} (found : after.machine.heap.get? id = some cell)
    (link : cell.link? = some target) : (after.machine.heap.frame? target).isSome = true := by
  have edge : after.machine.heap.Refers id target := Heap.refers_of_link found link
  have wasLinked : (before.machine.heap.frame? target).isSome = true := by
    rcases tidies.spares.cell id with same | gone | ⟨-, frame, was, now⟩
    · exact sound.linked id cell target (same ▸ found) link
    · simp [gone] at found
    · rw [found] at now
      cases now
      apply sound.linked id _ target was
      simpa [Cell.link?] using link
  have present := tidies.contains sound (Or.inr ⟨id, edge⟩)
  rw [Heap.frame?_eq_bind] at wasLinked ⊢
  rcases tidies.spares.cell target with same | gone | ⟨-, frame, -, now⟩
  · rw [same]
    exact wasLinked
  · simp [Heap.contains, gone] at present
  · simp [now, Cell.frame?]

theorem returned_subset (tidies : Tidies before after) : before.returned ⊆ after.returned := by
  rcases tidies.calls with ⟨-, same⟩ | ⟨frame, -, pushed⟩
  · rw [same]
    exact List.Subset.refl _
  · rw [pushed]
    exact List.subset_cons_self frame _

theorem calls_perm (tidies : Tidies before after) :
    (after.running ++ after.returned).Perm (before.running ++ before.returned) := by
  rcases tidies.calls with ⟨running, returned⟩ | ⟨frame, running, returned⟩
  · rw [running, returned]
  · rw [running, returned]
    exact List.perm_middle

theorem sound (tidies : Tidies before after) (sound : before.Sound) : after.Sound where
  closed id := tidies.contains sound
  ordered := Heap.Tidied.ordered tidies.spares sound.ordered
  linked id cell target := tidies.linked sound
  held := tidies.held sound
  distinct := tidies.calls_perm.nodup_iff.mpr sound.distinct
  inside id member := by
    rw [tidies.spares.size_eq]
    exact sound.inside id (tidies.calls_perm.mem_iff.mp member)
  nested id member :=
    sound.nested.of_tidied tidies.spares id (tidies.calls_perm.mem_iff.mp member)
  retained id member := by
    rcases tidies.kept id member with before | returned
    · exact tidies.returned_subset (sound.retained before)
    · exact returned

end Tidies

section Steps

variable {activity : Activity}

theorem Sound.orderly (sound : activity.Sound) : activity.machine.Orderly where
  bounded := sound.bounded
  ordered := sound.ordered
  nested id member := sound.nested id (List.mem_append_right _ (sound.retained member))

theorem tidies_settle (sound : activity.Sound) :
    Tidies activity { activity with machine := activity.machine.settle, hand := [] } where
  spares := .of_tidied (Machine.counted_spec sound.bounded).2.2 (by simp)
  roots := List.Subset.refl _
  hand := rfl
  held _ := sound.held
  dropped id member := Or.inl member
  kept id member := Or.inl member
  calls := Or.inl ⟨rfl, rfl⟩

theorem tidies_collect (sound : activity.Sound) :
    Tidies activity { activity with machine := activity.machine.collect.2, hand := [] } where
  spares := Machine.spares_collect sound.bounded
  roots := List.Subset.refl _
  hand := rfl
  held _ := sound.held
  dropped id member := by
    obtain ⟨exact, settled, -⟩ := Machine.counted_spec sound.bounded
    rw [Knows, Activity.starts, List.append_nil]
    exact Counted.reclaimEach_kept exact settled sound.orderly.counted.2 member
  kept id member := Or.inl ((Counted.reclaimEach_kept_sublist _ _).1.subset member)
  calls := Or.inl ⟨rfl, rfl⟩

theorem roots_perm_of_handle {machine : Machine} {frame : CellId} {held : List Hold}
    (handle : machine.held.Perm (.cell frame :: held)) :
    machine.roots.Perm (frame :: ({ machine with held } : Machine).roots) := by
  have moved : (machine.held.flatMap Hold.references).Perm
      (frame :: held.flatMap Hold.references) := handle.flatMap_right Hold.references
  simp only [Machine.roots]
  exact (moved.append_left _).trans List.perm_middle

section Return

variable {frame : CellId} {rest : List CellId} {held : List Hold}

theorem afterCall_roots_perm (handle : activity.machine.held.Perm (.cell frame :: held)) :
    activity.machine.roots.Perm
      (frame :: (activity.afterCall frame rest held).machine.roots) := by
  have roots : (activity.afterCall frame rest held).machine.roots =
      ({ activity.machine with held } : Machine).roots := by
    rw [afterCall, Machine.release_eq]
    rfl
  rw [roots]
  exact roots_perm_of_handle handle

theorem mem_roots_of_handle (handle : activity.machine.held.Perm (.cell frame :: held)) :
    frame ∈ activity.machine.roots :=
  (roots_perm_of_handle handle).mem_iff.mpr List.mem_cons_self

theorem erase_roots_perm (handle : activity.machine.held.Perm (.cell frame :: held)) :
    (activity.machine.roots.erase frame).Perm
      (activity.afterCall frame rest held).machine.roots := by
  have erased := (@afterCall_roots_perm activity frame rest held handle).erase frame
  rwa [List.erase_cons_head] at erased

theorem knows_afterCall_iff {id : CellId} :
    (activity.afterCall frame rest held).Knows id ↔
      (activity.machine.release frame).heap.ReachedFrom
        (activity.afterCall frame rest held).machine.roots id := by
  rw [Knows, starts, afterCall, List.append_nil]

/-- If the handle was the only reference to a frame, the frame is in no one's reach without
it. -/
theorem spent_of_count_eq_one (sound : activity.Sound)
    (handle : activity.machine.held.Perm (.cell frame :: held))
    (alone : activity.machine.counted.count frame = 1)
    (result : activity.machine.release frame =
      { activity.machine with heap := activity.machine.counted.heap }) :
    (activity.afterCall frame rest held).Spent frame := by
  have perm := @afterCall_roots_perm activity frame rest held handle
  have count := (Machine.counted_spec sound.bounded).1.count_eq frame
  rw [alone, List.count_append, perm.count_eq, List.count_cons_self] at count
  have notReferred : ∀ holder, ¬(activity.machine.release frame).heap.Refers holder frame := by
    intro holder edge
    rw [result] at edge
    have := List.count_pos_iff.mpr
      ((activity.machine.counted.heap.mem_references_iff frame).mpr ⟨holder, edge⟩)
    omega
  refine ⟨fun known => ?_, Or.inr notReferred⟩
  rcases (knows_afterCall_iff.mp known).cases_last with again | ⟨holder, -, edge⟩
  · have := List.count_pos_iff.mpr again
    omega
  · exact notReferred holder edge

theorem spent_of_adrift (sound : activity.Sound)
    (handle : activity.machine.held.Perm (.cell frame :: held))
    (captured : activity.machine.heap.Captured frame)
    (adrift : activity.machine.counted.heap.Adrift (activity.machine.roots.erase frame) frame)
    (result : activity.machine.release frame =
      { activity.machine with heap := (activity.machine.counted.reclaim frame).2.heap }) :
    (activity.afterCall frame rest held).Spent frame := by
  have root := mem_roots_of_handle handle
  obtain ⟨exact, settled, -⟩ := Machine.counted_spec sound.bounded
  have exactFrame := exact.perm (List.perm_cons_erase root)
  obtain ⟨content, found, -⟩ := captured
  have isFrame : (activity.machine.counted.heap.frame? frame).isSome = true := by
    rw [Machine.counted_frame?_of_mem_roots sound.bounded root, found]
    rfl
  obtain ⟨-, nameless⟩ := Counted.reclaim_of_adrift exactFrame settled adrift isFrame
  obtain ⟨-, -, reclaimed⟩ := Counted.reclaim_spec exactFrame settled
  refine ⟨fun known => ?_, Or.inl ?_⟩
  · obtain ⟨start, listed, chain⟩ := knows_afterCall_iff.mp known
    rw [result] at chain
    refine adrift.2 (.of_reachedFrom _ ⟨start, ?_, reclaimed.reaches chain⟩)
    exact (erase_roots_perm handle).mem_iff.mpr listed
  · rw [afterCall, result]
    exact nameless frame adrift

/-- What the end of a call does to its frame.  A frame without a mark is left alone; one with a
mark is spent or retained. -/
theorem afterCall_cases (sound : activity.Sound) (running : activity.running = frame :: rest)
    (handle : activity.machine.held.Perm (.cell frame :: held)) :
    ((activity.afterCall frame rest held).machine.retained = activity.machine.retained ∧
      (¬activity.machine.heap.Captured frame ∧
          (activity.afterCall frame rest held).machine.heap = activity.machine.heap ∨
        activity.machine.heap.Captured frame ∧
          (activity.afterCall frame rest held).Spent frame)) ∨
    activity.machine.heap.Captured frame ∧
      frame ∈ (activity.afterCall frame rest held).machine.retained.frames ∧
      (activity.afterCall frame rest held).machine.retained.frames ⊆
        activity.machine.retained.frames ++ [frame] ∧
      ∀ id ∈ activity.machine.retained.frames,
        id ∈ (activity.afterCall frame rest held).machine.retained.frames ∨
        (activity.afterCall frame rest held).machine.heap.contains id = false ∨
        (activity.afterCall frame rest held).machine.heap.Nameless id ∧
          ¬(activity.afterCall frame rest held).machine.heap.ReachedFrom
            activity.machine.roots id := by
  have root := mem_roots_of_handle handle
  rcases Machine.release_cases sound.bounded root with
    ⟨unmarked, result⟩ | ⟨captured, ⟨alone, result⟩ | ⟨adrift, result⟩ | result⟩
  · exact Or.inl ⟨by rw [afterCall, result], Or.inl ⟨unmarked, by rw [afterCall, result]⟩⟩
  · exact Or.inl ⟨by rw [afterCall, result],
      Or.inr ⟨captured, spent_of_count_eq_one sound handle alone result⟩⟩
  · exact Or.inl ⟨by rw [afterCall, result],
      Or.inr ⟨captured, spent_of_adrift sound handle captured adrift result⟩⟩
  · obtain ⟨exact, settled, tidied⟩ := Machine.counted_spec sound.bounded
    have present : activity.machine.counted.heap.contains frame = true :=
      tidied.referred frame (Or.inl root)
        (sound.closed frame (Or.inl (List.mem_append_left _ root)))
    have nested : activity.machine.counted.heap.NestedFrames
        (activity.machine.retained.frames ++ [frame]) := by
      refine Heap.NestedFrames.of_tidied (fun id listed => sound.nested id ?_) tidied
      rcases List.mem_append.mp listed with old | new
      · exact List.mem_append_right _ (sound.retained old)
      · rw [running, List.mem_singleton.mp new]
        exact List.mem_cons_self
    rw [afterCall, result]
    exact Or.inr ⟨captured, Retained.push_spec exact settled nested root present⟩

theorem tidies_afterCall (sound : activity.Sound) (running : activity.running = frame :: rest)
    (handle : activity.machine.held.Perm (.cell frame :: held)) :
    Tidies activity (activity.afterCall frame rest held) where
  spares :=
    (Machine.spares_release sound.bounded (mem_roots_of_handle handle)).of_more_outside
      (erase_roots_perm handle).symm.subset
  roots := by
    have perm := @afterCall_roots_perm activity frame rest held handle
    exact fun id member => perm.mem_iff.mpr (List.mem_cons_of_mem frame member)
  hand := rfl
  held _ other member := by
    have running' : other ∈ activity.running := by
      rw [running]
      exact List.mem_cons_of_mem frame member
    rcases List.mem_cons.mp (handle.mem_iff.mp (sound.held other running')) with same | kept
    · cases same
      have distinct := sound.distinct
      rw [running, List.cons_append, List.nodup_cons] at distinct
      exact absurd (List.mem_append_left _ member) distinct.1
    · exact kept
  dropped id member := by
    rcases afterCall_cases sound running handle with ⟨same, -⟩ | ⟨-, -, -, dropped⟩
    · rw [same]
      exact Or.inl member
    · rcases dropped id member with kept | gone | ⟨nameless, unreached⟩
      · exact Or.inl kept
      · exact Or.inr (Or.inl gone)
      · refine Or.inr (Or.inr ⟨nameless, fun known => unreached ?_⟩)
        rw [Knows, starts, afterCall, List.append_nil] at known
        have perm := @afterCall_roots_perm activity frame rest held handle
        exact known.mono fun id root => perm.mem_iff.mpr (List.mem_cons_of_mem frame root)
  kept id member := by
    rcases afterCall_cases sound running handle with ⟨same, -⟩ | ⟨-, -, subset, -⟩
    · exact Or.inl (same ▸ member)
    · rcases List.mem_append.mp (subset member) with old | new
      · exact Or.inl old
      · rw [List.mem_singleton.mp new]
        exact Or.inr List.mem_cons_self
  calls := Or.inr ⟨frame, running, rfl⟩

end Return

/-- A step frees nothing, or frees what it may. -/
theorem Step.grows_or_tidies {before after : Activity} (step : Step before after)
    (sound : before.Sound) : Grows before after ∨ Tidies before after := by
  cases step with
  | move machine hand heap retained known held =>
      exact Or.inl (grows_move heap retained known fun _ => held)
  | make cell admitted => exact Or.inl (grows_make admitted)
  | write id old new found known plain offered =>
      exact Or.inl (grows_set found known (.of_plain plain offered) rfl)
  | rename frame names known offered => exact Or.inl (grows_rename known offered)
  | capture frame known => exact Or.inl (grows_capture known)
  | call code function found known => exact Or.inl (grows_call sound found known)
  | finish frame rest held running handle =>
      exact Or.inr (tidies_afterCall sound running handle)
  | collect => exact Or.inr (tidies_collect sound)
  | settle => exact Or.inr (tidies_settle sound)

theorem Step.sound {before after : Activity} (step : Step before after) (sound : before.Sound) :
    after.Sound := by
  rcases step.grows_or_tidies sound with grows | tidies
  · exact grows.sound sound
  · exact tidies.sound sound

/-- A new machine has builtins and pooled names, and nothing else. -/
theorem exists_build_eq (standard : Bool) (natives : List (String × Native)) :
    ∃ builtins interner supply,
      Machine.build standard natives = { builtins, interner, supply } := by
  refine List.foldlRecOn (motive := fun machine : Machine => ∃ builtins interner supply,
    machine = { builtins, interner, supply }) _ _ ⟨_, _, _, rfl⟩ ?_
  rintro _ ⟨builtins, interner, supply, rfl⟩ registration -
  exact ⟨_, _, _, rfl⟩

theorem sound_start (standard : Bool) (natives : List (String × Native)) :
    ({ machine := .build standard natives } : Activity).Sound := by
  obtain ⟨builtins, interner, supply, built⟩ := exists_build_eq standard natives
  rw [built]
  have none : ∀ id, ({} : Heap).get? id = none := by simp [Heap.get?]
  refine ⟨?_, ?_, ?_, by simp, by simp, by simp, ?_, by simp⟩
  · rintro id (start | ⟨holder, edge⟩)
    · simp [starts, Machine.roots, Names.references] at start
    · obtain ⟨cell, found⟩ := Heap.get?_isSome_of_refers edge
      simp [none] at found
  · intro id parent link
    simp [Heap.parent?, Heap.frame?, none] at link
  · intro id cell target found
    simp [none] at found
  · simp [Heap.NestedFrames]

/-- Every state of every run is sound. -/
theorem Run.sound {allowed : Activity → Prop} (run : Run allowed activity) : activity.Sound := by
  induction run with
  | start standard natives => exact sound_start standard natives
  | step _ step _ ih => exact step.sound ih

end Steps

end Activity

end ScriptCore
