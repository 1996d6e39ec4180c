import Mathlib.Order.WellFounded
import ScriptCore.Proofs.RunInvariant

/-!
# Runs with call frames only

Runs in which every frame inside another one belongs to a call, and none is held after its call
has returned.  There every such frame is still running, retained, or spent, so the first frame
of a knot is among the retained ones, and a collection that clears nothing leaves no knots.
-/

namespace ScriptCore

open Relation

namespace Activity

/-- Every frame inside another one belongs to a call, and none is held or in hand after its call
has returned. -/
structure CallsOnly (activity : Activity) : Prop where
  made : ∀ id, activity.machine.heap.Nested id → id ∈ activity.running ++ activity.returned
  held : ∀ id ∈ activity.starts, activity.machine.heap.Nested id → id ∈ activity.running

/-- A frame inside another one is marked as soon as a cell refers to it, and it is running,
retained or spent. -/
structure Tracked (activity : Activity) : Prop where
  marked : ∀ holder id, activity.machine.heap.Refers holder id →
    activity.machine.heap.Nested id → activity.machine.heap.Captured id
  followed : ∀ id, activity.machine.heap.Nested id →
    id ∈ activity.running ∨ id ∈ activity.machine.retained.frames ∨ activity.Spent id

instance (activity : Activity) : Decidable activity.CallsOnly :=
  decidable_of_iff
    ((∀ id < activity.machine.heap.size, activity.machine.heap.Nested id →
        id ∈ activity.running ++ activity.returned) ∧
      ∀ id ∈ activity.starts, activity.machine.heap.Nested id → id ∈ activity.running)
    ⟨fun both => ⟨fun id nested => both.1 id (Heap.lt_size_of_contains nested.contains) nested,
        both.2⟩,
      fun callsOnly => ⟨fun id _ => callsOnly.made id, callsOnly.held⟩⟩

namespace Grows

variable {before after : Activity}

theorem nested_iff (grows : Grows before after) {id : CellId}
    (inside : id < before.machine.heap.size) :
    after.machine.heap.Nested id ↔ before.machine.heap.Nested id := by
  rw [Heap.Nested, Heap.Nested, grows.parent?_eq inside]

theorem captured (grows : Grows before after) {id : CellId}
    (captured : before.machine.heap.Captured id) : after.machine.heap.Captured id := by
  obtain ⟨frame, found, marked⟩ := captured
  rw [Heap.frame?_eq_bind] at found
  obtain ⟨cell, stored, isFrame⟩ := Option.bind_eq_some_iff.mp found
  simp only [Heap.Captured, Heap.frame?_eq_bind]
  rcases grows.cell id with same | ⟨old, new, was, now, -, revised⟩ | ⟨beyond, -⟩
  · exact ⟨frame, by rw [same, stored]; exact isFrame, marked⟩
  · rw [stored] at was
    cases was
    simpa [now] using revised.captured frame isFrame marked
  · exact absurd (Heap.lt_size_of_get? stored) (Nat.not_lt.mpr beyond)

theorem running_subset (grows : Grows before after) : before.running ⊆ after.running := by
  rcases grows.running with same | ⟨pushed, -⟩
  · rw [same]
    exact List.Subset.refl _
  · rw [pushed]
    exact List.subset_cons_self _ _

theorem not_nested_of_offers (grows : Grows before after) (sound : before.Sound) {id : CellId}
    (offered : before.Offers id) : ¬after.machine.heap.Nested id := by
  intro nested
  have inside := Heap.lt_size_of_contains (sound.contains_of_knows offered.1)
  obtain ⟨frame, found, -⟩ := Heap.nested_iff.mp nested
  have := grows.frame?_isSome inside
  simp [found, offered.2] at this

/-- A new frame inside another one belongs to a new call. -/
theorem running_of_new (grows : Grows before after) (sound : before.Sound)
    (callsOnly : after.CallsOnly) {id : CellId} (nested : after.machine.heap.Nested id)
    (new : before.machine.heap.size ≤ id) :
    id = before.machine.heap.size ∧ id ∈ after.running ∧
      ∃ code function, before.machine.heap.function? code = some function ∧
        after.machine.heap.parent? id = some function.defining := by
  have notOld : id ∉ before.running ++ before.returned :=
    fun member => absurd (sound.inside id member) (Nat.not_lt.mpr new)
  have member := callsOnly.made id nested
  rw [grows.returned] at member
  rcases grows.running with same | ⟨pushed, code, function, found, link⟩
  · rw [same] at member
    exact absurd member notOld
  · rw [pushed, List.cons_append] at member
    rcases List.mem_cons.mp member with rfl | old
    · exact ⟨rfl, by rw [pushed]; exact List.mem_cons_self, code, function, found, link⟩
    · exact absurd old notOld

theorem marked (grows : Grows before after) (sound : before.Sound) (tracked : before.Tracked)
    (callsOnly : after.CallsOnly) {holder id : CellId}
    (edge : after.machine.heap.Refers holder id) (nested : after.machine.heap.Nested id) :
    after.machine.heap.Captured id := by
  have old : ∀ {holder}, before.machine.heap.Refers holder id →
      after.machine.heap.Captured id := by
    intro holder edge
    have inside := Heap.lt_size_of_contains (sound.closed id (Or.inr ⟨holder, edge⟩))
    exact grows.captured (tracked.marked holder id edge ((grows.nested_iff inside).mp nested))
  rcases grows.cell holder with
    same | ⟨cell, new, was, now, -, revised⟩ | ⟨beyond, new, now, admitted⟩
  · exact old ((Heap.refers_iff_of_get?_eq same id).mp edge)
  · rw [Heap.Refers, Heap.referencesOf_of_get? now] at edge
    rcases revised.references id edge with held | offered
    · have edgeBefore : before.machine.heap.Refers holder id := by
        rwa [Heap.Refers, Heap.referencesOf_of_get? was]
      exact old edgeBefore
    · exact absurd nested (grows.not_nested_of_offers sound offered)
  · rw [Heap.Refers, Heap.referencesOf_of_get? now] at edge
    obtain ⟨known, notFrame | captured | ⟨frame, rfl, link⟩⟩ := admitted.reference_cases edge
    · exact absurd nested (grows.not_nested_of_offers sound ⟨known, notFrame⟩)
    · exact grows.captured captured
    · -- A frame of a new call lies inside the one its function was made in.
      have link' : after.machine.heap.parent? holder = some id :=
        Option.bind_eq_some_iff.mpr ⟨frame, Heap.frame?_eq_some_iff.mpr now, link⟩
      obtain ⟨-, -, code, function, found, same⟩ :=
        grows.running_of_new sound callsOnly ⟨id, link'⟩ beyond
      rw [link'] at same
      cases same
      exact old (Heap.refers_of_link (Heap.function?_eq_some_iff.mp found) rfl)

theorem tracked (grows : Grows before after) (sound : before.Sound) (tracked : before.Tracked)
    (callsOnly : after.CallsOnly) : after.Tracked where
  marked holder id := grows.marked sound tracked callsOnly
  followed id nested := by
    by_cases inside : id < before.machine.heap.size
    · rcases tracked.followed id ((grows.nested_iff inside).mp nested) with
        running | retained | ⟨unknown, spent⟩
      · exact Or.inl (grows.running_subset running)
      · exact Or.inr (Or.inl (grows.retained ▸ retained))
      · refine Or.inr (Or.inr ⟨fun known => ?_, ?_⟩)
        · exact (grows.knows known).elim unknown fun beyond => absurd inside (Nat.not_lt.mpr beyond)
        · rcases spent with nameless | notReferred
          · refine Or.inl fun frame found => nameless frame ?_
            rw [Heap.frame?_eq_bind] at found ⊢
            rwa [grows.get?_of_not_knows inside unknown] at found
          · exact Or.inr fun holder edge => (grows.refers edge).elim (notReferred holder) unknown
    · have new := grows.running_of_new sound callsOnly nested (Nat.le_of_not_lt inside)
      exact Or.inl new.2.1

end Grows

namespace Tidies

variable {before after : Activity}

theorem spent (tidies : Tidies before after) {id : CellId} (spent : before.Spent id) :
    after.Spent id := by
  refine ⟨fun known => spent.1 (tidies.knows known), spent.2.imp ?_ ?_⟩
  · exact Heap.Tidied.nameless tidies.spares
  · exact fun none holder edge => none holder (Heap.Tidied.refers tidies.spares edge)

theorem nested (tidies : Tidies before after) {id : CellId}
    (nested : after.machine.heap.Nested id) : before.machine.heap.Nested id := by
  obtain ⟨parent, link⟩ := nested
  exact ⟨parent, Heap.Tidied.parent? tidies.spares link⟩

/-- A step that frees cells keeps track, if it does so of the frame whose call ends. -/
theorem tracked (tidies : Tidies before after) (tracked : before.Tracked)
    (finished : ∀ frame, before.running = frame :: after.running →
      frame ∈ after.machine.retained.frames ∨ after.Spent frame) : after.Tracked where
  marked holder id edge nested :=
    (Heap.Tidied.captured_iff tidies.spares nested.contains).mpr
      (tracked.marked holder id (Heap.Tidied.refers tidies.spares edge) (tidies.nested nested))
  followed id nested := by
    rcases tracked.followed id (tidies.nested nested) with running | retained | spent
    · rcases tidies.calls with ⟨same, -⟩ | ⟨frame, popped, -⟩
      · exact Or.inl (same ▸ running)
      · rw [popped] at running
        rcases List.mem_cons.mp running with rfl | still
        · exact Or.inr (finished id popped)
        · exact Or.inl still
    · rcases tidies.dropped id retained with kept | gone | ⟨nameless, unknown⟩
      · exact Or.inr (Or.inl kept)
      · simp [nested.contains] at gone
      · exact Or.inr (Or.inr ⟨unknown, Or.inl nameless⟩)
    · exact Or.inr (Or.inr (tidies.spent spent))

end Tidies

section Runs

variable {activity : Activity}

/-- When its call ends, a frame that is held nowhere else is retained or spent. -/
theorem retained_or_spent_afterCall (sound : activity.Sound) (tracked : activity.Tracked)
    {frame : CellId} {rest : List CellId} {held : List Hold}
    (running : activity.running = frame :: rest)
    (handle : activity.machine.held.Perm (.cell frame :: held))
    (callsOnly : (activity.afterCall frame rest held).CallsOnly) :
    frame ∈ (activity.afterCall frame rest held).machine.retained.frames ∨
      (activity.afterCall frame rest held).Spent frame := by
  rcases afterCall_cases sound running handle with
    ⟨-, ⟨unmarked, same⟩ | ⟨-, spent⟩⟩ | ⟨-, retained, -⟩
  · -- Nothing refers to a frame without a mark, and only calls hold their frames.
    have member : frame ∈ activity.running := by
      rw [running]
      exact List.mem_cons_self
    have nested := sound.nested_of_running member
    have notReferred : ∀ holder, ¬activity.machine.heap.Refers holder frame :=
      fun holder edge => unmarked (tracked.marked holder frame edge nested)
    refine Or.inr ⟨fun known => ?_, Or.inr (by rw [same]; exact notReferred)⟩
    rcases known.cases_last with start | ⟨holder, -, edge⟩
    · have again := callsOnly.held frame start (by rw [same]; exact nested)
      have distinct := sound.distinct
      rw [running, List.cons_append, List.nodup_cons] at distinct
      exact distinct.1 (List.mem_append_left _ again)
    · rw [same] at edge
      exact notReferred holder edge
  · exact Or.inr spent
  · exact Or.inl retained

theorem Step.tracked {before after : Activity} (step : Step before after) (sound : before.Sound)
    (tracked : before.Tracked) (callsOnly : after.CallsOnly) : after.Tracked := by
  -- Only the end of a call takes a frame off those in progress.
  have notPopped : ∀ {running : List CellId} {frame : CellId}, running ≠ frame :: running :=
    fun same => absurd (congrArg List.length same) (by simp)
  cases step with
  | move machine hand heap retained known held =>
      exact (grows_move heap retained known fun _ => held).tracked sound tracked callsOnly
  | make cell admitted => exact (grows_make admitted).tracked sound tracked callsOnly
  | write id old new found known plain offered =>
      exact (grows_set found known (.of_plain plain offered) rfl).tracked sound tracked callsOnly
  | rename frame names known offered =>
      exact (grows_rename known offered).tracked sound tracked callsOnly
  | capture frame known => exact (grows_capture known).tracked sound tracked callsOnly
  | call code function found known =>
      exact (grows_call sound found known).tracked sound tracked callsOnly
  | finish frame rest held running handle =>
      refine (tidies_afterCall sound running handle).tracked tracked fun other popped => ?_
      rw [running] at popped
      cases popped
      exact retained_or_spent_afterCall sound tracked running handle callsOnly
  | collect =>
      exact (tidies_collect sound).tracked tracked fun _ popped => absurd popped notPopped
  | settle =>
      exact (tidies_settle sound).tracked tracked fun _ popped => absurd popped notPopped

/-- In a run with call frames only, every frame inside another one is accounted for. -/
theorem Run.tracked (run : Run CallsOnly activity) : activity.Tracked := by
  induction run with
  | start standard natives =>
      obtain ⟨builtins, interner, supply, built⟩ := exists_build_eq standard natives
      rw [built]
      have none : ∀ id, ({} : Heap).get? id = none := by simp [Heap.get?]
      refine ⟨fun holder id edge => ?_, fun id nested => ?_⟩
      · obtain ⟨cell, found⟩ := Heap.get?_isSome_of_refers edge
        simp [none] at found
      · obtain ⟨frame, found, -⟩ := Heap.nested_iff.mp nested
        simp [Heap.frame?, none] at found
  | step run step callsOnly ih => exact step.tracked run.sound ih callsOnly

/-- Every knot of a settled machine has a retained frame among its outermost ones. -/
theorem exists_retained_outermost (sound : activity.Sound) (tracked : activity.Tracked)
    (settled : activity.machine.Settled) {id : CellId}
    (nested : activity.machine.heap.Nested id)
    (lost : activity.machine.heap.Lost activity.machine.roots id) :
    ∃ frame ∈ activity.machine.retained.frames, activity.machine.heap.Outermost id frame := by
  -- The frame of the knot that was made first has none of the others around it.
  obtain ⟨frame, ⟨nestedFrame, chain⟩, first⟩ := WellFounded.has_min Nat.lt_wfRel.wf
    {frame | activity.machine.heap.Nested frame ∧ activity.machine.heap.Reaches frame id}
    ⟨id, nested, .refl⟩
  have nestedOf : ∀ enclosing, (activity.machine.heap.frame? enclosing).isSome = true →
      activity.machine.heap.Reaches enclosing id → activity.machine.heap.Nested enclosing := by
    intro enclosing isFrame path
    obtain ⟨content, found⟩ := Option.isSome_iff_exists.mp isFrame
    by_contra notNested
    have top : content.isTop = true := by
      by_contra notTop
      exact notNested (Heap.nested_iff.mpr ⟨content, found, by simpa using notTop⟩)
    rcases ReflTransGen.cases_head path with rfl | ⟨next, edge, -⟩
    · exact notNested nested
    · exact Heap.not_refers_of_isTop found top edge
  have apart : ∀ enclosing ∈ activity.machine.heap.around frame,
      ¬activity.machine.heap.Reaches enclosing id := by
    intro enclosing member path
    have isFrame := sound.isFrame_of_mem_around member
    exact first enclosing ⟨nestedOf enclosing isFrame path, path⟩
      (Heap.lt_of_mem_around sound.ordered member)
  obtain ⟨unreached, joined⟩ := Heap.lost_iff.mp (lost.of_reaches chain)
  have referred : ∃ holder, activity.machine.heap.Refers holder frame := by
    rcases settled frame nestedFrame.contains with root | referred
    · exact absurd (.of_mem root) unreached
    · exact referred
  rcases tracked.followed frame nestedFrame with running | retained | ⟨-, nameless | none⟩
  · exact absurd (.of_mem (sound.mem_roots_of_running running)) unreached
  · exact ⟨frame, retained, chain, apart⟩
  · -- A frame without names leads on through the frame around it only.
    obtain ⟨holder, edge⟩ := referred
    obtain ⟨content, found, -⟩ := Heap.nested_iff.mp nestedFrame
    exfalso
    have noParent : ∀ target, activity.machine.heap.Refers frame target →
        ¬activity.machine.heap.Reaches target frame := by
      intro target leaving back
      have link := Option.bind_eq_some_iff.mpr ⟨content, found, nameless.eq_parent found leaving⟩
      exact apart target (Heap.mem_around_of_parent? sound.ordered link) (back.trans chain)
    rcases ReflTransGen.cases_head (joined holder (.single edge)) with rfl | ⟨next, leaving, rest⟩
    · exact noParent frame edge .refl
    · exact noParent next leaving (rest.tail edge)
  · obtain ⟨holder, edge⟩ := referred
    exact absurd edge (none holder)

end Runs

end Activity

/-- Among finitely many items there is one that only equivalent ones come before. -/
theorem exists_minimal {relation : CellId → CellId → Prop}
    (trans : ∀ {first second third}, relation first second → relation second third →
      relation first third)
    {items : List CellId} (nonempty : items ≠ []) :
    ∃ least ∈ items, ∀ other ∈ items, relation other least → relation least other := by
  induction items with
  | nil => exact absurd rfl nonempty
  | cons first rest ih =>
      by_cases single : rest = []
      · subst single
        exact ⟨first, by simp, by simp⟩
      · obtain ⟨least, member, minimal⟩ := ih single
        by_cases before : relation first least ∧ ¬relation least first
        · refine ⟨first, List.mem_cons_self, fun other listed less => ?_⟩
          rcases List.mem_cons.mp listed with rfl | later
          · exact less
          · exact trans before.1 (minimal other later (trans less before.1))
        · refine ⟨least, List.mem_cons_of_mem first member, fun other listed less => ?_⟩
          rcases List.mem_cons.mp listed with rfl | later
          · by_contra notBack
            exact before ⟨less, notBack⟩
          · exact minimal other later less

namespace Machine

/-- A group of cells to which no reference leads from outside the group, and whose members can
all be reached from retained frames in it. -/
structure Forgotten (machine : Machine) (group : Set CellId) : Prop where
  nonempty : group.Nonempty
  apart : ∀ id ∈ group, id ∉ machine.roots
  holders : ∀ id ∈ group, ∀ holder, machine.heap.Refers holder id → holder ∈ group
  reached : ∀ id ∈ group, ∃ frame ∈ group,
    frame ∈ machine.retained.frames ∧ machine.heap.Reaches frame id

namespace Forgotten

variable {machine : Machine} {group : Set CellId}

theorem mem_of_reaches (forgotten : machine.Forgotten group) {id other : CellId}
    (member : id ∈ group) (chain : machine.heap.Reaches other id) : other ∈ group := by
  induction chain using ReflTransGen.head_induction_on with
  | refl => exact member
  | head edge _ ih => exact forgotten.holders _ ih _ edge

theorem exists_lost (forgotten : machine.Forgotten group) :
    ∃ frame ∈ machine.retained.frames, machine.heap.Lost machine.roots frame := by
  classical
  obtain ⟨id, member⟩ := forgotten.nonempty
  obtain ⟨some, someMember, someRetained, -⟩ := forgotten.reached id member
  have nonempty : machine.retained.frames.filter (· ∈ group) ≠ [] :=
    List.ne_nil_of_mem (List.mem_filter.mpr ⟨someRetained, by simpa using someMember⟩)
  obtain ⟨frame, listed, minimal⟩ :=
    @exists_minimal machine.heap.Reaches ReflTransGen.trans _ nonempty
  obtain ⟨retained, inGroup⟩ : frame ∈ machine.retained.frames ∧ frame ∈ group := by
    simpa using listed
  refine ⟨frame, retained, Heap.lost_iff.mpr ⟨?_, fun other chain => ?_⟩⟩
  · rintro ⟨start, root, chain⟩
    exact forgotten.apart start (forgotten.mem_of_reaches inGroup chain) root
  · -- Whatever leads to the frame is itself reached from a frame of the group.
    obtain ⟨source, sourceMember, sourceRetained, path⟩ :=
      forgotten.reached other (forgotten.mem_of_reaches inGroup chain)
    have back := minimal source (List.mem_filter.mpr ⟨sourceRetained, by simpa using sourceMember⟩)
      (path.trans chain)
    exact back.trans path

end Forgotten

end Machine

/-- In a run with call frames only, a collection that clears nothing leaves nothing forgotten: the
heap is what it was but for cells that nothing refers to, all retained frames that still exist stay
retained, and no group of cells that holds some of these is held by nothing but itself. -/
theorem Activity.idle_collection_leaves_nothing_forgotten (activity : Activity)
    (run : Run CallsOnly activity) (idle : activity.machine.collect.1 = 0) :
    activity.machine.collect.2.heap = activity.machine.settle.heap ∧
      activity.machine.collect.2.retained.frames =
        activity.machine.retained.frames.filter activity.machine.settle.heap.contains ∧
      ¬∃ group, activity.machine.collect.2.Forgotten group := by
  have unchanged := Machine.collect_of_eq_zero run.sound.orderly idle
  refine ⟨unchanged.1, unchanged.2, ?_⟩
  rintro ⟨group, forgotten⟩
  obtain ⟨id, retained, lost⟩ := forgotten.exists_lost
  have orderly := run.sound.orderly
  obtain ⟨heap, frames⟩ := unchanged
  let after : Activity := { activity with machine := activity.machine.collect.2, hand := [] }
  have tidies : Tidies activity after := tidies_collect run.sound
  have sound : after.Sound := tidies.sound run.sound
  have tracked : after.Tracked := tidies.tracked run.tracked fun frame popped =>
    absurd (congrArg List.length popped) (by simp [after])
  have nestedRetained : ∀ frame ∈ after.machine.retained.frames,
      after.machine.heap.Nested frame := by
    intro frame member
    apply sound.orderly.nested frame member
    have existing := (List.mem_filter.mp (frames ▸ member)).2
    exact heap ▸ existing
  obtain ⟨frame, member, outermost⟩ := exists_retained_outermost sound tracked
    (Machine.collect_spec orderly).2 (nestedRetained id retained) lost
  have adrift := (lost.adrift_iff_outermost sound.ordered (nestedRetained frame member)
    outermost.1).mpr outermost
  obtain ⟨listed, existing⟩ := List.mem_filter.mp (frames ▸ member)
  exact (Machine.collect_eq_zero_iff orderly).mp idle frame listed existing (heap ▸ adrift)

namespace Activity

/-- A call that has made a function in its frame, bound it there, and is about to return it. -/
def returningCall : Activity where
  machine :=
    { heap := ⟨#[
        some (.frame { scope := .global, captured := true }),
        some (.function
          { name := ⟨"outer", 0⟩, params := [], defaults := [], body := [], defining := 0 }),
        some (.frame
          { scope := .nested 0 [(⟨"inner", 1⟩, .function 3)], captured := true }),
        some (.function
          { name := ⟨"inner", 1⟩, params := [], defaults := [], body := [], defining := 2 })]⟩
      held := [.value (.function 3), .cell 2] }
  running := [2]
  hand := [3, 1, 0]

/-- The same after the call, with the function still held. -/
def returnedCall : Activity :=
  returningCall.afterCall 2 [] [.value (.function 3)]

/-- The same call right after its beginning. -/
def startedCall : Activity where
  machine :=
    { heap := ⟨#[
        some (.frame { scope := .global, captured := true }),
        some (.function
          { name := ⟨"outer", 0⟩, params := [], defaults := [], body := [], defining := 0 }),
        some (.frame { scope := .nested 0 [] })]⟩
      held := [.cell 2] }
  running := [2]
  hand := [1, 0]

theorem run_startedCall : Run CallsOnly startedCall := by
  let outer : FunctionCell :=
    { name := ⟨"outer", 0⟩, params := [], defaults := [], body := [], defining := 0 }
  have built : Run CallsOnly { machine := .build false [] } := .start false [] (by decide)
  have top := built.step (.make _ (.frame { scope := .global }) rfl) (by decide)
  have marked := top.step (.capture _ 0 (.of_mem (by decide))) (by decide)
  have made := marked.step (.make _ (.function outer) ⟨.of_mem (by decide), _, rfl, rfl⟩)
    (by decide)
  exact made.step (.call _ 1 outer rfl (.of_mem (by decide))) (by decide)

theorem run_returningCall : Run CallsOnly returningCall := by
  let inner : FunctionCell :=
    { name := ⟨"inner", 1⟩, params := [], defaults := [], body := [], defining := 2 }
  have captured := run_startedCall.step (.capture _ 2 (.of_mem (by decide))) (by decide)
  have made := captured.step (.make _ (.function inner) ⟨.of_mem (by decide), _, rfl, rfl⟩)
    (by decide)
  have bound := made.step (.rename _ 2 [(⟨"inner", 1⟩, .function 3)] (.of_mem (by decide))
    (fun target member => by
      rw [List.mem_singleton.mp member]
      exact Or.inr ⟨.of_mem (by decide), rfl⟩)) (by decide)
  have known : ∀ id ∈ returningCall.starts, id ∈ [2, 3, 1, 0] := by decide
  exact bound.step (.move _ returningCall.machine [3, 1, 0] rfl rfl
    (fun id member => .of_mem (known id member))
    (fun frame member => by
      rw [List.mem_singleton.mp member]
      exact List.mem_cons_of_mem _ List.mem_cons_self)) (by decide)

theorem run_returnedCall : Run CallsOnly returnedCall :=
  run_returningCall.step (.finish _ 2 [] [.value (.function 3)] rfl (.swap _ _ _))
    (by decide +kernel)

/-- The frame of the call is retained, and nothing is forgotten. -/
theorem nothing_forgotten_after_returnedCall :
    Run CallsOnly returnedCall ∧ returnedCall.machine.retained.frames = [2] ∧
      returnedCall.machine.collect.1 = 0 ∧
      returnedCall.machine.collect.2.retained.frames = [2] ∧
      ¬∃ group, returnedCall.machine.collect.2.Forgotten group := by
  have idle : returnedCall.machine.collect.1 = 0 := by decide +kernel
  obtain ⟨-, frames, nothing⟩ :=
    idle_collection_leaves_nothing_forgotten returnedCall run_returnedCall idle
  refine ⟨run_returnedCall, by decide +kernel, idle, ?_, nothing⟩
  rw [frames]
  decide +kernel

end Activity

end ScriptCore
