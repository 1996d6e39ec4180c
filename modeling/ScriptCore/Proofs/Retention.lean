import ScriptCore.Proofs.Cycles

/-!
# The list of retained frames

Frames are pushed on the list, and now and then all of them are looked through, in whatever heap
there is by then.  The list stays short: there are fewer frames on it than would be looked through,
and never twice as many as the last collection left, unless these are few.  A collection keeps a
frame exactly if, at its turn, it exists and nothing is cleared for it.
-/

namespace ScriptCore

namespace Counted

section Turns

variable {outside : List CellId} {counted : Counted}

/-- What is left when the frames before a place in a list have had their turns. -/
def atTurn (counted : Counted) (frames : List CellId) (place : Nat) : Counted :=
  (reclaimEach (frames.take place) counted).2.2

/-- Whether a frame exists, and nothing is cleared for it. -/
def stays (counted : Counted) (frame : CellId) : Bool :=
  counted.heap.contains frame && ((counted.hold frame).reclaim frame).1 == 0

/-- The frames of a list that stay at their turns, in the order of the list. -/
def survivors (counted : Counted) (frames : List CellId) : List CellId :=
  (frames.zipIdx.filter fun entry => (counted.atTurn frames entry.2).stays entry.1).map Prod.fst

theorem reclaimEach_append (first second : List CellId) (counted : Counted) :
    reclaimEach (first ++ second) counted =
      ((reclaimEach first counted).1 + (reclaimEach second (reclaimEach first counted).2.2).1,
        (reclaimEach first counted).2.1 ++
          (reclaimEach second (reclaimEach first counted).2.2).2.1,
        (reclaimEach second (reclaimEach first counted).2.2).2.2) := by
  induction first generalizing counted with
  | nil => simp [reclaimEach]
  | cons frame rest ih =>
      by_cases present : counted.heap.contains frame = true
      · rw [List.cons_append, reclaimEach_cons_of_contains _ present,
          reclaimEach_cons_of_contains _ present, ih]
        split <;> simp [Nat.add_assoc]
      · have absent : counted.heap.contains frame = false := by simpa using present
        rw [List.cons_append, reclaimEach_cons_of_not_contains _ absent,
          reclaimEach_cons_of_not_contains _ absent, ih]

/-- The turn of the last frame comes after those of all others. -/
theorem survivors_concat (counted : Counted) (frames : List CellId) (frame : CellId) :
    counted.survivors (frames ++ [frame]) =
      counted.survivors frames ++
        if (reclaimEach frames counted).2.2.stays frame then [frame] else [] := by
  have others : ∀ entry ∈ frames.zipIdx,
      counted.atTurn (frames ++ [frame]) entry.2 = counted.atTurn frames entry.2 := by
    intro entry member
    have before := (List.mem_zipIdx' member).1
    rw [atTurn, List.take_append_of_le_length (Nat.le_of_lt before), atTurn]
  have last : counted.atTurn (frames ++ [frame]) frames.length =
      (reclaimEach frames counted).2.2 := by
    rw [atTurn, List.take_left]
  rw [survivors, List.zipIdx_append, List.filter_append, List.map_append, survivors]
  congr 1
  · congr 1
    refine List.filter_congr fun entry member => ?_
    rw [others entry member]
  · by_cases kept : (reclaimEach frames counted).2.2.stays frame = true
    · simp [last, kept]
    · simp [last, kept]

/-- A collection keeps the frames that stay at their turns. -/
theorem reclaimEach_kept_eq (counted : Counted) (frames : List CellId) :
    (reclaimEach frames counted).2.1 = counted.survivors frames := by
  induction frames using List.reverseRecOn with
  | nil => rfl
  | append_singleton frames frame ih =>
      rw [reclaimEach_append, survivors_concat, ih]
      by_cases present : (reclaimEach frames counted).2.2.heap.contains frame = true
      · rw [reclaimEach_cons_of_contains _ present]
        simp [stays, present, reclaimEach]
      · have absent : (reclaimEach frames counted).2.2.heap.contains frame = false := by
          simpa using present
        rw [reclaimEach_cons_of_not_contains _ absent]
        simp [stays, absent, reclaimEach]

theorem survivors_sublist (counted : Counted) (frames : List CellId) :
    (counted.survivors frames).Sublist frames :=
  reclaimEach_kept_eq counted frames ▸ (reclaimEach_kept_sublist frames counted).1

/-- A frame that is held stays, whatever had its turn before. -/
theorem stays_of_held (exact : counted.Exact outside) (settled : counted.Settled)
    (frames : List CellId) {frame : CellId} (handle : frame ∈ outside)
    (present : counted.heap.contains frame = true) :
    (reclaimEach frames counted).2.2.stays frame = true := by
  obtain ⟨exactNow, settledNow, spares⟩ := reclaimEach_spec exact settled frames
  have held : counted.heap.ReachedFrom outside frame := .of_mem handle
  have presentNow : (reclaimEach frames counted).2.2.heap.contains frame = true := by
    rwa [Heap.contains, spares.get? held]
  have notAdrift : ¬(reclaimEach frames counted).2.2.heap.Adrift outside frame :=
    fun adrift => adrift.2 (.of_reachedFrom _ (spares.reachedFrom held))
  have nothing := (turn_of_not_adrift exactNow settledNow
    (Heap.lt_size_of_contains presentNow) notAdrift).1
  simp [stays, presentNow, nothing]

end Turns

end Counted

namespace Retained

/-- A use of the list, in the heap that there is at the time. -/
inductive Use
  | push (frame : CellId) (counted : Counted)
  | collect (counted : Counted)

/-- Whether the next frame to be pushed is one too many. -/
def isFull (retained : Retained) : Bool :=
  max retained.limit leastLimit ≤ retained.frames.length + 1

/-- The list, all frames ever pushed on it, and how many the last collection left. -/
structure Ledger where
  retained : Retained := {}
  pushed : List CellId := []
  left : Nat := 0

namespace Ledger

/-- The list is used once more. -/
def use (ledger : Ledger) : Use → Ledger
  | .push frame counted =>
      let retained := (ledger.retained.push frame counted).1
      { retained
        pushed := ledger.pushed ++ [frame]
        left := if ledger.retained.isFull then retained.frames.length else ledger.left }
  | .collect counted =>
      let retained := (ledger.retained.collect counted).2.1
      { ledger with retained, left := retained.frames.length }

/-- What becomes of the empty list. -/
def ofUses (uses : List Use) : Ledger :=
  uses.foldl use {}

end Ledger

section Uses

variable {retained : Retained} {frame : CellId} {counted : Counted}

theorem push_of_isFull (full : retained.isFull = true) :
    (retained.push frame counted).1 =
      { frames := counted.survivors (retained.frames ++ [frame])
        limit := 2 * (counted.survivors (retained.frames ++ [frame])).length } := by
  have many : max retained.limit leastLimit ≤ (retained.frames ++ [frame]).length := by
    simpa [isFull] using full
  rw [push, if_pos many]
  simp [collect, Counted.reclaimEach_kept_eq]

theorem push_of_not_isFull (room : retained.isFull = false) :
    retained.push frame counted =
      ({ retained with frames := retained.frames ++ [frame] }, counted) := by
  have few : ¬max retained.limit leastLimit ≤ (retained.frames ++ [frame]).length := by
    simpa [isFull] using room
  rw [push, if_neg few]

theorem collect_retained (retained : Retained) (counted : Counted) :
    (retained.collect counted).2.1 =
      { frames := counted.survivors retained.frames
        limit := 2 * (counted.survivors retained.frames).length } := by
  simp [collect, Counted.reclaimEach_kept_eq]

/-- A frame that is held when it is pushed is the last of the list, whether the others are looked
through or not. -/
theorem push_frames_of_held {outside : List CellId} (exact : counted.Exact outside)
    (settled : counted.Settled) (handle : frame ∈ outside)
    (present : counted.heap.contains frame = true) :
    (retained.push frame counted).1.frames =
      (if retained.isFull then counted.survivors retained.frames else retained.frames) ++
        [frame] := by
  cases full : retained.isFull with
  | true =>
      rw [push_of_isFull full, Counted.survivors_concat,
        Counted.stays_of_held exact settled retained.frames handle present]
      rfl
  | false =>
      rw [push_of_not_isFull full]
      rfl

end Uses

namespace Ledger

/-- What holds of the list after every use. -/
structure Kept (ledger : Ledger) : Prop where
  limit : ledger.retained.limit = 2 * ledger.left
  short : ledger.retained.frames.length < max leastLimit (2 * ledger.left)
  sublist : ledger.retained.frames.Sublist ledger.pushed

theorem kept_of_collected {frames pushed : List CellId} (sublist : frames.Sublist pushed) :
    Kept { retained := { frames, limit := 2 * frames.length }, pushed, left := frames.length } where
  limit := rfl
  short := by
    simp only [leastLimit]
    omega
  sublist := sublist

theorem Kept.use {ledger : Ledger} (kept : ledger.Kept) (use : Use) : (ledger.use use).Kept := by
  cases use with
  | collect counted =>
      have few := (counted.survivors_sublist ledger.retained.frames).trans kept.sublist
      simpa [Ledger.use, collect_retained] using kept_of_collected few
  | push frame counted =>
      have more := kept.sublist.append (List.Sublist.refl [frame])
      cases full : ledger.retained.isFull with
      | true =>
          have few := (counted.survivors_sublist (ledger.retained.frames ++ [frame])).trans more
          simpa [Ledger.use, full, push_of_isFull full] using kept_of_collected few
      | false =>
          have room : ledger.retained.frames.length + 1 <
              max ledger.retained.limit leastLimit := by
            simpa only [isFull, decide_eq_false_iff_not, Nat.not_le] using full
          rw [kept.limit, max_comm] at room
          simp only [Ledger.use, full, push_of_not_isFull full]
          exact ⟨kept.limit, by simpa using room, more⟩

theorem kept_ofUses (uses : List Use) : (ofUses uses).Kept := by
  refine List.foldlRecOn uses Ledger.use ⟨rfl, by decide, .refl []⟩ ?_
  exact fun ledger kept use _ => kept.use use

/-- The list stays short and loses nothing.  Whatever uses are made of it, it has fewer than 64
frames or fewer than twice as many as the last collection left, none of them twice if none was
pushed twice.  A collection, asked for or caused by a push, drops exactly the frames that at their
turn are gone or have something cleared for them, and a frame that is held when it is pushed is not
among those. -/
theorem list_stays_short_and_loses_nothing (uses : List Use) :
    (ofUses uses).retained.frames.length < max leastLimit (2 * (ofUses uses).left) ∧
    ((ofUses uses).pushed.Nodup → (ofUses uses).retained.frames.Nodup) ∧
    (∀ counted, ((ofUses uses).retained.collect counted).2.1.frames =
      counted.survivors (ofUses uses).retained.frames) ∧
    (∀ frame counted, ((ofUses uses).retained.push frame counted).1.frames =
      if (ofUses uses).retained.isFull then
        counted.survivors ((ofUses uses).retained.frames ++ [frame])
      else (ofUses uses).retained.frames ++ [frame]) ∧
    ∀ frame counted outside, counted.Exact outside → counted.Settled → frame ∈ outside →
      counted.heap.contains frame = true →
      ((ofUses uses).retained.push frame counted).1.frames =
        (if (ofUses uses).retained.isFull then counted.survivors (ofUses uses).retained.frames
          else (ofUses uses).retained.frames) ++ [frame] := by
  have kept := kept_ofUses uses
  refine ⟨kept.short, fun distinct => kept.sublist.nodup distinct, fun counted => ?_,
    fun frame counted => ?_, fun frame counted outside exact settled handle present =>
      push_frames_of_held exact settled handle present⟩
  · rw [collect_retained]
  · cases full : (ofUses uses).retained.isFull with
    | true =>
        rw [push_of_isFull full]
        rfl
    | false =>
        rw [push_of_not_isFull full]
        rfl

/-- One frame that is still there, and many that are gone. -/
def manyUses : List Use :=
  .push 4 Machine.usingClosure.counted ::
    (List.range 62).map fun gone => .push (100 + gone) Machine.usingClosure.counted

/-- The next frame is one too many: the frames that are gone are dropped, and the others stay. -/
theorem manyUses_leaves_two :
    (ofUses manyUses).retained.frames.length = 63 ∧
      63 < max leastLimit (2 * (ofUses manyUses).left) ∧
      (ofUses manyUses).pushed.Nodup ∧ (ofUses manyUses).retained.frames.Nodup ∧
      Machine.usingClosure.counted.Exact Machine.usingClosure.roots ∧
      Machine.usingClosure.counted.Settled ∧ 3 ∈ Machine.usingClosure.roots ∧
      Machine.usingClosure.counted.heap.contains 3 = true ∧
      (ofUses manyUses).retained.isFull = true ∧
      Machine.usingClosure.counted.survivors (ofUses manyUses).retained.frames = [4] ∧
      ((ofUses manyUses).retained.push 3 Machine.usingClosure.counted).1.frames = [4, 3] := by
  obtain ⟨exact, settled, -⟩ :=
    Machine.counted_spec (show Machine.usingClosure.Bounded by decide)
  obtain ⟨short, distinct, -, -, pushes⟩ := list_stays_short_and_loses_nothing manyUses
  have length : (ofUses manyUses).retained.frames.length = 63 := by decide +kernel
  have pushed : (ofUses manyUses).pushed.Nodup := by decide +kernel
  have handle : 3 ∈ Machine.usingClosure.roots := by decide
  have present : Machine.usingClosure.counted.heap.contains 3 = true := by decide +kernel
  have full : (ofUses manyUses).retained.isFull = true := by decide +kernel
  have left : Machine.usingClosure.counted.survivors (ofUses manyUses).retained.frames = [4] := by
    rw [← Counted.reclaimEach_kept_eq]
    decide +kernel
  refine ⟨length, length ▸ short, pushed, distinct pushed, exact, settled, handle, present, full,
    left, ?_⟩
  rw [pushes 3 Machine.usingClosure.counted _ exact settled handle present, full, left]
  rfl

end Ledger

end Retained

namespace Activity

section Runs

open Retained

variable {activity before after : Activity} {allowed : Activity → Prop}

/-- A step of a run makes at most one use of the list, and only the end of a call pushes. -/
theorem Step.retained_cases (step : Step before after) (sound : before.Sound) :
    after.machine.retained = before.machine.retained ∧ before.returned ⊆ after.returned ∨
    (∃ counted, after.machine.retained = (before.machine.retained.collect counted).2.1 ∧
      after.returned = before.returned) ∨
    ∃ frame counted, after.machine.retained = (before.machine.retained.push frame counted).1 ∧
      frame ∉ before.returned ∧ after.returned = frame :: before.returned := by
  cases step with
  | move machine hand heap retained => exact Or.inl ⟨retained, List.Subset.refl _⟩
  | rename frame names known offered =>
      exact Or.inl ⟨(grows_rename known offered).retained, List.Subset.refl _⟩
  | make | write | capture | call | settle => exact Or.inl ⟨rfl, List.Subset.refl _⟩
  | collect => exact Or.inr (Or.inl ⟨before.machine.counted, rfl, rfl⟩)
  | finish frame rest held running handle =>
      have apart : frame ∉ before.returned := by
        have distinct := sound.distinct
        rw [running, List.cons_append, List.nodup_cons] at distinct
        exact fun again => distinct.1 (List.mem_append_right _ again)
      have same (retained : (before.machine.release frame).retained = before.machine.retained) :
          (before.afterCall frame rest held).machine.retained = before.machine.retained ∧
            before.returned ⊆ (before.afterCall frame rest held).returned :=
        ⟨retained, List.subset_cons_self frame _⟩
      rcases Machine.release_cases sound.bounded (mem_roots_of_handle handle) with
        ⟨-, result⟩ | ⟨-, ⟨-, result⟩ | ⟨-, result⟩ | result⟩
      · exact Or.inl (same (by rw [result]))
      · exact Or.inl (same (by rw [result]))
      · exact Or.inl (same (by rw [result]))
      · refine Or.inr (Or.inr ⟨frame, before.machine.counted, ?_, apart, rfl⟩)
        rw [afterCall, result]

/-- The list of a run is what becomes of the empty one, and no frame is pushed twice. -/
theorem Run.exists_uses (run : Run allowed activity) :
    ∃ uses, activity.machine.retained = (Ledger.ofUses uses).retained ∧
      (Ledger.ofUses uses).pushed.Nodup ∧ (Ledger.ofUses uses).pushed ⊆ activity.returned := by
  induction run with
  | start standard natives =>
      obtain ⟨builtins, interner, supply, built⟩ := exists_build_eq standard natives
      rw [built]
      exact ⟨[], rfl, List.nodup_nil, List.nil_subset _⟩
  | @step before after run step _ ih =>
      obtain ⟨uses, list, distinct, returned⟩ := ih
      have onward : ∀ use, Ledger.ofUses (uses ++ [use]) = (Ledger.ofUses uses).use use := by
        simp [Ledger.ofUses]
      rcases step.retained_cases run.sound with
        ⟨same, more⟩ | ⟨counted, collected, same⟩ | ⟨frame, counted, pushed, new, same⟩
      · exact ⟨uses, same.trans list, distinct, fun _ member => more (returned member)⟩
      · refine ⟨uses ++ [.collect counted], ?_, ?_, ?_⟩
        · rw [onward, collected, list]
          rfl
        · rw [onward]
          exact distinct
        · rw [onward, same]
          exact returned
      · refine ⟨uses ++ [.push frame counted], ?_, ?_, ?_⟩
        · rw [onward, pushed, list]
          rfl
        · rw [onward]
          change ((Ledger.ofUses uses).pushed ++ [frame]).Nodup
          rw [← List.concat_eq_append]
          exact distinct.concat fun again => new (returned again)
        · rw [onward, same]
          intro id member
          rcases List.mem_append.mp member with old | last
          · exact List.mem_cons_of_mem frame (returned old)
          · exact List.mem_singleton.mp last ▸ List.mem_cons_self

/-- In every state of every run the list of retained frames is short and without repeats. -/
theorem Reachable.retained_short (reachable : activity.Reachable) :
    activity.machine.retained.frames.length < max leastLimit activity.machine.retained.limit ∧
      activity.machine.retained.frames.Nodup := by
  obtain ⟨uses, list, distinct, -⟩ := Run.exists_uses reachable
  have kept := Ledger.kept_ofUses uses
  rw [list, kept.limit]
  exact ⟨kept.short, kept.sublist.nodup distinct⟩

end Runs

end Activity

end ScriptCore
