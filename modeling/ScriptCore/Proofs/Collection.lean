import ScriptCore.Proofs.Knots

/-!
# Looking through the retained frames

A collection clears nothing exactly when none of the retained frames is adrift, and then it
changes nothing.  It drops a frame from the list only when the frame is gone, or is left without
names and out of reach.  One collection is enough if every frame around a retained frame is
reached from outside or holds no names; otherwise the frames that a later turn sets adrift wait
for the next one.
-/

namespace ScriptCore

open Relation

namespace Counted

section Passes

variable {outside : List CellId} {counted : Counted}

theorem turn_pos_of_adrift (exact : counted.Exact outside) (settled : counted.Settled)
    {id : CellId} (nested : counted.heap.Nested id) (adrift : counted.heap.Adrift outside id) :
    0 < ((counted.hold id).reclaim id).1 ∧ (counted.turn id).heap.Nameless id := by
  obtain ⟨frame, found, -⟩ := Heap.nested_iff.mp nested
  obtain ⟨positive, nameless⟩ := turn_of_adrift exact settled adrift (by simp [found])
  exact ⟨positive, nameless id adrift⟩

theorem reclaimEach_of_none_adrift (exact : counted.Exact outside) (settled : counted.Settled)
    {ids : List CellId}
    (reached : ∀ id ∈ ids, counted.heap.contains id = true → ¬counted.heap.Adrift outside id) :
    reclaimEach ids counted = (0, ids.filter counted.heap.contains, counted) := by
  induction ids with
  | nil => rfl
  | cons first rest ih =>
      have onward := ih fun id member => reached id (List.mem_cons_of_mem first member)
      by_cases present : counted.heap.contains first = true
      · obtain ⟨nothing, same⟩ := turn_of_not_adrift exact settled
          (Heap.lt_size_of_contains present) (reached first List.mem_cons_self present)
        rw [reclaimEach_cons_of_contains rest present, same, nothing, onward]
        simp [present]
      · have absent : counted.heap.contains first = false := by simpa using present
        rw [reclaimEach_cons_of_not_contains rest absent, onward]
        simp [absent]

/-- A collection clears nothing exactly when none of the frames is adrift. -/
theorem reclaimEach_eq_zero_iff (exact : counted.Exact outside) (settled : counted.Settled)
    {ids : List CellId} (nested : counted.heap.NestedFrames ids) :
    (reclaimEach ids counted).1 = 0 ↔
      ∀ id ∈ ids, counted.heap.contains id = true → ¬counted.heap.Adrift outside id := by
  constructor
  · intro nothing
    induction ids with
    | nil => simp
    | cons first rest ih =>
        by_cases present : counted.heap.contains first = true
        · rw [reclaimEach_cons_of_contains rest present] at nothing
          have firstNothing : ((counted.hold first).reclaim first).1 = 0 :=
            (Nat.add_eq_zero_iff.mp nothing).1
          have notAdrift : ¬counted.heap.Adrift outside first := by
            intro adrift
            have := (turn_pos_of_adrift exact settled
              (nested first List.mem_cons_self present) adrift).1
            omega
          obtain ⟨-, same⟩ :=
            turn_of_not_adrift exact settled (Heap.lt_size_of_contains present) notAdrift
          rw [same] at nothing
          intro id member existing
          rcases List.mem_cons.mp member with rfl | later
          · exact notAdrift
          · exact ih nested.tail (Nat.add_eq_zero_iff.mp nothing).2 id later existing
        · rw [reclaimEach_cons_of_not_contains rest (by simpa using present)] at nothing
          intro id member existing
          rcases List.mem_cons.mp member with rfl | later
          · exact absurd existing present
          · exact ih nested.tail nothing id later existing
  · intro reached
    rw [reclaimEach_of_none_adrift exact settled reached]

/-- The frames that stay listed are some of those that were, and fewer if any was cleared. -/
theorem reclaimEach_kept_sublist (ids : List CellId) (counted : Counted) :
    (reclaimEach ids counted).2.1.Sublist ids ∧
      (0 < (reclaimEach ids counted).1 → (reclaimEach ids counted).2.1.length < ids.length) := by
  induction ids generalizing counted with
  | nil => simp [reclaimEach]
  | cons first rest ih =>
      by_cases present : counted.heap.contains first = true
      · rw [reclaimEach_cons_of_contains rest present]
        obtain ⟨sublist, shorter⟩ := ih (counted.turn first)
        have bound := sublist.length_le
        by_cases nothing : ((counted.hold first).reclaim first).1 = 0
        · rw [if_pos nothing, nothing]
          refine ⟨sublist.cons_cons first, fun positive => ?_⟩
          have := shorter (by simpa using positive)
          simpa using this
        · rw [if_neg nothing]
          exact ⟨sublist.cons first, fun _ => Nat.lt_succ_of_le bound⟩
      · rw [reclaimEach_cons_of_not_contains rest (by simpa using present)]
        obtain ⟨sublist, shorter⟩ := ih counted
        exact ⟨sublist.cons first, fun positive => Nat.lt_succ_of_lt (shorter positive)⟩

/-- A frame that has its turn stays listed, is gone, or is left without names and out of
reach. -/
theorem reclaimEach_kept (exact : counted.Exact outside) (settled : counted.Settled)
    {ids : List CellId} (nested : counted.heap.NestedFrames ids) {id : CellId}
    (member : id ∈ ids) :
    id ∈ (reclaimEach ids counted).2.1 ∨
      (reclaimEach ids counted).2.2.heap.contains id = false ∨
      (reclaimEach ids counted).2.2.heap.Nameless id ∧
        ¬(reclaimEach ids counted).2.2.heap.ReachedFrom outside id := by
  induction ids generalizing counted with
  | nil => simp at member
  | cons first rest ih =>
      by_cases present : counted.heap.contains first = true
      · rw [reclaimEach_cons_of_contains rest present]
        have inside := Heap.lt_size_of_contains present
        obtain ⟨exactTurn, settledTurn, tidied⟩ := turn_spec exact settled inside
        rcases List.mem_cons.mp member with rfl | later
        · by_cases nothing : ((counted.hold id).reclaim id).1 = 0
          · rw [if_pos nothing]
            exact Or.inl List.mem_cons_self
          · have adrift : counted.heap.Adrift outside id := by
              by_contra reached
              exact nothing (turn_of_not_adrift exact settled inside reached).1
            obtain ⟨-, nameless⟩ := turn_pos_of_adrift exact settled
              (nested id List.mem_cons_self present) adrift
            obtain ⟨-, -, spares⟩ := reclaimEach_spec exactTurn settledTurn rest
            refine Or.inr (Or.inr ⟨Heap.Tidied.nameless spares nameless, fun reached => ?_⟩)
            have before := (spares_turn exact settled inside).reachedFrom_before
              (spares.reachedFrom_before reached)
            exact adrift.2 (.of_reachedFrom _ before)
        · rcases ih exactTurn settledTurn (nested.tail.of_tidied tidied) later with kept | gone
          · apply Or.inl
            split
            · exact List.mem_cons_of_mem first kept
            · exact kept
          · exact Or.inr gone
      · have absent : counted.heap.contains first = false := by simpa using present
        rw [reclaimEach_cons_of_not_contains rest absent]
        rcases List.mem_cons.mp member with rfl | later
        · refine Or.inr (Or.inl ?_)
          obtain ⟨-, -, spares⟩ := reclaimEach_spec exact settled rest
          by_contra stays
          rw [Bool.not_eq_false] at stays
          exact present (Heap.Tidied.contains spares stays)
        · exact ih exact settled nested.tail later

theorem reclaimEach_kept_of_reached (exact : counted.Exact outside) (settled : counted.Settled)
    {ids : List CellId} (nested : counted.heap.NestedFrames ids) {id : CellId}
    (member : id ∈ ids) (present : counted.heap.contains id = true)
    (reached : counted.heap.ReachedFrom outside id) : id ∈ (reclaimEach ids counted).2.1 := by
  obtain ⟨-, -, spares⟩ := reclaimEach_spec exact settled ids
  rcases reclaimEach_kept exact settled nested member with kept | gone | ⟨-, unreached⟩
  · exact kept
  · rw [Heap.contains, spares.get? reached] at gone
    simp [Heap.contains, gone] at present
  · exact absurd (spares.reachedFrom reached) unreached

end Passes

end Counted

namespace Retained

variable {outside : List CellId} {counted : Counted}

/-- A frame that is pushed while it is held stays listed, and one that was listed before stays
so, is gone, or is left without names and out of reach. -/
theorem push_spec (exact : counted.Exact outside) (settled : counted.Settled)
    {retained : Retained} {frame : CellId}
    (nested : counted.heap.NestedFrames (retained.frames ++ [frame])) (handle : frame ∈ outside)
    (present : counted.heap.contains frame = true) :
    frame ∈ (retained.push frame counted).1.frames ∧
      (retained.push frame counted).1.frames ⊆ retained.frames ++ [frame] ∧
      ∀ id ∈ retained.frames, id ∈ (retained.push frame counted).1.frames ∨
        (retained.push frame counted).2.heap.contains id = false ∨
        (retained.push frame counted).2.heap.Nameless id ∧
          ¬(retained.push frame counted).2.heap.ReachedFrom outside id := by
  have last : frame ∈ retained.frames ++ [frame] := by simp
  unfold push
  dsimp only
  split
  · refine ⟨?_, (Counted.reclaimEach_kept_sublist _ counted).1.subset, fun id member => ?_⟩
    · exact Counted.reclaimEach_kept_of_reached exact settled nested last present (.of_mem handle)
    · exact Counted.reclaimEach_kept exact settled nested (List.mem_append_left _ member)
  · exact ⟨last, fun id member => member, fun id member => Or.inl (List.mem_append_left _ member)⟩

end Retained

namespace Machine

/-- References lead to cells that were made, frames lie inside earlier ones, and the retained
frames lie inside others. -/
structure Orderly (machine : Machine) : Prop where
  bounded : machine.Bounded
  ordered : machine.heap.Ordered
  nested : machine.heap.NestedFrames machine.retained.frames

section Orderly

variable {machine : Machine}

theorem Orderly.counted (orderly : machine.Orderly) :
    machine.counted.heap.Ordered ∧ machine.counted.heap.NestedFrames machine.retained.frames := by
  obtain ⟨-, -, tidied⟩ := counted_spec orderly.bounded
  exact ⟨tidied.ordered orderly.ordered, orderly.nested.of_tidied tidied⟩

theorem collect_eq_zero_iff (orderly : machine.Orderly) :
    machine.collect.1 = 0 ↔
      ∀ frame ∈ machine.retained.frames, machine.counted.heap.contains frame = true →
        ¬machine.counted.heap.Adrift machine.roots frame := by
  obtain ⟨exact, settled, -⟩ := counted_spec orderly.bounded
  exact Counted.reclaimEach_eq_zero_iff exact settled orderly.counted.2

theorem collect_of_eq_zero (orderly : machine.Orderly) (nothing : machine.collect.1 = 0) :
    machine.collect.2.heap = machine.counted.heap ∧
      machine.collect.2.retained.frames =
        machine.retained.frames.filter machine.counted.heap.contains := by
  obtain ⟨exact, settled, -⟩ := counted_spec orderly.bounded
  have none := (collect_eq_zero_iff orderly).mp nothing
  have same := Counted.reclaimEach_of_none_adrift exact settled none
  simp [collect, Retained.collect, same]

theorem collect_spec (orderly : machine.Orderly) :
    machine.collect.2.Orderly ∧ machine.collect.2.Settled := by
  obtain ⟨exact, settled, tidied⟩ := counted_spec orderly.bounded
  obtain ⟨exactAfter, settledAfter, spares⟩ :=
    Counted.reclaimEach_spec exact settled machine.retained.frames
  refine ⟨⟨exactAfter.inside, Heap.Tidied.ordered spares orderly.counted.1, ?_⟩, ?_⟩
  · intro id member
    exact orderly.counted.2.of_tidied spares id
      ((Counted.reclaimEach_kept_sublist _ _).1.subset member)
  · intro id present
    exact exactAfter.referred_of_settled settledAfter present

theorem lost_of_mem_garbage {machine : Machine} (bounded : machine.Bounded) {id : CellId}
    (present : machine.counted.heap.contains id = true)
    (found : id ∈ (((machine.counted.hold id).trace id).discount id).garbage) :
    machine.counted.heap.Lost machine.roots id := by
  obtain ⟨exact, settled, -⟩ := counted_spec bounded
  obtain ⟨exactHeld, -⟩ := Counted.hold_spec exact settled (Heap.lt_size_of_contains present)
  exact Heap.Adrift.lost ((Counted.mem_garbage_iff exactHeld id).mp found)

end Orderly

theorem counted_frame?_of_mem_roots {machine : Machine} (bounded : machine.Bounded)
    {frame : CellId} (root : frame ∈ machine.roots) :
    machine.counted.heap.frame? frame = machine.heap.frame? frame := by
  have same : machine.counted.heap.get? frame = machine.heap.get? frame :=
    (counted_spec bounded).2.2.get?_of_reachedFrom (by simp) (.of_mem root)
  simp only [Heap.frame?, same]

/-- Giving up the handle of a frame does one of four things: nothing if the frame is not marked
as captured; nothing but freeing if the handle is all that refers to it; clearing around it if it
is adrift; and else the frame is retained. -/
theorem release_cases {machine : Machine} (bounded : machine.Bounded) {frame : CellId}
    (handle : frame ∈ machine.roots) :
    ¬machine.heap.Captured frame ∧ machine.release frame = machine ∨
    machine.heap.Captured frame ∧
      (machine.counted.count frame = 1 ∧
          machine.release frame = { machine with heap := machine.counted.heap } ∨
        machine.counted.heap.Adrift (machine.roots.erase frame) frame ∧
          machine.release frame =
            { machine with heap := (machine.counted.reclaim frame).2.heap } ∨
        machine.release frame =
          { machine with
            retained := (machine.retained.push frame machine.counted).1
            heap := (machine.retained.push frame machine.counted).2.heap }) := by
  obtain ⟨exact, settled, -⟩ := counted_spec bounded
  have exactFrame := exact.perm (List.perm_cons_erase handle)
  cases found : machine.heap.frame? frame with
  | none => simp [release, Heap.Captured, found]
  | some content =>
      cases captured : content.captured with
      | false => simp [release, Heap.Captured, found, captured]
      | true =>
          refine Or.inr ⟨⟨content, found, captured⟩, ?_⟩
          by_cases alone : machine.counted.count frame = 1
          · simp [release, found, captured, alone]
          · apply Or.inr
            by_cases adrift : machine.counted.heap.Adrift (machine.roots.erase frame) frame
            · have isFrame : (machine.counted.heap.frame? frame).isSome = true := by
                rw [counted_frame?_of_mem_roots bounded handle, found]
                rfl
              have positive := (Counted.reclaim_of_adrift exactFrame settled adrift isFrame).1
              refine Or.inl ⟨adrift, ?_⟩
              simp [release, found, captured, alone, Nat.ne_of_gt positive]
            · have nothing := Counted.reclaim_of_not_adrift exactFrame adrift
              apply Or.inr
              simp [release, found, captured, alone, nothing]

end Machine

end ScriptCore
