import ScriptCore.Machine.Build
import ScriptCore.Proofs.Collection

/-!
# Runs

What an evaluator and its host can do with a machine, one step at a time.  They know what can
be reached from the references held outside the heap and from those they have in hand, and
they can only pass on what they know.  Calls push a frame, and give it up when they return.

A step either grows the machine, in the sense of `Grows`, or tidies its heap.  Whatever holds
of all runs is derived from these two descriptions.
-/

namespace ScriptCore

open Relation

namespace Cell

/-- The frame in a cell. -/
def frame? : Cell → Option Frame
  | frame content => some content
  | _ => none

/-- The frame that a cell belongs to: the one around a frame, or the one a function was made
in. -/
def link? : Cell → Option CellId
  | frame content => content.parent?
  | function content => some content.defining
  | _ => none

/-- Whether a cell is neither a frame nor a function. -/
def isPlain : Cell → Bool
  | frame _ => false
  | function _ => false
  | _ => true

end Cell

namespace Heap

theorem frame?_eq_bind (heap : Heap) (id : CellId) :
    heap.frame? id = (heap.get? id).bind Cell.frame? := by
  cases found : heap.get? id with
  | none => simp [frame?, found]
  | some cell => cases cell <;> simp [frame?, found, Cell.frame?]

theorem parent?_eq_bind (heap : Heap) (id : CellId) :
    heap.parent? id = ((heap.get? id).bind Cell.frame?).bind Frame.parent? := by
  rw [parent?, frame?_eq_bind]

theorem refers_set_captured {heap : Heap} {id : CellId} {frame : Frame}
    (found : heap.frame? id = some frame) (holder target : CellId) :
    (heap.set id (.frame { frame with captured := true })).Refers holder target ↔
      heap.Refers holder target := by
  rw [frame?_eq_some_iff] at found
  by_cases same : holder = id
  · subst same
    have now : (heap.set holder (.frame { frame with captured := true })).get? holder =
        some (.frame { frame with captured := true }) := by
      simp [get?_set, contains, found]
    rw [Refers, Refers, referencesOf_of_get? now, referencesOf_of_get? found]
    rfl
  · exact refers_iff_of_get?_eq (by simp [get?_set, same]) target

theorem refers_of_link {heap : Heap} {id target : CellId} {cell : Cell}
    (found : heap.get? id = some cell) (link : cell.link? = some target) :
    heap.Refers id target := by
  rw [Refers, referencesOf_of_get? found]
  cases cell with
  | frame content => exact content.parent?_toList_subset (by simpa [Cell.link?] using link)
  | function content => simpa [Cell.link?, Cell.references, eq_comm] using link
  | _ => simp [Cell.link?] at link

theorem size_captureUpTo (limit : Nat) (heap : Heap) (id : CellId) :
    (captureUpTo limit id heap).size = heap.size := by
  induction limit generalizing heap id with
  | zero => rfl
  | succ limit ih =>
      unfold captureUpTo
      cases heap.frame? id with
      | none => rfl
      | some frame =>
          cases captured : frame.captured with
          | true => simp [captured]
          | false => cases link : frame.parent? <;> simp [captured, link, ih]

@[simp]
theorem size_capture (heap : Heap) (id : CellId) : (heap.capture id).size = heap.size :=
  size_captureUpTo _ heap id

/-- Capturing marks frames that can be reached from the first one, and does nothing else. -/
theorem get?_captureUpTo (limit : Nat) (heap : Heap) (id other : CellId) :
    (captureUpTo limit id heap).get? other = heap.get? other ∨
      ∃ frame, heap.get? other = some (.frame frame) ∧
        (captureUpTo limit id heap).get? other = some (.frame { frame with captured := true }) ∧
        heap.Reaches id other := by
  induction limit generalizing heap id with
  | zero => exact Or.inl rfl
  | succ limit ih =>
      unfold captureUpTo
      cases found : heap.frame? id with
      | none => exact Or.inl rfl
      | some frame =>
          have stored := frame?_eq_some_iff.mp found
          have marked : ∀ other, (heap.set id (.frame { frame with captured := true })).get? other =
              if other = id then some (.frame { frame with captured := true })
              else heap.get? other := by
            intro other
            simp [get?_set, contains, stored]
          cases already : frame.captured with
          | true => exact Or.inl (by simp [already])
          | false =>
              cases link : frame.parent? with
              | none =>
                  simp only [already, link, Bool.false_eq_true, if_false, marked]
                  by_cases same : other = id
                  · subst same
                    exact Or.inr ⟨frame, stored, by simp, .refl⟩
                  · exact Or.inl (by simp [same])
              | some parent =>
                  simp only [already, link, Bool.false_eq_true, if_false]
                  have onward : ∀ {other},
                      (heap.set id (.frame { frame with captured := true })).Reaches parent other →
                        heap.Reaches id other := by
                    intro other chain
                    have first : heap.Refers id parent :=
                      refers_parent (Option.bind_eq_some_iff.mpr ⟨frame, found, link⟩)
                    exact .head first
                      (chain.mono fun _ _ edge => (refers_set_captured found _ _).mp edge)
                  rcases ih (heap.set id (.frame { frame with captured := true })) parent with
                    same | ⟨further, was, now, chain⟩
                  · rw [same, marked]
                    by_cases self : other = id
                    · subst self
                      exact Or.inr ⟨frame, stored, by simp, .refl⟩
                    · exact Or.inl (by simp [self])
                  · rw [marked] at was
                    by_cases self : other = id
                    · subst self
                      simp only [if_true, Option.some.injEq, Cell.frame.injEq] at was
                      subst was
                      exact Or.inr ⟨frame, stored, now, .refl⟩
                    · rw [if_neg self] at was
                      exact Or.inr ⟨further, was, now, onward chain⟩

end Heap

/-- A machine at work: the frames of the calls in progress, the innermost first, those of the
calls that have returned, and the references the evaluation has in hand without holding them. -/
structure Activity where
  machine : Machine
  running : List CellId := []
  returned : List CellId := []
  hand : List CellId := []

namespace Activity

/-- The references from which the evaluation can go on. -/
def starts (activity : Activity) : List CellId :=
  activity.machine.roots ++ activity.hand

/-- The evaluation can get at a cell. -/
def Knows (activity : Activity) (id : CellId) : Prop :=
  activity.machine.heap.ReachedFrom activity.starts id

/-- A value can name a cell: the evaluation can get at it, and it is no frame. -/
def Offers (activity : Activity) (id : CellId) : Prop :=
  activity.Knows id ∧ activity.machine.heap.frame? id = none

/-- A cell that can be made: a top-level frame, a frame without names inside a known one, a
function in a known frame that is marked as captured, or anything else made of known values. -/
def Admits (activity : Activity) : Cell → Prop
  | .frame { scope := .global, captured } => captured = false
  | .frame { scope := .nested parent bindings, captured } =>
      captured = false ∧ bindings = [] ∧ activity.Knows parent ∧
        (activity.machine.heap.frame? parent).isSome = true
  | .function content =>
      activity.Knows content.defining ∧ activity.machine.heap.Captured content.defining
  | cell => ∀ id ∈ cell.references, activity.Offers id

/-- The state after a call: its frame is released and its handle given up. -/
def afterCall (activity : Activity) (frame : CellId) (rest : List CellId) (held : List Hold) :
    Activity where
  machine := { activity.machine.release frame with held }
  running := rest
  returned := frame :: activity.returned

/-- One step of an evaluation or of its host. -/
inductive Step : Activity → Activity → Prop
  /-- Whatever leaves the heap and the retained frames alone.  The frames of the calls in
  progress stay held. -/
  | move (activity : Activity) (machine : Machine) (hand : List CellId)
      (heap : machine.heap = activity.machine.heap)
      (retained : machine.retained = activity.machine.retained)
      (known : ∀ id ∈ machine.roots ++ hand, activity.Knows id)
      (held : ∀ frame ∈ activity.running, .cell frame ∈ machine.held) :
      Step activity { activity with machine, hand }
  /-- Make a cell. -/
  | make (activity : Activity) (cell : Cell) (admitted : activity.Admits cell) :
      Step activity
        { activity with
          machine := { activity.machine with heap := (activity.machine.heap.alloc cell).2 }
          hand := activity.machine.heap.size :: activity.hand }
  /-- Replace the content of a cell that is neither a frame nor a function. -/
  | write (activity : Activity) (id : CellId) (old new : Cell)
      (found : activity.machine.heap.get? id = some old) (known : activity.Knows id)
      (plain : old.isPlain = true ∧ new.isPlain = true)
      (offered : ∀ target ∈ new.references, target ∈ old.references ∨ activity.Offers target) :
      Step activity
        { activity with
          machine := { activity.machine with heap := activity.machine.heap.set id new } }
  /-- Replace the names of a frame. -/
  | rename (activity : Activity) (frame : CellId) (names : Names)
      (known : activity.Knows frame)
      (offered : ∀ target ∈ Names.references names,
        target ∈ Names.references (activity.machine.localsOf frame) ∨ activity.Offers target) :
      Step activity { activity with machine := activity.machine.setLocals frame names }
  /-- Mark a frame and those around it as captured. -/
  | capture (activity : Activity) (frame : CellId) (known : activity.Knows frame) :
      Step activity
        { activity with
          machine := { activity.machine with heap := activity.machine.heap.capture frame } }
  /-- Begin a call of a function, with a new frame inside the one the function was made in. -/
  | call (activity : Activity) (code : CellId) (function : FunctionCell)
      (found : activity.machine.heap.function? code = some function)
      (known : activity.Knows code) :
      Step activity
        { activity with
          machine :=
            { activity.machine with
              heap := (activity.machine.heap.alloc
                (.frame { scope := .nested function.defining [] })).2
              held := .cell activity.machine.heap.size :: activity.machine.held }
          running := activity.machine.heap.size :: activity.running }
  /-- Return from a call. -/
  | finish (activity : Activity) (frame : CellId) (rest : List CellId) (held : List Hold)
      (running : activity.running = frame :: rest)
      (handle : activity.machine.held.Perm (.cell frame :: held)) :
      Step activity (activity.afterCall frame rest held)
  /-- Look through the retained frames. -/
  | collect (activity : Activity) :
      Step activity { activity with machine := activity.machine.collect.2, hand := [] }
  /-- Free what nothing refers to. -/
  | settle (activity : Activity) :
      Step activity { activity with machine := activity.machine.settle, hand := [] }

/-- The states of the runs that stay in allowed states throughout, from a new machine on. -/
inductive Run (allowed : Activity → Prop) : Activity → Prop
  | start (standard : Bool) (natives : List (String × Native))
      (fine : allowed { machine := .build standard natives }) :
      Run allowed { machine := .build standard natives }
  | step {before after : Activity} (run : Run allowed before) (step : Step before after)
      (fine : allowed after) : Run allowed after

/-- The states of all runs. -/
def Reachable (activity : Activity) : Prop :=
  Run (fun _ => True) activity

theorem Run.reachable {allowed : Activity → Prop} {activity : Activity}
    (run : Run allowed activity) : activity.Reachable := by
  induction run with
  | start standard natives => exact .start standard natives trivial
  | step _ step _ ih => exact .step ih step trivial

/-- What may become of the content of a known cell: it belongs to the same frame, a captured
frame stays so, and new references are to values. -/
structure Revises (activity : Activity) (old new : Cell) : Prop where
  link : new.link? = old.link?
  isFrame : new.frame?.isSome = old.frame?.isSome
  captured : ∀ frame, old.frame? = some frame → frame.captured = true →
    ∃ revised, new.frame? = some revised ∧ revised.captured = true
  references : ∀ id ∈ new.references, id ∈ old.references ∨ activity.Offers id

/-- What a step that frees nothing may do: known cells are revised, new ones are made, and all
references held afterwards are to known or new cells. -/
structure Grows (before after : Activity) : Prop where
  size_le : before.machine.heap.size ≤ after.machine.heap.size
  cell : ∀ id, after.machine.heap.get? id = before.machine.heap.get? id ∨
    (∃ old new, before.machine.heap.get? id = some old ∧
      after.machine.heap.get? id = some new ∧ before.Knows id ∧ before.Revises old new) ∨
    before.machine.heap.size ≤ id ∧
      ∃ new, after.machine.heap.get? id = some new ∧ before.Admits new
  starts : ∀ id ∈ after.starts, before.Knows id ∨
    before.machine.heap.size ≤ id ∧ after.machine.heap.contains id = true
  held : (∀ frame ∈ before.running, .cell frame ∈ before.machine.held) →
    ∀ frame ∈ after.running, .cell frame ∈ after.machine.held
  retained : after.machine.retained = before.machine.retained
  returned : after.returned = before.returned
  running : after.running = before.running ∨
    after.running = before.machine.heap.size :: before.running ∧
      ∃ code function, before.machine.heap.function? code = some function ∧
        after.machine.heap.parent? before.machine.heap.size = some function.defining

section Growing

variable {activity : Activity}

theorem Revises.refl (activity : Activity) (cell : Cell) : activity.Revises cell cell where
  link := rfl
  isFrame := rfl
  captured frame found marked := ⟨frame, found, marked⟩
  references _ member := Or.inl member

/-- A new cell, whatever else happens to the references held. -/
theorem Grows.of_alloc {before after : Activity} {cell : Cell} (admitted : before.Admits cell)
    (heap : after.machine.heap = (before.machine.heap.alloc cell).2)
    (starts : ∀ id ∈ after.starts, before.Knows id ∨ id = before.machine.heap.size)
    (held : (∀ frame ∈ before.running, .cell frame ∈ before.machine.held) →
      ∀ frame ∈ after.running, .cell frame ∈ after.machine.held)
    (retained : after.machine.retained = before.machine.retained)
    (returned : after.returned = before.returned)
    (running : after.running = before.running ∨
      after.running = before.machine.heap.size :: before.running ∧
        ∃ code function, before.machine.heap.function? code = some function ∧
          after.machine.heap.parent? before.machine.heap.size = some function.defining) :
    Grows before after where
  size_le := by
    rw [heap, Heap.size_alloc]
    exact Nat.le_succ _
  cell id := by
    rw [heap, Heap.get?_alloc]
    by_cases new : id = before.machine.heap.size
    · exact Or.inr (Or.inr ⟨Nat.le_of_eq new.symm, cell, if_pos new, admitted⟩)
    · exact Or.inl (if_neg new)
  starts id member := by
    refine (starts id member).imp_right fun new => ⟨Nat.le_of_eq new.symm, ?_⟩
    rw [heap, Heap.contains, Heap.get?_alloc, if_pos new]
    rfl
  held := held
  retained := retained
  returned := returned
  running := running

/-- A known cell with a new content, while the references held stay as they are. -/
theorem Grows.of_revised {before after : Activity} (size : after.machine.heap.size =
      before.machine.heap.size)
    (cell : ∀ id, after.machine.heap.get? id = before.machine.heap.get? id ∨
      ∃ old new, before.machine.heap.get? id = some old ∧
        after.machine.heap.get? id = some new ∧ before.Knows id ∧ before.Revises old new)
    (starts : ∀ id ∈ after.starts, before.Knows id)
    (held : (∀ frame ∈ before.running, .cell frame ∈ before.machine.held) →
      ∀ frame ∈ before.running, .cell frame ∈ after.machine.held)
    (retained : after.machine.retained = before.machine.retained)
    (returned : after.returned = before.returned) (running : after.running = before.running) :
    Grows before after where
  size_le := Nat.le_of_eq size.symm
  cell id := (cell id).imp_right Or.inl
  starts id member := Or.inl (starts id member)
  held := by
    rw [running]
    exact held
  retained := retained
  returned := returned
  running := Or.inl running

theorem Admits.of_nested {parent : CellId} (known : activity.Knows parent)
    (isFrame : (activity.machine.heap.frame? parent).isSome = true) :
    activity.Admits (.frame { scope := .nested parent [] }) :=
  ⟨rfl, rfl, known, isFrame⟩

theorem Revises.of_plain {old new : Cell} (plain : old.isPlain = true ∧ new.isPlain = true)
    (offered : ∀ id ∈ new.references, id ∈ old.references ∨ activity.Offers id) :
    activity.Revises old new := by
  obtain ⟨oldPlain, newPlain⟩ := plain
  have noFrame : old.frame? = none ∧ new.frame? = none := by
    cases old <;> cases new <;> simp_all [Cell.isPlain, Cell.frame?]
  have noLink : old.link? = none ∧ new.link? = none := by
    cases old <;> cases new <;> simp_all [Cell.isPlain, Cell.link?]
  refine ⟨by rw [noLink.1, noLink.2], by rw [noFrame.1, noFrame.2], ?_, offered⟩
  simp [noFrame.1]

end Growing

/-- What holds of every state of a run: no reference leads to a cell that is gone, every frame
lies inside one that was made before it, and the frames of calls are told apart. -/
structure Sound (activity : Activity) : Prop where
  closed : ∀ id, (id ∈ activity.starts ∨ ∃ holder, activity.machine.heap.Refers holder id) →
    activity.machine.heap.contains id = true
  ordered : activity.machine.heap.Ordered
  linked : ∀ id cell target, activity.machine.heap.get? id = some cell →
    cell.link? = some target → (activity.machine.heap.frame? target).isSome = true
  held : ∀ frame ∈ activity.running, .cell frame ∈ activity.machine.held
  distinct : (activity.running ++ activity.returned).Nodup
  inside : ∀ id ∈ activity.running ++ activity.returned, id < activity.machine.heap.size
  nested : activity.machine.heap.NestedFrames (activity.running ++ activity.returned)
  retained : activity.machine.retained.frames ⊆ activity.returned

namespace Sound

variable {activity : Activity}

theorem bounded (sound : activity.Sound) : activity.machine.Bounded := by
  intro id member
  refine Heap.lt_size_of_contains (sound.closed id ?_)
  rcases List.mem_append.mp member with root | inHeap
  · exact Or.inl (List.mem_append_left _ root)
  · exact Or.inr ((activity.machine.heap.mem_references_iff id).mp inHeap)

theorem contains_of_knows (sound : activity.Sound) {id : CellId} (known : activity.Knows id) :
    activity.machine.heap.contains id = true := by
  rcases known.cases_last with start | ⟨holder, -, edge⟩
  · exact sound.closed id (Or.inl start)
  · exact sound.closed id (Or.inr ⟨holder, edge⟩)

theorem mem_roots_of_running (sound : activity.Sound) {frame : CellId}
    (member : frame ∈ activity.running) : frame ∈ activity.machine.roots := by
  refine List.mem_append_right _ (List.mem_flatMap.mpr ⟨_, sound.held frame member, ?_⟩)
  exact List.mem_singleton_self frame

theorem isFrame_of_mem_around (sound : activity.Sound) {id enclosing : CellId}
    (member : enclosing ∈ activity.machine.heap.around id) :
    (activity.machine.heap.frame? enclosing).isSome = true := by
  rw [Heap.mem_around_iff sound.ordered, TransGen.tail'_iff] at member
  obtain ⟨inner, -, link⟩ := member
  obtain ⟨frame, found, link⟩ := Option.bind_eq_some_iff.mp link
  exact sound.linked inner _ enclosing (Heap.frame?_eq_some_iff.mp found) link

theorem nested_of_running (sound : activity.Sound) {frame : CellId}
    (member : frame ∈ activity.running) : activity.machine.heap.Nested frame := by
  refine sound.nested frame (List.mem_append_left _ member) (sound.closed frame (Or.inl ?_))
  exact List.mem_append_left _ (sound.mem_roots_of_running member)

end Sound

/-- A new cell refers to what is known: to values, to a captured frame if it is a function, and
to the frame around it if it is a frame. -/
theorem Admits.reference_cases {activity : Activity} {cell : Cell}
    (admitted : activity.Admits cell) {id : CellId} (member : id ∈ cell.references) :
    activity.Knows id ∧
      (activity.machine.heap.frame? id = none ∨ activity.machine.heap.Captured id ∨
        ∃ frame, cell = .frame frame ∧ frame.parent? = some id) := by
  match cell, admitted with
  | .frame { scope := .global, .. }, _ => simp [Cell.references, Frame.references] at member
  | .frame { scope := .nested parent bindings, .. }, ⟨_, empty, known, _⟩ =>
      subst empty
      simp only [Cell.references, Frame.references, Names.references, List.mem_singleton] at member
      subst member
      exact ⟨known, Or.inr (Or.inr ⟨_, rfl, rfl⟩)⟩
  | .function content, ⟨known, captured⟩ =>
      simp only [Cell.references, List.mem_singleton] at member
      subst member
      exact ⟨known, Or.inr (Or.inl captured)⟩
  | .tuple _, offered => exact (offered id member).imp_right Or.inl
  | .list _, offered => exact (offered id member).imp_right Or.inl
  | .dict _, offered => exact (offered id member).imp_right Or.inl
  | .set _, offered => exact (offered id member).imp_right Or.inl
  | .classObject _, offered => exact (offered id member).imp_right Or.inl
  | .object _, offered => exact (offered id member).imp_right Or.inl
  | .method _ _, offered => exact (offered id member).imp_right Or.inl

namespace Grows

variable {before after : Activity}

theorem contains_eq (grows : Grows before after) {id : CellId}
    (inside : id < before.machine.heap.size) :
    after.machine.heap.contains id = before.machine.heap.contains id := by
  rcases grows.cell id with same | ⟨old, new, was, now, -⟩ | ⟨beyond, -⟩
  · simp only [Heap.contains, same]
  · simp only [Heap.contains, was, now, Option.isSome_some]
  · exact absurd inside (Nat.not_lt.mpr beyond)

theorem contains (grows : Grows before after) {id : CellId}
    (present : before.machine.heap.contains id = true) :
    after.machine.heap.contains id = true :=
  (grows.contains_eq (Heap.lt_size_of_contains present)).trans present

theorem refers (grows : Grows before after) {holder id : CellId}
    (edge : after.machine.heap.Refers holder id) :
    before.machine.heap.Refers holder id ∨ before.Knows id := by
  rcases grows.cell holder with same | ⟨old, new, was, now, -, revised⟩ | ⟨-, new, now, admitted⟩
  · exact Or.inl ((Heap.refers_iff_of_get?_eq same id).mp edge)
  · rw [Heap.Refers, Heap.referencesOf_of_get? now] at edge
    rw [Heap.Refers, Heap.referencesOf_of_get? was]
    exact (revised.references id edge).imp_right And.left
  · rw [Heap.Refers, Heap.referencesOf_of_get? now] at edge
    exact Or.inr (admitted.reference_cases edge).1

/-- Nothing that was out of reach comes back. -/
theorem knows (grows : Grows before after) {id : CellId} (known : after.Knows id) :
    before.Knows id ∨ before.machine.heap.size ≤ id := by
  refine known.induct (motive := fun id => before.Knows id ∨ before.machine.heap.size ≤ id)
    (fun id start => (grows.starts id start).imp_right And.left) ?_
  rintro holder id (knownHolder | new) edge
  · rcases grows.refers edge with old | knownId
    · exact Or.inl (knownHolder.tail old)
    · exact Or.inl knownId
  · rcases grows.refers edge with old | knownId
    · obtain ⟨cell, found⟩ := Heap.get?_isSome_of_refers old
      exact absurd (Heap.lt_size_of_get? found) (Nat.not_lt.mpr new)
    · exact Or.inl knownId

theorem get?_of_not_knows (grows : Grows before after) {id : CellId}
    (inside : id < before.machine.heap.size) (unknown : ¬before.Knows id) :
    after.machine.heap.get? id = before.machine.heap.get? id := by
  rcases grows.cell id with same | ⟨old, new, -, -, known, -⟩ | ⟨beyond, -⟩
  · exact same
  · exact absurd known unknown
  · exact absurd inside (Nat.not_lt.mpr beyond)

theorem frame?_isSome (grows : Grows before after) {id : CellId}
    (inside : id < before.machine.heap.size) :
    (after.machine.heap.frame? id).isSome = (before.machine.heap.frame? id).isSome := by
  rw [Heap.frame?_eq_bind, Heap.frame?_eq_bind]
  rcases grows.cell id with same | ⟨old, new, was, now, -, revised⟩ | ⟨beyond, -⟩
  · rw [same]
  · simpa [was, now] using revised.isFrame
  · exact absurd inside (Nat.not_lt.mpr beyond)

theorem parent?_eq (grows : Grows before after) {id : CellId}
    (inside : id < before.machine.heap.size) :
    after.machine.heap.parent? id = before.machine.heap.parent? id := by
  rw [Heap.parent?_eq_bind, Heap.parent?_eq_bind]
  rcases grows.cell id with same | ⟨old, new, was, now, -, revised⟩ | ⟨beyond, -⟩
  · rw [same]
  · have isFrame := revised.isFrame
    have link := revised.link
    cases old <;> cases new <;> simp_all [Cell.frame?, Cell.link?]
  · exact absurd inside (Nat.not_lt.mpr beyond)

theorem link_of_new (grows : Grows before after) {id : CellId} {cell : Cell} {target : CellId}
    (found : after.machine.heap.get? id = some cell) (link : cell.link? = some target) :
    (∃ old, before.machine.heap.get? id = some old ∧ old.link? = some target) ∨
      before.Knows target ∧ (before.machine.heap.frame? target).isSome = true := by
  rcases grows.cell id with same | ⟨old, new, was, now, -, revised⟩ | ⟨-, new, now, admitted⟩
  · exact Or.inl ⟨cell, same ▸ found, link⟩
  · rw [found] at now
    cases now
    exact Or.inl ⟨old, was, revised.link ▸ link⟩
  · rw [found] at now
    cases now
    right
    match cell, admitted with
    | .frame { scope := .global, .. }, _ => simp [Cell.link?, Frame.parent?] at link
    | .frame { scope := .nested parent bindings, .. }, ⟨_, _, known, isFrame⟩ =>
        simp only [Cell.link?, Frame.parent?, Option.some.injEq] at link
        exact link ▸ ⟨known, isFrame⟩
    | .function content, ⟨known, frame, found, _⟩ =>
        simp only [Cell.link?, Option.some.injEq] at link
        exact link ▸ ⟨known, by simp [found]⟩

theorem linked (grows : Grows before after) (sound : before.Sound) {id : CellId} {cell : Cell}
    {target : CellId} (found : after.machine.heap.get? id = some cell)
    (link : cell.link? = some target) : (before.machine.heap.frame? target).isSome = true := by
  rcases grows.link_of_new found link with ⟨old, was, oldLink⟩ | ⟨-, isFrame⟩
  · exact sound.linked id old target was oldLink
  · exact isFrame

theorem lt_size_of_frame? {heap : Heap} {id : CellId} (isFrame : (heap.frame? id).isSome = true) :
    id < heap.size := by
  obtain ⟨frame, found⟩ := Option.isSome_iff_exists.mp isFrame
  exact Heap.lt_size_of_get? (Heap.frame?_eq_some_iff.mp found)

theorem ordered (grows : Grows before after) (sound : before.Sound) :
    after.machine.heap.Ordered := by
  intro id parent link
  by_cases inside : id < before.machine.heap.size
  · exact sound.ordered id parent (grows.parent?_eq inside ▸ link)
  · obtain ⟨frame, found, parentLink⟩ := Option.bind_eq_some_iff.mp link
    have isFrame := grows.linked sound (Heap.frame?_eq_some_iff.mp found) parentLink
    exact Nat.lt_of_lt_of_le (lt_size_of_frame? isFrame) (Nat.le_of_not_lt inside)

theorem distinct (grows : Grows before after) (sound : before.Sound) :
    (after.running ++ after.returned).Nodup ∧
      (∀ id ∈ after.running ++ after.returned, id < after.machine.heap.size) ∧
      after.machine.heap.NestedFrames (after.running ++ after.returned) := by
  have inside : ∀ id ∈ before.running ++ before.returned, id < after.machine.heap.size :=
    fun id member => Nat.lt_of_lt_of_le (sound.inside id member) grows.size_le
  have nested : after.machine.heap.NestedFrames (before.running ++ before.returned) := by
    intro id member present
    have insideBefore := sound.inside id member
    obtain ⟨parent, link⟩ := sound.nested id member (grows.contains_eq insideBefore ▸ present)
    exact ⟨parent, (grows.parent?_eq insideBefore).trans link⟩
  rw [grows.returned]
  rcases grows.running with same | ⟨pushed, code, function, -, link⟩
  · rw [same]
    exact ⟨sound.distinct, inside, nested⟩
  · rw [pushed, List.cons_append]
    refine ⟨List.nodup_cons.mpr ⟨fun member => ?_, sound.distinct⟩, ?_, ?_⟩
    · exact Nat.lt_irrefl _ (sound.inside _ member)
    · intro id member
      rcases List.mem_cons.mp member with rfl | old
      · obtain ⟨frame, found, -⟩ := Option.bind_eq_some_iff.mp link
        exact Heap.lt_size_of_get? (Heap.frame?_eq_some_iff.mp found)
      · exact inside id old
    · intro id member present
      rcases List.mem_cons.mp member with rfl | old
      · exact ⟨function.defining, link⟩
      · exact nested id old present

theorem sound (grows : Grows before after) (sound : before.Sound) : after.Sound where
  closed id held := by
    have known : before.Knows id ∨ after.machine.heap.contains id = true := by
      rcases held with start | ⟨holder, edge⟩
      · exact (grows.starts id start).imp_right And.right
      · rcases grows.refers edge with old | known
        · exact Or.inr (grows.contains (sound.closed id (Or.inr ⟨holder, old⟩)))
        · exact Or.inl known
    rcases known with known | present
    · exact grows.contains (sound.contains_of_knows known)
    · exact present
  ordered := grows.ordered sound
  linked id cell target found link := by
    have isFrame := grows.linked sound found link
    rw [grows.frame?_isSome (lt_size_of_frame? isFrame)]
    exact isFrame
  held := grows.held sound.held
  distinct := (grows.distinct sound).1
  inside := (grows.distinct sound).2.1
  nested := (grows.distinct sound).2.2
  retained := by
    rw [grows.retained, grows.returned]
    exact sound.retained

end Grows

section Steps

variable {activity : Activity}

theorem grows_move {machine : Machine} {hand : List CellId}
    (heap : machine.heap = activity.machine.heap)
    (retained : machine.retained = activity.machine.retained)
    (known : ∀ id ∈ machine.roots ++ hand, activity.Knows id)
    (held : (∀ frame ∈ activity.running, .cell frame ∈ activity.machine.held) →
      ∀ frame ∈ activity.running, .cell frame ∈ machine.held) :
    Grows activity { activity with machine, hand } :=
  .of_revised (by rw [heap]) (fun id => Or.inl (by rw [heap])) known held retained rfl rfl

theorem grows_make {cell : Cell} (admitted : activity.Admits cell) :
    Grows activity
      { activity with
        machine := { activity.machine with heap := (activity.machine.heap.alloc cell).2 }
        hand := activity.machine.heap.size :: activity.hand } := by
  refine .of_alloc admitted rfl (fun id member => ?_) (fun held => held) rfl rfl (Or.inl rfl)
  rcases List.mem_append.mp member with root | inHand
  · exact Or.inl (.of_mem (List.mem_append_left _ root))
  · rcases List.mem_cons.mp inHand with new | old
    · exact Or.inr new
    · exact Or.inl (.of_mem (List.mem_append_right _ old))

theorem grows_set {machine : Machine} {id : CellId} {old new : Cell}
    (found : activity.machine.heap.get? id = some old) (known : activity.Knows id)
    (revised : activity.Revises old new)
    (stored : machine = { activity.machine with heap := activity.machine.heap.set id new }) :
    Grows activity { activity with machine } := by
  subst stored
  refine .of_revised (by simp) (fun other => ?_) (fun id member => .of_mem member)
    (fun held => held) rfl rfl rfl
  rw [Heap.get?_set]
  by_cases same : other = id
  · subst same
    exact Or.inr ⟨old, new, found, by simp [Heap.contains, found], known, revised⟩
  · exact Or.inl (if_neg fun both => same both.1)

theorem grows_rename {frame : CellId} {names : Names} (known : activity.Knows frame)
    (offered : ∀ target ∈ Names.references names,
      target ∈ Names.references (activity.machine.localsOf frame) ∨ activity.Offers target) :
    Grows activity { activity with machine := activity.machine.setLocals frame names } := by
  cases found : activity.machine.heap.frame? frame with
  | none =>
      have same : activity.machine.setLocals frame names = activity.machine := by
        simp [Machine.setLocals, found]
      rw [same]
      exact grows_move rfl rfl (fun id member => .of_mem member) fun held => held
  | some content =>
      obtain ⟨scope, captured⟩ := content
      cases scope with
      | global =>
          have moved : activity.machine.setLocals frame names =
              { activity.machine with globals := names } := by
            simp [Machine.setLocals, found]
          rw [moved]
          refine grows_move rfl rfl (fun id member => ?_) fun held => held
          have locals : activity.machine.localsOf frame = activity.machine.globals := by
            simp [Machine.localsOf, found]
          simp only [Machine.roots, List.append_assoc, List.mem_append] at member
          rcases member with bound | others
          · rcases offered id bound with old | new
            · refine .of_mem ?_
              simp only [starts, Machine.roots, List.append_assoc, List.mem_append]
              exact Or.inl (locals ▸ old)
            · exact new.1
          · refine .of_mem ?_
            simp only [starts, Machine.roots, List.append_assoc, List.mem_append]
            exact Or.inr others
      | nested parent bindings =>
          have revised : activity.Revises (.frame { scope := .nested parent bindings, captured })
              (.frame { scope := .nested parent names, captured }) := by
            refine ⟨rfl, rfl, ?_, ?_⟩
            · intro frame same marked
              cases same
              exact ⟨_, rfl, marked⟩
            · intro id member
              have locals : activity.machine.localsOf frame = bindings := by
                simp [Machine.localsOf, found]
              rcases List.mem_cons.mp member with rfl | bound
              · exact Or.inl List.mem_cons_self
              · exact (offered id bound).imp_left fun old =>
                  List.mem_cons_of_mem parent (locals ▸ old)
          exact grows_set (Heap.frame?_eq_some_iff.mp found) known revised
            (by simp [Machine.setLocals, found])

theorem grows_capture {frame : CellId} (known : activity.Knows frame) :
    Grows activity
      { activity with
        machine := { activity.machine with heap := activity.machine.heap.capture frame } } := by
  refine .of_revised (Heap.size_capture _ _) (fun id => ?_) (fun id member => .of_mem member)
    (fun held => held) rfl rfl rfl
  rcases activity.machine.heap.get?_captureUpTo (activity.machine.heap.size + 1) frame id with
    same | ⟨content, was, now, chain⟩
  · exact Or.inl same
  · refine Or.inr ⟨_, _, was, now, known.trans chain, rfl, rfl, ?_, fun id member => Or.inl member⟩
    intro marked _ _
    exact ⟨_, rfl, rfl⟩

theorem grows_call (sound : activity.Sound) {code : CellId} {function : FunctionCell}
    (found : activity.machine.heap.function? code = some function) (known : activity.Knows code) :
    Grows activity
      { activity with
        machine :=
          { activity.machine with
            heap := (activity.machine.heap.alloc
              (.frame { scope := .nested function.defining [] })).2
            held := .cell activity.machine.heap.size :: activity.machine.held }
        running := activity.machine.heap.size :: activity.running } := by
  have stored := Heap.function?_eq_some_iff.mp found
  have isFrame := sound.linked code _ function.defining stored rfl
  refine .of_alloc (Admits.of_nested (known.tail (Heap.refers_of_link stored rfl)) isFrame) rfl
    (fun id member => ?_) (fun held frame member => ?_) rfl rfl
    (Or.inr ⟨rfl, code, function, found, ?_⟩)
  · simp only [starts, Machine.roots, List.flatMap_cons, Hold.references, List.mem_append,
      List.mem_singleton] at member
    by_cases new : id = activity.machine.heap.size
    · exact Or.inr new
    · refine Or.inl (.of_mem ?_)
      simp only [starts, Machine.roots, List.mem_append]
      tauto
  · rcases List.mem_cons.mp member with rfl | old
    · exact List.mem_cons_self
    · exact List.mem_cons_of_mem _ (held frame old)
  · simp [Heap.parent?_eq_bind, Heap.get?_alloc, Cell.frame?, Frame.parent?]

end Steps

end Activity

end ScriptCore
