import ScriptCore.Proofs.Cycles
import ScriptCore.Proofs.Values

/-!
# What a captured frame tells

A frame that is marked as captured lies in marked frames only, and every function was made in a
marked frame.  So marking may stop at the first frame that is marked already, and a frame without
the mark is given up without a trace: no function holds it, nor any frame inside it that a
function was made in.  A mark is never taken back while its frame exists.
-/

namespace ScriptCore

open Relation

namespace Heap

section Marking

variable {heap : Heap} {id other : CellId} {frame : Frame} {limit : Nat}

/-- The frame around a captured frame is captured. -/
def CapturedAround (heap : Heap) : Prop :=
  ∀ inner parent, heap.Captured inner → heap.parent? inner = some parent → heap.Captured parent

theorem CapturedAround.of_mem_around (upward : heap.CapturedAround) (ordered : heap.Ordered)
    (captured : heap.Captured id) (member : other ∈ heap.around id) : heap.Captured other := by
  rw [mem_around_iff ordered] at member
  induction member with
  | single link => exact upward id _ captured link
  | tail _ link ih => exact upward _ _ ih link

theorem frame?_set_captured (found : heap.frame? id = some frame) (other : CellId) :
    (heap.set id (.frame { frame with captured := true })).frame? other =
      if other = id then some { frame with captured := true } else heap.frame? other := by
  have present : heap.contains id = true := contains_of_frame? found
  by_cases same : other = id
  · simp [frame?, get?_set, same, present]
  · simp [frame?, get?_set, same]

theorem parent?_set_captured (found : heap.frame? id = some frame) (other : CellId) :
    (heap.set id (.frame { frame with captured := true })).parent? other = heap.parent? other := by
  rw [parent?, parent?, frame?_set_captured found]
  by_cases same : other = id
  · simp [same, found, Frame.parent?]
  · simp [same]

theorem captured_set_captured (found : heap.frame? id = some frame) (other : CellId) :
    (heap.set id (.frame { frame with captured := true })).Captured other ↔
      other = id ∨ heap.Captured other := by
  rw [Captured, frame?_set_captured found]
  by_cases same : other = id
  · simp [same]
  · simp [same, Captured]

/-- Marking takes no mark back, and moves no frame. -/
theorem Captured.capture (captured : heap.Captured other) (id : CellId) :
    (heap.capture id).Captured other := by
  obtain ⟨frame, found, marked⟩ := captured
  rcases heap.get?_capture id other with same | ⟨content, -, now⟩
  · exact ⟨frame, by rw [frame?, same]; exact found, marked⟩
  · exact ⟨_, frame?_eq_some_iff.mpr now, rfl⟩

@[simp]
theorem parent?_capture (heap : Heap) (id other : CellId) :
    (heap.capture id).parent? other = heap.parent? other := by
  rcases heap.get?_capture id other with same | ⟨content, was, now⟩
  · simp only [parent?, frame?, same]
  · simp [parent?, frame?, was, now, Frame.parent?]

theorem around_capture (heap : Heap) (id other : CellId) :
    (heap.capture id).around other = heap.around other := by
  have links : (heap.capture id).parent? = heap.parent? :=
    funext fun inner => parent?_capture heap id inner
  rw [around, around, frameChain, frameChain, links, size_capture]

theorem captured_alloc (cell : Cell) (captured : heap.Captured id) :
    (heap.alloc cell).2.Captured id := by
  obtain ⟨frame, found, marked⟩ := captured
  rw [frame?_eq_some_iff] at found
  have old : id ≠ heap.size := Nat.ne_of_lt (lt_size_of_get? found)
  exact ⟨frame, frame?_eq_some_iff.mpr (by rw [get?_alloc, if_neg old, found]), marked⟩

/-- Marking may stop at the first frame that is marked already: if only the frame to begin with may
lack a mark that a frame inside it has, no frame lacks such a mark afterwards. -/
theorem capturedAround_captureUpTo (ordered : heap.Ordered)
    (linked : ∀ inner parent, heap.parent? inner = some parent →
      (heap.frame? parent).isSome = true)
    (isFrame : (heap.frame? id).isSome = true) (deep : id < limit)
    (upward : ∀ inner parent, heap.Captured inner → heap.parent? inner = some parent →
      parent = id ∨ heap.Captured parent) :
    (captureUpTo limit id heap).CapturedAround := by
  induction limit generalizing heap id with
  | zero => exact absurd deep (Nat.not_lt_zero id)
  | succ limit ih =>
      obtain ⟨frame, found⟩ := Option.isSome_iff_exists.mp isFrame
      rw [captureUpTo, found]
      cases already : frame.captured with
      | true =>
          intro inner parent captured link
          simp only [already, if_true] at captured link ⊢
          rcases upward inner parent captured link with rfl | marked
          · exact ⟨frame, found, already⟩
          · exact marked
      | false =>
          have links := parent?_set_captured found
          have marks := captured_set_captured found
          -- The frame is marked now, and only the frame around it may lack a mark.
          have onward : ∀ inner parent,
              (heap.set id (.frame { frame with captured := true })).Captured inner →
              (heap.set id (.frame { frame with captured := true })).parent? inner = some parent →
              frame.parent? = some parent ∨
                (heap.set id (.frame { frame with captured := true })).Captured parent := by
            intro inner parent captured link
            rw [links] at link
            rcases (marks inner).mp captured with rfl | before
            · rw [parent?, found] at link
              exact Or.inl link
            · exact Or.inr ((marks parent).mpr (upward inner parent before link))
          cases around : frame.parent? with
          | none =>
              intro inner parent captured link
              simp only [already, around, Bool.false_eq_true, if_false] at captured link ⊢
              exact (onward inner parent captured link).resolve_left (by simp [around])
          | some parent =>
              have link : heap.parent? id = some parent := by
                rw [parent?, found]
                exact around
              have older := ordered id parent link
              simp only [already, Bool.false_eq_true, if_false, around]
              refine ih (fun inner outer link => ordered inner outer (links inner ▸ link))
                (fun inner outer link => ?_) ?_
                (Nat.lt_of_lt_of_le older (Nat.le_of_lt_succ deep))
                fun inner outer captured link => ?_
              · rw [frame?_set_captured found]
                split
                · rfl
                · exact linked inner outer (links inner ▸ link)
              · rw [frame?_set_captured found]
                split
                · rfl
                · exact linked id parent link
              · exact (onward inner outer captured link).imp_left fun same =>
                  (Option.some.inj (around.symm.trans same)).symm

end Marking

/-- What the mark of captured frames stands for. -/
structure Faithful (heap : Heap) : Prop where
  around : heap.CapturedAround
  defining : ∀ code function, heap.function? code = some function →
    heap.Captured function.defining

namespace Faithful

variable {before after : Heap}

/-- Where marks, frames around frames and functions are the same, the mark stands for the same. -/
theorem of_agrees (faithful : before.Faithful)
    (captured : ∀ id, after.Captured id ↔ before.Captured id)
    (parent? : ∀ id, after.parent? id = before.parent? id)
    (function? : ∀ code, after.function? code = before.function? code) : after.Faithful where
  around inner parent marked link :=
    (captured parent).mpr
      (faithful.around inner parent ((captured inner).mp marked) (parent? inner ▸ link))
  defining code function found :=
    (captured function.defining).mpr (faithful.defining code function (function? code ▸ found))

theorem marked {heap : Heap} (faithful : heap.Faithful) (ordered : heap.Ordered) :
    heap.Marked := by
  intro code function found frame member
  have captured := faithful.defining code function found
  rcases List.mem_cons.mp member with rfl | outer
  · exact captured
  · exact faithful.around.of_mem_around ordered captured outer

end Faithful

end Heap

namespace Activity

section Steps

variable {activity before after : Activity}

theorem Sound.isFrame_of_parent? (sound : activity.Sound) {id parent : CellId}
    (link : activity.machine.heap.parent? id = some parent) :
    (activity.machine.heap.frame? parent).isSome = true := by
  obtain ⟨frame, found, link⟩ := Option.bind_eq_some_iff.mp link
  exact sound.linked id _ parent (Heap.frame?_eq_some_iff.mp found) link

/-- From any frame on, marking marks the frames around it too. -/
theorem Sound.capturedAround_capture (sound : activity.Sound)
    (upward : activity.machine.heap.CapturedAround) {frame : CellId}
    (isFrame : (activity.machine.heap.frame? frame).isSome = true) :
    (activity.machine.heap.capture frame).CapturedAround :=
  Heap.capturedAround_captureUpTo sound.ordered (fun _ _ => sound.isFrame_of_parent?) isFrame
    (Nat.lt_succ_of_lt (Grows.lt_size_of_frame? isFrame))
    fun inner parent captured link => Or.inr (upward inner parent captured link)

/-- A new frame has no mark. -/
theorem Admits.not_captured {frame : Frame} (admitted : activity.Admits (.frame frame)) :
    frame.captured = false := by
  obtain ⟨scope, captured⟩ := frame
  cases scope with
  | global => exact admitted
  | nested parent bindings => exact admitted.1

theorem captured_alloc_iff {cell : Cell} (admitted : activity.Admits cell) (id : CellId) :
    (activity.machine.heap.alloc cell).2.Captured id ↔ activity.machine.heap.Captured id := by
  simp only [Heap.Captured, Heap.frame?_eq_bind, Heap.get?_alloc]
  by_cases new : id = activity.machine.heap.size
  · subst new
    simp only [if_true, Heap.get?_size, Option.bind_none, Option.bind_some]
    constructor
    · rintro ⟨frame, isFrame, captured⟩
      cases cell with
      | frame content =>
          cases isFrame
          simp [admitted.not_captured] at captured
      | _ => simp [Cell.frame?] at isFrame
    · simp
  · simp [new]

theorem faithful_alloc (faithful : activity.machine.heap.Faithful) {cell : Cell}
    (admitted : activity.Admits cell) : (activity.machine.heap.alloc cell).2.Faithful where
  around inner parent captured link := by
    rw [captured_alloc_iff admitted] at captured ⊢
    obtain ⟨frame, found, -⟩ := id captured
    have old : inner ≠ activity.machine.heap.size :=
      Nat.ne_of_lt (Heap.lt_size_of_get? (Heap.frame?_eq_some_iff.mp found))
    refine faithful.around inner parent captured ?_
    simpa [Heap.parent?_eq_bind, Heap.get?_alloc, old] using link
  defining code function found := by
    rw [captured_alloc_iff admitted]
    rw [Heap.function?_eq_some_iff, Heap.get?_alloc] at found
    split at found
    · cases found
      exact admitted.2
    · exact faithful.defining code function (Heap.function?_eq_some_iff.mpr found)

theorem faithful_set_plain (faithful : activity.machine.heap.Faithful) {id : CellId}
    {old new : Cell} (found : activity.machine.heap.get? id = some old)
    (plain : old.isPlain = true ∧ new.isPlain = true) :
    (activity.machine.heap.set id new).Faithful := by
  have frames : ∀ other, (activity.machine.heap.set id new).frame? other =
      activity.machine.heap.frame? other := by
    intro other
    simp only [Heap.frame?_eq_bind, Heap.get?_set]
    by_cases same : other = id
    · subst same
      cases old <;> cases new <;>
        simp_all [Heap.contains, Cell.isPlain, Cell.frame?]
    · simp [same]
  refine faithful.of_agrees (fun other => ?_) (fun other => ?_) fun other => ?_
  · rw [Heap.Captured, frames, Heap.Captured]
  · rw [Heap.parent?, frames, Heap.parent?]
  · simp only [Heap.function?, Heap.get?_set]
    by_cases same : other = id
    · subst same
      cases old <;> cases new <;>
        simp_all [Heap.contains, Cell.isPlain]
    · simp [same]

theorem faithful_setLocals (faithful : activity.machine.heap.Faithful) (frame : CellId)
    (names : Names) : (activity.machine.setLocals frame names).heap.Faithful := by
  cases found : activity.machine.heap.frame? frame with
  | none => simpa [Machine.setLocals, found] using faithful
  | some content =>
      obtain ⟨scope, captured⟩ := content
      cases scope with
      | global => simpa [Machine.setLocals, found] using faithful
      | nested parent bindings =>
          have stored := Heap.frame?_eq_some_iff.mp found
          simp only [Machine.setLocals, found]
          refine faithful.of_agrees (fun other => ?_) (fun other => ?_) fun other => ?_ <;>
            by_cases same : other = frame <;>
            simp [Heap.Captured, Heap.parent?, Heap.frame?, Heap.function?, Heap.get?_set,
              Heap.contains, stored, same, Frame.parent?]

theorem faithful_capture (sound : activity.Sound) (faithful : activity.machine.heap.Faithful)
    (frame : CellId) : (activity.machine.heap.capture frame).Faithful where
  around := by
    cases found : activity.machine.heap.frame? frame with
    | none =>
        have same : activity.machine.heap.capture frame = activity.machine.heap := by
          simp [Heap.capture, Heap.captureUpTo, found]
        rw [same]
        exact faithful.around
    | some content => exact sound.capturedAround_capture faithful.around (by simp [found])
  defining code function found := by
    refine (faithful.defining code function ?_).capture frame
    rw [Heap.function?_eq_some_iff] at found ⊢
    rcases activity.machine.heap.get?_capture frame code with same | ⟨content, -, now⟩
    · exact same.symm.trans found
    · exact absurd (now.symm.trans found) (by simp)

theorem Tidies.faithful (tidies : Tidies before after) (sound : before.Sound)
    (faithful : before.machine.heap.Faithful) : after.machine.heap.Faithful where
  around inner parent captured link := by
    obtain ⟨frame, found, -⟩ := id captured
    have present := Heap.contains_of_frame? found
    have stays := tidies.contains sound (Or.inr ⟨inner, Heap.refers_parent link⟩)
    rw [Heap.Tidied.captured_iff tidies.spares stays]
    exact faithful.around inner parent
      ((Heap.Tidied.captured_iff tidies.spares present).mp captured)
      (Heap.Tidied.parent? tidies.spares link)
  defining code function found := by
    rw [Heap.function?_eq_some_iff] at found
    have stays := tidies.contains sound (Or.inr ⟨code, Heap.refers_of_link found rfl⟩)
    rw [Heap.Tidied.captured_iff tidies.spares stays]
    refine faithful.defining code function (Heap.function?_eq_some_iff.mpr ?_)
    rcases tidies.spares.cell code with same | gone | ⟨-, frame, -, now⟩
    · exact same ▸ found
    · simp [gone] at found
    · simp [now] at found

/-- Every step keeps the marks faithful. -/
theorem Step.faithful (step : Step before after) (sound : before.Sound)
    (faithful : before.machine.heap.Faithful) : after.machine.heap.Faithful := by
  cases step with
  | move machine hand heap => exact heap ▸ faithful
  | make cell admitted => exact faithful_alloc faithful admitted
  | write id old new found known plain => exact faithful_set_plain faithful found plain
  | rename frame names => exact faithful_setLocals faithful frame names
  | capture frame => exact faithful_capture sound faithful frame
  | call code function found known =>
      have stored := Heap.function?_eq_some_iff.mp found
      have isFrame := sound.linked code _ function.defining stored rfl
      exact faithful_alloc faithful
        (.of_nested (known.tail (Heap.refers_of_link stored rfl)) isFrame)
  | finish frame rest held running handle =>
      exact (tidies_afterCall sound running handle).faithful sound faithful
  | collect => exact (tidies_collect sound).faithful sound faithful
  | settle => exact (tidies_settle sound).faithful sound faithful

theorem Run.faithful {allowed : Activity → Prop} (run : Run allowed activity) :
    activity.machine.heap.Faithful := by
  induction run with
  | start standard natives =>
      obtain ⟨builtins, interner, supply, built⟩ := exists_build_eq standard natives
      rw [built]
      constructor
      · rintro inner parent ⟨frame, found, -⟩
        simp [Heap.frame?, Heap.get?] at found
      · intro code function found
        simp [Heap.function?, Heap.get?] at found
  | step run step _ ih => exact step.faithful run.sound ih

/-- A mark is never taken back while its frame exists, and what is gone does not come back. -/
theorem Step.captured_of_contains (step : Step before after) (sound : before.Sound) {id : CellId}
    (made : id < before.machine.heap.size)
    (marked : before.machine.heap.contains id = true → before.machine.heap.Captured id) :
    id < after.machine.heap.size ∧
      (after.machine.heap.contains id = true → after.machine.heap.Captured id) := by
  rcases step.grows_or_tidies sound with grows | tidies
  · refine ⟨Nat.lt_of_lt_of_le made grows.size_le, fun present => ?_⟩
    rw [grows.contains_eq made] at present
    exact grows.captured (marked present)
  · refine ⟨tidies.spares.size_eq ▸ made, fun present => ?_⟩
    rw [Heap.Tidied.captured_iff tidies.spares present]
    exact marked (Heap.Tidied.contains tidies.spares present)

theorem captured_of_steps (reachable : before.Reachable) (steps : ReflTransGen Step before after)
    {id : CellId} (captured : before.machine.heap.Captured id) :
    after.Reachable ∧ id < after.machine.heap.size ∧
      (after.machine.heap.contains id = true → after.machine.heap.Captured id) := by
  induction steps with
  | refl =>
      obtain ⟨frame, found, marked⟩ := captured
      exact ⟨reachable, Heap.lt_size_of_get? (Heap.frame?_eq_some_iff.mp found),
        fun _ => ⟨frame, found, marked⟩⟩
  | tail _ step ih =>
      obtain ⟨reachableBefore, made, marked⟩ := ih
      exact ⟨.step reachableBefore step trivial,
        step.captured_of_contains reachableBefore.sound made marked⟩

/-- Marking changes no reference. -/
theorem refers_capture (heap : Heap) (frame holder target : CellId) :
    (heap.capture frame).Refers holder target ↔ heap.Refers holder target := by
  rcases heap.get?_capture frame holder with same | ⟨content, was, now⟩
  · exact Heap.refers_iff_of_get?_eq same target
  · simp [Heap.Refers, Heap.referencesOf, was, now, Cell.referencesOf?,
      Cell.references, Frame.references]

/-- However soon it stops, marking marks the whole chain. -/
theorem captured_chain_of_capture (sound : activity.Sound)
    (faithful : activity.machine.heap.Faithful) {defining frame : CellId}
    (isFrame : (activity.machine.heap.frame? defining).isSome = true)
    (member : frame ∈ defining :: activity.machine.heap.around defining) :
    (activity.machine.heap.capture defining).Captured frame := by
  have own := Heap.captured_capture isFrame
  rcases List.mem_cons.mp member with rfl | outer
  · exact own
  · have ordered : (activity.machine.heap.capture defining).Ordered := fun inner parent link =>
      sound.ordered inner parent (Heap.parent?_capture _ defining inner ▸ link)
    refine (sound.capturedAround_capture faithful.around isFrame).of_mem_around ordered own ?_
    rw [Heap.around_capture]
    exact outer

end Steps

section Functions

variable (machine : Machine) (defining : CellId) (name : Str) (params : List Str)
  (defaults : List Expr) (body : Block)

/-- To make a function in a frame is to mark the frame and those around it, unless there are more
defaults than parameters. -/
theorem newFunction_cases :
    params.length < defaults.length ∧
      Act.newFunction defining name params defaults body machine =
        .error (.error (.tooManyDefaults name.text defaults.length params.length)) machine ∨
    Act.newFunction defining name params defaults body machine =
      .ok (.function machine.heap.size)
        { machine with
          heap := ((machine.heap.capture defining).alloc
            (.function { name, params, defaults, body, defining })).2 } := by
  unfold Act.newFunction
  split
  · exact Or.inl ⟨‹_›, rfl⟩
  · refine Or.inr ?_
    rw [← Heap.size_capture machine.heap defining]
    rfl

end Functions

section Outcome

variable {activity : Activity}

theorem knows_capture {frame id : CellId} (known : activity.Knows id) :
    Knows
      { activity with
        machine := { activity.machine with heap := activity.machine.heap.capture frame } } id := by
  obtain ⟨start, listed, chain⟩ := known
  exact ⟨start, listed, chain.mono fun holder target edge =>
    (refers_capture activity.machine.heap frame holder target).mpr edge⟩

/-- A function made in a known frame is made in the course of a run. -/
theorem Reachable.newFunction (reachable : activity.Reachable) {defining : CellId}
    (known : activity.Knows defining)
    (isFrame : (activity.machine.heap.frame? defining).isSome = true) {name : Str}
    {params : List Str} {defaults : List Expr} {body : Block} {value : Value} {after : Machine}
    (made : Act.newFunction defining name params defaults body activity.machine =
      .ok value after) :
    Reachable { activity with machine := after, hand := value.references ++ activity.hand } := by
  rcases newFunction_cases activity.machine defining name params defaults body with
    ⟨-, failed⟩ | succeeded
  · cases failed.symm.trans made
  · cases succeeded.symm.trans made
    have marked := reachable.step (.capture activity defining known) trivial
    have admitted : Admits
        { activity with
          machine := { activity.machine with heap := activity.machine.heap.capture defining } }
        (.function { name, params, defaults, body, defining }) :=
      ⟨knows_capture known, Heap.captured_capture isFrame⟩
    have whole := marked.step (.make _ _ admitted) trivial
    simp only [Heap.size_capture] at whole
    exact whole

/-- The mark of captured frames justifies that a frame without it is let go untraced.  Throughout
every run: the frames around a marked frame are marked; the frame that a function was made in is
marked, with all around it; and whoever makes a function marks all of these, though marking stops at
the first frame that is marked already.  If that fails, nothing is changed.  A frame without the
mark never was on the chain of any function, and releasing it does nothing. -/
theorem captured_marks_are_faithful (activity : Activity) (reachable : activity.Reachable) :
    (∀ frame, activity.machine.heap.Captured frame →
      ∀ enclosing ∈ activity.machine.heap.around frame,
        activity.machine.heap.Captured enclosing) ∧
    activity.machine.heap.Marked ∧
    (∀ frame, (activity.machine.heap.frame? frame).isSome = true →
      ¬activity.machine.heap.Captured frame →
      activity.machine.release frame = activity.machine ∧
      ∀ earlier : Activity, earlier.Reachable → ReflTransGen Step earlier activity →
        ∀ code function, earlier.machine.heap.function? code = some function →
          frame ∉ function.defining :: earlier.machine.heap.around function.defining) ∧
    ∀ defining name params defaults body,
      (activity.machine.heap.frame? defining).isSome = true →
      ((∃ error, Act.newFunction defining name params defaults body activity.machine =
          .error error activity.machine) ∨
        ∃ value after, Act.newFunction defining name params defaults body activity.machine =
          .ok value after ∧
          (∀ frame ∈ defining :: activity.machine.heap.around defining,
            after.heap.Captured frame) ∧
          (activity.Knows defining → Reachable
            { activity with machine := after, hand := value.references ++ activity.hand })) := by
  have sound := reachable.sound
  have faithful := Run.faithful reachable
  refine ⟨fun frame captured enclosing => faithful.around.of_mem_around sound.ordered captured,
    faithful.marked sound.ordered, fun frame isFrame unmarked => ⟨?_, ?_⟩, ?_⟩
  · have notAny : (activity.machine.heap.frame? frame).any Frame.captured = false := by
      cases found : activity.machine.heap.frame? frame with
      | none => rfl
      | some content =>
          by_contra marked
          exact unmarked ⟨content, found, by simpa using marked⟩
    simp [Machine.release, notAny]
  · intro earlier reachableEarlier steps code function found member
    have marked := (Run.faithful reachableEarlier).marked reachableEarlier.sound.ordered
      code function found frame member
    have still := (captured_of_steps reachableEarlier steps marked).2.2
    obtain ⟨content, stored⟩ := Option.isSome_iff_exists.mp isFrame
    exact unmarked (still (Heap.contains_of_frame? stored))
  · intro defining name params defaults body isFrame
    rcases newFunction_cases activity.machine defining name params defaults body with
      ⟨-, failed⟩ | succeeded
    · exact Or.inl ⟨_, failed⟩
    · refine Or.inr ⟨_, _, succeeded, fun frame member => ?_,
        fun known => reachable.newFunction known isFrame succeeded⟩
      exact Heap.captured_alloc _ (captured_chain_of_capture sound faithful isFrame member)

/-- A call has begun, and no function was made in its frame so far: the frame has no mark, and is
not on the chain of the function that is called.  Making one marks it. -/
theorem startedCall_marks_are_faithful :
    startedCall.Reachable ∧ (startedCall.machine.heap.frame? 2).isSome = true ∧
      ¬startedCall.machine.heap.Captured 2 ∧ startedCall.machine.heap.Marked ∧
      startedCall.machine.release 2 = startedCall.machine ∧
      (∀ code function, startedCall.machine.heap.function? code = some function →
        2 ∉ function.defining :: startedCall.machine.heap.around function.defining) ∧
      startedCall.machine.heap.around 2 = [0] ∧
      ∃ value after,
        Act.newFunction 2 ⟨"inner", 1⟩ [] [] [] startedCall.machine = .ok value after ∧
        after.heap.Captured 2 ∧ after.heap.Captured 0 := by
  have reachable := run_startedCall.reachable
  have isFrame : (startedCall.machine.heap.frame? 2).isSome = true := rfl
  have unmarked : ¬startedCall.machine.heap.Captured 2 := by decide
  have chain : startedCall.machine.heap.around 2 = [0] := by decide
  obtain ⟨-, marked, untraced, made⟩ := captured_marks_are_faithful startedCall reachable
  obtain ⟨same, never⟩ := untraced 2 isFrame unmarked
  refine ⟨reachable, isFrame, unmarked, marked, same, never startedCall reachable .refl, chain, ?_⟩
  rcases made 2 ⟨"inner", 1⟩ [] [] [] isFrame with ⟨error, failed⟩ | ⟨value, after, done, all, -⟩
  · cases failed
  · exact ⟨value, after, done, all 2 List.mem_cons_self,
      all 0 (chain ▸ List.mem_cons_of_mem 2 List.mem_cons_self)⟩

end Outcome

end Activity

end ScriptCore
