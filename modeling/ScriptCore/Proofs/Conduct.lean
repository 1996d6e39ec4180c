import ScriptCore.Proofs.Seclusion

/-!
# Actions as steps

What an action does to a machine is a number of steps of an activity.  Between them the
evaluation may take in hand whatever it knows, so an action that frees nothing leaves it able to
pass on every value that it could pass on before.
-/

namespace ScriptCore

open Relation

namespace Activity

section Steps

variable {before after : Activity}

theorem sound_of_steps (sound : before.Sound) (steps : ReflTransGen Step before after) :
    after.Sound := by
  induction steps with
  | refl => exact sound
  | tail _ step ih => exact step.sound ih

theorem size_le_of_steps (sound : before.Sound) (steps : ReflTransGen Step before after) :
    before.machine.heap.size ≤ after.machine.heap.size := by
  induction steps with
  | refl => exact Nat.le_refl _
  | tail first step ih =>
      rcases step.grows_or_tidies (sound_of_steps sound first) with grows | tidies
      · exact Nat.le_trans ih grows.size_le
      · rw [tidies.spares.size_eq]
        exact ih

/-- A frame stays one, inside the same frame, as long as it exists. -/
theorem frame_of_steps (sound : before.Sound) (steps : ReflTransGen Step before after)
    {id : CellId} (isFrame : (before.machine.heap.frame? id).isSome = true)
    (present : after.machine.heap.contains id = true) :
    (after.machine.heap.frame? id).isSome = true ∧
      after.machine.heap.parent? id = before.machine.heap.parent? id := by
  induction steps with
  | refl => exact ⟨isFrame, rfl⟩
  | @tail middle after first step ih =>
      have inside : id < middle.machine.heap.size :=
        Nat.lt_of_lt_of_le (Grows.lt_size_of_frame? isFrame) (size_le_of_steps sound first)
      rcases step.grows_or_tidies (sound_of_steps sound first) with grows | tidies
      · obtain ⟨frame, link⟩ := ih (grows.contains_eq inside ▸ present)
        exact ⟨(grows.frame?_isSome inside).trans frame, (grows.parent?_eq inside).trans link⟩
      · obtain ⟨frame, link⟩ := ih (Heap.Tidied.contains tidies.spares present)
        refine ⟨?_, (Heap.Tidied.parent?_eq tidies.spares present).trans link⟩
        rw [Heap.frame?_eq_bind] at frame ⊢
        rcases tidies.spares.cell id with same | gone | ⟨-, content, -, now⟩
        · rw [same]
          exact frame
        · simp [Heap.contains, gone] at present
        · simp [now, Cell.frame?]

end Steps

/-- An evaluation can go on in a frame: it is held, or around a frame that is. -/
def Stands (activity : Activity) (frame : CellId) : Prop :=
  ∃ inner, .cell inner ∈ activity.machine.held ∧
    (activity.machine.heap.frame? inner).isSome = true ∧
    ReflTransGen (fun id parent => activity.machine.heap.parent? id = some parent) inner frame

section Standing

variable {before after : Activity} {frame : CellId}

theorem mem_starts_of_held {activity : Activity} {id : CellId}
    (held : .cell id ∈ activity.machine.held) : id ∈ activity.starts := by
  apply List.mem_append_left
  apply List.mem_append_right
  exact List.mem_flatMap.mpr ⟨_, held, List.mem_singleton_self id⟩

theorem Stands.knows (stands : before.Stands frame) : before.Knows frame := by
  obtain ⟨inner, held, -, chain⟩ := stands
  have reaches : before.machine.heap.Reaches inner frame :=
    ReflTransGen.mono (fun _ _ link => Heap.refers_parent link) _ _ chain
  exact Heap.ReachedFrom.trans (.of_mem (mem_starts_of_held held)) reaches

theorem Stands.isFrame (sound : before.Sound) (stands : before.Stands frame) :
    (before.machine.heap.frame? frame).isSome = true := by
  obtain ⟨inner, -, isFrame, chain⟩ := stands
  induction chain with
  | refl => exact isFrame
  | tail _ link _ =>
      obtain ⟨content, found, inside⟩ := Option.bind_eq_some_iff.mp link
      exact sound.linked _ _ _ (Heap.frame?_eq_some_iff.mp found) inside

theorem Stands.hosts (sound : before.Sound) (stands : before.Stands frame) :
    before.Hosts frame :=
  ⟨stands.knows, stands.isFrame sound⟩

theorem Stands.of_heap_eq (heap : after.machine.heap = before.machine.heap)
    (held : before.machine.held ⊆ after.machine.held) (stands : before.Stands frame) :
    after.Stands frame := by
  obtain ⟨inner, innerHeld, isFrame, chain⟩ := stands
  refine ⟨inner, held innerHeld, ?_, ?_⟩
  · rw [heap]
    exact isFrame
  · rw [heap]
    exact chain

/-- A frame stays in place for an evaluation while what is held stays held. -/
theorem Stands.of_steps (sound : before.Sound) (steps : ReflTransGen Step before after)
    (held : after.machine.held = before.machine.held) (stands : before.Stands frame) :
    after.Stands frame := by
  obtain ⟨inner, innerHeld, isFrame, chain⟩ := stands
  have soundAfter := sound_of_steps sound steps
  have heldAfter : .cell inner ∈ after.machine.held := held ▸ innerHeld
  have present : after.machine.heap.contains inner = true :=
    soundAfter.closed inner (Or.inl (mem_starts_of_held heldAfter))
  refine ⟨inner, heldAfter, (frame_of_steps sound steps isFrame present).1, ?_⟩
  -- Along the chain each frame refers to the next, which is therefore still there.
  induction chain with
  | refl => exact .refl
  | @tail id parent first link ih =>
      have known : after.Stands id :=
        ⟨inner, heldAfter, (frame_of_steps sound steps isFrame present).1, ih⟩
      have isFrameId : (before.machine.heap.frame? id).isSome = true :=
        Stands.isFrame sound ⟨inner, innerHeld, isFrame, first⟩
      refine ih.tail ?_
      rw [(frame_of_steps sound steps isFrameId (soundAfter.contains_of_knows known.knows)).2]
      exact link

end Standing

/-- The same activity with all that is known in hand. -/
noncomputable def grasp (activity : Activity) : Activity :=
  open Classical in
  { activity with
    hand := (List.range activity.machine.heap.size).filter fun id => activity.Knows id }

section Grasping

variable {activity : Activity} {id : CellId} {value : Value}

theorem mem_hand_grasp (sound : activity.Sound) :
    id ∈ activity.grasp.hand ↔ activity.Knows id := by
  simp only [grasp, List.mem_filter, List.mem_range, decide_eq_true_eq]
  exact ⟨And.right, fun known =>
    ⟨Heap.lt_size_of_contains (sound.contains_of_knows known), known⟩⟩

theorem step_grasp (sound : activity.Sound) : Step activity activity.grasp := by
  refine .move activity activity.machine _ rfl rfl (fun id member => ?_) sound.held
  rcases List.mem_append.mp member with root | inHand
  · exact .of_mem (List.mem_append_left _ root)
  · exact (mem_hand_grasp sound).mp inHand

theorem Knows.grasp (sound : activity.Sound) (known : activity.Knows id) :
    activity.grasp.Knows id :=
  .of_mem (List.mem_append_right _ ((mem_hand_grasp sound).mpr known))

theorem Owns.grasp (sound : activity.Sound) (owns : activity.Owns value) :
    activity.grasp.Owns value :=
  ⟨owns.fits, fun id reference => (owns.known id reference).grasp sound⟩

end Grasping

/-- A machine is reached by steps that leave the calls in progress and what is held as they
were, and secluded frames alone unless they are near.  Quiet steps also leave everything in reach
that was. -/
structure Becomes (near : CellId → Prop) (quiet : Bool) (before : Activity) (machine : Machine)
    (after : Activity) : Prop where
  steps : ReflTransGen Step before after
  machine_eq : after.machine = machine
  running : after.running = before.running
  held : after.machine.held = before.machine.held
  typed : after.machine.Typed
  lasts : before.machine.heap.Lasts after.machine.heap
  respects : before.machine.Respects near after.machine
  keeps : quiet = true → ∀ value, before.Owns value → after.Owns value

section Becoming

variable {near : CellId → Prop} {quiet : Bool} {before middle after : Activity}
  {machine further : Machine}

theorem Becomes.refl (proper : before.Proper) : before.Becomes near quiet before.machine before :=
  ⟨.refl, rfl, rfl, rfl, proper.typed, .refl _, .refl _, fun _ _ owns => owns⟩

theorem Becomes.trans (first : before.Becomes near quiet machine middle)
    (second : middle.Becomes near quiet further after) :
    before.Becomes near quiet further after where
  steps := first.steps.trans second.steps
  machine_eq := second.machine_eq
  running := second.running.trans first.running
  held := second.held.trans first.held
  typed := second.typed
  lasts := first.lasts.trans second.lasts
  respects := first.respects.trans second.respects
  keeps still value owns := second.keeps still value (first.keeps still value owns)

theorem Becomes.weaken (becomes : before.Becomes near true machine after) :
    before.Becomes near quiet machine after :=
  { becomes with keeps := fun _ => becomes.keeps rfl }

theorem Becomes.widen {wider : CellId → Prop} (includes : ∀ id, near id → wider id)
    (becomes : before.Becomes near quiet machine after) :
    before.Becomes wider quiet machine after :=
  { becomes with respects := becomes.respects.widen includes }

theorem Becomes.proper (becomes : before.Becomes near quiet machine after)
    (proper : before.Proper) : after.Proper :=
  ⟨sound_of_steps proper.sound becomes.steps, becomes.typed⟩

theorem Becomes.stands (becomes : before.Becomes near quiet machine after) (proper : before.Proper)
    {frame : CellId} (stands : before.Stands frame) : after.Stands frame :=
  stands.of_steps proper.sound becomes.steps becomes.held

/-- A step that is taken with everything in hand, and that lets go of nothing. -/
theorem Becomes.of_grasp (proper : before.Proper) (step : Step before.grasp after)
    (hand : before.grasp.hand ⊆ after.hand) (running : after.running = before.running)
    (held : after.machine.held = before.machine.held)
    (lasts : before.machine.heap.Lasts after.machine.heap)
    (respects : before.machine.Respects near after.machine)
    (cells : ∀ id cell, after.machine.heap.get? id = some cell →
      ∀ value ∈ cell.values, before.machine.heap.Fits value)
    (globals : ∀ value ∈ Names.values after.machine.globals, before.machine.heap.Fits value)
    (handles : ∀ handle ∈ after.machine.handles,
      (before.machine.heap.frame? handle.2).isSome = true) :
    before.Becomes near quiet after.machine after := by
  have sound : after.Sound := step.sound ((step_grasp proper.sound).sound proper.sound)
  refine ⟨.tail (.single (step_grasp proper.sound)) step, rfl, running, held, ?_, lasts, respects,
    ?_⟩
  · refine typed_of_lasts sound lasts cells globals (fun hold listed => ?_) handles
    exact proper.typed.held hold (held ▸ listed)
  · refine fun _ value owns => owns.of_lasts sound lasts fun id reference => ?_
    apply Heap.ReachedFrom.of_mem
    apply List.mem_append_right
    exact hand ((mem_hand_grasp proper.sound).mpr (owns.known id reference))

end Becoming

section Primitives

variable {near : CellId → Prop} {quiet : Bool} {before : Activity} (proper : before.Proper)

include proper

/-- Whatever leaves the heap, the retained frames and what is held alone. -/
theorem becomes_move {machine : Machine} (heap : machine.heap = before.machine.heap)
    (retained : machine.retained = before.machine.retained)
    (held : machine.held = before.machine.held)
    (globals : ∀ value ∈ Names.values machine.globals, before.Owns value)
    (handles : ∀ handle ∈ machine.handles, before.Hosts handle.2)
    (kept : ∀ handle ∈ machine.handles, near handle.2 ∨ handle ∈ before.machine.handles) :
    before.Becomes near quiet machine { before.grasp with machine } := by
  have step : Step before.grasp { before.grasp with machine } := by
    refine .move before.grasp machine _ heap retained (fun id member => ?_) ?_
    · refine Knows.grasp proper.sound ?_
      simp only [Machine.roots, List.append_assoc, List.mem_append, List.mem_map] at member
      rcases member with bound | ⟨handle, listed, rfl⟩ | inHeld | inHand
      · obtain ⟨value, listed, reference⟩ := Names.mem_references_iff.mp bound
        exact (globals value listed).known id reference
      · exact (handles handle listed).known
      · rw [held] at inHeld
        exact .of_mem (List.mem_append_left _ (List.mem_append_right _ inHeld))
      · exact (mem_hand_grasp proper.sound).mp inHand
    · rw [held]
      exact proper.sound.held
  have respects : before.machine.Respects near machine :=
    .of_heap_eq heap (held ▸ List.Subset.refl _) kept
  refine .of_grasp proper step (List.Subset.refl _) rfl held ?_ respects ?_
    (fun value listed => (globals value listed).fits)
    fun handle listed => (handles handle listed).isFrame
  · show before.machine.heap.Lasts machine.heap
    rw [heap]
    exact Heap.Lasts.refl _
  · intro id cell found
    exact proper.typed.cells id cell (heap ▸ found)

theorem becomes_make {cell : Cell} (admitted : before.grasp.Admits cell)
    (fit : ∀ value ∈ cell.values, before.machine.heap.Fits value)
    (links : ∀ target, cell.link? = some target → near target ∨
      ∃ other old, before.machine.heap.get? other = some old ∧ old.link? = some target) :
    before.Becomes near quiet
      { before.machine with heap := (before.machine.heap.alloc cell).2 }
      { before.grasp with
        machine := { before.machine with heap := (before.machine.heap.alloc cell).2 }
        hand := before.machine.heap.size :: before.grasp.hand } := by
  refine .of_grasp proper (.make before.grasp cell admitted) (List.subset_cons_self _ _) rfl rfl
    (.alloc _ _) (.alloc links) ?_ proper.typed.globals proper.typed.handles
  intro id content found
  have found : (before.machine.heap.alloc cell).2.get? id = some content := found
  rw [Heap.get?_alloc] at found
  split at found
  · cases found
    exact fit
  · exact proper.typed.cells id content found

theorem becomes_set {machine : Machine} {id : CellId} {old new : Cell}
    (found : before.machine.heap.get? id = some old)
    (step : Step before.grasp { before.grasp with machine })
    (stored : machine = { before.machine with heap := before.machine.heap.set id new })
    (alike : ∀ value : Value, value.Fits old → value.Fits new)
    (isFrame : new.frame?.isSome = old.frame?.isSome)
    (link : new.link? = old.link?) (inside : old.frame?.isSome = true → near id)
    (fit : ∀ value ∈ new.values, before.machine.heap.Fits value) :
    before.Becomes near quiet machine { before.grasp with machine } := by
  subst stored
  have content : ∀ other, (before.machine.heap.set id new).get? other =
      if other = id then some new else before.machine.heap.get? other := by
    intro other
    simp [Heap.get?_set, Heap.contains, found]
  refine .of_grasp proper step (List.Subset.refl _) rfl rfl (.set found alike isFrame)
    (.set found link inside) ?_ proper.typed.globals proper.typed.handles
  intro other now foundOther
  have foundOther : (before.machine.heap.set id new).get? other = some now := foundOther
  rw [content] at foundOther
  split at foundOther
  · cases foundOther
    exact fit
  · exact proper.typed.cells other now foundOther

theorem becomes_write {id : CellId} {old new : Cell}
    (found : before.machine.heap.get? id = some old) (known : before.Knows id)
    (plain : old.isPlain = true ∧ new.isPlain = true)
    (alike : ∀ value : Value, value.Fits old → value.Fits new)
    (owned : ∀ value ∈ new.values, value ∈ old.values ∨ before.Owns value) :
    before.Becomes near quiet { before.machine with heap := before.machine.heap.set id new }
      { before.grasp with
        machine := { before.machine with heap := before.machine.heap.set id new } } := by
  refine becomes_set proper found (.write before.grasp id old new found (known.grasp proper.sound)
    plain fun target reference => ?_) rfl alike ?_ ?_ ?_ fun value member => ?_
  · obtain ⟨value, member, inside⟩ := Cell.exists_mem_values plain.2 reference
    rcases owned value member with kept | owns
    · exact Or.inl (Cell.mem_references_of_mem_values kept inside)
    · exact Or.inr ((owns.grasp proper.sound).offers inside)
  · rw [Cell.frame?_eq_none_of_isPlain plain.1, Cell.frame?_eq_none_of_isPlain plain.2]
  · rw [Cell.link?_eq_none_of_isPlain plain.1, Cell.link?_eq_none_of_isPlain plain.2]
  · simp [Cell.frame?_eq_none_of_isPlain plain.1]
  · rcases owned value member with kept | owns
    · exact proper.typed.cells id old found value kept
    · exact owns.fits

theorem becomes_rename {frame : CellId} {names : Names} (known : before.Knows frame)
    (inside : near frame)
    (owned : ∀ value ∈ Names.values names,
      value ∈ Names.values (before.machine.localsOf frame) ∨ before.Owns value) :
    before.Becomes near quiet (before.machine.setLocals frame names)
      { before.grasp with machine := before.machine.setLocals frame names } := by
  have step : Step before.grasp
      { before.grasp with machine := before.machine.setLocals frame names } := by
    refine .rename before.grasp frame names (known.grasp proper.sound) fun target reference => ?_
    obtain ⟨value, member, inside⟩ := Names.mem_references_iff.mp reference
    rcases owned value member with kept | owns
    · exact Or.inl (Names.mem_references_iff.mpr ⟨value, kept, inside⟩)
    · exact Or.inr ((owns.grasp proper.sound).offers inside)
  cases found : before.machine.heap.frame? frame with
  | none =>
      have same : before.machine.setLocals frame names = before.machine := by
        simp [Machine.setLocals, found]
      rw [same]
      exact becomes_move proper rfl rfl rfl (fun value => proper.owns_global)
        (fun _ => proper.hosts_handle) fun _ => Or.inr
  | some content =>
      obtain ⟨scope, captured⟩ := content
      cases scope with
      | global =>
          have locals : before.machine.localsOf frame = before.machine.globals := by
            simp [Machine.localsOf, found]
          have moved : before.machine.setLocals frame names =
              { before.machine with globals := names } := by
            simp [Machine.setLocals, found]
          rw [moved]
          refine becomes_move proper rfl rfl rfl (fun value member => ?_)
            (fun _ => proper.hosts_handle) fun _ => Or.inr
          rcases owned value member with kept | owns
          · exact proper.owns_global (locals ▸ kept)
          · exact owns
      | nested parent bindings =>
          have locals : before.machine.localsOf frame = bindings := by
            simp [Machine.localsOf, found]
          have stored : before.machine.setLocals frame names =
              { before.machine with
                heap := before.machine.heap.set frame
                  (.frame { scope := .nested parent names, captured }) } := by
            simp [Machine.setLocals, found]
          refine becomes_set proper (Heap.frame?_eq_some_iff.mp found) step stored
            (fun value fits => absurd fits (value.not_fits_frame _)) rfl rfl (fun _ => inside)
            fun value member => ?_
          rcases owned value member with kept | owns
          · exact proper.typed.cells frame _ (Heap.frame?_eq_some_iff.mp found) value
              (locals ▸ kept)
          · exact owns.fits

theorem becomes_capture {frame : CellId} (known : before.Knows frame) (inside : near frame) :
    before.Becomes near quiet
      { before.machine with heap := before.machine.heap.capture frame }
      { before.grasp with
        machine := { before.machine with heap := before.machine.heap.capture frame } } := by
  refine .of_grasp proper (.capture before.grasp frame (known.grasp proper.sound))
    (List.Subset.refl _) rfl rfl (.capture _ _) (.capture proper.typed inside) ?_
    proper.typed.globals proper.typed.handles
  intro id cell found value member
  have found : (before.machine.heap.capture frame).get? id = some cell := found
  rcases Heap.get?_capture before.machine.heap frame id with same | ⟨content, was, now⟩
  · exact proper.typed.cells id cell (same ▸ found) value member
  · rw [found] at now
    cases now
    refine proper.typed.cells id _ was value ?_
    obtain ⟨scope, captured⟩ := content
    cases scope <;> exact member

theorem typed_of_tidies {after : Activity} (tidies : Tidies before after)
    (held : after.machine.held ⊆ before.machine.held)
    (globals : after.machine.globals = before.machine.globals)
    (handles : after.machine.handles = before.machine.handles) : after.machine.Typed := by
  refine typed_of_lasts (tidies.sound proper.sound) (Heap.Tidied.lasts tidies.spares) ?_ ?_ ?_ ?_
  · intro id cell found value member
    rcases tidies.spares.cell id with same | gone | ⟨-, frame, was, now⟩
    · exact proper.typed.cells id cell (same ▸ found) value member
    · simp [gone] at found
    · rw [found] at now
      cases now
      obtain ⟨scope, captured⟩ := frame
      cases scope <;> simp [Frame.cleared, Cell.values, Names.values] at member
  · rw [globals]
    exact proper.typed.globals
  · exact fun hold listed => proper.typed.held hold (held listed)
  · rw [handles]
    exact proper.typed.handles

theorem becomes_settle :
    before.Becomes near false before.machine.settle
      { before with machine := before.machine.settle, hand := [] } :=
  ⟨.single (.settle before), rfl, rfl, rfl,
    typed_of_tidies proper (tidies_settle proper.sound) (List.Subset.refl _) rfl rfl,
    (tidies_settle proper.sound).spares.lasts,
    .of_spares (tidies_settle proper.sound).spares (List.Subset.refl _) rfl,
    fun still => absurd still Bool.false_ne_true⟩

theorem becomes_collect :
    before.Becomes near false before.machine.collect.2
      { before with machine := before.machine.collect.2, hand := [] } :=
  ⟨.single (.collect before), rfl, rfl, rfl,
    typed_of_tidies proper (tidies_collect proper.sound) (List.Subset.refl _) rfl rfl,
    (tidies_collect proper.sound).spares.lasts,
    .of_spares (tidies_collect proper.sound).spares (List.Subset.refl _) rfl,
    fun still => absurd still Bool.false_ne_true⟩

end Primitives

section Holding

variable {before last : Activity} {hold : Hold}

/-- Something that is known can be held. -/
theorem exists_holding (proper : before.Proper)
    (fit : ∀ value ∈ hold.values, before.machine.heap.Fits value)
    (known : ∀ id ∈ hold.references, before.Knows id) :
    ∃ during, ReflTransGen Step before during ∧ during.Proper ∧
      during.machine = { before.machine with held := hold :: before.machine.held } ∧
      during.running = before.running ∧ ∀ value, before.Owns value → during.Owns value := by
  let during : Activity :=
    { before.grasp with
      machine := { before.machine with held := hold :: before.machine.held } }
  have step : Step before.grasp during := by
    refine .move before.grasp during.machine _ rfl rfl (fun id member => ?_) fun frame listed => ?_
    · apply Knows.grasp proper.sound
      simp only [during, Machine.roots, List.flatMap_cons, List.mem_append] at member
      rcases member with (bound | inHold | inHeld) | inHand
      · exact .of_mem (List.mem_append_left _ (List.mem_append_left _ (List.mem_append.mpr bound)))
      · exact known id inHold
      · exact .of_mem (List.mem_append_left _ (List.mem_append_right _ inHeld))
      · exact (mem_hand_grasp proper.sound).mp inHand
    · exact List.mem_cons_of_mem _ (proper.sound.held frame listed)
  have sound : during.Sound := step.sound ((step_grasp proper.sound).sound proper.sound)
  have typed : during.machine.Typed := by
    refine ⟨proper.typed.cells, proper.typed.globals, fun other listed => ?_, proper.typed.handles⟩
    rcases List.mem_cons.mp listed with rfl | old
    · exact fit
    · exact proper.typed.held other old
  refine ⟨during, .tail (.single (step_grasp proper.sound)) step, ⟨sound, typed⟩, rfl, rfl, ?_⟩
  refine fun value owns => .of_start owns.fits fun id reference => ?_
  exact List.mem_append_right _ ((mem_hand_grasp proper.sound).mpr (owns.known id reference))

/-- What is held can be let go of, and passed on still. -/
theorem exists_letGo (proper : last.Proper) {rest : List Hold}
    (held : last.machine.held = hold :: rest)
    (running : ∀ frame ∈ last.running, .cell frame ∈ rest) :
    ∃ after, ReflTransGen Step last after ∧ after.machine = { last.machine with held := rest } ∧
      after.running = last.running ∧ after.machine.Typed ∧
      ∀ value, last.Owns value → after.Owns value := by
  let after : Activity :=
    { last.grasp with machine := { last.machine with held := rest } }
  have step : Step last.grasp after := by
    refine .move last.grasp after.machine _ rfl rfl (fun id member => ?_) running
    apply Knows.grasp proper.sound
    simp only [after, Machine.roots, List.mem_append] at member
    rcases member with (bound | inHeld) | inHand
    · exact .of_mem (List.mem_append_left _ (List.mem_append_left _ (List.mem_append.mpr bound)))
    · apply Heap.ReachedFrom.of_mem
      apply List.mem_append_left
      apply List.mem_append_right
      rw [held, List.flatMap_cons]
      exact List.mem_append_right _ inHeld
    · exact (mem_hand_grasp proper.sound).mp inHand
  have typed : after.machine.Typed := by
    refine ⟨proper.typed.cells, proper.typed.globals, fun other listed => ?_, proper.typed.handles⟩
    apply proper.typed.held other
    rw [held]
    exact List.mem_cons_of_mem hold listed
  refine ⟨after, .tail (.single (step_grasp proper.sound)) step, rfl, rfl, typed, ?_⟩
  refine fun value owns => .of_start owns.fits fun id reference => ?_
  exact List.mem_append_right _ ((mem_hand_grasp proper.sound).mpr (owns.known id reference))

/-- Something was held for a while. -/
theorem Becomes.of_holding {near : CellId → Prop} {quiet : Bool} {during : Activity}
    {machine : Machine}
    (proper : before.Proper) (begin : ReflTransGen Step before during)
    (properDuring : during.Proper)
    (machineDuring : during.machine = { before.machine with held := hold :: before.machine.held })
    (runningDuring : during.running = before.running)
    (owned : ∀ value, before.Owns value → during.Owns value)
    (becomes : during.Becomes near quiet machine last) :
    ∃ after, before.Becomes near quiet { machine with held := before.machine.held } after ∧
      ∀ value, last.Owns value → after.Owns value := by
  have held : last.machine.held = hold :: before.machine.held := by
    rw [becomes.held, machineDuring]
  have running : last.running = before.running := becomes.running.trans runningDuring
  obtain ⟨after, letGo, machineAfter, runningAfter, typed, kept⟩ :=
    exists_letGo (becomes.proper properDuring) held (running ▸ proper.sound.held)
  refine ⟨after, ⟨begin.trans (becomes.steps.trans letGo), ?_, runningAfter.trans running, ?_,
    typed, ?_, ?_, fun still value owns => ?_⟩, kept⟩
  · rw [machineAfter, becomes.machine_eq]
  · rw [machineAfter]
  · rw [machineAfter]
    have lasts := becomes.lasts
    rw [machineDuring] at lasts
    exact lasts
  · have begun : before.machine.Respects near during.machine := by
      rw [machineDuring]
      exact .of_heap_eq rfl (List.subset_cons_self _ _) fun _ => Or.inr
    rw [machineAfter]
    exact (begun.trans becomes.respects).with_held (List.Subset.refl _)
  · exact kept value (becomes.keeps still value (owned value owns))

end Holding

end Activity

namespace Act

/-- What an action does to an activity is some of its steps, and what it gives then is as
described. -/
def Conducts (near : CellId → Prop) (quiet : Bool) (action : Act α)
    (gives : Activity → α → Prop) (before : Activity) : Prop :=
  match action before.machine with
  | .ok value machine => ∃ after, before.Becomes near quiet machine after ∧ gives after value
  | .error _ machine => ∃ after, before.Becomes near quiet machine after

section Conduct

variable {α β : Type} {near : CellId → Prop} {quiet : Bool} {before : Activity}

theorem Conducts.weaken {action : Act α} {gives : Activity → α → Prop}
    (conducts : Conducts near true action gives before) :
    Conducts near quiet action gives before := by
  unfold Conducts at conducts ⊢
  cases ran : action before.machine with
  | ok value machine =>
      simp only [ran] at conducts ⊢
      obtain ⟨after, becomes, given⟩ := conducts
      exact ⟨after, becomes.weaken, given⟩
  | error stop machine =>
      simp only [ran] at conducts ⊢
      obtain ⟨after, becomes⟩ := conducts
      exact ⟨after, becomes.weaken⟩

theorem Conducts.widen {wider : CellId → Prop} {action : Act α} {gives : Activity → α → Prop}
    (includes : ∀ id, near id → wider id) (conducts : Conducts near quiet action gives before) :
    Conducts wider quiet action gives before := by
  unfold Conducts at conducts ⊢
  cases ran : action before.machine with
  | ok value machine =>
      simp only [ran] at conducts ⊢
      obtain ⟨after, becomes, given⟩ := conducts
      exact ⟨after, becomes.widen includes, given⟩
  | error stop machine =>
      simp only [ran] at conducts ⊢
      obtain ⟨after, becomes⟩ := conducts
      exact ⟨after, becomes.widen includes⟩

theorem Conducts.imp {action : Act α} {gives further : Activity → α → Prop}
    (conducts : Conducts near quiet action gives before)
    (implied : ∀ {machine after value}, before.Becomes near quiet machine after →
      gives after value → further after value) : Conducts near quiet action further before := by
  unfold Conducts at conducts ⊢
  cases ran : action before.machine with
  | ok value machine =>
      simp only [ran] at conducts ⊢
      obtain ⟨after, becomes, given⟩ := conducts
      exact ⟨after, becomes, implied becomes given⟩
  | error stop machine =>
      simp only [ran] at conducts ⊢
      exact conducts

/-- A quiet action among others: what could be passed on before it still can. -/
theorem Conducts.keeping {action : Act α} {gives : Activity → α → Prop}
    (conducts : Conducts near true action gives before) :
    Conducts near quiet action
      (fun after result => gives after result ∧ ∀ value, before.Owns value → after.Owns value)
      before :=
  (conducts.imp fun becomes given => ⟨given, becomes.keeps rfl⟩).weaken

variable (proper : before.Proper)

include proper

theorem Conducts.pure {value : α} {gives : Activity → α → Prop} (given : gives before value) :
    Conducts near quiet (Pure.pure value) gives before :=
  ⟨before, .refl proper, given⟩

theorem Conducts.throw {stop : Stop} {gives : Activity → α → Prop} :
    Conducts near quiet (MonadExcept.throw stop) gives before :=
  ⟨before, .refl proper⟩

theorem Conducts.fail {error : Error} {gives : Activity → α → Prop} :
    Conducts near quiet (Act.fail error) gives before :=
  ⟨before, .refl proper⟩

theorem Conducts.malformed {reason : String} {gives : Activity → α → Prop} :
    Conducts near quiet (Act.malformed reason) gives before :=
  ⟨before, .refl proper⟩

theorem Conducts.ofExcept {outcome : Except Error α} {gives : Activity → α → Prop}
    (given : ∀ value, outcome = .ok value → gives before value) :
    Conducts near quiet (ofExcept outcome) gives before := by
  cases outcome with
  | ok value => exact .pure proper (given value rfl)
  | error error => exact .throw proper

theorem Conducts.bind {action : Act α} {next : α → Act β} {gives : Activity → α → Prop}
    {further : Activity → β → Prop} (first : Conducts near quiet action gives before)
    (second : ∀ {machine after value}, before.Becomes near quiet machine after → after.Proper →
      gives after value → Conducts near quiet (next value) further after) :
    Conducts near quiet (action >>= next) further before := by
  unfold Conducts at first ⊢
  rw [show (action >>= next) before.machine = EStateM.bind action next before.machine from rfl,
    EStateM.bind]
  cases ran : action before.machine with
  | error stop machine =>
      simp only [ran] at first
      exact first
  | ok value machine =>
      simp only [ran] at first
      obtain ⟨middle, becomes, given⟩ := first
      have onward := second becomes (becomes.proper proper) given
      rw [Conducts, becomes.machine_eq] at onward
      cases ended : next value machine with
      | error stop last =>
          simp only [ended] at onward ⊢
          obtain ⟨after, last⟩ := onward
          exact ⟨after, becomes.trans last⟩
      | ok result last =>
          simp only [ended] at onward ⊢
          obtain ⟨after, last, given⟩ := onward
          exact ⟨after, becomes.trans last, given⟩

/-- A failure of the language is handled where it left the machine. -/
theorem Conducts.handling {action : Act α} {handler : Error → Act α}
    {gives : Activity → α → Prop} (first : Conducts near quiet action gives before)
    (second : ∀ {machine after} error, before.Becomes near quiet machine after → after.Proper →
      Conducts near quiet (handler error) gives after) :
    Conducts near quiet (handling action handler) gives before := by
  unfold Conducts at first ⊢
  rw [Act.handling]
  cases ran : action before.machine with
  | ok value machine =>
      simp only [ran] at first ⊢
      exact first
  | error stop machine =>
      simp only [ran] at first
      obtain ⟨middle, becomes⟩ := first
      cases stop with
      | error error =>
          have onward := second error becomes (becomes.proper proper)
          rw [Conducts, becomes.machine_eq] at onward
          cases ended : handler error machine with
          | error stop last =>
              simp only [ended] at onward ⊢
              obtain ⟨after, last⟩ := onward
              exact ⟨after, becomes.trans last⟩
          | ok result last =>
              simp only [ended] at onward ⊢
              obtain ⟨after, last, given⟩ := onward
              exact ⟨after, becomes.trans last, given⟩
      | exhausted => exact ⟨middle, becomes⟩
      | malformed reason => exact ⟨middle, becomes⟩
      | fault fault => exact ⟨middle, becomes⟩

/-- An action that runs while something more is held: what was held can be passed on
afterwards, with what the action gives. -/
theorem Conducts.holding (hold : Hold) {action : Act α} (gives : Activity → α → Prop)
    (fit : ∀ value ∈ hold.values, before.machine.heap.Fits value)
    (known : ∀ id ∈ hold.references, before.Knows id)
    (inner : ∀ during : Activity, during.Proper →
      during.machine = { before.machine with held := hold :: before.machine.held } →
      (∀ frame, before.Stands frame → during.Stands frame) →
      (∀ value, before.Owns value → during.Owns value) → Conducts near quiet action gives during)
    (carried : ∀ {last after result}, (∀ value, last.Owns value → after.Owns value) →
      gives last result → gives after result) :
    Conducts near quiet (holding hold action)
      (fun after result =>
        (∀ value, before.Owns value → value.references ⊆ hold.references → after.Owns value) ∧
          gives after result) before := by
  obtain ⟨during, begin, properDuring, machineDuring, runningDuring, owned⟩ :=
    Activity.exists_holding proper fit known
  have heldDuring : during.machine.held = hold :: before.machine.held := by rw [machineDuring]
  have standsDuring : ∀ frame, before.Stands frame → during.Stands frame := by
    intro frame stands
    refine stands.of_heap_eq (by rw [machineDuring]) ?_
    rw [heldDuring]
    exact List.subset_cons_self _ _
  have ran := inner during properDuring machineDuring standsDuring owned
  rw [Conducts, machineDuring] at ran
  rw [Conducts, Act.holding]
  cases ended : action { before.machine with held := hold :: before.machine.held } with
  | error stop machine =>
      simp only [ended] at ran ⊢
      obtain ⟨last, becomes⟩ := ran
      obtain ⟨after, whole, -⟩ := Activity.Becomes.of_holding proper begin properDuring
        machineDuring runningDuring owned becomes
      exact ⟨after, whole⟩
  | ok result machine =>
      simp only [ended] at ran ⊢
      obtain ⟨last, becomes, given⟩ := ran
      obtain ⟨after, whole, kept⟩ := Activity.Becomes.of_holding proper begin properDuring
        machineDuring runningDuring owned becomes
      refine ⟨after, whole, fun value owns inHold => kept value ?_, carried kept given⟩
      have listed : hold ∈ last.machine.held := by
        rw [becomes.held, heldDuring]
        exact List.mem_cons_self
      refine (owned value owns).of_lasts (becomes.proper properDuring).sound becomes.lasts
        fun id reference => .of_mem ?_
      apply List.mem_append_left
      apply List.mem_append_right
      exact List.mem_flatMap.mpr ⟨hold, listed, inHold reference⟩

theorem Conducts.holdingCell {id : CellId} {action : Act α} (gives : Activity → α → Prop)
    (known : before.Knows id)
    (inner : ∀ during : Activity, during.Proper →
      during.machine = { before.machine with held := .cell id :: before.machine.held } →
      (∀ frame, before.Stands frame → during.Stands frame) →
      (∀ value, before.Owns value → during.Owns value) → Conducts near quiet action gives during)
    (carried : ∀ {last after result}, (∀ value, last.Owns value → after.Owns value) →
      gives last result → gives after result) :
    Conducts near quiet (Act.holding (.cell id) action)
      (fun after result => (∀ value, before.Owns value → value.cell? = some id →
        after.Owns value) ∧ gives after result) before := by
  have knownAll : ∀ other ∈ (Hold.cell id).references, before.Knows other := by
    intro other reference
    obtain rfl := List.mem_singleton.mp reference
    exact known
  apply (Conducts.holding proper (.cell id) gives
    (fun value member => absurd member List.not_mem_nil) knownAll inner carried).imp
  intro machine after result _ given
  refine ⟨fun value owns named => given.1 value owns ?_, given.2⟩
  rw [Value.references, named]
  exact List.Subset.refl _

theorem Conducts.holdingValue {held : Value} {action : Act α} (gives : Activity → α → Prop)
    (owns : before.Owns held)
    (inner : ∀ during : Activity, during.Proper →
      during.machine = { before.machine with held := .value held :: before.machine.held } →
      (∀ frame, before.Stands frame → during.Stands frame) →
      (∀ value, before.Owns value → during.Owns value) → Conducts near quiet action gives during)
    (carried : ∀ {last after result}, (∀ value, last.Owns value → after.Owns value) →
      gives last result → gives after result) :
    Conducts near quiet (Act.holding (.value held) action)
      (fun after result => after.Owns held ∧ gives after result) before := by
  have fit : ∀ value ∈ (Hold.value held).values, before.machine.heap.Fits value := by
    intro value member
    obtain rfl := List.mem_singleton.mp member
    exact owns.fits
  apply (Conducts.holding proper (.value held) gives fit owns.known inner carried).imp
  intro machine after result _ given
  exact ⟨given.1 held owns (List.Subset.refl _), given.2⟩

end Conduct

end Act

end ScriptCore
