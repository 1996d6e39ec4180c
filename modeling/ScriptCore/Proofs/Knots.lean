import ScriptCore.Proofs.Chains
import ScriptCore.Proofs.Reclaiming

/-!
# Knots of frames

A cell is lost when every chain of references to it starts at a cell that it leads to itself.
The cells that lead to a lost cell then all lead to each other and nothing else refers to them:
they are a knot.  A frame in a knot is adrift exactly when none of the frames around it is in
the knot too, and reclaiming it takes the names of every frame of the knot.  Reclaiming any
other frame leaves the knot as it is.
-/

namespace ScriptCore

open Relation

namespace Heap

/-- Every frame was made after the frame around it. -/
def Ordered (heap : Heap) : Prop :=
  ∀ id parent, heap.parent? id = some parent → parent < id

/-- A cell is a frame inside another one. -/
def Nested (heap : Heap) (id : CellId) : Prop :=
  ∃ parent, heap.parent? id = some parent

instance (heap : Heap) (id : CellId) : Decidable (heap.Nested id) :=
  decidable_of_iff ((heap.parent? id).isSome = true) Option.isSome_iff_exists

theorem Nested.contains {heap : Heap} {id : CellId} (nested : heap.Nested id) :
    heap.contains id = true := by
  obtain ⟨parent, link⟩ := nested
  obtain ⟨frame, found, -⟩ := Option.bind_eq_some_iff.mp link
  exact contains_of_frame? found

/-- A cell is a frame that is marked as captured. -/
def Captured (heap : Heap) (id : CellId) : Prop :=
  ∃ frame, heap.frame? id = some frame ∧ frame.captured = true

section Around

variable {heap : Heap} {id other : CellId}

theorem mem_around_iff (ordered : heap.Ordered) :
    other ∈ heap.around id ↔
      TransGen (fun id parent => heap.parent? id = some parent) id other := by
  rw [TransGen.head'_iff, around, frameChain, follow, List.tail_cons]
  cases link : heap.parent? id with
  | none => simp
  | some parent =>
      obtain ⟨frame, found, -⟩ := Option.bind_eq_some_iff.mp link
      have inside : id < heap.size := lt_size_of_get? (frame?_eq_some_iff.mp found)
      have below : parent < heap.size := Nat.lt_trans (ordered id parent link) inside
      simp only [Option.some.injEq, exists_eq_left', mem_follow_iff ordered below]

theorem lt_of_mem_around (ordered : heap.Ordered) (member : other ∈ heap.around id) :
    other < id := by
  rw [mem_around_iff ordered] at member
  induction member with
  | single link => exact ordered _ _ link
  | tail _ link ih => exact Nat.lt_trans (ordered _ _ link) ih

theorem not_mem_around_self (ordered : heap.Ordered) : id ∉ heap.around id :=
  fun member => Nat.lt_irrefl id (lt_of_mem_around ordered member)

theorem mem_around_of_parent? (ordered : heap.Ordered) {parent : CellId}
    (link : heap.parent? id = some parent) : parent ∈ heap.around id :=
  (mem_around_iff ordered).mpr (.single link)

theorem mem_around_trans (ordered : heap.Ordered) {further : CellId}
    (first : other ∈ heap.around id) (second : further ∈ heap.around other) :
    further ∈ heap.around id := by
  rw [mem_around_iff ordered] at *
  exact first.trans second

theorem reaches_of_mem_around (ordered : heap.Ordered) (member : other ∈ heap.around id) :
    heap.Reaches id other := by
  rw [mem_around_iff ordered] at member
  exact ReflTransGen.mono (fun _ _ link => refers_parent link) _ _ member.to_reflTransGen

theorem around_subset {before after : Heap} (ordered : before.Ordered)
    (fewer : ∀ id parent, after.parent? id = some parent → before.parent? id = some parent) :
    after.around id ⊆ before.around id := by
  have orderedAfter : after.Ordered :=
    fun id parent link => ordered id parent (fewer id parent link)
  intro other member
  rw [mem_around_iff orderedAfter] at member
  rw [mem_around_iff ordered]
  exact TransGen.mono fewer _ _ member

theorem nested_iff :
    heap.Nested id ↔ ∃ frame, heap.frame? id = some frame ∧ frame.isTop = false := by
  simp only [Nested, parent?, Option.bind_eq_some_iff, Frame.isTop, Option.isNone_eq_false_iff,
    Option.isSome_iff_exists]
  constructor
  · rintro ⟨parent, frame, found, link⟩
    exact ⟨frame, found, parent, link⟩
  · rintro ⟨frame, found, parent, link⟩
    exact ⟨parent, frame, found, link⟩

theorem not_refers_of_isTop {frame : Frame} (found : heap.frame? id = some frame)
    (top : frame.isTop = true) : ¬heap.Refers id other := by
  intro edge
  rw [Refers, referencesOf_of_get? (frame?_eq_some_iff.mp found)] at edge
  obtain ⟨scope, captured⟩ := frame
  cases scope with
  | global => simp [Cell.references, Frame.references] at edge
  | nested parent bindings => simp [Frame.isTop, Frame.parent?] at top

end Around

/-- No reference from outside of what a cell leads to leads back to it. -/
def Lost (heap : Heap) (outside : List CellId) (id : CellId) : Prop :=
  ¬heap.ReachedPast outside {other | heap.Reaches id other} id

/-- A frame leads to a cell, and no frame around it does. -/
def Outermost (heap : Heap) (id frame : CellId) : Prop :=
  heap.Reaches frame id ∧ ∀ enclosing ∈ heap.around frame, ¬heap.Reaches enclosing id

section Lost

variable {heap : Heap} {outside : List CellId} {id root : CellId}

/-- A cell is lost when it is out of reach and leads to all that leads to it. -/
theorem lost_iff :
    heap.Lost outside id ↔
      ¬heap.ReachedFrom outside id ∧ ∀ other, heap.Reaches other id → heap.Reaches id other := by
  constructor
  · intro lost
    refine ⟨fun reached => lost (.of_reachedFrom _ reached), fun other chain => ?_⟩
    by_contra apart
    rcases ReflTransGen.cases_head chain with rfl | ⟨first, edge, rest⟩
    · exact apart .refl
    · exact lost ⟨first, Or.inr ⟨other, apart, edge⟩, rest⟩
  · rintro ⟨unreached, joined⟩ ⟨first, listed | ⟨holder, apart, edge⟩, chain⟩
    · exact unreached ⟨first, listed, chain⟩
    · exact apart (joined holder (.head edge chain))

theorem Lost.of_reaches (lost : heap.Lost outside id) {other : CellId}
    (chain : heap.Reaches other id) : heap.Lost outside other := by
  obtain ⟨unreached, joined⟩ := lost_iff.mp lost
  refine lost_iff.mpr ⟨fun reached => unreached (reached.trans chain), fun further onward => ?_⟩
  exact chain.trans (joined further (onward.trans chain))

/-- The graph around a lost frame holds all that leads to it, if no frame around it does. -/
theorem mem_graph_of_lost (ordered : heap.Ordered) (nested : heap.Nested root)
    (lost : heap.Lost outside root)
    (apart : ∀ frame ∈ heap.around root, ¬heap.Reaches frame root) {other : CellId}
    (chain : heap.Reaches other root) : other ∈ heap.graph root := by
  obtain ⟨frame, found, notTop⟩ := nested_iff.mp nested
  obtain ⟨-, joined⟩ := lost_iff.mp lost
  have start : root ∈ heap.graph root := by
    refine ⟨?_, .refl⟩
    simp [enters, not_mem_around_self ordered, found, notTop]
  -- Along the way from the root every cell leads back to it, so none is left out.
  have onward : ∀ met, heap.Reaches root met → heap.Reaches met root → met ∈ heap.graph root := by
    intro met path
    induction path with
    | refl => exact fun _ => start
    | @tail before met _ edge ih =>
        intro back
        by_contra left
        rcases leaves_graph (ih (.head edge back)) edge left with enclosing | ⟨top, foundTop, isTop⟩
        · exact apart met enclosing back
        · rcases ReflTransGen.cases_head back with rfl | ⟨next, leaving, -⟩
          · rw [found] at foundTop
            cases foundTop
            simp [notTop] at isTop
          · exact not_refers_of_isTop foundTop isTop leaving
  exact onward other (joined other chain) chain

theorem Adrift.lost (adrift : heap.Adrift outside root) : heap.Lost outside root := by
  rintro ⟨first, entry, chain⟩
  refine adrift.2 ⟨first, entry.imp_right ?_, chain⟩
  rintro ⟨holder, apart, edge⟩
  exact ⟨holder, fun member => apart (reaches_of_mem_graph member), edge⟩

/-- A frame is adrift exactly when it is lost and no frame around it is in its knot. -/
theorem adrift_iff (ordered : heap.Ordered) (nested : heap.Nested root) :
    heap.Adrift outside root ↔
      heap.Lost outside root ∧ ∀ frame ∈ heap.around root, ¬heap.Reaches frame root := by
  constructor
  · intro adrift
    refine ⟨adrift.lost, fun frame enclosing chain => ?_⟩
    rcases ReflTransGen.cases_head chain with rfl | ⟨first, edge, rest⟩
    · exact not_mem_around_self ordered enclosing
    · exact adrift.2 ⟨first, Or.inr ⟨frame, not_mem_graph_of_mem_around enclosing, edge⟩, rest⟩
  · rintro ⟨lost, apart⟩
    refine ⟨mem_graph_of_lost ordered nested lost apart .refl, ?_⟩
    rintro ⟨first, listed | ⟨holder, notMember, edge⟩, chain⟩
    · exact (lost_iff.mp lost).1 ⟨first, listed, chain⟩
    · exact notMember (mem_graph_of_lost ordered nested lost apart (.head edge chain))

theorem mem_garbage_of_reaches (ordered : heap.Ordered) (nested : heap.Nested root)
    (adrift : heap.Adrift outside root) {other : CellId} (chain : heap.Reaches other root) :
    other ∈ heap.garbage outside root := by
  obtain ⟨lost, apart⟩ := (adrift_iff ordered nested).mp adrift
  exact ⟨mem_graph_of_lost ordered nested lost apart chain,
    fun reached => adrift.2 (reached.trans chain)⟩

/-- In a knot, the frames that are adrift are the outermost ones. -/
theorem Lost.adrift_iff_outermost (ordered : heap.Ordered) (lost : heap.Lost outside id)
    {frame : CellId} (nested : heap.Nested frame) (chain : heap.Reaches frame id) :
    heap.Adrift outside frame ↔ heap.Outermost id frame := by
  have back : heap.Reaches id frame := (lost_iff.mp lost).2 frame chain
  rw [adrift_iff ordered nested]
  constructor
  · rintro ⟨-, apart⟩
    exact ⟨chain, fun enclosing member path => apart enclosing member (path.trans back)⟩
  · rintro ⟨-, apart⟩
    exact ⟨lost.of_reaches chain,
      fun enclosing member path => apart enclosing member (path.trans chain)⟩

end Lost

namespace Tidied

variable {outside : List CellId} {cleared : Set CellId} {before after : Heap}

theorem reaches (tidied : Tidied outside cleared before after) {id further : CellId}
    (chain : after.Reaches id further) : before.Reaches id further :=
  chain.mono fun _ _ edge => tidied.refers edge

theorem parent? (tidied : Tidied outside cleared before after) {id parent : CellId}
    (link : after.parent? id = some parent) : before.parent? id = some parent := by
  obtain ⟨frame, found, link⟩ := Option.bind_eq_some_iff.mp link
  rw [frame?_eq_some_iff] at found
  rcases tidied.cell id with same | gone | ⟨-, original, was, now⟩
  · rw [same] at found
    exact Option.bind_eq_some_iff.mpr ⟨frame, frame?_eq_some_iff.mpr found, link⟩
  · simp [gone] at found
  · rw [now] at found
    cases found
    rw [Frame.parent?_cleared] at link
    exact Option.bind_eq_some_iff.mpr ⟨original, frame?_eq_some_iff.mpr was, link⟩

theorem ordered (tidied : Tidied outside cleared before after) (ordered : before.Ordered) :
    after.Ordered :=
  fun id parent link => ordered id parent (tidied.parent? link)

theorem around_subset (tidied : Tidied outside cleared before after) (ordered : before.Ordered)
    {id : CellId} : after.around id ⊆ before.around id :=
  Heap.around_subset ordered fun _ _ => tidied.parent?

theorem parent?_eq (tidied : Tidied outside cleared before after) {id : CellId}
    (present : after.contains id = true) : after.parent? id = before.parent? id := by
  rcases tidied.cell id with same | gone | ⟨-, original, was, now⟩
  · simp only [Heap.parent?, frame?, same]
  · simp [Heap.contains, gone] at present
  · simp [Heap.parent?, frame?, was, now]

theorem captured_iff (tidied : Tidied outside cleared before after) {id : CellId}
    (present : after.contains id = true) : after.Captured id ↔ before.Captured id := by
  rcases tidied.cell id with same | gone | ⟨-, original, was, now⟩
  · simp only [Captured, frame?, same]
  · simp [Heap.contains, gone] at present
  · simp [Captured, frame?, was, now, Frame.captured_cleared]

theorem nested (tidied : Tidied outside cleared before after) {id : CellId}
    (nested : before.Nested id) (present : after.contains id = true) : after.Nested id := by
  obtain ⟨parent, link⟩ := nested
  exact ⟨parent, (tidied.parent?_eq present).trans link⟩

end Tidied

/-- Some cells are frames inside others, as far as they exist. -/
def NestedFrames (heap : Heap) (ids : List CellId) : Prop :=
  ∀ id ∈ ids, heap.contains id = true → heap.Nested id

theorem NestedFrames.of_tidied {outside : List CellId} {cleared : Set CellId}
    {before after : Heap} {ids : List CellId} (nested : before.NestedFrames ids)
    (tidied : Tidied outside cleared before after) : after.NestedFrames ids :=
  fun id member present => tidied.nested (nested id member (tidied.contains present)) present

theorem NestedFrames.tail {heap : Heap} {first : CellId} {rest : List CellId}
    (nested : heap.NestedFrames (first :: rest)) : heap.NestedFrames rest :=
  fun id member => nested id (List.mem_cons_of_mem first member)

/-- Two heaps hold the same cells among those that lead to a cell. -/
def KnotKept (id : CellId) (before after : Heap) : Prop :=
  ∀ other, before.Reaches other id → after.get? other = before.get? other

namespace KnotKept

variable {outside : List CellId} {cleared : Set CellId} {before middle after : Heap} {id : CellId}

theorem reaches (kept : KnotKept id before after) {other further : CellId}
    (chain : before.Reaches other further) (onward : before.Reaches further id) :
    after.Reaches other further := by
  induction chain using ReflTransGen.head_induction_on with
  | refl => exact .refl
  | @head holder first edge rest ih =>
      have leads : before.Reaches holder id := .head edge (rest.trans onward)
      exact .head ((refers_iff_of_get?_eq (kept holder leads) first).mpr edge) ih

theorem lost (kept : KnotKept id before after) (tidied : Tidied outside cleared before after)
    (lost : before.Lost outside id) : after.Lost outside id := by
  obtain ⟨unreached, joined⟩ := lost_iff.mp lost
  refine lost_iff.mpr ⟨?_, fun other chain => ?_⟩
  · rintro ⟨start, listed, chain⟩
    exact unreached ⟨start, listed, tidied.reaches chain⟩
  · exact kept.reaches (joined other (tidied.reaches chain)) (tidied.reaches chain)

theorem trans (first : KnotKept id before middle) (second : KnotKept id middle after) :
    KnotKept id before after := by
  intro other chain
  rw [second other (first.reaches chain .refl), first other chain]

theorem mem_around (kept : KnotKept id before after)
    (tidied : Tidied outside cleared before after) (ordered : before.Ordered)
    {frame enclosing : CellId} (member : enclosing ∈ before.around frame)
    (path : before.Reaches enclosing id) : enclosing ∈ after.around frame := by
  rw [mem_around_iff ordered] at member
  rw [mem_around_iff (tidied.ordered ordered)]
  -- All frames between the two lead to the kept cell, so their links are unchanged.
  have unchanged : ∀ {inner parent}, before.parent? inner = some parent →
      before.Reaches parent id → after.parent? inner = some parent := by
    intro inner parent link onward
    have leads : before.Reaches inner id := .head (refers_parent link) onward
    simpa only [parent?, frame?, kept inner leads] using link
  induction member using TransGen.head_induction_on with
  | single link => exact .single (unchanged link path)
  | head link rest ih =>
      have onward := reaches_of_mem_around ordered ((mem_around_iff ordered).mpr rest)
      exact .head (unchanged link (onward.trans path)) ih

/-- Which frames are the outermost of a knot does not change while it is kept. -/
theorem outermost_iff (kept : KnotKept id before after)
    (tidied : Tidied outside cleared before after) (ordered : before.Ordered) {frame : CellId} :
    after.Outermost id frame ↔ before.Outermost id frame := by
  constructor
  · rintro ⟨chain, apart⟩
    refine ⟨tidied.reaches chain, fun enclosing member path => ?_⟩
    exact apart enclosing (kept.mem_around tidied ordered member path) (kept.reaches path .refl)
  · rintro ⟨chain, apart⟩
    refine ⟨kept.reaches chain .refl, fun enclosing member path => ?_⟩
    exact apart enclosing (tidied.around_subset ordered member) (tidied.reaches path)

end KnotKept

end Heap

namespace Counted

section Knots

variable {outside : List CellId} {counted : Counted} {id : CellId}

theorem contains_of_reaches {heap : Heap} (present : heap.contains id = true) {other : CellId}
    (chain : heap.Reaches other id) : heap.contains other = true := by
  rcases ReflTransGen.cases_head chain with rfl | ⟨first, edge, -⟩
  · exact present
  · obtain ⟨cell, found⟩ := Heap.get?_isSome_of_refers edge
    simp [Heap.contains, found]

theorem knotKept_turn (exact : counted.Exact outside) (settled : counted.Settled)
    (present : counted.heap.contains id = true) {frame : CellId}
    (inside : frame < counted.heap.size) (apart : ¬counted.heap.Reaches frame id) :
    Heap.KnotKept id counted.heap (counted.turn frame).heap := by
  obtain ⟨-, -, tidied⟩ := turn_spec exact settled inside
  refine tidied.supported {other | counted.heap.Reaches other id} ?_ ?_
  · intro other chain
    rcases exact.referred_of_settled settled (contains_of_reaches present chain) with
      listed | ⟨holder, edge⟩
    · exact Or.inl listed
    · exact Or.inr ⟨holder, .head edge chain, edge⟩
  · intro other chain member
    exact apart ((Heap.reaches_of_mem_graph member.1).trans chain)

/-- The turn of an outermost frame takes all names of a knot; any other turn keeps the knot,
and a frame of it that has its turn is kept too. -/
theorem turn_of_lost (exact : counted.Exact outside) (settled : counted.Settled)
    (ordered : counted.heap.Ordered) (lost : counted.heap.Lost outside id)
    (present : counted.heap.contains id = true) {frame : CellId}
    (nested : counted.heap.Nested frame) (inside : frame < counted.heap.size) :
    (counted.heap.Outermost id frame →
      ∀ other, counted.heap.Reaches other id → (counted.turn frame).heap.Nameless other) ∧
    (¬counted.heap.Outermost id frame →
      Heap.KnotKept id counted.heap (counted.turn frame).heap ∧
        (counted.heap.Reaches frame id → ((counted.hold frame).reclaim frame).1 = 0)) := by
  constructor
  · intro outermost other path
    have adrift := (lost.adrift_iff_outermost ordered nested outermost.1).mpr outermost
    obtain ⟨content, found, -⟩ := Heap.nested_iff.mp nested
    obtain ⟨-, nameless⟩ := turn_of_adrift exact settled adrift (by simp [found])
    refine nameless other (Heap.mem_garbage_of_reaches ordered nested adrift ?_)
    exact path.trans ((Heap.lost_iff.mp lost).2 frame outermost.1)
  · intro inner
    by_cases chain : counted.heap.Reaches frame id
    · have notAdrift : ¬counted.heap.Adrift outside frame := fun adrift =>
        inner ((lost.adrift_iff_outermost ordered nested chain).mp adrift)
      obtain ⟨nothing, same⟩ := turn_of_not_adrift exact settled inside notAdrift
      rw [same]
      exact ⟨fun _ _ => rfl, fun _ => nothing⟩
    · exact ⟨knotKept_turn exact settled present inside chain, fun path => absurd path chain⟩

/-- A collection takes the names of every frame of a knot if one of the outermost frames of
the knot is among those looked at, and else leaves the knot as it is. -/
theorem reclaimEach_of_lost (exact : counted.Exact outside) (settled : counted.Settled)
    (ordered : counted.heap.Ordered) (lost : counted.heap.Lost outside id)
    (present : counted.heap.contains id = true) {ids : List CellId}
    (nested : counted.heap.NestedFrames ids) :
    ((∃ frame ∈ ids, counted.heap.Outermost id frame) →
      ∀ other, counted.heap.Reaches other id →
        (reclaimEach ids counted).2.2.heap.Nameless other) ∧
    ((∀ frame ∈ ids, ¬counted.heap.Outermost id frame) →
      Heap.KnotKept id counted.heap (reclaimEach ids counted).2.2.heap ∧
        ∀ frame ∈ ids, counted.heap.Reaches frame id →
          frame ∈ (reclaimEach ids counted).2.1) := by
  induction ids generalizing counted with
  | nil => simp [reclaimEach, Heap.KnotKept]
  | cons first rest ih =>
      by_cases existing : counted.heap.contains first = true
      · have inside := Heap.lt_size_of_contains existing
        rw [reclaimEach_cons_of_contains rest existing]
        obtain ⟨exactTurn, settledTurn, tidied⟩ := turn_spec exact settled inside
        obtain ⟨taken, spared⟩ := turn_of_lost exact settled ordered lost present
          (nested first List.mem_cons_self existing) inside
        by_cases outermost : counted.heap.Outermost id first
        · obtain ⟨-, -, spares⟩ := reclaimEach_spec exactTurn settledTurn rest
          exact ⟨fun _ other path => Heap.Tidied.nameless spares (taken outermost other path),
            fun none => absurd outermost (none first List.mem_cons_self)⟩
        · obtain ⟨kept, retained⟩ := spared outermost
          have presentTurn : (counted.turn first).heap.contains id = true := by
            simpa [Heap.contains, kept id .refl] using present
          obtain ⟨someOuter, noneOuter⟩ := ih exactTurn settledTurn (tidied.ordered ordered)
            (kept.lost tidied lost) presentTurn (nested.tail.of_tidied tidied)
          constructor
          · rintro ⟨frame, member, outer⟩ other path
            rcases List.mem_cons.mp member with rfl | later
            · exact absurd outer outermost
            · exact someOuter ⟨frame, later, (kept.outermost_iff tidied ordered).mpr outer⟩ other
                (kept.reaches path .refl)
          · intro none
            obtain ⟨keptRest, listed⟩ := noneOuter fun frame member outer =>
              none frame (List.mem_cons_of_mem first member)
                ((kept.outermost_iff tidied ordered).mp outer)
            refine ⟨kept.trans keptRest, fun frame member path => ?_⟩
            rcases List.mem_cons.mp member with rfl | later
            · rw [if_pos (retained path)]
              exact List.mem_cons_self
            · have := listed frame later (kept.reaches path .refl)
              split
              · exact List.mem_cons_of_mem first this
              · exact this
      · have apart : ¬counted.heap.Reaches first id :=
          fun chain => existing (contains_of_reaches present chain)
        rw [reclaimEach_cons_of_not_contains rest (by simpa using existing)]
        obtain ⟨someOuter, noneOuter⟩ := ih exact settled ordered lost present nested.tail
        constructor
        · rintro ⟨frame, member, outer⟩
          rcases List.mem_cons.mp member with rfl | later
          · exact absurd outer.1 apart
          · exact someOuter ⟨frame, later, outer⟩
        · intro none
          obtain ⟨kept, listed⟩ :=
            noneOuter fun frame member => none frame (List.mem_cons_of_mem first member)
          refine ⟨kept, fun frame member path => ?_⟩
          rcases List.mem_cons.mp member with rfl | later
          · exact absurd path apart
          · exact listed frame later path

end Knots

end Counted

end ScriptCore
