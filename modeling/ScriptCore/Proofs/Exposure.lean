import ScriptCore.Proofs.Collection

/-!
# Exposed frames

A frame is exposed when every frame around it is reached from outside or refers to nothing but
the frame around itself.  An exposed frame is adrift as soon as it is lost, and the turn of an
exposed frame never makes another exposed frame lost.  So one collection among exposed frames
leaves none of them lost.
-/

namespace ScriptCore

open Relation

namespace Heap

/-- A cell refers to nothing, or is a frame that refers to the frame around it only. -/
def Bare (heap : Heap) (id : CellId) : Prop :=
  ∀ target, heap.Refers id target → heap.parent? id = some target

/-- Every frame around a frame is reached from outside or bare. -/
def Exposed (heap : Heap) (outside : List CellId) (frame : CellId) : Prop :=
  ∀ enclosing ∈ heap.around frame, heap.ReachedFrom outside enclosing ∨ heap.Bare enclosing

theorem Nameless.bare {heap : Heap} {id : CellId} (nested : heap.Nested id)
    (nameless : heap.Nameless id) : heap.Bare id := by
  intro target edge
  obtain ⟨parent, link⟩ := nested
  obtain ⟨frame, found, -⟩ := Option.bind_eq_some_iff.mp link
  exact Option.bind_eq_some_iff.mpr ⟨frame, found, nameless.eq_parent found edge⟩

theorem Bare.of_tidied {outside : List CellId} {cleared : Set CellId} {before after : Heap}
    {id : CellId} (bare : before.Bare id) (tidied : Tidied outside cleared before after) :
    after.Bare id := by
  intro target edge
  obtain ⟨cell, found⟩ := get?_isSome_of_refers edge
  rw [tidied.parent?_eq (by simp [contains, found])]
  exact bare target (tidied.refers edge)

section Exposed

variable {heap : Heap} {outside : List CellId} {root id : CellId}

theorem Exposed.of_spares {before after : Heap} (ordered : before.Ordered)
    (exposed : before.Exposed outside root) (spares : Spares outside before after) :
    after.Exposed outside root := by
  intro enclosing member
  rcases exposed enclosing (Tidied.around_subset spares ordered member) with reached | bare
  · exact Or.inl (spares.reachedFrom reached)
  · exact Or.inr (bare.of_tidied spares)

/-- From the frames around an exposed frame, nothing out of reach can be reached but them. -/
theorem Exposed.mem_around_of_reaches (ordered : heap.Ordered)
    (exposed : heap.Exposed outside root) {enclosing : CellId}
    (member : enclosing ∈ heap.around root) (chain : heap.Reaches enclosing id)
    (unreached : ¬heap.ReachedFrom outside id) : id ∈ heap.around root := by
  induction chain using ReflTransGen.head_induction_on with
  | refl => exact member
  | head edge rest ih =>
      rcases exposed _ member with reached | bare
      · exact absurd ((reached.tail edge).trans rest) unreached
      · exact ih (mem_around_trans ordered member (mem_around_of_parent? ordered (bare _ edge)))

/-- A chain out of the graph around an exposed frame to a cell out of reach leads to a frame
around it. -/
theorem Exposed.mem_around_of_leaving (ordered : heap.Ordered)
    (exposed : heap.Exposed outside root) {start : CellId} (inside : start ∈ heap.graph root)
    (chain : heap.Reaches start id) (left : id ∉ heap.graph root)
    (unreached : ¬heap.ReachedFrom outside id)
    (notTop : ∀ frame, heap.frame? id = some frame → frame.isTop = false) :
    id ∈ heap.around root := by
  induction chain using ReflTransGen.head_induction_on with
  | refl => exact absurd inside left
  | @head holder next edge rest ih =>
      by_cases member : next ∈ heap.graph root
      · exact ih member
      · rcases leaves_graph inside edge member with enclosing | ⟨top, found, isTop⟩
        · exact exposed.mem_around_of_reaches ordered enclosing rest unreached
        · rcases ReflTransGen.cases_head rest with rfl | ⟨further, onward, -⟩
          · simp [notTop top found] at isTop
          · exact absurd onward (not_refers_of_isTop found isTop)

theorem Exposed.adrift_iff_lost (ordered : heap.Ordered) (exposed : heap.Exposed outside root)
    (nested : heap.Nested root) : heap.Adrift outside root ↔ heap.Lost outside root := by
  rw [adrift_iff ordered nested]
  refine ⟨And.left, fun lost => ⟨lost, fun enclosing member chain => ?_⟩⟩
  exact not_mem_around_self ordered (exposed.mem_around_of_reaches ordered member chain
    (lost_iff.mp lost).1)

end Exposed

end Heap

namespace Counted

section Exposure

variable {outside : List CellId} {counted : Counted} {root id : CellId}

theorem not_lost_of_bare (exact : counted.Exact outside) (settled : counted.Settled)
    (ordered : counted.heap.Ordered) (exposed : counted.heap.Exposed outside id)
    (present : counted.heap.contains id = true) (bare : counted.heap.Bare id) :
    ¬counted.heap.Lost outside id := by
  intro lost
  obtain ⟨unreached, joined⟩ := Heap.lost_iff.mp lost
  rcases exact.referred_of_settled settled present with listed | ⟨holder, edge⟩
  · exact unreached (.of_mem listed)
  -- Whatever refers to the frame can be reached from it, which leaves the frames around it.
  · have noParent : ∀ parent, counted.heap.parent? id = some parent →
        ¬counted.heap.Reaches parent id := by
      intro parent link chain
      exact Heap.not_mem_around_self ordered (exposed.mem_around_of_reaches ordered
        (Heap.mem_around_of_parent? ordered link) chain unreached)
    rcases ReflTransGen.cases_head (joined holder (.single edge)) with rfl | ⟨next, first, rest⟩
    · exact noParent id (bare id edge) .refl
    · exact noParent next (bare next first) (rest.tail edge)

/-- The cells that lead to a cell or that it leads to stay as they are in the turn of a frame
that does not lead to it and whose graph does not hold it. -/
theorem kept_turn_of_not_reaches (exact : counted.Exact outside) (settled : counted.Settled)
    (present : counted.heap.contains id = true) (inside : root < counted.heap.size)
    (apart : ¬counted.heap.Reaches root id) {other : CellId}
    (onward : counted.heap.Reaches id other) :
    (counted.turn root).heap.get? other = counted.heap.get? other := by
  obtain ⟨-, -, tidied⟩ := turn_spec exact settled inside
  refine tidied.supported
    {other | counted.heap.Reaches other id ∨ counted.heap.Reaches id other} ?_ ?_ other
    (Or.inr onward)
  · rintro other (chain | chain)
    · rcases exact.referred_of_settled settled (contains_of_reaches present chain) with
        listed | ⟨holder, edge⟩
      · exact Or.inl listed
      · exact Or.inr ⟨holder, Or.inl (.head edge chain), edge⟩
    · rcases ReflTransGen.cases_tail chain with rfl | ⟨holder, before, edge⟩
      · rcases exact.referred_of_settled settled present with listed | ⟨holder, edge⟩
        · exact Or.inl listed
        · exact Or.inr ⟨holder, Or.inl (.single edge), edge⟩
      · exact Or.inr ⟨holder, Or.inr before, edge⟩
  · rintro other (chain | chain) member
    · exact apart ((Heap.reaches_of_mem_graph member.1).trans chain)
    · rcases ReflTransGen.cases_head chain with rfl | ⟨first, edge, rest⟩
      · exact apart (Heap.reaches_of_mem_graph member.1)
      · refine member.2 ⟨first, Or.inr ⟨id, fun inGraph => ?_, edge⟩, rest⟩
        exact apart (Heap.reaches_of_mem_graph inGraph)

theorem reaches_turn (exact : counted.Exact outside) (settled : counted.Settled)
    (inside : root < counted.heap.size) (apart : ¬counted.heap.Reaches root id) {other : CellId}
    (onward : counted.heap.Reaches id other) : (counted.turn root).heap.Reaches id other := by
  induction onward with
  | refl => exact .refl
  | @tail holder other path edge ih =>
      have present : counted.heap.contains id = true := by
        obtain ⟨cell, found⟩ := Heap.get?_isSome_of_refers edge
        exact contains_of_reaches (by simp [Heap.contains, found]) path
      have same := kept_turn_of_not_reaches exact settled present inside apart path
      exact ih.tail ((Heap.refers_iff_of_get?_eq same other).mpr edge)

/-- The turn of an exposed frame makes no other exposed frame lost. -/
theorem lost_of_lost_turn (exact : counted.Exact outside) (settled : counted.Settled)
    (ordered : counted.heap.Ordered) (inside : root < counted.heap.size)
    (nestedRoot : counted.heap.Nested root) (exposedRoot : counted.heap.Exposed outside root)
    (nested : counted.heap.Nested id) (exposed : counted.heap.Exposed outside id)
    (present : (counted.turn root).heap.contains id = true)
    (lost : (counted.turn root).heap.Lost outside id) : counted.heap.Lost outside id := by
  obtain ⟨exactTurn, settledTurn, tidied⟩ := turn_spec exact settled inside
  have spares := spares_turn exact settled inside
  obtain ⟨unreachedTurn, joinedTurn⟩ := Heap.lost_iff.mp lost
  have unreached : ¬counted.heap.ReachedFrom outside id :=
    fun reached => unreachedTurn (spares.reachedFrom reached)
  have notBare : ¬(counted.turn root).heap.Bare id := fun bare =>
    not_lost_of_bare exactTurn settledTurn (tidied.ordered ordered)
      (exposed.of_spares ordered spares) present bare lost
  have notAround : id ∉ counted.heap.around root := by
    intro member
    rcases exposedRoot id member with reached | bare
    · exact unreached reached
    · exact notBare (bare.of_tidied tidied)
  by_cases adrift : counted.heap.Adrift outside root
  swap
  · rwa [(turn_of_not_adrift exact settled inside adrift).2] at lost
  by_cases chain : counted.heap.Reaches root id
  swap
  -- Nothing that leads to the frame is touched.
  · have kept := knotKept_turn exact settled (tidied.contains present) inside chain
    refine Heap.lost_iff.mpr ⟨unreached, fun other path => ?_⟩
    exact tidied.reaches (joinedTurn other (kept.reaches path .refl))
  exfalso
  have inGraph : id ∈ counted.heap.graph root := by
    by_contra left
    obtain ⟨frame, found, notTop⟩ := Heap.nested_iff.mp nested
    refine notAround (exposedRoot.mem_around_of_leaving ordered adrift.1 chain left unreached ?_)
    intro other again
    rw [found] at again
    cases again
    exact notTop
  by_cases past : counted.heap.ReachedPast outside (counted.heap.graph root) id
  · -- A cell outside the graph leads to the frame, and neither it nor the way is touched.
    obtain ⟨first, listed | ⟨holder, notMember, edge⟩, rest⟩ := past
    · exact unreached ⟨first, listed, rest⟩
    · have leads : counted.heap.Reaches holder id := .head edge rest
      have apart : ¬counted.heap.Reaches root holder := by
        intro toHolder
        have holderUnreached : ¬counted.heap.ReachedFrom outside holder :=
          fun reached => unreached (reached.trans leads)
        have around := exposedRoot.mem_around_of_leaving ordered adrift.1 toHolder notMember
          holderUnreached fun frame found => by
            by_contra top
            exact Heap.not_refers_of_isTop found (by simpa using top) edge
        exact notAround (exposedRoot.mem_around_of_reaches ordered around leads unreached)
      have stays := reaches_turn exact settled inside apart leads
      exact apart (chain.trans (tidied.reaches (joinedTurn holder stays)))
  · obtain ⟨frame, found, -⟩ := Heap.nested_iff.mp nestedRoot
    obtain ⟨-, nameless⟩ := turn_of_adrift exact settled adrift (by simp [found])
    exact notBare ((nameless id ⟨inGraph, past⟩).bare (tidied.nested nested present))

theorem lost_of_lost_reclaimEach (exact : counted.Exact outside) (settled : counted.Settled)
    (ordered : counted.heap.Ordered) {ids : List CellId}
    (nestedIds : counted.heap.NestedFrames ids)
    (exposedIds : ∀ frame ∈ ids, counted.heap.Exposed outside frame)
    (nested : counted.heap.Nested id) (exposed : counted.heap.Exposed outside id)
    (present : (reclaimEach ids counted).2.2.heap.contains id = true)
    (lost : (reclaimEach ids counted).2.2.heap.Lost outside id) :
    counted.heap.Lost outside id := by
  induction ids generalizing counted with
  | nil => exact lost
  | cons first rest ih =>
      by_cases existing : counted.heap.contains first = true
      · rw [reclaimEach_cons_of_contains rest existing] at present lost
        have inside := Heap.lt_size_of_contains existing
        obtain ⟨exactTurn, settledTurn, tidied⟩ := turn_spec exact settled inside
        obtain ⟨-, -, sparesRest⟩ := reclaimEach_spec exactTurn settledTurn rest
        have spares := spares_turn exact settled inside
        have presentTurn := Heap.Tidied.contains sparesRest present
        refine lost_of_lost_turn exact settled ordered inside
          (nestedIds first List.mem_cons_self existing) (exposedIds first List.mem_cons_self)
          nested exposed presentTurn ?_
        refine ih exactTurn settledTurn (tidied.ordered ordered)
          (nestedIds.tail.of_tidied tidied) (fun frame member => ?_)
          (tidied.nested nested presentTurn) (exposed.of_spares ordered spares) present lost
        exact (exposedIds frame (List.mem_cons_of_mem first member)).of_spares ordered spares
      · rw [reclaimEach_cons_of_not_contains rest (by simpa using existing)] at present lost
        exact ih exact settled ordered nestedIds.tail
          (fun frame member => exposedIds frame (List.mem_cons_of_mem first member))
          nested exposed present lost

/-- After a collection among exposed frames, none of those that stay listed is lost. -/
theorem not_lost_of_kept (exact : counted.Exact outside) (settled : counted.Settled)
    (ordered : counted.heap.Ordered) {ids : List CellId}
    (nestedIds : counted.heap.NestedFrames ids)
    (exposedIds : ∀ frame ∈ ids, counted.heap.Exposed outside frame)
    (kept : id ∈ (reclaimEach ids counted).2.1)
    (present : (reclaimEach ids counted).2.2.heap.contains id = true) :
    ¬(reclaimEach ids counted).2.2.heap.Lost outside id := by
  induction ids generalizing counted with
  | nil => simp [reclaimEach] at kept
  | cons first rest ih =>
      by_cases existing : counted.heap.contains first = true
      · rw [reclaimEach_cons_of_contains rest existing] at kept present ⊢
        have inside := Heap.lt_size_of_contains existing
        have nestedFirst := nestedIds first List.mem_cons_self existing
        have exposedFirst := exposedIds first List.mem_cons_self
        obtain ⟨exactTurn, settledTurn, tidied⟩ := turn_spec exact settled inside
        have spares := spares_turn exact settled inside
        have exposedRest : ∀ frame ∈ rest, (counted.turn first).heap.Exposed outside frame :=
          fun frame member =>
            (exposedIds frame (List.mem_cons_of_mem first member)).of_spares ordered spares
        have later : id ∈ (reclaimEach rest (counted.turn first)).2.1 →
            ¬(reclaimEach rest (counted.turn first)).2.2.heap.Lost outside id :=
          fun keptRest => ih exactTurn settledTurn (tidied.ordered ordered)
            (nestedIds.tail.of_tidied tidied) exposedRest keptRest present
        by_cases nothing : ((counted.hold first).reclaim first).1 = 0
        · rw [if_pos nothing] at kept
          rcases List.mem_cons.mp kept with rfl | keptRest
          · have notAdrift : ¬counted.heap.Adrift outside id := by
              intro adrift
              have := (turn_pos_of_adrift exact settled nestedFirst adrift).1
              omega
            have same := (turn_of_not_adrift exact settled inside notAdrift).2
            intro lost
            refine notAdrift ((exposedFirst.adrift_iff_lost ordered nestedFirst).mpr ?_)
            refine lost_of_lost_reclaimEach exact settled ordered nestedIds.tail
              (fun frame member => exposedIds frame (List.mem_cons_of_mem id member))
              nestedFirst exposedFirst ?_ ?_
            · rwa [same] at present
            · rwa [same] at lost
          · exact later keptRest
        · rw [if_neg nothing] at kept
          exact later kept
      · rw [reclaimEach_cons_of_not_contains rest (by simpa using existing)] at kept present ⊢
        exact ih exact settled ordered nestedIds.tail
          (fun frame member => exposedIds frame (List.mem_cons_of_mem first member)) kept present

end Exposure

end Counted

end ScriptCore
