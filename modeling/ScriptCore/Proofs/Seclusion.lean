import ScriptCore.Proofs.Typing

/-!
# Secluded frames

A frame that no frame lies in, in which no function was made and that is not kept by name can only
be got at by the calls that hold it.  What happens elsewhere leaves it as it is: an action respects
secluded frames if it changes none but those it is run in, and makes nothing that leads to another.
-/

namespace ScriptCore

open Relation

theorem Cell.link?_eq_none_of_isPlain {cell : Cell} (plain : cell.isPlain = true) :
    cell.link? = none := by
  cases cell <;> simp_all [Cell.isPlain, Cell.link?]

namespace Machine

/-- Nothing leads to a frame but that it is held. -/
structure Secludes (machine : Machine) (hidden : CellId) : Prop where
  isFrame : (machine.heap.frame? hidden).isSome = true
  held : .cell hidden ∈ machine.held
  unlinked : ∀ id cell, machine.heap.get? id = some cell → cell.link? ≠ some hidden
  unkept : ∀ handle ∈ machine.handles, handle.2 ≠ hidden

/-- Secluded frames stay so, with the names they have, except for those at hand. -/
def Respects (near : CellId → Prop) (before after : Machine) : Prop :=
  ∀ hidden, ¬near hidden → before.Secludes hidden →
    after.Secludes hidden ∧ after.heap.get? hidden = before.heap.get? hidden

section Secluding

variable {near : CellId → Prop} {before middle after : Machine} {hidden : CellId}

theorem Secludes.not_refers {machine : Machine} (typed : machine.Typed)
    (secludes : machine.Secludes hidden) (holder : CellId) :
    ¬machine.heap.Refers holder hidden := by
  intro edge
  obtain ⟨cell, found⟩ := Heap.get?_isSome_of_refers edge
  rw [Heap.Refers, Heap.referencesOf_of_get? found] at edge
  -- A value fits no frame, so the reference would have to be a link.
  have unnamed : ∀ value ∈ cell.values, hidden ∉ value.references := by
    intro value member reference
    have none := (typed.cells holder cell found value member).frame?_eq_none reference
    simpa [none] using secludes.isFrame
  have unlinked := secludes.unlinked holder cell found
  by_cases plain : cell.isPlain = true
  · obtain ⟨value, member, reference⟩ := Cell.exists_mem_values plain edge
    exact unnamed value member reference
  · cases cell with
    | function content => exact unlinked (congrArg some (List.mem_singleton.mp edge).symm)
    | frame content =>
        obtain ⟨scope, captured⟩ := content
        cases scope with
        | global => simp [Cell.references, Frame.references] at edge
        | nested parent bindings =>
            rcases List.mem_cons.mp edge with rfl | bound
            · exact unlinked rfl
            · obtain ⟨value, member, reference⟩ := Names.mem_references_iff.mp bound
              exact unnamed value member reference
    | _ => exact plain rfl

theorem Respects.refl (machine : Machine) : machine.Respects near machine :=
  fun _ _ secludes => ⟨secludes, rfl⟩

theorem Respects.trans (first : before.Respects near middle) (second : middle.Respects near after) :
    before.Respects near after := by
  intro hidden apart secludes
  obtain ⟨between, same⟩ := first hidden apart secludes
  obtain ⟨last, again⟩ := second hidden apart between
  exact ⟨last, again.trans same⟩

theorem Respects.widen {wider : CellId → Prop} (includes : ∀ id, near id → wider id)
    (respects : before.Respects near after) : before.Respects wider after :=
  fun hidden apart => respects hidden fun inside => apart (includes hidden inside)

theorem Secludes.isFrame_of_eq (secludes : before.Secludes hidden)
    (same : after.heap.get? hidden = before.heap.get? hidden) :
    (after.heap.frame? hidden).isSome = true := by
  have isFrame := secludes.isFrame
  rw [Heap.frame?_eq_bind] at isFrame ⊢
  rwa [same]

/-- A secluded frame stays so while it is held and nothing that leads to it is made. -/
theorem Secludes.of_links (secludes : before.Secludes hidden)
    (isFrame : (after.heap.frame? hidden).isSome = true) (held : .cell hidden ∈ after.held)
    (links : ∀ id cell, after.heap.get? id = some cell → cell.link? = some hidden →
      ∃ other old, before.heap.get? other = some old ∧ old.link? = some hidden)
    (kept : ∀ handle ∈ after.handles, handle.2 = hidden → handle ∈ before.handles) :
    after.Secludes hidden where
  isFrame := isFrame
  held := held
  unlinked id cell found link := by
    obtain ⟨other, old, was, linked⟩ := links id cell found link
    exact secludes.unlinked other old was linked
  unkept handle listed here := secludes.unkept handle (kept handle listed here) here

theorem Respects.of_heap_eq (heap : after.heap = before.heap)
    (held : before.held ⊆ after.held)
    (kept : ∀ handle ∈ after.handles, near handle.2 ∨ handle ∈ before.handles) :
    before.Respects near after := by
  intro hidden apart secludes
  have same : after.heap.get? hidden = before.heap.get? hidden := by rw [heap]
  refine ⟨secludes.of_links (secludes.isFrame_of_eq same) (held secludes.held) ?_ ?_, same⟩
  · intro id cell found link
    exact ⟨id, cell, heap ▸ found, link⟩
  · intro handle listed here
    exact (kept handle listed).resolve_left fun inside => apart (here ▸ inside)

theorem Respects.with_held (respects : before.Respects near after) {held : List Hold}
    (kept : before.held ⊆ held) : before.Respects near { after with held } := by
  intro hidden apart secludes
  obtain ⟨still, same⟩ := respects hidden apart secludes
  exact ⟨⟨still.isFrame, kept secludes.held, still.unlinked, still.unkept⟩, same⟩

theorem Respects.alloc {cell : Cell}
    (links : ∀ target, cell.link? = some target → near target ∨
      ∃ other old, before.heap.get? other = some old ∧ old.link? = some target) :
    before.Respects near { before with heap := (before.heap.alloc cell).2 } := by
  intro hidden apart secludes
  have inside := Activity.Grows.lt_size_of_frame? secludes.isFrame
  have same : (before.heap.alloc cell).2.get? hidden = before.heap.get? hidden := by
    rw [Heap.get?_alloc, if_neg (Nat.ne_of_lt inside)]
  refine ⟨secludes.of_links (secludes.isFrame_of_eq same) secludes.held ?_
    fun _ listed _ => listed, same⟩
  intro id content found link
  rw [Heap.get?_alloc] at found
  split at found
  · cases found
    exact (links hidden link).resolve_left apart
  · exact ⟨id, content, found, link⟩

theorem Respects.set {id : CellId} {old new : Cell} (found : before.heap.get? id = some old)
    (link : new.link? = old.link?) (inside : old.frame?.isSome = true → near id) :
    before.Respects near { before with heap := before.heap.set id new } := by
  intro hidden apart secludes
  have content : ∀ other, (before.heap.set id new).get? other =
      if other = id then some new else before.heap.get? other := by
    intro other
    simp [Heap.get?_set, Heap.contains, found]
  have elsewhere : hidden ≠ id := by
    rintro rfl
    refine apart (inside ?_)
    simpa [Heap.frame?_eq_bind, found] using secludes.isFrame
  have same : (before.heap.set id new).get? hidden = before.heap.get? hidden := by
    rw [content, if_neg elsewhere]
  refine ⟨secludes.of_links (secludes.isFrame_of_eq same) secludes.held ?_
    fun _ listed _ => listed, same⟩
  intro other stored foundOther linked
  rw [content] at foundOther
  split at foundOther
  · cases foundOther
    exact ⟨id, old, found, link ▸ linked⟩
  · exact ⟨other, stored, foundOther, linked⟩

theorem Respects.capture (typed : before.Typed) {frame : CellId} (inside : near frame) :
    before.Respects near { before with heap := before.heap.capture frame } := by
  intro hidden apart secludes
  have same : (before.heap.capture frame).get? hidden = before.heap.get? hidden := by
    rcases before.heap.get?_captureUpTo (before.heap.size + 1) frame hidden with
      same | ⟨content, -, -, chain⟩
    · exact same
    · rcases ReflTransGen.cases_tail chain with rfl | ⟨holder, -, edge⟩
      · exact absurd inside apart
      · exact absurd edge (secludes.not_refers typed holder)
  refine ⟨secludes.of_links (secludes.isFrame_of_eq same) secludes.held ?_
    fun _ listed _ => listed, same⟩
  intro id cell found link
  rcases before.heap.get?_capture frame id with unchanged | ⟨content, was, now⟩
  · exact ⟨id, cell, unchanged ▸ found, link⟩
  · rw [now] at found
    cases found
    exact ⟨id, _, was, link⟩

/-- Tidying takes the names of no frame that is held. -/
theorem Secludes.of_spares (secludes : before.Secludes hidden)
    (spares : Heap.Spares after.roots before.heap after.heap) (held : .cell hidden ∈ after.held)
    (handles : after.handles = before.handles) :
    after.Secludes hidden ∧ after.heap.get? hidden = before.heap.get? hidden := by
  have root : hidden ∈ after.roots :=
    List.mem_append_right _ (List.mem_flatMap.mpr ⟨_, held, List.mem_singleton_self hidden⟩)
  have same := spares.get? (.of_mem root)
  refine ⟨secludes.of_links (secludes.isFrame_of_eq same) held ?_
    fun handle listed _ => handles ▸ listed, same⟩
  intro id cell found link
  rcases spares.cell id with unchanged | gone | ⟨-, frame, was, now⟩
  · exact ⟨id, cell, unchanged ▸ found, link⟩
  · simp [gone] at found
  · rw [now] at found
    cases found
    exact ⟨id, _, was, by simpa [Cell.link?] using link⟩

theorem Respects.of_spares (spares : Heap.Spares after.roots before.heap after.heap)
    (held : before.held ⊆ after.held) (handles : after.handles = before.handles) :
    before.Respects near after :=
  fun _ _ secludes => secludes.of_spares spares (held secludes.held) handles

end Secluding

end Machine

end ScriptCore
