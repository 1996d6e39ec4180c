import Mathlib.Data.Set.Basic
import ScriptCore.Machine.Lifetime
import ScriptCore.Proofs.Reachability

/-!
# Exact counts

A counted heap is exact for a list of outside references when its census says of every cell
how often it is listed there and held by cells.  Freeing, replacing, holding and dropping keep
counts exact, and together they leave no cell that nothing refers to.

What counting may do to a heap is said once, by `Heap.Tidied`: cells may go, some frames may
lose their names, and any group of cells whose members are all referred to from outside or from
within the group stays as it is.
-/

namespace ScriptCore

namespace Census

@[simp]
theorem size_add (census : Census) (id : CellId) :
    (census.add id).counts.size = census.counts.size := by
  simp [add]

@[simp]
theorem size_remove (census : Census) (id : CellId) :
    (census.remove id).counts.size = census.counts.size := by
  simp [remove]

@[simp]
theorem size_addAll (census : Census) (references : List CellId) :
    (census.addAll references).counts.size = census.counts.size := by
  unfold addAll
  induction references generalizing census with
  | nil => rfl
  | cons first rest ih => rw [List.foldl_cons, ih, size_add]

@[simp]
theorem size_removeAll (census : Census) (references : List CellId) :
    (census.removeAll references).counts.size = census.counts.size := by
  unfold removeAll
  induction references generalizing census with
  | nil => rfl
  | cons first rest ih => rw [List.foldl_cons, ih, size_remove]

theorem count_addAll (census : Census) (references : List CellId) {id : CellId}
    (inside : id < census.counts.size) :
    (census.addAll references).count id = census.count id + references.count id := by
  unfold addAll
  induction references generalizing census with
  | nil => simp
  | cons first rest ih =>
      rw [List.foldl_cons, ih (census.add first) (by simpa using inside), List.count_cons]
      by_cases same : id = first
      · subst same
        rw [census.count_add inside]
        simp only [if_true, beq_self_eq_true]
        omega
      · have unequal : first ≠ id := fun equal => same equal.symm
        simp [add, count, unequal, Array.getElem?_modify]

theorem count_removeAll (census : Census) (references : List CellId) (id : CellId) :
    (census.removeAll references).count id = census.count id - references.count id := by
  unfold removeAll
  induction references generalizing census with
  | nil => simp
  | cons first rest ih =>
      rw [List.foldl_cons, ih (census.remove first), count_remove, List.count_cons]
      by_cases same : id = first
      · simp only [same, if_true, beq_self_eq_true]
        omega
      · have unequal : first ≠ id := fun equal => same equal.symm
        simp [same, unequal]

theorem count_eq_zero_of_size_le (census : Census) {id : CellId}
    (outside : census.counts.size ≤ id) : census.count id = 0 := by
  simp [count, outside]

end Census

/-- Setting one item exchanges what it gave for what the new one gives. -/
theorem count_flatMap_set {α : Type*} (give : α → List CellId) {items : List α} {place : Nat}
    {old : α} (found : items[place]? = some old) (new : α) (id : CellId) :
    ((items.set place new).flatMap give).count id + (give old).count id =
      (items.flatMap give).count id + (give new).count id := by
  induction items generalizing place with
  | nil => simp at found
  | cons first rest ih =>
      cases place with
      | zero =>
          simp only [List.getElem?_cons_zero, Option.some.injEq] at found
          subst found
          simp only [List.set_cons_zero, List.flatMap_cons, List.count_append]
          omega
      | succ place =>
          have := ih (by simpa using found)
          simp only [List.set_cons_succ, List.flatMap_cons, List.count_append]
          omega

namespace Heap

theorem lt_size_of_contains {heap : Heap} {id : CellId} (present : heap.contains id = true) :
    id < heap.size := by
  obtain ⟨cell, found⟩ := Option.isSome_iff_exists.mp present
  exact lt_size_of_get? found

theorem referencesOf_of_get? {heap : Heap} {id : CellId} {cell : Cell}
    (found : heap.get? id = some cell) : heap.referencesOf id = cell.references := by
  simp [referencesOf, found, Cell.referencesOf?]

theorem referencesOf_of_entry {heap : Heap} {id : CellId} {entry : Option Cell}
    (found : heap.cells.toList[id]? = some entry) :
    heap.referencesOf id = Cell.referencesOf? entry := by
  rw [Array.getElem?_toList] at found
  simp [referencesOf, get?, found]

theorem exists_entry (heap : Heap) {id : CellId} (inside : id < heap.size) :
    ∃ entry, heap.cells.toList[id]? = some entry := by
  have listed : id < heap.cells.toList.length := by simpa [size] using inside
  exact ⟨_, List.getElem?_eq_getElem listed⟩

theorem referencesOf_eq_nil_of_size_le (heap : Heap) {id : CellId} (outside : heap.size ≤ id) :
    heap.referencesOf id = [] := by
  have outside' : heap.cells.size ≤ id := outside
  simp [referencesOf, get?, outside', Cell.referencesOf?]

@[simp]
theorem contains_set (heap : Heap) (id : CellId) (cell : Cell) (other : CellId) :
    (heap.set id cell).contains other = heap.contains other := by
  by_cases replaced : other = id ∧ heap.contains id = true
  · obtain ⟨rfl, present⟩ := replaced
    have now : (heap.set other cell).get? other = some cell := by
      simp [get?_set, present]
    rw [present, contains, now, Option.isSome_some]
  · have same : (heap.set id cell).get? other = heap.get? other := by
      rw [get?_set, if_neg replaced]
    rw [contains, same, contains]

theorem mem_references_iff (heap : Heap) (id : CellId) :
    id ∈ heap.references ↔ ∃ holder, heap.Refers holder id := by
  simp only [references, List.mem_flatMap, Refers]
  constructor
  · rintro ⟨entry, listed, member⟩
    obtain ⟨holder, found⟩ := List.mem_iff_getElem?.mp listed
    exact ⟨holder, referencesOf_of_entry found ▸ member⟩
  · rintro ⟨holder, member⟩
    by_cases inside : holder < heap.size
    · obtain ⟨entry, found⟩ := heap.exists_entry inside
      rw [referencesOf_of_entry found] at member
      exact ⟨entry, List.mem_of_getElem? found, member⟩
    · rw [heap.referencesOf_eq_nil_of_size_le (Nat.le_of_not_lt inside)] at member
      simp at member

theorem count_references_erase (heap : Heap) (id other : CellId) :
    (heap.erase id).references.count other + (heap.referencesOf id).count other =
      heap.references.count other := by
  by_cases inside : id < heap.size
  · obtain ⟨entry, found⟩ := heap.exists_entry inside
    have exchange := count_flatMap_set Cell.referencesOf? found none other
    rw [referencesOf_of_entry found]
    simpa [references, erase, Cell.referencesOf?] using exchange
  · have beyond := Nat.le_of_not_lt inside
    have same : heap.erase id = heap := by
      simp only [erase, Array.setIfInBounds_eq_of_size_le beyond]
    rw [same, heap.referencesOf_eq_nil_of_size_le beyond]
    simp

theorem count_references_set {heap : Heap} {id : CellId} (present : heap.contains id = true)
    (cell : Cell) (other : CellId) :
    (heap.set id cell).references.count other + (heap.referencesOf id).count other =
      heap.references.count other + cell.references.count other := by
  obtain ⟨content, stored⟩ := Option.isSome_iff_exists.mp present
  obtain ⟨entry, found⟩ := heap.exists_entry (lt_size_of_get? stored)
  have exchange := count_flatMap_set Cell.referencesOf? found (some cell) other
  rw [referencesOf_of_entry found]
  simpa [references, set, present, Cell.referencesOf?] using exchange

theorem count_census (heap : Heap) (outside : List CellId) {id : CellId}
    (inside : id < heap.size) :
    (heap.census outside).count id = (outside ++ heap.references).count id := by
  have folded : ∀ (cells : List (Option Cell)) (census : Census),
      id < census.counts.size →
      (cells.foldl (fun census cell => census.addAll (Cell.referencesOf? cell)) census).count id =
        census.count id + (cells.flatMap Cell.referencesOf?).count id := by
    intro cells
    induction cells with
    | nil => simp
    | cons first rest ih =>
        intro census fits
        rw [List.foldl_cons, ih _ (by simpa using fits), Census.count_addAll _ _ fits,
          List.flatMap_cons, List.count_append]
        omega
  have fits : id < (Census.empty heap.size).counts.size := by
    simpa [Census.empty] using inside
  rw [census, ← Array.foldl_toList, folded _ _ (by simpa using fits),
    Census.count_addAll _ _ fits, Census.count_empty, List.count_append, references]
  omega

theorem size_census (heap : Heap) (outside : List CellId) :
    (heap.census outside).counts.size = heap.size := by
  have folded : ∀ (cells : List (Option Cell)) (census : Census),
      (cells.foldl (fun census cell => census.addAll (Cell.referencesOf? cell))
        census).counts.size = census.counts.size := by
    intro cells
    induction cells with
    | nil => simp
    | cons first rest ih =>
        intro census
        rw [List.foldl_cons, ih, Census.size_addAll]
  rw [census, ← Array.foldl_toList, folded, Census.size_addAll]
  simp [Census.empty]

/-- Every member of a group is listed outside, or a member of the group refers to it. -/
def Supported (heap : Heap) (outside : List CellId) (group : Set CellId) : Prop :=
  ∀ id ∈ group, id ∈ outside ∨ ∃ holder ∈ group, heap.Refers holder id

/-- What freeing and clearing may do to a heap: a cell stays as it is, goes, or is a frame of
`cleared` that loses its names; what is still referred to does not go; and a supported group
without a frame of `cleared` stays whole. -/
structure Tidied (outside : List CellId) (cleared : Set CellId) (before after : Heap) :
    Prop where
  size_eq : after.size = before.size
  cell : ∀ id, after.get? id = before.get? id ∨ after.get? id = none ∨
    id ∈ cleared ∧ ∃ frame, before.get? id = some (.frame frame) ∧
      after.get? id = some (.frame frame.cleared)
  referred : ∀ id, (id ∈ outside ∨ ∃ holder, after.Refers holder id) →
    before.contains id = true → after.contains id = true
  supported : ∀ group : Set CellId, before.Supported outside group →
    (∀ id ∈ group, id ∉ cleared) → ∀ id ∈ group, after.get? id = before.get? id

end Heap

namespace Frame

@[simp]
theorem cleared_cleared (frame : Frame) : frame.cleared.cleared = frame.cleared := by
  obtain ⟨scope, captured⟩ := frame
  cases scope <;> rfl

@[simp]
theorem parent?_cleared (frame : Frame) : frame.cleared.parent? = frame.parent? := by
  obtain ⟨scope, captured⟩ := frame
  cases scope <;> rfl

@[simp]
theorem captured_cleared (frame : Frame) : frame.cleared.captured = frame.captured := by
  obtain ⟨scope, captured⟩ := frame
  cases scope <;> rfl

theorem references_cleared (frame : Frame) :
    frame.cleared.references = frame.parent?.toList := by
  obtain ⟨scope, captured⟩ := frame
  cases scope <;> rfl

theorem parent?_toList_subset (frame : Frame) : frame.parent?.toList ⊆ frame.references := by
  obtain ⟨scope, captured⟩ := frame
  cases scope <;> simp [parent?, references]

end Frame

namespace Heap.Tidied

variable {outside : List CellId} {cleared more : Set CellId} {before middle after : Heap}

theorem refl (outside : List CellId) (cleared : Set CellId) (heap : Heap) :
    Tidied outside cleared heap heap where
  size_eq := rfl
  cell _ := Or.inl rfl
  referred _ _ present := present
  supported _ _ _ _ _ := rfl

theorem refers (tidied : Tidied outside cleared before after) {holder id : CellId}
    (edge : after.Refers holder id) : before.Refers holder id := by
  rcases tidied.cell holder with same | gone | ⟨-, frame, was, now⟩
  · exact (Heap.refers_iff_of_get?_eq same id).mp edge
  · simp [Heap.Refers, Heap.referencesOf, gone, Cell.referencesOf?] at edge
  · rw [Heap.Refers, Heap.referencesOf_of_get? now] at edge
    rw [Heap.Refers, Heap.referencesOf_of_get? was]
    exact frame.parent?_toList_subset (frame.references_cleared ▸ edge)

theorem contains (tidied : Tidied outside cleared before after) {id : CellId}
    (present : after.contains id = true) : before.contains id = true := by
  rcases tidied.cell id with same | gone | ⟨-, frame, was, -⟩
  · simpa [Heap.contains, same] using present
  · simp [Heap.contains, gone] at present
  · simp [Heap.contains, was]

theorem mono (tidied : Tidied outside cleared before after) (subset : cleared ⊆ more) :
    Tidied outside more before after where
  size_eq := tidied.size_eq
  cell id := by
    rcases tidied.cell id with same | gone | ⟨member, emptied⟩
    · exact Or.inl same
    · exact Or.inr (Or.inl gone)
    · exact Or.inr (Or.inr ⟨subset member, emptied⟩)
  referred := tidied.referred
  supported group holds apart :=
    tidied.supported group holds fun id member inCleared => apart id member (subset inCleared)

/-- With fewer references outside, fewer groups are supported. -/
theorem of_more_outside {further : List CellId} (tidied : Tidied further cleared before after)
    (subset : outside ⊆ further) : Tidied outside cleared before after where
  size_eq := tidied.size_eq
  cell := tidied.cell
  referred id held := tidied.referred id (held.imp_left fun listed => subset listed)
  supported group holds apart := by
    refine tidied.supported group (fun id member => ?_) apart
    exact (holds id member).imp_left fun listed => subset listed

theorem trans (first : Tidied outside cleared before middle)
    (second : Tidied outside more middle after) :
    Tidied outside (cleared ∪ more) before after where
  size_eq := second.size_eq.trans first.size_eq
  cell id := by
    rcases second.cell id with same | gone | ⟨inMore, frame, was, now⟩
    · rw [same]
      rcases first.cell id with sameBefore | gone | ⟨inCleared, emptied⟩
      · exact Or.inl sameBefore
      · exact Or.inr (Or.inl gone)
      · exact Or.inr (Or.inr ⟨Or.inl inCleared, emptied⟩)
    · exact Or.inr (Or.inl gone)
    · rcases first.cell id with sameBefore | gone | ⟨-, original, wasBefore, cleared⟩
      · exact Or.inr (Or.inr ⟨Or.inr inMore, frame, sameBefore ▸ was, now⟩)
      · simp [gone] at was
      · rw [cleared] at was
        cases was
        rw [Frame.cleared_cleared] at now
        exact Or.inr (Or.inr ⟨Or.inr inMore, original, wasBefore, now⟩)
  referred id held present := by
    refine second.referred id held (first.referred id ?_ present)
    exact held.imp_right fun ⟨holder, edge⟩ => ⟨holder, second.refers edge⟩
  supported group holds apart id member := by
    have inMiddle : ∀ id ∈ group, middle.get? id = before.get? id :=
      first.supported group holds fun id member inCleared => apart id member (Or.inl inCleared)
    have holdsInMiddle : middle.Supported outside group := by
      intro id member
      rcases holds id member with listed | ⟨holder, inGroup, edge⟩
      · exact Or.inl listed
      · exact Or.inr ⟨holder, inGroup,
          (Heap.refers_iff_of_get?_eq (inMiddle holder inGroup) id).mpr edge⟩
    have inAfter := second.supported group holdsInMiddle
      (fun id member inMore => apart id member (Or.inr inMore)) id member
    rw [inAfter, inMiddle id member]

theorem get?_of_reachedFrom (tidied : Tidied outside cleared before after)
    (apart : ∀ id, before.ReachedFrom outside id → id ∉ cleared) {id : CellId}
    (reached : before.ReachedFrom outside id) : after.get? id = before.get? id := by
  refine tidied.supported {id | before.ReachedFrom outside id} ?_ apart id reached
  intro id reached
  rcases reached.cases_last with listed | ⟨holder, before, edge⟩
  · exact Or.inl listed
  · exact Or.inr ⟨holder, before, edge⟩

end Heap.Tidied

namespace Counted

/-- The census counts the references listed outside and those held by cells, and every one
of them is to a cell that was made. -/
structure Exact (outside : List CellId) (counted : Counted) : Prop where
  sized : counted.census.counts.size = counted.heap.size
  inside : ∀ id ∈ outside ++ counted.heap.references, id < counted.heap.size
  count_eq : ∀ id, counted.count id = (outside ++ counted.heap.references).count id

/-- No cell exists that nothing refers to. -/
def Settled (counted : Counted) : Prop :=
  ∀ id, counted.isUnreferenced id = false

namespace Exact

variable {outside : List CellId} {counted : Counted}

theorem refers_inside (exact : counted.Exact outside) {holder id : CellId}
    (edge : counted.heap.Refers holder id) : id < counted.heap.size := by
  apply exact.inside id
  apply List.mem_append_right
  exact (counted.heap.mem_references_iff id).mpr ⟨holder, edge⟩

theorem outside_inside (exact : counted.Exact outside) {id : CellId}
    (listed : id ∈ outside) : id < counted.heap.size :=
  exact.inside id (List.mem_append_left _ listed)

theorem count_eq_zero_iff (exact : counted.Exact outside) (id : CellId) :
    counted.count id = 0 ↔ id ∉ outside ∧ ∀ holder, ¬counted.heap.Refers holder id := by
  rw [exact.count_eq, List.count_eq_zero, List.mem_append, not_or,
    counted.heap.mem_references_iff, not_exists]

theorem isUnreferenced_iff (exact : counted.Exact outside) (id : CellId) :
    counted.isUnreferenced id = true ↔
      counted.heap.contains id = true ∧ id ∉ outside ∧
        ∀ holder, ¬counted.heap.Refers holder id := by
  rw [← exact.count_eq_zero_iff id]
  simp [isUnreferenced]

theorem referred_of_settled (exact : counted.Exact outside) (settled : counted.Settled)
    {id : CellId} (present : counted.heap.contains id = true) :
    id ∈ outside ∨ ∃ holder, counted.heap.Refers holder id := by
  by_contra neither
  rw [not_or, not_exists] at neither
  have := (exact.isUnreferenced_iff id).mpr ⟨present, neither⟩
  rw [settled id] at this
  contradiction

/-- Fewer references keep counts exact, when the census loses the same ones. -/
theorem of_removed (exact : counted.Exact outside) {heap : Heap} {lost : List CellId}
    {further : List CellId} (size_eq : heap.size = counted.heap.size)
    (exchange : ∀ id, (further ++ heap.references).count id + lost.count id =
      (outside ++ counted.heap.references).count id) :
    Exact further { heap, census := counted.census.removeAll lost } where
  sized := by simpa [size_eq] using exact.sized
  inside id member := by
    have positive : 0 < (further ++ heap.references).count id := List.count_pos_iff.mpr member
    have listed : 0 < (outside ++ counted.heap.references).count id := by
      have := exchange id
      omega
    rw [size_eq]
    exact exact.inside id (List.count_pos_iff.mp listed)
  count_eq id := by
    have := exchange id
    have := exact.count_eq id
    simp only [count, Census.count_removeAll] at *
    omega

theorem erase (exact : counted.Exact outside) (id : CellId) :
    (counted.erase id).Exact outside := by
  refine exact.of_removed (by simp) fun other => ?_
  have := counted.heap.count_references_erase id other
  simp only [List.count_append] at *
  omega

end Exact

section Freeing

variable {outside : List CellId} {counted : Counted}

theorem tidied_erase (exact : counted.Exact outside) {id : CellId}
    (unreferenced : counted.isUnreferenced id = true) :
    counted.heap.Tidied outside ∅ (counted.erase id).heap where
  size_eq := by simp [erase]
  cell other := by
    rw [erase, Heap.get?_erase]
    by_cases same : other = id
    · exact Or.inr (Or.inl (if_pos same))
    · exact Or.inl (if_neg same)
  referred other held present := by
    obtain ⟨-, notListed, notReferred⟩ := (exact.isUnreferenced_iff id).mp unreferenced
    have different : other ≠ id := by
      rintro rfl
      rcases held with listed | ⟨holder, edge⟩
      · exact notListed listed
      · by_cases self : holder = other
        · subst self
          simp [erase, Heap.Refers, Heap.referencesOf, Heap.get?_erase,
            Cell.referencesOf?] at edge
        · have same : (counted.erase other).heap.get? holder = counted.heap.get? holder := by
            rw [erase, Heap.get?_erase, if_neg self]
          exact notReferred holder ((Heap.refers_iff_of_get?_eq same other).mp edge)
    simpa [erase, Heap.contains, Heap.get?_erase, different] using present
  supported group holds _ other member := by
    obtain ⟨-, notListed, notReferred⟩ := (exact.isUnreferenced_iff id).mp unreferenced
    have different : other ≠ id := by
      rintro rfl
      rcases holds other member with listed | ⟨holder, -, edge⟩
      · exact notListed listed
      · exact notReferred holder edge
    rw [erase, Heap.get?_erase, if_neg different]

theorem isUnreferenced_of_dropWhile {pending rest : List CellId} {id : CellId}
    (found : (pending.dropWhile fun id => !counted.isUnreferenced id) = id :: rest) :
    counted.isUnreferenced id = true := by
  simpa [found] using List.head?_dropWhile_not (fun id => !counted.isUnreferenced id) pending

theorem free_spec (exact : counted.Exact outside) (limit : Nat) (pending : List CellId) :
    (counted.free limit pending).Exact outside ∧
      counted.heap.Tidied outside ∅ (counted.free limit pending).heap := by
  induction limit generalizing counted pending with
  | zero => exact ⟨exact, .refl outside ∅ counted.heap⟩
  | succ limit ih =>
      unfold free
      cases found : pending.dropWhile fun id => !counted.isUnreferenced id with
      | nil => exact ⟨exact, .refl outside ∅ counted.heap⟩
      | cons id rest =>
          obtain ⟨exactAfter, tidied⟩ :=
            ih (exact.erase id) (counted.heap.referencesOf id ++ rest)
          refine ⟨exactAfter, ?_⟩
          simpa using (tidied_erase exact (isUnreferenced_of_dropWhile found)).trans tidied

end Freeing

end Counted

namespace Heap

/-- The number of cells that exist. -/
def population (heap : Heap) : Nat :=
  heap.cells.toList.countP Option.isSome

theorem population_le_size (heap : Heap) : heap.population ≤ heap.size := by
  simpa [population, size] using
    List.countP_le_length (p := Option.isSome) (l := heap.cells.toList)

theorem not_contains_of_population_eq_zero {heap : Heap} (empty : heap.population = 0)
    (id : CellId) : heap.contains id = false := by
  by_contra present
  obtain ⟨cell, found⟩ := Option.isSome_iff_exists.mp (Bool.not_eq_false _ ▸ present)
  obtain ⟨entry, listed⟩ := heap.exists_entry (lt_size_of_get? found)
  have isSome : entry.isSome = true := by
    rw [Array.getElem?_toList] at listed
    simp only [get?, listed, Option.join_some] at found
    simp [found]
  exact List.countP_eq_zero.mp empty entry (List.mem_of_getElem? listed) isSome

theorem population_erase {heap : Heap} {id : CellId} (present : heap.contains id = true) :
    (heap.erase id).population + 1 = heap.population := by
  obtain ⟨cell, found⟩ := Option.isSome_iff_exists.mp present
  have inside : id < heap.cells.toList.length := by
    simpa [size] using lt_size_of_get? found
  have isSome : heap.cells.toList[id].isSome = true := by
    have inside' : id < heap.cells.size := lt_size_of_get? found
    simp only [get?, Array.getElem?_eq_getElem inside', Option.join_some] at found
    simp [found]
  have positive : 0 < heap.cells.toList.countP Option.isSome :=
    List.countP_pos_iff.mpr ⟨_, List.getElem_mem inside, isSome⟩
  simp only [population, erase, Array.toList_setIfInBounds, List.countP_set inside, isSome]
  simp only [Option.isSome_none, if_true, Bool.false_eq_true, if_false]
  omega

end Heap

namespace Counted

section Settling

variable {outside : List CellId} {counted : Counted}

/-- After a cell is freed, a cell that nothing refers to was so before or lost its last
reference with it. -/
theorem isUnreferenced_erase (exact : counted.Exact outside) {id other : CellId}
    (unreferenced : (counted.erase id).isUnreferenced other = true) :
    other ≠ id ∧
      (counted.isUnreferenced other = true ∨ other ∈ counted.heap.referencesOf id) := by
  obtain ⟨present, notListed, notReferred⟩ :=
    ((exact.erase id).isUnreferenced_iff other).mp unreferenced
  have different : other ≠ id := by
    rintro rfl
    simp [erase, Heap.contains, Heap.get?_erase] at present
  refine ⟨different, ?_⟩
  by_cases held : other ∈ counted.heap.referencesOf id
  · exact Or.inr held
  · refine Or.inl ((exact.isUnreferenced_iff other).mpr ⟨?_, notListed, ?_⟩)
    · simpa [erase, Heap.contains, Heap.get?_erase, different] using present
    · intro holder edge
      have another : holder ≠ id := by
        rintro rfl
        exact held edge
      have same : (counted.erase id).heap.get? holder = counted.heap.get? holder := by
        rw [erase, Heap.get?_erase, if_neg another]
      exact notReferred holder ((Heap.refers_iff_of_get?_eq same other).mpr edge)

/-- Freeing from a list with all cells that nothing refers to leaves no such cell, if the
limit is at least the number of cells. -/
theorem settled_free (exact : counted.Exact outside) {limit : Nat} {pending : List CellId}
    (covers : ∀ id, counted.isUnreferenced id = true → id ∈ pending)
    (enough : counted.heap.population ≤ limit) : (counted.free limit pending).Settled := by
  induction limit generalizing counted pending with
  | zero =>
      intro id
      simp [free, isUnreferenced,
        Heap.not_contains_of_population_eq_zero (Nat.le_zero.mp enough)]
  | succ limit ih =>
      unfold free
      cases found : pending.dropWhile fun id => !counted.isUnreferenced id with
      | nil =>
          intro id
          by_contra unreferenced
          rw [Bool.not_eq_false] at unreferenced
          have := List.dropWhile_eq_nil_iff.mp found id (covers id unreferenced)
          simp [unreferenced] at this
      | cons id rest =>
          have unreferenced := isUnreferenced_of_dropWhile found
          have present := ((exact.isUnreferenced_iff id).mp unreferenced).1
          have fewer := Heap.population_erase present
          refine ih (exact.erase id) ?_ (by simp only [erase]; omega)
          intro other stillUnreferenced
          obtain ⟨different, before | lost⟩ := isUnreferenced_erase exact stillUnreferenced
          · have waiting := covers other before
            rw [← List.takeWhile_append_dropWhile
              (p := fun id => !counted.isUnreferenced id) (l := pending)] at waiting
            rcases List.mem_append.mp waiting with skipped | kept
            · have := List.mem_takeWhile_imp skipped
              simp [before] at this
            · rw [found] at kept
              rcases List.mem_cons.mp kept with same | later
              · exact absurd same different
              · exact List.mem_append_right _ later
          · exact List.mem_append_left _ lost

theorem mem_unreferencedBelow_iff (counted : Counted) (bound : Nat) (found : List CellId)
    (id : Nat) :
    id ∈ counted.unreferencedBelow bound found ↔
      id ∈ found ∨ id < bound ∧ counted.isUnreferenced id = true := by
  induction bound generalizing found with
  | zero => simp [unreferencedBelow]
  | succ bound ih =>
      rw [unreferencedBelow, ih]
      by_cases same : id = bound
      · subst same
        by_cases unreferenced : counted.isUnreferenced id = true
        · simp [unreferenced]
        · simp [unreferenced]
      · have below : id < bound + 1 ↔ id < bound := by omega
        split
        · simp [same, below]
        · simp [below]

/-- Settling frees everything that nothing refers to and keeps counts exact. -/
theorem settle_spec (exact : counted.Exact outside) :
    counted.settle.Exact outside ∧ counted.settle.Settled ∧
      counted.heap.Tidied outside ∅ counted.settle.heap := by
  obtain ⟨exactAfter, tidied⟩ := free_spec exact counted.heap.size
    (counted.unreferencedBelow counted.heap.size [])
  refine ⟨exactAfter, ?_, tidied⟩
  refine settled_free exact ?_ counted.heap.population_le_size
  intro id unreferenced
  have present := ((exact.isUnreferenced_iff id).mp unreferenced).1
  obtain ⟨cell, found⟩ := Option.isSome_iff_exists.mp present
  exact (counted.mem_unreferencedBelow_iff _ _ id).mpr
    (Or.inr ⟨Heap.lt_size_of_get? found, unreferenced⟩)

theorem settle_of_settled (settled : counted.Settled) : counted.settle = counted := by
  have none : counted.unreferencedBelow counted.heap.size [] = [] := by
    refine List.eq_nil_iff_forall_not_mem.mpr fun id member => ?_
    have := (counted.mem_unreferencedBelow_iff _ _ id).mp member
    simp [settled id] at this
  rw [settle, none, freeAmong]
  cases counted.heap.size with
  | zero => rfl
  | succ limit => simp [free]

/-- Freeing among some references settles a heap in which only they may have lost their
last one. -/
theorem freeAmong_spec (exact : counted.Exact outside) {references : List CellId}
    (covers : ∀ id, counted.isUnreferenced id = true → id ∈ references) :
    (counted.freeAmong references).Exact outside ∧ (counted.freeAmong references).Settled ∧
      counted.heap.Tidied outside ∅ (counted.freeAmong references).heap := by
  obtain ⟨exactAfter, tidied⟩ := free_spec exact counted.heap.size references
  exact ⟨exactAfter, settled_free exact covers counted.heap.population_le_size, tidied⟩

end Settling

section Holding

variable {outside : List CellId} {counted : Counted}

theorem hold_spec (exact : counted.Exact outside) (settled : counted.Settled) {id : CellId}
    (inside : id < counted.heap.size) :
    (counted.hold id).Exact (id :: outside) ∧ (counted.hold id).Settled := by
  have fits : id < counted.census.counts.size := exact.sized ▸ inside
  have exactAfter : (counted.hold id).Exact (id :: outside) := by
    refine ⟨by simpa [hold] using exact.sized, ?_, ?_⟩
    · intro other member
      rcases List.mem_cons.mp member with rfl | listed
      · exact inside
      · exact exact.inside other listed
    · intro other
      have := exact.count_eq other
      simp only [count, hold, counted.census.count_add fits, List.cons_append,
        List.count_cons] at *
      by_cases same : other = id
      · subst same
        simp only [if_true, beq_self_eq_true]
        omega
      · have unequal : (id == other) = false := by
          simpa using fun equal : id = other => same equal.symm
        simp only [same, if_false, unequal, Bool.false_eq_true]
        omega
  refine ⟨exactAfter, fun other => ?_⟩
  by_contra unreferenced
  rw [Bool.not_eq_false, exactAfter.isUnreferenced_iff] at unreferenced
  obtain ⟨present, notListed, notReferred⟩ := unreferenced
  rcases exact.referred_of_settled settled present with listed | ⟨holder, edge⟩
  · exact notListed (List.mem_cons_of_mem id listed)
  · exact notReferred holder edge

theorem drop_spec {id : CellId} (exact : counted.Exact (id :: outside))
    (settled : counted.Settled) :
    (counted.drop id).Exact outside ∧ (counted.drop id).Settled ∧
      counted.heap.Tidied outside ∅ (counted.drop id).heap := by
  have exactBetween :
      Exact outside { counted with census := counted.census.removeAll [id] } := by
    refine exact.of_removed rfl fun other => ?_
    simp only [List.cons_append, List.count_cons, List.count_nil]
    omega
  refine freeAmong_spec exactBetween fun other unreferenced => ?_
  obtain ⟨present, notListed, notReferred⟩ :=
    (exactBetween.isUnreferenced_iff other).mp unreferenced
  rcases exact.referred_of_settled settled present with listed | ⟨holder, edge⟩
  · rcases List.mem_cons.mp listed with rfl | further
    · exact List.mem_singleton_self _
    · exact absurd further notListed
  · exact absurd edge (notReferred holder)

theorem drop_hold (settled : counted.Settled) (id : CellId) :
    (counted.hold id).drop id = counted := by
  have census : (counted.census.add id).remove id = counted.census := by
    unfold Census.add Census.remove
    congr 1
    apply Array.ext
    · simp
    · intro place _ _
      simp only [Array.getElem_modify]
      split <;> simp
  have kept : ∀ limit, counted.free limit [id] = counted := by
    intro limit
    cases limit with
    | zero => rfl
    | succ limit => simp [free, settled id]
  simp only [drop, hold, census, freeAmong]
  exact kept _

/-- Replacing a cell by one that holds less frees what only the old one held. -/
theorem replace_spec (exact : counted.Exact outside) (settled : counted.Settled)
    {id : CellId} (present : counted.heap.contains id = true) {cell : Cell}
    (fewer : cell.references ⊆ counted.heap.referencesOf id) :
    (counted.replace id cell).Exact outside ∧ (counted.replace id cell).Settled ∧
      (counted.heap.set id cell).Tidied outside ∅ (counted.replace id cell).heap := by
  have exchange := Heap.count_references_set present cell
  have stillHeld : ∀ other, other ∈ (counted.heap.set id cell).references →
      other ∈ counted.heap.references := by
    intro other member
    rw [Heap.mem_references_iff] at member ⊢
    obtain ⟨holder, edge⟩ := member
    by_cases same : holder = id
    · subst same
      have now : (counted.heap.set holder cell).get? holder = some cell := by
        simp [Heap.get?_set, present]
      rw [Heap.Refers, Heap.referencesOf_of_get? now] at edge
      exact ⟨holder, fewer edge⟩
    · refine ⟨holder, (Heap.refers_iff_of_get?_eq ?_ other).mp edge⟩
      simp [Heap.get?_set, same]
  have exactBetween : Exact outside
      { heap := counted.heap.set id cell,
        census := (counted.census.addAll cell.references).removeAll
          (counted.heap.referencesOf id) } := by
    refine ⟨by simpa using exact.sized, ?_, ?_⟩
    · intro other member
      rw [Heap.size_set]
      rcases List.mem_append.mp member with listed | held
      · exact exact.outside_inside listed
      · exact exact.inside other (List.mem_append_right _ (stillHeld other held))
    · intro other
      have counts := exact.count_eq other
      simp only [count, Census.count_removeAll, List.count_append] at counts ⊢
      by_cases inside : other < counted.census.counts.size
      · rw [Census.count_addAll _ _ inside]
        have := exchange other
        omega
      · have beyond := Nat.le_of_not_lt inside
        rw [Census.count_eq_zero_of_size_le _ (by simpa using beyond)]
        rw [Census.count_eq_zero_of_size_le _ beyond] at counts
        have absent : other ∉ (counted.heap.set id cell).references := by
          intro held
          have := List.count_pos_iff.mpr (stillHeld other held)
          omega
        have := List.count_eq_zero.mpr absent
        omega
  refine freeAmong_spec exactBetween fun other unreferenced => ?_
  obtain ⟨stays, notListed, notReferred⟩ :=
    (exactBetween.isUnreferenced_iff other).mp unreferenced
  have existed : counted.heap.contains other = true := by simpa using stays
  rcases exact.referred_of_settled settled existed with listed | ⟨holder, edge⟩
  · exact absurd listed notListed
  · by_cases same : holder = id
    · exact same ▸ edge
    · refine absurd ((Heap.refers_iff_of_get?_eq ?_ other).mpr edge) (notReferred holder)
      simp [Heap.get?_set, same]

end Holding

end Counted

namespace Machine

/-- Every reference there is, is to a cell that was made. -/
def Bounded (machine : Machine) : Prop :=
  ∀ id ∈ machine.references, id < machine.heap.size

instance (machine : Machine) : Decidable machine.Bounded :=
  inferInstanceAs (Decidable (∀ id ∈ machine.references, id < machine.heap.size))

theorem exact_census {machine : Machine} (bounded : machine.Bounded) :
    Counted.Exact machine.roots
      { heap := machine.heap, census := machine.heap.census machine.roots } := by
  refine ⟨machine.heap.size_census machine.roots, bounded, fun id => ?_⟩
  by_cases inside : id < machine.heap.size
  · exact machine.heap.count_census machine.roots inside
  · have absent : id ∉ machine.roots ++ machine.heap.references :=
      fun member => inside (bounded id member)
    rw [List.count_eq_zero.mpr absent]
    apply Census.count_eq_zero_of_size_le _
    rw [Heap.size_census]
    exact Nat.le_of_not_lt inside

/-- A machine counts exactly the references it has, after freeing what nothing refers to. -/
theorem counted_spec {machine : Machine} (bounded : machine.Bounded) :
    machine.counted.Exact machine.roots ∧ machine.counted.Settled ∧
      machine.heap.Tidied machine.roots ∅ machine.counted.heap :=
  Counted.settle_spec (exact_census bounded)

/-- A machine in which nothing is left to free. -/
def Settled (machine : Machine) : Prop :=
  ∀ id, machine.heap.contains id = true →
    id ∈ machine.roots ∨ ∃ holder, machine.heap.Refers holder id

theorem counted_heap_of_settled {machine : Machine} (bounded : machine.Bounded)
    (settled : machine.Settled) : machine.counted.heap = machine.heap := by
  have exact := exact_census bounded
  have nothing : Counted.Settled
      { heap := machine.heap, census := machine.heap.census machine.roots } := by
    intro id
    by_contra unreferenced
    rw [Bool.not_eq_false, exact.isUnreferenced_iff] at unreferenced
    obtain ⟨present, notListed, notReferred⟩ := unreferenced
    rcases settled id present with listed | ⟨holder, edge⟩
    · exact notListed listed
    · exact notReferred holder edge
  rw [counted, Counted.settle_of_settled nothing]

end Machine

end ScriptCore
