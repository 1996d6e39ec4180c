import ScriptCore.Proofs.Containers
import ScriptCore.Proofs.Dicts
import ScriptCore.Proofs.ItemChanges
import ScriptCore.Proofs.Unfolding

/-!
# Containers made of existing values

Containers are made of values that exist already, and items of lists and dicts change later on, so
that lists and dicts may come to hold themselves.  Printing ends all the same, and cuts nothing but
the cycles.
-/

namespace ScriptCore

open Relation

/-- The making of a container, or a change of the items of one. -/
inductive Construction
  | tuple (items : List Value)
  | list (items : List Value)
  | dict (pairs : List (Value × Value))
  | set (items : List Value)
  | setItem (container index value : Value)
  | deleteItem (container index : Value)

namespace Construction

/-- What a construction does. -/
def act : Construction → Act Value
  | tuple items => Act.newTuple items
  | list items => Act.newList items
  | dict pairs => Act.newDict pairs
  | set items => Act.newSet items
  | setItem container index value => do
      Act.setItem container index value
      return .nothing
  | deleteItem container index => Act.deleteItem container index

/-- The values that a construction is given. -/
def operands : Construction → List Value
  | tuple items => items
  | list items => items
  | dict pairs => pairs.flatMap fun pair => [pair.1, pair.2]
  | set items => items
  | setItem container index value => [container, index, value]
  | deleteItem container index => [container, index]

/-- The machine after a construction, whether it fails or not. -/
def after (construction : Construction) (machine : Machine) : Machine :=
  construction.act.leaves machine

end Construction

/-- A machine whose containers come from constructions with existing values.  What else is done
leaves the containers and what they hold as they are. -/
inductive Machine.Assembled : Machine → Prop
  | bare (machine : Machine)
      (none : ∀ id cell, machine.heap.get? id = some cell → cell.isContainer = false) :
      Assembled machine
  | construct {machine : Machine} (assembled : machine.Assembled) (construction : Construction)
      (existing : ∀ operand ∈ construction.operands, machine.heap.Fits operand) :
      Assembled (construction.after machine)
  | aside {machine after : Machine} (assembled : machine.Assembled)
      (same : ∀ id cell, after.heap.get? id = some cell → cell.isContainer = true →
        machine.heap.get? id = some cell ∧ ∀ value ∈ cell.values, after.heap.Fits value) :
      Assembled after

namespace Value

variable {container : Value} {id : CellId} {cell : Cell}

/-- The kind of a list or dict is told by its content alone. -/
theorem fits_of_watch? (watch : container.watch? = some id) {old : Cell} (was : container.Fits old)
    (now : container.Fits cell) {value : Value} (fits : value.Fits old) : value.Fits cell := by
  cases container with
  | list _ =>
      cases old with
      | list _ => cases cell <;> cases value <;> first | exact fits | exact now.elim
      | _ => exact was.elim
  | dict _ =>
      cases old with
      | dict _ => cases cell <;> cases value <;> first | exact fits | exact now.elim
      | _ => exact was.elim
  | _ => cases watch

theorem isFixed_of_watch? (watch : container.watch? = some id) (kind : container.Fits cell) :
    cell.isFixed = false := by
  cases container with
  | list _ => cases cell <;> first | rfl | exact kind.elim
  | dict _ => cases cell <;> first | rfl | exact kind.elim
  | _ => cases watch

end Value

namespace Heap

variable {heap : Heap} {value : Value}

theorem Fits.of_get? {id : CellId} {cell : Cell} (named : value.cell? = some id)
    (found : heap.get? id = some cell) (kind : value.Fits cell) : heap.Fits value := by
  intro other also
  cases named.symm.trans also
  exact ⟨cell, found, kind⟩

theorem Fits.alloc (fits : heap.Fits value) (cell : Cell) : (heap.alloc cell).2.Fits value := by
  intro id named
  obtain ⟨content, found, kind⟩ := fits id named
  refine ⟨content, ?_, kind⟩
  rw [get?_alloc, if_neg (Nat.ne_of_lt (lt_size_of_get? found)), found]

/-- A new cell of values that exist. -/
theorem WellBuilt.alloc (wellBuilt : heap.WellBuilt) (cell : Cell)
    (existing : ∀ value ∈ cell.values, heap.Fits value) : (heap.alloc cell).2.WellBuilt where
  fits id content found container value member := by
    rw [get?_alloc] at found
    split at found
    · cases found
      exact (existing value member).alloc cell
    · exact (wellBuilt.fits id content found container value member).alloc cell
  older id content found fixed value member part named := by
    rw [get?_alloc] at found
    split at found
    · rename_i new
      cases found
      obtain ⟨_, stored, -⟩ := existing value member part named
      exact new ▸ lt_size_of_get? stored
    · exact wellBuilt.older id content found fixed value member part named

/-- A list or dict with other values that exist. -/
theorem WellBuilt.set (wellBuilt : heap.WellBuilt) {container : Value} {id : CellId} {cell : Cell}
    (watch : container.watch? = some id) (present : heap.Fits container)
    (kind : container.Fits cell) (existing : ∀ value ∈ cell.values, heap.Fits value) :
    (heap.set id cell).WellBuilt := by
  obtain ⟨old, found, oldKind⟩ := present id (Value.cell?_of_watch? watch)
  have kept : ∀ {value : Value}, heap.Fits value → (heap.set id cell).Fits value := by
    intro value fits other named
    obtain ⟨content, stored, ofKind⟩ := fits other named
    rw [get?_set]
    split
    · rename_i replaced
      rw [replaced.1, found] at stored
      cases stored
      exact ⟨cell, rfl, Value.fits_of_watch? watch oldKind kind ofKind⟩
    · exact ⟨content, stored, ofKind⟩
  constructor
  · intro other content stored holds value member
    rw [get?_set] at stored
    split at stored
    · cases stored
      exact kept (existing value member)
    · exact kept (wellBuilt.fits other content stored holds value member)
  · intro other content stored fixed value member part named
    rw [get?_set] at stored
    split at stored
    · cases stored
      simp [Value.isFixed_of_watch? watch kind] at fixed
    · exact wellBuilt.older other content stored fixed value member part named

end Heap

namespace Construction

variable {machine : Machine}

theorem wellBuilt_newDict (wellBuilt : machine.heap.WellBuilt) {pairs : List (Value × Value)}
    (existing : ∀ pair ∈ pairs, machine.heap.Fits pair.1 ∧ machine.heap.Fits pair.2) :
    ((Act.newDict pairs).leaves machine).heap.WellBuilt := by
  cases keyed : (pairs.mapM fun pair => do return (← Key.ofValue pair.1, pair.2) :
      Except Error (List (Key × Value))) with
  | error error =>
      rw [Act.leaves, Act.newDict, keyed]
      exact wellBuilt
  | ok entries =>
      rw [Act.leaves, Act.newDict, keyed]
      refine wellBuilt.alloc (.dict (Entries.ofList entries)) fun value member => ?_
      obtain ⟨entry, listed, given⟩ := Entries.mem_values_of_ofList member
      obtain ⟨pair, among, admitted⟩ := exists_of_mem_mapM keyed listed
      have fits := existing pair among
      rw [← value_of_keyed pair entry admitted] at fits
      rcases given with rfl | rfl
      · exact fits.1
      · exact fits.2

theorem wellBuilt_newSet (wellBuilt : machine.heap.WellBuilt) {items : List Value}
    (existing : ∀ item ∈ items, machine.heap.Fits item) :
    ((Act.newSet items).leaves machine).heap.WellBuilt := by
  cases admitted : items.mapM Key.ofValue with
  | error error =>
      rw [Act.leaves, Act.newSet, admitted]
      exact wellBuilt
  | ok keys =>
      rw [Act.leaves, Act.newSet, admitted]
      refine wellBuilt.alloc (.set (Members.ofList keys)) fun value member => ?_
      obtain ⟨key, listed, rfl⟩ := Members.mem_values_of_ofList member
      obtain ⟨item, among, given⟩ := exists_of_mem_mapM admitted listed
      rw [Key.value_of_ofValue given]
      exact existing item among

theorem wellBuilt_setItem (wellBuilt : machine.heap.WellBuilt) {container index value : Value}
    (isContainer : machine.heap.Fits container) (fitsIndex : machine.heap.Fits index)
    (fitsValue : machine.heap.Fits value) :
    ((Act.setItem container index value).leaves machine).heap.WellBuilt := by
  have assigns := Act.assigns_setItem machine container index value
  rw [Act.leaves]
  generalize Act.setItem container index value machine = outcome at assigns ⊢
  cases assigns with
  | refused stop => exact wellBuilt
  | entry cell key isDict keyed =>
      subst isDict
      refine wellBuilt.set rfl isContainer trivial fun stored member => ?_
      rcases Entries.mem_values_of_insert member with old | rfl | rfl
      · exact wellBuilt.fits_part (show machine.heap.Inside stored (.dict cell) from old)
      · rwa [Key.value_of_ofValue keyed]
      · exact fitsValue
  | item cell place isList =>
      subst isList
      refine wellBuilt.set rfl isContainer trivial fun stored member => ?_
      rcases List.mem_or_eq_of_mem_set member with old | rfl
      · exact wellBuilt.fits_part (show machine.heap.Inside stored (.list cell) from old)
      · exact fitsValue

theorem wellBuilt_deleteItem (wellBuilt : machine.heap.WellBuilt) {container index : Value}
    (isContainer : machine.heap.Fits container) :
    ((Act.deleteItem container index).leaves machine).heap.WellBuilt := by
  have deletes := Act.deletes_deleteItem machine container index
  rw [Act.leaves]
  generalize Act.deleteItem container index machine = outcome at deletes ⊢
  cases deletes with
  | refused stop => exact wellBuilt
  | entry cell key value isDict =>
      subst isDict
      refine wellBuilt.set rfl isContainer trivial fun stored member => ?_
      have inside : machine.heap.Inside stored (.dict cell) := Entries.mem_values_of_erase member
      exact wellBuilt.fits_part inside
  | item cell place item isList =>
      subst isList
      refine wellBuilt.set rfl isContainer trivial fun stored member => ?_
      have inside : machine.heap.Inside stored (.list cell) := List.mem_of_mem_eraseIdx member
      exact wellBuilt.fits_part inside
  | range cell slice rest isList removed =>
      subst isList
      refine wellBuilt.set rfl isContainer trivial fun stored member => ?_
      have inside : machine.heap.Inside stored (.list cell) :=
        (Slice.sublist_of_remove removed).subset member
      exact wellBuilt.fits_part inside

/-- One construction. -/
theorem wellBuilt_after (wellBuilt : machine.heap.WellBuilt) (construction : Construction)
    (existing : ∀ operand ∈ construction.operands, machine.heap.Fits operand) :
    (construction.after machine).heap.WellBuilt := by
  cases construction with
  | tuple items => exact wellBuilt.alloc (.tuple items) existing
  | list items => exact wellBuilt.alloc (.list items) existing
  | dict pairs =>
      simp only [operands, List.mem_flatMap, List.mem_cons, List.not_mem_nil, or_false] at existing
      exact wellBuilt_newDict wellBuilt fun pair listed =>
        ⟨existing _ ⟨pair, listed, .inl rfl⟩, existing _ ⟨pair, listed, .inr rfl⟩⟩
  | set items => exact wellBuilt_newSet wellBuilt existing
  | setItem container index value =>
      simp only [operands, List.forall_mem_cons] at existing
      rw [after, act, Act.leaves_bind_pure _ fun _ => Value.nothing]
      exact wellBuilt_setItem wellBuilt existing.1 existing.2.1 existing.2.2.1
  | deleteItem container index =>
      exact wellBuilt_deleteItem wellBuilt (existing container List.mem_cons_self)

end Construction

namespace Machine.Assembled

variable {machine : Machine}

/-- However containers came to hold each other, tuples and sets hold only what is older. -/
theorem wellBuilt (assembled : machine.Assembled) : machine.heap.WellBuilt := by
  induction assembled with
  | bare machine none =>
      constructor
      · intro id cell found container
        simp [none id cell found] at container
      · intro id cell found fixed
        have container := Cell.isContainer_of_isFixed fixed
        simp [none id cell found] at container
  | construct _ construction existing ih => exact construction.wellBuilt_after ih existing
  | aside _ same ih =>
      constructor
      · intro id cell found container
        exact (same id cell found container).2
      · intro id cell found fixed
        exact ih.older id cell (same id cell found (Cell.isContainer_of_isFixed fixed)).1 fixed

/-- The printing of every value ends, and cuts exactly what is being printed further out. -/
theorem printing_cuts_exactly_the_cycles (assembled : machine.Assembled) {value : Value}
    (fits : machine.heap.Fits value) : ∃ tree, machine.heap.PrintsAs value tree :=
  assembled.wellBuilt.exists_printsAs fits

/-- A list that holds itself through a dict, as part of a key and of a set. -/
theorem printing_cuts_list_in_own_dict :
    let machine := [Construction.list [.nothing], .tuple [.list 0], .set [.tuple 1],
      .dict [(.tuple 1, .set 2)], .setItem (.list 0) (.int 0) (.dict 3)].foldl
        (fun machine construction => construction.after machine) {}
    machine.heap.repr .plain (.list 0) = "[\x7b([...],): \x7b([...],)\x7d\x7d]" ∧
      ∃ tree, machine.heap.PrintsAs (.list 0) tree := by
  have bare : Assembled {} := .bare {} (by simp [Heap.get?])
  have withList := bare.construct (.list [.nothing])
    (by simp [Construction.operands, Heap.Fits, Value.cell?])
  have withTuple := withList.construct (.tuple [.list 0])
    (by simpa [Construction.operands] using .of_get? rfl rfl trivial)
  have withSet := withTuple.construct (.set [.tuple 1])
    (by simpa [Construction.operands] using .of_get? rfl rfl trivial)
  have withDict := withSet.construct (.dict [(.tuple 1, .set 2)])
    (by simpa [Construction.operands] using ⟨.of_get? rfl rfl trivial, .of_get? rfl rfl trivial⟩)
  have closed := withDict.construct (.setItem (.list 0) (.int 0) (.dict 3)) (by
    simpa [Construction.operands] using
      ⟨.of_get? rfl rfl trivial, by simp [Heap.Fits, Value.cell?], .of_get? rfl rfl trivial⟩)
  exact ⟨by decide +kernel, printing_cuts_exactly_the_cycles closed (.of_get? rfl rfl trivial)⟩

end Machine.Assembled

end ScriptCore
