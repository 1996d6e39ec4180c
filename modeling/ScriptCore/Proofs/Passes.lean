import Mathlib.Data.List.Forall2
import ScriptCore.Proofs.Assembly
import ScriptCore.Proofs.ListChanges
import ScriptCore.Proofs.ReservedNames

/-!
# Passes while containers change

A pass takes its items one at a time, and between two items anything can happen to the container:
through the name that is passed over or through another one.  A pass over a list reads the list as
it is at each step.  As no list ever gets longer, it ends.  A pass over a tuple gives the items of
the tuple, and one over a dict gives the entries of its start.
-/

namespace ScriptCore

open Relation

namespace Heap

variable {before after : Heap}

theorem Change.size_le (change : before.Change after) : before.size ≤ after.size := by
  cases change with
  | make cell _ => simp
  | _ => simp

theorem length_listItems_le_iff {heap : Heap} {cell : CellId} {bound : Nat} :
    (heap.listItems cell).length ≤ bound ↔
      ∀ items, heap.get? cell = some (.list items) → items.length ≤ bound := by
  unfold listItems
  split
  · rename_i items found
    simp [found]
  · rename_i other
    exact ⟨fun _ items found => (other items found).elim, fun _ => Nat.zero_le _⟩

/-- No change lengthens a list that is there before it. -/
theorem Change.length_listItems_le (change : before.Change after) {cell : CellId}
    (made : cell < before.size) :
    (after.listItems cell).length ≤ (before.listItems cell).length := by
  have same : ∀ items, before.get? cell = some (.list items) →
      items.length ≤ (before.listItems cell).length :=
    length_listItems_le_iff.mp (Nat.le_refl _)
  refine length_listItems_le_iff.mpr fun items found => ?_
  cases change with
  | make content _ =>
      rw [get?_alloc, if_neg (Nat.ne_of_lt made)] at found
      exact same items found
  | free id =>
      rw [get?_erase] at found
      split at found
      · cases found
      · exact same items found
  | replace id content renewal =>
      rw [get?_set] at found
      split at found
      · rename_i replaced
        obtain ⟨rfl, _⟩ := replaced
        cases renewal with
        | list items shorter =>
            cases found
            exact shorter
        | _ => cases found
      · exact same items found
  | _ =>
      rw [get?_set] at found
      split at found
      · cases found
      · exact same items found

/-- A tuple has its items from its making on. -/
theorem Change.tuple_back (change : before.Change after) {cell : CellId} {items : List Value}
    (made : cell < before.size) (found : after.get? cell = some (.tuple items)) :
    before.get? cell = some (.tuple items) := by
  cases change with
  | make content _ => simpa [get?_alloc, Nat.ne_of_lt made] using found
  | free id =>
      rw [get?_erase] at found
      split at found
      · cases found
      · exact found
  | replace id content renewal =>
      rw [get?_set] at found
      split at found
      · cases renewal <;> cases found
      · exact found
  | _ =>
      rw [get?_set] at found
      split at found
      · cases found
      · exact found

namespace Evolves

theorem size_le (evolves : before.Evolves after) : before.size ≤ after.size := by
  induction evolves with
  | refl => exact Nat.le_refl _
  | tail _ change ih => exact Nat.le_trans ih change.size_le

/-- Whatever happens, no list gets longer. -/
theorem length_listItems_le (evolves : before.Evolves after) {cell : CellId}
    (made : cell < before.size) :
    (after.listItems cell).length ≤ (before.listItems cell).length := by
  induction evolves with
  | refl => exact Nat.le_refl _
  | tail earlier change ih =>
      exact Nat.le_trans (change.length_listItems_le (Nat.lt_of_lt_of_le made (size_le earlier))) ih

theorem tuple_back (evolves : before.Evolves after) {cell : CellId} {items : List Value}
    (made : cell < before.size) (found : after.get? cell = some (.tuple items)) :
    before.get? cell = some (.tuple items) := by
  induction evolves with
  | refl => exact found
  | tail earlier change ih =>
      exact ih (change.tuple_back (Nat.lt_of_lt_of_le made (size_le earlier)) found)

theorem length_tupleItems_le (evolves : before.Evolves after) {cell : CellId}
    (made : cell < before.size) :
    (after.tupleItems cell).length ≤ (before.tupleItems cell).length := by
  cases found : after.get? cell with
  | none => simp [tupleItems, found]
  | some content =>
      cases content with
      | tuple items => simp [tupleItems, found, evolves.tuple_back made found]
      | _ => simp [tupleItems, found]

end Evolves

/-- Every cell is still there, and of its kind. -/
def Retains (before after : Heap) : Prop :=
  ∀ cell old, before.get? cell = some old →
    ∃ new, after.get? cell = some new ∧ ∀ value : Value, value.Fits old → value.Fits new

namespace Retains

theorem refl (heap : Heap) : heap.Retains heap :=
  fun _ old found => ⟨old, found, fun _ fits => fits⟩

theorem trans {middle : Heap} (first : before.Retains middle) (second : middle.Retains after) :
    before.Retains after := by
  intro cell old found
  obtain ⟨between, there, alike⟩ := first cell old found
  obtain ⟨new, now, later⟩ := second cell between there
  exact ⟨new, now, fun value fits => later value (alike value fits)⟩

theorem alloc (heap : Heap) (cell : Cell) : heap.Retains (heap.alloc cell).2 := by
  intro id old found
  refine ⟨old, ?_, fun _ fits => fits⟩
  rw [get?_alloc, if_neg (Nat.ne_of_lt (lt_size_of_get? found)), found]

/-- A list or dict with other content. -/
theorem set {heap : Heap} {container : Value} {id : CellId} {new : Cell}
    (fits : heap.Fits container) (watch : container.watch? = some id)
    (kind : container.Fits new) : heap.Retains (heap.set id new) := by
  intro cell old found
  rw [get?_set]
  split
  · rename_i replaced
    obtain ⟨rfl, _⟩ := replaced
    obtain ⟨was, there, ofKind⟩ := fits cell (Value.cell?_of_watch? watch)
    rw [there] at found
    cases found
    exact ⟨new, rfl, fun value fitsOld => Value.fits_of_watch? watch ofKind kind fitsOld⟩
  · exact ⟨old, found, fun _ fitsOld => fitsOld⟩

theorem fits (retains : before.Retains after) {value : Value} (fits : before.Fits value) :
    after.Fits value := by
  intro id named
  obtain ⟨old, found, ofKind⟩ := fits id named
  obtain ⟨new, now, alike⟩ := retains id old found
  exact ⟨new, now, alike value ofKind⟩

end Retains

theorem exists_of_fits_tuple {heap : Heap} {cell : CellId} (fits : heap.Fits (.tuple cell)) :
    ∃ items, heap.get? cell = some (.tuple items) := by
  obtain ⟨content, found, kind⟩ := fits cell rfl
  cases content with
  | tuple items => exact ⟨items, found⟩
  | _ => exact kind.elim

end Heap

namespace Pass

/-- The container of a pass was made. -/
def Begun (heap : Heap) : Pass → Prop
  | tuple cell _ => cell < heap.size
  | list cell _ => cell < heap.size
  | entries _ => True

theorem Begun.later {before after : Heap} {pass : Pass} (begun : pass.Begun before)
    (evolves : before.Evolves after) : pass.Begun after := by
  cases pass with
  | tuple cell position => exact Nat.lt_of_lt_of_le begun evolves.size_le
  | list cell position => exact Nat.lt_of_lt_of_le begun evolves.size_le
  | entries rest => trivial

/-- What a pass can still give does not get more. -/
theorem bound_le {before after : Heap} {pass : Pass} (begun : pass.Begun before)
    (evolves : before.Evolves after) : pass.bound after ≤ pass.bound before := by
  cases pass with
  | tuple cell position =>
      exact Nat.sub_le_sub_right (evolves.length_tupleItems_le begun) position
  | list cell position =>
      exact Nat.sub_le_sub_right (evolves.length_listItems_le begun) position
  | entries rest => exact Nat.le_refl _

/-- What a step of a pass comes to: there is nothing left, or it gives an item, and there is less to
give after it. -/
inductive Steps (pass : Pass) (machine : Machine) :
    EStateM.Result Stop Machine (Option (Value × Pass)) → Prop
  | ended (spent : pass.bound machine.heap = 0) : Steps pass machine (.ok none machine)
  | gives (item : Value) (rest : Pass) (after : Machine)
      (less : rest.bound after.heap < pass.bound machine.heap)
      (begun : pass.Begun machine.heap → rest.Begun after.heap) :
      Steps pass machine (.ok (some (item, rest)) after)

theorem steps_next (pass : Pass) (machine : Machine) :
    pass.Steps machine (pass.next machine) := by
  cases pass with
  | tuple cell position =>
      simp only [Pass.next, Act.heap_bind]
      cases found : (machine.heap.tupleItems cell)[position]? with
      | none => exact .ended (Nat.sub_eq_zero_of_le (List.getElem?_eq_none_iff.mp found))
      | some item =>
          obtain ⟨inside, -⟩ := List.getElem?_eq_some_iff.mp found
          exact .gives item (.tuple cell (position + 1)) machine
            (Nat.sub_lt_sub_left inside (Nat.lt_succ_self position)) id
  | list cell position =>
      simp only [Pass.next, Act.heap_bind]
      cases found : (machine.heap.listItems cell)[position]? with
      | none => exact .ended (Nat.sub_eq_zero_of_le (List.getElem?_eq_none_iff.mp found))
      | some item =>
          obtain ⟨inside, -⟩ := List.getElem?_eq_some_iff.mp found
          exact .gives item (.list cell (position + 1)) machine
            (Nat.sub_lt_sub_left inside (Nat.lt_succ_self position)) id
  | entries rest =>
      cases rest with
      | nil => exact .ended rfl
      | cons entry rest => exact .gives _ (.entries rest) _ (Nat.lt_succ_self _) id

end Pass

/-- Something that happens between two items of a pass. -/
inductive Interlude
  /-- Another pass takes its next item. -/
  | pass (other : Pass)
  | setItem (container index value : Value)
  | deleteItem (container index : Value)
  /-- Anything else that can be done with the machine. -/
  | undertaking (deed : Undertaking)

namespace Interlude

/-- The machine after an interlude, whether it fails or not. -/
def leaves (interlude : Interlude) (machine : Machine) : Machine :=
  match interlude with
  | pass other => other.next.leaves machine
  | setItem container index value => (Act.setItem container index value).leaves machine
  | deleteItem container index => (Act.deleteItem container index).leaves machine
  | undertaking deed => deed.act.leaves machine

/-- An interlude that only goes on with a pass, or sets or deletes an item of a container. -/
def IsSteady (heap : Heap) : Interlude → Prop
  | pass _ => True
  | setItem container _ _ => heap.Fits container
  | deleteItem container _ => heap.Fits container
  | undertaking _ => False

theorem evolves (interlude : Interlude) (machine : Machine) :
    machine.Evolves (interlude.leaves machine) := by
  cases interlude with
  | pass other => exact Act.evolves_next other machine
  | setItem container index value => exact Act.evolves_setItem container index value machine
  | deleteItem container index => exact Act.evolves_deleteItem container index machine
  | undertaking deed => exact deed.evolves_act machine

theorem retains_setItem {machine : Machine} {container : Value}
    (fits : machine.heap.Fits container) (index value : Value) :
    machine.heap.Retains ((Act.setItem container index value).leaves machine).heap := by
  have assigns := Act.assigns_setItem machine container index value
  unfold Act.leaves
  generalize Act.setItem container index value machine = outcome at assigns
  cases assigns with
  | refused stop => exact .refl _
  | entry cell key isDict keyed =>
      subst isDict
      refine .set fits rfl ?_
      trivial
  | item cell place isList =>
      subst isList
      refine .set fits rfl ?_
      trivial

theorem retains_deleteItem {machine : Machine} {container : Value}
    (fits : machine.heap.Fits container) (index : Value) :
    machine.heap.Retains ((Act.deleteItem container index).leaves machine).heap := by
  have deletes := Act.deletes_deleteItem machine container index
  unfold Act.leaves
  generalize Act.deleteItem container index machine = outcome at deletes
  cases deletes with
  | refused stop => exact .refl _
  | entry cell key value isDict keyed found =>
      subst isDict
      refine .set fits rfl ?_
      trivial
  | item cell place item isList found =>
      subst isList
      refine .set fits rfl ?_
      trivial
  | range cell slice rest isList removed =>
      subst isList
      refine .set fits rfl ?_
      trivial

theorem retains_next (pass : Pass) (machine : Machine) :
    machine.heap.Retains (pass.next.leaves machine).heap := by
  cases pass with
  | entries rest =>
      cases rest with
      | nil => exact .refl _
      | cons entry rest => exact .alloc _ _
  | _ => exact .refl _

/-- Taking items, setting them and deleting them keeps every cell. -/
theorem retains {interlude : Interlude} {machine : Machine}
    (steady : interlude.IsSteady machine.heap) :
    machine.heap.Retains (interlude.leaves machine).heap := by
  cases interlude with
  | pass other => exact retains_next other machine
  | setItem container index value => exact retains_setItem steady index value
  | deleteItem container index => exact retains_deleteItem steady index
  | undertaking deed => exact steady.elim

theorem IsSteady.retained {interlude : Interlude} {before after : Heap}
    (steady : interlude.IsSteady before) (retains : before.Retains after) :
    interlude.IsSteady after := by
  cases interlude with
  | pass other => trivial
  | setItem container index value => exact retains.fits steady
  | deleteItem container index => exact retains.fits steady
  | undertaking deed => exact steady

end Interlude

/-- What happens at one time while a pass is under way. -/
inductive Turn
  /-- The pass takes its next item. -/
  | next
  | between (interlude : Interlude)

namespace Turn

/-- How often the pass is to take an item. -/
def nexts : List Turn → Nat
  | [] => 0
  | next :: rest => nexts rest + 1
  | between _ :: rest => nexts rest

/-- Nothing happens between the items but what keeps all cells. -/
def Steady (heap : Heap) (turns : List Turn) : Prop :=
  ∀ interlude, between interlude ∈ turns → interlude.IsSteady heap

end Turn

/-- A pass that is under way, with the items that it gave so far. -/
structure Traversal where
  machine : Machine
  pass : Pass
  given : List Value := []

/-- The start of a pass. -/
def Iterable.begin (iterable : Iterable) (machine : Machine) : Traversal where
  machine := machine
  pass := iterable.pass machine.heap

namespace Traversal

/-- The pass takes its next item, if there is one. -/
def advance (now : Traversal) : Traversal :=
  match now.pass.next now.machine with
  | .ok (some (item, rest)) machine =>
      { machine, pass := rest, given := now.given ++ [item] }
  | .ok none machine => { now with machine }
  | .error _ machine => { now with machine }

def turn (now : Traversal) : Turn → Traversal
  | .next => now.advance
  | .between interlude => { now with machine := interlude.leaves now.machine }

/-- All that happens, in order. -/
def run (now : Traversal) (turns : List Turn) : Traversal :=
  turns.foldl turn now

/-- What each turn preserves, with the number of items asked for, holds after all turns. -/
theorem run_induction (Holds : Nat → Traversal → Prop) (Allowed : Interlude → Prop)
    (advance : ∀ count now, Holds count now → Holds (count + 1) now.advance)
    (between : ∀ count now interlude, Allowed interlude → Holds count now →
      Holds count (now.turn (.between interlude)))
    (turns : List Turn) (allowed : ∀ interlude, .between interlude ∈ turns → Allowed interlude)
    (count : Nat) {now : Traversal} (holds : Holds count now) :
    Holds (count + Turn.nexts turns) (now.run turns) := by
  induction turns generalizing count now with
  | nil => exact holds
  | cons turn rest ih =>
      have others : ∀ interlude, .between interlude ∈ rest → Allowed interlude :=
        fun interlude member => allowed interlude (List.mem_cons_of_mem _ member)
      cases turn with
      | next =>
          have onward := ih others (count + 1) (advance count now holds)
          rwa [Nat.add_right_comm] at onward
      | between interlude =>
          exact ih others count
            (between count now interlude (allowed interlude List.mem_cons_self) holds)

/-- What a step makes of a traversal is told by what it takes. -/
theorem advance_of_next_none {now : Traversal}
    (ended : now.pass.next now.machine = .ok none now.machine) :
    now.advance = now := by
  simp only [advance, ended]

theorem advance_of_next_some {now : Traversal} {item : Value} {rest : Pass} {machine : Machine}
    (took : now.pass.next now.machine = .ok (some (item, rest)) machine) :
    now.advance = { machine, pass := rest, given := now.given ++ [item] } := by
  simp only [advance, took]

theorem machine_advance (now : Traversal) :
    now.advance.machine = now.pass.next.leaves now.machine := by
  unfold advance Act.leaves
  cases now.pass.next now.machine with
  | ok taken machine => cases taken <;> rfl
  | error stop machine => rfl

section Lists

variable {start : Machine} {cell : CellId} {now : Traversal}

/-- A pass over a list is at the position after the items that it gave. -/
structure OverList (start : Machine) (cell : CellId) (now : Traversal) : Prop where
  evolves : start.Evolves now.machine
  pass : now.pass = .list cell now.given.length
  finite : now.given.length ≤ (start.heap.listItems cell).length

theorem OverList.next (reads : now.OverList start cell) :
    now.pass.next now.machine =
      .ok ((now.machine.heap.listItems cell)[now.given.length]?.map
        (·, .list cell (now.given.length + 1))) now.machine := by
  rw [reads.pass]
  rfl

theorem OverList.advance (reads : now.OverList start cell) (made : cell < start.heap.size) :
    now.advance.OverList start cell := by
  have next := reads.next
  cases found : (now.machine.heap.listItems cell)[now.given.length]? with
  | none =>
      rw [found] at next
      rwa [advance_of_next_none next]
  | some item =>
      rw [found] at next
      rw [advance_of_next_some next]
      obtain ⟨inside, -⟩ := List.getElem?_eq_some_iff.mp found
      have shorter := reads.evolves.heap.length_listItems_le made
      refine ⟨reads.evolves, by simp, ?_⟩
      rw [List.length_append]
      exact Nat.lt_of_lt_of_le inside shorter

theorem OverList.run (reads : now.OverList start cell) (made : cell < start.heap.size)
    (turns : List Turn) : (now.run turns).OverList start cell :=
  run_induction (fun _ => OverList start cell) (fun _ => True)
    (fun _ _ reads => reads.advance made)
    (fun _ now interlude _ reads =>
      ⟨reads.evolves.trans (interlude.evolves now.machine), reads.pass, reads.finite⟩)
    turns (fun _ _ => trivial) 0 reads

/-- A pass over a list that is past the end, with all that it gave. -/
structure PastList (start : Machine) (cell : CellId) (given : List Value) (now : Traversal) :
    Prop where
  reads : now.OverList start cell
  same : now.given = given
  past : (now.machine.heap.listItems cell).length ≤ now.given.length

theorem PastList.next {given : List Value} (ended : now.PastList start cell given) :
    now.pass.next now.machine = .ok none now.machine := by
  rw [ended.reads.next, List.getElem?_eq_none ended.past]
  rfl

/-- A pass that is past the end stays there, as the list does not get longer. -/
theorem PastList.run {given : List Value} (ended : now.PastList start cell given)
    (made : cell < start.heap.size) (turns : List Turn) :
    (now.run turns).PastList start cell given := by
  refine run_induction (fun _ => PastList start cell given) (fun _ => True) ?_ ?_ turns
    (fun _ _ => trivial) 0 ended
  · intro _ now ended
    rwa [advance_of_next_none ended.next]
  · intro _ now interlude _ ended
    have evolves := interlude.evolves now.machine
    have there := Nat.lt_of_lt_of_le made ended.reads.evolves.heap.size_le
    have shorter := evolves.heap.length_listItems_le there
    exact ⟨⟨ended.reads.evolves.trans evolves, ended.reads.pass, ended.reads.finite⟩, ended.same,
      Nat.le_trans shorter ended.past⟩

end Lists

section Tuples

variable {start : Machine} {cell : CellId} {items : List Value} {count : Nat} {now : Traversal}

/-- A pass over a tuple gave as many of its items as it was asked for. -/
structure OverTuple (start : Machine) (cell : CellId) (items : List Value) (count : Nat)
    (now : Traversal) : Prop where
  evolves : start.Evolves now.machine
  pass : now.pass = .tuple cell now.given.length
  given : now.machine.heap.get? cell = some (.tuple items) → now.given = items.take count

theorem OverTuple.advance (reads : now.OverTuple start cell items count) :
    now.advance.OverTuple start cell items (count + 1) := by
  have next : now.pass.next now.machine =
      .ok ((now.machine.heap.tupleItems cell)[now.given.length]?.map
        (·, .tuple cell (now.given.length + 1))) now.machine := by
    rw [reads.pass]
    rfl
  -- while the tuple is there, the pass reads the item whose number is the length of what it gave
  have step : now.machine.heap.get? cell = some (.tuple items) →
      now.given ++ (now.machine.heap.tupleItems cell)[now.given.length]?.toList =
        items.take (count + 1) := by
    intro there
    simp only [Heap.tupleItems, there, reads.given there]
    rw [List.take_add_one, List.length_take]
    rcases Nat.lt_or_ge count items.length with inside | past
    · rw [Nat.min_eq_left (Nat.le_of_lt inside)]
    · rw [Nat.min_eq_right past, List.getElem?_eq_none (Nat.le_refl _), List.getElem?_eq_none past]
  cases found : (now.machine.heap.tupleItems cell)[now.given.length]? with
  | none =>
      rw [found] at next step
      rw [advance_of_next_none next]
      exact ⟨reads.evolves, reads.pass, fun there => by simpa using step there⟩
  | some item =>
      rw [found] at next step
      rw [advance_of_next_some next]
      exact ⟨reads.evolves, by simp, step⟩

theorem OverTuple.run (reads : now.OverTuple start cell items count)
    (made : cell < start.heap.size) (turns : List Turn) :
    (now.run turns).OverTuple start cell items (count + Turn.nexts turns) := by
  refine run_induction (OverTuple start cell items) (fun _ => True)
    (fun _ _ reads => reads.advance) ?_ turns (fun _ _ => trivial) count reads
  intro _ now interlude _ reads
  have onward := interlude.evolves now.machine
  have already := Nat.lt_of_lt_of_le made reads.evolves.heap.size_le
  exact ⟨reads.evolves.trans onward, reads.pass, fun there =>
    reads.given (onward.heap.tuple_back already there)⟩

end Tuples

theorem evolves_run (now : Traversal) (turns : List Turn) :
    now.machine.Evolves (now.run turns).machine := by
  refine run_induction (fun _ later => now.machine.Evolves later.machine) (fun _ => True)
    ?_ ?_ turns (fun _ _ => trivial) 0 (.refl now.machine)
  · intro _ later evolves
    exact evolves.trans (later.machine_advance ▸ Act.evolves_next later.pass later.machine)
  · intro _ later interlude _ evolves
    exact evolves.trans (interlude.evolves later.machine)

/-- Whatever keeps all cells at each turn keeps them through a whole run. -/
theorem retains_run {start : Machine} {now : Traversal} {turns : List Turn}
    (steady : Turn.Steady start.heap turns) (retains : start.heap.Retains now.machine.heap) :
    start.heap.Retains (now.run turns).machine.heap := by
  refine run_induction (fun _ later => start.heap.Retains later.machine.heap)
    (Interlude.IsSteady start.heap) ?_ ?_ turns steady 0 retains
  · intro _ now retains
    exact retains.trans (now.machine_advance ▸ Interlude.retains_next now.pass now.machine)
  · intro _ now interlude steady retains
    exact retains.trans (Interlude.retains (steady.retained retains))

section Dicts

variable {steady : Prop} {start : Machine} {entries : Entries} {count : Nat} {now : Traversal}

/-- A cell with the tuple of an entry: as long as it is a tuple, and at any rate while all that
happens is `steady`. -/
structure Shows (steady : Prop) (heap : Heap) (cell : CellId) (entry : Key × Value) : Prop where
  same : ∀ items, heap.get? cell = some (.tuple items) → items = [entry.1.value, entry.2]
  there : steady → heap.get? cell = some (.tuple [entry.1.value, entry.2])

theorem Shows.onward {before after : Heap} {cell : CellId} {entry : Key × Value}
    (shows : Shows steady before cell entry) (made : cell < before.size)
    (evolves : before.Evolves after) (retains : steady → before.Retains after) :
    Shows steady after cell entry where
  same items found := shows.same items (evolves.tuple_back made found)
  there isSteady := by
    have fits : before.Fits (.tuple cell) := .of_get? rfl (shows.there isSteady) trivial
    obtain ⟨items, isTuple⟩ := Heap.exists_of_fits_tuple ((retains isSteady).fits fits)
    rw [isTuple, shows.same items (evolves.tuple_back made isTuple)]

theorem forall₂_shows_onward {before after : Heap} {cells : List CellId} {entries : Entries}
    (made : ∀ cell ∈ cells, cell < before.size) (evolves : before.Evolves after)
    (retains : steady → before.Retains after)
    (shown : List.Forall₂ (Shows steady before) cells entries) :
    List.Forall₂ (Shows steady after) cells entries :=
  ((List.forall₂_and_left _ _).mpr ⟨made, shown⟩).imp fun _ _ both =>
    both.2.onward both.1 evolves retains

/-- A pass over a dict made a new tuple for each entry that it was asked for. -/
structure OverDict (steady : Prop) (start : Machine) (entries : Entries) (count : Nat)
    (now : Traversal) : Prop where
  evolves : start.Evolves now.machine
  retains : steady → start.heap.Retains now.machine.heap
  pass : now.pass = .entries (entries.drop count)
  given : ∃ cells : List CellId, now.given = cells.map .tuple ∧ cells.Nodup ∧
    (∀ cell ∈ cells, start.heap.size ≤ cell ∧ cell < now.machine.heap.size) ∧
      List.Forall₂ (Shows steady now.machine.heap) cells (entries.take count)

/-- The next tuple is made from the next entry of those at the start. -/
theorem OverDict.next (reads : now.OverDict steady start entries count) :
    now.pass.next now.machine =
      match entries[count]? with
      | none => .ok none now.machine
      | some entry =>
          .ok (some (.tuple now.machine.heap.size, .entries (entries.drop (count + 1))))
            { now.machine with
              heap := (now.machine.heap.alloc (.tuple [entry.1.value, entry.2])).2 } := by
  rw [reads.pass]
  cases found : entries[count]? with
  | none =>
      rw [List.drop_eq_nil_of_le (List.getElem?_eq_none_iff.mp found)]
      rfl
  | some entry =>
      obtain ⟨inside, isEntry⟩ := List.getElem?_eq_some_iff.mp found
      rw [List.drop_eq_getElem_cons inside, isEntry]
      rfl

theorem OverDict.advance (reads : now.OverDict steady start entries count) :
    now.advance.OverDict steady start entries (count + 1) := by
  have next := reads.next
  obtain ⟨cells, given, distinct, made, shown⟩ := reads.given
  cases found : entries[count]? with
  | none =>
      have past := List.getElem?_eq_none_iff.mp found
      rw [found] at next
      rw [advance_of_next_none next]
      refine ⟨reads.evolves, reads.retains, ?_, cells, given, distinct, made, ?_⟩
      · rw [reads.pass, List.drop_eq_nil_of_le past,
          List.drop_eq_nil_of_le (Nat.le_succ_of_le past)]
      · rwa [List.take_of_length_le (Nat.le_succ_of_le past), ← List.take_of_length_le past]
  | some entry =>
      rw [found] at next
      rw [advance_of_next_some next]
      let tuple : Cell := .tuple [entry.1.value, entry.2]
      have evolves := Act.evolves_newTuple [entry.1.value, entry.2] now.machine
      have retains : now.machine.heap.Retains (now.machine.heap.alloc tuple).2 := .alloc _ _
      have new : (now.machine.heap.alloc tuple).2.get? now.machine.heap.size = some tuple :=
        Heap.get?_alloc_size _ _
      have shows : Shows steady (now.machine.heap.alloc tuple).2 now.machine.heap.size entry := by
        refine ⟨fun items isTuple => ?_, fun _ => new⟩
        exact (Cell.tuple.inj (Option.some.inj (new.symm.trans isTuple))).symm
      have shown := forall₂_shows_onward (fun cell member => (made cell member).2) evolves.heap
        (fun _ => retains) shown
      refine ⟨reads.evolves.trans evolves, fun isSteady =>
        (reads.retains isSteady).trans retains, rfl, cells ++ [now.machine.heap.size],
        by simp [given], ?_, ?_, ?_⟩
      · refine List.nodup_append.mpr ⟨distinct, List.nodup_singleton _, ?_⟩
        simpa using fun cell member => Nat.ne_of_lt (made cell member).2
      · intro cell member
        rw [Heap.size_alloc]
        rcases List.mem_append.mp member with old | added
        · exact ⟨(made cell old).1, Nat.lt_succ_of_lt (made cell old).2⟩
        · rw [List.mem_singleton.mp added]
          exact ⟨reads.evolves.heap.size_le, Nat.lt_succ_self _⟩
      · rw [List.take_add_one, found]
        exact List.rel_append shown (.cons shows .nil)

theorem OverDict.run (reads : now.OverDict steady start entries count) (turns : List Turn)
    (allowed : steady → Turn.Steady start.heap turns) :
    (now.run turns).OverDict steady start entries (count + Turn.nexts turns) := by
  refine run_induction (OverDict steady start entries)
    (fun interlude => steady → interlude.IsSteady start.heap) (fun _ _ reads => reads.advance) ?_
    turns (fun interlude member isSteady => allowed isSteady interlude member) count reads
  intro _ now interlude allowed reads
  have evolves := interlude.evolves now.machine
  have retains : steady → now.machine.heap.Retains (interlude.leaves now.machine).heap :=
    fun isSteady => Interlude.retains ((allowed isSteady).retained (reads.retains isSteady))
  obtain ⟨cells, given, distinct, made, shown⟩ := reads.given
  refine ⟨reads.evolves.trans evolves, fun isSteady =>
    (reads.retains isSteady).trans (retains isSteady), reads.pass, cells, given, distinct, ?_, ?_⟩
  · intro cell member
    exact ⟨(made cell member).1, Nat.lt_of_lt_of_le (made cell member).2 evolves.heap.size_le⟩
  · exact forall₂_shows_onward (fun cell member => (made cell member).2) evolves.heap retains shown

end Dicts

/-- What a pass over a list gives: at each step the item at the next position of the list as it is
then, and no more once that is past the end. -/
structure ReadsList (start : Machine) (cell : CellId) (now : Traversal) : Prop where
  next : now.pass.next now.machine =
    .ok ((now.machine.heap.listItems cell)[now.given.length]?.map
      (·, .list cell (now.given.length + 1))) now.machine
  finite : now.given.length ≤ (start.heap.listItems cell).length
  ended : (now.machine.heap.listItems cell).length ≤ now.given.length →
    ∀ later : List Turn, (now.run later).given = now.given ∧
      (now.run later).pass.next (now.run later).machine = .ok none (now.run later).machine

/-- What a pass over a tuple gives: its items in order, which stay what they are. -/
structure ReadsTuple (start : Machine) (cell : CellId) (turns : List Turn) (items : List Value)
    (now : Traversal) : Prop where
  given : now.machine.heap.get? cell = some (.tuple items) →
    now.given = items.take (Turn.nexts turns)
  same : ∀ later, now.machine.heap.get? cell = some (.tuple later) → later = items
  there : Turn.Steady start.heap turns → now.machine.heap.get? cell = some (.tuple items)

/-- What a pass over a dict gives: one new tuple for each entry of the start. -/
structure ReadsDict (start : Machine) (entries : Entries) (turns : List Turn) (now : Traversal) :
    Prop where
  next : now.pass.next now.machine =
    match entries[Turn.nexts turns]? with
    | none => .ok none now.machine
    | some entry =>
        .ok (some (.tuple now.machine.heap.size, .entries (entries.drop (Turn.nexts turns + 1))))
          { now.machine with
            heap := (now.machine.heap.alloc (.tuple [entry.1.value, entry.2])).2 }
  given : ∃ cells : List CellId, now.given = cells.map .tuple ∧ cells.Nodup ∧
    (∀ cell ∈ cells, start.heap.size ≤ cell) ∧
      List.Forall₂ (Shows (Turn.Steady start.heap turns) now.machine.heap) cells
        (entries.take (Turn.nexts turns))

end Traversal

/-- What a pass gives while other things happen is told by the container at the start of the pass,
and for a list also by what becomes of the list. -/
def Iterable.Reflects (start : Machine) (turns : List Turn) (iterable : Iterable) : Prop :=
  let now := (iterable.begin start).run turns
  match iterable with
  | .list cell => cell < start.heap.size → now.ReadsList start cell
  | .tuple cell => ∀ items, start.heap.get? cell = some (.tuple items) →
      now.ReadsTuple start cell turns items
  | .dict cell => now.ReadsDict start (start.heap.dictEntries cell) turns

theorem Iterable.reflects (iterable : Iterable) (start : Machine) (turns : List Turn) :
    iterable.Reflects start turns := by
  cases iterable with
  | list cell =>
      intro made
      have begun : ((Iterable.list cell).begin start).OverList start cell :=
        ⟨.refl _, rfl, Nat.zero_le _⟩
      have reads := begun.run made turns
      refine ⟨reads.next, reads.finite, fun past later => ?_⟩
      have ended := Traversal.PastList.run ⟨reads, rfl, past⟩ made later
      exact ⟨ended.same, ended.next⟩
  | tuple cell =>
      intro items found
      have made := Heap.lt_size_of_get? found
      have begun : ((Iterable.tuple cell).begin start).OverTuple start cell items 0 :=
        ⟨.refl _, rfl, fun _ => rfl⟩
      have reads := begun.run made turns
      rw [Nat.zero_add] at reads
      have same : ∀ later, ((Iterable.tuple cell).begin start |>.run turns).machine.heap.get? cell =
          some (.tuple later) → later = items := by
        intro later isTuple
        have back := reads.evolves.heap.tuple_back made isTuple
        rw [found] at back
        cases back
        rfl
      refine ⟨reads.given, same, fun steady => ?_⟩
      have retains : start.heap.Retains
          (((Iterable.tuple cell).begin start).run turns).machine.heap :=
        Traversal.retains_run steady (.refl _)
      have fits : start.heap.Fits (.tuple cell) := .of_get? rfl found trivial
      obtain ⟨later, isTuple⟩ := Heap.exists_of_fits_tuple (retains.fits fits)
      rwa [same later isTuple] at isTuple
  | dict cell =>
      have begun : ((Iterable.dict cell).begin start).OverDict (Turn.Steady start.heap turns) start
          (start.heap.dictEntries cell) 0 :=
        ⟨.refl _, fun _ => .refl _, rfl, [], rfl, .nil, by simp, .nil⟩
      have reads := begun.run turns id
      rw [Nat.zero_add] at reads
      obtain ⟨cells, given, distinct, made, shown⟩ := reads.given
      exact ⟨reads.next, cells, given, distinct, fun id member => (made id member).1, shown⟩

namespace Act

/-- What follows an action is the same if it is the same on whatever the action leaves. -/
theorem bind_eq_of_ok {α β : Type} {action : Act α} {next other : α → Act β} {machine : Machine}
    (same : ∀ value after, action machine = .ok value after →
      next value after = other value after) :
    (action >>= next) machine = (action >>= other) machine := by
  simp only [Bind.bind, EStateM.bind]
  cases ran : action machine with
  | ok value after => exact same value after ran
  | error stop after => rfl

/-- A loop over a pass goes on until the pass ends, whatever its body does: a limit that the pass
can keep at the start is never what stops it. -/
theorem runEach_limit {run : Act Completion} (evolves : Evolves run) (frame : CellId)
    (name : String) (limit more : Nat) {pass : Pass} {machine : Machine}
    (begun : pass.Begun machine.heap) (enough : pass.bound machine.heap ≤ limit) :
    runEach frame name run (limit + more) pass machine =
      runEach frame name run limit pass machine := by
  induction limit generalizing pass machine with
  | zero =>
      cases more with
      | zero => rfl
      | succ more =>
          rw [Nat.zero_add, runEach, runEach]
          have steps := pass.steps_next machine
          simp only [Bind.bind, EStateM.bind]
          generalize pass.next machine = taken at steps
          cases steps with
          | ended spent => rfl
          | gives item rest after less _ => omega
  | succ limit ih =>
      rw [Nat.add_right_comm, runEach, runEach]
      refine bind_eq_of_ok fun taken after took => ?_
      have steps := pass.steps_next machine
      rw [took] at steps
      cases steps with
      | ended spent => rfl
      | gives item rest after less begunRest =>
          refine bind_eq_of_ok fun string pooled interned => ?_
          refine bind_eq_of_ok fun _ defined bound => ?_
          refine bind_eq_of_ok fun completion finished ran => ?_
          cases completion with
          | given result => rfl
          | reached last =>
              have body := (evolves.holding rest.hold).of_ok ran
              have named := (evolves_define frame string item).of_ok bound
              have later := ((evolves_intern name).of_ok interned).trans (named.trans body)
              have fewer := Pass.bound_le (begunRest begun) later.heap
              exact ih ((begunRest begun).later later.heap) (by omega)

end Act

/-- Passes reflect what they are over and end: a list is read step by step and never gets longer,
while a tuple and a dict give what was there at the start.  Another pass over the same begins
anew. -/
theorem passes_are_finite_under_mutation (iterable : Iterable) (start : Machine)
    (turns : List Turn) :
    let now := (iterable.begin start).run turns
    iterable.Reflects start turns ∧
      (∀ again : List Turn, iterable.Reflects now.machine again) ∧
      ∀ cell < start.heap.size,
        (now.machine.heap.listItems cell).length ≤ (start.heap.listItems cell).length := by
  intro now
  refine ⟨iterable.reflects start turns, iterable.reflects now.machine, fun cell made => ?_⟩
  exact ((iterable.begin start).evolves_run turns).heap.length_listItems_le made

/-- A pass over three numbers misses the second if the first is deleted after it was given. -/
theorem pass_misses_item_after_deletion :
    let start : Machine := { heap := ⟨#[some (.list [.int 1, .int 2, .int 3])]⟩ }
    let turns : List Turn :=
      [.next, .between (.deleteItem (.list 0) (.int 0)), .next, .next]
    let now := ((Iterable.list 0).begin start).run turns
    now.ReadsList start 0 ∧ now.given.map Value.number? = [some 1, some 3] := by
  intro start turns now
  have reads := (passes_are_finite_under_mutation (.list 0) start turns).1
  exact ⟨reads (by decide), by decide +kernel⟩

end ScriptCore
