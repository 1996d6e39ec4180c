import ScriptCore.Call
import ScriptCore.Proofs.InstanceAttributes
import ScriptCore.Proofs.ItemChanges

/-!
# Failing mutations

Whatever is to change containers, attributes or frames checks everything first.  If it fails, the
machine is what it was.
-/

namespace ScriptCore

/-- A pass by position, over a tuple or a list. -/
def Pass.IsPositional : Pass → Prop
  | .entries _ => False
  | _ => True

namespace Act

/-- An action that changes nothing when it stops early. -/
def Atomic (action : Act α) : Prop :=
  ∀ machine stop after, action machine = .error stop after → after = machine

/-- An action that changes nothing when it gives a result. -/
def Reading (action : Act α) : Prop :=
  ∀ machine value after, action machine = .ok value after → after = machine

/-- An action that always gives a result. -/
def Succeeds (action : Act α) : Prop :=
  ∀ machine, ∃ value after, action machine = .ok value after

section Composition

variable {α β : Type} {action : Act α} {next : α → Act β}

theorem Succeeds.atomic (succeeds : Succeeds action) : Atomic action := by
  intro machine stop after failed
  obtain ⟨value, last, given⟩ := succeeds machine
  rw [given] at failed
  cases failed

theorem Succeeds.bind (first : Succeeds action) (second : ∀ value, Succeeds (next value)) :
    Succeeds (action >>= next) := by
  intro machine
  obtain ⟨value, middle, given⟩ := first machine
  obtain ⟨result, after, onward⟩ := second value middle
  refine ⟨result, after, ?_⟩
  simp only [Bind.bind, EStateM.bind, given, onward]

theorem succeeds_pure (value : α) : Succeeds (pure value : Act α) :=
  fun machine => ⟨value, machine, rfl⟩

theorem atomic_fail (error : Error) : Atomic (fail error : Act α) := by
  intro machine stop after failed
  cases failed
  rfl

theorem reading_fail (error : Error) : Reading (fail error : Act α) := by
  intro machine value after given
  cases given

/-- If nothing changed before the last part, it decides alone. -/
theorem Atomic.bind (first : Atomic action) (reading : Reading action)
    (second : ∀ value, Atomic (next value)) : Atomic (action >>= next) := by
  intro machine stop after failed
  simp only [Bind.bind, EStateM.bind] at failed
  cases ran : action machine with
  | ok value middle =>
      rw [ran] at failed
      obtain rfl := reading machine value middle ran
      exact second value _ stop after failed
  | error reason middle =>
      rw [ran] at failed
      cases failed
      exact first machine stop _ ran

/-- What cannot fail may follow anything. -/
theorem Atomic.bind_succeeds (first : Atomic action) (second : ∀ value, Succeeds (next value)) :
    Atomic (action >>= next) := by
  intro machine stop after failed
  simp only [Bind.bind, EStateM.bind] at failed
  cases ran : action machine with
  | ok value middle =>
      obtain ⟨result, last, given⟩ := second value middle
      simp only [ran, given] at failed
      cases failed
  | error reason middle =>
      rw [ran] at failed
      cases failed
      exact first machine stop _ ran

theorem Atomic.handling {handler : Error → Act α} (first : Atomic action)
    (second : ∀ error, Atomic (handler error)) : Atomic (handling action handler) := by
  intro machine stop after failed
  rw [Act.handling] at failed
  cases ran : action machine with
  | ok value middle =>
      rw [ran] at failed
      cases failed
  | error reason middle =>
      obtain rfl := first machine reason middle ran
      rw [ran] at failed
      cases reason with
      | error error => exact second error _ stop after failed
      | exhausted =>
          cases failed
          rfl
      | malformed reason =>
          cases failed
          rfl
      | fault fault =>
          cases failed
          rfl

theorem atomic_heap {next : Heap → Act β} (rest : ∀ heap, Atomic (next heap)) :
    Atomic (heap >>= next) :=
  fun machine => rest machine.heap machine

theorem atomic_ofExcept (outcome : Except Error α) : Atomic (ofExcept outcome) := by
  cases outcome with
  | ok value => exact (succeeds_pure value).atomic
  | error error => exact atomic_fail error

theorem reading_ofExcept (outcome : Except Error α) : Reading (ofExcept outcome) := by
  cases outcome with
  | ok value =>
      intro machine given after same
      cases same
      rfl
  | error error => exact reading_fail error

theorem atomic_ofExcept_bind {outcome : Except Error α} (rest : ∀ value, Atomic (next value)) :
    Atomic (ofExcept outcome >>= next) :=
  (atomic_ofExcept outcome).bind (reading_ofExcept outcome) rest

theorem succeeds_alloc (cell : Cell) : Succeeds (alloc cell) :=
  fun _ => ⟨_, _, rfl⟩

theorem succeeds_newList (items : List Value) : Succeeds (newList items) :=
  (succeeds_alloc _).bind fun _ => succeeds_pure _

theorem succeeds_newTuple (items : List Value) : Succeeds (newTuple items) :=
  (succeeds_alloc _).bind fun _ => succeeds_pure _

theorem succeeds_newString (text : String) : Succeeds (newString text) :=
  fun _ => ⟨_, _, rfl⟩

end Composition

section Mutations

theorem atomic_setItem (container index value : Value) :
    Atomic (setItem container index value) := by
  intro machine stop after failed
  have assigns := assigns_setItem machine container index value
  rw [failed] at assigns
  cases assigns
  rfl

theorem atomic_deleteItem (container index : Value) : Atomic (deleteItem container index) := by
  intro machine stop after failed
  have deletes := deletes_deleteItem machine container index
  rw [failed] at deletes
  cases deletes
  rfl

theorem atomic_setAttr (target : Value) (name : Str) (value : Value) :
    Atomic (setAttr target name value) := by
  intro machine stop after failed
  rw [setAttr_eq] at failed
  split at failed
  · cases failed
  · cases failed
    rfl

theorem atomic_delAttr (target : Value) (name : String) : Atomic (delAttr target name) := by
  intro machine stop after failed
  rw [delAttr_eq] at failed
  split at failed
  · cases failed
  · cases failed
    rfl

theorem atomic_getAttr (target : Value) (name : String) : Atomic (getAttr target name) := by
  intro machine stop after failed
  have reads := reads_getAttr target machine name
  rw [failed] at reads
  cases reads
  rfl

theorem atomic_newClass (name : Str) (superclass : Option CellId) (attributes : Names) :
    Atomic (newClass name superclass attributes) := by
  unfold newClass
  split
  · exact atomic_fail _
  · exact ((succeeds_alloc _).bind fun _ => succeeds_pure _).atomic

theorem atomic_newDict (pairs : List (Value × Value)) : Atomic (newDict pairs) :=
  atomic_ofExcept_bind fun _ => ((succeeds_alloc _).bind fun _ => succeeds_pure _).atomic

theorem atomic_newSet (items : List Value) : Atomic (newSet items) :=
  atomic_ofExcept_bind fun _ => ((succeeds_alloc _).bind fun _ => succeeds_pure _).atomic

/-- The frame is marked as captured only when it is sure that the function is made. -/
theorem atomic_newFunction (defining : CellId) (name : Str) (params : List Str)
    (defaults : List Expr) (body : Block) :
    Atomic (newFunction defining name params defaults body) := by
  unfold newFunction
  split
  · exact atomic_fail _
  · exact Succeeds.atomic fun _ => ⟨_, _, rfl⟩

end Mutations

section Builtins

theorem drain_succ {limit : Nat} {pass rest : Pass} {machine middle after : Machine} {item : Value}
    {items : List Value} (taken : pass.next machine = .ok (some (item, rest)) middle)
    (drained : rest.drain limit middle = .ok items after) :
    pass.drain (limit + 1) machine = .ok (item :: items) after := by
  simp only [Pass.drain, Bind.bind, EStateM.bind, taken, drained]
  rfl

theorem next_of_isPositional {pass : Pass} (positional : pass.IsPositional) (machine : Machine) :
    pass.next machine = .ok none machine ∨
      ∃ item rest, pass.next machine = .ok (some (item, rest)) machine ∧ rest.IsPositional := by
  cases pass with
  | tuple cell position =>
      cases found : (machine.heap.tupleItems cell)[position]? with
      | none =>
          left
          simp only [Pass.next, heap_bind, found]
          rfl
      | some item =>
          right
          refine ⟨item, .tuple cell (position + 1), ?_, trivial⟩
          simp only [Pass.next, heap_bind, found]
          rfl
  | list cell position =>
      cases found : (machine.heap.listItems cell)[position]? with
      | none =>
          left
          simp only [Pass.next, heap_bind, found]
          rfl
      | some item =>
          right
          refine ⟨item, .list cell (position + 1), ?_, trivial⟩
          simp only [Pass.next, heap_bind, found]
          rfl
  | entries rest => exact positional.elim

/-- A pass by position makes nothing. -/
theorem drain_of_isPositional (limit : Nat) {pass : Pass} (positional : pass.IsPositional)
    (machine : Machine) : ∃ items, pass.drain limit machine = .ok items machine := by
  induction limit generalizing pass with
  | zero => exact ⟨[], rfl⟩
  | succ limit ih =>
      rcases next_of_isPositional positional machine with ended | ⟨item, rest, taken, still⟩
      · refine ⟨[], ?_⟩
        simp only [Pass.drain, Bind.bind, EStateM.bind, ended]
        rfl
      · obtain ⟨items, drained⟩ := ih still
        exact ⟨item :: items, drain_succ taken drained⟩

/-- A pass over the entries of a dict makes a tuple of each. -/
theorem drain_entries (limit : Nat) (rest : Entries) (machine : Machine) :
    ∃ items after, Pass.drain limit (.entries rest) machine = .ok items after ∧
      ∀ item ∈ items, item.isHashable = true := by
  induction limit generalizing rest machine with
  | zero => exact ⟨[], machine, rfl, by simp⟩
  | succ limit ih =>
      cases rest with
      | nil => exact ⟨[], machine, rfl, by simp⟩
      | cons entry rest =>
          obtain ⟨key, value⟩ := entry
          obtain ⟨items, after, drained, hashable⟩ := ih rest
            { machine with heap := (machine.heap.alloc (.tuple [key.value, value])).2 }
          refine ⟨.tuple machine.heap.size :: items, after, drain_succ rfl drained, ?_⟩
          exact List.forall_mem_cons.mpr ⟨rfl, hashable⟩

/-- All that can come of collecting the items of a value: a failure that changes nothing, items
that were there already, or new items that may be members of a set. -/
inductive Collects (machine : Machine) : EStateM.Result Stop Machine (List Value) → Prop
  | refused (error : Error) : Collects machine (.error (.error error) machine)
  | present (items : List Value) : Collects machine (.ok items machine)
  | made (items : List Value) (after : Machine)
      (hashable : ∀ item ∈ items, item.isHashable = true) : Collects machine (.ok items after)

theorem collects_elements (value : Value) (machine : Machine) :
    Collects machine (elements value machine) := by
  cases value with
  | tuple cell =>
      obtain ⟨items, drained⟩ := drain_of_isPositional (machine.heap.tupleItems cell).length
        (show (Pass.tuple cell 0).IsPositional from trivial) machine
      have collected : elements (.tuple cell) machine = .ok items machine := drained
      rw [collected]
      exact .present items
  | list cell =>
      obtain ⟨items, drained⟩ := drain_of_isPositional (machine.heap.listItems cell).length
        (show (Pass.list cell 0).IsPositional from trivial) machine
      have collected : elements (.list cell) machine = .ok items machine := drained
      rw [collected]
      exact .present items
  | dict cell =>
      obtain ⟨items, after, drained, hashable⟩ := drain_entries
        (machine.heap.dictEntries cell).length (machine.heap.dictEntries cell) machine
      have collected : elements (.dict cell) machine = .ok items after := drained
      rw [collected]
      exact .made items after hashable
  | _ => exact .refused _

theorem collects_elementsOf (function : Standard) (arguments : List Value) (machine : Machine) :
    Collects machine (elementsOf function arguments machine) := by
  match arguments with
  | [] => exact .present []
  | [value] => exact collects_elements value machine
  | _ :: _ :: _ => exact .refused _

theorem atomic_elementsOf (function : Standard) (arguments : List Value) :
    Atomic (elementsOf function arguments) := by
  intro machine stop after failed
  have collects := collects_elementsOf function arguments machine
  rw [failed] at collects
  cases collects
  rfl

theorem exists_mapM_ofValue {items : List Value}
    (hashable : ∀ item ∈ items, item.isHashable = true) :
    ∃ keys, items.mapM Key.ofValue = .ok keys := by
  induction items with
  | nil => exact ⟨[], rfl⟩
  | cons item rest ih =>
      obtain ⟨first, others⟩ := List.forall_mem_cons.mp hashable
      obtain ⟨keys, given⟩ := ih others
      refine ⟨⟨item, first⟩ :: keys, ?_⟩
      simp [List.mapM_cons, Key.ofValue, first, given, Bind.bind, Except.bind, pure, Except.pure]

theorem succeeds_newSet {items : List Value} (hashable : ∀ item ∈ items, item.isHashable = true) :
    Succeeds (newSet items) := by
  obtain ⟨keys, given⟩ := exists_mapM_ofValue hashable
  intro machine
  rw [newSet, given]
  exact ⟨_, _, rfl⟩

/-- A set is refused for an item that may not be a member.  Only the entries of a dict are made
into new items, and these may. -/
theorem atomic_elementsOf_newSet (function : Standard) (arguments : List Value) :
    Atomic (elementsOf function arguments >>= newSet) := by
  intro machine stop after failed
  simp only [Bind.bind, EStateM.bind] at failed
  have collects := collects_elementsOf function arguments machine
  generalize elementsOf function arguments machine = collected at failed collects
  cases collects with
  | refused error =>
      cases failed
      rfl
  | present items => exact atomic_newSet items machine stop after failed
  | made items middle hashable =>
      obtain ⟨value, last, given⟩ := succeeds_newSet hashable middle
      simp only [given] at failed
      cases failed

theorem atomic_attributeName_bind (function : Standard) (name : Value) {next : Str → Act Value}
    (rest : ∀ name, Atomic (next name)) : Atomic (attributeName function name >>= next) := by
  cases name with
  | string name => exact rest name
  | _ =>
      intro machine stop after failed
      cases failed
      rfl

theorem atomic_getAttrOr (target : Value) (name : String) (default : Value) :
    Atomic (getAttrOr target name default) := by
  refine (atomic_getAttr target name).handling fun error => ?_
  split
  · exact (succeeds_pure _).atomic
  · exact atomic_fail error

theorem atomic_hasAttr (target : Value) (name : String) : Atomic (hasAttr target name) := by
  refine ((atomic_getAttr target name).bind_succeeds fun _ => succeeds_pure _).handling
    fun error => ?_
  split
  · exact (succeeds_pure _).atomic
  · exact atomic_fail error

theorem atomic_textOf (value : Value) : Atomic (textOf value) := by
  cases value with
  | string text => exact (succeeds_pure _).atomic
  | _ => exact atomic_heap fun _ => (succeeds_newString _).atomic

theorem atomic_makeText (function : Standard) (arguments : List Value) :
    Atomic (makeText function arguments) := by
  unfold makeText
  split
  · exact (succeeds_newString _).atomic
  · exact atomic_textOf _
  · exact atomic_fail _

theorem atomic_testInstance (value cls : Value) : Atomic (testInstance value cls) := by
  cases cls with
  | classObject cell => exact atomic_heap fun _ => (succeeds_pure _).atomic
  | _ => exact atomic_fail _

theorem atomic_readAttr (function : Standard) (arguments : List Value) :
    Atomic (readAttr function arguments) := by
  unfold readAttr
  split
  · exact atomic_attributeName_bind _ _ fun _ => atomic_getAttrOr _ _ _
  · exact exactlyTwo_cases atomic_fail fun _ _ _ =>
      atomic_attributeName_bind _ _ fun _ => atomic_getAttr _ _

/-- Every standard builtin. -/
theorem atomic_runStandard (function : Standard) (arguments : List Value) :
    Atomic (runStandard function arguments) := by
  cases function with
  | len =>
      exact exactlyOne_cases atomic_fail fun _ _ =>
        atomic_heap fun _ => atomic_ofExcept_bind fun _ => (succeeds_pure _).atomic
  | print => exact Succeeds.atomic fun _ => ⟨_, _, rfl⟩
  | repr =>
      exact exactlyOne_cases atomic_fail fun _ _ =>
        atomic_heap fun _ => (succeeds_newString _).atomic
  | str => exact atomic_makeText _ _
  | list => exact (atomic_elementsOf _ _).bind_succeeds succeeds_newList
  | tuple => exact (atomic_elementsOf _ _).bind_succeeds succeeds_newTuple
  | set => exact atomic_elementsOf_newSet _ _
  | isinstance => exact exactlyTwo_cases atomic_fail fun _ _ _ => atomic_testInstance _ _
  | getattr => exact atomic_readAttr _ _
  | setattr =>
      exact exactlyThree_cases atomic_fail fun _ _ _ _ =>
        atomic_attributeName_bind _ _ fun _ =>
          (atomic_setAttr _ _ _).bind_succeeds fun _ => succeeds_pure _
  | hasattr =>
      exact exactlyTwo_cases atomic_fail fun _ _ _ =>
        atomic_attributeName_bind _ _ fun _ =>
          (atomic_hasAttr _ _).bind_succeeds fun _ => succeeds_pure _
  | delattr =>
      exact exactlyTwo_cases atomic_fail fun _ _ _ =>
        atomic_attributeName_bind _ _ fun _ =>
          (atomic_delAttr _ _).bind_succeeds fun _ => succeeds_pure _
  | delitem => exact exactlyTwo_cases atomic_fail fun _ _ _ => atomic_deleteItem _ _

end Builtins

end Act

/-- Something that is to change containers, attributes or frames, or to make a part of them. -/
inductive Mutation
  | setItem (container index value : Value)
  | deleteItem (container index : Value)
  | setAttr (target : Value) (name : Str) (value : Value)
  | delAttr (target : Value) (name : String)
  | newClass (name : Str) (superclass : Option CellId) (attributes : Names)
  | newDict (pairs : List (Value × Value))
  | newSet (items : List Value)
  | newFunction (defining : CellId) (name : Str) (params : List Str) (defaults : List Expr)
      (body : Block)
  | builtin (function : Standard) (arguments : List Value)

namespace Mutation

/-- What a mutation does. -/
def act : Mutation → Act Value
  | setItem container index value => do
      Act.setItem container index value
      return .nothing
  | deleteItem container index => Act.deleteItem container index
  | setAttr target name value => do
      Act.setAttr target name value
      return .nothing
  | delAttr target name => Act.delAttr target name
  | newClass name superclass attributes => Act.newClass name superclass attributes
  | newDict pairs => Act.newDict pairs
  | newSet items => Act.newSet items
  | newFunction defining name params defaults body =>
      Act.newFunction defining name params defaults body
  | builtin function arguments => Act.runStandard function arguments

/-- A failing mutation changes nothing: no container, no attributes, no frame, no global. -/
theorem unchanged_of_failed (mutation : Mutation) {machine after : Machine} {stop : Stop}
    (failed : mutation.act machine = .error stop after) : after = machine := by
  suffices atomic : mutation.act.Atomic from atomic machine stop after failed
  cases mutation with
  | setItem container index value =>
      exact (Act.atomic_setItem container index value).bind_succeeds fun _ => Act.succeeds_pure _
  | deleteItem container index => exact Act.atomic_deleteItem container index
  | setAttr target name value =>
      exact (Act.atomic_setAttr target name value).bind_succeeds fun _ => Act.succeeds_pure _
  | delAttr target name => exact Act.atomic_delAttr target name
  | newClass name superclass attributes => exact Act.atomic_newClass name superclass attributes
  | newDict pairs => exact Act.atomic_newDict pairs
  | newSet items => exact Act.atomic_newSet items
  | newFunction defining name params defaults body =>
      exact Act.atomic_newFunction defining name params defaults body
  | builtin function arguments => exact Act.atomic_runStandard function arguments

/-- A list may not be a member of a set, and the failure to make one leaves the lists alone. -/
theorem unchanged_of_unhashable_member :
    let machine : Machine := { heap := ⟨#[some (.list [.nothing, .list 1]), some (.list [])]⟩ }
    ∃ after, (builtin .set [.list 0]).act machine = .error (.error (.unhashable "list")) after ∧
      after = machine :=
  ⟨_, rfl, unchanged_of_failed (builtin .set [.list 0]) rfl⟩

end Mutation

end ScriptCore
