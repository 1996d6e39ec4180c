import ScriptCore.Call
import ScriptCore.Proofs.Failures
import ScriptCore.Proofs.ListChanges

/-!
# Why builtins stop

A standard builtin stops early only with a failure of the language.  The one that computes with
words is a deletion from a list, and it stays among the words as long as one of them is the length
of the list.
-/

namespace ScriptCore

namespace Act

/-- Whatever stops an action on a machine is a failure of the language. -/
def OrdinaryOn {α : Type} (machine : Machine) (action : Act α) : Prop :=
  ∀ stop after, action machine = .error stop after → ∃ error, stop = .error error

/-- Whatever stops an action is a failure of the language. -/
def Ordinary {α : Type} (action : Act α) : Prop :=
  ∀ machine, OrdinaryOn machine action

section Composition

variable {α β : Type} {action : Act α} {next : α → Act β}

theorem ordinary_fail (error : Error) : Ordinary (fail error : Act α) := by
  intro machine stop after failed
  cases failed
  exact ⟨error, rfl⟩

theorem Succeeds.ordinary (succeeds : Succeeds action) : Ordinary action := by
  intro machine stop after failed
  obtain ⟨value, last, given⟩ := succeeds machine
  rw [given] at failed
  cases failed

theorem ordinary_pure (value : α) : Ordinary (pure value : Act α) :=
  (succeeds_pure value).ordinary

theorem Ordinary.bind (first : Ordinary action) (second : ∀ value, Ordinary (next value)) :
    Ordinary (action >>= next) := by
  intro machine stop after failed
  simp only [Bind.bind, EStateM.bind] at failed
  cases ran : action machine with
  | ok value middle =>
      rw [ran] at failed
      exact second value middle stop after failed
  | error reason middle =>
      rw [ran] at failed
      cases failed
      exact first machine stop _ ran

theorem Ordinary.handling {handler : Error → Act α} (first : Ordinary action)
    (second : ∀ error, Ordinary (handler error)) : Ordinary (handling action handler) := by
  intro machine stop after failed
  rw [Act.handling] at failed
  cases ran : action machine with
  | ok value middle =>
      rw [ran] at failed
      cases failed
  | error reason middle =>
      obtain ⟨error, rfl⟩ := first machine reason middle ran
      rw [ran] at failed
      exact second error middle stop after failed

theorem ordinary_ofExcept (outcome : Except Error α) : Ordinary (ofExcept outcome) := by
  cases outcome with
  | ok value => exact ordinary_pure value
  | error error => exact ordinary_fail error

theorem ordinary_heap {next : Heap → Act β} (rest : ∀ heap, Ordinary (next heap)) :
    Ordinary (heap >>= next) :=
  fun machine => rest machine.heap machine

end Composition

section Attributes

theorem ordinary_newNamesDict (names : Names) : Ordinary (newNamesDict names) :=
  ((succeeds_alloc _).bind fun _ => succeeds_pure _).ordinary

theorem ordinary_getObjectAttr (cell : CellId) (name : String) :
    Ordinary (getObjectAttr cell name) := by
  refine ordinary_heap fun heap => ?_
  split
  · exact ordinary_fail _
  · split_ifs
    · exact ordinary_pure _
    · exact ordinary_newNamesDict _
    · split
      · exact ordinary_pure _
      · split
        · exact ((succeeds_alloc _).bind fun _ => succeeds_pure _).ordinary
        · exact ordinary_pure _
        · exact ordinary_fail _

theorem ordinary_getClassAttr (cell : CellId) (name : String) :
    Ordinary (getClassAttr cell name) := by
  refine ordinary_heap fun heap => ?_
  split
  · exact ordinary_fail _
  · split_ifs
    · exact ordinary_pure _
    · exact ordinary_pure _
    · exact ordinary_newNamesDict _
    · exact ordinary_fail _
    · split
      · exact ordinary_pure _
      · exact ordinary_fail _

theorem ordinary_getAttr (target : Value) (name : String) : Ordinary (getAttr target name) := by
  refine ordinary_heap fun heap => ?_
  cases target with
  | object cell => exact ordinary_getObjectAttr cell name
  | classObject cell => exact ordinary_getClassAttr cell name
  | function cell =>
      dsimp only
      split_ifs
      · exact ordinary_pure _
      · exact ordinary_fail _
  | builtin builtin =>
      dsimp only
      split_ifs
      · exact ordinary_pure _
      · exact ordinary_fail _
  | method cell receiver code =>
      dsimp only
      split_ifs
      · exact ordinary_pure _
      · exact ordinary_pure _
      · exact ordinary_pure _
      · exact ordinary_fail _
  | _ => exact ordinary_fail _

theorem ordinary_setAttr (target : Value) (name : Str) (value : Value) :
    Ordinary (setAttr target name value) := by
  intro machine stop after failed
  rw [setAttr_eq] at failed
  split at failed
  · cases failed
  · cases failed
    exact ⟨_, rfl⟩

theorem ordinary_delAttr (target : Value) (name : String) : Ordinary (delAttr target name) := by
  intro machine stop after failed
  rw [delAttr_eq] at failed
  split at failed
  · cases failed
  · cases failed
    exact ⟨_, rfl⟩

theorem ordinary_attributeName (function : Standard) (name : Value) :
    Ordinary (attributeName function name) := by
  cases name with
  | string name => exact ordinary_pure name
  | _ => exact ordinary_heap fun heap => ordinary_fail _

theorem ordinary_getAttrOr (target : Value) (name : String) (default : Value) :
    Ordinary (getAttrOr target name default) := by
  refine (ordinary_getAttr target name).handling fun error => ?_
  split
  · exact ordinary_pure _
  · exact ordinary_fail error

theorem ordinary_hasAttr (target : Value) (name : String) : Ordinary (hasAttr target name) := by
  refine ((ordinary_getAttr target name).bind fun _ => ordinary_pure _).handling fun error => ?_
  split
  · exact ordinary_pure _
  · exact ordinary_fail error

end Attributes

section Items

theorem ordinary_elementsOf (function : Standard) (arguments : List Value) :
    Ordinary (elementsOf function arguments) := by
  intro machine stop after failed
  have collects := collects_elementsOf function arguments machine
  rw [failed] at collects
  cases collects
  exact ⟨_, rfl⟩

theorem ordinary_newSet (items : List Value) : Ordinary (newSet items) :=
  (ordinary_ofExcept _).bind fun _ => ((succeeds_alloc _).bind fun _ => succeeds_pure _).ordinary

/-- The range check leaves a place of the list, and a slice can always be removed. -/
theorem ordinaryOn_deleteItem_list {machine : Machine} {cell : CellId} {items : List Value}
    (listed : machine.heap.listItems cell = items) (fits : items.length < 2 ^ 63) (index : Value) :
    OrdinaryOn machine (deleteItem (.list cell) index) := by
  unfold OrdinaryOn
  simp only [deleteItem, heap_bind, listed]
  cases machine.heap.index (.list cell) index with
  | error error => exact ordinary_fail error machine
  | ok place =>
      simp only [ofExcept, pure_bind]
      cases place with
      | slice slice =>
          obtain ⟨before, selected, behind, -, -, -, removed⟩ := Slice.exists_split slice fits
          simp only [removed]
          exact Succeeds.ordinary (fun _ => ⟨_, _, rfl⟩) machine
      | position position =>
          obtain ⟨word, moved, exact⟩ := Index.exists_shift fits position
          rw [Index.shift] at moved
          simp only [moved, resume, pure_bind]
          split_ifs with beyond
          · exact ordinary_fail _ machine
          · have inside := Decidable.not_not.mp fun outside =>
              beyond ((Index.beyond_iff fits exact).mpr outside)
            obtain ⟨before, item, behind, rfl, meant⟩ := Index.exists_split inside
            have here : (before ++ item :: behind)[Word.toPlace word]? = some item := by
              simp [Index.toPlace_eq exact meant]
            simp only [here]
            exact Succeeds.ordinary (fun _ => ⟨_, _, rfl⟩) machine

theorem ordinaryOn_deleteItem {machine : Machine} {container : Value} (index : Value)
    (fits : ∀ cell, container = .list cell → (machine.heap.listItems cell).length < 2 ^ 63) :
    OrdinaryOn machine (deleteItem container index) := by
  cases container with
  | list cell => exact ordinaryOn_deleteItem_list rfl (fits cell rfl) index
  | dict cell =>
      unfold OrdinaryOn
      simp only [deleteItem, heap_bind]
      refine (ordinary_ofExcept _).bind (fun key => ?_) machine
      split
      · exact Succeeds.ordinary fun _ => ⟨_, _, rfl⟩
      · exact ordinary_fail _
  | _ => exact ordinary_fail _ machine

end Items

section Builtins

theorem ordinary_textOf (value : Value) : Ordinary (textOf value) := by
  cases value with
  | string text => exact ordinary_pure _
  | _ => exact ordinary_heap fun _ => (succeeds_newString _).ordinary

theorem ordinary_makeText (function : Standard) (arguments : List Value) :
    Ordinary (makeText function arguments) := by
  unfold makeText
  split
  · exact (succeeds_newString _).ordinary
  · exact ordinary_textOf _
  · exact ordinary_fail _

theorem ordinary_testInstance (value cls : Value) : Ordinary (testInstance value cls) := by
  cases cls with
  | classObject cell => exact ordinary_heap fun _ => ordinary_pure _
  | _ => exact ordinary_fail _

theorem ordinary_readAttr (function : Standard) (arguments : List Value) :
    Ordinary (readAttr function arguments) := by
  unfold readAttr
  split
  · exact (ordinary_attributeName _ _).bind fun _ => ordinary_getAttrOr _ _ _
  · exact exactlyTwo_cases ordinary_fail fun _ _ _ =>
      (ordinary_attributeName _ _).bind fun _ => ordinary_getAttr _ _

/-- Every standard builtin, unless its first argument is a list that is too long to be counted. -/
theorem ordinaryOn_runStandard {machine : Machine} (function : Standard) (arguments : List Value)
    (fits : ∀ cell, arguments.head? = some (.list cell) →
      (machine.heap.listItems cell).length < 2 ^ 63) :
    OrdinaryOn machine (runStandard function arguments) := by
  cases function with
  | len =>
      exact exactlyOne_cases ordinary_fail (fun _ _ =>
        ordinary_heap fun _ => (ordinary_ofExcept _).bind fun _ => ordinary_pure _) machine
  | print => exact Succeeds.ordinary (fun _ => ⟨_, _, rfl⟩) machine
  | repr =>
      exact exactlyOne_cases ordinary_fail (fun _ _ =>
        ordinary_heap fun _ => (succeeds_newString _).ordinary) machine
  | str => exact ordinary_makeText _ _ machine
  | list => exact (ordinary_elementsOf _ _).bind (fun _ => (succeeds_newList _).ordinary) machine
  | tuple => exact (ordinary_elementsOf _ _).bind (fun _ => (succeeds_newTuple _).ordinary) machine
  | set => exact (ordinary_elementsOf _ _).bind (fun _ => ordinary_newSet _) machine
  | isinstance =>
      exact exactlyTwo_cases ordinary_fail (fun _ _ _ => ordinary_testInstance _ _) machine
  | getattr => exact ordinary_readAttr _ _ machine
  | setattr =>
      exact exactlyThree_cases ordinary_fail (fun _ _ _ _ =>
        (ordinary_attributeName _ _).bind fun _ =>
          (ordinary_setAttr _ _ _).bind fun _ => ordinary_pure _) machine
  | hasattr =>
      exact exactlyTwo_cases ordinary_fail (fun _ _ _ =>
        (ordinary_attributeName _ _).bind fun _ =>
          (ordinary_hasAttr _ _).bind fun _ => ordinary_pure _) machine
  | delattr =>
      exact exactlyTwo_cases ordinary_fail (fun _ _ _ =>
        (ordinary_attributeName _ _).bind fun _ =>
          (ordinary_delAttr _ _).bind fun _ => ordinary_pure _) machine
  | delitem =>
      -- The one builtin that counts places of its first argument.
      refine exactlyTwo_cases (fun _ => ordinary_fail _ machine) fun container index are => ?_
      refine ordinaryOn_deleteItem index fun cell isList => fits cell ?_
      simp [are, isList]

end Builtins

end Act

end ScriptCore
