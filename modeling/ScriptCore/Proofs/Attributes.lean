import ScriptCore.Proofs.Containers

/-!
# Attributes and builtin functions

Reading, writing and deleting attributes, and the standard builtin functions, are quiet too.
-/

namespace ScriptCore

namespace Act

section Attributes

variable {near : CellId → Prop} {quiet : Bool} {before : Activity} (proper : before.Proper)

include proper

theorem conducts_getClassAttr {cell : CellId} {name : String}
    (owns : before.Owns (.classObject cell)) :
    Conducts near quiet (getClassAttr cell name) Activity.Owns before := by
  apply Conducts.heap
  split
  · exact .fail proper
  · rename_i content found
    split
    · exact .pure proper (.of_cell?_eq_none rfl)
    · split
      · apply Conducts.pure proper
        cases superclass : content.superclass with
        | none => exact .of_cell?_eq_none rfl
        | some parent =>
            exact Activity.owns_class proper (owns.knows rfl) found
              (by simp [Cell.values, superclass])
      · split
        · exact conducts_newNamesDict proper fun value member =>
            Activity.owns_class proper (owns.knows rfl) found (List.mem_append_right _ member)
        · split
          · exact .fail proper
          · split
            · rename_i value bound
              exact .pure proper (Activity.owns_findAttr proper (owns.knows rfl) bound)
            · exact .fail proper

theorem conducts_getObjectAttr {cell : CellId} {name : String}
    (owns : before.Owns (.object cell)) :
    Conducts near quiet (getObjectAttr cell name) Activity.Owns before := by
  apply Conducts.heap
  split
  · exact .fail proper
  · rename_i content found
    have ownsClass : before.Owns (.classObject content.classCell) :=
      Activity.owns_object proper (owns.knows rfl) found List.mem_cons_self
    have ownsOwn : ∀ value ∈ Names.values content.attributes, before.Owns value :=
      fun value member => Activity.owns_object proper (owns.knows rfl) found
        (List.mem_cons_of_mem _ member)
    split
    · exact .pure proper ownsClass
    · split
      · exact conducts_newNamesDict proper ownsOwn
      · split
        · rename_i value bound
          exact .pure proper (ownsOwn value (Names.mem_values_of_find? bound))
        · split
          · rename_i code inherited
            exact conducts_newMethod proper owns
              (Activity.owns_findAttr proper (ownsClass.knows rfl) inherited)
          · rename_i value _ inherited
            exact .pure proper (Activity.owns_findAttr proper (ownsClass.knows rfl) inherited)
          · exact .fail proper

theorem conducts_getAttr {target : Value} {name : String} (owns : before.Owns target) :
    Conducts near quiet (getAttr target name) Activity.Owns before := by
  have named : ∀ code, before.Owns (functionNameValue before.machine.heap code) := by
    intro code
    unfold functionNameValue
    split <;> exact .of_cell?_eq_none rfl
  apply Conducts.heap
  cases target with
  | object cell => exact conducts_getObjectAttr proper owns
  | classObject cell => exact conducts_getClassAttr proper owns
  | function cell =>
      dsimp only
      split
      · exact .pure proper (named cell)
      · exact .fail proper
  | builtin builtin =>
      dsimp only
      split
      · exact .pure proper (.of_cell?_eq_none rfl)
      · exact .fail proper
  | method cell receiver code =>
      obtain ⟨ownsReceiver, ownsCode⟩ := Activity.owns_method proper owns
      dsimp only
      split
      · exact .pure proper (named code)
      · split
        · exact .pure proper ownsReceiver
        · split
          · exact .pure proper ownsCode
          · exact .fail proper
  | _ => exact .fail proper

theorem conducts_storeObject {id : CellId} {content : ObjectCell} {attributes : Names}
    (owns : before.Owns (.object id)) (found : before.machine.heap.object? id = some content)
    (owned : ∀ value ∈ Names.values attributes,
      value ∈ Names.values content.attributes ∨ before.Owns value) :
    Conducts near quiet (store id (.object { content with attributes })) (fun _ _ => True)
      before := by
  refine conducts_store proper owns rfl rfl fun old fits => ?_
  cases old with
  | object stored =>
      refine ⟨rfl, fun value fits => ?_, fun was value member => ?_⟩
      · cases value <;> exact fits
      · have same : stored = content := by simpa [Heap.object?, was] using found
        subst same
        rcases List.mem_cons.mp member with rfl | bound
        · exact Or.inl List.mem_cons_self
        · exact (owned value bound).imp_left (List.mem_cons_of_mem _)
  | _ => exact fits.elim

theorem conducts_storeClass {id : CellId} {content : ClassCell} {attributes : Names}
    (owns : before.Owns (.classObject id)) (found : before.machine.heap.class? id = some content)
    (owned : ∀ value ∈ Names.values attributes,
      value ∈ Names.values content.attributes ∨ before.Owns value) :
    Conducts near quiet (store id (.classObject { content with attributes })) (fun _ _ => True)
      before := by
  refine conducts_store proper owns rfl rfl fun old fits => ?_
  cases old with
  | classObject stored =>
      refine ⟨rfl, fun value fits => ?_, fun was value member => ?_⟩
      · cases value <;> exact fits
      · have same : stored = content := by simpa [Heap.class?, was] using found
        subst same
        rcases List.mem_append.mp member with inherited | bound
        · exact Or.inl (List.mem_append_left _ inherited)
        · exact (owned value bound).imp_left (List.mem_append_right _)
  | _ => exact fits.elim

theorem conducts_setAttr {target value : Value} {name : Str} (ownsTarget : before.Owns target)
    (owns : before.Owns value) :
    Conducts near quiet (setAttr target name value) (fun _ _ => True) before := by
  have owned : ∀ {attributes : Names}, ∀ stored ∈ Names.values (attributes.insert name value),
      stored ∈ Names.values attributes ∨ before.Owns stored := by
    intro attributes stored member
    rcases Names.mem_values_of_insert member with old | rfl
    · exact Or.inl old
    · exact Or.inr owns
  apply Conducts.heap
  apply Conducts.ofExcept_bind proper
  intro updated written
  cases target with
  | object cell =>
      unfold Heap.setAttr at written
      dsimp only at written
      cases refused : Heap.refuseReserved name.text (before.machine.heap.objectClassName cell) with
      | error error => simp only [refused, bind, Except.bind, reduceCtorEq] at written
      | ok _ =>
          simp only [refused, bind, Except.bind] at written
          split at written
          · rename_i content found
            cases written
            exact conducts_storeObject proper ownsTarget found owned
          · cases written
            exact conducts_aside proper rfl rfl rfl rfl rfl rfl fun _ => trivial
  | classObject cell =>
      unfold Heap.setAttr at written
      dsimp only at written
      cases refused : Heap.refuseReserved name.text "type" with
      | error error => simp only [refused, bind, Except.bind, reduceCtorEq] at written
      | ok _ =>
          simp only [refused, bind, Except.bind] at written
          split at written
          · rename_i content found
            cases written
            exact conducts_storeClass proper ownsTarget found owned
          · cases written
            exact conducts_aside proper rfl rfl rfl rfl rfl rfl fun _ => trivial
  | _ => cases written

theorem conducts_delAttr {target : Value} {name : String} (ownsTarget : before.Owns target) :
    Conducts near true (delAttr target name) Activity.Owns before := by
  have taken : ∀ {action : Act Unit} {value : Value}, before.Owns value →
      Conducts near true action (fun _ _ => True) before →
      Conducts near true (do action; return value) Activity.Owns before := by
    intro action value owns written
    apply written.bind proper
    intro machine after _ becomes properAfter _
    exact .pure properAfter (becomes.keeps rfl value owns)
  apply Conducts.heap
  apply Conducts.ofExcept_bind proper
  rintro ⟨value, updated⟩ written
  cases target with
  | object cell =>
      unfold Heap.delAttr at written
      dsimp only at written
      cases refused : Heap.refuseReserved name (before.machine.heap.objectClassName cell) with
      | error error => simp only [refused, bind, Except.bind, reduceCtorEq] at written
      | ok _ =>
          simp only [refused, bind, Except.bind] at written
          split at written
          · rename_i content stored found bound
            cases written
            have own : value ∈ Names.values content.attributes :=
              Names.mem_values_of_find? (by simpa [Heap.objectAttributes, found] using bound)
            apply taken (Activity.owns_object proper (ownsTarget.knows rfl) found
              (List.mem_cons_of_mem _ own))
            exact conducts_storeObject proper ownsTarget found fun value member =>
              Or.inl (Names.mem_values_of_erase member)
          · cases written
  | classObject cell =>
      unfold Heap.delAttr at written
      dsimp only at written
      cases refused : Heap.refuseReserved name "type" with
      | error error => simp only [refused, bind, Except.bind, reduceCtorEq] at written
      | ok _ =>
          simp only [refused, bind, Except.bind] at written
          split at written
          · rename_i content stored found bound
            cases written
            have own : value ∈ Names.values content.attributes :=
              Names.mem_values_of_find? (by simpa [Heap.classAttributes, found] using bound)
            apply taken (Activity.owns_class proper (ownsTarget.knows rfl) found
              (List.mem_append_right _ own))
            exact conducts_storeClass proper ownsTarget found fun value member =>
              Or.inl (Names.mem_values_of_erase member)
          · cases written
  | _ => cases written

end Attributes

section Builtins

variable {near : CellId → Prop} {before : Activity} (proper : before.Proper)

include proper

theorem conducts_elementsOf {function : Standard} {arguments : List Value}
    (owned : ∀ argument ∈ arguments, before.Owns argument) :
    Conducts near true (elementsOf function arguments)
      (fun after items => ∀ item ∈ items, after.Owns item) before := by
  match arguments with
  | [] => exact .pure proper fun item member => absurd member List.not_mem_nil
  | [value] => exact conducts_elements proper (owned value List.mem_cons_self)
  | _ :: _ :: _ => exact .fail proper

theorem conducts_attributeName (function : Standard) (value : Value) :
    Conducts near true (attributeName function value) (fun _ _ => True) before := by
  cases value with
  | string name => exact .pure proper trivial
  | _ =>
      apply Conducts.heap
      exact .fail proper

theorem conducts_getAttrOr {target default : Value} {name : String} (owns : before.Owns target)
    (ownsDefault : before.Owns default) :
    Conducts near true (getAttrOr target name default) Activity.Owns before := by
  apply (conducts_getAttr proper owns).handling proper
  intro machine after error becomes properAfter
  split
  · exact .pure properAfter (becomes.keeps rfl _ ownsDefault)
  · exact .fail properAfter

theorem conducts_hasAttr {target : Value} {name : String} (owns : before.Owns target) :
    Conducts near true (hasAttr target name) (fun _ _ => True) before := by
  have read : Conducts near true (do let _ ← getAttr target name; return true) (fun _ _ => True)
      before := by
    apply (conducts_getAttr proper owns).bind proper
    intro machine after value _ properAfter _
    exact .pure properAfter trivial
  apply read.handling proper
  intro machine after error _ properAfter
  split
  · exact .pure properAfter trivial
  · exact .fail properAfter

section Arguments

variable {function : Standard} {arguments : List Value} {gives : Activity → Value → Prop}
  (owned : ∀ argument ∈ arguments, before.Owns argument)

include owned

theorem Conducts.exactlyOne {action : Value → Act Value}
    (inner : ∀ value, before.Owns value → Conducts near true (action value) gives before) :
    Conducts near true (exactlyOne function arguments action) gives before :=
  exactlyOne_cases (motive := fun act => Conducts near true act gives before)
    (fun _ => .fail proper) fun value is => inner value (owned value (by simp [is]))

theorem Conducts.exactlyTwo {action : Value → Value → Act Value}
    (inner : ∀ first second, before.Owns first → before.Owns second →
      Conducts near true (action first second) gives before) :
    Conducts near true (exactlyTwo function arguments action) gives before :=
  exactlyTwo_cases (motive := fun act => Conducts near true act gives before)
    (fun _ => .fail proper) fun first second are =>
      inner first second (owned first (by simp [are])) (owned second (by simp [are]))

theorem Conducts.exactlyThree {action : Value → Value → Value → Act Value}
    (inner : ∀ first second third, before.Owns first → before.Owns second → before.Owns third →
      Conducts near true (action first second third) gives before) :
    Conducts near true (exactlyThree function arguments action) gives before :=
  exactlyThree_cases (motive := fun act => Conducts near true act gives before)
    (fun _ => .fail proper) fun first second third are =>
      inner first second third (owned first (by simp [are])) (owned second (by simp [are]))
        (owned third (by simp [are]))

end Arguments

/-- What is done with the name of an attribute may rely on all that was owned before. -/
theorem Conducts.attributeName_bind {function : Standard} {name : Value} {next : Str → Act β}
    {gives : Activity → β → Prop}
    (rest : ∀ {after : Activity} (name : Str), after.Proper →
      (∀ value, before.Owns value → after.Owns value) →
      Conducts near true (next name) gives after) :
    Conducts near true (attributeName function name >>= next) gives before := by
  apply (conducts_attributeName proper function name).bind proper
  intro machine after name becomes properAfter _
  exact rest name properAfter fun value owns => becomes.keeps rfl value owns

theorem conducts_textOf {value : Value} (owns : before.Owns value) :
    Conducts near true (textOf value) Activity.Owns before := by
  cases value with
  | string text => exact .pure proper owns
  | _ =>
      apply Conducts.heap
      exact conducts_newString proper _

theorem conducts_makeText {function : Standard} {arguments : List Value}
    (owned : ∀ argument ∈ arguments, before.Owns argument) :
    Conducts near true (makeText function arguments) Activity.Owns before := by
  match arguments with
  | [] => exact conducts_newString proper _
  | [value] => exact conducts_textOf proper (owned value List.mem_cons_self)
  | _ :: _ :: _ => exact .fail proper

theorem conducts_testInstance (value cls : Value) :
    Conducts near true (testInstance value cls) Activity.Owns before := by
  cases cls with
  | classObject cell =>
      apply Conducts.heap
      exact .pure proper (.of_cell?_eq_none rfl)
  | _ => exact .fail proper

theorem conducts_readAttr {function : Standard} {arguments : List Value}
    (owned : ∀ argument ∈ arguments, before.Owns argument) :
    Conducts near true (readAttr function arguments) Activity.Owns before := by
  unfold readAttr
  split
  · rename_i target name default
    exact .attributeName_bind proper fun name properAfter keeps =>
      conducts_getAttrOr properAfter (keeps target (owned target (by simp)))
        (keeps default (owned default (by simp)))
  · exact .exactlyTwo proper owned fun target name owns _ =>
      .attributeName_bind proper fun name properAfter keeps =>
        conducts_getAttr properAfter (keeps target owns)

theorem conducts_runStandard {function : Standard} {arguments : List Value}
    (owned : ∀ argument ∈ arguments, before.Owns argument) :
    Conducts near true (runStandard function arguments) Activity.Owns before := by
  have taken : Conducts near true (elementsOf function arguments)
      (fun after items => ∀ item ∈ items, after.Owns item) before :=
    conducts_elementsOf proper owned
  cases function with
  | len =>
      refine .exactlyOne proper owned fun value _ => ?_
      apply Conducts.heap
      exact Conducts.ofExcept_bind proper fun length _ => .pure proper (.of_cell?_eq_none rfl)
  | print =>
      apply Conducts.heap
      exact (conducts_print proper _).andPlain proper fun _ => rfl
  | repr =>
      refine .exactlyOne proper owned fun value _ => ?_
      apply Conducts.heap
      exact conducts_newString proper _
  | str => exact conducts_makeText proper owned
  | list =>
      apply taken.bind proper
      intro machine after items _ properAfter ownedItems
      exact conducts_newList properAfter ownedItems
  | tuple =>
      apply taken.bind proper
      intro machine after items _ properAfter ownedItems
      exact conducts_newTuple properAfter ownedItems
  | set =>
      apply taken.bind proper
      intro machine after items _ properAfter ownedItems
      exact conducts_newSet properAfter ownedItems
  | isinstance =>
      exact .exactlyTwo proper owned fun value cls _ _ => conducts_testInstance proper value cls
  | getattr => exact conducts_readAttr proper owned
  | setattr =>
      refine .exactlyThree proper owned fun target name value ownsTarget _ owns => ?_
      refine .attributeName_bind proper fun name properAfter keeps => ?_
      exact (conducts_setAttr properAfter (keeps target ownsTarget)
        (keeps value owns)).andPlain properAfter fun _ => rfl
  | hasattr =>
      refine .exactlyTwo proper owned fun target name owns _ => ?_
      refine .attributeName_bind proper fun name properAfter keeps => ?_
      exact (conducts_hasAttr properAfter (keeps target owns)).andPlain properAfter fun _ => rfl
  | delattr =>
      refine .exactlyTwo proper owned fun target name owns _ => ?_
      refine .attributeName_bind proper fun name properAfter keeps => ?_
      apply (conducts_delAttr properAfter (keeps target owns)).bind properAfter
      intro machine last _ _ properLast _
      exact .pure properLast (.of_cell?_eq_none rfl)
  | delitem =>
      exact .exactlyTwo proper owned fun container index owns _ => conducts_deleteItem proper owns

end Builtins

end Act

end ScriptCore
