import Mathlib.Tactic.SplitIfs
import ScriptCore.Attribute

/-!
# Attributes of classes

Setting or removing an attribute of a class is noticed exactly where a look-up comes to that class:
by the classes below it, and by their objects, unless the name is bound nearer.  Everything else
reads as before.
-/

namespace ScriptCore

/-- A value found on the class of an object, as an attribute of the object: a function is bound
to the object by a new method. -/
def Value.boundTo (value : Value) (method object : CellId) : Value :=
  match value with
  | .function code => .method method object code
  | other => other

namespace Act

/-- What an action gives or why it stops, apart from the machine that it leaves. -/
def result (action : Act α) (machine : Machine) : Except Stop α :=
  match action machine with
  | .ok value _ => .ok value
  | .error stop _ => .error stop

theorem getAttr_object (object : CellId) (name : String) (machine : Machine) :
    getAttr (.object object) name machine = getObjectAttr object name machine :=
  rfl

theorem getAttr_class (cls : CellId) (name : String) (machine : Machine) :
    getAttr (.classObject cls) name machine = getClassAttr cls name machine :=
  rfl

section Changing

variable (target : Value) (machine : Machine)

theorem setAttr_eq (name : Str) (value : Value) :
    setAttr target name value machine = match machine.heap.setAttr target name value with
      | .ok heap => .ok () { machine with heap }
      | .error error => .error (.error error) machine := by
  rw [setAttr, heap_bind]
  cases machine.heap.setAttr target name value <;> rfl

theorem delAttr_eq (name : String) :
    delAttr target name machine = match machine.heap.delAttr target name with
      | .ok (value, heap) => .ok value { machine with heap }
      | .error error => .error (.error error) machine := by
  rw [delAttr, heap_bind]
  cases machine.heap.delAttr target name <;> rfl

end Changing

section Reading

variable {machine : Machine} {name : String}

theorem result_getAttr_object {object : CellId} {content : ObjectCell}
    (found : machine.heap.object? object = some content) (notDict : name ≠ Attribute.dictName) :
    result (getAttr (.object object) name) machine =
      if name = Attribute.className then .ok (.classObject content.classCell)
      else match content.attributes.find? name with
        | some value => .ok value
        | none => match machine.heap.findAttr content.classCell name with
          | some value => .ok (value.boundTo machine.heap.size object)
          | none => .error (.error
              (.noAttribute (machine.heap.className content.classCell) name)) := by
  have described : machine.heap.objectClassName object =
      machine.heap.className content.classCell := by
    simp [Heap.objectClassName, found]
  rw [result, getAttr_object]
  simp only [getObjectAttr, heap_bind, found, if_neg notDict, described]
  by_cases isClass : name = Attribute.className
  · rw [if_pos isClass, if_pos isClass]
    rfl
  · rw [if_neg isClass, if_neg isClass]
    cases own : content.attributes.find? name with
    | some value => rfl
    | none =>
        cases inherited : machine.heap.findAttr content.classCell name with
        | none => rfl
        | some value => cases value <;> rfl

theorem result_getAttr_class {cls : CellId} {content : ClassCell}
    (found : machine.heap.class? cls = some content) (notDict : name ≠ Attribute.dictName) :
    result (getAttr (.classObject cls) name) machine =
      if name = Attribute.nameName then .ok (.string content.name)
      else if name = Attribute.superclassName then
        .ok ((content.superclass.map Value.classObject).getD .nothing)
      else if name = Attribute.className then
        .error (.error (.noClassAttribute content.name.text name))
      else match machine.heap.findAttr cls name with
        | some value => .ok value
        | none => .error (.error (.noClassAttribute content.name.text name)) := by
  rw [result, getAttr_class]
  simp only [getClassAttr, heap_bind, found, if_neg notDict]
  split_ifs
  · rfl
  · rfl
  · rfl
  · cases machine.heap.findAttr cls name <;> rfl

theorem result_getAttr_of_object?_eq_none {object : CellId}
    (missing : machine.heap.object? object = none) :
    result (getAttr (.object object) name) machine =
      .error (.error (.noAttribute "" name)) := by
  rw [result, getAttr_object]
  simp only [getObjectAttr, heap_bind, missing, Heap.objectClassName]
  rfl

theorem result_getAttr_of_class?_eq_none {cls : CellId}
    (missing : machine.heap.class? cls = none) :
    result (getAttr (.classObject cls) name) machine =
      .error (.error (.noClassAttribute "" name)) := by
  rw [result, getAttr_class]
  simp only [getClassAttr, heap_bind, missing, Heap.className]
  rfl

end Reading

end Act

namespace Heap

/-- A look-up from one class comes to another: it is on the chain of superclasses, and no class
before it has the name. -/
def Exposes (heap : Heap) (inner cls : CellId) (name : String) : Prop :=
  ∃ nearer farther, heap.ancestors inner = nearer ++ cls :: farther ∧
    ∀ other ∈ nearer, (heap.classAttributes other).find? name = none

/-- The heap with other attributes of a class. -/
def setClassAttributes (heap : Heap) (cls : CellId) (attributes : Names) : Heap :=
  match heap.class? cls with
  | some content => heap.set cls (.classObject { content with attributes })
  | none => heap

theorem class?_eq_some_iff {heap : Heap} {id : CellId} {content : ClassCell} :
    heap.class? id = some content ↔ heap.get? id = some (.classObject content) := by
  unfold class?
  split <;> simp_all

theorem ancestors_of_superclass?_eq_none {heap : Heap} {cls : CellId}
    (rootless : heap.superclass? cls = none) : heap.ancestors cls = [cls] := by
  rw [ancestors, follow, rootless]

section Changing

variable (heap : Heap) (cls : CellId) (attributes : Names)

theorem get?_setClassAttributes {content : ClassCell} (found : heap.class? cls = some content)
    (id : CellId) :
    (heap.setClassAttributes cls attributes).get? id =
      if id = cls then some (.classObject { content with attributes }) else heap.get? id := by
  simp [setClassAttributes, found, get?_set, contains, class?_eq_some_iff.mp found]

@[simp]
theorem size_setClassAttributes : (heap.setClassAttributes cls attributes).size = heap.size := by
  unfold setClassAttributes
  split <;> simp

theorem class?_setClassAttributes (id : CellId) :
    (heap.setClassAttributes cls attributes).class? id =
      (heap.class? id).map fun content =>
        if id = cls then { content with attributes } else content := by
  cases found : heap.class? cls with
  | none =>
      rw [setClassAttributes, found]
      by_cases same : id = cls
      · simp [same, found]
      · simp [same]
  | some content =>
      rw [class?, get?_setClassAttributes heap cls attributes found]
      by_cases same : id = cls
      · simp [same, found]
      · simp [same, class?]

@[simp]
theorem object?_setClassAttributes (id : CellId) :
    (heap.setClassAttributes cls attributes).object? id = heap.object? id := by
  cases found : heap.class? cls with
  | none => rw [setClassAttributes, found]
  | some content =>
      rw [object?, get?_setClassAttributes heap cls attributes found]
      by_cases same : id = cls
      · simp [same, object?, class?_eq_some_iff.mp found]
      · simp [same, object?]

@[simp]
theorem className_setClassAttributes (id : CellId) :
    (heap.setClassAttributes cls attributes).className id = heap.className id := by
  rw [className, className, class?_setClassAttributes]
  cases heap.class? id with
  | none => rfl
  | some content => by_cases same : id = cls <;> simp [same]

@[simp]
theorem ancestors_setClassAttributes (id : CellId) :
    (heap.setClassAttributes cls attributes).ancestors id = heap.ancestors id := by
  have superclass : (heap.setClassAttributes cls attributes).superclass? = heap.superclass? := by
    funext id
    rw [superclass?, superclass?, class?_setClassAttributes]
    cases heap.class? id with
    | none => rfl
    | some content => by_cases same : id = cls <;> simp [same]
  rw [ancestors, ancestors, superclass, size_setClassAttributes]

end Changing

section Chains

variable {chain nearer farther : List CellId} {cls : CellId} {before after : CellId → Option Value}

/-- A look-up that comes to the class that changed goes on from there. -/
theorem findSome?_of_exposed (elsewhere : ∀ id, id ≠ cls → after id = before id)
    (unbound : ∀ other ∈ nearer, before other = none) :
    (nearer ++ cls :: farther).findSome? after =
      (after cls <|> farther.findSome? after) := by
  induction nearer with
  | nil => cases value : after cls <;> simp [value]
  | cons id rest ih =>
      have onward := ih fun other member => unbound other (List.mem_cons_of_mem _ member)
      rw [List.cons_append, List.findSome?_cons, onward]
      by_cases same : id = cls
      · subst same
        cases after id <;> rfl
      · rw [elsewhere id same, unbound id List.mem_cons_self]

/-- A look-up that does not come to the class that changed is as before. -/
theorem findSome?_of_hidden (elsewhere : ∀ id, id ≠ cls → after id = before id)
    (hidden : ¬∃ nearer farther, chain = nearer ++ cls :: farther ∧
      ∀ other ∈ nearer, before other = none) :
    chain.findSome? after = chain.findSome? before := by
  induction chain with
  | nil => rfl
  | cons id rest ih =>
      have apart : id ≠ cls := by
        rintro rfl
        exact hidden ⟨[], rest, rfl, fun other member => absurd member List.not_mem_nil⟩
      rw [List.findSome?_cons, List.findSome?_cons, elsewhere id apart]
      cases bound : before id with
      | some value => rfl
      | none =>
          apply ih
          rintro ⟨nearer, farther, split, unbound⟩
          exact hidden ⟨id :: nearer, farther, by rw [split, List.cons_append],
            List.forall_mem_cons.mpr ⟨bound, unbound⟩⟩

end Chains

/-- The value of a name in the first of some classes that has it. -/
def firstOf (heap : Heap) (classes : List CellId) (name : String) : Option Value :=
  classes.findSome? fun cls => (heap.classAttributes cls).find? name

section Finding

variable {heap : Heap} {cls : CellId} {content : ClassCell} {attributes : Names} {name : String}
  {inner : CellId}

theorem classAttributes_setClassAttributes (found : heap.class? cls = some content)
    (id : CellId) :
    (heap.setClassAttributes cls attributes).classAttributes id =
      if id = cls then attributes else heap.classAttributes id := by
  rw [classAttributes, classAttributes, class?_setClassAttributes]
  by_cases same : id = cls
  · simp [same, found]
  · simp [same]

theorem findAttr_of_exposed (found : heap.class? cls = some content)
    {nearer farther : List CellId} (split : heap.ancestors inner = nearer ++ cls :: farther)
    (unbound : ∀ other ∈ nearer, (heap.classAttributes other).find? name = none) :
    (heap.setClassAttributes cls attributes).findAttr inner name =
      (attributes.find? name <|>
        (heap.setClassAttributes cls attributes).firstOf farther name) := by
  have changed := @findSome?_of_exposed nearer farther cls
    (fun id => (heap.classAttributes id).find? name)
    (fun id => ((heap.setClassAttributes cls attributes).classAttributes id).find? name)
    (fun id apart => by rw [classAttributes_setClassAttributes found, if_neg apart]) unbound
  rw [findAttr, ancestors_setClassAttributes, split, changed,
    classAttributes_setClassAttributes found, if_pos rfl]
  rfl

theorem findAttr_of_unseen (found : heap.class? cls = some content)
    (unseen : heap.Exposes inner cls name →
      attributes.find? name = (heap.classAttributes cls).find? name) :
    (heap.setClassAttributes cls attributes).findAttr inner name = heap.findAttr inner name := by
  have elsewhere : ∀ id, id ≠ cls →
      ((heap.setClassAttributes cls attributes).classAttributes id).find? name =
        (heap.classAttributes id).find? name := by
    intro id apart
    rw [classAttributes_setClassAttributes found, if_neg apart]
  rw [findAttr, findAttr, ancestors_setClassAttributes]
  by_cases exposes : heap.Exposes inner cls name
  · congr 1
    funext id
    by_cases same : id = cls
    · rw [same, classAttributes_setClassAttributes found, if_pos rfl, unseen exposes]
    · exact elsewhere id same
  · exact findSome?_of_hidden elsewhere exposes

theorem Exposes.exists_class (found : heap.class? cls = some content)
    (exposes : heap.Exposes inner cls name) : ∃ outer, heap.class? inner = some outer := by
  obtain ⟨nearer, farther, split, -⟩ := exposes
  cases missing : heap.class? inner with
  | some outer => exact ⟨outer, rfl⟩
  | none =>
      have rootless : heap.superclass? inner = none := by simp [superclass?, missing]
      have alone := ancestors_of_superclass?_eq_none rootless
      rw [alone] at split
      cases nearer with
      | nil =>
          cases split
          rw [found] at missing
          cases missing
      | cons _ rest => simp at split

end Finding

/-- Reading a name of an object comes to a class. -/
def Inherits (heap : Heap) (object cls : CellId) (name : String) : Prop :=
  ∃ content, heap.object? object = some content ∧ content.attributes.find? name = none ∧
    heap.Exposes content.classCell cls name

end Heap

/-- The machine with other attributes of a class. -/
def Machine.setClassAttributes (machine : Machine) (cls : CellId) (attributes : Names) : Machine :=
  { machine with heap := machine.heap.setClassAttributes cls attributes }

/-- Objects and classes read as before, a name apart where that comes to a class. -/
structure Machine.ReadsAsBefore (before after : Machine) (cls : CellId) (name : String) :
    Prop where
  objects : ∀ object other, other ≠ Attribute.dictName →
    ¬(other = name ∧ before.heap.Inherits object cls name) →
    Act.result (Act.getAttr (.object object) other) after =
      Act.result (Act.getAttr (.object object) other) before
  classes : ∀ inner other, other ≠ Attribute.dictName →
    ¬(other = name ∧ before.heap.Exposes inner cls name) →
    Act.result (Act.getAttr (.classObject inner) other) after =
      Act.result (Act.getAttr (.classObject inner) other) before

theorem Attribute.computed_of_isReserved {name : String} (free : isReserved name = false) :
    name ≠ className ∧ name ≠ dictName ∧ name ≠ nameName ∧ name ≠ superclassName := by
  simpa [isReserved, reserved] using free

namespace Act

section Noticing

variable {machine : Machine} {cls : CellId} {content : ClassCell}
  (found : machine.heap.class? cls = some content)

include found

theorem setAttr_class {name : Str} (free : Attribute.isReserved name.text = false)
    (value : Value) :
    setAttr (.classObject cls) name value machine =
      .ok () (machine.setClassAttributes cls (content.attributes.insert name value)) := by
  rw [setAttr_eq, Heap.setAttr, Heap.refuseReserved, free, found, Machine.setClassAttributes,
    Heap.setClassAttributes, found]
  rfl

theorem delAttr_class {name : String} (free : Attribute.isReserved name = false) :
    delAttr (.classObject cls) name machine =
      match content.attributes.find? name with
      | some removed =>
          .ok removed (machine.setClassAttributes cls (content.attributes.erase name))
      | none => .error (.error (.noClassAttribute content.name.text name)) machine := by
  rw [delAttr_eq, Heap.delAttr, Heap.refuseReserved, free, Heap.classAttributes, Heap.className,
    Machine.setClassAttributes, Heap.setClassAttributes, found]
  cases content.attributes.find? name <;> rfl

theorem delAttr_class_eq_ok_iff {name : String} (free : Attribute.isReserved name = false)
    {removed : Value} {after : Machine} :
    delAttr (.classObject cls) name machine = .ok removed after ↔
      content.attributes.find? name = some removed ∧
        after = machine.setClassAttributes cls (content.attributes.erase name) := by
  rw [delAttr_class found free]
  cases content.attributes.find? name with
  | none => simp
  | some value => simp [eq_comm]

variable {attributes : Names}

theorem classAttributes_of_class? : machine.heap.classAttributes cls = content.attributes := by
  simp [Heap.classAttributes, found]

section Seen

variable {name : String} (free : Attribute.isReserved name = false) {inner : CellId}
  {nearer farther : List CellId} (split : machine.heap.ancestors inner = nearer ++ cls :: farther)
  (unbound : ∀ other ∈ nearer, (machine.heap.classAttributes other).find? name = none)

include free split unbound

theorem result_getAttr_class_of_exposed :
    result (getAttr (.classObject inner) name) (machine.setClassAttributes cls attributes) =
      match attributes.find? name <|>
          (machine.setClassAttributes cls attributes).heap.firstOf farther name with
      | some value => .ok value
      | none => .error (.error (.noClassAttribute (machine.heap.className inner) name)) := by
  obtain ⟨notClass, notDict, notName, notSuperclass⟩ := Attribute.computed_of_isReserved free
  obtain ⟨outer, foundInner⟩ :=
    Heap.Exposes.exists_class found ⟨nearer, farther, split, unbound⟩
  have foundAfter : (machine.setClassAttributes cls attributes).heap.class? inner = _ :=
    machine.heap.class?_setClassAttributes cls attributes inner
  rw [foundInner, Option.map_some] at foundAfter
  have described : (if inner = cls then { outer with attributes } else outer).name.text =
      machine.heap.className inner := by
    rw [Heap.className, foundInner]
    split_ifs <;> rfl
  rw [result_getAttr_class foundAfter notDict, if_neg notName, if_neg notSuperclass,
    if_neg notClass, described]
  have looked : (machine.setClassAttributes cls attributes).heap.findAttr inner name = _ :=
    Heap.findAttr_of_exposed found split unbound
  rw [looked]
  rfl

theorem result_getAttr_object_of_exposed {object : CellId} {stored : ObjectCell}
    (foundObject : machine.heap.object? object = some stored)
    (classCell : stored.classCell = inner)
    (unowned : stored.attributes.find? name = none) :
    result (getAttr (.object object) name) (machine.setClassAttributes cls attributes) =
      match attributes.find? name <|>
          (machine.setClassAttributes cls attributes).heap.firstOf farther name with
      | some value => .ok (value.boundTo machine.heap.size object)
      | none => .error (.error (.noAttribute (machine.heap.className inner) name)) := by
  obtain ⟨notClass, notDict, -, -⟩ := Attribute.computed_of_isReserved free
  have foundAfter : (machine.setClassAttributes cls attributes).heap.object? object =
      some stored := (machine.heap.object?_setClassAttributes cls attributes object).trans
        foundObject
  have size : (machine.setClassAttributes cls attributes).heap.size = machine.heap.size :=
    machine.heap.size_setClassAttributes cls attributes
  have described : (machine.setClassAttributes cls attributes).heap.className inner =
      machine.heap.className inner := machine.heap.className_setClassAttributes cls attributes inner
  have looked : (machine.setClassAttributes cls attributes).heap.findAttr inner name = _ :=
    Heap.findAttr_of_exposed found split unbound
  rw [result_getAttr_object foundAfter notDict, if_neg notClass, unowned, classCell, looked, size,
    described]
  rfl

end Seen

section Unseen

variable {name : String} (notDict : name ≠ Attribute.dictName)

include notDict

theorem result_getAttr_class_of_unseen {inner : CellId}
    (unseen : machine.heap.Exposes inner cls name →
      attributes.find? name = content.attributes.find? name) :
    result (getAttr (.classObject inner) name) (machine.setClassAttributes cls attributes) =
      result (getAttr (.classObject inner) name) machine := by
  have looked : (machine.setClassAttributes cls attributes).heap.findAttr inner name =
      machine.heap.findAttr inner name := by
    apply Heap.findAttr_of_unseen found
    rwa [classAttributes_of_class? found]
  have foundAfter : (machine.setClassAttributes cls attributes).heap.class? inner = _ :=
    machine.heap.class?_setClassAttributes cls attributes inner
  cases foundInner : machine.heap.class? inner with
  | some outer =>
      rw [foundInner, Option.map_some] at foundAfter
      rw [result_getAttr_class foundAfter notDict, result_getAttr_class foundInner notDict, looked]
      split_ifs <;> rfl
  | none =>
      rw [foundInner, Option.map_none] at foundAfter
      rw [result_getAttr_of_class?_eq_none foundInner]
      exact result_getAttr_of_class?_eq_none foundAfter

theorem result_getAttr_object_of_unseen {object : CellId}
    (unseen : machine.heap.Inherits object cls name →
      attributes.find? name = content.attributes.find? name) :
    result (getAttr (.object object) name) (machine.setClassAttributes cls attributes) =
      result (getAttr (.object object) name) machine := by
  have foundAfter : (machine.setClassAttributes cls attributes).heap.object? object =
      machine.heap.object? object := machine.heap.object?_setClassAttributes cls attributes object
  cases foundObject : machine.heap.object? object with
  | none =>
      rw [foundObject] at foundAfter
      rw [result_getAttr_of_object?_eq_none foundObject,
        result_getAttr_of_object?_eq_none foundAfter]
  | some stored =>
      rw [foundObject] at foundAfter
      have size : (machine.setClassAttributes cls attributes).heap.size = machine.heap.size :=
        machine.heap.size_setClassAttributes cls attributes
      have described : (machine.setClassAttributes cls attributes).heap.className =
          machine.heap.className :=
        funext (machine.heap.className_setClassAttributes cls attributes)
      rw [result_getAttr_object foundAfter notDict, result_getAttr_object foundObject notDict, size,
        described]
      cases own : stored.attributes.find? name with
      | some value => rfl
      | none =>
          have looked : (machine.setClassAttributes cls attributes).heap.findAttr
              stored.classCell name = machine.heap.findAttr stored.classCell name := by
            apply Heap.findAttr_of_unseen found
            rw [classAttributes_of_class? found]
            exact fun exposes => unseen ⟨stored, foundObject, own, exposes⟩
          rw [looked]

end Unseen

theorem readsAsBefore {name : String}
    (agree : ∀ other, other ≠ name → attributes.find? other = content.attributes.find? other) :
    machine.ReadsAsBefore (machine.setClassAttributes cls attributes) cls name where
  objects object other notDict unseen := by
    refine result_getAttr_object_of_unseen found notDict fun inherits => agree other ?_
    rintro rfl
    exact unseen ⟨rfl, inherits⟩
  classes inner other notDict unseen := by
    refine result_getAttr_class_of_unseen found notDict fun exposes => agree other ?_
    rintro rfl
    exact unseen ⟨rfl, exposes⟩

/-- An attribute of a class that is set is seen by the objects and classes that come to it, a
function bound to the object, and by nothing else.  Once it is removed, these see what comes next
above the class, if anything, and again nothing else changes. -/
theorem class_attributes_are_seen_through_inheritance (name : Str)
    (free : Attribute.isReserved name.text = false) :
    (∀ value, ∃ after, setAttr (.classObject cls) name value machine = .ok () after ∧
      (∀ object, machine.heap.Inherits object cls name.text →
        result (getAttr (.object object) name.text) after =
          .ok (value.boundTo machine.heap.size object)) ∧
      (∀ inner, machine.heap.Exposes inner cls name.text →
        result (getAttr (.classObject inner) name.text) after = .ok value) ∧
      machine.ReadsAsBefore after cls name.text) ∧
    (∀ removed, content.attributes.find? name.text = some removed ↔
      ∃ after, delAttr (.classObject cls) name.text machine = .ok removed after) ∧
    ∀ removed after, delAttr (.classObject cls) name.text machine = .ok removed after →
      (∀ id other, (after.heap.classAttributes id).find? other =
        if id = cls ∧ name.text = other then none
        else (machine.heap.classAttributes id).find? other) ∧
      (∀ inner nearer farther, machine.heap.ancestors inner = nearer ++ cls :: farther →
        (∀ other ∈ nearer, (machine.heap.classAttributes other).find? name.text = none) →
        result (getAttr (.classObject inner) name.text) after =
          (match after.heap.firstOf farther name.text with
          | some value => .ok value
          | none => .error (.error
              (.noClassAttribute (machine.heap.className inner) name.text))) ∧
        ∀ object stored, machine.heap.object? object = some stored →
          stored.classCell = inner → stored.attributes.find? name.text = none →
          result (getAttr (.object object) name.text) after =
            match after.heap.firstOf farther name.text with
            | some value => .ok (value.boundTo machine.heap.size object)
            | none => .error (.error
                (.noAttribute (machine.heap.className inner) name.text))) ∧
      machine.ReadsAsBefore after cls name.text := by
  refine ⟨fun value => ⟨_, setAttr_class found free value, ?_, ?_, ?_⟩, fun removed => ?_, ?_⟩
  · rintro object ⟨stored, foundObject, unowned, nearer, farther, split, unbound⟩
    rw [result_getAttr_object_of_exposed found free split unbound foundObject rfl unowned,
      Names.find?_insert, if_pos rfl]
    rfl
  · rintro inner ⟨nearer, farther, split, unbound⟩
    rw [result_getAttr_class_of_exposed found free split unbound, Names.find?_insert, if_pos rfl]
    rfl
  · refine readsAsBefore found fun other different => ?_
    rw [Names.find?_insert, if_neg different.symm]
  · simp [delAttr_class_eq_ok_iff found free]
  · rintro removed after gone
    obtain ⟨own, rfl⟩ := (delAttr_class_eq_ok_iff found free).mp gone
    have erased : (content.attributes.erase name.text).find? name.text = none := by simp
    refine ⟨fun id other => ?_, fun inner nearer farther split unbound => ⟨?_, ?_⟩, ?_⟩
    · rw [Machine.setClassAttributes, Heap.classAttributes_setClassAttributes found]
      by_cases same : id = cls
      · simp [same, classAttributes_of_class? found]
      · simp [same]
    · rw [result_getAttr_class_of_exposed found free split unbound, erased]
      rfl
    · intro object stored foundObject classCell unowned
      rw [result_getAttr_object_of_exposed found free split unbound foundObject classCell unowned,
        erased]
      rfl
    · refine readsAsBefore found fun other different => ?_
      rw [Names.find?_erase, if_neg different.symm]

end Noticing

/-- An object of a class that inherits from another, and a function. -/
def inheritingObject : Machine where
  heap := ⟨#[
    some (.frame { scope := .global, captured := true }),
    some (.function
      { name := ⟨"f", 0⟩, params := [⟨"self", 1⟩], defaults := [], body := [], defining := 0 }),
    some (.classObject { name := ⟨"Base", 2⟩, superclass := none, attributes := [] }),
    some (.classObject { name := ⟨"Derived", 3⟩, superclass := some 2, attributes := [] }),
    some (.object { classCell := 3, attributes := [] })]⟩

/-- A function that becomes an attribute of the upper class is a method of the object at once. -/
theorem later_method_is_seen_by_inheritingObject :
    inheritingObject.heap.class? 2 =
        some { name := ⟨"Base", 2⟩, superclass := none, attributes := [] } ∧
      Attribute.isReserved "late" = false ∧ inheritingObject.heap.Inherits 4 2 "late" ∧
      ∃ after, setAttr (.classObject 2) ⟨"late", 4⟩ (.function 1) inheritingObject = .ok () after ∧
        result (getAttr (.object 4) "late") after = .ok (.method 5 4 1) := by
  have found : inheritingObject.heap.class? 2 =
      some { name := ⟨"Base", 2⟩, superclass := none, attributes := [] } := rfl
  have free : Attribute.isReserved "late" = false := by decide
  have inherits : inheritingObject.heap.Inherits 4 2 "late" := by
    refine ⟨{ classCell := 3, attributes := [] }, rfl, rfl, [3], [], rfl, fun other member => ?_⟩
    obtain rfl := List.mem_singleton.mp member
    rfl
  obtain ⟨set, -⟩ := class_attributes_are_seen_through_inheritance found ⟨"late", 4⟩ free
  obtain ⟨after, done, seen, -⟩ := set (.function 1)
  exact ⟨found, free, inherits, after, done, seen 4 inherits⟩

end Act

end ScriptCore
