import ScriptCore.Proofs.Evolution
import ScriptCore.Proofs.RunInvariant

/-!
# Reserved names

No class and no object ever binds a reserved name itself, so what the reserved names give is never
shadowed: an object has the class that it was made of, and a class the name and superclass that it
was made with, for as long as they exist.
-/

namespace ScriptCore

open Relation

/-- What a class or object keeps from when it is made. -/
inductive Nature
  | ofClass (name : Str) (superclass : Option CellId)
  | ofObject (cls : CellId)

/-- The nature of a class or object. -/
def Cell.nature? : Cell → Option Nature
  | .classObject content => some (.ofClass content.name content.superclass)
  | .object content => some (.ofObject content.classCell)
  | _ => none

theorem Cell.nature?_eq_none {cell : Cell} (plain : cell.attributes? = none) :
    cell.nature? = none := by
  cases cell with
  | classObject content => cases plain
  | object content => cases plain
  | _ => rfl

namespace Names

theorem Unreserved.of_edit {names edited : Names} (unreserved : names.Unreserved)
    (edit : names.Edit edited) : edited.Unreserved := by
  intro asked reserved
  cases edit with
  | bind name value free =>
      rw [find?_insert, if_neg]
      · exact unreserved asked reserved
      · rintro rfl
        rw [free] at reserved
        cases reserved
  | remove name free =>
      rw [find?_erase, unreserved asked reserved, ite_self]

end Names

namespace Heap

/-- The nature of the class or object in a cell. -/
def nature? (heap : Heap) (id : CellId) : Option Nature :=
  (heap.get? id).bind Cell.nature?

/-- No class or object binds a reserved name itself. -/
def Unreserved (heap : Heap) : Prop :=
  ∀ id cell names, heap.get? id = some cell → cell.attributes? = some names → names.Unreserved

/-- What is left of the classes and objects of an earlier heap has the nature it had. -/
structure Carries (before after : Heap) : Prop where
  size_le : before.size ≤ after.size
  nature? : ∀ id nature, id < before.size → after.nature? id = some nature →
    before.nature? id = some nature

theorem nature?_of_class? {heap : Heap} {id : CellId} {content : ClassCell}
    (found : heap.class? id = some content) :
    heap.nature? id = some (.ofClass content.name content.superclass) := by
  simp [nature?, class?_eq_some_iff.mp found, Cell.nature?]

theorem nature?_of_object? {heap : Heap} {id : CellId} {content : ObjectCell}
    (found : heap.object? id = some content) :
    heap.nature? id = some (.ofObject content.classCell) := by
  simp [nature?, object?_eq_some_iff.mp found, Cell.nature?]

theorem class?_of_nature? {heap : Heap} {id : CellId} {name : Str} {superclass : Option CellId}
    (nature : heap.nature? id = some (.ofClass name superclass)) :
    ∃ content, heap.class? id = some content ∧ content.name = name ∧
      content.superclass = superclass := by
  obtain ⟨cell, found, known⟩ := Option.bind_eq_some_iff.mp nature
  cases cell with
  | classObject content =>
      cases known
      exact ⟨content, class?_eq_some_iff.mpr found, rfl, rfl⟩
  | _ => cases known

theorem object?_of_nature? {heap : Heap} {id cls : CellId}
    (nature : heap.nature? id = some (.ofObject cls)) :
    ∃ content, heap.object? id = some content ∧ content.classCell = cls := by
  obtain ⟨cell, found, known⟩ := Option.bind_eq_some_iff.mp nature
  cases cell with
  | object content =>
      cases known
      exact ⟨content, object?_eq_some_iff.mpr found, rfl⟩
  | _ => cases known

/-- A new cell has the nature of its content. -/
theorem nature?_alloc (heap : Heap) {cell : Cell} {nature : Nature}
    (known : cell.nature? = some nature) :
    heap.size < (heap.alloc cell).2.size ∧
      ∀ found, (heap.alloc cell).2.nature? heap.size = some found → found = nature := by
  refine ⟨by simp, fun found same => ?_⟩
  rw [nature?, get?_alloc, if_pos rfl, Option.bind_some, known] at same
  exact (Option.some.inj same).symm

section Steps

variable {before middle after : Heap}

theorem Carries.refl (heap : Heap) : heap.Carries heap :=
  ⟨Nat.le_refl _, fun _ _ _ found => found⟩

theorem Carries.trans (first : before.Carries middle) (second : middle.Carries after) :
    before.Carries after := by
  refine ⟨Nat.le_trans first.size_le second.size_le, fun id nature inside found => ?_⟩
  have between := second.nature? id nature (Nat.lt_of_lt_of_le inside first.size_le) found
  exact first.nature? id nature inside between

/-- New content of the nature that a cell had, or of none. -/
theorem Carries.set (heap : Heap) (id : CellId) {cell : Cell}
    (same : ∀ nature, cell.nature? = some nature → heap.nature? id = some nature) :
    heap.Carries (heap.set id cell) := by
  refine ⟨by simp, fun other nature _ found => ?_⟩
  rw [Heap.nature?, get?_set] at found
  split at found
  · rename_i stored
    rw [stored.1]
    exact same nature found
  · exact found

theorem Change.carries (change : before.Change after) : before.Carries after := by
  cases change with
  | make cell unreserved =>
      refine ⟨by simp, fun id nature inside found => ?_⟩
      rw [Heap.nature?, get?_alloc, if_neg (Nat.ne_of_lt inside)] at found
      exact found
  | replace id cell renewal =>
      refine .set before id fun nature found => ?_
      rw [Cell.nature?_eq_none renewal.attributes?_eq_none] at found
      cases found
  | editClass id content attributes found edit =>
      refine .set before id fun nature same => ?_
      rw [nature?_of_class? found]
      exact same
  | editObject id content attributes found edit =>
      refine .set before id fun nature same => ?_
      rw [nature?_of_object? found]
      exact same
  | free id =>
      refine ⟨by simp, fun other nature _ found => ?_⟩
      rw [Heap.nature?, get?_erase] at found
      split at found
      · cases found
      · exact found

theorem Unreserved.set {heap : Heap} (unreserved : heap.Unreserved) (id : CellId) {cell : Cell}
    (fresh : ∀ names, cell.attributes? = some names → names.Unreserved) :
    (heap.set id cell).Unreserved := by
  intro other content names found bound
  rw [get?_set] at found
  split at found
  · cases found
    exact fresh names bound
  · exact unreserved other content names found bound

theorem Change.unreserved (change : before.Change after) (unreserved : before.Unreserved) :
    after.Unreserved := by
  cases change with
  | make cell fresh =>
      intro id content names found bound
      rw [get?_alloc] at found
      split at found
      · cases found
        exact fresh names bound
      · exact unreserved id content names found bound
  | replace id cell renewal =>
      refine unreserved.set id fun names bound => ?_
      rw [renewal.attributes?_eq_none] at bound
      cases bound
  | editClass id content attributes found edit =>
      refine unreserved.set id fun names bound => ?_
      cases bound
      exact (unreserved id _ _ (class?_eq_some_iff.mp found) rfl).of_edit edit
  | editObject id content attributes found edit =>
      refine unreserved.set id fun names bound => ?_
      cases bound
      exact (unreserved id _ _ (object?_eq_some_iff.mp found) rfl).of_edit edit
  | free id =>
      intro other content names found bound
      rw [get?_erase] at found
      split at found
      · cases found
      · exact unreserved other content names found bound

theorem Evolves.carries (evolves : before.Evolves after) : before.Carries after := by
  induction evolves with
  | refl => exact .refl before
  | tail _ change ih => exact ih.trans change.carries

theorem Evolves.unreserved (evolves : before.Evolves after) (unreserved : before.Unreserved) :
    after.Unreserved := by
  induction evolves with
  | refl => exact unreserved
  | tail _ change ih => exact change.unreserved ih

end Steps

namespace Unreserved

variable {heap : Heap} (unreserved : heap.Unreserved)
include unreserved

theorem class_unbound (id : CellId) : (heap.classAttributes id).Unreserved := by
  unfold classAttributes
  cases found : heap.class? id with
  | none => exact fun _ _ => rfl
  | some content => exact unreserved id _ _ (class?_eq_some_iff.mp found) rfl

theorem object_unbound (id : CellId) : (heap.objectAttributes id).Unreserved := by
  unfold objectAttributes
  cases found : heap.object? id with
  | none => exact fun _ _ => rfl
  | some content => exact unreserved id _ _ (object?_eq_some_iff.mp found) rfl

theorem findAttr_eq_none (id : CellId) {name : String}
    (reserved : Attribute.isReserved name = true) : heap.findAttr id name = none := by
  rw [findAttr, List.findSome?_eq_none_iff]
  intro ancestor _
  exact unreserved.class_unbound ancestor name reserved

end Unreserved

end Heap

namespace Act

section Reading

variable {machine : Machine}

/-- The name of a class is not looked up on its objects. -/
theorem getAttr_object_fails (unreserved : machine.heap.Unreserved) (object : CellId)
    {name : String} (asked : name = Attribute.nameName ∨ name = Attribute.superclassName) :
    ∃ error, error.kind = .attributeError ∧
      result (getAttr (.object object) name) machine = .error (.error error) := by
  have reserved : Attribute.isReserved name = true := by
    rcases asked with rfl | rfl <;> decide
  have notDict : name ≠ Attribute.dictName := by rcases asked with rfl | rfl <;> decide
  have notClass : name ≠ Attribute.className := by rcases asked with rfl | rfl <;> decide
  cases found : machine.heap.object? object with
  | none => exact ⟨_, rfl, result_getAttr_of_object?_eq_none found⟩
  | some content =>
      have unbound := unreserved.object_unbound object name reserved
      rw [Heap.objectAttributes_of_object? found] at unbound
      refine ⟨.noAttribute (machine.heap.className content.classCell) name, rfl, ?_⟩
      rw [result_getAttr_object found notDict, if_neg notClass, unbound,
        unreserved.findAttr_eq_none _ reserved]

theorem getAttr_class_fails (cls : CellId) :
    ∃ error, error.kind = .attributeError ∧
      result (getAttr (.classObject cls) Attribute.className) machine = .error (.error error) := by
  cases found : machine.heap.class? cls with
  | none => exact ⟨_, rfl, result_getAttr_of_class?_eq_none found⟩
  | some content =>
      refine ⟨.noClassAttribute content.name.text Attribute.className, rfl, ?_⟩
      rw [result_getAttr_class found (by decide), if_neg (by decide), if_neg (by decide),
        if_pos rfl]

theorem getAttr_className {object cls : CellId}
    (nature : machine.heap.nature? object = some (.ofObject cls)) :
    result (getAttr (.object object) Attribute.className) machine = .ok (.classObject cls) := by
  obtain ⟨content, found, rfl⟩ := Heap.object?_of_nature? nature
  rw [result_getAttr_object found (by decide), if_pos rfl]

theorem getAttr_nameName {cls : CellId} {name : Str} {superclass : Option CellId}
    (nature : machine.heap.nature? cls = some (.ofClass name superclass)) :
    result (getAttr (.classObject cls) Attribute.nameName) machine = .ok (.string name) ∧
      result (getAttr (.classObject cls) Attribute.superclassName) machine =
        .ok ((superclass.map Value.classObject).getD .nothing) := by
  obtain ⟨content, found, rfl, rfl⟩ := Heap.class?_of_nature? nature
  constructor
  · rw [result_getAttr_class found (by decide), if_pos rfl]
  · rw [result_getAttr_class found (by decide), if_neg (by decide), if_pos rfl]

end Reading

section Making

variable {α β : Type} {action : Act α} {machine after : Machine}

theorem Evolves.of_ok {value : α} (evolves : Evolves action)
    (given : action machine = .ok value after) : machine.Evolves after := by
  have left := evolves machine
  rw [leaves, given] at left
  exact left

theorem eq_of_bind_pure {result value : β}
    (given : (do let _ ← action; return result) machine = .ok value after) : value = result := by
  simp only [Bind.bind, EStateM.bind] at given
  cases ran : action machine with
  | ok unused middle =>
      rw [ran] at given
      cases given
      rfl
  | error stop middle =>
      rw [ran] at given
      cases given

/-- The object made is the next cell, and what the function for new objects does comes after. -/
theorem instantiate_makes {evaluator : Evaluator} (evolves : evaluator.Evolves) {cls : CellId}
    {arguments : List Value} {value : Value}
    (given : instantiate evaluator cls arguments machine = .ok value after) :
    value = .object machine.heap.size ∧
      (machine.heap.alloc (.object { classCell := cls, attributes := [] })).2.Evolves
        after.heap := by
  rw [instantiate, newObject, alloc_bind, heap_bind] at given
  cases found : (machine.heap.alloc (.object { classCell := cls, attributes := [] })).2.findAttr cls
      Attribute.initName with
  | none =>
      simp only [found] at given
      cases given
      exact ⟨rfl, .refl _⟩
  | some initial =>
      cases initial with
      | function code =>
          simp only [found] at given
          exact ⟨eq_of_bind_pure given,
            (((evolves_initialise evolves _ _ _).bind fun _ => evolves_pure _).of_ok given).heap⟩
      | _ =>
          simp only [found] at given
          cases given
          exact ⟨rfl, .refl _⟩

end Making

end Act

/-- Something done with classes, objects or programs. -/
inductive Undertaking
  | newClass (name : Str) (superclass : Option CellId) (attributes : Names)
  | newObject (cls : CellId)
  | setAttr (target : Value) (name : Str) (value : Value)
  | delAttr (target : Value) (name : String)
  | builtin (function : Standard) (arguments : List Value)
  | newFunction (defining : CellId) (name : Str) (params : List Str) (defaults : List Expr)
      (body : Block)
  /-- A call, of a class for a new object or of anything else. -/
  | call (depth : Nat) (caller : CellId) (callee : Value) (arguments : List Value)
  | step (step : Step)

namespace Undertaking

/-- What is done. -/
def act : Undertaking → Act Value
  | newClass name superclass attributes => Act.newClass name superclass attributes
  | newObject cls => do return .object (← Act.newObject cls)
  | setAttr target name value => do
      Act.setAttr target name value
      return .nothing
  | delAttr target name => Act.delAttr target name
  | builtin function arguments => Act.runStandard function arguments
  | newFunction defining name params defaults body =>
      Act.newFunction defining name params defaults body
  | call depth caller callee arguments =>
      Act.call (Evaluator.ofFuel depth) caller callee arguments
  | step taken => do
      let _ ← Act.takeStep taken
      return .nothing

/-- The machine after several undertakings in order, each whether it fails or not. -/
def run (deeds : List Undertaking) (machine : Machine) : Machine :=
  deeds.foldl (fun machine deed => deed.act.leaves machine) machine

/-- The nature of the class or object that an undertaking is to make. -/
def nature? : Undertaking → Option Nature
  | newClass name superclass _ => some (.ofClass name superclass)
  | newObject cls => some (.ofObject cls)
  | call _ _ (.classObject cls) _ => some (.ofObject cls)
  | _ => none

theorem evolves_act (deed : Undertaking) : deed.act.Evolves := by
  cases deed with
  | newClass name superclass attributes => exact Act.evolves_newClass _ _ _
  | newObject cls => exact (Act.evolves_newObject cls).bind fun _ => Act.evolves_pure _
  | setAttr target name value =>
      exact (Act.evolves_setAttr _ _ _).bind fun _ => Act.evolves_pure _
  | delAttr target name => exact Act.evolves_delAttr _ _
  | builtin function arguments => exact Act.evolves_runStandard _ _
  | newFunction defining name params defaults body => exact Act.evolves_newFunction _ _ _ _ _
  | call depth caller callee arguments =>
      exact Act.evolves_call (Evaluator.evolves_ofFuel depth) _ _ _
  | step taken => exact (Act.evolves_takeStep taken).bind fun _ => Act.evolves_pure _

theorem machineEvolves_run (deeds : List Undertaking) (machine : Machine) :
    machine.Evolves (run deeds machine) := by
  induction deeds generalizing machine with
  | nil => exact .refl _
  | cons deed rest ih => exact (evolves_act deed machine).trans (ih _)

theorem evolves_run (deeds : List Undertaking) (machine : Machine) :
    machine.heap.Evolves (run deeds machine).heap :=
  (machineEvolves_run deeds machine).heap

end Undertaking

namespace Machine

theorem heap_build (standard : Bool) (natives : List (String × Native)) :
    (build standard natives).heap = {} := by
  obtain ⟨builtins, interner, supply, built⟩ := Activity.exists_build_eq standard natives
  rw [built]

end Machine

namespace Machine

/-- What the reserved names give in a machine in which none of them is bound. -/
structure ReservesNames (machine : Machine) : Prop where
  class_unbound : ∀ cls name, Attribute.isReserved name = true →
    (machine.heap.classAttributes cls).find? name = none
  object_unbound : ∀ object name, Attribute.isReserved name = true →
    (machine.heap.objectAttributes object).find? name = none
  object_fails : ∀ object name, name = Attribute.nameName ∨ name = Attribute.superclassName →
    ∃ error, error.kind = .attributeError ∧
      Act.result (Act.getAttr (.object object) name) machine = .error (.error error)
  class_fails : ∀ cls, ∃ error, error.kind = .attributeError ∧
    Act.result (Act.getAttr (.classObject cls) Attribute.className) machine =
      .error (.error error)

theorem reservesNames {machine : Machine} (unreserved : machine.heap.Unreserved) :
    machine.ReservesNames where
  class_unbound cls name := unreserved.class_unbound cls name
  object_unbound object name := unreserved.object_unbound object name
  object_fails object _ := Act.getAttr_object_fails unreserved object
  class_fails := Act.getAttr_class_fails

end Machine

namespace Undertaking

/-- What is made has the nature that it is to be made with, if it still exists. -/
theorem nature?_of_made {deed : Undertaking} {machine after : Machine} {value : Value}
    {nature : Nature} (given : deed.act machine = .ok value after)
    (makes : deed.nature? = some nature) :
    ∃ id, value.cell? = some id ∧ id < after.heap.size ∧
      ∀ found, after.heap.nature? id = some found → found = nature := by
  cases deed with
  | newClass name superclass attributes =>
      cases makes
      rw [act, Act.newClass] at given
      cases reserved :
          (attributes.map fun binding => binding.1.text).find? Attribute.isReserved with
      | some name =>
          simp only [reserved] at given
          cases given
      | none =>
          simp only [reserved] at given
          cases given
          exact ⟨_, rfl, machine.heap.nature?_alloc rfl⟩
  | newObject cls =>
      cases makes
      cases given
      exact ⟨_, rfl, machine.heap.nature?_alloc rfl⟩
  | call depth caller callee arguments =>
      cases callee with
      | classObject cls =>
          cases makes
          rw [act, Act.call] at given
          obtain ⟨rfl, evolves⟩ := Act.instantiate_makes (Evaluator.evolves_ofFuel depth) given
          obtain ⟨inside, fixed⟩ := @Heap.nature?_alloc machine.heap
            (.object { classCell := cls, attributes := [] }) _ rfl
          refine ⟨_, rfl, Nat.lt_of_lt_of_le inside evolves.carries.size_le, fun found same => ?_⟩
          exact fixed found (evolves.carries.nature? _ found inside same)
      | _ => cases makes
  | _ => cases makes

section Running

variable {standard : Bool} {natives : List (String × Native)}

theorem unreserved_run (deeds : List Undertaking) :
    (run deeds (Machine.build standard natives)).heap.Unreserved := by
  refine (evolves_run deeds (Machine.build standard natives)).unreserved ?_
  rw [Machine.heap_build]
  intro id cell names found
  simp [Heap.get?] at found

/-- What was made has its nature in every later machine in which it exists. -/
theorem nature?_run {deed : Undertaking} {machine after : Machine} {value : Value}
    {nature found : Nature} {id : CellId} (given : deed.act machine = .ok value after)
    (makes : deed.nature? = some nature) (named : value.cell? = some id)
    (later : List Undertaking) (lasts : (run later after).heap.nature? id = some found) :
    (run later after).heap.nature? id = some nature := by
  obtain ⟨made, same, inside, fixed⟩ := nature?_of_made given makes
  obtain rfl := Option.some.inj (named.symm.trans same)
  have before := (evolves_run later after).carries.nature? id found inside lasts
  rw [lasts, fixed found before]

end Running

theorem run_append (earlier later : List Undertaking) (machine : Machine) :
    run (earlier ++ later) machine = run later (run earlier machine) :=
  List.foldl_append

/-- Reserved names are never shadowed: none is ever bound, and what was made with a class, a name
or a superclass gives it for as long as it exists. -/
theorem reserved_names_are_never_shadowed (standard : Bool) (natives : List (String × Native))
    (deeds : List Undertaking) :
    let start := Machine.build standard natives
    let last := run deeds start
    last.ReservesNames ∧
    (∀ earlier later, deeds = earlier ++ later →
      (run earlier start).heap.Carries last.heap) ∧
    ∀ earlier deed later value after, deeds = earlier ++ deed :: later →
      deed.act (run earlier start) = .ok value after →
      (∀ cls object, deed.nature? = some (.ofObject cls) → value = .object object →
        (last.heap.object? object).isSome = true →
        Act.result (Act.getAttr (.object object) Attribute.className) last =
          .ok (.classObject cls)) ∧
      (∀ name superclass cls, deed.nature? = some (.ofClass name superclass) →
        value = .classObject cls → (last.heap.class? cls).isSome = true →
        Act.result (Act.getAttr (.classObject cls) Attribute.nameName) last = .ok (.string name) ∧
        Act.result (Act.getAttr (.classObject cls) Attribute.superclassName) last =
          .ok ((superclass.map Value.classObject).getD .nothing)) := by
  intro start last
  refine ⟨Machine.reservesNames (unreserved_run deeds), ?_, ?_⟩
  · rintro earlier later rfl
    rw [show last = run later (run earlier start) from run_append _ _ _]
    exact (evolves_run later _).carries
  · rintro earlier deed later value after rfl given
    have whole : last = run later after := by
      have left : deed.act.leaves (run earlier start) = after := by rw [Act.leaves, given]
      rw [show last = run (deed :: later) (run earlier start) from run_append _ _ _, ← left]
      rfl
    rw [whole]
    constructor
    · rintro cls object makes rfl present
      obtain ⟨content, found⟩ := Option.isSome_iff_exists.mp present
      exact Act.getAttr_className
        (nature?_run given makes rfl later (Heap.nature?_of_object? found))
    · rintro name superclass cls makes rfl present
      obtain ⟨content, found⟩ := Option.isSome_iff_exists.mp present
      exact Act.getAttr_nameName
        (nature?_run given makes rfl later (Heap.nature?_of_class? found))

/-- A function for new objects that is to give its object another class, a class with it, an
object of that class, and an attempt to write the name of the class. -/
def misnamed : List Undertaking :=
  [.step (.child "top" none),
    .newFunction 1 ⟨Attribute.initName, 0⟩ [⟨"self", 1⟩] []
      [.expr (.attempt (.operate (.setAttr Attribute.className)
        [.operate (.name "self") [], .operate (.literal (.int 1)) []]) none (.sequence []))],
    .newClass ⟨"Point", 2⟩ none [(⟨Attribute.initName, 3⟩, .function 2)],
    .call 5 1 (.classObject 3) [],
    .setAttr (.classObject 3) ⟨Attribute.nameName, 4⟩ .nothing]

/-- The object that an action gives. -/
def objectOf? : EStateM.Result Stop Machine Value → Option CellId
  | .ok (.object object) _ => some object
  | _ => none

theorem exists_of_objectOf? {result : EStateM.Result Stop Machine Value} {object : CellId}
    (given : objectOf? result = some object) : ∃ after, result = .ok (.object object) after := by
  unfold objectOf? at given
  split at given
  · cases given
    exact ⟨_, rfl⟩
  · cases given

theorem misnamed_object_has_its_class :
    Act.result (Act.getAttr (.object 4) Attribute.className)
      (run misnamed (Machine.build false [])) = .ok (.classObject 3) := by
  obtain ⟨-, -, made⟩ := reserved_names_are_never_shadowed false [] misnamed
  have gives : objectOf? ((call 5 1 (.classObject 3) []).act
      (run (misnamed.take 3) (Machine.build false []))) = some 4 := by
    decide +kernel
  obtain ⟨after, given⟩ := exists_of_objectOf? gives
  exact (made (misnamed.take 3) _ (misnamed.drop 4) (.object 4) after rfl given).1 3 4 rfl rfl
    (by decide +kernel)

end Undertaking

end ScriptCore
