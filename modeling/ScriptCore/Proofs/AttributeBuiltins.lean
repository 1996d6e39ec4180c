import ScriptCore.Builtin
import ScriptCore.Proofs.Changes
import ScriptCore.Proofs.Typing

/-!
# The builtins on attributes

Classes and objects store attributes, and have more beyond their own; other values store none.  What
one of the builtins does with an attribute the others agree with.
-/

namespace ScriptCore

/-- Classes and objects store attributes. -/
def Value.Stores : Value → Prop
  | .object _ | .classObject _ => True
  | _ => False

/-- What is found beyond the own attributes of a value, as an attribute of it: on an object a
function is bound by a new method. -/
def Value.seenFrom (value target : Value) (method : CellId) : Value :=
  match target with
  | .object cell => value.boundTo method cell
  | _ => value

namespace Heap

/-- The attributes that a value stores itself. -/
def own (heap : Heap) : Value → Names
  | .object cell => heap.objectAttributes cell
  | .classObject cell => heap.classAttributes cell
  | _ => []

/-- The value of a name beyond the own attributes of a value: in the classes of an object, or in
those above a class. -/
def beyond (heap : Heap) (target : Value) (name : String) : Option Value :=
  match target with
  | .object cell => (heap.object? cell).bind fun content => heap.findAttr content.classCell name
  | .classObject cell => heap.firstOf (heap.ancestors cell).tail name
  | _ => none

/-- The failure to find an attribute. -/
def absent (heap : Heap) (target : Value) (name : String) : Error :=
  match target with
  | .object cell => .noAttribute (heap.objectClassName cell) name
  | .classObject cell => .noClassAttribute (heap.className cell) name
  | _ => .noAttribute (heap.typeName target) name

theorem kind_absent (heap : Heap) (target : Value) (name : String) :
    (heap.absent target name).kind = .attributeError := by
  cases target <;> rfl

/-- Own attributes come before those of the classes above. -/
theorem findAttr_eq_own (heap : Heap) (cell : CellId) (name : String) :
    heap.findAttr cell name =
      ((heap.own (.classObject cell)).find? name <|> heap.beyond (.classObject cell) name) := by
  obtain ⟨farther, split⟩ : ∃ farther, heap.ancestors cell = cell :: farther := ⟨_, rfl⟩
  rw [findAttr, beyond, own, firstOf, split, List.findSome?_cons, List.tail_cons]
  cases (heap.classAttributes cell).find? name <;> rfl

/-- The heap with other attributes of an object. -/
def setObjectAttributes (heap : Heap) (cell : CellId) (attributes : Names) : Heap :=
  match heap.object? cell with
  | some content => heap.set cell (.object { content with attributes })
  | none => heap

section Objects

variable (heap : Heap) (cell : CellId) (attributes : Names)

theorem object?_setObjectAttributes (id : CellId) :
    (heap.setObjectAttributes cell attributes).object? id =
      (heap.object? id).map fun content =>
        if id = cell then { content with attributes } else content := by
  cases found : heap.object? cell with
  | none => by_cases same : id = cell <;> simp [setObjectAttributes, same, found]
  | some content =>
      rw [setObjectAttributes, found, object?, get?_set]
      by_cases same : id = cell
      · simp [same, found, contains, object?_eq_some_iff.mp found]
      · simp [same, object?]

theorem class?_setObjectAttributes (id : CellId) :
    (heap.setObjectAttributes cell attributes).class? id = heap.class? id := by
  cases found : heap.object? cell with
  | none => rw [setObjectAttributes, found]
  | some content =>
      rw [setObjectAttributes, found, class?, get?_set]
      by_cases same : id = cell
      · simp [same, class?, contains, object?_eq_some_iff.mp found]
      · simp [same, class?]

theorem size_setObjectAttributes :
    (heap.setObjectAttributes cell attributes).size = heap.size := by
  unfold setObjectAttributes
  split <;> simp

end Objects

/-- The heap with other own attributes of a value. -/
def withOwn (heap : Heap) (target : Value) (attributes : Names) : Heap :=
  match target with
  | .object cell => heap.setObjectAttributes cell attributes
  | .classObject cell => heap.setClassAttributes cell attributes
  | _ => heap

theorem size_withOwn (heap : Heap) (target : Value) (attributes : Names) :
    (heap.withOwn target attributes).size = heap.size := by
  cases target with
  | object cell => exact heap.size_setObjectAttributes cell attributes
  | classObject cell => exact heap.size_setClassAttributes cell attributes
  | _ => rfl

section Storing

variable {heap after : Heap} {target : Value} {name : String} {value : Value}

theorem withOwn_of_setAttr {name : Str} (written : heap.setAttr target name value = .ok after) :
    Attribute.isReserved name.text = false ∧ target.Stores ∧
      after = heap.withOwn target ((heap.own target).insert name value) := by
  cases target with
  | object cell =>
      obtain ⟨free, written⟩ := Act.free_of_refuseReserved written
      refine ⟨free, trivial, ?_⟩
      rw [withOwn, own, objectAttributes, setObjectAttributes]
      cases found : heap.object? cell <;> rw [found] at written <;> cases written <;> rfl
  | classObject cell =>
      obtain ⟨free, written⟩ := Act.free_of_refuseReserved written
      refine ⟨free, trivial, ?_⟩
      rw [withOwn, own, classAttributes, setClassAttributes]
      cases found : heap.class? cell <;> rw [found] at written <;> cases written <;> rfl
  | _ => cases written

theorem withOwn_of_delAttr (removed : heap.delAttr target name = .ok (value, after)) :
    Attribute.isReserved name = false ∧ target.Stores ∧
      after = heap.withOwn target ((heap.own target).erase name) := by
  cases target with
  | object cell =>
      obtain ⟨free, removed⟩ := Act.free_of_refuseReserved removed
      refine ⟨free, trivial, ?_⟩
      rw [withOwn, own, objectAttributes, setObjectAttributes]
      split at removed
      · rename_i content bound found held
        cases removed
        rw [found]
      · cases removed
  | classObject cell =>
      obtain ⟨free, removed⟩ := Act.free_of_refuseReserved removed
      refine ⟨free, trivial, ?_⟩
      rw [withOwn, own, classAttributes, setClassAttributes]
      split at removed
      · rename_i content bound found held
        cases removed
        rw [found]
      · cases removed
  | _ => cases removed

theorem Fits.exists_object {cell : CellId} (fits : heap.Fits (.object cell)) :
    ∃ content, heap.object? cell = some content := by
  obtain ⟨stored, found, ofKind⟩ := fits cell rfl
  cases stored with
  | object content => exact ⟨content, object?_eq_some_iff.mpr found⟩
  | _ => exact ofKind.elim

theorem Fits.exists_class {cell : CellId} (fits : heap.Fits (.classObject cell)) :
    ∃ content, heap.class? cell = some content := by
  obtain ⟨stored, found, ofKind⟩ := fits cell rfl
  cases stored with
  | classObject content => exact ⟨content, class?_eq_some_iff.mpr found⟩
  | _ => exact ofKind.elim

theorem own_withOwn (stores : target.Stores) (fits : heap.Fits target) (attributes : Names) :
    (heap.withOwn target attributes).own target = attributes := by
  cases target with
  | object cell =>
      obtain ⟨content, found⟩ := fits.exists_object
      rw [withOwn, own, objectAttributes, object?_setObjectAttributes, found]
      simp
  | classObject cell =>
      obtain ⟨content, found⟩ := fits.exists_class
      rw [withOwn, own, classAttributes_setClassAttributes found, if_pos rfl]
  | _ => exact stores.elim

theorem own_withOwn_of_ne {other : Value} (apart : other ≠ target) (attributes : Names) :
    (heap.withOwn target attributes).own other = heap.own other := by
  cases target with
  | object cell =>
      cases other with
      | object id =>
          have elsewhere : id ≠ cell := fun same => apart (same ▸ rfl)
          rw [withOwn, own, own, objectAttributes, objectAttributes, object?_setObjectAttributes]
          simp [elsewhere]
      | classObject id =>
          rw [withOwn, own, own, classAttributes, classAttributes, class?_setObjectAttributes]
      | _ => rfl
  | classObject cell =>
      cases other with
      | object id =>
          rw [withOwn, own, own, objectAttributes, objectAttributes, object?_setClassAttributes]
      | classObject id =>
          have elsewhere : id ≠ cell := fun same => apart (same ▸ rfl)
          rw [withOwn, own, own, classAttributes, classAttributes, class?_setClassAttributes]
          simp [elsewhere]
      | _ => rfl
  | _ => rfl

end Storing

end Heap

namespace Act

section Reading

variable {target : Value} {machine : Machine} {name : String}

/-- Under a name that is not reserved a class or object gives its own attribute, else what it finds
beyond. -/
theorem result_getAttr_of_stores (stores : target.Stores)
    (free : Attribute.isReserved name = false) :
    result (getAttr target name) machine =
      match (machine.heap.own target).find? name with
      | some value => .ok value
      | none => match machine.heap.beyond target name with
        | some value => .ok (value.seenFrom target machine.heap.size)
        | none => .error (.error (machine.heap.absent target name)) := by
  obtain ⟨notClass, notDict, notName, notSuperclass⟩ := Attribute.computed_of_isReserved free
  cases target with
  | object cell =>
      cases found : machine.heap.object? cell with
      | none =>
          rw [result_getAttr_of_object?_eq_none found, Heap.own, Heap.beyond, Heap.absent,
            Heap.objectAttributes, Heap.objectClassName, found]
          rfl
      | some content =>
          rw [result_getAttr_object found notDict, if_neg notClass, Heap.own, Heap.beyond,
            Heap.absent, Heap.objectAttributes, Heap.objectClassName, found]
          rfl
  | classObject cell =>
      cases found : machine.heap.class? cell with
      | none =>
          have rootless : machine.heap.superclass? cell = none := by
            simp [Heap.superclass?, found]
          rw [result_getAttr_of_class?_eq_none found, Heap.own, Heap.beyond, Heap.absent,
            Heap.classAttributes, Heap.className, found,
            Heap.ancestors_of_superclass?_eq_none rootless]
          rfl
      | some content =>
          rw [result_getAttr_class found notDict, if_neg notName, if_neg notSuperclass,
            if_neg notClass, Heap.findAttr_eq_own, Heap.absent, Heap.className, found]
          cases (machine.heap.own (.classObject cell)).find? name <;> rfl
  | _ => exact stores.elim

theorem stop_of_result_getAttr_object {cell : CellId} {stop : Stop}
    (refused : result (getAttr (.object cell) name) machine = .error stop) :
    stop = .error (.noAttribute (machine.heap.objectClassName cell) name) := by
  rw [Heap.objectClassName]
  cases found : machine.heap.object? cell with
  | none =>
      rw [result_getAttr_of_object?_eq_none found] at refused
      cases refused
      rfl
  | some content =>
      by_cases isDict : name = Attribute.dictName
      · rw [isDict, result, getAttr_dictName found] at refused
        cases refused
      · rw [result_getAttr_object found isDict] at refused
        split_ifs at refused
        split at refused
        · cases refused
        · split at refused <;> cases refused
          rfl

theorem stop_of_result_getAttr_class {cell : CellId} {stop : Stop}
    (refused : result (getAttr (.classObject cell) name) machine = .error stop) :
    stop = .error (.noClassAttribute (machine.heap.className cell) name) := by
  rw [Heap.className]
  cases found : machine.heap.class? cell with
  | none =>
      rw [result_getAttr_of_class?_eq_none found] at refused
      cases refused
      rfl
  | some content =>
      by_cases isDict : name = Attribute.dictName
      · rw [isDict, result, getAttr_class, getClassAttr, heap_bind, found] at refused
        cases refused
      · rw [result_getAttr_class found isDict] at refused
        split_ifs at refused
        · cases refused
          rfl
        · split at refused <;> cases refused
          rfl

/-- Whatever value an attribute is read of, reading it fails in one way only. -/
theorem stop_of_result_getAttr {stop : Stop}
    (refused : result (getAttr target name) machine = .error stop) :
    stop = .error (machine.heap.absent target name) := by
  cases target with
  | object cell => exact stop_of_result_getAttr_object refused
  | classObject cell => exact stop_of_result_getAttr_class refused
  | function cell =>
      simp only [result, getAttr, heap_bind] at refused
      split_ifs at refused <;> cases refused
      rfl
  | builtin builtin =>
      simp only [result, getAttr, heap_bind] at refused
      split_ifs at refused <;> cases refused
      rfl
  | method cell receiver code =>
      simp only [result, getAttr, heap_bind] at refused
      split_ifs at refused <;> cases refused
      rfl
  | _ =>
      cases refused
      rfl

/-- An attribute is read, or there is none. -/
theorem getAttr_cases :
    (∃ value after, getAttr target name machine = .ok value after) ∨
      getAttr target name machine =
        .error (.error (machine.heap.absent target name)) machine := by
  have reads := reads_getAttr target machine name
  have refusal := @stop_of_result_getAttr target machine name
  rw [result] at refusal
  generalize getAttr target name machine = outcome at reads refusal ⊢
  cases reads with
  | refused stop => exact .inr (by rw [refusal rfl])
  | copied entries => exact .inl ⟨_, _, rfl⟩
  | found notDict value => exact .inl ⟨_, _, rfl⟩
  | bound notDict receiver code => exact .inl ⟨_, _, rfl⟩

end Reading

section Builtins

variable (target : Value) (name : Str) (machine : Machine)

theorem runStandard_getattr :
    runStandard .getattr [target, .string name] machine = getAttr target name.text machine :=
  rfl

theorem runStandard_getattr_default (default : Value) :
    runStandard .getattr [target, .string name, default] machine =
      match getAttr target name.text machine with
      | .ok value after => .ok value after
      | .error _ after => .ok default after := by
  have run : runStandard .getattr [target, .string name, default] machine =
    getAttrOr target name.text default machine := rfl
  rw [run, getAttrOr, handling]
  rcases @getAttr_cases target machine name.text with ⟨value, after, read⟩ | missing
  · rw [read]
  · simp only [missing, Heap.kind_absent, if_true]
    rfl

theorem runStandard_hasattr :
    runStandard .hasattr [target, .string name] machine =
      match getAttr target name.text machine with
      | .ok _ after => .ok (.bool true) after
      | .error _ after => .ok (.bool false) after := by
  have run : runStandard .hasattr [target, .string name] machine =
    (do return .bool (← hasAttr target name.text) : Act Value) machine := rfl
  rw [run]
  simp only [hasAttr, handling, bind, EStateM.bind]
  rcases @getAttr_cases target machine name.text with ⟨value, after, read⟩ | missing
  · rw [read]
    rfl
  · simp only [missing, Heap.kind_absent, if_true]
    rfl

theorem runStandard_setattr (value : Value) :
    runStandard .setattr [target, .string name, value] machine =
      match machine.heap.setAttr target name value with
      | .ok heap => .ok .nothing { machine with heap }
      | .error error => .error (.error error) machine := by
  have run : runStandard .setattr [target, .string name, value] machine =
    (do setAttr target name value; return .nothing : Act Value) machine := rfl
  rw [run]
  simp only [bind, EStateM.bind, setAttr_eq]
  cases machine.heap.setAttr target name value <;> rfl

theorem runStandard_delattr :
    runStandard .delattr [target, .string name] machine =
      match machine.heap.delAttr target name.text with
      | .ok (_, heap) => .ok .nothing { machine with heap }
      | .error error => .error (.error error) machine := by
  have run : runStandard .delattr [target, .string name] machine =
    (do let _ ← delAttr target name.text; return .nothing : Act Value) machine := rfl
  rw [run]
  simp only [bind, EStateM.bind, delAttr_eq]
  cases machine.heap.delAttr target name.text <;> rfl

variable {target name machine} {given value : Value} {after : Machine}

theorem withOwn_of_setattr
    (done : runStandard .setattr [target, .string name, value] machine = .ok given after) :
    Attribute.isReserved name.text = false ∧ target.Stores ∧
      after.heap =
        machine.heap.withOwn target ((machine.heap.own target).insert name value) := by
  rw [runStandard_setattr] at done
  cases written : machine.heap.setAttr target name value with
  | ok heap =>
      rw [written] at done
      cases done
      exact Heap.withOwn_of_setAttr written
  | error error =>
      rw [written] at done
      cases done

theorem withOwn_of_delattr
    (done : runStandard .delattr [target, .string name] machine = .ok given after) :
    Attribute.isReserved name.text = false ∧ target.Stores ∧
      after.heap =
        machine.heap.withOwn target ((machine.heap.own target).erase name.text) := by
  rw [runStandard_delattr] at done
  cases removed : machine.heap.delAttr target name.text with
  | ok result =>
      rw [removed] at done
      cases done
      exact Heap.withOwn_of_delAttr removed
  | error error =>
      rw [removed] at done
      cases done

end Builtins

/-- The builtins on attributes agree, for any name and any value that names a cell of its kind, as
every value in a machine does.  Reading fails in one way only, by which asking whether there is an
attribute and reading it or a default are told apart; what was set is read back; what was removed is
no own attribute any more, and what is read then comes from beyond.  Values that are not classes or
objects store nothing. -/
theorem attribute_builtins_agree {machine : Machine} {target : Value}
    (fits : machine.heap.Fits target) (name : Str) :
    runStandard .getattr [target, .string name] machine = getAttr target name.text machine ∧
    ((∃ value after, getAttr target name.text machine = .ok value after) ∨
      ∃ error, error.kind = .attributeError ∧
        getAttr target name.text machine = .error (.error error) machine) ∧
    (∃ answer after,
      runStandard .hasattr [target, .string name] machine = .ok (.bool answer) after ∧
      (answer = true ↔ ∃ value after,
        runStandard .getattr [target, .string name] machine = .ok value after)) ∧
    (∀ default, runStandard .getattr [target, .string name, default] machine =
      match runStandard .getattr [target, .string name] machine with
      | .ok value after => .ok value after
      | .error _ after => .ok default after) ∧
    (∀ value given after,
      runStandard .setattr [target, .string name, value] machine = .ok given after →
      result (runStandard .getattr [target, .string name]) after = .ok value) ∧
    (∀ given after, runStandard .delattr [target, .string name] machine = .ok given after →
      after.heap.own target = (machine.heap.own target).erase name.text ∧
      (after.heap.own target).find? name.text = none ∧
      (∀ other, other ≠ target → after.heap.own other = machine.heap.own other) ∧
      result (runStandard .getattr [target, .string name]) after =
        match after.heap.beyond target name.text with
        | some value => .ok (value.seenFrom target after.heap.size)
        | none => .error (.error (after.heap.absent target name.text))) ∧
    (¬target.Stores → ∀ given after,
      (∀ value,
        runStandard .setattr [target, .string name, value] machine ≠ .ok given after) ∧
      runStandard .delattr [target, .string name] machine ≠ .ok given after) := by
  refine ⟨rfl, ?_, ?_, fun default => ?_, ?_, ?_, ?_⟩
  · exact getAttr_cases.imp_right fun missing => ⟨_, machine.heap.kind_absent _ _, missing⟩
  · rw [runStandard_hasattr, runStandard_getattr]
    rcases @getAttr_cases target machine name.text with ⟨value, after, read⟩ | missing
    · rw [read]
      exact ⟨true, after, rfl, iff_of_true rfl ⟨value, after, rfl⟩⟩
    · rw [missing]
      exact ⟨false, machine, rfl, by simp⟩
  · exact runStandard_getattr_default target name machine default
  · intro value given after done
    obtain ⟨free, stores, heap⟩ := withOwn_of_setattr done
    have read : result (runStandard .getattr [target, .string name]) after = _ :=
      result_getAttr_of_stores stores free
    rw [read, heap, Heap.own_withOwn stores fits, Names.find?_insert, if_pos rfl]
  · intro given after done
    obtain ⟨free, stores, heap⟩ := withOwn_of_delattr done
    have own : after.heap.own target = (machine.heap.own target).erase name.text := by
      rw [heap, Heap.own_withOwn stores fits]
    have gone : (after.heap.own target).find? name.text = none := by
      rw [own, Names.find?_erase, if_pos rfl]
    have read : result (runStandard .getattr [target, .string name]) after = _ :=
      result_getAttr_of_stores stores free
    refine ⟨own, gone, fun other apart => ?_, ?_⟩
    · rw [heap, Heap.own_withOwn_of_ne apart]
    · rw [read, gone]
  · intro storeless given after
    exact ⟨fun value done => storeless (withOwn_of_setattr done).2.1,
      fun done => storeless (withOwn_of_delattr done).2.1⟩

/-- A function that an object stores itself is read back as it is, not as a method. -/
theorem function_of_inheritingObject_stays_unbound :
    inheritingObject.heap.Fits (.object 4) ∧
    ∃ after,
      runStandard .setattr [.object 4, .string ⟨"held", 5⟩, .function 1] inheritingObject =
        .ok .nothing after ∧
      result (runStandard .getattr [.object 4, .string ⟨"held", 5⟩]) after =
        .ok (.function 1) := by
  have fits : inheritingObject.heap.Fits (.object 4) := by
    intro id named
    cases named
    exact ⟨_, rfl, trivial⟩
  have stored : ∃ after,
      runStandard .setattr [.object 4, .string ⟨"held", 5⟩, .function 1] inheritingObject =
        .ok .nothing after := by
    rw [runStandard_setattr]
    exact ⟨_, rfl⟩
  obtain ⟨after, done⟩ := stored
  obtain ⟨-, -, -, -, reads, -⟩ := attribute_builtins_agree fits ⟨"held", 5⟩
  exact ⟨fits, after, done, reads _ _ after done⟩

end Act

end ScriptCore
