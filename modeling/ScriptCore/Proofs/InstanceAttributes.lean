import ScriptCore.Builtin
import ScriptCore.Proofs.ClassAttributes

/-!
# Attributes of objects

Attributes of objects are set, removed and read, and the dicts that attributes were read into are
changed, in any order.  No class notices, and an object notices only what is done to itself.  It
gives back what was last set and not removed, as it is, and what its class gives otherwise.  A dict
of attributes is a copy: it changes only where its own items are changed.
-/

namespace ScriptCore

namespace Names

/-- The entries of a dict of attributes. -/
def snapshot (names : Names) : Entries :=
  names.map fun binding => (Key.ofStr binding.1, binding.2)

theorem erase_of_find?_eq_none {names : Names} {name : String}
    (unbound : names.find? name = none) : names.erase name = names := by
  induction names with
  | nil => rfl
  | cons binding rest ih =>
      obtain ⟨bound, value⟩ := binding
      rw [find?] at unbound
      split at unbound
      · cases unbound
      · rename_i different
        have onward := ih unbound
        unfold erase at onward ⊢
        rw [List.filter_cons_of_pos (by simpa using different), onward]

end Names

namespace Entries

theorem erase_of_find?_eq_none {entries : Entries} {key : Key}
    (missing : entries.find? key = none) : entries.erase key = entries := by
  induction entries with
  | nil => rfl
  | cons entry rest ih =>
      obtain ⟨stored, value⟩ := entry
      rw [find?] at missing
      split at missing
      · cases missing
      · rename_i different
        simp [erase, different, ih missing]

end Entries

/-- Something done to the attributes of an object, or to a dict of attributes. -/
inductive Deed
  | write (object : CellId) (name : Str) (value : Value)
  | delete (object : CellId) (name : String)
  /-- Set and remove by the builtin functions. -/
  | setattr (object : CellId) (name : Str) (value : Value)
  | delattr (object : CellId) (name : Str)
  /-- Read any attribute of any value. -/
  | read (target : Value) (name : String)
  /-- Set or remove an item of a dict that was read. -/
  | setItem (dict : CellId) (key value : Value)
  | deleteItem (dict : CellId) (key : Value)

namespace Deed

/-- A deed as an action, with the dicts that were read before it. -/
def act (dicts : List CellId) : Deed → Act Value
  | write object name value => do
      Act.setAttr (.object object) name value
      return .nothing
  | delete object name => Act.delAttr (.object object) name
  | setattr object name value =>
      Act.runStandard .setattr [.object object, .string name, value]
  | delattr object name => Act.runStandard .delattr [.object object, .string name]
  | read target name => Act.getAttr target name
  | setItem dict key value =>
      if dict ∈ dicts then do
        Act.setItem (.dict dict) key value
        return .nothing
      else return .nothing
  | deleteItem dict key =>
      if dict ∈ dicts then Act.deleteItem (.dict dict) key else return .nothing

/-- The dict that a deed reads attributes into. -/
def obtains : Deed → Except Stop Value → List CellId
  | read _ name, .ok (.dict cell) => if name = Attribute.dictName then [cell] else []
  | _, _ => []

theorem exists_of_mem_obtains {deed : Deed} {outcome : Except Stop Value} {dict : CellId}
    (obtained : dict ∈ deed.obtains outcome) :
    ∃ target, deed = read target Attribute.dictName ∧ outcome = .ok (.dict dict) := by
  unfold obtains at obtained
  split at obtained
  · split_ifs at obtained with isDict
    · obtain rfl := List.mem_singleton.mp obtained
      exact ⟨_, by rw [isDict], rfl⟩
    · cases obtained
  · cases obtained

/-- The object whose attributes a deed is to change. -/
def target? : Deed → Option CellId
  | write object _ _ | delete object _ | setattr object _ _ | delattr object _ => some object
  | _ => none

/-- The attributes of an object after a deed.  Computed names are refused. -/
def own (object : CellId) (names : Names) : Deed → Names
  | write changed name value | setattr changed name value =>
      if changed = object ∧ Attribute.isReserved name.text = false then names.insert name value
      else names
  | delete changed name =>
      if changed = object ∧ Attribute.isReserved name = false then names.erase name else names
  | delattr changed name =>
      if changed = object ∧ Attribute.isReserved name.text = false then names.erase name.text
      else names
  | _ => names

/-- What stands under a name of an object after a deed: what was written last, unless it was
removed. -/
def standing (object : CellId) (name : String) (before : Option Value) : Deed → Option Value
  | write changed written value | setattr changed written value =>
      if changed = object ∧ written.text = name then some value else before
  | delete changed gone => if changed = object ∧ gone = name then none else before
  | delattr changed gone => if changed = object ∧ gone.text = name then none else before
  | _ => before

/-- The entries of a dict after a deed.  What may not be a key is refused. -/
def entries (dict : CellId) (before : Entries) : Deed → Entries
  | setItem changed key value =>
      match Key.ofValue key with
      | .ok key => if changed = dict then before.insert key value else before
      | .error _ => before
  | deleteItem changed key =>
      match Key.ofValue key with
      | .ok key => if changed = dict then before.erase key else before
      | .error _ => before
  | _ => before

/-- What a deed makes of the content of a cell. -/
def onCell (dicts : List CellId) (deed : Deed) (id : CellId) : Cell → Cell
  | .object content => .object { content with attributes := deed.own id content.attributes }
  | .dict before => .dict (if id ∈ dicts then deed.entries id before else before)
  | cell => cell

end Deed

namespace Heap

theorem object?_eq_some_iff {heap : Heap} {id : CellId} {content : ObjectCell} :
    heap.object? id = some content ↔ heap.get? id = some (.object content) := by
  unfold object?
  split <;> simp_all

theorem objectAttributes_of_object? {heap : Heap} {id : CellId} {content : ObjectCell}
    (found : heap.object? id = some content) : heap.objectAttributes id = content.attributes := by
  rw [objectAttributes, found]

end Heap

namespace Act

/-- The machine that an action leaves. -/
def leaves (action : Act α) (machine : Machine) : Machine :=
  match action machine with
  | .ok _ after => after
  | .error _ after => after

theorem leaves_bind_pure (action : Act α) (given : α → β) (machine : Machine) :
    (do return given (← action) : Act β).leaves machine = action.leaves machine := by
  simp only [leaves, bind, EStateM.bind]
  cases action machine <;> rfl

section Opening

variable (target : Value) (machine : Machine)

/-- What comes of reading an attribute.  One dict or method may be made, and the name for all
attributes gives nothing but a new dict. -/
inductive Reads (name : String) : EStateM.Result Stop Machine Value → Prop
  | refused (stop : Stop) : Reads name (.error stop machine)
  | copied (entries : Entries) : Reads name (.ok (.dict machine.heap.size)
      { machine with heap := (machine.heap.alloc (.dict entries)).2 })
  | found (notDict : name ≠ Attribute.dictName) (value : Value) : Reads name (.ok value machine)
  | bound (notDict : name ≠ Attribute.dictName) (receiver code : CellId) :
      Reads name (.ok (.method machine.heap.size receiver code)
        { machine with heap := (machine.heap.alloc (.method receiver code)).2 })

theorem reads_getObjectAttr (cell : CellId) (name : String) :
    Reads machine name (getObjectAttr cell name machine) := by
  simp only [getObjectAttr, heap_bind]
  cases machine.heap.object? cell with
  | none => exact .refused _
  | some content =>
      dsimp only
      split_ifs with isClass isDict
      · exact .found (by simp [isClass, Attribute.className, Attribute.dictName]) _
      · exact .copied _
      · cases content.attributes.find? name with
        | some value => exact .found isDict _
        | none =>
            cases machine.heap.findAttr content.classCell name with
            | none => exact .refused _
            | some value =>
                cases value with
                | function code => exact .bound isDict _ _
                | _ => exact .found isDict _

theorem reads_getClassAttr (cell : CellId) (name : String) :
    Reads machine name (getClassAttr cell name machine) := by
  simp only [getClassAttr, heap_bind]
  cases machine.heap.class? cell with
  | none => exact .refused _
  | some content =>
      dsimp only
      split_ifs with isName isSuperclass isDict isClass
      · exact .found (by simp [isName, Attribute.nameName, Attribute.dictName]) _
      · exact .found (by simp [isSuperclass, Attribute.superclassName, Attribute.dictName]) _
      · exact .copied _
      · exact .refused _
      · cases machine.heap.findAttr cell name with
        | some value => exact .found isDict _
        | none => exact .refused _

theorem reads_getAttr (name : String) : Reads machine name (getAttr target name machine) := by
  have named : name = Attribute.nameName → name ≠ Attribute.dictName := by
    rintro rfl
    decide
  cases target with
  | object cell => exact reads_getObjectAttr machine cell name
  | classObject cell => exact reads_getClassAttr machine cell name
  | function cell =>
      simp only [getAttr, heap_bind]
      split_ifs with isName
      · exact .found (named isName) _
      · exact .refused _
  | builtin builtin =>
      simp only [getAttr, heap_bind]
      split_ifs with isName
      · exact .found (named isName) _
      · exact .refused _
  | method cell receiver code =>
      simp only [getAttr, heap_bind]
      split_ifs with isName isSelf isFunction
      · exact .found (named isName) _
      · exact .found (by simp [isSelf, Attribute.selfName, Attribute.dictName]) _
      · exact .found (by simp [isFunction, Attribute.functionName, Attribute.dictName]) _
      · exact .refused _
  | _ => exact .refused _

theorem get?_of_getAttr_dictName {cell : CellId}
    (obtained : (getAttr target Attribute.dictName).result machine = .ok (.dict cell)) :
    ∃ entries,
      ((getAttr target Attribute.dictName).leaves machine).heap.get? cell =
        some (.dict entries) := by
  have reads := reads_getAttr target machine Attribute.dictName
  rw [result] at obtained
  rw [leaves]
  generalize getAttr target Attribute.dictName machine = outcome at reads obtained ⊢
  cases reads with
  | refused stop => cases obtained
  | copied entries =>
      cases obtained
      exact ⟨entries, by simp [Heap.get?_alloc]⟩
  | found notDict value => exact absurd rfl notDict
  | bound notDict receiver code => exact absurd rfl notDict

end Opening

end Act

/-- Every cell is what a deed makes of it, but for one dict or method that it may make. -/
def Deed.Affects (deed : Deed) (dicts : List CellId) (before after : Heap) : Prop :=
  ∀ id, after.get? id = (before.get? id).map (deed.onCell dicts id) ∨
    before.get? id = none ∧ ((∃ entries, after.get? id = some (.dict entries)) ∨
      ∃ receiver code, after.get? id = some (.method receiver code))

namespace Deed

section Affecting

variable {deed : Deed} {dicts : List CellId} {before : Heap}

theorem own_of_target?_ne {object : CellId} (elsewhere : deed.target? ≠ some object)
    (names : Names) : deed.own object names = names := by
  cases deed <;> simp_all [target?, own]

theorem entries_of_target?_eq_some {object : CellId} (targets : deed.target? = some object)
    (dict : CellId) (entries : Entries) : deed.entries dict entries = entries := by
  cases deed <;> first | rfl | cases targets

theorem entries_setItem_of_ne {dict id : CellId} (elsewhere : id ≠ dict) (key value : Value)
    (entries : Entries) : (setItem dict key value).entries id entries = entries := by
  cases keyed : Key.ofValue key <;> simp [Deed.entries, keyed, Ne.symm elsewhere]

theorem entries_deleteItem_of_ne {dict id : CellId} (elsewhere : id ≠ dict) (key : Value)
    (entries : Entries) : (deleteItem dict key).entries id entries = entries := by
  cases keyed : Key.ofValue key <;> simp [Deed.entries, keyed, Ne.symm elsewhere]

theorem onCell_eq_self {id : CellId} {cell : Cell}
    (kept : ∀ content, cell = .object content →
      deed.own id content.attributes = content.attributes)
    (untouched : ∀ entries, cell = .dict entries → id ∈ dicts →
      deed.entries id entries = entries) : deed.onCell dicts id cell = cell := by
  cases cell with
  | object content => rw [onCell, kept content rfl]
  | dict entries =>
      rw [onCell]
      split
      · rw [untouched entries rfl ‹_›]
      · rfl
  | _ => rfl

namespace Affects

theorem of_unchanged
    (same : ∀ id cell, before.get? id = some cell → deed.onCell dicts id cell = cell) :
    deed.Affects dicts before before := by
  refine fun id => .inl ?_
  cases found : before.get? id with
  | none => rfl
  | some cell => rw [Option.map_some, same id cell found]

theorem of_set {target : CellId} {old : Cell} (found : before.get? target = some old)
    (same : ∀ id cell, id ≠ target → deed.onCell dicts id cell = cell) :
    deed.Affects dicts before (before.set target (deed.onCell dicts target old)) := by
  refine fun id => .inl ?_
  rw [Heap.get?_set]
  by_cases here : id = target
  · subst here
    simp [Heap.contains, found]
  · rw [if_neg fun both => here both.1]
    cases before.get? id with
    | none => rfl
    | some cell => rw [Option.map_some, same id cell here]

theorem of_alloc {new : Cell} (unchanged : ∀ id cell, deed.onCell dicts id cell = cell)
    (incidental : (∃ entries, new = .dict entries) ∨ ∃ receiver code, new = .method receiver code) :
    deed.Affects dicts before (before.alloc new).2 := by
  intro id
  rw [Heap.get?_alloc]
  by_cases here : id = before.size
  · refine .inr ⟨here ▸ before.get?_size, ?_⟩
    simpa [here] using incidental
  · refine .inl ?_
    rw [if_neg here]
    cases before.get? id with
    | none => rfl
    | some cell => rw [Option.map_some, unchanged]

theorem of_kept {object : CellId} (targets : deed.target? = some object)
    (kept : ∀ content, before.object? object = some content →
      deed.own object content.attributes = content.attributes) :
    deed.Affects dicts before before := by
  refine of_unchanged fun id cell stored => onCell_eq_self ?_ ?_
  · rintro content rfl
    by_cases here : deed.target? = some id
    · obtain rfl : id = object := Option.some.inj (here.symm.trans targets)
      exact kept content (Heap.object?_eq_some_iff.mpr stored)
    · exact own_of_target?_ne here content.attributes
  · intro entries _ _
    exact entries_of_target?_eq_some targets id entries

theorem of_untouched (targets : deed.target? = none)
    (same : ∀ id ∈ dicts, ∀ entries, before.get? id = some (.dict entries) →
      deed.entries id entries = entries) : deed.Affects dicts before before := by
  refine of_unchanged fun id cell stored => onCell_eq_self ?_ ?_
  · intro content _
    exact own_of_target?_ne (by simp [targets]) content.attributes
  · rintro entries rfl member
    exact same id member entries stored

theorem of_object {object : CellId} {content : ObjectCell} {attributes : Names}
    (targets : deed.target? = some object) (found : before.object? object = some content)
    (becomes : deed.own object content.attributes = attributes) :
    deed.Affects dicts before (before.set object (.object { content with attributes })) := by
  have untargeted : ∀ id, id ≠ object → deed.target? ≠ some id := by
    intro id elsewhere same
    exact elsewhere (Option.some.inj (same.symm.trans targets))
  have affects : deed.Affects dicts before (before.set object (deed.onCell dicts object _)) :=
    of_set (Heap.object?_eq_some_iff.mp found) fun id cell elsewhere =>
      onCell_eq_self
        (fun content _ => own_of_target?_ne (untargeted id elsewhere) content.attributes)
        fun entries _ _ => entries_of_target?_eq_some targets id entries
  rwa [onCell, becomes] at affects

theorem of_dict {dict : CellId} {entries after : Entries} (member : dict ∈ dicts)
    (found : before.get? dict = some (.dict entries)) (becomes : deed.entries dict entries = after)
    (targets : deed.target? = none)
    (same : ∀ id, id ≠ dict → ∀ entries, deed.entries id entries = entries) :
    deed.Affects dicts before (before.set dict (.dict after)) := by
  have affects : deed.Affects dicts before (before.set dict (deed.onCell dicts dict _)) :=
    of_set found fun id cell elsewhere =>
      onCell_eq_self (fun content _ => own_of_target?_ne (by simp [targets]) content.attributes)
        fun entries _ _ => same id elsewhere entries
  rwa [onCell, if_pos member, becomes] at affects

end Affects

section Acting

variable (machine : Machine)

theorem affects_write (object : CellId) (name : Str) (value : Value) :
    (write object name value).Affects dicts machine.heap
      ((Act.setAttr (.object object) name value).leaves machine).heap := by
  rw [Act.leaves, Act.setAttr_eq, Heap.setAttr, Heap.refuseReserved]
  cases reserved : Attribute.isReserved name.text with
  | true => exact .of_kept rfl (by simp [own, reserved])
  | false =>
      cases found : machine.heap.object? object with
      | none => exact .of_kept rfl (by simp [found])
      | some content => exact .of_object rfl found (by simp [own, reserved])

theorem affects_delete (object : CellId) (name : String) :
    (delete object name).Affects dicts machine.heap
      ((Act.delAttr (.object object) name).leaves machine).heap := by
  rw [Act.leaves, Act.delAttr_eq, Heap.delAttr, Heap.refuseReserved]
  cases reserved : Attribute.isReserved name with
  | true => exact .of_kept rfl (by simp [own, reserved])
  | false =>
      cases found : machine.heap.object? object with
      | none => exact .of_kept rfl (by simp [found])
      | some content =>
          rw [Heap.objectAttributes_of_object? found]
          cases held : content.attributes.find? name with
          | none =>
              -- The deletion fails, and erasing a name that is not bound changes nothing either.
              refine .of_kept rfl ?_
              simp [found, own, reserved, Names.erase_of_find?_eq_none held]
          | some value => exact .of_object rfl found (by simp [own, reserved])

theorem affects_read (target : Value) (name : String) :
    (read target name).Affects dicts machine.heap
      ((Act.getAttr target name).leaves machine).heap := by
  have unchanged : ∀ id cell, (read target name).onCell dicts id cell = cell :=
    fun id cell => onCell_eq_self (fun _ _ => rfl) fun _ _ _ => rfl
  have reads := Act.reads_getAttr target machine name
  rw [Act.leaves]
  generalize Act.getAttr target name machine = outcome at reads ⊢
  cases reads with
  | refused stop => exact .of_unchanged fun id cell _ => unchanged id cell
  | copied entries => exact .of_alloc unchanged (.inl ⟨entries, rfl⟩)
  | found notDict value => exact .of_unchanged fun id cell _ => unchanged id cell
  | bound notDict receiver code => exact .of_alloc unchanged (.inr ⟨receiver, code, rfl⟩)

variable {machine} {dict : CellId} {entries : Entries} (member : dict ∈ dicts)
  (found : machine.heap.get? dict = some (.dict entries))

include member found

theorem affects_setItem (key value : Value) :
    (setItem dict key value).Affects dicts machine.heap
      ((Act.setItem (.dict dict) key value).leaves machine).heap := by
  have stored : machine.heap.dictEntries dict = entries := by rw [Heap.dictEntries, found]
  simp only [Act.leaves, Act.setItem, Act.heap_bind, stored]
  cases keyed : Key.ofValue key with
  | error error => exact .of_untouched rfl (by simp [Deed.entries, keyed])
  | ok admitted =>
      exact .of_dict member found (by simp [Deed.entries, keyed]) rfl fun id elsewhere =>
        entries_setItem_of_ne elsewhere key value

theorem affects_deleteItem (key : Value) :
    (deleteItem dict key).Affects dicts machine.heap
      ((Act.deleteItem (.dict dict) key).leaves machine).heap := by
  have stored : machine.heap.dictEntries dict = entries := by rw [Heap.dictEntries, found]
  simp only [Act.leaves, Act.deleteItem, Act.heap_bind, stored]
  cases keyed : Key.ofValue key with
  | error error => exact .of_untouched rfl (by simp [Deed.entries, keyed])
  | ok admitted =>
      simp only [Act.ofExcept, pure_bind]
      cases held : entries.find? admitted with
      | some value =>
          exact .of_dict member found (by simp [Deed.entries, keyed]) rfl fun id elsewhere =>
            entries_deleteItem_of_ne elsewhere key
      | none =>
          refine .of_untouched rfl fun id _ before kept => ?_
          by_cases here : id = dict
          · subst here
            rw [found] at kept
            cases kept
            simp [Deed.entries, keyed, Entries.erase_of_find?_eq_none held]
          · exact entries_deleteItem_of_ne here key before

end Acting

/-- One deed: the cells that there were become what the deed makes of them. -/
theorem affects_act (deed : Deed) {machine : Machine}
    (holds : ∀ dict ∈ dicts, ∃ entries, machine.heap.get? dict = some (.dict entries)) :
    deed.Affects dicts machine.heap ((deed.act dicts).leaves machine).heap := by
  cases deed with
  | write object name value =>
      rw [act, Act.leaves_bind_pure _ fun _ => Value.nothing]
      exact affects_write machine object name value
  | delete object name => exact affects_delete machine object name
  | setattr object name value =>
      -- The builtin functions do the same to the heap and only give something else.
      have affects := @affects_write dicts machine object name value
      rw [← Act.leaves_bind_pure _ fun _ => Value.nothing] at affects
      exact affects
  | delattr object name =>
      have affects := @affects_delete dicts machine object name.text
      rw [← Act.leaves_bind_pure _ fun _ => Value.nothing] at affects
      exact affects
  | read target name => exact affects_read machine target name
  | setItem dict key value =>
      rw [act]
      split
      · rename_i member
        obtain ⟨entries, found⟩ := holds dict member
        rw [Act.leaves_bind_pure _ fun _ => Value.nothing]
        exact affects_setItem member found key value
      · rename_i absent
        refine .of_untouched rfl fun id member entries _ => ?_
        have elsewhere : id ≠ dict := by
          rintro rfl
          exact absent member
        exact entries_setItem_of_ne elsewhere key value entries
  | deleteItem dict key =>
      rw [act]
      split
      · rename_i member
        obtain ⟨entries, found⟩ := holds dict member
        exact affects_deleteItem member found key
      · rename_i absent
        refine .of_untouched rfl fun id member entries _ => ?_
        have elsewhere : id ≠ dict := by
          rintro rfl
          exact absent member
        exact entries_deleteItem_of_ne elsewhere key entries

end Affecting

end Deed

/-- A machine, and the dicts that attributes were read into so far. -/
structure Dealings where
  machine : Machine
  dicts : List CellId

namespace Dealings

def after (dealings : Dealings) (deed : Deed) : Dealings where
  machine := (deed.act dealings.dicts).leaves dealings.machine
  dicts := deed.obtains ((deed.act dealings.dicts).result dealings.machine) ++ dealings.dicts

def run (dealings : Dealings) (deeds : List Deed) : Dealings :=
  deeds.foldl after dealings

/-- What was read is a dict. -/
def Holds (dealings : Dealings) : Prop :=
  ∀ dict ∈ dealings.dicts, ∃ entries, dealings.machine.heap.get? dict = some (.dict entries)

section Step

variable {dealings : Dealings} (holds : dealings.Holds) (deed : Deed)

include holds

theorem affects_after :
    deed.Affects dealings.dicts dealings.machine.heap (dealings.after deed).machine.heap :=
  deed.affects_act holds

theorem class?_after (id : CellId) :
    (dealings.after deed).machine.heap.class? id = dealings.machine.heap.class? id := by
  rw [Heap.class?, Heap.class?]
  obtain mapped | ⟨missing, ⟨entries, made⟩ | ⟨receiver, code, made⟩⟩ :=
    affects_after holds deed id
  · rw [mapped]
    rcases dealings.machine.heap.get? id with _ | cell
    · rfl
    · cases cell <;> rfl
  · rw [missing, made]
  · rw [missing, made]

theorem object?_after (id : CellId) :
    (dealings.after deed).machine.heap.object? id =
      (dealings.machine.heap.object? id).map fun content =>
        { content with attributes := deed.own id content.attributes } := by
  rw [Heap.object?, Heap.object?]
  obtain mapped | ⟨missing, ⟨entries, made⟩ | ⟨receiver, code, made⟩⟩ :=
    affects_after holds deed id
  · rw [mapped]
    rcases dealings.machine.heap.get? id with _ | cell
    · rfl
    · cases cell <;> rfl
  · rw [missing, made]
    rfl
  · rw [missing, made]
    rfl

theorem get?_after_of_mem {dict : CellId} (member : dict ∈ dealings.dicts) {entries : Entries}
    (found : dealings.machine.heap.get? dict = some (.dict entries)) :
    (dealings.after deed).machine.heap.get? dict = some (.dict (deed.entries dict entries)) := by
  obtain mapped | ⟨missing, -⟩ := affects_after holds deed dict
  · rw [mapped, found, Option.map_some, Deed.onCell, if_pos member]
  · rw [found] at missing
    cases missing

theorem holds_after : (dealings.after deed).Holds := by
  intro dict member
  rcases List.mem_append.mp member with obtained | earlier
  · obtain ⟨target, rfl, given⟩ := Deed.exists_of_mem_obtains obtained
    exact Act.get?_of_getAttr_dictName target dealings.machine given
  · obtain ⟨entries, found⟩ := holds dict earlier
    exact ⟨_, get?_after_of_mem holds deed earlier found⟩

end Step

section Run

variable {dealings : Dealings} (holds : dealings.Holds) (deeds : List Deed)

include holds

theorem holds_run : (dealings.run deeds).Holds := by
  induction deeds generalizing dealings with
  | nil => exact holds
  | cons deed rest ih => exact ih (holds_after holds deed)

theorem class?_run (id : CellId) :
    (dealings.run deeds).machine.heap.class? id = dealings.machine.heap.class? id := by
  induction deeds generalizing dealings with
  | nil => rfl
  | cons deed rest ih => exact (ih (holds_after holds deed)).trans (class?_after holds deed id)

/-- An object has what the deeds on it made of its attributes. -/
theorem object?_run (id : CellId) :
    (dealings.run deeds).machine.heap.object? id =
      (dealings.machine.heap.object? id).map fun content =>
        { content with attributes := deeds.foldl (Deed.own id) content.attributes } := by
  induction deeds generalizing dealings with
  | nil => simp [run]
  | cons deed rest ih =>
      have onward := ih (holds_after holds deed)
      rw [object?_after holds deed, Option.map_map] at onward
      exact onward

/-- A dict that was read has what the deeds on it made of its entries. -/
theorem get?_run_of_mem {dict : CellId} (member : dict ∈ dealings.dicts) {entries : Entries}
    (found : dealings.machine.heap.get? dict = some (.dict entries)) :
    (dealings.run deeds).machine.heap.get? dict =
      some (.dict (deeds.foldl (Deed.entries dict) entries)) := by
  induction deeds generalizing dealings entries with
  | nil => exact found
  | cons deed rest ih =>
      exact ih (holds_after holds deed) (List.mem_append_right _ member)
        (get?_after_of_mem holds deed member found)

end Run

end Dealings

namespace Deed

variable (object : CellId) {name : String}

theorem find?_own (free : Attribute.isReserved name = false) (names : Names) (deed : Deed) :
    (own object names deed).find? name = standing object name (names.find? name) deed := by
  cases deed <;> grind [own, standing, Names.find?_insert, Names.find?_erase]

theorem find?_own_of_isReserved (reserved : Attribute.isReserved name = true) (names : Names)
    (deed : Deed) : (own object names deed).find? name = names.find? name := by
  cases deed <;> grind [own, Names.find?_insert, Names.find?_erase]

theorem find?_foldl_own (free : Attribute.isReserved name = false) (names : Names)
    (deeds : List Deed) :
    (deeds.foldl (own object) names).find? name =
      deeds.foldl (standing object name) (names.find? name) := by
  symm
  apply List.foldl_hom (Names.find? · name)
  exact fun names deed => (find?_own object free names deed).symm

theorem find?_foldl_own_of_isReserved (reserved : Attribute.isReserved name = true)
    (names : Names) (deeds : List Deed) :
    (deeds.foldl (own object) names).find? name = names.find? name := by
  induction deeds generalizing names with
  | nil => rfl
  | cons deed rest ih =>
      exact (ih (own object names deed)).trans
        (find?_own_of_isReserved object reserved names deed)

theorem foldl_own_of_target?_ne {deeds : List Deed}
    (elsewhere : ∀ deed ∈ deeds, deed.target? ≠ some object) (names : Names) :
    deeds.foldl (own object) names = names := by
  induction deeds with
  | nil => rfl
  | cons deed rest ih =>
      obtain ⟨here, onward⟩ := List.forall_mem_cons.mp elsewhere
      rw [List.foldl_cons, own_of_target?_ne here, ih onward]

end Deed

namespace Act

theorem delAttr_fails_iff {machine : Machine} {object : CellId} {content : ObjectCell}
    (found : machine.heap.object? object = some content) {name : String}
    (unreserved : Attribute.isReserved name = true → content.attributes.find? name = none) :
    (∃ error, (delAttr (.object object) name).result machine = .error (.error error) ∧
        error.kind = .attributeError) ↔
      content.attributes.find? name = none := by
  rw [result, delAttr_eq, Heap.delAttr, Heap.refuseReserved,
    Heap.objectAttributes_of_object? found, found]
  cases reserved : Attribute.isReserved name with
  | true => exact iff_of_true ⟨_, rfl, rfl⟩ (unreserved reserved)
  | false =>
      cases held : content.attributes.find? name with
      | none => exact iff_of_true ⟨_, rfl, rfl⟩ rfl
      | some value =>
          refine iff_of_false ?_ (Option.some_ne_none value)
          rintro ⟨error, failed, -⟩
          cases failed

theorem getAttr_dictName {machine : Machine} {object : CellId} {content : ObjectCell}
    (found : machine.heap.object? object = some content) :
    getAttr (.object object) Attribute.dictName machine = .ok (.dict machine.heap.size)
      { machine with heap := (machine.heap.alloc (.dict content.attributes.snapshot)).2 } := by
  have notClass : Attribute.dictName ≠ Attribute.className := by decide
  rw [getAttr_object, getObjectAttr, heap_bind, found]
  simp only [if_neg notClass, if_true]
  rfl

end Act

namespace Dealings

section Isolation

variable {dealings : Dealings} (holds : dealings.Holds) {object : CellId} {content : ObjectCell}
  (found : dealings.machine.heap.object? object = some content) (deeds : List Deed)

include holds found

theorem object?_run_eq_some : (dealings.run deeds).machine.heap.object? object =
    some { content with attributes := deeds.foldl (Deed.own object) content.attributes } := by
  rw [object?_run holds, found, Option.map_some]

/-- A dict of attributes starts as a copy, and then follows the deeds on itself alone. -/
theorem get?_run_of_read :
    (dealings.run (.read (.object object) Attribute.dictName :: deeds)).machine.heap.get?
        dealings.machine.heap.size =
      some (.dict (deeds.foldl (Deed.entries dealings.machine.heap.size)
        content.attributes.snapshot)) := by
  have read := Act.getAttr_dictName found
  refine get?_run_of_mem (holds_after holds _) deeds ?_ ?_
  · simp [after, Deed.act, Act.result, read, Deed.obtains]
  · simp [after, Deed.act, Act.leaves, read, Heap.get?_alloc]

/-- Objects share nothing but their classes, and the dicts of their attributes share nothing with
them. -/
theorem instance_attributes_are_isolated {last : Dealings} (reached : dealings.run deeds = last) :
    (∀ id, last.machine.heap.class? id = dealings.machine.heap.class? id) ∧
    (∀ id, (∀ deed ∈ deeds, deed.target? ≠ some id) →
      last.machine.heap.object? id = dealings.machine.heap.object? id) ∧
    (∀ name, Attribute.isReserved name = false →
      (last.machine.heap.objectAttributes object).find? name =
        deeds.foldl (Deed.standing object name) (content.attributes.find? name) ∧
      (Act.getAttr (.object object) name).result last.machine =
        match (last.machine.heap.objectAttributes object).find? name with
        | some value => .ok value
        | none => match last.machine.heap.findAttr content.classCell name with
          | some value => .ok (value.boundTo last.machine.heap.size object)
          | none => .error (.error
              (.noAttribute (last.machine.heap.className content.classCell) name))) ∧
    (∀ name, (Attribute.isReserved name = true → content.attributes.find? name = none) →
      ((∃ error, (Act.delAttr (.object object) name).result last.machine =
          .error (.error error) ∧ error.kind = .attributeError) ↔
        (last.machine.heap.objectAttributes object).find? name = none)) ∧
    ∀ earlier later before dict,
      deeds = earlier ++ .read (.object object) Attribute.dictName :: later →
      dealings.run earlier = before → before.machine.heap.size = dict →
      before.machine.heap.get? dict = none ∧
        (Act.getAttr (.object object) Attribute.dictName).result before.machine =
          .ok (.dict dict) ∧
        last.machine.heap.get? dict =
          some (.dict (later.foldl (Deed.entries dict)
            (before.machine.heap.objectAttributes object).snapshot)) := by
  subst reached
  have foundLast := object?_run_eq_some holds found deeds
  rw [Heap.objectAttributes_of_object? foundLast]
  refine ⟨class?_run holds deeds, fun id elsewhere => ?_,
    fun name free => ⟨Deed.find?_foldl_own object free content.attributes deeds, ?_⟩,
    fun name unreserved => ?_, ?_⟩
  · rw [object?_run holds]
    simp [Deed.foldl_own_of_target?_ne id elsewhere]
  · obtain ⟨notClass, notDict, -, -⟩ := Attribute.computed_of_isReserved free
    exact (Act.result_getAttr_object foundLast notDict).trans (if_neg notClass)
  · -- A reserved name is refused, but it is not held either: no deed stores one.
    refine Act.delAttr_fails_iff foundLast fun reserved => ?_
    rw [Deed.find?_foldl_own_of_isReserved object reserved, unreserved reserved]
  · rintro earlier later before dict rfl rfl rfl
    have foundBefore := object?_run_eq_some holds found earlier
    rw [Heap.objectAttributes_of_object? foundBefore]
    refine ⟨Heap.get?_size _, ?_, ?_⟩
    · rw [Act.result, Act.getAttr_dictName foundBefore]
    · have read := get?_run_of_read (holds_run holds earlier) foundBefore later
      rwa [run, run, ← List.foldl_append] at read

end Isolation

/-- Two objects of a class with a method. -/
def siblings : Dealings where
  machine := { heap := ⟨#[
    some (.frame { scope := .global, captured := true }),
    some (.function
      { name := ⟨"f", 0⟩, params := [⟨"self", 1⟩], defaults := [], body := [], defining := 0 }),
    some (.classObject
      { name := ⟨"A", 2⟩, superclass := none, attributes := [(⟨"m", 3⟩, .function 1)] }),
    some (.object { classCell := 2, attributes := [] }),
    some (.object { classCell := 2, attributes := [] })]⟩ }
  dicts := []

/-- The function becomes an attribute of one object, and its copy in a dict is overwritten. -/
def overwriting : List Deed :=
  [.write 3 ⟨"m", 3⟩ (.function 1), .read (.object 3) Attribute.dictName,
    .setItem 5 (.string ⟨"m", 4⟩) .nothing]

/-- One object gives the function as it is, and the other its method. -/
theorem instance_attributes_are_isolated_in_siblings :
    siblings.Holds ∧
      siblings.machine.heap.object? 3 = some { classCell := 2, attributes := [] } ∧
      siblings.machine.heap.object? 4 = some { classCell := 2, attributes := [] } ∧
      (Act.getAttr (.object 3) "m").result (siblings.run overwriting).machine =
        .ok (.function 1) ∧
      (siblings.run overwriting).machine.heap.get? 5 =
        some (.dict [(Key.ofStr ⟨"m", 3⟩, .nothing)]) ∧
      (Act.getAttr (.object 4) "m").result (siblings.run overwriting).machine =
        .ok (.method 6 4 1) := by
  have holds : siblings.Holds := fun dict member => nomatch member
  have found : siblings.machine.heap.object? 3 = some { classCell := 2, attributes := [] } := rfl
  have foundOther : siblings.machine.heap.object? 4 =
    some { classCell := 2, attributes := [] } := rfl
  have free : Attribute.isReserved "m" = false := by decide
  obtain ⟨-, -, reads, -, copies⟩ :=
    instance_attributes_are_isolated holds found overwriting rfl
  obtain ⟨-, -, readsOther, -, -⟩ :=
    instance_attributes_are_isolated holds foundOther overwriting rfl
  obtain ⟨-, -, copied⟩ := copies [.write 3 ⟨"m", 3⟩ (.function 1)] _ _ 5 rfl rfl rfl
  exact ⟨holds, found, foundOther, (reads "m" free).2, copied, (readsOther "m" free).2⟩

end Dealings

end ScriptCore
