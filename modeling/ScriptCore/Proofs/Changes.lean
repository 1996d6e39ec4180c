import Mathlib.Logic.Relation
import ScriptCore.Proofs.InstanceAttributes
import ScriptCore.Proofs.ItemChanges
import ScriptCore.Proofs.Pooling
import ScriptCore.Script.Evaluation

/-!
# What can become of a machine

Whatever an action does, it does to the heap by a few changes, one after the other: cells are made,
replaced and freed, and the attributes of a class or object change under one name at a time, which
is not reserved.  A list never gets longer.  The pool only grows, and the builtins stay.
-/

namespace ScriptCore

open Relation

/-- The own attributes of a class or object. -/
def Cell.attributes? : Cell → Option Names
  | .classObject content => some content.attributes
  | .object content => some content.attributes
  | _ => none

namespace Names

/-- No reserved name is bound. -/
def Unreserved (names : Names) : Prop :=
  ∀ name, Attribute.isReserved name = true → names.find? name = none

/-- A change under one name that is not reserved. -/
inductive Edit (names : Names) : Names → Prop
  | bind (name : Str) (value : Value) (free : Attribute.isReserved name.text = false) :
      Edit names (names.insert name value)
  | remove (name : String) (free : Attribute.isReserved name = false) :
      Edit names (names.erase name)

end Names

namespace Heap

/-- New content for a cell: a frame, a dict, or a list that is no longer than the list before. -/
inductive Renewal (heap : Heap) (id : CellId) : Cell → Prop
  | frame (content : Frame) : Renewal heap id (.frame content)
  | dict (entries : Entries) : Renewal heap id (.dict entries)
  | list (items : List Value) (shorter : items.length ≤ (heap.listItems id).length) :
      Renewal heap id (.list items)

theorem Renewal.attributes?_eq_none {heap : Heap} {id : CellId} {cell : Cell}
    (renewal : heap.Renewal id cell) : cell.attributes? = none := by
  cases renewal <;> rfl

/-- One change of a heap. -/
inductive Change (heap : Heap) : Heap → Prop
  | make (cell : Cell) (unreserved : ∀ names, cell.attributes? = some names → names.Unreserved) :
      Change heap (heap.alloc cell).2
  | replace (id : CellId) (cell : Cell) (renewal : heap.Renewal id cell) :
      Change heap (heap.set id cell)
  | editClass (id : CellId) (content : ClassCell) (attributes : Names)
      (found : heap.class? id = some content) (edit : content.attributes.Edit attributes) :
      Change heap (heap.set id (.classObject { content with attributes }))
  | editObject (id : CellId) (content : ObjectCell) (attributes : Names)
      (found : heap.object? id = some content) (edit : content.attributes.Edit attributes) :
      Change heap (heap.set id (.object { content with attributes }))
  | free (id : CellId) : Change heap (heap.erase id)

/-- One heap comes from another by changes. -/
def Evolves (before after : Heap) : Prop :=
  ReflTransGen Change before after

namespace Evolves

variable {before middle after : Heap}

theorem refl (heap : Heap) : heap.Evolves heap :=
  ReflTransGen.refl

theorem trans (first : before.Evolves middle) (second : middle.Evolves after) :
    before.Evolves after :=
  ReflTransGen.trans first second

theorem single (change : before.Change after) : before.Evolves after :=
  ReflTransGen.single change

theorem captureUpTo (limit : Nat) (id : CellId) (heap : Heap) :
    heap.Evolves (heap.captureUpTo limit id) := by
  induction limit generalizing id heap with
  | zero => exact .refl heap
  | succ limit ih =>
      unfold Heap.captureUpTo
      split
      · rename_i frame found
        have marked : heap.Evolves (heap.set id (.frame { frame with captured := true })) :=
          .single (.replace id _ (.frame _))
        split
        · exact .refl heap
        · dsimp only
          split
          · exact marked.trans (ih _ _)
          · exact marked
      · exact .refl heap

end Evolves

end Heap

namespace Counted

theorem evolves_free (limit : Nat) (pending : List CellId) (counted : Counted) :
    counted.heap.Evolves (counted.free limit pending).heap := by
  induction limit generalizing pending counted with
  | zero => exact .refl _
  | succ limit ih =>
      unfold free
      split
      · exact .refl _
      · rename_i id rest _
        have onward := ih (counted.heap.referencesOf id ++ rest) (counted.erase id)
        exact (Heap.Evolves.single (.free id)).trans onward

theorem evolves_settle (counted : Counted) : counted.heap.Evolves counted.settle.heap :=
  evolves_free _ _ counted

theorem evolves_replace (counted : Counted) (id : CellId) {cell : Cell}
    (renewal : counted.heap.Renewal id cell) :
    counted.heap.Evolves (counted.replace id cell).heap := by
  have freed := evolves_free (counted.heap.set id cell).size (counted.heap.referencesOf id)
    { heap := counted.heap.set id cell
      census := (counted.census.addAll cell.references).removeAll (counted.heap.referencesOf id) }
  exact (Heap.Evolves.single (.replace id cell renewal)).trans freed

theorem evolves_drop (counted : Counted) (id : CellId) :
    counted.heap.Evolves (counted.drop id).heap :=
  evolves_free counted.heap.size [id] { counted with census := counted.census.remove id }

theorem evolves_clearFrame (counted : Counted) (id : CellId) :
    counted.heap.Evolves (counted.clearFrame id).heap := by
  unfold clearFrame
  split
  · exact evolves_replace counted id (.frame _)
  · exact .refl _

theorem evolves_clearFrames (ids : List CellId) (counted : Counted) :
    counted.heap.Evolves (clearFrames ids counted).2.heap := by
  induction ids generalizing counted with
  | nil => exact .refl _
  | cons id rest ih =>
      unfold clearFrames
      split
      · exact (evolves_clearFrame counted id).trans (ih _)
      · exact ih counted

theorem evolves_reclaimEach (ids : List CellId) (counted : Counted) :
    counted.heap.Evolves (reclaimEach ids counted).2.2.heap := by
  induction ids generalizing counted with
  | nil => exact .refl _
  | cons id rest ih =>
      unfold reclaimEach
      split
      · have reclaimed := evolves_clearFrames ((counted.hold id).doomedFrames id) (counted.hold id)
        exact (reclaimed.trans (evolves_drop _ id)).trans (ih _)
      · exact ih counted

end Counted

namespace Machine

/-- One machine comes from another: its heap by changes, and its pool by pooling texts.  The
builtins are the same. -/
structure Evolves (before after : Machine) : Prop where
  heap : before.heap.Evolves after.heap
  pool : before.interner.Extends before.supply after.interner after.supply
  builtins : after.builtins = before.builtins

namespace Evolves

variable {before middle after : Machine}

theorem refl (machine : Machine) : machine.Evolves machine :=
  ⟨.refl _, .refl _ _, rfl⟩

theorem trans (first : before.Evolves middle) (second : middle.Evolves after) :
    before.Evolves after :=
  ⟨first.heap.trans second.heap, first.pool.trans second.pool,
    second.builtins.trans first.builtins⟩

/-- A machine with another heap, and other things than the pool and the builtins. -/
theorem of_heap (heap : before.heap.Evolves after.heap)
    (same : (after.interner, after.supply, after.builtins) =
      (before.interner, before.supply, before.builtins)) : before.Evolves after := by
  simp only [Prod.mk.injEq] at same
  obtain ⟨interner, supply, builtins⟩ := same
  refine ⟨heap, ?_, builtins⟩
  rw [interner, supply]
  exact .refl _ _

end Evolves

theorem evolves_counted (machine : Machine) : machine.heap.Evolves machine.counted.heap :=
  Counted.evolves_settle { heap := machine.heap, census := machine.heap.census machine.roots }

theorem evolves_settle (machine : Machine) : machine.Evolves machine.settle :=
  .of_heap machine.evolves_counted rfl

theorem evolves_collect (machine : Machine) : machine.Evolves machine.collect.2 :=
  .of_heap (machine.evolves_counted.trans (Counted.evolves_reclaimEach _ _)) rfl

theorem evolves_push (retained : Retained) (frame : CellId) (counted : Counted) :
    counted.heap.Evolves (retained.push frame counted).2.heap := by
  unfold Retained.push
  dsimp only
  split
  · exact Counted.evolves_reclaimEach _ counted
  · exact .refl _

theorem evolves_release (frame : CellId) (machine : Machine) :
    machine.Evolves (machine.release frame) := by
  have reclaimed := machine.evolves_counted.trans
    (Counted.evolves_clearFrames (machine.counted.doomedFrames frame) machine.counted)
  unfold release
  split
  · dsimp only
    split
    · exact .of_heap machine.evolves_counted rfl
    · split
      · exact .of_heap (reclaimed.trans (evolves_push _ _ _)) rfl
      · exact .of_heap reclaimed rfl
  · exact .refl _

theorem evolves_setLocals (machine : Machine) (frame : CellId) (names : Names) :
    machine.Evolves (machine.setLocals frame names) := by
  unfold setLocals
  split
  · exact .of_heap (.refl _) rfl
  · exact .of_heap (.single (.replace _ _ (.frame _))) rfl
  · exact .refl _

end Machine

namespace Act

/-- However an action ends, it has brought about the machine that it leaves by changes. -/
def Evolves (action : Act α) : Prop :=
  ∀ machine : Machine, machine.Evolves (action.leaves machine)

section Composition

variable {α β : Type} {action : Act α} {next : α → Act β}

theorem evolves_pure (value : α) : Evolves (pure value) :=
  fun _ => .refl _

theorem evolves_throw (stop : Stop) : Evolves (throw stop : Act α) :=
  fun _ => .refl _

theorem evolves_ofExcept (outcome : Except Error α) : Evolves (ofExcept outcome) := by
  cases outcome with
  | ok value => exact evolves_pure value
  | error error => exact evolves_throw _

theorem evolves_resume (result : Except Stop α) : Evolves (resume result) := by
  cases result with
  | ok value => exact evolves_pure value
  | error stop => exact evolves_throw stop

theorem evolves_modify {change : Machine → Machine}
    (evolves : ∀ machine : Machine, machine.Evolves (change machine)) :
    Evolves (modify change : Act Unit) :=
  evolves

theorem evolves_get_bind {next : Machine → Act β} (rest : ∀ machine, Evolves (next machine)) :
    Evolves (get >>= next) :=
  fun machine => rest machine machine

theorem evolves_heap_bind {next : Heap → Act β} (rest : ∀ heap, Evolves (next heap)) :
    Evolves (heap >>= next) :=
  fun machine => rest machine.heap machine

theorem Evolves.bind (first : Evolves action) (second : ∀ value, Evolves (next value)) :
    Evolves (action >>= next) := by
  intro machine
  have before := first machine
  simp only [leaves, Bind.bind, EStateM.bind] at before ⊢
  cases ran : action machine with
  | ok value middle =>
      rw [ran] at before
      exact before.trans (second value middle)
  | error stop middle =>
      rw [ran] at before
      exact before

theorem Evolves.holding (evolves : Evolves action) (held : Hold) :
    Evolves (holding held action) := by
  intro machine
  have during := evolves { machine with held := held :: machine.held }
  simp only [leaves, Act.holding] at during ⊢
  cases ran : action { machine with held := held :: machine.held } with
  | ok value after =>
      rw [ran] at during
      exact ⟨during.heap, during.pool, during.builtins⟩
  | error stop after =>
      rw [ran] at during
      exact ⟨during.heap, during.pool, during.builtins⟩

theorem Evolves.handling {handler : Error → Act α} (evolves : Evolves action)
    (handles : ∀ error, Evolves (handler error)) : Evolves (handling action handler) := by
  intro machine
  have before := evolves machine
  simp only [leaves, Act.handling] at before ⊢
  cases ran : action machine with
  | ok value after =>
      rw [ran] at before
      exact before
  | error stop after =>
      rw [ran] at before
      cases stop with
      | error error => exact before.trans (handles error after)
      | exhausted => exact before
      | malformed reason => exact before
      | fault fault => exact before

theorem Evolves.outcome (evolves : Evolves action) : Evolves (outcome action) := by
  intro machine
  have before := evolves machine
  simp only [leaves, Act.outcome] at before ⊢
  cases ran : action machine with
  | ok value after =>
      rw [ran] at before
      exact before
  | error stop after =>
      rw [ran] at before
      exact before

end Composition

section Making

theorem evolves_alloc {cell : Cell} (plain : cell.attributes? = none) : Evolves (alloc cell) := by
  intro machine
  refine .of_heap (.single (.make cell fun names found => ?_)) rfl
  rw [plain] at found
  cases found

theorem evolves_intern (text : String) : Evolves (intern text) :=
  fun machine => ⟨.refl _, machine.interner.extends_intern machine.supply text, rfl⟩

theorem evolves_fresh : Evolves fresh :=
  fun machine => ⟨.refl _, machine.interner.extends_fresh machine.supply, rfl⟩

theorem evolves_newStr (text : String) : Evolves (newStr text) :=
  evolves_fresh.bind fun _ => evolves_pure _

theorem evolves_newString (text : String) : Evolves (newString text) :=
  (evolves_newStr text).bind fun _ => evolves_pure _

theorem evolves_print (text : String) : Evolves (print text) :=
  evolves_modify fun _ => .of_heap (.refl _) rfl

theorem evolves_newTuple (items : List Value) : Evolves (newTuple items) :=
  (evolves_alloc rfl).bind fun _ => evolves_pure _

theorem evolves_newList (items : List Value) : Evolves (newList items) :=
  (evolves_alloc rfl).bind fun _ => evolves_pure _

theorem evolves_newDict (pairs : List (Value × Value)) : Evolves (newDict pairs) :=
  (evolves_ofExcept _).bind fun _ => (evolves_alloc rfl).bind fun _ => evolves_pure _

theorem evolves_newSet (items : List Value) : Evolves (newSet items) :=
  (evolves_ofExcept _).bind fun _ => (evolves_alloc rfl).bind fun _ => evolves_pure _

theorem evolves_newMethod (receiver code : CellId) : Evolves (newMethod receiver code) :=
  (evolves_alloc rfl).bind fun _ => evolves_pure _

/-- A new object has no attributes. -/
theorem evolves_newObject (cls : CellId) : Evolves (newObject cls) := by
  intro machine
  refine .of_heap (.single (.make _ fun names found => ?_)) rfl
  cases found
  exact fun name reserved => rfl

theorem find?_eq_none_of_text_ne {names : Names} {name : String}
    (absent : ∀ binding ∈ names, binding.1.text ≠ name) : names.find? name = none := by
  induction names with
  | nil => rfl
  | cons binding rest ih =>
      obtain ⟨first, others⟩ := List.forall_mem_cons.mp absent
      simp [Names.find?, first, ih others]

/-- The attributes of a new class were looked through. -/
theorem evolves_newClass (name : Str) (superclass : Option CellId) (attributes : Names) :
    Evolves (newClass name superclass attributes) := by
  unfold newClass
  split
  · exact evolves_throw _
  · rename_i unreserved
    refine Evolves.bind ?_ fun _ => evolves_pure _
    intro machine
    refine .of_heap (.single (.make _ fun names found => ?_)) rfl
    cases found
    intro asked reserved
    refine find?_eq_none_of_text_ne fun binding member same => ?_
    have free := List.find?_eq_none.mp unreserved binding.1.text (List.mem_map_of_mem member)
    rw [same] at free
    exact free reserved

theorem evolves_newFunction (defining : CellId) (name : Str) (params : List Str)
    (defaults : List Expr) (body : Block) :
    Evolves (newFunction defining name params defaults body) := by
  unfold newFunction
  split
  · exact evolves_throw _
  · refine Evolves.bind (evolves_modify fun machine => ?_) fun _ => ?_
    · exact .of_heap (Heap.Evolves.captureUpTo _ _ _) rfl
    · exact (evolves_alloc rfl).bind fun _ => evolves_pure _

theorem evolves_internAll (names : List String) : Evolves (internAll names) := by
  induction names with
  | nil => exact evolves_pure _
  | cons name rest ih => exact (evolves_intern name).bind fun _ => ih.bind fun _ => evolves_pure _

theorem evolves_copies (strings : List Str) : Evolves (copies strings) := by
  induction strings with
  | nil => exact evolves_pure _
  | cons string rest ih =>
      refine (evolves_newStr _).bind fun _ => ?_
      exact ih.bind fun _ => evolves_pure _

theorem evolves_newBoundNames (names : Names) : Evolves (newBoundNames names) :=
  (evolves_copies _).bind fun _ => evolves_newList _

mutual

theorem evolves_convert : ∀ datum : Datum, Evolves (convert datum)
  | .null => evolves_pure _
  | .bool _ => evolves_pure _
  | .int _ => evolves_pure _
  | .float _ => evolves_pure _
  | .text value => (evolves_intern value).bind fun _ => evolves_pure _
  | .seq items => (evolves_convertAll items).bind evolves_newList
  | .tuple items => (evolves_convertAll items).bind evolves_newTuple
  | .map entries => (evolves_convertEntries entries).bind evolves_newDict
  | .set items => (evolves_convertAll items).bind evolves_newSet
  | .foreign _ => evolves_throw _

theorem evolves_convertAll : ∀ data : List Datum, Evolves (convertAll data)
  | [] => evolves_pure _
  | datum :: rest =>
      (evolves_convert datum).bind fun _ => (evolves_convertAll rest).bind fun _ => evolves_pure _

theorem evolves_convertEntries : ∀ entries : List (Datum × Datum), Evolves (convertEntries entries)
  | [] => evolves_pure _
  | entry :: rest =>
      (evolves_convertEntry entry).bind fun _ =>
        (evolves_convertEntries rest).bind fun _ => evolves_pure _

theorem evolves_convertEntry : ∀ entry : Datum × Datum, Evolves (convertEntry entry)
  | (key, value) =>
      (evolves_convert key).bind fun _ => (evolves_convert value).bind fun _ => evolves_pure _

end

end Making

section Attributes

/-- A reserved name is refused before anything is written. -/
theorem free_of_refuseReserved {α : Type} {name owner : String} {next : Unit → Except Error α}
    {result : α} (ran : (Heap.refuseReserved name owner >>= next) = .ok result) :
    Attribute.isReserved name = false ∧ next () = .ok result := by
  unfold Heap.refuseReserved at ran
  split at ran
  · cases ran
  · rename_i free
    exact ⟨Bool.eq_false_iff.mpr free, ran⟩

theorem evolves_getAttr (target : Value) (name : String) : Evolves (getAttr target name) := by
  intro machine
  have reads := reads_getAttr target machine name
  unfold leaves
  generalize getAttr target name machine = outcome at reads
  cases reads with
  | refused stop => exact .refl _
  | copied entries => exact @evolves_alloc (.dict entries) rfl machine
  | found notDict value => exact .refl _
  | bound notDict receiver code => exact @evolves_alloc (.method receiver code) rfl machine

theorem evolves_heap_setAttr {heap after : Heap} {target : Value} {name : Str} {value : Value}
    (written : heap.setAttr target name value = .ok after) : heap.Evolves after := by
  cases target with
  | object cell =>
      obtain ⟨free, written⟩ := free_of_refuseReserved written
      cases found : heap.object? cell with
      | none =>
          rw [found] at written
          cases written
          exact .refl heap
      | some content =>
          rw [found] at written
          cases written
          exact .single (.editObject cell content _ found (.bind name value free))
  | classObject cell =>
      obtain ⟨free, written⟩ := free_of_refuseReserved written
      cases found : heap.class? cell with
      | none =>
          rw [found] at written
          cases written
          exact .refl heap
      | some content =>
          rw [found] at written
          cases written
          exact .single (.editClass cell content _ found (.bind name value free))
  | _ => cases written

theorem evolves_heap_delAttr {heap after : Heap} {target given : Value} {name : String}
    (removed : heap.delAttr target name = .ok (given, after)) : heap.Evolves after := by
  cases target with
  | object cell =>
      obtain ⟨free, removed⟩ := free_of_refuseReserved removed
      split at removed
      · rename_i content value found bound
        cases removed
        exact .single (.editObject cell content _ found (.remove name free))
      · cases removed
  | classObject cell =>
      obtain ⟨free, removed⟩ := free_of_refuseReserved removed
      split at removed
      · rename_i content value found bound
        cases removed
        exact .single (.editClass cell content _ found (.remove name free))
      · cases removed
  | _ => cases removed

theorem evolves_setAttr (target : Value) (name : Str) (value : Value) :
    Evolves (setAttr target name value) := by
  intro machine
  rw [leaves, setAttr_eq]
  cases written : machine.heap.setAttr target name value with
  | ok after => exact .of_heap (evolves_heap_setAttr written) rfl
  | error error => exact .refl _

theorem evolves_delAttr (target : Value) (name : String) : Evolves (delAttr target name) := by
  intro machine
  rw [leaves, delAttr_eq]
  cases removed : machine.heap.delAttr target name with
  | ok result => exact .of_heap (evolves_heap_delAttr removed) rfl
  | error error => exact .refl _

end Attributes

section Items

theorem evolves_pick {α : Type} (items : List α) (missing : Stop) {single : α → Act Value}
    {build : List α → Act Value} (singles : ∀ item, Evolves (single item))
    (builds : ∀ items, Evolves (build items)) (index : Index) :
    Evolves (pick items missing single build index) := by
  unfold pick
  split
  · refine (evolves_resume _).bind fun place => ?_
    split
    · exact singles _
    · exact evolves_throw _
  · exact (evolves_resume _).bind builds

theorem evolves_getItem (container index : Value) : Evolves (getItem container index) := by
  refine evolves_heap_bind fun heap => ?_
  split
  · exact (evolves_ofExcept _).bind fun _ => evolves_pure _
  · exact (evolves_ofExcept _).bind fun _ =>
      evolves_pick _ _ (fun _ => evolves_newString _) (fun _ => evolves_newString _) _
  · exact (evolves_ofExcept _).bind fun _ => evolves_pick _ _ evolves_pure evolves_newTuple _
  · exact (evolves_ofExcept _).bind fun _ => evolves_pick _ _ evolves_pure evolves_newList _
  · exact evolves_throw _

theorem evolves_setItem (container index value : Value) :
    Evolves (setItem container index value) := by
  intro machine
  have assigns := assigns_setItem machine container index value
  unfold leaves
  generalize setItem container index value machine = outcome at assigns
  cases assigns with
  | refused stop => exact .refl _
  | entry cell key isDict keyed => exact .of_heap (.single (.replace cell _ (.dict _))) rfl
  | item cell place isList =>
      exact .of_heap (.single (.replace cell _ (.list _ (Nat.le_of_eq List.length_set)))) rfl

theorem evolves_deleteItem (container index : Value) : Evolves (deleteItem container index) := by
  intro machine
  have deletes := deletes_deleteItem machine container index
  unfold leaves
  generalize deleteItem container index machine = outcome at deletes
  cases deletes with
  | refused stop => exact .refl _
  | entry cell key value isDict keyed found =>
      exact .of_heap (.single (.replace cell _ (.dict _))) rfl
  | item cell place item isList found =>
      exact .of_heap (.single (.replace cell _ (.list _ (List.length_eraseIdx_le _ _)))) rfl
  | range cell slice rest isList removed =>
      have shorter := (Slice.sublist_of_remove removed).length_le
      exact .of_heap (.single (.replace cell _ (.list _ shorter))) rfl

theorem evolves_next (pass : Pass) : Evolves pass.next := by
  unfold Pass.next
  split
  · exact evolves_heap_bind fun _ => evolves_pure _
  · exact evolves_heap_bind fun _ => evolves_pure _
  · exact evolves_pure _
  · exact (evolves_newTuple _).bind fun _ => evolves_pure _

theorem evolves_drain (limit : Nat) (pass : Pass) : Evolves (pass.drain limit) := by
  induction limit generalizing pass with
  | zero => exact evolves_pure _
  | succ limit ih =>
      refine (evolves_next pass).bind fun taken => ?_
      cases taken with
      | none => exact evolves_pure _
      | some pair => exact (ih pair.2).bind fun _ => evolves_pure _

theorem evolves_elements (value : Value) : Evolves (elements value) :=
  evolves_heap_bind fun _ => (evolves_ofExcept _).bind fun _ => evolves_drain _ _

end Items

section Builtins

theorem evolves_elementsOf (function : Standard) (arguments : List Value) :
    Evolves (elementsOf function arguments) := by
  unfold elementsOf
  split
  · exact evolves_pure _
  · exact evolves_elements _
  · exact evolves_throw _

theorem evolves_attributeName (function : Standard) (name : Value) :
    Evolves (attributeName function name) := by
  unfold attributeName
  split
  · exact evolves_pure _
  · exact evolves_heap_bind fun _ => evolves_throw _

theorem evolves_getAttrOr (target : Value) (name : String) (default : Value) :
    Evolves (getAttrOr target name default) := by
  refine (evolves_getAttr target name).handling fun error => ?_
  split
  · exact evolves_pure _
  · exact evolves_throw _

theorem evolves_hasAttr (target : Value) (name : String) : Evolves (hasAttr target name) := by
  refine Evolves.handling ((evolves_getAttr target name).bind fun _ => evolves_pure _)
    fun error => ?_
  split
  · exact evolves_pure _
  · exact evolves_throw _

theorem evolves_textOf (value : Value) : Evolves (textOf value) := by
  cases value with
  | string text => exact evolves_pure _
  | _ => exact evolves_heap_bind fun _ => evolves_newString _

theorem evolves_makeText (function : Standard) (arguments : List Value) :
    Evolves (makeText function arguments) := by
  unfold makeText
  split
  · exact evolves_newString _
  · exact evolves_textOf _
  · exact evolves_throw _

theorem evolves_testInstance (value cls : Value) : Evolves (testInstance value cls) := by
  cases cls with
  | classObject cell => exact evolves_heap_bind fun _ => evolves_pure _
  | _ => exact evolves_throw _

theorem evolves_readAttr (function : Standard) (arguments : List Value) :
    Evolves (readAttr function arguments) := by
  unfold readAttr
  split
  · exact (evolves_attributeName _ _).bind fun _ => evolves_getAttrOr _ _ _
  · exact exactlyTwo_cases (fun _ => evolves_throw _) fun _ _ _ =>
      (evolves_attributeName _ _).bind fun _ => evolves_getAttr _ _

theorem evolves_runStandard (function : Standard) (arguments : List Value) :
    Evolves (runStandard function arguments) := by
  have refused (error : Error) : Evolves (fail error : Act Value) := evolves_throw _
  cases function with
  | len =>
      exact exactlyOne_cases refused fun _ _ =>
        evolves_heap_bind fun _ => (evolves_ofExcept _).bind fun _ => evolves_pure _
  | print => exact evolves_heap_bind fun _ => (evolves_print _).bind fun _ => evolves_pure _
  | repr =>
      exact exactlyOne_cases refused fun _ _ => evolves_heap_bind fun _ => evolves_newString _
  | str => exact evolves_makeText _ _
  | list => exact (evolves_elementsOf _ _).bind evolves_newList
  | tuple => exact (evolves_elementsOf _ _).bind evolves_newTuple
  | set => exact (evolves_elementsOf _ _).bind evolves_newSet
  | isinstance => exact exactlyTwo_cases refused fun _ _ _ => evolves_testInstance _ _
  | getattr => exact evolves_readAttr _ _
  | setattr =>
      exact exactlyThree_cases refused fun _ _ _ _ => (evolves_attributeName _ _).bind fun _ =>
        (evolves_setAttr _ _ _).bind fun _ => evolves_pure _
  | hasattr =>
      exact exactlyTwo_cases refused fun _ _ _ => (evolves_attributeName _ _).bind fun _ =>
        (evolves_hasAttr _ _).bind fun _ => evolves_pure _
  | delattr =>
      exact exactlyTwo_cases refused fun _ _ _ => (evolves_attributeName _ _).bind fun _ =>
        (evolves_delAttr _ _).bind fun _ => evolves_pure _
  | delitem => exact exactlyTwo_cases refused fun _ _ _ => evolves_deleteItem _ _

end Builtins

end Act

end ScriptCore
