import Mathlib.Data.Option.Basic
import ScriptCore.Proofs.Calls
import ScriptCore.Proofs.ItemChanges
import ScriptCore.Script.Operation

/-!
# Values read and made

What is read from known cells can be passed on, and new cells are made of values that can be.
-/

namespace ScriptCore

open Relation

/-- What comes out of a list is what came of its items. -/
theorem exists_of_mem_mapM {ε α β : Type} {convert : α → Except ε β} {items : List α}
    {results : List β} (ran : items.mapM convert = .ok results) {result : β}
    (member : result ∈ results) : ∃ item ∈ items, convert item = .ok result := by
  induction items generalizing results with
  | nil =>
      cases ran
      simp at member
  | cons item rest ih =>
      rw [List.mapM_cons] at ran
      cases first : convert item with
      | error error =>
          rw [first] at ran
          cases ran
      | ok head =>
          cases others : rest.mapM convert with
          | error error =>
              rw [first, others] at ran
              cases ran
          | ok tail =>
              rw [first, others] at ran
              cases ran
              rcases List.mem_cons.mp member with rfl | later
              · exact ⟨item, List.mem_cons_self, first⟩
              · obtain ⟨other, listed, converted⟩ := ih others later
                exact ⟨other, List.mem_cons_of_mem item listed, converted⟩

namespace Heap

theorem captured_capture {heap : Heap} {id : CellId} (isFrame : (heap.frame? id).isSome = true) :
    (heap.capture id).Captured id := by
  obtain ⟨content, found⟩ := Option.isSome_iff_exists.mp isFrame
  have stored := frame?_eq_some_iff.mp found
  have marked : ∃ content, (heap.capture id).get? id = some (.frame content) ∧
      content.captured = true := by
    rw [capture, captureUpTo, found]
    cases already : content.captured with
    | true => exact ⟨content, by simpa [already] using stored, already⟩
    | false =>
        have now : (heap.set id (.frame { content with captured := true })).get? id =
            some (.frame { content with captured := true }) := by
          simp [get?_set, contains, stored]
        cases link : content.parent? with
        | none => exact ⟨_, by simpa [already, link] using now, rfl⟩
        | some parent =>
            simp only [already, link, Bool.false_eq_true, if_false]
            rcases get?_captureUpTo heap.size
              (heap.set id (.frame { content with captured := true })) parent id with
              same | ⟨further, was, after, -⟩
            · exact ⟨_, same.trans now, rfl⟩
            · exact ⟨_, after, rfl⟩
  obtain ⟨content, now, captured⟩ := marked
  exact ⟨content, frame?_eq_some_iff.mpr now, captured⟩

end Heap

namespace Activity

section Reading

variable {activity : Activity} {value : Value}

theorem Owns.knows (owns : activity.Owns value) {id : CellId} (named : value.cell? = some id) :
    activity.Knows id :=
  owns.known id (by simp [Value.references, named])

theorem Admits.of_plain {cell : Cell} (plain : cell.isPlain = true)
    (offered : ∀ id ∈ cell.references, activity.Offers id) : activity.Admits cell := by
  cases cell with
  | frame content => simp [Cell.isPlain] at plain
  | function content => simp [Cell.isPlain] at plain
  | _ => exact offered

/-- What is met when a known number is followed is known, if each link leads to what is. -/
theorem knows_of_mem_follow {next : CellId → Option CellId}
    (linked : ∀ {id further}, activity.Knows id → next id = some further →
      activity.Knows further) {limit : Nat} {id other : CellId} (known : activity.Knows id)
    (member : other ∈ Heap.follow next limit id) : activity.Knows other := by
  induction limit generalizing id with
  | zero => simp [Heap.follow] at member
  | succ limit ih =>
      rw [Heap.follow] at member
      rcases List.mem_cons.mp member with rfl | later
      · exact known
      · cases link : next id with
        | none => simp [link] at later
        | some further =>
            rw [link] at later
            exact ih (linked known link) later

variable (proper : activity.Proper)

include proper

theorem owns_tupleItems {id : CellId} (known : activity.Knows id)
    (member : value ∈ activity.machine.heap.tupleItems id) : activity.Owns value := by
  unfold Heap.tupleItems at member
  split at member
  · rename_i items found
    exact proper.owns_of_mem_values found known member
  · simp at member

theorem owns_listItems {id : CellId} (known : activity.Knows id)
    (member : value ∈ activity.machine.heap.listItems id) : activity.Owns value := by
  unfold Heap.listItems at member
  split at member
  · rename_i items found
    exact proper.owns_of_mem_values found known member
  · simp at member

theorem owns_dictEntries {id : CellId} (known : activity.Knows id)
    (member : value ∈ Entries.values (activity.machine.heap.dictEntries id)) :
    activity.Owns value := by
  unfold Heap.dictEntries at member
  split at member
  · rename_i entries found
    exact proper.owns_of_mem_values found known member
  · simp [Entries.values] at member

theorem owns_class {id : CellId} {content : ClassCell} (known : activity.Knows id)
    (found : activity.machine.heap.class? id = some content)
    (member : value ∈ (Cell.classObject content).values) : activity.Owns value := by
  unfold Heap.class? at found
  split at found
  · cases found
    exact proper.owns_of_mem_values ‹_› known member
  · cases found

theorem owns_object {id : CellId} {content : ObjectCell} (known : activity.Knows id)
    (found : activity.machine.heap.object? id = some content)
    (member : value ∈ (Cell.object content).values) : activity.Owns value := by
  unfold Heap.object? at found
  split at found
  · cases found
    exact proper.owns_of_mem_values ‹_› known member
  · cases found

theorem owns_method {cell receiver code : CellId}
    (owns : activity.Owns (.method cell receiver code)) :
    activity.Owns (.object receiver) ∧ activity.Owns (.function code) := by
  obtain ⟨content, found, fits⟩ := owns.fits cell rfl
  have binds : content = .method receiver code := by
    cases content with
    | method boundReceiver boundCode => rw [fits.1, fits.2]
    | _ => exact fits.elim
  subst binds
  exact ⟨proper.owns_of_mem_values found (owns.knows rfl) (by simp [Cell.values]),
    proper.owns_of_mem_values found (owns.knows rfl) (by simp [Cell.values])⟩

theorem owns_findAttr {id : CellId} {name : String} (known : activity.Knows id)
    (found : activity.machine.heap.findAttr id name = some value) : activity.Owns value := by
  obtain ⟨ancestor, member, bound⟩ := List.exists_of_findSome?_eq_some found
  have knownAncestor : activity.Knows ancestor := by
    refine knows_of_mem_follow (fun {id further} knownId link => ?_) known member
    obtain ⟨content, foundClass, superclass⟩ := Option.bind_eq_some_iff.mp link
    have owns : activity.Owns (.classObject further) :=
      owns_class proper knownId foundClass (by simp [Cell.values, superclass])
    exact owns.knows rfl
  unfold Heap.classAttributes at bound
  split at bound
  · refine owns_class proper knownAncestor ‹_› ?_
    exact List.mem_append_right _ (Names.mem_values_of_find? bound)
  · simp [Names.find?] at bound

theorem owns_localsOf {frame : CellId} (known : activity.Knows frame)
    (member : value ∈ Names.values (activity.machine.localsOf frame)) : activity.Owns value := by
  unfold Machine.localsOf at member
  split at member
  · exact proper.owns_global member
  · rename_i parent bindings captured found
    exact proper.owns_of_mem_values (Heap.frame?_eq_some_iff.mp found) known member
  · simp [Names.values] at member

theorem owns_lookup {frame : CellId} {name : String} (known : activity.Knows frame)
    (found : activity.machine.lookup frame name = .ok value) : activity.Owns value := by
  unfold Machine.lookup at found
  dsimp only at found
  split at found
  · rename_i result inScope
    cases found
    rcases (Option.orElse_eq_some _ _ _).mp inScope with inChain | ⟨-, global⟩
    · obtain ⟨scope, member, bound⟩ := List.exists_of_findSome?_eq_some inChain
      refine owns_localsOf proper (knows_of_mem_follow (fun {id further} knownId link => ?_)
        known member) (Names.mem_values_of_find? bound)
      exact knownId.tail (Heap.refers_parent link)
    · exact proper.owns_global (Names.mem_values_of_find? global)
  · split at found
    · cases found
      exact .of_cell?_eq_none rfl
    · cases found

end Reading

end Activity

namespace Act

section Values

variable {α : Type} {near : CellId → Prop} {quiet : Bool} {before : Activity}

theorem Conducts.heap {next : Heap → Act α} {gives : Activity → α → Prop}
    (rest : Conducts near quiet (next before.machine.heap) gives before) :
    Conducts near quiet (heap >>= next) gives before :=
  rest

theorem Conducts.get {next : Machine → Act α} {gives : Activity → α → Prop}
    (rest : Conducts near quiet (next before.machine) gives before) :
    Conducts near quiet (get >>= next) gives before :=
  rest

variable (proper : before.Proper)

include proper

theorem Conducts.ofExcept_bind {β : Type} {outcome : Except Error β} {next : β → Act α}
    {gives : Activity → α → Prop}
    (rest : ∀ value, outcome = .ok value → Conducts near quiet (next value) gives before) :
    Conducts near quiet (Act.ofExcept outcome >>= next) gives before := by
  cases outcome with
  | ok value => exact rest value rfl
  | error error => exact .fail proper

theorem Conducts.resume_bind {β : Type} {outcome : Except Stop β} {next : β → Act α}
    {gives : Activity → α → Prop}
    (rest : ∀ value, outcome = .ok value → Conducts near quiet (next value) gives before) :
    Conducts near quiet (Act.resume outcome >>= next) gives before := by
  cases outcome with
  | ok value => exact rest value rfl
  | error stop => exact .throw proper

/-- An action whose result is turned into a value that names no cell. -/
theorem Conducts.andPlain {action : Act α} {give : α → Value}
    (first : Conducts near quiet action (fun _ _ => True) before)
    (plain : ∀ result, (give result).cell? = none) :
    Conducts near quiet (action >>= fun result => Pure.pure (give result)) Activity.Owns
      before := by
  apply first.bind proper
  intro machine after result _ properAfter _
  exact .pure properAfter (.of_cell?_eq_none (plain result))

/-- An action that touches neither the heap nor what is held from outside it. -/
theorem conducts_aside {action : Act α} {gives : Activity → α → Prop} {value : α}
    {machine : Machine} (ran : action before.machine = .ok value machine)
    (heap : machine.heap = before.machine.heap)
    (retained : machine.retained = before.machine.retained)
    (held : machine.held = before.machine.held)
    (globals : machine.globals = before.machine.globals)
    (handles : machine.handles = before.machine.handles)
    (given : ∀ after, gives after value) : Conducts near quiet action gives before := by
  rw [Conducts, ran]
  refine ⟨_, Activity.becomes_move proper heap retained held ?_ ?_ ?_, given _⟩
  · rw [globals]
    exact fun value => proper.owns_global
  · rw [handles]
    exact fun handle => proper.hosts_handle
  · rw [handles]
    exact fun handle => Or.inr

theorem conducts_intern (text : String) :
    Conducts near quiet (intern text) (fun _ _ => True) before :=
  conducts_aside proper rfl rfl rfl rfl rfl rfl fun _ => trivial

theorem conducts_fresh : Conducts near quiet fresh (fun _ _ => True) before :=
  conducts_aside proper rfl rfl rfl rfl rfl rfl fun _ => trivial

theorem conducts_newString (text : String) :
    Conducts near quiet (newString text) Activity.Owns before :=
  conducts_aside proper rfl rfl rfl rfl rfl rfl fun _ => .of_cell?_eq_none rfl

theorem conducts_print (text : String) :
    Conducts near quiet (print text) (fun _ _ => True) before :=
  conducts_aside proper rfl rfl rfl rfl rfl rfl fun _ => trivial

theorem conducts_internAll (names : List String) :
    Conducts near quiet (internAll names) (fun _ _ => True) before := by
  induction names generalizing before with
  | nil => exact .pure proper trivial
  | cons name rest ih =>
      apply (conducts_intern proper name).bind proper
      intro machine middle string becomes properMiddle _
      apply (ih properMiddle).bind properMiddle
      intro machine after strings _ properAfter _
      exact .pure properAfter trivial

theorem conducts_copies (strings : List Str) :
    Conducts near quiet (copies strings) (fun _ _ => True) before := by
  induction strings generalizing before with
  | nil => exact .pure proper trivial
  | cons string rest ih =>
      have copied : Conducts near quiet (newStr string.text) (fun _ _ => True) before :=
        conducts_aside proper rfl rfl rfl rfl rfl rfl fun _ => trivial
      apply copied.bind proper
      intro machine middle copy _ properMiddle _
      apply (ih properMiddle).bind properMiddle
      intro machine after strings _ properAfter _
      exact .pure properAfter trivial

/-- A new cell can be passed on by a value of its kind. -/
theorem conducts_alloc (cell : Cell) (wrap : CellId → Value) (plain : cell.isPlain = true)
    (owned : ∀ value ∈ cell.values, before.Owns value) (named : ∀ id, (wrap id).cell? = some id)
    (fits : ∀ id, (wrap id).Fits cell) :
    Conducts near quiet (alloc cell) (fun after id => after.Owns (wrap id)) before := by
  have admitted : before.grasp.Admits cell := by
    refine .of_plain plain fun id reference => ?_
    obtain ⟨value, member, inside⟩ := Cell.exists_mem_values plain reference
    exact ((owned value member).grasp proper.sound).offers inside
  have unlinked : ∀ target, cell.link? ≠ some target := by
    simp [Cell.link?_eq_none_of_isPlain plain]
  refine ⟨_, Activity.becomes_make proper admitted (fun value member => (owned value member).fits)
    fun target link => absurd link (unlinked target), fun id name => ⟨cell, ?_, fits _⟩,
    fun id reference => .of_mem ?_⟩
  · rw [Option.mem_def, named, Option.some.injEq] at name
    exact (Heap.get?_alloc _ _ _).trans (if_pos name.symm)
  · rw [Value.references, named, Option.toList_some, List.mem_singleton] at reference
    apply List.mem_append_right
    exact List.mem_cons.mpr (Or.inl reference)

theorem conducts_new (cell : Cell) (wrap : CellId → Value) (plain : cell.isPlain = true)
    (owned : ∀ value ∈ cell.values, before.Owns value) (named : ∀ id, (wrap id).cell? = some id)
    (fits : ∀ id, (wrap id).Fits cell) :
    Conducts near quiet (do return wrap (← alloc cell)) Activity.Owns before := by
  apply (conducts_alloc proper cell wrap plain owned named fits).bind proper
  intro machine after id _ properAfter owns
  exact .pure properAfter owns

theorem conducts_newTuple {items : List Value} (owned : ∀ item ∈ items, before.Owns item) :
    Conducts near quiet (newTuple items) Activity.Owns before :=
  conducts_new proper (.tuple items) .tuple rfl owned (fun _ => rfl) fun _ => trivial

theorem conducts_newList {items : List Value} (owned : ∀ item ∈ items, before.Owns item) :
    Conducts near quiet (newList items) Activity.Owns before :=
  conducts_new proper (.list items) .list rfl owned (fun _ => rfl) fun _ => trivial

theorem conducts_newNameList (names : List Str) :
    Conducts near quiet (newNameList names) Activity.Owns before := by
  refine conducts_newList proper fun item member => ?_
  obtain ⟨name, -, rfl⟩ := List.mem_map.mp member
  exact .of_cell?_eq_none rfl

theorem conducts_newBoundNames (names : Names) :
    Conducts near quiet (newBoundNames names) Activity.Owns before := by
  apply (conducts_copies proper _).bind proper
  intro machine after strings _ properAfter _
  exact conducts_newNameList properAfter strings

theorem conducts_newNamesDict {names : Names}
    (owned : ∀ value ∈ Names.values names, before.Owns value) :
    Conducts near quiet (newNamesDict names) Activity.Owns before := by
  refine conducts_new proper (.dict _) .dict rfl (fun value member => ?_) (fun _ => rfl)
    fun _ => trivial
  obtain ⟨entry, listed, stored⟩ := List.mem_flatMap.mp member
  obtain ⟨binding, bound, rfl⟩ := List.mem_map.mp listed
  simp only [List.mem_cons, List.not_mem_nil, or_false] at stored
  rcases stored with rfl | rfl
  · exact .of_cell?_eq_none rfl
  · exact owned _ (List.mem_map_of_mem bound)

theorem conducts_newMethod {receiver code : CellId} (ownsReceiver : before.Owns (.object receiver))
    (ownsCode : before.Owns (.function code)) :
    Conducts near quiet (newMethod receiver code) Activity.Owns before := by
  refine conducts_new proper (.method receiver code) (.method · receiver code) rfl
    (fun value member => ?_) (fun _ => rfl) fun _ => ⟨rfl, rfl⟩
  simp only [Cell.values, List.mem_cons, List.not_mem_nil, or_false] at member
  rcases member with rfl | rfl
  · exact ownsReceiver
  · exact ownsCode

theorem conducts_newDict {pairs : List (Value × Value)}
    (owned : ∀ pair ∈ pairs, before.Owns pair.1 ∧ before.Owns pair.2) :
    Conducts near quiet (newDict pairs) Activity.Owns before := by
  apply Conducts.ofExcept_bind proper
  intro keyed admitted
  have ownedKeyed : ∀ entry ∈ keyed, before.Owns entry.1.value ∧ before.Owns entry.2 := by
    intro entry member
    obtain ⟨pair, listed, converted⟩ := exists_of_mem_mapM admitted member
    cases key : Key.ofValue pair.1 with
    | error error => simp [key, bind, Except.bind] at converted
    | ok first =>
        simp only [key, bind, Except.bind, pure, Except.pure, Except.ok.injEq] at converted
        subst converted
        rw [Key.value_of_ofValue key]
        exact owned pair listed
  refine conducts_new proper (.dict _) .dict rfl (fun value member => ?_) (fun _ => rfl)
    fun _ => trivial
  obtain ⟨entry, listed, rfl | rfl⟩ := Entries.mem_values_of_ofList member
  · exact (ownedKeyed entry listed).1
  · exact (ownedKeyed entry listed).2

theorem conducts_newSet {items : List Value} (owned : ∀ item ∈ items, before.Owns item) :
    Conducts near quiet (newSet items) Activity.Owns before := by
  apply Conducts.ofExcept_bind proper
  intro keys admitted
  refine conducts_new proper (.set _) .set rfl (fun value member => ?_) (fun _ => rfl)
    fun _ => trivial
  obtain ⟨key, listed, rfl⟩ := Members.mem_values_of_ofList member
  obtain ⟨item, given, converted⟩ := exists_of_mem_mapM admitted listed
  rw [Key.value_of_ofValue converted]
  exact owned item given

theorem conducts_newClass {name : Str} {superclass : Option CellId} {attributes : Names}
    (ownedSuperclass : ∀ parent ∈ superclass, before.Owns (.classObject parent))
    (owned : ∀ value ∈ Names.values attributes, before.Owns value) :
    Conducts near quiet (newClass name superclass attributes) Activity.Owns before := by
  unfold newClass
  split
  · exact .fail proper
  · refine conducts_new proper (.classObject _) .classObject rfl (fun value member => ?_)
      (fun _ => rfl) fun _ => trivial
    rcases List.mem_append.mp member with inherited | bound
    · simp only [Option.mem_toList, Option.map_eq_some_iff] at inherited
      obtain ⟨parent, link, rfl⟩ := inherited
      exact ownedSuperclass parent link
    · exact owned value bound

theorem conducts_newObject {cls : CellId} (owns : before.Owns (.classObject cls)) :
    Conducts near quiet (newObject cls) (fun after id => after.Owns (.object id)) before := by
  refine conducts_alloc proper (.object _) .object rfl (fun value member => ?_) (fun _ => rfl)
    fun _ => trivial
  simp only [Cell.values, Names.values, List.map_nil, List.mem_singleton] at member
  subst member
  exact owns

/-- A new function marks the frame it is made in as captured. -/
theorem conducts_newFunction {defining : CellId} (stands : before.Stands defining)
    (inside : near defining) (name : Str) (params : List Str) (defaults : List Expr)
    (body : Block) :
    Conducts near quiet (newFunction defining name params defaults body) Activity.Owns before := by
  unfold newFunction
  split
  · exact .fail proper
  · have captured : Conducts near quiet
        (modify fun machine => { machine with heap := machine.heap.capture defining } : Act Unit)
        (fun after _ => after.machine.heap.Captured defining) before := by
      refine ⟨_, Activity.becomes_capture proper stands.knows inside, ?_⟩
      exact Heap.captured_capture (stands.isFrame proper.sound)
    apply captured.bind proper
    intro machine middle _ becomes properMiddle marked
    have known := (becomes.stands proper stands).knows.grasp properMiddle.sound
    refine ⟨_, Activity.becomes_make properMiddle ⟨known, marked⟩
      (fun value member => absurd member List.not_mem_nil)
      fun target link => Or.inl (Option.some.inj link ▸ inside), fun id name => ?_,
      fun id reference => .of_mem ?_⟩
    · exact ⟨_, (Heap.get?_alloc _ _ _).trans (if_pos (Option.some.inj name).symm), trivial⟩
    · apply List.mem_append_right
      exact List.mem_cons.mpr (Or.inl (List.mem_singleton.mp reference))

end Values

end Act

end ScriptCore
