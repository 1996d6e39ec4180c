import Mathlib.Data.List.Nodup
import Mathlib.Logic.Function.Basic
import ScriptCore.Proofs.Reachability

/-!
# Exploring in depth

A reference is counted only after what it leads to is explored, so while a graph is explored some
of its cells are known in part.  What is then recorded are the references counted so far: each node
has those that lead to it, and those that it holds.  A cell whose visit is over is recorded with all
that it refers to.

A search with a list of pending cells discovers the same cells in the same order.
-/

namespace ScriptCore

section Targets

theorem Value.referencesBefore_eq_append (value : Value) (further : List CellId) :
    value.referencesBefore further = value.target?.toList ++ further := by
  cases value <;> rfl

theorem Value.filterMap_target? (values : List Value) :
    values.filterMap target? = allReferences values := by
  induction values with
  | nil => rfl
  | cons value rest ih =>
      rw [allReferences, referencesBefore_eq_append, ← ih]
      simp only [List.filterMap_eq_flatMap_toList, List.flatMap_cons]

theorem Names.filterMap_target? (names : Names) :
    (names.filterMap fun (_, value) => value.target?) = references names := by
  induction names with
  | nil => rfl
  | cons binding rest ih =>
      rw [references, Value.referencesBefore_eq_append, ← ih]
      simp only [List.filterMap_eq_flatMap_toList, List.flatMap_cons]

theorem Members.filterMap_target? (members : Members) :
    (members.filterMap fun member => member.value.target?) = references members := by
  induction members with
  | nil => rfl
  | cons member rest ih =>
      rw [references, Value.referencesBefore_eq_append, ← ih]
      simp only [List.filterMap_eq_flatMap_toList, List.flatMap_cons]

theorem Entries.flatMap_target? (entries : Entries) :
    (entries.flatMap fun (key, value) => [key.value, value].filterMap Value.target?) =
      references entries := by
  induction entries with
  | nil => rfl
  | cons entry rest ih =>
      rw [references, Value.referencesBefore_eq_append, Value.referencesBefore_eq_append, ← ih]
      simp [List.filterMap_eq_flatMap_toList]

/-- A trace goes from a cell to all that the cell refers to, in the same order and as often. -/
theorem Cell.targets_eq_references (cell : Cell) : cell.targets = cell.references := by
  cases cell with
  | tuple items => exact Value.filterMap_target? items
  | list items => exact Value.filterMap_target? items
  | dict entries => exact Entries.flatMap_target? entries
  | set members => exact Members.filterMap_target? members
  | classObject content => rw [targets, references, Names.filterMap_target?]
  | object content => rw [targets, references, Names.filterMap_target?]
  | function content => rfl
  | method receiver code => rfl
  | frame content =>
      obtain ⟨scope, captured⟩ := content
      cases scope with
      | global => rfl
      | nested parent bindings => exact congrArg (parent :: ·) (Names.filterMap_target? bindings)

@[simp]
theorem Heap.targetsOf_eq_referencesOf (heap : Heap) (id : CellId) :
    heap.targetsOf id = heap.referencesOf id := by
  rw [targetsOf, referencesOf]
  cases heap.get? id with
  | none => rfl
  | some cell => exact cell.targets_eq_references

end Targets

/-- Every reference leads to a cell that was made. -/
def Heap.Grounded (heap : Heap) : Prop :=
  ∀ holder id, heap.Refers holder id → id < heap.size

/-- The references of a cell that a trace follows. -/
def Heap.tracedReferences (heap : Heap) (around : List CellId) (id : CellId) : List CellId :=
  (heap.referencesOf id).filter (heap.enters around)

namespace Exploration

variable {exploration : Exploration} {id holder target : CellId} {strong : Nat}

/-- The cells that are part of the graph, as marks. -/
def marks (exploration : Exploration) : Marks :=
  ⟨exploration.nodes.map Option.isSome⟩

@[simp]
theorem marks_empty (size : Nat) : (empty size).marks = Marks.empty size := by
  simp [empty, marks, Marks.empty]

theorem contains_marks (exploration : Exploration) (id : CellId) :
    exploration.marks.contains id = (exploration.node? id).isSome := by
  rw [marks, Marks.contains, node?, Array.getElem?_map]
  cases exploration.nodes[id]? <;> rfl

@[simp]
theorem node?_empty (size : Nat) (id : CellId) : (empty size).node? id = none := by
  have unmarked := contains_marks (empty size) id
  rw [marks_empty, Marks.contains_empty] at unmarked
  exact Option.isSome_eq_false_iff.mp unmarked.symm |> Option.isNone_iff_eq_none.mp

@[simp]
theorem size_enter : (exploration.enter id strong).nodes.size = exploration.nodes.size := by
  simp [enter]

@[simp]
theorem marks_enter : (exploration.enter id strong).marks = exploration.marks.insert id := by
  simp [enter, marks, Marks.insert, Array.map_setIfInBounds]

/-- An entered cell has no reference counted to it, and all others are as before. -/
theorem node?_enter (inside : id < exploration.nodes.size) (other : CellId) :
    (exploration.enter id strong).node? other =
      if other = id then some { strong } else exploration.node? other := by
  by_cases same : other = id
  · subst same
    simp [enter, node?, Array.getElem?_setIfInBounds_self_of_lt inside]
  · have unequal : id ≠ other := fun equal => same equal.symm
    simp [enter, node?, same, Array.getElem?_setIfInBounds_ne unequal]

/-- An entered cell takes the place of one that was not part of the graph. -/
theorem room_enter (inside : id < exploration.nodes.size)
    (new : (exploration.node? id).isSome = false) :
    (exploration.enter id strong).marks.room + 1 = exploration.marks.room := by
  have fits : id < exploration.marks.marked.size := by simpa [marks] using inside
  have unmarked : exploration.marks.contains id = false := by rw [contains_marks, new]
  rw [marks_enter, Marks.room_insert fits unmarked]

@[simp]
theorem size_link (exploration : Exploration) (holder : CellId) (target : Option CellId) :
    (exploration.link holder target).nodes.size = exploration.nodes.size := by
  cases target <;> simp [link]

@[simp]
theorem entered_link (exploration : Exploration) (holder : CellId) (target : Option CellId) :
    (exploration.link holder target).entered = exploration.entered := by
  cases target <;> rfl

/-- A counted reference is one more to its target, and one more that its holder holds. -/
theorem node?_link (exploration : Exploration) (holder target other : CellId) :
    (exploration.link holder (some target)).node? other =
      (exploration.node? other).map fun node =>
        { strong := node.strong
          internal := node.internal + if target = other then 1 else 0
          edges := if holder = other then node.edges.push target else node.edges } := by
  simp only [link, node?, Array.getElem?_modify]
  cases entry : exploration.nodes[other]? with
  | none => simp
  | some content =>
      cases content with
      | none =>
          by_cases there : target = other <;> by_cases here : holder = other <;> simp [there, here]
      | some node =>
          by_cases there : target = other <;> by_cases here : holder = other <;>
            simp [there, here, Node.referred, Node.referring]

@[simp]
theorem marks_link (exploration : Exploration) (holder : CellId) (target : Option CellId) :
    (exploration.link holder target).marks = exploration.marks := by
  cases target with
  | none => rfl
  | some target =>
      unfold marks
      congr 1
      apply Array.ext
      · simp
      · intro place _ _
        simp only [link, Array.getElem_map, Array.getElem_modify]
        split <;> split <;> simp

end Exploration

namespace Counted

variable {counted : Counted} {exploration before middle after : Exploration}
  {links : CellId → List CellId} {around pending found : List CellId} {id holder target : CellId}
  {strong : Nat}

/-- An exploration records the references counted so far, given by their holders. -/
structure Records (counted : Counted) (exploration : Exploration)
    (links : CellId → List CellId) : Prop where
  distinct : exploration.entered.Nodup
  holder : ∀ id, id ∉ exploration.entered → links id = []
  target : ∀ id, ∀ target ∈ links id, target ∈ exploration.entered
  node : ∀ id, exploration.node? id =
    if id ∈ exploration.entered then
      some
        { strong := counted.count id
          internal := (exploration.entered.flatMap links).count id
          edges := (links id).toArray }
    else none

namespace Records

theorem isSome_node? (records : counted.Records exploration links) (id : CellId) :
    (exploration.node? id).isSome = true ↔ id ∈ exploration.entered := by
  rw [records.node id]
  split <;> simp [*]

theorem of_eq {same : CellId → List CellId} (records : counted.Records exploration links)
    (agree : ∀ id, links id = same id) : counted.Records exploration same :=
  funext agree ▸ records

theorem enter (records : counted.Records exploration links) (new : id ∉ exploration.entered)
    (inside : id < exploration.nodes.size) :
    counted.Records (exploration.enter id (counted.count id)) links where
  distinct := List.nodup_cons.mpr ⟨new, records.distinct⟩
  holder other apart := records.holder other fun member => apart (List.mem_cons_of_mem id member)
  target other target member := List.mem_cons_of_mem id (records.target other target member)
  node other := by
    have none : (exploration.entered.flatMap links).count id = 0 := by
      refine List.count_eq_zero.mpr fun member => ?_
      obtain ⟨holder, -, listed⟩ := List.mem_flatMap.mp member
      exact new (records.target holder id listed)
    rw [Exploration.node?_enter inside, records.node other]
    by_cases same : other = id
    · subst same
      simp [Exploration.enter, records.holder other new, none]
    · simp [Exploration.enter, same, records.holder id new]

theorem count_flatMap_update (distinct : exploration.entered.Nodup)
    (held : holder ∈ exploration.entered) (other : CellId) :
    (exploration.entered.flatMap
        (Function.update links holder (links holder ++ [target]))).count other =
      (exploration.entered.flatMap links).count other + if target = other then 1 else 0 := by
  have front := List.perm_cons_erase held
  have rest : (exploration.entered.erase holder).flatMap
        (Function.update links holder (links holder ++ [target])) =
      (exploration.entered.erase holder).flatMap links := by
    refine List.flatMap_congr fun id member => ?_
    have different : id ≠ holder := by
      rintro rfl
      exact distinct.not_mem_erase member
    exact Function.update_of_ne different _ _
  rw [(front.flatMap_right _).count_eq, (front.flatMap_right links).count_eq, List.flatMap_cons,
    List.flatMap_cons, rest, Function.update_self]
  simp only [List.count_append, List.count_singleton, beq_iff_eq]
  omega

/-- A counted reference is the last of its holder. -/
theorem link (records : counted.Records exploration links) (held : holder ∈ exploration.entered)
    (known : target ∈ exploration.entered) :
    counted.Records (exploration.link holder (some target))
      (Function.update links holder (links holder ++ [target])) where
  distinct := by simpa using records.distinct
  holder other apart := by
    rw [Exploration.entered_link] at apart
    have different : other ≠ holder := fun same => apart (same ▸ held)
    rw [Function.update_of_ne different, records.holder other apart]
  target other listed member := by
    rw [Exploration.entered_link]
    by_cases same : other = holder
    · subst same
      rw [Function.update_self] at member
      rcases List.mem_append.mp member with old | new
      · exact records.target other listed old
      · exact List.mem_singleton.mp new ▸ known
    · rw [Function.update_of_ne same] at member
      exact records.target other listed member
  node other := by
    rw [Exploration.node?_link, Exploration.entered_link, records.node other,
      count_flatMap_update records.distinct held]
    by_cases member : other ∈ exploration.entered
    · by_cases same : other = holder
      · subst same
        simp [member]
      · have different : holder ≠ other := fun equal => same equal.symm
        simp [member, same, different]
    · simp [member]

end Records

/-- From `before` to `after` the cells of `found` are discovered, in this order and up to the end of
their visits, as a search that has `pending` before it discovers them. -/
structure Explores (counted : Counted) (around : List CellId) (before : Exploration)
    (pending found : List CellId) (after : Exploration) : Prop where
  entered : after.entered = found.reverse ++ before.entered
  size_eq : after.nodes.size = before.nodes.size
  room : after.marks.room + found.length = before.marks.room
  search : ∀ limit rest,
    search (counted.heap.tracedReferences around) (found.length + limit) before.marks
        (pending ++ rest) =
      found ++ search (counted.heap.tracedReferences around) limit after.marks rest

namespace Explores

theorem refl (counted : Counted) (around : List CellId) (exploration : Exploration) :
    counted.Explores around exploration [] [] exploration where
  entered := rfl
  size_eq := rfl
  room := rfl
  search limit rest := by simp

theorem trans {more further : List CellId}
    (first : counted.Explores around before pending found middle)
    (second : counted.Explores around middle more further after) :
    counted.Explores around before (pending ++ more) (found ++ further) after where
  entered := by
    rw [second.entered, first.entered, List.reverse_append, List.append_assoc]
  size_eq := second.size_eq.trans first.size_eq
  room := by
    have := first.room
    have := second.room
    rw [List.length_append]
    omega
  search limit rest := by
    rw [List.length_append, Nat.add_assoc, List.append_assoc, first.search, second.search,
      List.append_assoc]

/-- Counting a reference discovers nothing. -/
theorem link (explores : counted.Explores around before pending found after) (holder : CellId)
    (target : Option CellId) :
    counted.Explores around before pending found (after.link holder target) where
  entered := by rw [Exploration.entered_link, explores.entered]
  size_eq := by rw [Exploration.size_link, explores.size_eq]
  room := by rw [Exploration.marks_link, explores.room]
  search limit rest := by rw [Exploration.marks_link, explores.search]

/-- A search passes over a cell that is part of the graph already. -/
theorem of_known (counted : Counted) (around : List CellId)
    (known : (exploration.node? id).isSome = true) :
    counted.Explores around exploration [id] [] exploration where
  entered := rfl
  size_eq := rfl
  room := rfl
  search limit rest := by
    have marked : exploration.marks.contains id = true := by
      rw [Exploration.contains_marks, known]
    cases limit with
    | zero => simp [ScriptCore.search]
    | succ limit => simp [ScriptCore.search, marked]

/-- A new cell is discovered first, then what it refers to. -/
theorem of_new (new : (exploration.node? id).isSome = false)
    (inside : id < exploration.nodes.size)
    (explores : counted.Explores around (exploration.enter id strong)
      (counted.heap.tracedReferences around id) found after) :
    counted.Explores around exploration [id] (id :: found) after where
  entered := by
    rw [explores.entered]
    simp [Exploration.enter]
  size_eq := by rw [explores.size_eq, Exploration.size_enter]
  room := by
    have roomLeft : (exploration.enter id strong).marks.room + 1 = exploration.marks.room :=
      Exploration.room_enter inside new
    have := explores.room
    rw [List.length_cons]
    omega
  search limit rest := by
    have unmarked : exploration.marks.contains id = false := by
      rw [Exploration.contains_marks, new]
    have onward := explores.search limit rest
    rw [Exploration.marks_enter] at onward
    rw [List.length_cons, Nat.add_right_comm, ScriptCore.search]
    simp [unmarked, onward]

end Explores

/-- What a visit comes to: the cells of `found` are discovered, and every reference that they hold
is counted. -/
structure Visits (counted : Counted) (around : List CellId) (before : Exploration)
    (links : CellId → List CellId) (id : CellId) (found : List CellId)
    (result : Option CellId × Exploration) : Prop where
  target : result.1 = if counted.heap.enters around id = true then some id else none
  member : counted.heap.enters around id = true → id ∈ result.2.entered
  explores : counted.Explores around before ([id].filter (counted.heap.enters around)) found
    result.2
  records : counted.Records result.2 fun other =>
    if other ∈ found then counted.heap.tracedReferences around other else links other

namespace Visits

/-- A cell that is not entered is passed over. -/
theorem of_not_enters (records : counted.Records before links)
    (enters : ¬counted.heap.enters around id = true) :
    counted.Visits around before links id [] (none, before) where
  target := by simp [enters]
  member entering := absurd entering enters
  explores := by simpa [enters] using Explores.refl counted around before
  records := records.of_eq fun other => by simp

/-- So is one that is part of the graph already, apart from the reference to it. -/
theorem of_known (records : counted.Records before links)
    (enters : counted.heap.enters around id = true) (known : (before.node? id).isSome = true) :
    counted.Visits around before links id [] (some id, before) where
  target := by simp [enters]
  member _ := (records.isSome_node? id).mp known
  explores := by simpa [enters] using Explores.of_known counted around known
  records := records.of_eq fun other => by simp

/-- A new cell is explored. -/
theorem of_new (records : counted.Records before links)
    (enters : counted.heap.enters around id = true) (new : (before.node? id).isSome = false)
    (inside : id < before.nodes.size)
    (explores : counted.Explores around (before.enter id (counted.count id))
      (counted.heap.tracedReferences around id) found after)
    (recorded : counted.Records after fun other =>
      if other ∈ found then counted.heap.tracedReferences around other
      else if other = id then links id ++ counted.heap.tracedReferences around id
      else links other) :
    counted.Visits around before links id (id :: found) (some id, after) where
  target := by simp [enters]
  member _ := by
    rw [explores.entered]
    exact List.mem_append_right _ List.mem_cons_self
  explores := by simpa [enters] using Explores.of_new new inside explores
  records := recorded.of_eq fun other => by
    by_cases same : other = id
    · subst same
      have apart : other ∉ before.entered := by
        simp [← records.isSome_node? other, new]
      simp [records.holder other apart]
    · simp [same]

variable {result : Option CellId × Exploration}
  (visits : counted.Visits around before links id found result)

include visits

/-- What was known before is not discovered again. -/
theorem not_mem_found (entered : holder ∈ before.entered) : holder ∉ found := by
  intro again
  have distinct := visits.records.distinct
  rw [visits.explores.entered] at distinct
  exact (List.nodup_append.mp distinct).2.2 holder (List.mem_reverse.mpr again) holder entered rfl

/-- After the visit the reference is counted that led to it. -/
theorem records_link (entered : holder ∈ before.entered) :
    counted.Records (result.2.link holder result.1) fun other =>
      if other ∈ found then counted.heap.tracedReferences around other
      else if other = holder then
        links holder ++ [id].filter (counted.heap.enters around)
      else links other := by
  have apart := visits.not_mem_found entered
  by_cases enters : counted.heap.enters around id = true
  · rw [visits.target, if_pos enters]
    have known : holder ∈ result.2.entered := by
      rw [visits.explores.entered]
      exact List.mem_append_right _ entered
    refine (visits.records.link known (visits.member enters)).of_eq fun other => ?_
    by_cases same : other = holder
    · subst same
      simp [apart, enters]
    · rw [Function.update_of_ne same]
      simp [same]
  · rw [visits.target, if_neg enters]
    refine visits.records.of_eq fun other => ?_
    by_cases same : other = holder
    · subst same
      simp [enters]
    · simp [same]

end Visits

section Visiting

/-- If visits come to what they should, so does following all references of a cell in turn. -/
theorem exists_explores_each {limit : Nat}
    (visits : ∀ {before : Exploration} {links : CellId → List CellId} {id : CellId},
      counted.Records before links → before.nodes.size = counted.heap.size →
      before.marks.room < limit → id < counted.heap.size →
      ∃ found, counted.Visits around before links id found
        (counted.visit around limit id before))
    {held : List CellId} (made : ∀ id ∈ held, id < counted.heap.size)
    (records : counted.Records before links) (sized : before.nodes.size = counted.heap.size)
    (enough : before.marks.room < limit) (entered : holder ∈ before.entered) :
    ∃ found,
      counted.Explores around before (held.filter (counted.heap.enters around)) found
        (held.foldl (fun exploration held =>
          let (target, explored) := counted.visit around limit held exploration
          explored.link holder target) before) ∧
      counted.Records
        (held.foldl (fun exploration held =>
          let (target, explored) := counted.visit around limit held exploration
          explored.link holder target) before)
        fun other =>
          if other ∈ found then counted.heap.tracedReferences around other
          else if other = holder then
            links holder ++ held.filter (counted.heap.enters around)
          else links other := by
  induction held generalizing before links with
  | nil =>
      refine ⟨[], .refl counted around before, records.of_eq fun other => ?_⟩
      by_cases same : other = holder
      · simp [same]
      · simp [same]
  | cons first rest ih =>
      obtain ⟨found, visited⟩ := visits records sized enough (made first List.mem_cons_self)
      have explores := visited.explores.link holder (counted.visit around limit first before).1
      have roomLeft := explores.room
      have known : holder ∈ ((counted.visit around limit first before).2.link holder
          (counted.visit around limit first before).1).entered := by
        rw [explores.entered]
        exact List.mem_append_right _ entered
      obtain ⟨further, onward, recorded⟩ :=
        ih (fun id member => made id (List.mem_cons_of_mem first member))
          (visited.records_link entered) (explores.size_eq.trans sized) (by omega) known
      have split : (first :: rest).filter (counted.heap.enters around) =
          [first].filter (counted.heap.enters around) ++
            rest.filter (counted.heap.enters around) := List.filter_append [first] rest
      refine ⟨found ++ further, ?_, recorded.of_eq fun other => ?_⟩
      · rw [split]
        exact explores.trans onward
      · have apart := visited.not_mem_found entered
        by_cases last : other ∈ further
        · simp [last]
        · by_cases same : other = holder
          · subst same
            simp [last, apart, split]
          · simp [last, same]

/-- A visit that may go deep enough discovers what it leads to. -/
theorem exists_visits (grounded : counted.heap.Grounded) {limit : Nat}
    (records : counted.Records before links) (sized : before.nodes.size = counted.heap.size)
    (enough : before.marks.room < limit) (made : id < counted.heap.size) :
    ∃ found, counted.Visits around before links id found
      (counted.visit around limit id before) := by
  induction limit generalizing before links id with
  | zero => omega
  | succ limit ih =>
      rw [visit, Heap.targetsOf_eq_referencesOf]
      by_cases enters : counted.heap.enters around id = true
      · rw [if_pos enters]
        cases known : (before.node? id).isSome with
        | true => exact ⟨[], .of_known records enters known⟩
        | false =>
            rw [if_neg Bool.false_ne_true]
            have room : id < before.nodes.size := sized ▸ made
            have new : id ∉ before.entered := by
              simp [← records.isSome_node? id, known]
            have roomLeft : (before.enter id (counted.count id)).marks.room + 1 =
                before.marks.room := Exploration.room_enter room known
            obtain ⟨found, explores, recorded⟩ :=
              exists_explores_each ih (grounded id)
                (records.enter new room) (by rw [Exploration.size_enter, sized]) (by omega)
                List.mem_cons_self
            exact ⟨id :: found, .of_new records enters known room explores recorded⟩
      · rw [if_neg enters]
        exact ⟨[], .of_not_enters records enters⟩

end Visiting

section Discovering

/-- The cells that are discovered from a cell, in this order. -/
def discovered (counted : Counted) (around : List CellId) (root : CellId) : List CellId :=
  reachable counted.heap.size (counted.heap.tracedReferences around)
    ([root].filter (counted.heap.enters around))

/-- The references to be counted for a cell: those that a trace follows, if it gets to the cell. -/
def tracedFrom (counted : Counted) (around : List CellId) (root id : CellId) : List CellId :=
  if id ∈ counted.discovered around root then counted.heap.tracedReferences around id else []

theorem Records.empty (counted : Counted) (size : Nat) :
    counted.Records (.empty size) fun _ => [] where
  distinct := List.nodup_nil
  holder _ _ := rfl
  target _ _ member := by simp at member
  node id := by
    rw [Exploration.node?_empty]
    exact (if_neg List.not_mem_nil).symm

/-- The order of discovery and the references counted are all there is to an exploration. -/
theorem Records.unique {other : Exploration} (records : counted.Records exploration links)
    (others : counted.Records other links) (sized : exploration.nodes.size = other.nodes.size)
    (entered : exploration.entered = other.entered) : exploration = other := by
  have nodes : exploration.nodes = other.nodes := by
    refine Array.ext sized fun id here there => ?_
    have same : exploration.node? id = other.node? id := by
      rw [records.node id, others.node id, entered]
    simpa [Exploration.node?, here, there] using same
  cases exploration
  cases other
  exact Exploration.mk.injEq .. ▸ ⟨nodes, entered⟩

variable (around) {root : CellId} {limit : Nat} (grounded : counted.heap.Grounded)
  (made : root < counted.heap.size)

include grounded made

/-- Deep enough is deeper than there are cells. -/
theorem visits_empty (deep : counted.heap.size < limit) :
    counted.Visits around (.empty counted.heap.size) (fun _ => []) root
      (counted.discovered around root)
      (counted.visit around limit root (.empty counted.heap.size)) := by
  have roomy : (Exploration.empty counted.heap.size).marks.room = counted.heap.size := by
    rw [Exploration.marks_empty, Marks.room_empty]
  have sized : (Exploration.empty counted.heap.size).nodes.size = counted.heap.size := by
    simp [Exploration.empty]
  obtain ⟨found, visits⟩ : ∃ found, counted.Visits around (.empty counted.heap.size) (fun _ => [])
      root found (counted.visit around limit root (.empty counted.heap.size)) :=
    exists_visits grounded (.empty counted counted.heap.size) sized (by rwa [roomy]) made
  have fits := visits.explores.room
  rw [roomy] at fits
  have all := visits.explores.search (counted.heap.size - found.length) []
  have exhausted (limit : Nat) (marks : Marks) :
      search (counted.heap.tracedReferences around) limit marks [] = [] := by
    cases limit <;> rfl
  rw [Nat.add_sub_cancel' (by omega), List.append_nil, exhausted, List.append_nil,
    Exploration.marks_empty] at all
  rw [discovered, reachable, all]
  exact visits

/-- How deep an exploration may go is of no account, if it may go deeper than there are cells. -/
theorem visit_empty_eq {further : Nat} (deep : counted.heap.size < limit)
    (deeper : counted.heap.size < further) :
    counted.visit around limit root (.empty counted.heap.size) =
      counted.visit around further root (.empty counted.heap.size) := by
  have visits := visits_empty around grounded made deep
  have others := visits_empty around grounded made deeper
  refine Prod.ext (visits.target.trans others.target.symm) ?_
  refine visits.records.unique others.records ?_ ?_
  · rw [visits.explores.size_eq, others.explores.size_eq]
  · rw [visits.explores.entered, others.explores.entered]

theorem entered_explore :
    (counted.explore root).entered =
      (counted.discovered (counted.heap.frameChain root).tail root).reverse := by
  have visits := visits_empty (counted.heap.frameChain root).tail grounded made
    (Nat.lt_succ_self _)
  rw [explore, visits.explores.entered]
  exact List.append_nil _

theorem records_explore :
    counted.Records (counted.explore root)
      (counted.tracedFrom (counted.heap.frameChain root).tail root) :=
  (visits_empty _ grounded made (Nat.lt_succ_self _)).records

/-- A trace lists what a search discovers. -/
theorem nodes_trace :
    (counted.trace root).nodes =
      counted.discovered (counted.heap.frameChain root).tail root := by
  rw [trace, entered_explore grounded made, List.reverse_reverse]

theorem node?_explore {id : CellId} (member : id ∈ (counted.trace root).nodes) :
    (counted.explore root).node? id = some
      { strong := counted.count id
        internal := ((counted.trace root).nodes.flatMap
          (counted.heap.tracedReferences (counted.heap.frameChain root).tail)).count id
        edges :=
          (counted.heap.tracedReferences (counted.heap.frameChain root).tail id).toArray } := by
  rw [nodes_trace grounded made] at member ⊢
  have all : (counted.discovered (counted.heap.frameChain root).tail root).flatMap
        (counted.tracedFrom (counted.heap.frameChain root).tail root) =
      (counted.discovered (counted.heap.frameChain root).tail root).flatMap
        (counted.heap.tracedReferences (counted.heap.frameChain root).tail) :=
    List.flatMap_congr fun holder listed => if_pos listed
  rw [(records_explore grounded made).node id, entered_explore grounded made,
    if_pos (List.mem_reverse.mpr member), ((List.reverse_perm _).flatMap_right _).count_eq, all,
    tracedFrom, if_pos member]

theorem strong_trace {id : CellId} (member : id ∈ (counted.trace root).nodes) :
    (counted.trace root).strong id = counted.count id := by
  change ((counted.explore root).node? id).elim 0 Node.strong = _
  rw [node?_explore grounded made member]
  rfl

theorem edges_trace {id : CellId} (member : id ∈ (counted.trace root).nodes) :
    (counted.trace root).edges id =
      counted.heap.tracedReferences (counted.heap.frameChain root).tail id := by
  change ((counted.explore root).node? id).elim [] (fun node => node.edges.toList) = _
  rw [node?_explore grounded made member]
  rfl

theorem internal_trace {id : CellId} (member : id ∈ (counted.trace root).nodes) :
    (counted.trace root).internal id =
      ((counted.trace root).nodes.flatMap
        (counted.heap.tracedReferences (counted.heap.frameChain root).tail)).count id := by
  change ((counted.explore root).node? id).elim 0 Node.internal = _
  rw [node?_explore grounded made member]
  rfl

/-- Nothing is known of a cell that is not part of the graph. -/
theorem edges_trace_of_not_mem {id : CellId} (apart : id ∉ (counted.trace root).nodes) :
    (counted.trace root).edges id = [] := by
  rw [nodes_trace grounded made] at apart
  change ((counted.explore root).node? id).elim [] (fun node => node.edges.toList) = _
  rw [(records_explore grounded made).node id, entered_explore grounded made,
    if_neg (by simpa using apart)]
  rfl

end Discovering

end Counted

end ScriptCore
