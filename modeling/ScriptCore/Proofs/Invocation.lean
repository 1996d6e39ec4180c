import ScriptCore.CommandLine
import ScriptCore.Proofs.Documents
import ScriptCore.Proofs.Stopping

/-!
# Commands

Every argument of a command that is a document becomes a value, so a command fails for one of three
reasons: there is no such builtin, an argument is no document, or the builtin fails itself.  This
holds with any reader of documents that gives different names to the members of an object.
-/

namespace ScriptCore

namespace Machine

/-- A new machine with the standard builtins has no others. -/
theorem exists_standard_of_builtin? {name : String} {builtin : Builtin}
    (found : standard.builtin? name = some builtin) :
    ∃ function, builtin.native = .standard function := by
  suffices registered : ∀ builtin ∈ standard.builtins,
      ∃ function, builtin.native = .standard function from
    registered builtin (List.mem_of_find?_eq_some found)
  refine List.foldlRecOn (motive := fun machine : Machine => ∀ builtin ∈ machine.builtins,
    ∃ function, builtin.native = .standard function) (standardNatives ++ []) _ nofun ?_
  intro machine earlier registration among builtin member
  rcases List.mem_append.mp member with kept | last
  · exact earlier builtin (List.mem_filter.mp kept).1
  · rw [List.append_nil] at among
    obtain ⟨function, -, same⟩ := List.mem_map.mp among
    refine ⟨function, ?_⟩
    rw [List.mem_singleton.mp last, ← same]

end Machine

namespace CommandLine

/-- The datum that a document is as the argument of a builtin at a place. -/
def argumentDatum (name : String) (place : Nat) (json : Json) : Datum :=
  if name == deleting && place == 1 then json.toIndex else json.toDatum

/-- The data of the arguments of a builtin from a place on. -/
def argumentData (name : String) (place : Nat) : List Json → List Datum
  | [] => []
  | json :: rest => argumentDatum name place json :: argumentData name (place + 1) rest

/-- Values are documents as the arguments of a builtin from a place on.  The second argument of a
deletion is an index. -/
inductive Receives (machine : Machine) (name : String) : Nat → List Json → List Value → Prop
  | nil (place : Nat) : Receives machine name place [] []
  | document {place : Nat} {json : Json} {value : Value} {documents : List Json}
      {values : List Value} (noIndex : ¬ (name = deleting ∧ place = 1))
      (stands : Stands machine json value)
      (rest : Receives machine name (place + 1) documents values) :
      Receives machine name place (json :: documents) (value :: values)
  | index {json : Json} {value : Value} {documents : List Json} {values : List Value}
      (deletes : name = deleting) (stands : StandsIndex machine json value)
      (rest : Receives machine name 2 documents values) :
      Receives machine name 1 (json :: documents) (value :: values)

theorem receives_of_representsAll {machine : Machine} {name : String} {documents : List Json} :
    ∀ {place : Nat} {values : List Value} {cells : List CellId},
      RepresentsAll machine (argumentData name place documents) values cells →
        (∀ document ∈ documents, document.Distinct) →
          Receives machine name place documents values := by
  induction documents with
  | nil =>
      intro place values cells each distinct
      cases each
      exact .nil place
  | cons json rest ih =>
      intro place values cells each distinct
      obtain ⟨own, others⟩ := List.forall_mem_cons.mp distinct
      cases each with
      | cons first each =>
          by_cases isIndex : name = deleting ∧ place = 1
          · obtain ⟨deletes, rfl⟩ := isIndex
            rw [argumentDatum, if_pos (by simp [deletes])] at first
            exact .index deletes (standsIndex_of_represents first own) (ih each others)
          · rw [argumentDatum, if_neg (by simpa using isIndex)] at first
            exact .document isIndex (stands_of_represents first own) (ih each others)

theorem offences_argumentDatum (name : String) (place : Nat) (json : Json) :
    (argumentDatum name place json).offences = [] := by
  unfold argumentDatum
  split
  · exact json.offences_toIndex
  · exact json.offences_toDatum

section Arguments

variable {parse? : String → Option Json} {name source : String} {sources : List String}
  {place : Nat} {machine : Machine}

theorem readArguments_of_no_document (none : parse? source = none) :
    readArguments parse? name place (source :: sources) machine =
      .error (.badArgument place) machine := by
  rw [readArguments, readArgument, none]
  rfl

theorem readArguments_of_document {json : Json} {value : Value} {middle : Machine}
    (parsed : parse? source = some json)
    (converted : Act.convert (argumentDatum name place json) machine = .ok value middle) :
    readArguments parse? name place (source :: sources) machine =
      match readArguments parse? name (place + 1) sources middle with
      | .ok values after => .ok (value :: values) after
      | .error failure after => .error failure after := by
  rw [argumentDatum] at converted
  rw [readArguments, readArgument, parsed]
  simp only [Bind.bind, EStateM.bind, run, converted]
  cases readArguments parse? name (place + 1) sources middle <;> rfl

/-- All that can come of reading arguments: the first that is no document is refused, or all become
values in cells of their own. -/
inductive Admits (parse? : String → Option Json) (name : String) (place : Nat)
    (sources : List String) (machine : Machine) :
    EStateM.Result Failure Machine (List Value) → Prop
  | refused (before behind : List String) (source : String) (index : Nat) (after : Machine)
      (split : sources = before ++ source :: behind) (counted : index = place + before.length)
      (documents : ∀ earlier ∈ before, ∃ json, parse? earlier = some json)
      (none : parse? source = none) :
      Admits parse? name place sources machine (.error (.badArgument index) after)
  | admitted (documents : List Json) (values : List Value) (cells : List CellId) (after : Machine)
      (parsed : sources.map parse? = documents.map some) (makes : machine.Makes cells after)
      (each : RepresentsAll after (argumentData name place documents) values cells) :
      Admits parse? name place sources machine (.ok values after)

theorem admits_readArguments (parse? : String → Option Json) (name : String) (place : Nat)
    (sources : List String) (machine : Machine) :
    Admits parse? name place sources machine (readArguments parse? name place sources machine) := by
  induction sources generalizing place machine with
  | nil => exact .admitted [] [] [] machine rfl (.none machine) .nil
  | cons source rest ih =>
      cases parsed : parse? source with
      | none =>
          rw [readArguments_of_no_document parsed]
          exact .refused [] rest source place machine rfl rfl nofun parsed
      | some json =>
          obtain ⟨value, middle, converted⟩ :=
            Act.exists_convert (offences_argumentDatum name place json) machine
          obtain ⟨own, first, represents⟩ := Act.makes_convert converted
          rw [readArguments_of_document parsed converted]
          have onward := ih (place + 1) middle
          generalize readArguments parse? name (place + 1) rest middle = outcome at onward
          cases onward with
          | refused before behind bad index after split counted documents none =>
              refine .refused (source :: before) behind bad index after
                (congrArg (source :: ·) split) ?_
                (List.forall_mem_cons.mpr ⟨⟨json, parsed⟩, documents⟩) none
              rw [counted, List.length_cons]
              omega
          | admitted documents values cells after others makes each =>
              refine .admitted (json :: documents) (value :: values) (own ++ cells) after ?_
                (first.append makes) (.cons ?_ each)
              · rw [List.map_cons, List.map_cons, parsed, others]
              · exact makes.represents (fun cell member => (first.new cell member).2) represents

variable (parses : Json.Parses parse?)

include parses

theorem distinct_of_parsed {documents : List Json}
    (parsed : sources.map parse? = documents.map some) :
    ∀ document ∈ documents, document.Distinct := by
  intro document member
  have among : some document ∈ sources.map parse? := parsed ▸ List.mem_map_of_mem member
  obtain ⟨source, -, read⟩ := List.mem_map.mp among
  exact parses.distinct read

/-- A list that is the first argument has no more items than the text has characters. -/
theorem exists_items_of_receives {documents : List Json} {values : List Value} {cell : CellId}
    (parsed : sources.map parse? = documents.map some)
    (short : ∀ source ∈ sources, source.length < 2 ^ 63)
    (receives : Receives machine name 0 documents values)
    (first : values.head? = some (.list cell)) :
    ∃ items, machine.heap.get? cell = some (.list items) ∧ items.length < 2 ^ 63 := by
  cases receives with
  | nil => cases first
  | document noIndex stands rest =>
      cases first
      cases sources with
      | nil => cases parsed
      | cons source others =>
          obtain ⟨read, -⟩ := List.cons.inj parsed
          cases stands with
          | array items _ values each content =>
              refine ⟨values, content, ?_⟩
              rw [each.length_eq]
              exact Nat.lt_of_le_of_lt (parses.length_le read)
                (short source List.mem_cons_self)
          | number number value numeral => cases numeral

end Arguments

/-- Call a builtin in a frame of its own. -/
def calling (builtin : Builtin) (arguments : List Value) : Act Value := do
  let frame ← Act.topFrame
  Act.call Evaluator.standard frame (.builtin builtin) arguments

theorem call_standard {evaluator : Evaluator} {caller : CellId} {builtin : Builtin}
    {function : Standard} (native : builtin.native = .standard function)
    (arguments : List Value) :
    Act.call evaluator caller (.builtin builtin) arguments =
      Act.runStandard function arguments := by
  obtain ⟨name, _, serial⟩ := builtin
  cases native
  rw [Act.call]
  · rfl
  · intro callee rest impossible
    cases impossible

theorem ordinaryOn_calling {machine : Machine} {builtin : Builtin} {function : Standard}
    (native : builtin.native = .standard function) {arguments : List Value}
    (fits : ∀ cell, arguments.head? = some (.list cell) →
      ∃ items, machine.heap.get? cell = some (.list items) ∧ items.length < 2 ^ 63) :
    Act.OrdinaryOn machine (calling builtin arguments) := by
  intro stop after failed
  rw [calling, Act.topFrame, Act.alloc_bind, call_standard native] at failed
  refine Act.ordinaryOn_runStandard function arguments ?_ stop after failed
  intro cell first
  obtain ⟨items, content, short⟩ := fits cell first
  rwa [Heap.listItems, Heap.get?_alloc_of_get? content]

/-- All that can come of a command. -/
inductive Concludes (parse? : String → Option Json) (name : String) (sources : List String)
    (machine : Machine) : EStateM.Result Failure Machine (List String) → Prop
  /-- There is no builtin of this name. -/
  | unknown (none : machine.builtin? name = none) :
      Concludes parse? name sources machine (.error (.unknownBuiltin name) machine)
  /-- An argument is no document, and those before it are documents. -/
  | badArgument (builtin : Builtin) (before behind : List String) (source : String)
      (after : Machine) (found : machine.builtin? name = some builtin)
      (split : sources = before ++ source :: behind)
      (documents : ∀ earlier ∈ before, ∃ json, parse? earlier = some json)
      (none : parse? source = none) :
      Concludes parse? name sources machine (.error (.badArgument before.length) after)
  /-- The builtin fails on what the documents become. -/
  | raised (builtin : Builtin) (documents : List Json) (arguments : List Value) (error : Error)
      (middle after : Machine) (found : machine.builtin? name = some builtin)
      (parsed : sources.map parse? = documents.map some)
      (receives : Receives middle name 0 documents arguments)
      (called : calling builtin arguments middle = .error (.error error) after) :
      Concludes parse? name sources machine (.error (.language error) after)
  /-- The builtin gives a result on what the documents become. -/
  | given (builtin : Builtin) (documents : List Json) (arguments : List Value) (result : Value)
      (middle after : Machine) (lines : List String) (found : machine.builtin? name = some builtin)
      (parsed : sources.map parse? = documents.map some)
      (receives : Receives middle name 0 documents arguments)
      (called : calling builtin arguments middle = .ok result after) :
      Concludes parse? name sources machine (.ok lines after)

section Invoking

variable {parse? : String → Option Json} {style : Style} {name : String} {sources : List String}
  {machine middle after : Machine} {builtin : Builtin} {arguments : List Value}

/-- What follows a reading of the machine runs on the same machine. -/
theorem get_bind {α : Type} (next : Machine → EStateM Failure Machine α) (machine : Machine) :
    (get >>= next) machine = next machine machine :=
  rfl

theorem invoke_of_unknown (none : machine.builtin? name = none) :
    invoke parse? style name sources machine = .error (.unknownBuiltin name) machine := by
  rw [invoke, get_bind, none]
  rfl

variable (found : machine.builtin? name = some builtin)

include found

theorem invoke_of_refused {failure : Failure}
    (refused : readArguments parse? name 0 sources machine = .error failure after) :
    invoke parse? style name sources machine = .error failure after := by
  rw [invoke, get_bind, found]
  simp only [Bind.bind, EStateM.bind, refused]

variable (read : readArguments parse? name 0 sources machine = .ok arguments middle)

include read

theorem invoke_of_failed {error : Error}
    (failed : calling builtin arguments middle = .error (.error error) after) :
    invoke parse? style name sources machine = .error (.language error) after := by
  simp only [calling, Bind.bind, EStateM.bind] at failed
  rw [invoke, get_bind, found]
  simp only [Bind.bind, EStateM.bind, read, run, failed]

theorem invoke_of_called {result : Value}
    (called : calling builtin arguments middle = .ok result after) :
    ∃ lines, invoke parse? style name sources machine = .ok lines after := by
  simp only [calling, Bind.bind, EStateM.bind] at called
  rw [invoke, get_bind, found]
  simp only [Bind.bind, EStateM.bind, read, run, called]
  exact ⟨_, rfl⟩

end Invoking

theorem concludes_invoke {parse? : String → Option Json} (parses : Json.Parses parse?)
    (style : Style) (name : String) (sources : List String)
    (short : ∀ source ∈ sources, source.length < 2 ^ 63) :
    Concludes parse? name sources Machine.standard
      (invoke parse? style name sources Machine.standard) := by
  cases found : Machine.standard.builtin? name with
  | none =>
      rw [invoke_of_unknown found]
      exact .unknown found
  | some builtin =>
      obtain ⟨function, native⟩ := Machine.exists_standard_of_builtin? found
      have admits := admits_readArguments parse? name 0 sources Machine.standard
      cases read : readArguments parse? name 0 sources Machine.standard with
      | error failure after =>
          rw [invoke_of_refused found read]
          rw [read] at admits
          cases admits with
          | refused before behind source index after split counted documents none =>
              rw [counted, Nat.zero_add]
              exact .badArgument builtin before behind source after found split documents none
      | ok arguments middle =>
          rw [read] at admits
          cases admits with
          | admitted documents arguments cells middle parsed makes each =>
              have receives := receives_of_representsAll each (distinct_of_parsed parses parsed)
              have ordinary := ordinaryOn_calling native fun cell first =>
                exists_items_of_receives parses parsed short receives first
              cases called : calling builtin arguments middle with
              | ok result after =>
                  obtain ⟨lines, given⟩ := invoke_of_called found read called
                  rw [given]
                  exact .given builtin documents arguments result middle after lines found parsed
                    receives called
              | error stop after =>
                  obtain ⟨error, rfl⟩ := ordinary stop after called
                  rw [invoke_of_failed found read called]
                  exact .raised builtin documents arguments error middle after found parsed
                    receives called

/-- Every document with different names in each object becomes a value on every machine, also as an
index: an array with its items in order, and an object with an entry for each member.  So, however
texts are read as such documents, a command fails only because there is no such builtin, because an
argument is no document, or because the builtin fails.  Texts have fewer than `2 ^ 63` characters,
as all have that can be held. -/
theorem every_document_converts (parse? : String → Option Json) (parses : Json.Parses parse?)
    (json : Json) (machine : Machine) (style : Style) (name : String) (sources : List String)
    (short : ∀ source ∈ sources, source.length < 2 ^ 63) :
    (∃ value after, Act.convert json.toDatum machine = .ok value after ∧
      (json.Distinct → Stands after json value)) ∧
    (∃ value after, Act.convert json.toIndex machine = .ok value after ∧
      (json.Distinct → StandsIndex after json value)) ∧
    Concludes parse? name sources Machine.standard
      (invoke parse? style name sources Machine.standard) :=
  ⟨Act.exists_convert_toDatum json machine, Act.exists_convert_toIndex json machine,
    concludes_invoke parses style name sources short⟩

/-- The index of a deletion is no document, and is refused although the list before it is one. -/
theorem unfinished_index_is_refused :
    let sources := ["[10, 20]", "[0"]
    Json.Parses Json.parse? ∧ (∀ source ∈ sources, source.length < 2 ^ 63) ∧
      ∃ after, invoke Json.parse? .plain deleting sources Machine.standard =
        .error (.badArgument 1) after := by
  intro sources
  have short : ∀ source ∈ sources, source.length < 2 ^ 63 := by decide
  have known : (Machine.standard.builtin? deleting).isSome = true := by decide +kernel
  have list : (Json.parse? "[10, 20]").isSome = true := by decide +kernel
  have unfinished : (Json.parse? "[0").isSome = false := by decide +kernel
  have noDocuments : ∀ documents : List Json,
      sources.map Json.parse? ≠ documents.map some := by
    intro documents parsed
    have among : Json.parse? "[0" ∈ documents.map some := by
      rw [← parsed]
      exact .tail _ (.head _)
    obtain ⟨json, -, same⟩ := List.mem_map.mp among
    rw [← same] at unfinished
    cases unfinished
  refine ⟨Json.parses_parse?, short, ?_⟩
  have concludes := (every_document_converts Json.parse? Json.parses_parse? .null {} .plain deleting
    sources short).2.2
  generalize invoke Json.parse? .plain deleting sources Machine.standard = outcome at concludes
  cases concludes with
  | unknown none =>
      rw [none] at known
      cases known
  | badArgument builtin before behind source after found split documents none =>
      cases before with
      | nil =>
          obtain ⟨same, -⟩ := List.cons.inj split
          rw [same, none] at list
          cases list
      | cons first others =>
          have counted := congrArg List.length split
          have single : others.length = 0 := by
            simp only [sources, List.length_append, List.length_cons, List.length_nil] at counted
            omega
          exact ⟨after, by rw [List.length_cons, single]⟩
  | raised builtin documents _ _ _ _ _ parsed => exact absurd parsed (noDocuments documents)
  | given builtin documents _ _ _ _ _ _ parsed => exact absurd parsed (noDocuments documents)

end CommandLine

end ScriptCore
