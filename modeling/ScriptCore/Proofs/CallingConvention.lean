import ScriptCore.Proofs.Scoping
import ScriptCore.Proofs.Evaluation

/-!
# The calling convention

A call is refused for the number of its arguments before anything is evaluated.  Otherwise the
parameters left without an argument get the values of their defaults, evaluated in order where
the function was made, and the body runs in a new frame that binds the parameters and nothing
else.  That no default gets at the new frame is what makes the last part true: the frame is
secluded until the body runs.
-/

namespace ScriptCore

open Relation

namespace Names

/-- Bind names one after the other. -/
def bindAll (names : Names) (pairs : List (Str × Value)) : Names :=
  pairs.foldl (fun bound pair => bound.insert pair.1 pair.2) names

theorem bindAll_append (names : Names) (pairs more : List (Str × Value)) :
    names.bindAll (pairs ++ more) = (names.bindAll pairs).bindAll more :=
  List.foldl_append

theorem zip_append (params : List Str) (arguments values : List Value) :
    params.zip (arguments ++ values) =
      params.zip arguments ++ (params.drop arguments.length).zip values := by
  induction arguments generalizing params with
  | nil => simp
  | cons argument rest ih =>
      cases params with
      | nil => simp
      | cons param params => simp [ih]

/-- The value that stands last with a name. -/
def lastOf (pairs : List (Str × Value)) (name : String) : Option Value :=
  ((pairs.filter fun pair => pair.1.text == name).getLast?).map Prod.snd

theorem find?_bindAll (names : Names) (pairs : List (Str × Value)) (name : String) :
    (names.bindAll pairs).find? name = (lastOf pairs name <|> names.find? name) := by
  induction pairs generalizing names with
  | nil => rfl
  | cons pair rest ih =>
      have first : names.bindAll (pair :: rest) = (names.insert pair.1 pair.2).bindAll rest := rfl
      rw [first, ih, find?_insert]
      by_cases same : pair.1.text = name
      · cases later : (rest.filter fun pair => pair.1.text == name).getLast? <;>
          simp [lastOf, same, List.getLast?_cons, later]
      · simp [lastOf, same]

end Names

namespace FunctionCell

/-- The numbers of arguments that a call may have. -/
def Accepts (function : FunctionCell) (given : Nat) : Prop :=
  function.params.length - function.defaults.length ≤ given ∧ given ≤ function.params.length

/-- The parameters left without an argument, each with its default: as many of the defaults, from
the last one back. -/
def missing (function : FunctionCell) (given : Nat) : List (Str × Expr) :=
  (function.params.drop given).zip
    (function.defaults.drop (function.defaults.length - (function.params.length - given)))

section Missing

variable {function : FunctionCell} {given : Nat}

theorem length_drop_defaults (fits : function.defaults.length ≤ function.params.length)
    (accepts : function.Accepts given) :
    (function.defaults.drop
      (function.defaults.length - (function.params.length - given))).length =
        function.params.length - given := by
  obtain ⟨enough, -⟩ := accepts
  rw [List.length_drop]
  omega

theorem length_missing (fits : function.defaults.length ≤ function.params.length)
    (accepts : function.Accepts given) :
    (function.missing given).length = function.params.length - given := by
  rw [missing, List.length_zip, length_drop_defaults fits accepts, List.length_drop, min_self]

theorem map_fst_missing (fits : function.defaults.length ≤ function.params.length)
    (accepts : function.Accepts given) :
    (function.missing given).map Prod.fst = function.params.drop given := by
  apply List.map_fst_zip
  rw [length_drop_defaults fits accepts, List.length_drop]

/-- The default of a missing parameter stands as far behind the first default as the parameter
behind the first that has one. -/
theorem getElem?_missing (fits : function.defaults.length ≤ function.params.length)
    (accepts : function.Accepts given) {index : Nat} (after : given ≤ index)
    (inside : index < function.params.length) :
    function.required ≤ index ∧ ∃ param default,
      function.params[index]? = some param ∧
      function.defaults[index - function.required]? = some default ∧
      (function.missing given)[index - given]? = some (param, default) := by
  have enough : function.required ≤ given := accepts.1
  have needed : function.required = function.params.length - function.defaults.length := rfl
  have range : index - function.required < function.defaults.length := by omega
  have place : function.defaults.length - (function.params.length - given) + (index - given) =
      index - function.required := by omega
  refine ⟨by omega, function.params[index], function.defaults[index - function.required],
    List.getElem?_eq_getElem inside, List.getElem?_eq_getElem range, ?_⟩
  rw [missing, List.getElem?_zip_eq_some, List.getElem?_drop, List.getElem?_drop, place,
    Nat.add_sub_cancel' after]
  exact ⟨List.getElem?_eq_getElem inside, List.getElem?_eq_getElem range⟩

theorem checkArity_of_accepts (accepts : function.Accepts given) :
    function.checkArity given = .ok () := by
  have enough : ¬given < function.required := Nat.not_lt.mpr accepts.1
  simp [checkArity, Nat.not_lt.mpr accepts.2, enough]

theorem checkArity_of_not_accepts (refused : ¬function.Accepts given) :
    ∃ error, error.kind = .typeError ∧ function.checkArity given = .error error := by
  unfold checkArity
  split
  · exact ⟨_, rfl, rfl⟩
  · rename_i few
    have missing : given < function.required := by
      rw [← Nat.not_le]
      exact fun enough => refused ⟨enough, Nat.not_lt.mp few⟩
    rw [if_pos missing]
    exact ⟨_, rfl, rfl⟩

end Missing

end FunctionCell

/-- Defaults are evaluated where the function was made, one after the other, and the value of each
is bound in the frame of the call before the next. -/
inductive Fills (evaluator : Evaluator) (defining frame : CellId) :
    List (Str × Expr) → List Value → Machine → Machine → Prop
  | done (machine : Machine) : Fills evaluator defining frame [] [] machine machine
  | next {param : Str} {default : Expr} {value : Value} {rest : List (Str × Expr)}
      {values : List Value} {before middle after : Machine}
      (evaluated : evaluator.expr default defining before = .ok value middle)
      (onward : Fills evaluator defining frame rest values (middle.define frame param value)
        after) :
      Fills evaluator defining frame ((param, default) :: rest) (value :: values) before after

namespace Machine

/-- The machine in which the arguments of a call are bound. -/
def entering (machine : Machine) (function : FunctionCell) (arguments : List Value) : Machine :=
  (function.params.zip arguments).foldl
    (fun entered pair => entered.define machine.heap.size pair.1 pair.2)
    (machine.calling function)

/-- What a call comes to: its frame is released, while its result is held. -/
def returning (machine : Machine) :
    EStateM.Result Stop Machine Value → EStateM.Result Stop Machine Value
  | .ok value after =>
      .ok value
        { ({ after with held := .value value :: after.held } : Machine).release
            machine.heap.size with
          held := machine.held }
  | .error stop after =>
      .error stop { after.release machine.heap.size with held := machine.held }

/-- The machine on which a new object of a class is initialised. -/
def initialising (machine : Machine) (cls code : CellId) : Machine :=
  { machine with
    heap := (machine.heap.alloc (.object { classCell := cls, attributes := [] })).2
    held := .cell code :: .cell machine.heap.size :: machine.held }

/-- What making an object comes to: the object, whatever its initialisation gave. -/
def initialised (machine : Machine) :
    EStateM.Result Stop Machine Value → EStateM.Result Stop Machine Value
  | .ok _ after => .ok (.object machine.heap.size) { after with held := machine.held }
  | .error stop after => .error stop { after with held := machine.held }

/-- What a call with a fitting number of arguments comes to. -/
inductive Comes (evaluator : Evaluator) (machine : Machine) (function : FunctionCell)
    (arguments : List Value) : EStateM.Result Stop Machine Value → Prop
  /-- All missing defaults have values, and the body runs in the frame of the call. -/
  | ran (values : List Value) (ready : Machine)
      (filled : Fills evaluator function.defining machine.heap.size
        (function.missing arguments.length) values (machine.entering function arguments) ready)
      (inside : ready.heap.parent? machine.heap.size = some function.defining)
      (bound : ∀ name, (ready.localsOf machine.heap.size).find? name =
        Names.lastOf (function.params.zip (arguments ++ values)) name) :
      Comes evaluator machine function arguments
        (machine.returning (evaluator.body function.body machine.heap.size ready))
  /-- A default fails after those before it had values. -/
  | stopped (done later : List (Str × Expr)) (param : Str) (default : Expr)
      (values : List Value) (middle after : Machine) (stop : Stop)
      (split : function.missing arguments.length = done ++ (param, default) :: later)
      (filled : Fills evaluator function.defining machine.heap.size done values
        (machine.entering function arguments) middle)
      (failed : evaluator.expr default function.defining middle = .error stop after) :
      Comes evaluator machine function arguments (machine.returning (.error stop after))

/-- The convention that calls of a function follow. -/
structure Conforms (evaluator : Evaluator) (machine : Machine) (code : CellId)
    (function : FunctionCell) (arguments : List Value) : Prop where
  /-- A call that fails with a type error, whatever expressions and blocks would do, has too many
  or too few arguments. -/
  refused_iff : (∃ error after, error.kind = .typeError ∧
      ∀ other, Act.callFunction other code arguments machine = .error (.error error) after) ↔
    function.params.length < arguments.length ∨
      arguments.length < function.params.length - function.defaults.length
  /-- The frame of the call is a new one. -/
  fresh : machine.heap.get? machine.heap.size = none
  comes : function.Accepts arguments.length →
    Comes evaluator machine function arguments
      (Act.callFunction evaluator code arguments machine)

end Machine

namespace Act

section Parameters

variable {evaluator : Evaluator} {function : FunctionCell} {arguments : List Value}

theorem bindArguments_eq (frame : CellId) (pairs : List (Str × Value)) (machine : Machine) :
    bindArguments frame pairs machine =
      .ok () (pairs.foldl (fun bound pair => bound.define frame pair.1 pair.2) machine) := by
  induction pairs generalizing machine with
  | nil => rfl
  | cons pair rest ih => exact ih (machine.define frame pair.1 pair.2)

/-- Defaults all have values, or one of them fails and those after it are left alone. -/
theorem bindDefaults_cases (evaluator : Evaluator) (defining frame : CellId)
    (pairs : List (Str × Expr)) (machine : Machine) :
    (∃ values after, Fills evaluator defining frame pairs values machine after ∧
      bindDefaults evaluator defining frame pairs machine = .ok () after) ∨
    ∃ done later param default values middle after stop,
      pairs = done ++ (param, default) :: later ∧
      Fills evaluator defining frame done values machine middle ∧
      evaluator.expr default defining middle = .error stop after ∧
      bindDefaults evaluator defining frame pairs machine = .error stop after := by
  induction pairs generalizing machine with
  | nil => exact Or.inl ⟨[], machine, .done machine, rfl⟩
  | cons pair rest ih =>
      obtain ⟨param, default⟩ := pair
      have start : bindDefaults evaluator defining frame ((param, default) :: rest) machine =
          match evaluator.expr default defining machine with
          | .ok value middle =>
              bindDefaults evaluator defining frame rest (middle.define frame param value)
          | .error stop after => .error stop after := by
        rw [bindDefaults]
        simp only [bind, EStateM.bind]
        cases evaluator.expr default defining machine <;> rfl
      rw [start]
      cases evaluated : evaluator.expr default defining machine with
      | error stop after =>
          exact Or.inr ⟨[], rest, param, default, [], machine, after, stop, rfl, .done machine,
            evaluated, rfl⟩
      | ok value middle =>
          rcases ih (middle.define frame param value) with
            ⟨values, after, filled, bound⟩ |
            ⟨done, later, other, further, values, last, after, stop, split, filled, failed, bound⟩
          · exact Or.inl ⟨value :: values, after, .next evaluated filled, bound⟩
          · exact Or.inr ⟨(param, default) :: done, later, other, further, value :: values, last,
              after, stop, by rw [split, List.cons_append], .next evaluated filled, failed, bound⟩

theorem bindParams_of_accepts (fits : function.defaults.length ≤ function.params.length)
    (accepts : function.Accepts arguments.length) (machine : Machine) :
    bindParams evaluator function machine.heap.size arguments (machine.calling function) =
      bindDefaults evaluator function.defining machine.heap.size
        (function.missing arguments.length) (machine.entering function arguments) := by
  have place : arguments.length - function.required =
      function.defaults.length - (function.params.length - arguments.length) := by
    obtain ⟨enough, most⟩ := accepts
    rw [FunctionCell.required]
    omega
  have start : bindParams evaluator function machine.heap.size arguments
        (machine.calling function) =
      EStateM.bind (bindArguments machine.heap.size (function.params.zip arguments))
        (fun _ => bindDefaults evaluator function.defining machine.heap.size
          (function.missing arguments.length)) (machine.calling function) := by
    rw [bindParams, FunctionCell.checkArity_of_accepts accepts, place]
    rfl
  rw [start, EStateM.bind, bindArguments_eq]
  rfl

variable {code : CellId} {machine : Machine}

theorem callFunction_eq_returning (found : machine.heap.function? code = some function) :
    callFunction evaluator code arguments machine =
      machine.returning ((do
        bindParams evaluator function machine.heap.size arguments
        evaluator.body function.body machine.heap.size : Act Value)
          (machine.calling function)) := by
  rw [callFunction_of_function? found]
  generalize (do
      bindParams evaluator function machine.heap.size arguments
      evaluator.body function.body machine.heap.size : Act Value) (machine.calling function) =
    result
  cases result <;> rfl

theorem exists_refusal (found : machine.heap.function? code = some function)
    (refused : ¬function.Accepts arguments.length) :
    ∃ error after, error.kind = .typeError ∧
      ∀ evaluator, callFunction evaluator code arguments machine =
        .error (.error error) after := by
  obtain ⟨error, kind, failed⟩ := FunctionCell.checkArity_of_not_accepts refused
  refine ⟨error, { (machine.calling function).release machine.heap.size with held := machine.held },
    kind, fun evaluator => ?_⟩
  rw [callFunction_eq_returning found, bindParams, failed]
  rfl

/-- A call with a fitting number of arguments, by what becomes of its defaults. -/
theorem callFunction_cases (found : machine.heap.function? code = some function)
    (fits : function.defaults.length ≤ function.params.length)
    (accepts : function.Accepts arguments.length) (evaluator : Evaluator) :
    (∃ values ready, Fills evaluator function.defining machine.heap.size
        (function.missing arguments.length) values (machine.entering function arguments) ready ∧
      callFunction evaluator code arguments machine =
        machine.returning (evaluator.body function.body machine.heap.size ready)) ∨
    ∃ done later param default values middle after stop,
      function.missing arguments.length = done ++ (param, default) :: later ∧
      Fills evaluator function.defining machine.heap.size done values
        (machine.entering function arguments) middle ∧
      evaluator.expr default function.defining middle = .error stop after ∧
      callFunction evaluator code arguments machine = machine.returning (.error stop after) := by
  have called : callFunction evaluator code arguments machine =
      machine.returning (EStateM.bind
        (bindDefaults evaluator function.defining machine.heap.size
          (function.missing arguments.length))
        (fun _ => evaluator.body function.body machine.heap.size)
        (machine.entering function arguments)) := by
    rw [callFunction_eq_returning found]
    simp only [bind, EStateM.bind]
    rw [bindParams_of_accepts fits accepts]
  rcases bindDefaults_cases evaluator function.defining machine.heap.size
      (function.missing arguments.length) (machine.entering function arguments) with
    ⟨values, ready, filled, bound⟩ |
    ⟨done, later, param, default, values, middle, after, stop, split, filled, failed, bound⟩
  · rw [EStateM.bind, bound] at called
    exact Or.inl ⟨values, ready, filled, called⟩
  · rw [EStateM.bind, bound] at called
    exact Or.inr ⟨done, later, param, default, values, middle, after, stop, split, filled, failed,
      called⟩

/-- What is accepted goes on to a default or to the body, so how it ends depends on these. -/
theorem callFunction_exhausted (found : machine.heap.function? code = some function)
    (fits : function.defaults.length ≤ function.params.length)
    (accepts : function.Accepts arguments.length) :
    ∃ after, callFunction .exhausted code arguments machine = .error .exhausted after := by
  rcases callFunction_cases found fits accepts .exhausted with
    ⟨values, ready, -, called⟩ | ⟨_, _, _, _, _, middle, after, stop, -, -, failed, called⟩
  · exact ⟨_, called⟩
  · cases failed
    exact ⟨_, called⟩

theorem refused_iff (found : machine.heap.function? code = some function)
    (fits : function.defaults.length ≤ function.params.length) :
    (∃ error after, error.kind = .typeError ∧
      ∀ evaluator, callFunction evaluator code arguments machine = .error (.error error) after) ↔
    function.params.length < arguments.length ∨
      arguments.length < function.params.length - function.defaults.length := by
  have refused : function.params.length < arguments.length ∨
      arguments.length < function.params.length - function.defaults.length ↔
        ¬function.Accepts arguments.length := by
    unfold FunctionCell.Accepts
    omega
  rw [refused]
  constructor
  · rintro ⟨error, after, -, always⟩ accepts
    obtain ⟨last, called⟩ := callFunction_exhausted found fits accepts
    rw [always] at called
    cases called
  · exact exists_refusal found

end Parameters

/-- A function that was made has no more defaults than parameters. -/
theorem function?_of_newFunction {defining code : CellId} {name : Str} {params : List Str}
    {defaults : List Expr} {body : Block} {before after : Machine}
    (built : newFunction defining name params defaults body before =
      .ok (.function code) after) :
    defaults.length ≤ params.length ∧
      after.heap.function? code = some { name, params, defaults, body, defining } := by
  unfold newFunction at built
  split at built
  · cases built
  · rename_i few
    cases built
    refine ⟨Nat.not_lt.mp few, Heap.function?_eq_some_iff.mpr ?_⟩
    exact (Heap.get?_alloc _ _ _).trans (if_pos rfl)

theorem instantiate_eq_initialised {evaluator : Evaluator} {cls code : CellId}
    {arguments : List Value} {machine : Machine}
    (found : (machine.initialising cls code).heap.findAttr cls Attribute.initName =
      some (.function code)) :
    instantiate evaluator cls arguments machine =
      machine.initialised (callFunction evaluator code
        (.object machine.heap.size :: arguments) (machine.initialising cls code)) := by
  have start : instantiate evaluator cls arguments machine =
      EStateM.bind (holding (.cell machine.heap.size) (do
          let _ ← holding (.cell code)
            (callFunction evaluator code (.object machine.heap.size :: arguments))))
        (fun _ => pure (.object machine.heap.size))
        { machine with
          heap := (machine.heap.alloc (.object { classCell := cls, attributes := [] })).2 } := by
    have found : (machine.heap.alloc (.object { classCell := cls, attributes := [] })).2.findAttr
        cls Attribute.initName = some (.function code) := found
    rw [instantiate, newObject, alloc_bind, heap_bind, found]
    rfl
  rw [start]
  simp only [EStateM.bind, holding, bind, pure, Machine.initialising]
  generalize callFunction evaluator code (.object machine.heap.size :: arguments) _ = result
  cases result <;> rfl

end Act

theorem Machine.Secludes.setLocals {machine : Machine} {hidden : CellId}
    (secludes : machine.Secludes hidden) (target : CellId) (names : Names) :
    (machine.setLocals target names).Secludes hidden := by
  have isFrame : ((machine.setLocals target names).heap.frame? hidden).isSome = true :=
    (machine.frame?_isSome_setLocals target names hidden).trans secludes.isFrame
  obtain ⟨-, same⟩ | ⟨captured, -, same⟩ | ⟨parent, bindings, captured, found, same⟩ :=
    machine.setLocals_cases target names
  · rw [same]
    exact secludes
  · rw [same]
    exact ⟨secludes.isFrame, secludes.held, secludes.unlinked, secludes.unkept⟩
  · rw [same] at isFrame ⊢
    refine secludes.of_links isFrame secludes.held (fun id cell stored link => ?_)
      fun _ listed _ => listed
    have stored : (machine.heap.set target _).get? id = some cell := stored
    rw [Heap.get?_set] at stored
    split at stored
    · cases stored
      exact ⟨target, _, Heap.frame?_eq_some_iff.mp found, link⟩
    · exact ⟨id, cell, stored, link⟩

namespace Activity

/-- A call is getting ready: nothing but the call itself can get at its frame, which binds so far
what is described. -/
structure Prepares (activity : Activity) (frame defining : CellId) (names : Names) : Prop where
  proper : activity.Proper
  secludes : activity.machine.Secludes frame
  content : ∃ captured,
    activity.machine.heap.frame? frame = some { scope := .nested defining names, captured }

section Preparing

variable {activity : Activity} {frame defining : CellId} {names : Names}

theorem Prepares.parent? (prepares : activity.Prepares frame defining names) :
    activity.machine.heap.parent? frame = some defining := by
  obtain ⟨captured, found⟩ := prepares.content
  simp [Heap.parent?, found, Frame.parent?]

theorem Prepares.localsOf (prepares : activity.Prepares frame defining names) :
    activity.machine.localsOf frame = names := by
  obtain ⟨captured, found⟩ := prepares.content
  simp [Machine.localsOf, found]

theorem Prepares.stands (prepares : activity.Prepares frame defining names) :
    activity.Stands defining :=
  ⟨frame, prepares.secludes.held, prepares.secludes.isFrame, .single prepares.parent?⟩

theorem Prepares.define (prepares : activity.Prepares frame defining names) (param : Str)
    {value : Value} (owns : activity.Owns value) :
    ∃ after : Activity, after.machine = activity.machine.define frame param value ∧
      after.Prepares frame defining (names.insert param value) ∧
      ∀ other, activity.Owns other → after.Owns other := by
  have known : activity.Knows frame := .of_mem (mem_starts_of_held prepares.secludes.held)
  have becomes : activity.Becomes (fun _ => True) true
      (activity.machine.define frame param value) _ :=
    becomes_rename prepares.proper known trivial fun stored member => by
      rcases Names.mem_values_of_insert member with old | rfl
      · exact Or.inl old
      · exact Or.inr owns
  refine ⟨_, becomes.machine_eq, ⟨becomes.proper prepares.proper, ?_, ?_⟩, becomes.keeps rfl⟩
  · rw [becomes.machine_eq]
    exact prepares.secludes.setLocals frame _
  · rw [becomes.machine_eq]
    obtain ⟨captured, found⟩ := prepares.content
    refine ⟨captured, ?_⟩
    rw [Machine.define, prepares.localsOf, Machine.setLocals, found]
    exact (Machine.frame?_set_frame found frame).trans (if_pos rfl)

/-- The arguments are bound one after the other. -/
theorem Prepares.bindAll (prepares : activity.Prepares frame defining names)
    {pairs : List (Str × Value)} (owned : ∀ pair ∈ pairs, activity.Owns pair.2) :
    ∃ after : Activity,
      after.machine =
        pairs.foldl (fun bound pair => bound.define frame pair.1 pair.2) activity.machine ∧
      after.Prepares frame defining (names.bindAll pairs) := by
  induction pairs generalizing activity names with
  | nil => exact ⟨activity, rfl, prepares⟩
  | cons pair rest ih =>
      obtain ⟨middle, machine, ready, kept⟩ :=
        prepares.define pair.1 (owned pair List.mem_cons_self)
      obtain ⟨after, last, done⟩ := ih ready fun other member =>
        kept other.2 (owned other (List.mem_cons_of_mem _ member))
      rw [machine] at last
      exact ⟨after, last, done⟩

/-- A default leaves the frame of the call alone. -/
theorem Prepares.evaluate {evaluator : Evaluator} (behaves : evaluator.Behaves)
    (prepares : activity.Prepares frame defining names) {default : Expr} {value : Value}
    {machine : Machine}
    (evaluated : evaluator.expr default defining activity.machine = .ok value machine) :
    ∃ after : Activity, after.machine = machine ∧ after.Prepares frame defining names ∧
      after.Owns value := by
  have conducts := behaves.expr default prepares.proper prepares.stands
  rw [Act.Conducts, evaluated] at conducts
  obtain ⟨after, becomes, owns⟩ := conducts
  -- The call's frame links to the defining one, so these are two.
  have apart : ¬defining = frame := by
    rintro rfl
    obtain ⟨captured, found⟩ := prepares.content
    exact prepares.secludes.unlinked defining _ (Heap.frame?_eq_some_iff.mp found) rfl
  obtain ⟨secludes, same⟩ := becomes.respects frame apart prepares.secludes
  refine ⟨after, becomes.machine_eq, ⟨becomes.proper prepares.proper, secludes, ?_⟩, owns⟩
  obtain ⟨captured, found⟩ := prepares.content
  refine ⟨captured, ?_⟩
  rw [Heap.frame?_eq_some_iff] at found ⊢
  exact same.trans found

/-- When all missing parameters have values, the frame of the call binds them besides what it bound
before. -/
theorem Prepares.fill {evaluator : Evaluator} (behaves : evaluator.Behaves)
    {pairs : List (Str × Expr)} {values : List Value} {machine ready : Machine}
    (filled : Fills evaluator defining frame pairs values machine ready)
    (start : activity.machine = machine) (prepares : activity.Prepares frame defining names) :
    ∃ after : Activity, after.machine = ready ∧
      after.Prepares frame defining (names.bindAll ((pairs.map Prod.fst).zip values)) := by
  induction filled generalizing activity names with
  | done machine => exact ⟨activity, start, prepares⟩
  | @next param default value rest values before middle after evaluated _ ih =>
      obtain ⟨reached, machine, still, owns⟩ := prepares.evaluate behaves (start ▸ evaluated)
      obtain ⟨defined, machineDefined, bound, -⟩ := still.define param owns
      rw [machine] at machineDefined
      exact ih machineDefined bound

/-- When its arguments are bound, a call has made ready what they give it. -/
theorem exists_prepares (proper : activity.Proper) {code : CellId} {function : FunctionCell}
    (found : activity.machine.heap.function? code = some function)
    (known : activity.Knows code) {arguments : List Value}
    (owned : ∀ argument ∈ arguments, activity.Owns argument) :
    ∃ begun : Activity, begun.machine = activity.machine.entering function arguments ∧
      begun.Prepares activity.machine.heap.size function.defining
        (Names.bindAll [] (function.params.zip arguments)) := by
  obtain ⟨begun, -, properBegun, machine, -, -, -, -, ownedBegun⟩ :=
    exists_call proper found known
  have new : begun.machine.heap.frame? activity.machine.heap.size =
      some { scope := .nested function.defining [] } := by
    rw [machine, Machine.frame?_calling, if_pos rfl]
  -- What was there before leads to frames that were there before.
  have older : (activity.machine.heap.frame? activity.machine.heap.size).isSome ≠ true :=
    fun isFrame => Nat.lt_irrefl _ (Grows.lt_size_of_frame? isFrame)
  have secludes : begun.machine.Secludes activity.machine.heap.size := by
    refine ⟨by rw [new]; rfl, ?_, ?_, ?_⟩
    · rw [machine]
      exact List.mem_cons_self
    · intro id cell stored link
      rw [machine, Machine.calling, Heap.get?_alloc] at stored
      split at stored
      · cases stored
        have same : function.defining = activity.machine.heap.size := Option.some.inj link
        have made := Heap.function?_eq_some_iff.mp found
        exact older (same ▸ proper.sound.linked code _ function.defining made rfl)
      · exact older (proper.sound.linked id cell _ stored link)
    · intro handle listed same
      rw [machine] at listed
      exact older (same ▸ proper.typed.handles handle listed)
  have ready : begun.Prepares activity.machine.heap.size function.defining [] :=
    ⟨properBegun, secludes, false, new⟩
  obtain ⟨after, last, prepares⟩ := ready.bindAll
    fun pair (member : pair ∈ function.params.zip arguments) =>
      ownedBegun pair.2 (owned pair.2 (List.of_mem_zip member).2)
  rw [machine] at last
  exact ⟨after, last, prepares⟩

end Preparing

theorem Step.function?_eq {before after : Activity} (step : Step before after)
    (sound : before.Sound) {id : CellId} {function : FunctionCell}
    (found : before.machine.heap.function? id = some function)
    (present : after.machine.heap.contains id = true) :
    after.machine.heap.function? id = some function := by
  have tidied : ∀ {after}, Tidies before after → after.machine.heap.contains id = true →
      after.machine.heap.function? id = some function := by
    intro after tidies present
    rw [Heap.function?_eq_some_iff] at found ⊢
    rcases tidies.spares.cell id with same | gone | ⟨-, frame, was, -⟩
    · exact same.trans found
    · simp [Heap.contains, gone] at present
    · rw [found] at was
      cases was
  have inside : id ≠ before.machine.heap.size :=
    Nat.ne_of_lt (Heap.lt_size_of_get? (Heap.function?_eq_some_iff.mp found))
  cases step with
  | move machine hand heap =>
      show machine.heap.function? id = some function
      rw [heap]
      exact found
  | make cell =>
      rw [Heap.function?_eq_some_iff] at found ⊢
      exact (Heap.get?_alloc _ _ _).trans ((if_neg inside).trans found)
  | write target old new stored known plain =>
      rw [Heap.function?_eq_some_iff] at found ⊢
      refine (Heap.get?_set _ _ _ _).trans ((if_neg ?_).trans found)
      rintro ⟨rfl, -⟩
      rw [found] at stored
      cases stored
      cases plain.1
  | rename frame names =>
      rw [Heap.function?_eq_some_iff] at found ⊢
      show (before.machine.setLocals frame names).heap.get? id = _
      obtain ⟨-, same⟩ | ⟨captured, -, same⟩ | ⟨parent, bindings, captured, stored, same⟩ :=
        before.machine.setLocals_cases frame names
      · rw [same]
        exact found
      · rw [same]
        exact found
      · rw [same]
        refine (Heap.get?_set _ _ _ _).trans ((if_neg ?_).trans found)
        rintro ⟨rfl, -⟩
        rw [Heap.frame?_eq_some_iff, found] at stored
        cases stored
  | capture frame =>
      rw [Heap.function?_eq_some_iff] at found ⊢
      rcases Heap.get?_capture before.machine.heap frame id with same | ⟨content, was, -⟩
      · exact same.trans found
      · rw [found] at was
        cases was
  | call code callee =>
      rw [Heap.function?_eq_some_iff] at found ⊢
      exact (Heap.get?_alloc _ _ _).trans ((if_neg inside).trans found)
  | finish frame rest held running handle =>
      exact tidied (tidies_afterCall sound running handle) present
  | collect => exact tidied (tidies_collect sound) present
  | settle => exact tidied (tidies_settle sound) present

/-- A function stays what it is as long as it exists. -/
theorem function?_of_steps {before after : Activity} (sound : before.Sound)
    (steps : ReflTransGen Step before after) {id : CellId} {function : FunctionCell}
    (found : before.machine.heap.function? id = some function)
    (present : after.machine.heap.contains id = true) :
    after.machine.heap.function? id = some function := by
  induction steps with
  | refl => exact found
  | @tail middle after first step ih =>
      have soundMiddle := sound_of_steps sound first
      have made : id < middle.machine.heap.size :=
        Nat.lt_of_lt_of_le (Heap.lt_size_of_get? (Heap.function?_eq_some_iff.mp found))
          (size_le_of_steps sound first)
      have still : middle.machine.heap.contains id = true := by
        rcases step.grows_or_tidies soundMiddle with grows | tidies
        · exact grows.contains_eq made ▸ present
        · exact Heap.Tidied.contains tidies.spares present
      exact step.function?_eq soundMiddle (ih still) present

/-- A known function called with values that can be passed on follows the convention. -/
theorem conforms {evaluator : Evaluator} (behaves : evaluator.Behaves) {activity : Activity}
    (proper : activity.Proper) {code : CellId} {function : FunctionCell}
    (found : activity.machine.heap.function? code = some function)
    (known : activity.Knows code) (fits : function.defaults.length ≤ function.params.length)
    {arguments : List Value} (owned : ∀ argument ∈ arguments, activity.Owns argument) :
    activity.machine.Conforms evaluator code function arguments where
  refused_iff := Act.refused_iff found fits
  fresh := activity.machine.heap.get?_size
  comes accepts := by
    rcases Act.callFunction_cases found fits accepts evaluator with
      ⟨values, ready, filled, called⟩ |
      ⟨done, later, param, default, values, middle, after, stop, split, filled, failed, called⟩
    · obtain ⟨begun, start, prepares⟩ := exists_prepares proper found known owned
      obtain ⟨after, rfl, bound⟩ := prepares.fill behaves filled start
      rw [called]
      refine .ran values _ filled bound.parent? fun name => ?_
      rw [bound.localsOf, FunctionCell.map_fst_missing fits accepts, ← Names.bindAll_append,
        ← Names.zip_append, Names.find?_bindAll]
      simp [Names.find?]
    · rw [called]
      exact .stopped done later param default values middle after stop split filled failed

/-- A new object can be passed on while it is initialised. -/
theorem exists_initialising {activity : Activity} (proper : activity.Proper) {cls code : CellId}
    (owns : activity.Owns (.classObject cls)) (ownsCode : activity.Owns (.function code)) :
    ∃ begun : Activity, begun.machine = activity.machine.initialising cls code ∧ begun.Proper ∧
      begun.Owns (.object activity.machine.heap.size) ∧
      ∀ value, activity.Owns value → begun.Owns value := by
  have conducts : Act.Conducts (fun _ => True) true (Act.newObject cls)
      (fun after id => after.Owns (.object id)) activity := Act.conducts_newObject proper owns
  obtain ⟨made, becomes, ownsObject⟩ := conducts
  have ownedMade := becomes.keeps rfl
  obtain ⟨holding, -, properHolding, machineHolding, -, ownedHolding⟩ :=
    @exists_holding made (.cell activity.machine.heap.size) (becomes.proper proper)
      (fun value member => absurd member List.not_mem_nil) ownsObject.known
  obtain ⟨begun, -, properBegun, machineBegun, -, ownedBegun⟩ :=
    @exists_holding holding (.cell code) properHolding
      (fun value member => absurd member List.not_mem_nil)
      (ownedHolding _ (ownedMade _ ownsCode)).known
  refine ⟨begun, ?_, properBegun, ownedBegun _ (ownedHolding _ ownsObject), fun value owns =>
    ownedBegun _ (ownedHolding _ (ownedMade value owns))⟩
  rw [machineBegun, machineHolding, becomes.machine_eq]
  rfl

/-- Every function that was made is called by the same rules, directly, through a method and to
initialise an object: the number of arguments decides first, the missing defaults are evaluated
next, and the body runs last, in a frame of its own that binds the parameters alone. -/
theorem calls_follow_the_convention {made activity : Activity} {before : Machine}
    {defining code : CellId} {name : Str} {params : List Str} {defaults : List Expr} {body : Block}
    (run : made.Reachable)
    (built : Act.newFunction defining name params defaults body before =
      .ok (.function code) made.machine)
    (steps : ReflTransGen Step made activity) (proper : activity.Proper)
    (known : activity.Knows code) (evaluator : Evaluator) (behaves : evaluator.Behaves)
    (caller : CellId) (arguments : List Value)
    (owned : ∀ argument ∈ arguments, activity.Owns argument) :
    let function : FunctionCell := { name, params, defaults, body, defining }
    defaults.length ≤ params.length ∧
    (∀ given, function.Accepts given →
      (function.missing given).length = params.length - given ∧
      ∀ index, given ≤ index → index < params.length →
        function.required ≤ index ∧ ∃ param default, params[index]? = some param ∧
          defaults[index - function.required]? = some default ∧
          (function.missing given)[index - given]? = some (param, default)) ∧
    (Act.call evaluator caller (.function code) arguments activity.machine =
        Act.callFunction evaluator code arguments activity.machine ∧
      activity.machine.Conforms evaluator code function arguments) ∧
    (∀ cell receiver, activity.Owns (.method cell receiver code) →
      Act.call evaluator caller (.method cell receiver code) arguments activity.machine =
        Act.callFunction evaluator code (.object receiver :: arguments) activity.machine ∧
      activity.machine.Conforms evaluator code function (.object receiver :: arguments)) ∧
    ∀ cls, activity.Owns (.classObject cls) →
      (activity.machine.initialising cls code).heap.findAttr cls Attribute.initName =
        some (.function code) →
      Act.call evaluator caller (.classObject cls) arguments activity.machine =
        activity.machine.initialised (Act.callFunction evaluator code
          (.object activity.machine.heap.size :: arguments)
          (activity.machine.initialising cls code)) ∧
      (activity.machine.initialising cls code).Conforms evaluator code function
        (.object activity.machine.heap.size :: arguments) := by
  intro function
  obtain ⟨fits, foundMade⟩ := Act.function?_of_newFunction built
  have found : activity.machine.heap.function? code = some function :=
    function?_of_steps run.sound steps foundMade (proper.sound.contains_of_knows known)
  refine ⟨fits, fun given accepts => ⟨FunctionCell.length_missing fits accepts, fun index =>
    FunctionCell.getElem?_missing fits accepts⟩, ⟨?_, ?_⟩, fun cell receiver owns => ⟨?_, ?_⟩,
    fun cls owns inherited => ⟨?_, ?_⟩⟩
  · rw [Act.call]
  · exact conforms behaves proper found known fits owned
  · rw [Act.call]
  · obtain ⟨ownsReceiver, -⟩ := owns_method proper owns
    exact conforms behaves proper found known fits (List.forall_mem_cons.mpr ⟨ownsReceiver, owned⟩)
  · rw [Act.call]
    exact Act.instantiate_eq_initialised inherited
  · have ownsCode : activity.Owns (.function code) := by
      refine ⟨fun id same => ?_, fun id reference => List.mem_singleton.mp reference ▸ known⟩
      obtain rfl : code = id := Option.some.inj same
      exact ⟨_, Heap.function?_eq_some_iff.mp found, trivial⟩
    obtain ⟨begun, machine, properBegun, ownsObject, kept⟩ :=
      exists_initialising proper owns ownsCode
    have foundBegun : begun.machine.heap.function? code = some function := by
      rw [machine, Heap.function?_eq_some_iff]
      rw [Heap.function?_eq_some_iff] at found
      exact (Heap.get?_alloc _ _ _).trans
        ((if_neg (Nat.ne_of_lt (Heap.lt_size_of_get? found))).trans found)
    rw [← machine]
    exact conforms behaves properBegun foundBegun ((kept _ ownsCode).knows rfl) fits
      (List.forall_mem_cons.mpr ⟨ownsObject, fun argument listed => kept _ (owned _ listed)⟩)

/-- A function whose last parameter has a default, made at the top level. -/
def madeFunction : Activity where
  machine :=
    { heap := ⟨#[
        some (.frame { scope := .global, captured := true }),
        some (.function
          { name := ⟨"init", 0⟩
            params := [⟨"self", 1⟩, ⟨"left", 2⟩, ⟨"right", 3⟩]
            defaults := [.operate (.name "left") []]
            body := []
            defining := 0 })]⟩ }
  hand := [1, 0]

/-- A class that initialises its objects with that function. -/
def madeClass : Activity where
  machine :=
    { heap := (madeFunction.machine.heap.alloc (.classObject
        { name := ⟨"Pair", 4⟩
          superclass := none
          attributes := [(⟨"__init__", 5⟩, .function 1)] })).2 }
  hand := [2, 1, 0]

theorem run_madeFunction : madeFunction.Reachable := by
  have built : Reachable { machine := .build false [] } := .start false [] trivial
  have top := built.step (.make _ (.frame { scope := .global }) rfl) trivial
  have marked := top.step (.capture _ 0 (.of_mem (by decide))) trivial
  exact marked.step (.make _ (.function _) ⟨.of_mem (by decide), _, rfl, rfl⟩) trivial

theorem step_madeClass : Step madeFunction madeClass := by
  refine .make madeFunction (.classObject _) fun id reference => ?_
  obtain rfl : id = 1 := List.mem_singleton.mp reference
  exact ⟨.of_mem (by decide), rfl⟩

theorem proper_madeClass : madeClass.Proper := by
  refine ⟨step_madeClass.sound run_madeFunction.sound, fun id cell found => ?_, ?_, ?_, ?_⟩
  · match id, found with
    | 0, found | 1, found =>
        cases found
        exact fun value member => absurd member List.not_mem_nil
    | 2, found =>
        cases found
        intro value member other same
        obtain rfl := List.mem_singleton.mp member
        obtain rfl : 1 = other := Option.some.inj same
        exact ⟨_, rfl, trivial⟩
    | id + 3, found => cases found
  · simp [madeClass, Names.values]
  · simp [madeClass]
  · simp [madeClass]

/-- An object of the class is initialised by the rules, with the object as the first argument. -/
theorem madeClass_is_called_by_convention :
    madeFunction.Reachable ∧
      Act.newFunction 0 ⟨"init", 0⟩ [⟨"self", 1⟩, ⟨"left", 2⟩, ⟨"right", 3⟩]
        [.operate (.name "left") []] [] { heap := ⟨#[some (.frame { scope := .global })]⟩ } =
          .ok (.function 1) madeFunction.machine ∧
      ReflTransGen Step madeFunction madeClass ∧ madeClass.Proper ∧ madeClass.Knows 1 ∧
      Evaluator.standard.Behaves ∧
      Act.call .standard 0 (.classObject 2) [.bool true] madeClass.machine =
        madeClass.machine.initialised (Act.callFunction .standard 1 [.object 3, .bool true]
          (madeClass.machine.initialising 2 1)) ∧
      (madeClass.machine.initialising 2 1).Conforms .standard 1
        { name := ⟨"init", 0⟩
          params := [⟨"self", 1⟩, ⟨"left", 2⟩, ⟨"right", 3⟩]
          defaults := [.operate (.name "left") []]
          body := []
          defining := 0 }
        [.object 3, .bool true] := by
  have built : Act.newFunction 0 ⟨"init", 0⟩ [⟨"self", 1⟩, ⟨"left", 2⟩, ⟨"right", 3⟩]
        [.operate (.name "left") []] [] { heap := ⟨#[some (.frame { scope := .global })]⟩ } =
          .ok (.function 1) madeFunction.machine := rfl
  have steps : ReflTransGen Step madeFunction madeClass := .single step_madeClass
  have known : madeClass.Knows 1 := .of_mem (by decide)
  have behaves : Evaluator.standard.Behaves := Evaluator.behaves_ofFuel _
  have owned : ∀ argument ∈ [Value.bool true], madeClass.Owns argument := by
    intro argument listed
    obtain rfl := List.mem_singleton.mp listed
    exact .of_cell?_eq_none rfl
  have ownsClass : madeClass.Owns (.classObject 2) := by
    refine .of_start (fun id same => ?_) (by decide)
    obtain rfl : 2 = id := Option.some.inj same
    exact ⟨_, rfl, trivial⟩
  obtain ⟨-, -, -, -, initialises⟩ := calls_follow_the_convention run_madeFunction built steps
    proper_madeClass known .standard behaves 0 [.bool true] owned
  exact ⟨run_madeFunction, built, steps, proper_madeClass, known, behaves,
    initialises 2 ownsClass rfl⟩

end Activity

end ScriptCore
