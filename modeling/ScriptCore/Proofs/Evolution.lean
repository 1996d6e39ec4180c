import ScriptCore.Proofs.Changes
import ScriptCore.Session

/-!
# What running programs does to the machine

Calls, operations, statements and the steps of a session bring about the machines that they leave
by changes, however deep they nest.
-/

namespace ScriptCore

/-- Whatever an evaluator runs, it brings about the machine that is left by changes. -/
structure Evaluator.Evolves (evaluator : Evaluator) : Prop where
  expr : ∀ expression frame, Act.Evolves (evaluator.expr expression frame)
  block : ∀ block frame, Act.Evolves (evaluator.block block frame)

namespace Act

section Calls

variable {evaluator : Evaluator}

theorem evolves_define (frame : CellId) (name : Str) (value : Value) :
    Evolves (define frame name value) :=
  evolves_modify fun machine => machine.evolves_setLocals frame _

theorem evolves_childFrame (parent : CellId) : Evolves (childFrame parent) :=
  evolves_alloc rfl

theorem evolves_topFrame : Evolves topFrame :=
  evolves_alloc rfl

theorem evolves_bindArguments (frame : CellId) (bindings : List (Str × Value)) :
    Evolves (bindArguments frame bindings) := by
  induction bindings with
  | nil => exact evolves_pure _
  | cons binding rest ih => exact (evolves_define _ _ _).bind fun _ => ih

theorem evolves_bindDefaults (evolves : evaluator.Evolves) (defining frame : CellId)
    (missing : List (Str × Expr)) : Evolves (bindDefaults evaluator defining frame missing) := by
  induction missing with
  | nil => exact evolves_pure _
  | cons binding rest ih =>
      exact (evolves.expr _ _).bind fun _ => (evolves_define _ _ _).bind fun _ => ih

theorem evolves_bindParams (evolves : evaluator.Evolves) (function : FunctionCell)
    (frame : CellId) (arguments : List Value) :
    Evolves (bindParams evaluator function frame arguments) :=
  (evolves_ofExcept _).bind fun _ => (evolves_bindArguments _ _).bind fun _ =>
    evolves_bindDefaults evolves _ _ _

theorem evolves_body (evolves : evaluator.Evolves) (block : Block) (frame : CellId) :
    Evolves (evaluator.body block frame) := by
  refine (evolves.block block frame).bind fun completion => ?_
  cases completion with
  | reached last => exact evolves_pure _
  | given result => exact evolves_pure _

theorem evolves_program (evolves : evaluator.Evolves) (block : Block) (frame : CellId) :
    Evolves (evaluator.program block frame) := by
  refine (evolves.block block frame).bind fun completion => ?_
  cases completion with
  | reached last => exact evolves_pure _
  | given result => exact evolves_pure _

theorem evolves_releaseFrame (frame : CellId) (result : Except Stop Value) :
    Evolves (releaseFrame frame result) := by
  have released : Evolves (modify (Machine.release frame) : Act Unit) :=
    evolves_modify fun machine => machine.evolves_release frame
  cases result with
  | ok value => exact released.holding _
  | error stop => exact released

theorem evolves_callFunction (evolves : evaluator.Evolves) (code : CellId)
    (arguments : List Value) : Evolves (callFunction evaluator code arguments) := by
  refine evolves_heap_bind fun heap => ?_
  split
  · exact evolves_throw _
  · rename_i function _
    refine (evolves_childFrame _).bind fun frame => Evolves.holding ?_ _
    have ran : Evolves (do
        bindParams evaluator function frame arguments
        evaluator.body function.body frame) :=
      (evolves_bindParams evolves _ _ _).bind fun _ => evolves_body evolves _ _
    exact ran.outcome.bind fun _ => (evolves_releaseFrame _ _).bind fun _ => evolves_resume _

theorem evolves_initialise (evolves : evaluator.Evolves) (object code : CellId)
    (arguments : List Value) :
    Evolves (holding (.cell object) do
      let _ ←
        holding (.cell code) (callFunction evaluator code (.object object :: arguments))) := by
  refine Evolves.holding ?_ _
  exact ((evolves_callFunction evolves _ _).holding _).bind fun _ => evolves_pure _

theorem evolves_instantiate (evolves : evaluator.Evolves) (cls : CellId)
    (arguments : List Value) : Evolves (instantiate evaluator cls arguments) := by
  refine (evolves_newObject cls).bind fun object => evolves_heap_bind fun heap => ?_
  split
  · exact (evolves_initialise evolves _ _ _).bind fun _ => evolves_pure _
  · exact evolves_pure _

theorem evolves_runNative (native : Native) (caller : CellId) (arguments : List Value) :
    Evolves (runNative native caller arguments) := by
  unfold runNative
  split
  · exact evolves_runStandard _ _
  · exact evolves_newTuple _
  · exact evolves_get_bind fun _ => evolves_newTuple _
  · exact evolves_get_bind fun _ => evolves_ofExcept _
  · exact evolves_throw _
  · exact evolves_throw _
  · exact evolves_throw _

theorem evolves_call (evolves : evaluator.Evolves) (caller : CellId) (callee : Value)
    (arguments : List Value) : Evolves (call evaluator caller callee arguments) := by
  fun_induction call evaluator caller callee arguments with
  | case1 builtin callee rest isApply ih => exact ih.holding _
  | case2 builtin arguments notApply => exact evolves_runNative _ _ _
  | case3 arguments code => exact evolves_callFunction evolves _ _
  | case4 arguments cell receiver code => exact evolves_callFunction evolves _ _
  | case5 arguments cls => exact evolves_instantiate evolves _ _
  | case6 callee arguments => exact evolves_heap_bind fun _ => evolves_throw _

end Calls

section Operations

theorem evolves_isAlive (name : String) : Evolves (isAlive name) :=
  (evolves_modify Machine.evolves_settle).bind fun _ => evolves_get_bind fun _ => evolves_pure _

theorem evolves_collect : Evolves collect :=
  Machine.evolves_collect

theorem evolves_superclassOf (value : Value) : Evolves (superclassOf value) := by
  unfold superclassOf
  split
  · exact evolves_pure _
  · exact evolves_pure _
  · exact evolves_throw _

theorem evolves_keepFrame (name : String) (frame : CellId) : Evolves (keepFrame name frame) :=
  evolves_modify fun _ => .of_heap (.refl _) rfl

section Operands

variable (operands : List Value)

theorem evolves_nullary {action : Act Value} (inner : Evolves action) :
    Evolves (nullary operands action) := by
  unfold nullary
  split
  · exact inner
  · exact evolves_throw _

theorem evolves_unary {action : Value → Act Value} (inner : ∀ value, Evolves (action value)) :
    Evolves (unary operands action) := by
  unfold unary
  split
  · exact inner _
  · exact evolves_throw _

theorem evolves_binary {action : Value → Value → Act Value}
    (inner : ∀ first second, Evolves (action first second)) :
    Evolves (binary operands action) := by
  unfold binary
  split
  · exact inner _ _
  · exact evolves_throw _

theorem evolves_ternary {action : Value → Value → Value → Act Value}
    (inner : ∀ first second third, Evolves (action first second third)) :
    Evolves (ternary operands action) := by
  unfold ternary
  split
  · exact inner _ _ _
  · exact evolves_throw _

end Operands

theorem evolves_newParamList (heap : Heap) (value : Value) : Evolves (newParamList heap value) := by
  cases value with
  | function code =>
      rw [newParamList]
      split
      · exact evolves_newList _
      · exact evolves_throw _
  | _ => exact evolves_throw _

theorem evolves_makeObject (value : Value) : Evolves (makeObject value) := by
  cases value with
  | classObject cls => exact (evolves_newObject cls).bind fun _ => evolves_pure _
  | _ => exact evolves_throw _

theorem evolves_bindMethod (receiver code : Value) : Evolves (bindMethod receiver code) := by
  unfold bindMethod
  split
  · exact evolves_newMethod _ _
  · exact evolves_throw _

theorem evolves_findClassAttr (heap : Heap) (name : String) (value : Value) :
    Evolves (findClassAttr heap name value) := by
  cases value with
  | classObject cls => exact evolves_pure _
  | _ => exact evolves_throw _

theorem evolves_testSubclass (heap : Heap) (first second : Value) :
    Evolves (testSubclass heap first second) := by
  unfold testSubclass
  split
  · exact evolves_pure _
  · exact evolves_throw _

theorem evolves_newAncestorList (heap : Heap) (value : Value) :
    Evolves (newAncestorList heap value) := by
  cases value with
  | classObject cls => exact evolves_newList _
  | _ => exact evolves_throw _

theorem evolves_newOwnNames (heap : Heap) (value : Value) : Evolves (newOwnNames heap value) := by
  cases value with
  | classObject cls => exact evolves_newBoundNames _
  | object object => exact evolves_newBoundNames _
  | _ => exact evolves_throw _

theorem evolves_watch (name : String) (value : Value) : Evolves (watch name value) := by
  cases value with
  | list cell =>
      refine Evolves.bind ?_ fun _ => evolves_pure _
      exact evolves_modify fun _ => .of_heap (.refl _) rfl
  | _ => exact evolves_throw _

theorem evolves_perform (frame : CellId) (operation : Operation) (operands : List Value) :
    Evolves (perform frame operation operands) := by
  refine evolves_get_bind fun machine => ?_
  cases operation with
  | literal datum => exact evolves_nullary _ (evolves_convert _)
  | plain text => exact evolves_nullary _ (evolves_newString _)
  | list => exact evolves_newList _
  | tuple => exact evolves_newTuple _
  | set => exact evolves_newSet _
  | dict => exact evolves_newDict _
  | name name => exact evolves_nullary _ (evolves_ofExcept _)
  | localName _ | depth | isTop | builtin _ | frameIs _ | parentIs _ =>
      exact evolves_nullary _ (evolves_pure _)
  | define name =>
      exact evolves_unary _ fun _ => (evolves_intern _).bind fun _ =>
        (evolves_define _ _ _).bind fun _ => evolves_pure _
  | defineGlobal name =>
      refine evolves_unary _ fun _ => (evolves_intern _).bind fun _ => ?_
      refine Evolves.bind ?_ fun _ => evolves_pure _
      exact evolves_modify fun _ => .of_heap (.refl _) rfl
  | remove name =>
      refine evolves_nullary _ (Evolves.bind ?_ fun _ => evolves_pure _)
      exact evolves_modify fun machine => machine.evolves_setLocals frame _
  | locals => exact evolves_nullary _ (evolves_newBoundNames _)
  | keepFrame name =>
      exact evolves_nullary _ ((evolves_keepFrame _ _).bind fun _ => evolves_pure _)
  | native name native =>
      exact evolves_nullary _ ((evolves_intern _).bind fun _ =>
        evolves_fresh.bind fun _ => evolves_pure _)
  | params => exact evolves_unary _ (evolves_newParamList _)
  | makeObject => exact evolves_unary _ evolves_makeObject
  | bind => exact evolves_binary _ evolves_bindMethod
  | findAttr name => exact evolves_unary _ (evolves_findClassAttr _ name)
  | isSubclass => exact evolves_binary _ (evolves_testSubclass _)
  | ancestors => exact evolves_unary _ (evolves_newAncestorList _)
  | ownNames => exact evolves_unary _ (evolves_newOwnNames _)
  | getAttr name => exact evolves_unary _ fun _ => evolves_getAttr _ _
  | setAttr name =>
      exact evolves_binary _ fun _ _ => (evolves_intern _).bind fun _ =>
        (evolves_setAttr _ _ _).bind fun _ => evolves_pure _
  | delAttr name => exact evolves_unary _ fun _ => evolves_delAttr _ _
  | getItem => exact evolves_binary _ evolves_getItem
  | setItem =>
      exact evolves_ternary _ fun _ _ _ => (evolves_setItem _ _ _).bind fun _ => evolves_pure _
  | delItem => exact evolves_binary _ evolves_deleteItem
  | truth | isCallable => exact evolves_unary _ fun _ => evolves_pure _
  | length =>
      exact evolves_unary _ fun _ => (evolves_ofExcept _).bind fun _ => evolves_pure _
  | typeName | repr => exact evolves_unary _ fun _ => evolves_newString _
  | iterate => exact evolves_unary _ fun _ => (evolves_elements _).bind evolves_newList
  | key => exact evolves_unary _ fun _ => (evolves_ofExcept _).bind fun _ => evolves_pure _
  | equal | same | add => exact evolves_binary _ fun _ _ => evolves_pure _
  | raise kind text => exact evolves_nullary _ (evolves_throw _)
  | watch name => exact evolves_unary _ (evolves_watch name)
  | alive name => exact evolves_nullary _ ((evolves_isAlive _).bind fun _ => evolves_pure _)
  | collect => exact evolves_nullary _ (evolves_collect.bind fun _ => evolves_pure _)

end Operations

section Evaluation

variable {inner : Evaluator} {frame : CellId}

theorem evolves_evalOperands {eval : Expr → Act Value}
    (evaluated : ∀ operand, Evolves (eval operand)) (operands : List Expr) :
    Evolves (evalOperands eval operands) := by
  induction operands with
  | nil => exact evolves_pure _
  | cons operand rest ih =>
      refine (evaluated operand).bind fun value => ?_
      exact (ih.holding _).bind fun _ => evolves_pure _

theorem evolves_evalAttributes {eval : Expr → Act Value}
    (evaluated : ∀ operand, Evolves (eval operand)) (made : Names)
    (attributes : List (String × Expr)) : Evolves (evalAttributes eval made attributes) := by
  induction attributes generalizing made with
  | nil => exact evolves_pure _
  | cons entry rest ih =>
      obtain ⟨name, expression⟩ := entry
      refine ((evaluated expression).holding _).bind fun value => ?_
      exact (evolves_intern name).bind fun _ => ih _

theorem evolves_evalSequence {eval : Expr → Act Value}
    (evaluated : ∀ operand, Evolves (eval operand)) (last : Value) (parts : List Expr) :
    Evolves (evalSequence eval last parts) := by
  induction parts generalizing last with
  | nil => exact evolves_pure _
  | cons part rest ih => exact (evaluated part).bind fun _ => ih _

theorem evolves_evalExpr (evolves : inner.Evolves) (frame : CellId) (expression : Expr) :
    Evolves (evalExpr inner frame expression) := by
  have evaluated : ∀ operand, Evolves (inner.expr operand frame) :=
    fun operand => evolves.expr operand frame
  cases expression with
  | operate operation operands =>
      exact (evolves_evalOperands evaluated operands).bind fun _ => evolves_perform _ _ _
  | call callee arguments =>
      refine (evaluated callee).bind fun callee => Evolves.holding ?_ _
      exact (evolves_evalOperands evaluated arguments).bind fun _ => evolves_call evolves _ _ _
  | function name params defaults body =>
      refine (evolves_intern name).bind fun _ => ?_
      exact (evolves_internAll params).bind fun _ => evolves_newFunction _ _ _ _ _
  | makeClass name superclass attributes =>
      refine (evaluated superclass).bind fun superclass => Evolves.holding ?_ _
      refine (evolves_superclassOf superclass).bind fun parent => ?_
      refine (evolves_intern name).bind fun _ => ?_
      exact (evolves_evalAttributes evaluated [] attributes).bind fun _ => evolves_newClass _ _ _
  | choose condition onTrue onFalse =>
      refine (evaluated condition).bind fun condition => evolves_heap_bind fun heap => ?_
      split
      · exact evaluated onTrue
      · exact evaluated onFalse
  | sequence parts => exact evolves_evalSequence evaluated _ parts
  | attempt body kind handler =>
      refine (evaluated body).handling fun error => ?_
      split
      · exact evaluated handler
      · exact evolves_throw _
  | capture body =>
      refine (evaluated body).handling fun error => ?_
      refine (evolves_newString _).bind fun _ => ?_
      exact (evolves_newString _).bind fun _ => evolves_newTuple _

theorem evolves_runTimes {run : Act Completion} (evolves : Evolves run) (times : Nat) :
    Evolves (runTimes run times) := by
  induction times with
  | zero => exact evolves_pure _
  | succ times ih =>
      refine evolves.bind fun completion => ?_
      cases completion with
      | reached last => exact ih
      | given result => exact evolves_pure _

theorem evolves_runEach {run : Act Completion} (evolves : Evolves run) (name : String)
    (limit : Nat) (pass : Pass) : Evolves (runEach frame name run limit pass) := by
  induction limit generalizing pass with
  | zero => exact evolves_pure _
  | succ limit ih =>
      refine (evolves_next pass).bind fun taken => ?_
      cases taken with
      | none => exact evolves_pure _
      | some pair =>
          obtain ⟨item, rest⟩ := pair
          refine (evolves_intern name).bind fun _ => (evolves_define _ _ _).bind fun _ => ?_
          refine (evolves.holding _).bind fun completion => ?_
          cases completion with
          | reached last => exact ih rest
          | given result => exact evolves_pure _

theorem evolves_runStatement (evolves : inner.Evolves) (frame : CellId) (statement : Statement) :
    Evolves (runStatement inner frame statement) := by
  cases statement with
  | expr expression => exact (evolves.expr _ _).bind fun _ => evolves_pure _
  | give result => exact (evolves.expr _ _).bind fun _ => evolves_pure _
  | choose condition onTrue onFalse =>
      refine (evolves.expr _ _).bind fun condition => evolves_heap_bind fun heap => ?_
      exact (evolves.block _ _).bind fun _ => evolves_pure _
  | forEach name container body =>
      refine (evolves.expr _ _).bind fun container => evolves_heap_bind fun heap => ?_
      refine (evolves_ofExcept _).bind fun iterable => Evolves.holding ?_ _
      exact evolves_runEach (evolves.block _ _) name _ _
  | loop times body => exact evolves_runTimes (evolves.block _ _) times

theorem evolves_runStatements {run : Statement → Act Completion}
    (evolves : ∀ statement, Evolves (run statement)) (last : Value)
    (statements : List Statement) : Evolves (runStatements run last statements) := by
  induction statements generalizing last with
  | nil => exact evolves_pure _
  | cons statement rest ih =>
      refine (evolves statement).bind fun completion => ?_
      cases completion with
      | reached value => exact ih value
      | given result => exact evolves_pure _

end Evaluation

end Act

namespace Evaluator

/-- Evaluation to any depth. -/
theorem evolves_ofFuel (fuel : Nat) : (ofFuel fuel).Evolves := by
  induction fuel with
  | zero => exact ⟨fun _ _ => Act.evolves_throw _, fun _ _ => Act.evolves_throw _⟩
  | succ fuel ih =>
      constructor
      · intro expression frame
        exact Act.evolves_evalExpr ih frame expression
      · intro block frame
        exact Act.evolves_runStatements (Act.evolves_runStatement ih frame) _ block

end Evaluator

namespace Act

theorem evolves_handle (name : String) : Evolves (handle name) := by
  refine evolves_get_bind fun machine => ?_
  split
  · exact evolves_pure _
  · exact evolves_throw _

theorem evolves_showProgram (block : Block) (frame : CellId) :
    Evolves (showProgram block frame) := by
  refine Evolves.holding ?_ _
  refine (evolves_program (Evaluator.evolves_ofFuel _) block frame).bind fun value => ?_
  exact evolves_heap_bind fun _ => evolves_pure _

theorem evolves_takeStep (step : Step) : Evolves (takeStep step) := by
  cases step with
  | run block => exact evolves_topFrame.bind fun _ => evolves_showProgram _ _
  | within name block => exact (evolves_handle name).bind fun _ => evolves_showProgram _ _
  | child name parent =>
      have kept : ∀ parent, Evolves (do
          let frame ← childFrame parent
          keepFrame name frame
          return .depth ((← get).depth frame) : Act Answer) := by
        intro parent
        refine (evolves_childFrame parent).bind fun frame => ?_
        exact (evolves_keepFrame name frame).bind fun _ => evolves_get_bind fun _ => evolves_pure _
      cases parent with
      | none => exact evolves_topFrame.bind kept
      | some parent => exact (evolves_handle parent).bind kept
  | drop name => exact fun _ => .of_heap (.refl _) rfl
  | collect => exact evolves_collect.bind fun _ => evolves_pure _
  | builtins => exact evolves_get_bind fun _ => evolves_pure _
  | globals => exact evolves_get_bind fun _ => evolves_pure _
  | describeFrame name =>
      exact evolves_get_bind fun _ => (evolves_handle name).bind fun _ => evolves_pure _
  | describe => exact evolves_get_bind fun _ => evolves_pure _

end Act

end ScriptCore
