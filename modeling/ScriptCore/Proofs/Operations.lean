import ScriptCore.Proofs.Attributes

/-!
# Operations as steps

Calls of all kinds and the operations of the evaluator are steps, and what they give can be
passed on if what they are given can be.  Only calls, and operations that ask for it, free cells.
-/

namespace ScriptCore

namespace Act

section Callees

variable {evaluator : Evaluator} {near : CellId → Prop} {before : Activity} {caller : CellId}

theorem conducts_runNative (proper : before.Proper) (known : before.Knows caller) {native : Native}
    {arguments : List Value} (owned : ∀ argument ∈ arguments, before.Owns argument) :
    Conducts near true (runNative native caller arguments) Activity.Owns before := by
  unfold runNative
  split
  · exact conducts_runStandard proper owned
  · exact conducts_newTuple proper owned
  · apply Conducts.get
    refine conducts_newTuple proper fun item member => ?_
    simp only [List.mem_cons, List.not_mem_nil, or_false] at member
    rcases member with rfl | rfl <;> exact .of_cell?_eq_none rfl
  · apply Conducts.get
    exact .ofExcept proper fun value found => Activity.owns_lookup proper known found
  · exact .malformed proper
  · exact .fail proper
  · exact .malformed proper

theorem conducts_instantiate (behaves : evaluator.Behaves) (proper : before.Proper)
    {cls : CellId} (owns : before.Owns (.classObject cls)) {arguments : List Value}
    (owned : ∀ argument ∈ arguments, before.Owns argument) :
    Conducts near false (instantiate evaluator cls arguments) Activity.Owns before := by
  apply (conducts_newObject proper owns).keeping.bind proper
  rintro machine middle object - properMiddle ⟨ownsObject, kept⟩
  apply Conducts.heap
  split
  · rename_i code found
    have ownsCode : middle.Owns (.function code) :=
      Activity.owns_findAttr properMiddle ((kept _ owns).knows rfl) found
    have called : ∀ during : Activity, during.Proper →
        (∀ value, middle.Owns value → during.Owns value) →
        Conducts near false (holding (.cell code)
          (callFunction evaluator code (.object object :: arguments)))
          (fun _ _ => True) during := by
      intro during properDuring ownedDuring
      have ownsDuring := ownedDuring _ ownsCode
      refine (Conducts.holdingCell properDuring Activity.Owns (ownsDuring.knows rfl)
        (fun inner properInner _ _ ownedInner => ?_) fun kept owns => kept _ owns).imp
        fun _ _ => trivial
      refine conducts_callFunction behaves properInner ((ownedInner _ ownsDuring).knows rfl)
        fun argument listed => ownedInner _ (ownedDuring _ ?_)
      rcases List.mem_cons.mp listed with rfl | given
      · exact ownsObject
      · exact kept _ (owned argument given)
    refine (Conducts.holdingCell properMiddle (fun _ _ => True) (ownsObject.knows rfl)
      (fun during properDuring _ _ ownedDuring => ?_) fun _ _ => trivial).bind properMiddle ?_
    · apply (called during properDuring ownedDuring).bind properDuring
      intro machine after result _ properAfter _
      exact .pure properAfter trivial
    · intro machine after _ _ properAfter kept
      exact .pure properAfter (kept.1 _ ownsObject rfl)
  · exact .pure properMiddle ownsObject

theorem conducts_call_of_ne_builtin (behaves : evaluator.Behaves) (proper : before.Proper)
    {callee : Value} (owns : before.Owns callee) {arguments : List Value}
    (owned : ∀ argument ∈ arguments, before.Owns argument)
    (other : ∀ builtin, callee ≠ .builtin builtin) :
    Conducts near false (call evaluator caller callee arguments) Activity.Owns before := by
  cases callee with
  | builtin builtin => exact absurd rfl (other builtin)
  | function code =>
      rw [call]
      exact conducts_callFunction behaves proper (owns.knows rfl) owned
  | method cell receiver code =>
      rw [call]
      obtain ⟨ownsReceiver, ownsCode⟩ := Activity.owns_method proper owns
      refine conducts_callFunction behaves proper (ownsCode.knows rfl) fun argument listed => ?_
      rcases List.mem_cons.mp listed with rfl | given
      · exact ownsReceiver
      · exact owned argument given
  | classObject cls =>
      rw [call]
      exact conducts_instantiate behaves proper owns owned
  | _ =>
      unfold call
      apply Conducts.heap
      exact .fail proper

/-- A call of any value.  The native that calls its first argument has one argument fewer to
go. -/
theorem conducts_call (behaves : evaluator.Behaves) (proper : before.Proper)
    (stands : before.Stands caller) {callee : Value} (owns : before.Owns callee)
    {arguments : List Value} (owned : ∀ argument ∈ arguments, before.Owns argument) :
    Conducts near false (call evaluator caller callee arguments) Activity.Owns before := by
  induction arguments generalizing before callee with
  | nil =>
      cases callee with
      | builtin builtin =>
          have ran : call evaluator caller (.builtin builtin) [] =
              runNative builtin.native caller [] := by
            unfold call
            split
            · rename_i impossible
              cases impossible
            · rfl
          rw [ran]
          exact (conducts_runNative proper stands.knows owned).weaken
      | _ => exact conducts_call_of_ne_builtin behaves proper owns owned (by simp)
  | cons argument rest ih =>
      cases callee with
      | builtin builtin =>
          unfold call
          split
          · rename_i same
            cases same
            refine (Conducts.holdingValue proper Activity.Owns (owned argument List.mem_cons_self)
              (fun during properDuring _ standsDuring ownedDuring => ?_)
              fun kept owns => kept _ owns).imp fun _ given => given.2
            exact ih properDuring (standsDuring _ stands)
              (ownedDuring _ (owned argument List.mem_cons_self)) fun other listed =>
                ownedDuring _ (owned other (List.mem_cons_of_mem argument listed))
          · exact (conducts_runNative proper stands.knows owned).weaken
      | _ => exact conducts_call_of_ne_builtin behaves proper owns owned (by simp)

end Callees

section Performing

variable {near : CellId → Prop} {quiet : Bool} {before : Activity} {frame : CellId}

theorem mem_of_mem_pairUp {values : List Value} {pair : Value × Value}
    (member : pair ∈ pairUp values) : pair.1 ∈ values ∧ pair.2 ∈ values := by
  fun_induction pairUp values with
  | case1 key value rest ih =>
      rcases List.mem_cons.mp member with rfl | later
      · simp
      · obtain ⟨first, second⟩ := ih later
        simp [first, second]
  | case2 values _ => simp at member

theorem conducts_defineGlobal (proper : before.Proper) {name : Str} {value : Value}
    (owns : before.Owns value) :
    Conducts near true
      (modify fun machine =>
        { machine with globals := machine.globals.insert name value } : Act Unit)
      (fun _ _ => True) before := by
  refine ⟨_, Activity.becomes_move proper rfl rfl rfl (fun stored member => ?_)
    (fun _ => proper.hosts_handle) fun _ => Or.inr, trivial⟩
  rcases Names.mem_values_of_insert member with old | rfl
  · exact proper.owns_global old
  · exact owns

theorem conducts_removeLocal (proper : before.Proper) (known : before.Knows frame)
    (inside : near frame) (name : String) :
    Conducts near true (modify fun machine => machine.removeLocal frame name : Act Unit)
      (fun _ _ => True) before :=
  ⟨_, Activity.becomes_rename proper known inside fun _ member =>
    Or.inl (Names.mem_values_of_erase member), trivial⟩

theorem conducts_keepFrame (proper : before.Proper) (hosts : before.Hosts frame)
    (inside : near frame) (name : String) :
    Conducts near true (keepFrame name frame) (fun _ _ => True) before := by
  refine ⟨_, Activity.becomes_move proper rfl rfl rfl (fun value => proper.owns_global)
    (fun handle listed => ?_) fun handle listed => ?_, trivial⟩
  · rcases List.mem_cons.mp listed with rfl | old
    · exact hosts
    · exact proper.hosts_handle (List.mem_of_mem_filter old)
  · rcases List.mem_cons.mp listed with rfl | old
    · exact Or.inl inside
    · exact Or.inr (List.mem_of_mem_filter old)

theorem conducts_isAlive (proper : before.Proper) (name : String) :
    Conducts near false (isAlive name) (fun _ _ => True) before := by
  have settled : Conducts near false (modify Machine.settle : Act Unit) (fun _ _ => True) before :=
    ⟨_, Activity.becomes_settle proper, trivial⟩
  apply settled.bind proper
  intro machine after _ _ properAfter _
  apply Conducts.get
  exact .pure properAfter trivial

theorem conducts_collect (proper : before.Proper) :
    Conducts near false collect (fun _ _ => True) before :=
  ⟨_, Activity.becomes_collect proper, trivial⟩

section Operands

variable {gives : Activity → Value → Prop} (proper : before.Proper)
  {operands : List Value}

include proper

theorem Conducts.nullary {action : Act Value}
    (inner : Conducts near quiet action gives before) :
    Conducts near quiet (nullary operands action) gives before := by
  unfold Act.nullary
  split
  · exact inner
  · exact .malformed proper

variable (owned : ∀ operand ∈ operands, before.Owns operand)

include owned

theorem Conducts.unary {action : Value → Act Value}
    (inner : ∀ value, before.Owns value → Conducts near quiet (action value) gives before) :
    Conducts near quiet (unary operands action) gives before := by
  unfold Act.unary
  split
  · exact inner _ (owned _ List.mem_cons_self)
  · exact .malformed proper

theorem Conducts.binary {action : Value → Value → Act Value}
    (inner : ∀ first second, before.Owns first → before.Owns second →
      Conducts near quiet (action first second) gives before) :
    Conducts near quiet (binary operands action) gives before := by
  unfold Act.binary
  split
  · exact inner _ _ (owned _ (by simp)) (owned _ (by simp))
  · exact .malformed proper

theorem Conducts.ternary {action : Value → Value → Value → Act Value}
    (inner : ∀ first second third, before.Owns first → before.Owns second → before.Owns third →
      Conducts near quiet (action first second third) gives before) :
    Conducts near quiet (ternary operands action) gives before := by
  unfold Act.ternary
  split
  · exact inner _ _ _ (owned _ (by simp)) (owned _ (by simp)) (owned _ (by simp))
  · exact .malformed proper

end Operands

section Names

variable (proper : before.Proper) {value : Value}

include proper

/-- What a frame binds a name to, or nothing. -/
theorem owns_localName (known : before.Knows frame) (name : String) :
    before.Owns (((before.machine.localsOf frame).find? name).getD .nothing) := by
  cases found : (before.machine.localsOf frame).find? name with
  | none => exact .of_cell?_eq_none rfl
  | some value => exact Activity.owns_localsOf proper known (Names.mem_values_of_find? found)

theorem conducts_define_interned (stands : before.Stands frame) (inside : near frame)
    (name : String) (owns : before.Owns value) :
    Conducts near true (do define frame (← intern name) value; return .nothing) Activity.Owns
      before := by
  apply (conducts_intern proper name).bind proper
  intro machine middle string becomes properMiddle _
  exact (conducts_define properMiddle (becomes.stands proper stands).knows inside
    (becomes.keeps rfl _ owns)).andPlain properMiddle fun _ => rfl

theorem conducts_defineGlobal_interned (name : String) (owns : before.Owns value) :
    Conducts near true
      (do
        let name ← intern name
        modify fun machine => { machine with globals := machine.globals.insert name value }
        return .nothing)
      Activity.Owns before := by
  apply (conducts_intern proper name).bind proper
  intro machine middle string becomes properMiddle _
  exact (conducts_defineGlobal properMiddle (becomes.keeps rfl _ owns)).andPlain properMiddle
    fun _ => rfl

theorem conducts_removeLocal_returned (known : before.Knows frame) (inside : near frame)
    (name : String) (owns : before.Owns value) :
    Conducts near true
      (do
        modify fun machine => machine.removeLocal frame name
        return value)
      Activity.Owns before := by
  apply (conducts_removeLocal proper known inside name).bind proper
  intro machine after _ becomes properAfter _
  exact .pure properAfter (becomes.keeps rfl _ owns)

theorem conducts_watch (name : String) (owns : before.Owns value) :
    Conducts near true (watch name value) Activity.Owns before := by
  cases value with
  | list cell =>
      have watched : Conducts near true
          (modify fun machine =>
            { machine with
              watched := (name, cell) :: machine.watched.filter fun watch => watch.1 != name } :
            Act Unit) (fun _ _ => True) before :=
        conducts_aside proper rfl rfl rfl rfl rfl rfl fun _ => trivial
      apply watched.bind proper
      intro machine after _ becomes properAfter _
      exact .pure properAfter (becomes.keeps rfl _ owns)
  | _ => exact .malformed proper

end Names

section Objects

variable (proper : before.Proper) {value : Value}

include proper

theorem conducts_newNative (name : String) (native : Native) :
    Conducts near quiet
      (do
        let name ← intern name
        return .builtin { name, native, serial := ← fresh })
      Activity.Owns before := by
  apply (conducts_intern proper name).bind proper
  intro machine middle string _ properMiddle _
  exact (conducts_fresh properMiddle).andPlain properMiddle fun _ => rfl

theorem conducts_newParamList (value : Value) :
    Conducts near quiet (newParamList before.machine.heap value) Activity.Owns before := by
  cases value with
  | function code =>
      rw [newParamList]
      split
      · exact conducts_newNameList proper _
      · exact .malformed proper
  | _ => exact .malformed proper

theorem conducts_makeObject (owns : before.Owns value) :
    Conducts near true (makeObject value) Activity.Owns before := by
  cases value with
  | classObject cls =>
      apply (conducts_newObject proper owns).bind proper
      intro machine after object _ properAfter ownsObject
      exact .pure properAfter ownsObject
  | _ => exact .malformed proper

theorem conducts_bindMethod {receiver code : Value} (owns : before.Owns receiver)
    (ownsCode : before.Owns code) :
    Conducts near quiet (bindMethod receiver code) Activity.Owns before := by
  unfold bindMethod
  split
  · exact conducts_newMethod proper owns ownsCode
  · exact .malformed proper

theorem conducts_findClassAttr (owns : before.Owns value) (name : String) :
    Conducts near quiet (findClassAttr before.machine.heap name value) Activity.Owns before := by
  cases value with
  | classObject cls =>
      apply Conducts.pure proper
      cases found : before.machine.heap.findAttr cls name with
      | none => exact .of_cell?_eq_none rfl
      | some value => exact Activity.owns_findAttr proper (owns.knows rfl) found
  | _ => exact .malformed proper

theorem conducts_testSubclass (heap : Heap) (first second : Value) :
    Conducts near quiet (testSubclass heap first second) Activity.Owns before := by
  unfold testSubclass
  split
  · exact .pure proper (.of_cell?_eq_none rfl)
  · exact .malformed proper

theorem conducts_newAncestorList (heap : Heap) (value : Value) :
    Conducts near quiet (newAncestorList heap value) Activity.Owns before := by
  cases value with
  | classObject cls => exact conducts_newNameList proper _
  | _ => exact .malformed proper

theorem conducts_newOwnNames (heap : Heap) (value : Value) :
    Conducts near quiet (newOwnNames heap value) Activity.Owns before := by
  cases value with
  | classObject cls => exact conducts_newBoundNames proper _
  | object object => exact conducts_newBoundNames proper _
  | _ => exact .malformed proper

theorem conducts_setAttr_interned {target : Value} (ownsTarget : before.Owns target)
    (owns : before.Owns value) (name : String) :
    Conducts near true (do setAttr target (← intern name) value; return .nothing) Activity.Owns
      before := by
  apply (conducts_intern proper name).bind proper
  intro machine middle string becomes properMiddle _
  exact (conducts_setAttr properMiddle (becomes.keeps rfl _ ownsTarget)
    (becomes.keeps rfl _ owns)).andPlain properMiddle fun _ => rfl

theorem conducts_listElements (owns : before.Owns value) :
    Conducts near true (do newList (← elements value)) Activity.Owns before := by
  apply (conducts_elements proper owns).bind proper
  intro machine after items _ properAfter ownedItems
  exact conducts_newList properAfter ownedItems

theorem conducts_keyValue (owns : before.Owns value) :
    Conducts near quiet (do return (← ofExcept (Key.ofValue value)).value) Activity.Owns
      before := by
  apply Conducts.ofExcept_bind proper
  intro key admitted
  apply Conducts.pure proper
  rwa [Key.value_of_ofValue admitted]

end Objects

/-- Every operation is made of steps, and gives what can be passed on. -/
theorem conducts_perform (proper : before.Proper) (stands : before.Stands frame)
    (inside : near frame) {operation : Operation} {operands : List Value}
    (owned : ∀ operand ∈ operands, before.Owns operand) :
    Conducts near false (perform frame operation operands) Activity.Owns before := by
  have known := stands.knows
  apply Conducts.get
  cases operation with
  | literal datum => exact .nullary proper (conducts_convert _ proper).weaken
  | plain text => exact .nullary proper (conducts_newString proper _)
  | list => exact conducts_newList proper owned
  | tuple => exact conducts_newTuple proper owned
  | set => exact conducts_newSet proper owned
  | dict =>
      exact conducts_newDict proper fun pair member =>
        ⟨owned _ (mem_of_mem_pairUp member).1, owned _ (mem_of_mem_pairUp member).2⟩
  | name name =>
      exact .nullary proper (.ofExcept proper fun value found =>
        Activity.owns_lookup proper known found)
  | localName name => exact .nullary proper (.pure proper (owns_localName proper known name))
  | define name =>
      exact .unary proper owned fun value owns =>
        (conducts_define_interned proper stands inside name owns).weaken
  | defineGlobal name =>
      exact .unary proper owned fun value owns =>
        (conducts_defineGlobal_interned proper name owns).weaken
  | remove name =>
      exact .nullary proper (conducts_removeLocal_returned proper known inside name
        (owns_localName proper known name)).weaken
  | locals => exact .nullary proper (conducts_newBoundNames proper _)
  | depth | isTop | frameIs name | parentIs name =>
      exact .nullary proper (.pure proper (.of_cell?_eq_none rfl))
  | builtin name =>
      apply Conducts.nullary proper
      apply Conducts.pure proper
      cases before.machine.builtin? name <;> exact .of_cell?_eq_none rfl
  | keepFrame name =>
      exact .nullary proper ((conducts_keepFrame proper (stands.hosts proper.sound) inside
        name).andPlain proper fun _ => rfl).weaken
  | native name native => exact .nullary proper (conducts_newNative proper name native)
  | params => exact .unary proper owned fun value _ => conducts_newParamList proper value
  | makeObject =>
      exact .unary proper owned fun _ owns => (conducts_makeObject proper owns).weaken
  | bind =>
      exact .binary proper owned fun _ _ owns ownsCode => conducts_bindMethod proper owns ownsCode
  | findAttr name =>
      exact .unary proper owned fun _ owns => conducts_findClassAttr proper owns name
  | isSubclass =>
      exact .binary proper owned fun first second _ _ => conducts_testSubclass proper _ first second
  | ancestors => exact .unary proper owned fun value _ => conducts_newAncestorList proper _ value
  | ownNames => exact .unary proper owned fun value _ => conducts_newOwnNames proper _ value
  | getAttr name => exact .unary proper owned fun _ owns => conducts_getAttr proper owns
  | setAttr name =>
      exact .binary proper owned fun _ _ ownsTarget owns =>
        (conducts_setAttr_interned proper ownsTarget owns name).weaken
  | delAttr name =>
      exact .unary proper owned fun _ owns => (conducts_delAttr proper owns).weaken
  | getItem => exact .binary proper owned fun _ _ owns _ => conducts_getItem proper owns
  | setItem =>
      exact .ternary proper owned fun _ _ _ ownsContainer ownsIndex owns =>
        (conducts_setItem proper ownsContainer ownsIndex owns).andPlain proper fun _ => rfl
  | delItem =>
      exact .binary proper owned fun _ _ owns _ => (conducts_deleteItem proper owns).weaken
  | truth | isCallable =>
      exact .unary proper owned fun _ _ => .pure proper (.of_cell?_eq_none rfl)
  | length =>
      exact .unary proper owned fun _ _ => Conducts.ofExcept_bind proper fun _ _ =>
        .pure proper (.of_cell?_eq_none rfl)
  | typeName | repr => exact .unary proper owned fun _ _ => conducts_newString proper _
  | iterate =>
      exact .unary proper owned fun _ owns => (conducts_listElements proper owns).weaken
  | key => exact .unary proper owned fun _ owns => conducts_keyValue proper owns
  | equal | add =>
      exact .binary proper owned fun _ _ _ _ => .pure proper (.of_cell?_eq_none rfl)
  | same =>
      refine .binary proper owned fun left right _ _ => .pure proper ?_
      cases left.same? right <;> exact .of_cell?_eq_none rfl
  | raise kind text => exact .nullary proper (.fail proper)
  | watch name =>
      exact .unary proper owned fun _ owns => (conducts_watch proper name owns).weaken
  | alive name =>
      exact .nullary proper ((conducts_isAlive proper _).andPlain proper fun _ => rfl)
  | collect =>
      exact .nullary proper ((conducts_collect proper).andPlain proper fun _ => rfl)

end Performing

end Act

end ScriptCore
