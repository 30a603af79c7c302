import SmallPascal.Proofs.Extents
import SmallPascal.Proofs.Safety
import SmallPascal.Proofs.TrackingPrograms

/-! Where whole arrays come from. Types that differ in their bounds accept each other, so that a
name may hold an array that was filled under another type. Which types may have had a hand in what a
name of an activation holds is found out from the text: by assignments, arguments, results, and the
copies of stores that calls make. -/

namespace SmallPascal

/-- What may have an array: in activations of a part, a name or an expression. -/
inductive Holder where
  | name (part : Option RoutineId) (name : String)
  | value (part : Option RoutineId) (e : Expr)

namespace Program

variable {program : Program}

/-- The names that an activation of the part has of its own: variables, parameters, locals, and the
result of a function. -/
def slots (program : Program) (part : Option RoutineId) : List (String × Ty) :=
  program.storage part ++ ((program.returns? part).map fun type => (resultSlot, type)).toList

def nodesOf (program : Program) (part : Option RoutineId) : List Node :=
  ((program.bodyOf? part).map fun body => (Node.stmt body).all).getD []

/-- In activations of its part, what the name stands for or the value of the expression may be an
array that was filled within the bounds of the type. -/
inductive Receives (program : Program) : Holder → Ty → Prop
  | own {part name type} :
    (name, type) ∈ program.slots part → Receives program (.name part name) type
  | assigned {part name e span type} : .stmt (.assign name e span) ∈ program.nodesOf part →
    Receives program (.value part e) type → Receives program (.name part name) type
  | indexed {part name path e span} :
    .stmt (.assignElement name path e span) ∈ program.nodesOf part →
    Receives program (.name part name) (.along path .integer)
  | element {part name path e span type} :
    .stmt (.assignElement name path e span) ∈ program.nodesOf part →
    Receives program (.value part e) type → Receives program (.name part name) (.along path type)
  | passed {caller node id args routine arg name param type} : node ∈ program.nodesOf caller →
    node.Calls id args → program.routines[id]? = some routine →
    (arg, name, param) ∈ args.zip routine.params → Receives program (.value caller arg) type →
    Receives program (.name (some id) name) type
  | copied {caller node id args name type} : node ∈ program.nodesOf caller → node.Calls id args →
    (∀ other, (name, other) ∉ program.slots (some id)) → Receives program (.name caller name) type →
    Receives program (.name (some id) name) type
  | var {part name type span found} : Receives program (.name part name) found →
    Receives program (.value part (.var name type span)) found
  | index {part array subscript low high item span low' high' found} :
    Receives program (.value part array) (.array low' high' found) →
    Receives program (.value part (.index array subscript low high item span)) found
  | widen {part operand type span found} : Receives program (.value part operand) found →
    Receives program (.value part (.widen operand type span)) found
  | call {part id name args type span found} :
    Receives program (.name (some id) resultSlot) found →
    Receives program (.value part (.call id name args type span)) found

lemma mem_slots {id : RoutineId} {routine : Routine} (found : program.routines[id]? = some routine)
    {name : String} {type : Ty} : (name, type) ∈ program.slots (some id) ↔
      (name, type) ∈ routine.params ∨ (name, type) ∈ routine.locals ∨
        name = resultSlot ∧ routine.returns = some type := by
  have returns : program.returns? (some id) = routine.returns := by
    change program.routines[id]?.bind _ = _
    rw [found]
    rfl
  rw [slots, List.mem_append, storage_some found, List.mem_append, returns, or_assoc]
  cases routine.returns <;> simp [eq_comm]

end Program

/-! ### What an activation holds -/

/-- A frame has defaults for locals and a result, the values that were passed, and what the caller
has of other names. -/
lemma Routine.get?_frame (routine : Routine) (values : List Value) (store : Store) (name : String) :
    (∃ type, ((name, type) ∈ routine.locals ∨ name = resultSlot ∧ routine.returns = some type) ∧
      (routine.frame values store).get? name = some type.default) ∨
    (∃ value, (name, value) ∈ (routine.params.map (·.1)).zip values ∧
      (routine.frame values store).get? name = some value) ∨
    (∀ type, ¬ ((name, type) ∈ routine.locals ∨ name = resultSlot ∧ routine.returns = some type)) ∧
      (∀ value, (name, value) ∉ (routine.params.map (·.1)).zip values) ∧
      (routine.frame values store).get? name = store.get? name := by
  let passed := (routine.params.map (·.1)).zip values
  by_cases result : name = resultSlot ∧ ∃ type, routine.returns = some type
  · obtain ⟨rfl, type, returns⟩ := result
    refine .inl ⟨type, .inr ⟨rfl, returns⟩, ?_⟩
    unfold Routine.frame
    rw [returns]
    exact Store.get?_set_self _ _ _
  have kept : (routine.frame values store).get? name =
      ((store.setAll passed).setDefaults routine.locals).get? name := by
    unfold Routine.frame
    rcases returns : routine.returns with _ | type
    · rfl
    · exact Store.get?_set_of_ne _ _ fun same => result ⟨same.symm, type, returns⟩
  rw [kept]
  obtain ⟨type, among, there⟩ | ⟨notLocal, there⟩ :=
    Store.get?_setDefaults routine.locals (store.setAll passed) name <;> rw [there]
  · exact .inl ⟨type, .inl among, rfl⟩
  obtain ⟨value, among, there⟩ | ⟨notPassed, there⟩ :=
    Store.get?_setAll passed store name <;> rw [there]
  · exact .inr (.inl ⟨value, among, rfl⟩)
  · refine .inr (.inr ⟨?_, notPassed, rfl⟩)
    rintro type (among | ⟨is, returns⟩)
    · exact notLocal type among
    · exact result ⟨is, type, returns⟩

namespace Program

variable {program : Program} {parents : List (Option RoutineId)} {part : Option RoutineId}
  {store : Store} {context : Context} {bound depth : Nat}

/-- The activation has values for its own names, and whatever is in its store is bounded by the
types that may have had a hand in it. -/
structure Traced (program : Program) (part : Option RoutineId) (store : Store) : Prop where
  own : ∀ name type, (name, type) ∈ program.slots part → (store.get? name).isSome
  bounded : ∀ name value, store.get? name = some value →
    value.Bounded (program.Receives (.name part name))

structure Stands (program : Program) (parents : List (Option RoutineId)) (part : Option RoutineId)
    (node : Node) : Prop where
  among : node ∈ program.nodesOf part
  typed : node.WellTyped ((program.outline parents).sight part)
  single : ∀ value type span, node = .expr (.literal value type span) → value.Single

lemma Traced.set (traced : program.Traced part store) {name : String} {value : Value}
    (bounded : value.Bounded (program.Receives (.name part name))) :
    program.Traced part (store.set name value) where
  own other type declared := by
    rw [Store.get?_set]
    split
    · rfl
    · exact traced.own other type declared
  bounded other value' found := by
    rw [Store.get?_set] at found
    split at found
    next same =>
      cases found
      exact same ▸ bounded
    next => exact traced.bounded other value' found

lemma traced_initialStore (single : ∀ constant ∈ program.constants, constant.2.Single) :
    program.Traced none program.initialStore where
  own name type declared := by
    have declared :
      (name, type) ∈ program.vars := by simpa [slots, returns?, storage] using declared
    obtain ⟨_, -, found⟩ | ⟨absent, -⟩ :=
      Store.get?_setDefaults program.vars (Store.empty.setAll program.constants) name
    · rw [initialStore, found]
      rfl
    · exact absurd declared (absent type)
  bounded name value found := by
    obtain ⟨type, -, there⟩ | ⟨-, there⟩ :=
      Store.get?_setDefaults program.vars (Store.empty.setAll program.constants) name <;>
      rw [initialStore, there] at found
    · cases found
      exact Value.bounded_default type
    · obtain ⟨value', among, there⟩ | ⟨-, there⟩ :=
        Store.get?_setAll program.constants .empty name <;>
        rw [there] at found <;> cases found
      exact (single _ among).bounded

abbrev Passes (program : Program) (part : Option RoutineId) (args : List Expr)
    (values : List Value) : Prop :=
  List.Forall₂ (fun arg value => value.Bounded (program.Receives (.value part arg))) args values

lemma Passes.zip {args : List Expr} {params : Params} {values : List Value}
    (passes : program.Passes part args values) (arity : args.length = params.length)
    {name : String} :
    (∀ value, (name, value) ∈ (params.map (·.1)).zip values → ∃ arg type,
      (arg, name, type) ∈ args.zip params ∧ value.Bounded (program.Receives (.value part arg))) ∧
    ∀ type, (name, type) ∈ params → ∃ value, (name, value) ∈ (params.map (·.1)).zip values := by
  induction passes generalizing params with
  | nil =>
    obtain rfl := List.length_eq_zero_iff.1 arity.symm
    simp
  | @cons arg value args values bounded _ ih =>
    obtain _ | ⟨⟨param, type⟩, params⟩ := params
    · cases arity
    obtain ⟨given, filled⟩ := ih (Nat.succ.inj arity)
    rw [List.map_cons, List.zip_cons_cons, List.zip_cons_cons]
    refine ⟨fun value' among => ?_, fun type' among => ?_⟩
    · rcases List.mem_cons.1 among with same | later
      · cases same
        exact ⟨arg, type, List.mem_cons_self, bounded⟩
      · obtain ⟨arg', type', among, bounded'⟩ := given value' later
        exact ⟨arg', type', List.mem_cons_of_mem _ among, bounded'⟩
    · rcases List.mem_cons.1 among with same | later
      · cases same
        exact ⟨value, List.mem_cons_self⟩
      · obtain ⟨value', among⟩ := filled type' later
        exact ⟨value', List.mem_cons_of_mem _ among⟩

/-- **A call hands on what is known of arrays.** -/
lemma Traced.frame (traced : program.Traced part store) {node : Node} {id : RoutineId}
    {args : List Expr}
    (among : node ∈ program.nodesOf part) (calls : node.Calls id args) {routine : Routine}
    (found : program.routines[id]? = some routine) (arity : args.length = routine.params.length)
    {values : List Value} (passes : program.Passes part args values) :
    program.Traced (some id) (routine.frame values store) := by
  refine ⟨fun name type declared => ?_, fun name value there => ?_⟩
  · obtain ⟨_, -, there⟩ | ⟨_, -, there⟩ | ⟨foreign, notPassed, -⟩ :=
      routine.get?_frame values store name
    · rw [there]; rfl
    · rw [there]; rfl
    · rcases (mem_slots found).1 declared with param | other
      · obtain ⟨value, given⟩ := (passes.zip arity).2 type param
        exact absurd given (notPassed value)
      · exact absurd other (foreign type)
  · obtain ⟨type, -, is⟩ | ⟨value', listed, is⟩ | ⟨foreign, notPassed, is⟩ :=
      routine.get?_frame values store name <;> rw [is] at there
    · cases there
      exact Value.bounded_default type
    · cases there
      obtain ⟨arg, param, pair, bounded⟩ := (passes.zip arity).1 _ listed
      exact bounded.mono fun type brought => .passed among calls found pair brought
    · refine (traced.bounded name value there).mono fun type received =>
        .copied among calls ?_ received
      intro other declared
      rcases (mem_slots found).1 declared with param | other'
      · obtain ⟨value, given⟩ := (passes.zip arity).2 other param
        exact notPassed value given
      · exact foreign other other'

lemma Stands.arity {node : Node} (stands : program.Stands parents part node) {id : RoutineId}
    {args : List Expr} (calls : node.Calls id args) {routine : Routine}
    (found : program.routines[id]? = some routine) : args.length = routine.params.length := by
  have agrees {name : String} {params : Params} {returns : Option Ty} (agree : Agree args params)
      (seen : ((program.outline parents).sight part).callee id ⟨name, params, returns⟩) :
      args.length = routine.params.length := by
    obtain ⟨owner, -, -, signed⟩ := seen
    obtain ⟨routine', found', signature⟩ := exists_of_signature signed
    obtain rfl := Option.some.inj (found'.symm.trans found)
    have params : routine'.params = params := congrArg Signature.params signature
    rw [params, agree.length_eq]
  have typed := stands.typed
  cases calls with
  | function => cases typed with | call seen _ agree => exact agrees agree seen
  | procedure => cases typed with | call seen _ agree => exact agrees agree seen

/-! ### Through a run -/

def tracing (program : Program) (part : Option RoutineId) : Policy :=
  ⟨program.Traced part, fun _ => True, fun e v => v.Bounded (program.Receives (.value part e))⟩

/-- The answer of a function is bounded by the types that may have had a hand in its result. -/
def Answers (program : Program) (id : RoutineId) (answer : Option Value) : Prop :=
  ∀ value, answer = some value → value.Bounded (program.Receives (.name (some id) resultSlot))

section

variable (routines : context.routines = program.routines)
  (answers : ∀ node, program.Stands parents part node → ∀ id args, node.Calls id args →
    ∀ routine, program.routines[id]? = some routine → ∀ values, program.Passes part args values →
    ∀ store, program.Traced part store →
      Eval.Yields (Stop.At fun _ => True) (program.Answers id) (context.run routine values store))

include routines answers

lemma values_tracing (traced : program.Traced part store) :
    (program.tracing part).Values context store (program.Stands parents part) where
  place _ _ := trivial
  literal value type span stands := (stands.single value type span rfl).bounded
  var name _ _ value found := (traced.bounded name value found).mono fun _ => .var
  widen _ _ _ _ bounded := bounded.widen.mono fun _ => .widen
  binary _ _ _ _ _ _ _ _ applied := (BinaryOp.single_apply applied).bounded
  unary _ _ _ _ _ _ applied := (UnaryOp.single_apply applied).bounded
  index array subscript low high item span v offset value bounded found := by
    refine (Value.bounded_element bounded found).mono ?_
    rintro item ⟨_, _, brought⟩
    exact .index brought
  call id name args type span stands routine found values passes := by
    rw [routines] at found
    refine (answers _ stands id args .function routine found values passes store traced).imp ?_
    exact fun answer bounded value is => (bounded value is).mono fun _ => .call

lemma suits_tracing : (program.tracing part).Suits context (program.Stands parents part) where
  place _ _ := trivial
  eval e h store traced := (values_tracing routines answers traced).eval e h
  write s stands := by
    have among := stands.among
    cases s with
    | assign name e =>
      exact fun store v traced bounded => traced.set (bounded.mono fun _ => .assigned among)
    | assignElement name path e =>
      intro store target found v traced there leads bounded
      refine traced.set (Value.bounded_write leads (.indexed among) ?_ bounded ?_)
      · exact fun _ => .element among
      · exact traced.bounded name target there
    | forTo name => exact fun store n traced => traced.set trivial
    | _ => trivial
  call id name args span stands routine found values store traced passes := by
    rw [routines] at found
    exact (answers _ stands id args .procedure routine found values passes store traced).imp
      fun _ _ => trivial

end

/-- The literals in a program are no arrays. -/
def SingleLiterals (program : Program) : Prop :=
  ∀ node ∈ program.nodes, ∀ value type span, node = .expr (.literal value type span) → value.Single

section

variable (typed : program.WellTyped parents) (single : program.SingleLiterals)

include typed single

lemma stands_of_bodyOf {body : Stmt} (h : program.bodyOf? part = some body) :
    (Node.stmt body).Throughout (program.Stands parents part) := by
  have whole : (Node.stmt body).WellTyped ((program.outline parents).sight part) ∧
      ∀ node ∈ (Node.stmt body).all, node ∈ program.nodes := by
    cases part with
    | none =>
      cases h
      exact ⟨typed.body, fun node => List.mem_append_left _⟩
    | some id =>
      obtain ⟨routine, found, rfl⟩ := Option.map_eq_some_iff.1 h
      refine ⟨typed.routines id routine found, fun node among => List.mem_append_right _ ?_⟩
      exact List.mem_flatMap.2 ⟨routine, List.mem_of_getElem? found, among⟩
  intro node among
  refine ⟨?_, whole.1.throughout node among, single node (whole.2 node among)⟩
  rwa [nodesOf, h]

/-- **Answers are bounded**, from however deep they come. -/
theorem answers_run (bound depth : Nat) (part : Option RoutineId) (node : Node)
    (stands : program.Stands parents part node) (id : RoutineId) (args : List Expr)
    (calls : node.Calls id args) (routine : Routine) (found : program.routines[id]? = some routine)
    (values : List Value) (passes : program.Passes part args values) (store : Store)
    (traced : program.Traced part store) :
    Eval.Yields (Stop.At fun _ => True) (program.Answers id)
      (Routine.run program.routines bound depth routine values store) := by
  induction depth generalizing part node id args routine values store with
  | zero => exact .throw trivial
  | succ depth ih =>
    have suits : (program.tracing (some id)).Suits (program.context bound depth)
        (program.Stands parents (some id)) := suits_tracing rfl (ih (some id))
    have body := stands_of_bodyOf typed single (bodyOf?_some found)
    have frame := traced.frame stands.among calls found (stands.arity calls found) passes
    refine .run (suits.exec bound _ body) frame fun last traced value answered => ?_
    obtain ⟨-, -, held⟩ := Option.bind_eq_some_iff.1 answered
    exact traced.bounded resultSlot value held

lemma suits_context (bound depth : Nat) (part : Option RoutineId) :
    (program.tracing part).Suits (program.context bound depth) (program.Stands parents part) :=
  suits_tracing rfl (answers_run typed single bound depth part)

variable (constants : ∀ constant ∈ program.constants, constant.2.Single)

include constants

/-- **Wherever a run comes to**, what is in the store is bounded by the types that may have had a
hand in it. -/
theorem Visits.traced {s : Stmt} {machine : Machine}
    (visited : program.Visits bound part depth s machine) :
    (Node.stmt s).Throughout (program.Stands parents part) ∧ program.Traced part machine.store := by
  induction visited with
  | start => exact ⟨stands_of_bodyOf typed single rfl, traced_initialStore constants⟩
  | inside _ reached ih => exact (suits_context typed single bound _ _).reaches reached ih.1 ih.2
  | call _ invoked found ih =>
    obtain ⟨node, args, stands, calls, passes, traced⟩ :=
      (suits_context typed single bound _ _).invokes invoked ih.1 ih.2
    exact ⟨stands_of_bodyOf typed single (bodyOf?_some found),
      traced.frame stands.among calls found (stands.arity calls found) passes⟩

lemma Reached.traced (reached : program.Reached bound part store) : program.Traced part store :=
  reached.upholds (fun depth => suits_context typed single bound depth part) fun _ _ _ visited =>
    visited.traced typed single constants

end

end Program

end SmallPascal
