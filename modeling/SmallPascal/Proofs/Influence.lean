import SmallPascal.Proofs.Nodes
import SmallPascal.Proofs.Outcomes

/-! Which names a run depends on. A call copies the caller's whole store, and so whatever else is
stored there comes along; but names that neither the tree that is run nor any routine mentions have
no influence. This compares two runs from stores that agree on all names that are mentioned. -/

namespace SmallPascal

open Steps

/-! ### Names that occur -/

/-- The name that a node itself reads or sets. -/
def Node.ownNames : Node → List String
  | .expr (.var name _ _) => [name]
  | .expr _ => []
  | .stmt s => s.target?.toList

/-- The names that are read or set in a tree. -/
def Node.names (node : Node) : List String := node.all.flatMap ownNames

/-- The names that a routine declares, and those that are read or set in its body. A function has a
place for its result. -/
def Routine.names (routine : Routine) : List String :=
  routine.params.map (·.1) ++ routine.locals.map (·.1)
    ++ (if routine.returns.isSome then [resultSlot] else []) ++ (Node.stmt routine.body).names

/-! ### Stores that agree -/

/-- Every one of the names has the same value in both stores, or none in either. -/
def Store.AgreeOn (known : String → Prop) (s t : Store) : Prop :=
  ∀ name, known name → s.get? name = t.get? name

structure Machine.AgreeOn (known : String → Prop) (m n : Machine) : Prop where
  store : m.store.AgreeOn known n.store
  output : m.output = n.output

variable {known : String → Prop}

namespace Store.AgreeOn

variable {s t : Store}

lemma set (agree : s.AgreeOn known t) (name : String) (value : Value) :
    (s.set name value).AgreeOn known (t.set name value) := by
  intro other among
  rw [get?_set, get?_set, agree other among]

lemma setAll (entries : List (String × Value)) {s t : Store} (agree : s.AgreeOn known t) :
    (s.setAll entries).AgreeOn known (t.setAll entries) := by
  induction entries generalizing s t with
  | nil => exact agree
  | cons entry rest ih => exact ih (agree.set entry.1 entry.2)

lemma frame (agree : s.AgreeOn known t) (routine : Routine) (values : List Value) :
    (routine.frame values s).AgreeOn known (routine.frame values t) := by
  have filled := (agree.setAll ((routine.params.map (·.1)).zip values)).setAll
    (routine.locals.map fun place => (place.1, place.2.default))
  unfold Routine.frame Store.setDefaults
  cases routine.returns with
  | none => exact filled
  | some type => exact filled.set resultSlot type.default

end Store.AgreeOn

/-! ### Computations that see no other names -/

/-- From machines that agree on the names the computation comes to the same answer, or the same
stop, and to machines that agree. -/
def Exec.Blind {α : Type} (known : String → Prop) (x : Exec α) : Prop :=
  ∀ m n, m.AgreeOn known n → (x m).1 = (x n).1 ∧ (x m).2.AgreeOn known (x n).2

namespace Exec.Blind

variable {α β : Type}

lemma pure (a : α) : Blind known (pure a) := fun _ _ agree => ⟨rfl, agree⟩

lemma throw (stop : Stop) : Blind (α := α) known (throw stop) := fun _ _ agree => ⟨rfl, agree⟩

lemma bind {x : Exec α} {f : α → Exec β} (hx : Blind known x) (hf : ∀ a, Blind known (f a)) :
    Blind known (x >>= f) := by
  intro m n agree
  obtain ⟨same, agree'⟩ := hx m n agree
  rw [bind_apply, bind_apply]
  rcases em : x m with ⟨answer, m'⟩
  rcases en : x n with ⟨answer', n'⟩
  rw [em, en] at same agree'
  subst same
  cases answer with
  | error stop => exact ⟨rfl, agree'⟩
  | ok a => exact hf a m' n' agree'

lemma eval {computation : Store → Eval α}
    (h : ∀ s t, s.AgreeOn known t → computation s = computation t) :
    Blind known (Exec.eval computation) := by
  intro m n agree
  unfold Exec.eval
  rw [h m.store n.store agree.store, agree.output]
  exact ⟨rfl, agree.store, rfl⟩

lemma set (name : String) (value : Value) : Blind known (Exec.set name value) :=
  fun _ _ agree => ⟨rfl, agree.store.set name value, agree.output⟩

lemma writeLine (line : String) : Blind known (Exec.writeLine line) :=
  fun _ _ agree => ⟨rfl, agree.store, congrArg (·.push line) agree.output⟩

lemma readInteger {name : String} (among : known name) (span : Span) :
    Blind known (Exec.readInteger name span) :=
  .eval fun s t agree => by rw [agree name among]

lemma writeElement {name : String} (among : known name) (path : List (Nat × Ty)) (value : Value)
    (span : Span) : Blind known (Exec.writeElement name path value span) := by
  intro m n agree
  rw [writeElement_apply, writeElement_apply, agree.store name among]
  cases n.store.get? name with
  | none => exact ⟨rfl, agree⟩
  | some target => exact ⟨rfl, agree.store.set name _, agree.output⟩

lemma repeatWhile {test : Exec Bool} {body : Exec Unit} (htest : Blind known test)
    (hbody : Blind known body) : ∀ bound, Blind known (Exec.repeatWhile test body bound)
  | 0 => throw .outOfSteps
  | bound + 1 => by
    refine htest.bind fun b => ?_
    cases b with
    | false => exact pure ()
    | true => exact hbody.bind fun _ => repeatWhile htest hbody bound

lemma countTo {name : String} (among : known name) (limit : Integer) (span : Span)
    {body : Exec Unit}
    (hbody : Blind known body) : ∀ bound, Blind known (Exec.countTo name limit span body bound)
  | 0 => throw .outOfSteps
  | bound + 1 => by
    refine (readInteger among span).bind fun current => ?_
    split
    · refine hbody.bind fun _ => (readInteger among span).bind fun reached => ?_
      cases Integer.add? reached 1 with
      | none => exact pure ()
      | some next =>
        exact (set name (.integer next)).bind fun _ => countTo among limit span hbody bound
    · exact pure ()

end Exec.Blind

/-! ### Trees that mention no other names -/

/-- Routines that are called in stores that agree do the same. -/
def Context.Blind (known : String → Prop) (context : Context) : Prop :=
  ∀ routine ∈ context.routines, ∀ values s t, s.AgreeOn known t →
    context.run routine values s = context.run routine values t

/-- The node itself mentions no other names. -/
def Node.Within (known : String → Prop) (node : Node) : Prop := ∀ name ∈ node.ownNames, known name

lemma Node.within_of_names {node : Node} (h : ∀ name ∈ node.names, known name) :
    node.Throughout (Within known) :=
  fun inner among name own => h name (List.mem_flatMap.2 ⟨inner, among, own⟩)

section

variable {context : Context} (blind : context.Blind known) {s t : Store} (agree : s.AgreeOn known t)

lemma Expr.evalAll_congr {args : List Expr}
    (h : ∀ arg ∈ args, arg.eval context s = arg.eval context t) :
    Expr.evalAll context s args = Expr.evalAll context t args := by
  induction args with
  | nil => rfl
  | cons arg rest ih =>
    unfold evalAll
    rw [h arg List.mem_cons_self, ih fun arg among => h arg (List.mem_cons_of_mem _ among)]

include blind agree

/-- **An expression has the same value** in stores that agree on its names. -/
theorem Expr.eval_agree (e : Expr) (h : (Node.expr e).Throughout (Node.Within known)) :
    e.eval context s = e.eval context t := by
  induction e using Node.exprByParts with | step e ih =>
  have part (inner : Expr) (direct : .expr inner ∈ (Node.expr e).children) :
      inner.eval context s = inner.eval context t := ih inner direct (h.child direct)
  cases e with
  | literal => rfl
  | var name =>
    have among : known name := h.self name List.mem_cons_self
    unfold eval
    rw [agree name among]
  | widen operand | unary _ operand =>
    unfold eval
    rw [part operand (by simp [Node.children])]
  | binary _ left right | index left right =>
    unfold eval
    rw [part left (by simp [Node.children]), part right (by simp [Node.children])]
  | call id _ args =>
    unfold eval
    rcases found : context.routines[id]? with _ | routine
    · rfl
    · have passed := evalAll_congr fun arg among => part arg (List.mem_map_of_mem among)
      have run := fun values => blind routine (List.mem_of_getElem? found) values s t agree
      simp only [passed, run]

lemma Expr.holds_agree (e : Expr) (h : (Node.expr e).Throughout (Node.Within known)) :
    e.holds context s = e.holds context t := by
  unfold holds
  rw [e.eval_agree blind agree h]

lemma offsets_agree {path : List IndexStep}
    (h : ∀ step ∈ path, (Node.expr step.index).Throughout (Node.Within known)) :
    offsets context s path = offsets context t path := by
  induction path with
  | nil => rfl
  | cons step rest ih =>
    unfold offsets
    rw [step.index.eval_agree blind agree (h step List.mem_cons_self),
      ih fun step among => h step (List.mem_cons_of_mem _ among)]

end

section

variable {context : Context} (blind : context.Blind known)

namespace Exec.Blind

include blind

lemma operand {e : Expr} (h : (Node.expr e).Throughout (Node.Within known)) :
    Blind known (Exec.eval fun store => e.eval context store) :=
  .eval fun _ _ agree => e.eval_agree blind agree h

lemma operands {args : List Expr}
    (h : ∀ arg ∈ args, (Node.expr arg).Throughout (Node.Within known)) :
    Blind known (Exec.eval fun store => Expr.evalAll context store args) :=
  .eval fun _ _ agree => Expr.evalAll_congr fun arg among =>
    arg.eval_agree blind agree (h arg among)

lemma test {e : Expr} (h : (Node.expr e).Throughout (Node.Within known)) :
    Blind known (Exec.eval fun store => e.holds context store) :=
  .eval fun _ _ agree => e.holds_agree blind agree h

end Exec.Blind

variable (bound : Nat)

mutual

/-- **A statement does the same** from machines that agree on its names, and leaves machines that
agree behind, also where it stops. -/
theorem Stmt.exec_blind (blind : context.Blind known) (s : Stmt)
    (h : (Node.stmt s).Throughout (Node.Within known)) :
    Exec.Blind known (s.exec context bound) := by
  match s with
  | .block statements _ =>
    exact Stmt.execAll_blind blind statements fun s among => h.child (List.mem_map_of_mem among)
  | .ifThen condition yes _ =>
    refine (Exec.Blind.test blind (h.child (by simp [Node.children]))).bind fun b => ?_
    cases b with
    | false => exact .pure ()
    | true => exact yes.exec_blind blind (h.child (by simp [Node.children]))
  | .ifThenElse condition yes no _ =>
    refine (Exec.Blind.test blind (h.child (by simp [Node.children]))).bind fun b => ?_
    cases b with
    | false => exact no.exec_blind blind (h.child (by simp [Node.children]))
    | true => exact yes.exec_blind blind (h.child (by simp [Node.children]))
  | .whileDo condition body _ =>
    exact .repeatWhile (.test blind (h.child (by simp [Node.children])))
      (body.exec_blind blind (h.child (by simp [Node.children]))) bound
  | .forTo name start limit body span =>
    have own : known name := h.self name (by simp [Node.ownNames, Stmt.target?])
    refine (start.exec_blind blind (h.child (by simp [Node.children]))).bind fun _ => ?_
    refine (Exec.Blind.operand blind (h.child (by simp [Node.children]))).bind fun n => ?_
    refine Exec.Blind.bind (.eval fun _ _ _ => rfl) fun last => ?_
    exact .countTo own last span (body.exec_blind blind (h.child (by simp [Node.children]))) bound
  | .writeln args _ =>
    refine Exec.Blind.bind (.operands blind fun arg among => h.child (List.mem_map_of_mem among))
      fun values => ?_
    exact .writeLine _
  | .assign name e _ =>
    exact (Exec.Blind.operand blind (h.child (by simp [Node.children]))).bind fun v => .set name v
  | .assignElement name path e span =>
    have own : known name := h.self name (by simp [Node.ownNames, Stmt.target?])
    have found : Exec.Blind known (Exec.eval fun store => offsets context store path) :=
      .eval fun _ _ agree => offsets_agree blind agree fun step among =>
        h.child (List.mem_append_left _ (List.mem_map_of_mem among))
    refine found.bind fun places => ?_
    refine (Exec.Blind.operand blind (h.child (by simp [Node.children]))).bind fun v => ?_
    exact .writeElement own places v span
  | .call id _ args span =>
    unfold Stmt.exec
    rcases found : context.routines[id]? with _ | routine
    · exact .throw _
    · refine Exec.Blind.bind (.eval fun s t agree => ?_) fun _ => .pure ()
      have passed := Expr.evalAll_congr fun arg among =>
        arg.eval_agree blind agree (h.child (List.mem_map_of_mem among))
      have run := fun values => blind routine (List.mem_of_getElem? found) values s t agree
      simp only [passed, run]
  | .skip _ => exact .pure ()

theorem Stmt.execAll_blind (blind : context.Blind known) (statements : List Stmt)
    (h : ∀ s ∈ statements, (Node.stmt s).Throughout (Node.Within known)) :
    Exec.Blind known (Stmt.execAll context bound statements) := by
  match statements with
  | [] => exact .pure ()
  | s :: rest =>
    exact (s.exec_blind blind (h s List.mem_cons_self)).bind fun _ =>
      Stmt.execAll_blind blind rest fun s among => h s (List.mem_cons_of_mem _ among)

end

end

/-! ### Runs -/

lemma Context.blind_run {routines : List Routine}
    (within : ∀ routine ∈ routines, ∀ name ∈ routine.names, known name) (bound : Nat) :
    ∀ depth, Context.Blind known ⟨routines, Routine.run routines bound depth⟩
  | 0 => fun _ _ _ _ _ _ => rfl
  | depth + 1 => by
    intro routine among values s t agree
    have mentioned := within routine among
    have body := routine.body.exec_blind bound (blind_run within bound depth)
      (Node.within_of_names fun name inside => mentioned name (List.mem_append_right _ inside))
    funext output
    obtain ⟨same, agree'⟩ := body ⟨routine.frame values s, output⟩ ⟨routine.frame values t, output⟩
      ⟨agree.frame routine values, rfl⟩
    rcases em : routine.body.exec ⟨routines, Routine.run routines bound depth⟩ bound
      ⟨routine.frame values s, output⟩ with ⟨answer, m⟩
    rcases en : routine.body.exec ⟨routines, Routine.run routines bound depth⟩ bound
      ⟨routine.frame values t, output⟩ with ⟨answer', n⟩
    rw [em, en] at same agree'
    -- only a function's result comes out of its frame
    have result : (routine.returns.bind fun _ => m.store.get? resultSlot) =
        routine.returns.bind fun _ => n.store.get? resultSlot :=
      Option.bind_congr fun type returned =>
        agree'.store resultSlot (mentioned resultSlot (by simp [Routine.names, returned]))
    have outputs : m.output = n.output := agree'.output
    have answers : answer = answer' := same
    simp only [Routine.run_apply, em, en, answers, result, outputs]

/-- **Names that nothing mentions have no influence.** If every name that a tree or some routine
mentions is known, an expression comes to the same value or the same stop, and to the same lines, in
all stores that agree on the known names; and so does a statement, which leaves stores that agree
again, also where it stops. -/
theorem unmentioned_unseen {routines : List Routine} {known : String → Prop}
    (within : ∀ routine ∈ routines, ∀ name ∈ routine.names, known name) (bound depth : Nat) :
    (∀ e : Expr, (∀ name ∈ (Node.expr e).names, known name) → ∀ s t output, s.AgreeOn known t →
      e.eval ⟨routines, Routine.run routines bound depth⟩ s output =
        e.eval ⟨routines, Routine.run routines bound depth⟩ t output) ∧
    ∀ s : Stmt, (∀ name ∈ (Node.stmt s).names, known name) → ∀ m n, m.AgreeOn known n →
      (s.exec ⟨routines, Routine.run routines bound depth⟩ bound m).1 =
        (s.exec ⟨routines, Routine.run routines bound depth⟩ bound n).1 ∧
      (s.exec ⟨routines, Routine.run routines bound depth⟩ bound m).2.AgreeOn known
        (s.exec ⟨routines, Routine.run routines bound depth⟩ bound n).2 := by
  have blind := Context.blind_run within bound depth
  constructor
  · intro e mentioned s t output agree
    rw [e.eval_agree blind agree (Node.within_of_names mentioned)]
  · intro s mentioned
    exact s.exec_blind bound blind (Node.within_of_names mentioned)

/-- A function that calls itself as long as its parameter is positive, and in the end answers what
its first caller stores under another name. -/
def Routine.descent : Routine where
  name := "f"
  params := [("n", .integer)]
  returns := some .integer
  locals := []
  body := .ifThenElse
    (.binary .gt (.var "n" .integer .nowhere) (.literal (.integer 0) .integer .nowhere)
      .boolean .nowhere)
    (.assign resultSlot (.call 0 "f"
      [.binary .sub (.var "n" .integer .nowhere) (.literal (.integer 1) .integer .nowhere) .integer
        .nowhere] .integer .nowhere) .nowhere)
    (.assign resultSlot (.var "x" .integer .nowhere) .nowhere) .nowhere
  span := .nowhere

theorem unmentioned_unseen_descent :
    let names := ["n", "x", "y", resultSlot]
    let s : Stmt := .assign "y"
      (.call 0 "f" [.literal (.integer 2) .integer .nowhere] .integer .nowhere) .nowhere
    let m : Machine := ⟨⟨[("x", .integer 7), ("z", .integer 1)]⟩, #[]⟩
    let n : Machine := ⟨⟨[("z", .boolean true), ("x", .integer 7)]⟩, #[]⟩
    let context : Context := ⟨[.descent], Routine.run [.descent] 9 9⟩
    (∀ routine ∈ [Routine.descent], ∀ name ∈ routine.names, name ∈ names) ∧
    (∀ name ∈ (Node.stmt s).names, name ∈ names) ∧ m.AgreeOn (· ∈ names) n ∧
    (s.exec context 9 m).1 = (s.exec context 9 n).1 ∧
    (s.exec context 9 m).2.AgreeOn (· ∈ names) (s.exec context 9 n).2 ∧
    m.store.get? "z" ≠ n.store.get? "z" ∧
      (s.exec context 9 m).2.store.get? "y" = some (.integer 7) := by
  intro names s m n context
  have within : ∀ routine ∈ [Routine.descent], ∀ name ∈ routine.names, name ∈ names := by
    decide +kernel
  have mentioned : ∀ name ∈ (Node.stmt s).names, name ∈ names := by decide +kernel
  have agree : m.AgreeOn (· ∈ names) n := ⟨by unfold Store.AgreeOn; decide +kernel, rfl⟩
  obtain ⟨same, agree'⟩ := (unmentioned_unseen within 9 9).2 s mentioned m n agree
  exact ⟨within, mentioned, agree, same, agree', by decide +kernel, by decide +kernel⟩

end SmallPascal
