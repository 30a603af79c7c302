import SmallPascal.Proofs.Nodes
import SmallPascal.Proofs.Visits

/-! Policies. What is kept of the stores of an activation, where faults are put, and which values
expressions may have are left open, so that one induction over statements serves every invariant of
the store. -/

namespace SmallPascal

open Steps

/-! ### Steps and offsets -/

lemma Upholds.ofExceptAt {α : Type} {inv : Output → Prop} {blamed : Span → Prop} {good : α → Prop}
    {step : Except RuntimeFault α} {span : Span} (place : blamed span)
    (h : ∀ a, step = .ok a → good a) :
    Upholds inv (Stop.At blamed) good (Eval.ofExcept span step) :=
  .ofExcept (.intro (fun _ => place) h)

/-- The offset is one that the index may lead to, and goes with the type of the items. -/
structure IndexStep.Leads (step : IndexStep) (found : Nat × Ty) : Prop where
  offset : (found.1 : Int) ≤ step.high.toInt - step.low.toInt
  item : found.2 = step.item

lemma offset_le {index low high : Integer} {offset : Nat}
    (h : elementOffset index low high = .ok offset) :
    (offset : Int) ≤ high.toInt - low.toInt := by
  rw [elementOffset_eq] at h
  split at h
  · cases h
  · cases h
    omega

lemma Value.offset_le {index : Value} {low high : Integer} {offset : Nat}
    (h : index.offset low high = .ok offset) : (offset : Int) ≤ high.toInt - low.toInt := by
  unfold Value.offset at h
  cases e : index.expectInteger with
  | error => rw [e] at h; cases h
  | ok n => rw [e] at h; exact SmallPascal.offset_le h

lemma Upholds.offsets {blamed : Span → Prop} {context : Context} {store : Store}
    {path : List IndexStep} (h : ∀ step ∈ path, blamed step.index.span ∧
      Eval.Yields (Stop.At blamed) (fun _ => True) (step.index.eval context store)) :
    Eval.Yields (Stop.At blamed) (List.Forall₂ IndexStep.Leads path)
      (offsets context store path) := by
  induction path with
  | nil => exact .pure .nil
  | cons step rest ih =>
    obtain ⟨place, index⟩ := h step List.mem_cons_self
    have others := ih fun step among => h step (List.mem_cons_of_mem _ among)
    refine index.bind fun n _ => ?_
    refine (Upholds.ofExceptAt place fun _ => Value.offset_le).bind fun offset within => ?_
    exact others.bind fun more hmore => .pure (.cons ⟨within, rfl⟩ hmore)

/-! ### Expressions -/

/-- What is kept of the stores of an activation, where faults are put, and which values an
expression may have. -/
structure Policy where
  inv : Store → Prop
  blamed : Span → Prop
  value : Expr → Value → Prop

abbrev Policy.stops (policy : Policy) : Stop → Prop := Stop.At policy.blamed

/-- Each kind of expression has a value that it may have, if its parts have. -/
structure Policy.Values (policy : Policy) (context : Context) (store : Store)
    (P : Node → Prop) : Prop where
  place : ∀ node, P node → policy.blamed node.span
  literal : ∀ value type span, P (.expr (.literal value type span)) →
    policy.value (.literal value type span) value
  var : ∀ name type span value, store.get? name = some value →
    policy.value (.var name type span) value
  widen : ∀ operand type span value, policy.value operand value →
    policy.value (.widen operand type span) value.widen
  binary : ∀ op left right type span v w value, op.apply v w = .ok value →
    policy.value (.binary op left right type span) value
  unary : ∀ op operand type span v value, op.apply v = .ok value →
    policy.value (.unary op operand type span) value
  index : ∀ array subscript low high item span v offset value, policy.value array v →
    v.element offset item = .ok value →
    policy.value (.index array subscript low high item span) value
  call : ∀ id name args type span, P (.expr (.call id name args type span)) →
    ∀ routine, context.routines[id]? = some routine →
    ∀ values, List.Forall₂ policy.value args values →
    Eval.Yields policy.stops
      (fun answer => ∀ value, answer = some value →
        policy.value (.call id name args type span) value)
      (context.run routine values store)

/-- **An expression has a value that it may have**, or a fault at one of its nodes, or where calls
put it. -/
theorem Policy.Values.eval {policy : Policy} {context : Context} {store : Store} {P : Node → Prop}
    (values : policy.Values context store P) (e : Expr) (h : (Node.expr e).Throughout P) :
    Eval.Yields policy.stops (policy.value e) (e.eval context store) := by
  induction e using Node.exprByParts with | step e ih =>
  have place := values.place _ h.self
  have places (part : Expr) (direct : .expr part ∈ (Node.expr e).children) :
    policy.blamed part.span :=
    values.place (.expr part) (h.child direct).self
  have part (part : Expr) (direct : .expr part ∈ (Node.expr e).children) :=
    ih part direct (h.child direct)
  cases e with
  | literal value type span => exact .pure (values.literal value type span h.self)
  | var name type span =>
    unfold Expr.eval
    split
    next value found => exact .pure (values.var name type span value found)
    next => exact .fail place
  | widen operand type span =>
    refine (part operand (by simp [Node.children])).bind fun v hv => .pure ?_
    exact values.widen operand type span v hv
  | binary op left right type span =>
    refine (part left (by simp [Node.children])).bind fun v _ => ?_
    refine (part right (by simp [Node.children])).bind fun w _ => ?_
    exact .ofExceptAt place fun value => values.binary op left right type span v w value
  | unary op operand type span =>
    refine (part operand (by simp [Node.children])).bind fun v _ => ?_
    exact .ofExceptAt place fun value => values.unary op operand type span v value
  | index array subscript low high item span =>
    refine (part array (by simp [Node.children])).bind fun v hv => ?_
    refine (part subscript (by simp [Node.children])).bind fun _ _ => ?_
    refine Upholds.bind
      (.ofExceptAt (places subscript (by simp [Node.children])) fun _ _ => trivial)
      fun offset (_ : True) => ?_
    refine .ofExceptAt (places array (by simp [Node.children])) fun value found => ?_
    exact values.index array subscript low high item span v offset value hv found
  | call id name args type span =>
    unfold Expr.eval
    split
    · exact .fail place
    next routine found =>
      have passed : Eval.Yields policy.stops (List.Forall₂ policy.value args)
          (Expr.evalAll context store args) :=
        .evalAll fun arg among => part arg (List.mem_map_of_mem among)
      refine passed.bind fun vs hvs => ?_
      have called := values.call id name args type span h.self routine found vs hvs
      refine called.bind fun answer ha => ?_
      cases answer with
      | some value => exact .pure (ha value rfl)
      | none => exact .fail place

/-! ### Statements -/

/-- What the writing that a statement does itself makes of a store of which `inv` is kept. -/
def Stmt.Respects (inv : Store → Prop) (value : Expr → Value → Prop) : Stmt → Prop
  | .assign name e _ => ∀ store v, inv store → value e v → inv (store.set name v)
  | .assignElement name path e _ => ∀ store target found v, inv store →
    store.get? name = some target → List.Forall₂ IndexStep.Leads path found → value e v →
    inv (store.set name (Value.write found v target).1)
  | .forTo name .. => ∀ store (n : Integer), inv store → inv (store.set name (.integer n))
  | _ => True

lemma Eval.yields_anything {α : Type} (x : Eval α) :
    Eval.Yields (Stop.At fun _ => True) (fun _ => True) x :=
  fun output _ => ⟨trivial, match (x output).1 with
    | .ok _ | .error (.fault ..) | .error .outOfSteps => trivial⟩

structure Policy.Suits (policy : Policy) (context : Context) (P : Node → Prop) : Prop where
  place : ∀ node, P node → policy.blamed node.span
  eval : ∀ e, (Node.expr e).Throughout P → ∀ store, policy.inv store →
    Eval.Yields policy.stops (policy.value e) (e.eval context store)
  write : ∀ s, P (.stmt s) → s.Respects policy.inv policy.value
  call : ∀ id name args span, P (.stmt (.call id name args span)) →
    ∀ routine, context.routines[id]? = some routine → ∀ values store, policy.inv store →
    List.Forall₂ policy.value args values →
    Eval.Yields policy.stops (fun _ => True) (context.run routine values store)

/-- What is kept by setting the names that nodes set is kept by running them, whatever values
expressions come to and wherever faults are put. -/
lemma Policy.suits_of_sets {inv : Store → Prop} {P : Node → Prop}
    (h : ∀ s, P (.stmt s) → ∀ name ∈ s.target?, ∀ store value, inv store →
      inv (store.set name value))
    (context : Context) : Policy.Suits ⟨inv, fun _ => True, fun _ _ => True⟩ context P where
  place _ _ := trivial
  eval _ _ _ _ := Eval.yields_anything _
  write s hs := by
    have sets := h s hs
    cases s with
    | assign name => exact fun store v kept _ => sets name rfl store v kept
    | assignElement name => exact fun store _ _ _ kept _ _ _ => sets name rfl store _ kept
    | forTo name => exact fun store _ kept => sets name rfl store _ kept
    | _ => trivial
  call _ _ _ _ _ _ _ _ _ _ _ := Eval.yields_anything _

namespace Policy.Suits

variable {policy : Policy} {context : Context} {P : Node → Prop} (suits : policy.Suits context P)
  (bound : Nat)

include suits

lemma operand {e : Expr} (h : (Node.expr e).Throughout P) :
    Exec.Upholds policy.inv policy.stops (policy.value e)
      (Exec.eval fun store => e.eval context store) :=
  .eval fun store kept => suits.eval e h store kept

lemma operands {args : List Expr} (h : ∀ arg ∈ args, (Node.expr arg).Throughout P) :
    Exec.Upholds policy.inv policy.stops (List.Forall₂ policy.value args)
      (Exec.eval fun store => Expr.evalAll context store args) :=
  .eval fun store kept => .evalAll fun arg among => suits.eval arg (h arg among) store kept

lemma holds {condition : Expr} (h : (Node.expr condition).Throughout P) :
    Exec.Upholds policy.inv policy.stops (fun _ => True)
      (Exec.eval fun store => condition.holds context store) := by
  refine .eval fun store kept => (suits.eval condition h store kept).bind fun v _ => ?_
  cases v with
  | boolean => exact .pure trivial
  | _ => exact .fail (suits.place _ h.self)

omit suits in
lemma readInteger {name : String} {span : Span} (place : policy.blamed span) :
    Exec.Upholds policy.inv policy.stops (fun _ => True) (Exec.readInteger name span) := by
  refine .readInteger fun store _ => ?_
  split
  · exact .intro (fun _ => place) fun _ _ => trivial
  · exact place

omit suits

mutual

/-- **A policy is kept by every run of statements that suit it**, whatever comes of the run. -/
theorem exec (suits : policy.Suits context P) (s : Stmt) (h : (Node.stmt s).Throughout P) :
    Exec.Upholds policy.inv policy.stops (fun _ => True) (s.exec context bound) := by
  have place := suits.place _ h.self
  have respects := suits.write s h.self
  match s with
  | .block statements _ =>
    exact suits.execAll statements fun s among => h.child (List.mem_map_of_mem among)
  | .ifThen condition yes _ =>
    refine (suits.holds (h.child (by simp [Node.children]))).bind fun b _ => ?_
    cases b with
    | false => exact .pure trivial
    | true => exact suits.exec yes (h.child (by simp [Node.children]))
  | .ifThenElse condition yes no _ =>
    refine (suits.holds (h.child (by simp [Node.children]))).bind fun b _ => ?_
    cases b with
    | false => exact suits.exec no (h.child (by simp [Node.children]))
    | true => exact suits.exec yes (h.child (by simp [Node.children]))
  | .whileDo condition body _ =>
    exact .repeatWhile trivial (suits.holds (h.child (by simp [Node.children])))
      (suits.exec body (h.child (by simp [Node.children]))) bound
  | .forTo name start limit body _ =>
    have hlimit : (Node.expr limit).Throughout P := h.child (by simp [Node.children])
    refine (suits.exec start (h.child (by simp [Node.children]))).bind fun _ _ => ?_
    refine (suits.operand hlimit).bind fun n _ => ?_
    refine Upholds.bind (Upholds.eval fun store _ =>
      .ofExceptAt (suits.place _ hlimit.self) fun _ _ => trivial) fun last (_ : True) => ?_
    exact .countTo trivial (readInteger place) respects
      (suits.exec body (h.child (by simp [Node.children]))) bound
  | .writeln args _ =>
    refine (suits.operands fun arg among => h.child (List.mem_map_of_mem among)).bind fun _ _ => ?_
    exact .writeLine _
  | .assign name value _ =>
    refine (suits.operand (h.child (by simp [Node.children]))).bind fun v hv => ?_
    exact .set fun store kept => respects store v kept hv
  | .assignElement name path value _ =>
    have inner (step : IndexStep) (among : step ∈ path) : (Node.expr step.index).Throughout P :=
      h.child (List.mem_append_left _ (List.mem_map_of_mem among))
    have found : Exec.Upholds policy.inv policy.stops (List.Forall₂ IndexStep.Leads path)
        (Exec.eval fun store => offsets context store path) :=
      .eval fun store kept => .offsets fun step among => ⟨suits.place _ (inner step among).self,
        (suits.eval _ (inner step among) store kept).imp fun _ _ => trivial⟩
    refine found.bind fun found leads => ?_
    refine (suits.operand (h.child (by simp [Node.children]))).bind fun v hv => ?_
    refine .writeElement fun store kept => ?_
    split
    next target there => exact ⟨respects store target found v kept there leads hv, fun _ _ => place⟩
    next => exact place
  | .call id name args span =>
    unfold Stmt.exec
    rcases found : context.routines[id]? with _ | routine
    · exact fun _ kept => ⟨kept, place⟩
    · have run : Exec.Upholds policy.inv policy.stops (fun _ => True) (Exec.eval fun store => do
          context.run routine (← Expr.evalAll context store args) store) := by
        refine .eval fun store kept => (Upholds.evalAll fun arg among =>
          suits.eval arg (h.child (List.mem_map_of_mem among)) store kept).bind
            fun values hvalues => ?_
        exact suits.call id name args span h.self routine found values store kept hvalues
      exact run.bind fun _ _ => .pure trivial
  | .skip _ => exact .pure trivial

theorem execAll (suits : policy.Suits context P) (statements : List Stmt)
    (h : ∀ s ∈ statements, (Node.stmt s).Throughout P) :
    Exec.Upholds policy.inv policy.stops (fun _ => True)
      (Stmt.execAll context bound statements) := by
  match statements with
  | [] => exact .pure trivial
  | s :: rest =>
    exact (suits.exec s (h s List.mem_cons_self)).bind fun _ _ =>
      suits.execAll rest fun s among => h s (List.mem_cons_of_mem _ among)

end

/-! ### The way to a state -/

variable {bound} {m n : Machine}

include suits

/-- **A policy is kept wherever a run comes to**, and the statements that it starts suit it. -/
theorem reaches {s t : Stmt} (h : s.Reaches context bound m t n) (hs : (Node.stmt s).Throughout P)
    (kept : policy.inv m.store) : (Node.stmt t).Throughout P ∧ policy.inv n.store := by
  induction h with
  | here => exact ⟨hs, kept⟩
  | block before _ ih =>
    have parts s (among : s ∈ _) :
      (Node.stmt s).Throughout P := hs.child (List.mem_map_of_mem among)
    have all := suits.execAll bound _ fun s among => parts s (List.mem_append_left _ among)
    exact ih (parts _ (by simp)) (all.kept kept before).1
  | ifThen held _ ih | yes held _ ih | no held _ ih =>
    exact ih (hs.child (by simp [Node.children])) (Exec.store_of_eval held ▸ kept)
  | whileDo _ turned held _ ih =>
    have kept := turned.kept (suits.holds (hs.child (by simp [Node.children])))
      (suits.exec bound _ (hs.child (by simp [Node.children]))) kept
    exact ih (hs.child (by simp [Node.children])) (Exec.store_of_eval held ▸ kept)
  | initializer _ ih => exact ih (hs.child (by simp [Node.children])) kept
  | forTo begun limited _ _ turned read _ _ ih =>
    have kept := ((suits.exec bound _ (hs.child (by simp [Node.children]))).kept kept begun).1
    rw [← Exec.store_of_eval limited] at kept
    have kept := turned.kept (suits.write _ hs.self)
      (suits.exec bound _ (hs.child (by simp [Node.children]))) kept
    exact ih (hs.child (by simp [Node.children])) (Exec.store_of_eval read ▸ kept)

lemma evaluates {s : Stmt} {e : Expr} (h : s.Evaluates context bound m e n)
    (hs : (Node.stmt s).Throughout P) (kept : policy.inv m.store) :
    (Node.expr e).Throughout P ∧ policy.inv n.store := by
  cases h with
  | ifThen | ifThenElse | assign => exact ⟨hs.child (by simp [Node.children]), kept⟩
  | whileDo _ turned =>
    have hcondition : (Node.expr e).Throughout P := hs.child (by simp [Node.children])
    exact ⟨hcondition, turned.kept (suits.holds hcondition)
      (suits.exec bound _ (hs.child (by simp [Node.children]))) kept⟩
  | limit begun =>
    have begun := (suits.exec bound _ (hs.child (by simp [Node.children]))).kept kept begun
    exact ⟨hs.child (by simp [Node.children]), begun.1⟩
  | writeln before | index before | element before | argument _ before =>
    exact ⟨hs.child (by simp [Node.children]), Exec.store_of_eval before ▸ kept⟩

omit suits in
lemma throughout_of_reaches {e e' : Expr} (h : e.Reaches context m e' n)
    (he : (Node.expr e).Throughout P) : (Node.expr e').Throughout P := by
  induction h with
  | here => exact he
  | widen _ ih | left _ ih | operand _ ih | array _ ih | right _ _ ih | subscript _ _ ih
    | argument _ _ _ ih => exact ih (he.child (by simp [Node.children]))

/-- The arguments that a routine is called with have values that they may have. -/
theorem invokes {s : Stmt} {id : RoutineId} {values : List Value}
    (h : s.Invokes context bound m id values n) (hs : (Node.stmt s).Throughout P)
    (kept : policy.inv m.store) : ∃ node args, P node ∧ node.Calls id args ∧
      List.Forall₂ policy.value args values ∧ policy.inv n.store := by
  cases h with
  | function evaluated reached done =>
    obtain ⟨he, kept⟩ := suits.evaluates evaluated hs kept
    have call := throughout_of_reaches reached he
    rw [← reached.store] at kept
    have passed := suits.operands fun arg among => call.child (List.mem_map_of_mem among)
    obtain ⟨kept, values⟩ := passed.kept kept done
    exact ⟨_, _, call.self, .function, values, kept⟩
  | procedure done =>
    have passed := suits.operands fun arg among => hs.child (List.mem_map_of_mem among)
    obtain ⟨kept, values⟩ := passed.kept kept done
    exact ⟨_, _, hs.self, .procedure, values, kept⟩

end Policy.Suits

/-- What is kept wherever a run comes to is kept of every store that it comes to. -/
theorem Program.Reached.upholds {program : Program} {bound : Nat} {part : Option RoutineId}
    {store : Store} {policy : Policy} {P : Node → Prop}
    (suits : ∀ depth, policy.Suits (program.context bound depth) P)
    (visits : ∀ depth s machine, program.Visits bound part depth s machine →
      (Node.stmt s).Throughout P ∧ policy.inv machine.store)
    (reached : program.Reached bound part store) : policy.inv store := by
  cases reached with
  | started visited => exact (visits _ _ _ visited).2
  | ended visited =>
    obtain ⟨inside, kept⟩ := visits _ _ _ visited
    exact ((suits _).exec bound _ inside _ kept).1

end SmallPascal
