import SmallPascal.Proofs.Guard

/-! Where a run comes through: which statements it starts in which machines, in which activations of
which parts of the program. Statements reach the statements inside them, expressions the expressions
inside them, and a call leads to the body of a routine in a store of its own. -/

namespace SmallPascal

/-! ### Inside an activation -/

section

variable (context : Context)

/-- An evaluation of the first expression from the first machine comes to the second from the
second. -/
inductive Expr.Reaches : Expr → Machine → Expr → Machine → Prop
  | here {e m} : Reaches e m e m
  | widen {operand type span m e n} :
    Reaches operand m e n → Reaches (.widen operand type span) m e n
  | left {op left right type span m e n} : Reaches left m e n →
    Reaches (.binary op left right type span) m e n
  | right {op left right type span m v m' e n} :
    Exec.eval (fun store => left.eval context store) m = (.ok v, m') → Reaches right m' e n →
    Reaches (.binary op left right type span) m e n
  | operand {op operand type span m e n} : Reaches operand m e n →
    Reaches (.unary op operand type span) m e n
  | array {array index low high item span m e n} : Reaches array m e n →
    Reaches (.index array index low high item span) m e n
  | subscript {array index low high item span m v m' e n} :
    Exec.eval (fun store => array.eval context store) m = (.ok v, m') → Reaches index m' e n →
    Reaches (.index array index low high item span) m e n
  | argument {id routine name before arg after type span m vs m' e n} :
    context.routines[id]? = some routine →
    Exec.eval (fun store => Expr.evalAll context store before) m = (.ok vs, m') →
    Reaches arg m' e n →
    Reaches (.call id name (before ++ arg :: after) type span) m e n

/-- After so many turns of a loop with a condition, the second machine is the one in which the
condition is tested again. -/
inductive Exec.Repeats (test : Exec Bool) (body : Exec Unit) : Nat → Machine → Machine → Prop
  | first {m} : Repeats test body 0 m m
  | again {turns m n n₁ n₂} : Repeats test body turns m n → test n = (.ok true, n₁) →
    body n₁ = (.ok (), n₂) → Repeats test body (turns + 1) m n₂

/-- After so many turns of a loop that counts, the second machine is the one in which the variable
is read again. -/
inductive Exec.Counts (name : String) (limit : Integer) (span : Span) (body : Exec Unit) :
    Nat → Machine → Machine → Prop
  | first {m} : Counts name limit span body 0 m m
  | again {turns m n current n₁ n₂ reached n₃ next} : Counts name limit span body turns m n →
    Exec.readInteger name span n = (.ok current, n₁) → current.toInt ≤ limit.toInt →
    body n₁ = (.ok (), n₂) → Exec.readInteger name span n₂ = (.ok reached, n₃) →
    Integer.add? reached 1 = some next →
    Counts name limit span body (turns + 1) m
      { n₃ with store := n₃.store.set name (.integer next) }

variable (bound : Nat)

/-- A run of the first statement from the first machine comes to start the second in the second. -/
inductive Stmt.Reaches : Stmt → Machine → Stmt → Machine → Prop
  | here {s m} : Reaches s m s m
  | block {before s after span m m' t n} : Stmt.execAll context bound before m = (.ok (), m') →
    Reaches s m' t n → Reaches (.block (before ++ s :: after) span) m t n
  | ifThen {condition yes span m m' t n} :
    Exec.eval (fun store => condition.holds context store) m = (.ok true, m') → Reaches yes m' t n →
    Reaches (.ifThen condition yes span) m t n
  | yes {condition yes no span m m' t n} :
    Exec.eval (fun store => condition.holds context store) m = (.ok true, m') → Reaches yes m' t n →
    Reaches (.ifThenElse condition yes no span) m t n
  | no {condition yes no span m m' t n} :
    Exec.eval (fun store => condition.holds context store) m = (.ok false, m') → Reaches no m' t n →
    Reaches (.ifThenElse condition yes no span) m t n
  | whileDo {condition body span turns m m₁ m₂ t n} : turns < bound →
    Exec.Repeats (.eval fun store => condition.holds context store) (body.exec context bound) turns
      m m₁ →
    Exec.eval (fun store => condition.holds context store) m₁ = (.ok true, m₂) →
      Reaches body m₂ t n →
    Reaches (.whileDo condition body span) m t n
  | initializer {name start limit body span m t n} : Reaches start m t n →
    Reaches (.forTo name start limit body span) m t n
  | forTo {name start limit body span m m₁ v m₂ last turns m₃ current m₄ t n} :
    start.exec context bound m = (.ok (), m₁) →
    Exec.eval (fun store => limit.eval context store) m₁ = (.ok v, m₂) →
    v.expectInteger = .ok last →
    turns < bound → Exec.Counts name last span (body.exec context bound) turns m₂ m₃ →
    Exec.readInteger name span m₃ = (.ok current, m₄) → current.toInt ≤ last.toInt →
    Reaches body m₄ t n → Reaches (.forTo name start limit body span) m t n

/-- A statement that is started in the first machine evaluates the expression from the second one,
other than by the statements inside it. -/
inductive Stmt.Evaluates : Stmt → Machine → Expr → Machine → Prop
  | ifThen {condition yes span m} : Evaluates (.ifThen condition yes span) m condition m
  | ifThenElse {condition yes no span m} :
    Evaluates (.ifThenElse condition yes no span) m condition m
  | whileDo {condition body span turns m n} : turns < bound →
    Exec.Repeats (.eval fun store => condition.holds context store) (body.exec context bound) turns
      m n →
    Evaluates (.whileDo condition body span) m condition n
  | limit {name start limit body span m n} : start.exec context bound m = (.ok (), n) →
    Evaluates (.forTo name start limit body span) m limit n
  | writeln {before arg after span m vs n} :
    Exec.eval (fun store => Expr.evalAll context store before) m = (.ok vs, n) →
    Evaluates (.writeln (before ++ arg :: after) span) m arg n
  | assign {name value span m} : Evaluates (.assign name value span) m value m
  | index {name before step after value span m found n} :
    Exec.eval (fun store => offsets context store before) m = (.ok found, n) →
    Evaluates (.assignElement name (before ++ step :: after) value span) m step.index n
  | element {name path value span m found n} :
    Exec.eval (fun store => offsets context store path) m = (.ok found, n) →
    Evaluates (.assignElement name path value span) m value n
  | argument {id routine name before arg after span m vs n} : context.routines[id]? = some routine →
    Exec.eval (fun store => Expr.evalAll context store before) m = (.ok vs, n) →
    Evaluates (.call id name (before ++ arg :: after) span) m arg n

/-- A statement that is started in the first machine calls a routine with the values, from the
second one, other than by the statements inside it. -/
inductive Stmt.Invokes : Stmt → Machine → RoutineId → List Value → Machine → Prop
  | function {s m e n id name args type span n₁ values n₂} : s.Evaluates context bound m e n →
    e.Reaches context n (.call id name args type span) n₁ →
    Exec.eval (fun store => Expr.evalAll context store args) n₁ = (.ok values, n₂) →
    Invokes s m id values n₂
  | procedure {id name args span m values n} :
    Exec.eval (fun store => Expr.evalAll context store args) m = (.ok values, n) →
    Invokes (.call id name args span) m id values n

end

/-! ### What is kept on the way -/

section

variable {α : Type} {context : Context} {bound : Nat} {stops : Stop → Prop} {inv : Store → Prop}
  {m n : Machine}

lemma Exec.store_of_eval {computation : Store → Eval α} {result : Except Stop α}
    (e : Exec.eval computation m = (result, n)) : n.store = m.store := by
  unfold Exec.eval at e
  rw [← (Prod.mk.inj e).2]

lemma Expr.Reaches.store {e e' : Expr} (h : e.Reaches context m e' n) : n.store = m.store := by
  induction h with
  | here => rfl
  | widen _ ih | left _ ih | operand _ ih | array _ ih => exact ih
  | right before _ ih | subscript before _ ih => rw [ih, Exec.store_of_eval before]
  | argument _ before _ ih => rw [ih, Exec.store_of_eval before]

lemma Expr.Reaches.wellTyped {sight : Sight} {e e' : Expr} (h : e.Reaches context m e' n)
    (typed : e.WellTyped sight) : e'.WellTyped sight := by
  induction h with
  | here => exact typed
  | widen _ ih => cases typed with | widen operand => exact ih operand
  | left _ ih => cases typed with | binary left => exact ih left
  | right _ _ ih => cases typed with | binary _ right => exact ih right
  | operand _ ih => cases typed with | unary operand => exact ih operand
  | array _ ih => cases typed with | index array => exact ih array
  | subscript _ _ ih => cases typed with | index _ index => exact ih index
  | argument _ _ _ ih => cases typed with | call _ args => exact ih (args _ (by simp))

variable {test : Exec Bool} {body : Exec Unit} {turns : Nat}

lemma Exec.Repeats.kept (htest : Exec.Upholds inv stops (fun _ => True) test)
    (hbody : Exec.Upholds inv stops (fun _ => True) body) (h : Exec.Repeats test body turns m n)
    (kept : inv m.store) : inv n.store := by
  induction h with
  | first => exact kept
  | again _ tested done ih => exact (hbody.kept (htest.kept (ih kept) tested).1 done).1

lemma Exec.Counts.kept {name : String} {limit : Integer} {span : Span}
    (hset : ∀ store (n : Integer), inv store → inv (store.set name (.integer n)))
    (hbody : Exec.Upholds inv stops (fun _ => True) body)
    (h : Exec.Counts name limit span body turns m n) (kept : inv m.store) : inv n.store := by
  induction h with
  | first => exact kept
  | again _ read _ done again _ ih =>
    have kept := ih kept
    rw [← Exec.store_of_eval read] at kept
    have kept := (hbody.kept kept done).1
    rw [← Exec.store_of_eval again] at kept
    exact hset _ _ kept

namespace Discipline

variable {d : Discipline} {sight : Sight} (guards : d.Guards sight context inv) (sound : d.Sound)
  (data : sight.Data)

include guards sound data

/-- **Whatever is guarded holds wherever a run of a well-typed statement comes to**, and the
statements that it starts are well typed. -/
theorem Guards.reaches {s t : Stmt} (h : s.Reaches context bound m t n) (typed : s.WellTyped sight)
    (kept : inv m.store) : t.WellTyped sight ∧ inv n.store := by
  induction h with
  | here => exact ⟨typed, kept⟩
  | block before _ ih =>
    cases typed with | block statements =>
    have safe := Upholds.execAll fun s among =>
      guards.exec sound data bound (statements s (List.mem_append_left _ among))
    exact ih (statements _ (by simp)) (safe.kept kept before).1
  | ifThen held _ ih =>
    cases typed with | ifThen _ _ yes =>
    exact ih yes (Exec.store_of_eval held ▸ kept)
  | yes held _ ih =>
    cases typed with | ifThenElse _ _ yes =>
    exact ih yes (Exec.store_of_eval held ▸ kept)
  | no held _ ih =>
    cases typed with | ifThenElse _ _ _ no =>
    exact ih no (Exec.store_of_eval held ▸ kept)
  | whileDo _ turned held _ ih =>
    cases typed with | whileDo condition boolean body =>
    have test := guards.holds sound data condition boolean
    have turn := guards.exec sound data bound body
    have kept := turned.kept test turn kept
    exact ih body (Exec.store_of_eval held ▸ kept)
  | initializer _ ih => cases typed with | forTo _ start => exact ih start kept
  | forTo begun limited _ _ turned read _ _ ih =>
    cases typed with | forTo seen start _ _ body =>
    have kept := ((guards.exec sound data bound start).kept kept begun).1
    rw [← Exec.store_of_eval limited] at kept
    have counted (store : Store) (n : Integer) (kept : inv store) :=
      guards.place store _ .integer (.integer n) kept seen (sound.shape trivial)
    have turn := guards.exec sound data bound body
    have kept := turned.kept counted turn kept
    exact ih body (Exec.store_of_eval read ▸ kept)

lemma Guards.evaluates {s : Stmt} {e : Expr} (h : s.Evaluates context bound m e n)
    (typed : s.WellTyped sight) (kept : inv m.store) : e.WellTyped sight ∧ inv n.store := by
  cases h with
  | ifThen => cases typed with | ifThen condition => exact ⟨condition, kept⟩
  | ifThenElse => cases typed with | ifThenElse condition => exact ⟨condition, kept⟩
  | whileDo _ turned =>
    cases typed with | whileDo condition boolean body =>
    have test := guards.holds sound data condition boolean
    have turn := guards.exec sound data bound body
    exact ⟨condition, turned.kept test turn kept⟩
  | limit begun =>
    cases typed with | forTo _ start limit =>
    exact ⟨limit, ((guards.exec sound data bound start).kept kept begun).1⟩
  | writeln before =>
    cases typed with | writeln args =>
    exact ⟨args _ (by simp), Exec.store_of_eval before ▸ kept⟩
  | assign =>
    cases typed with
    | assign _ value => exact ⟨value, kept⟩
    | result _ value => exact ⟨value, kept⟩
  | index before =>
    cases typed with | assignElement _ _ path =>
    exact ⟨path.index_wellTyped _ (by simp), Exec.store_of_eval before ▸ kept⟩
  | element before =>
    cases typed with | assignElement _ _ _ value =>
    exact ⟨value, Exec.store_of_eval before ▸ kept⟩
  | argument _ before =>
    cases typed with | call _ args =>
    exact ⟨args _ (by simp), Exec.store_of_eval before ▸ kept⟩

/-- A routine that is called can be seen, and its parameters are filled. -/
theorem Guards.invokes {s : Stmt} {id : RoutineId} {values : List Value}
    (h : s.Invokes context bound m id values n) (typed : s.WellTyped sight) (kept : inv m.store) :
    ∃ signature, sight.callee id signature ∧ d.Fills values signature.params ∧ inv n.store := by
  have filled {args : List Expr} {params : Params} {m n : Machine} {values : List Value}
      (args' : ∀ arg ∈ args, arg.WellTyped sight) (agree : Agree args params) (kept : inv m.store)
      (e : Exec.eval (fun store => Expr.evalAll context store args) m = (.ok values, n)) :
      d.Fills values params ∧ inv n.store := by
    obtain ⟨kept, filled⟩ := (guards.evalAll sound data args').kept kept e
    exact ⟨sound.fills agree filled, kept⟩
  cases h with
  | function evaluated reached done =>
    obtain ⟨typed, kept⟩ := guards.evaluates sound data evaluated typed kept
    cases reached.wellTyped typed with | call seen args agree =>
    exact ⟨_, seen, filled args agree (reached.store ▸ kept) done⟩
  | procedure done =>
    cases typed with | call seen args agree =>
    exact ⟨_, seen, filled args agree kept done⟩

end Discipline

end

/-! ### Through all activations -/

namespace Program

/-- What calls lead to where they may still nest so deep. -/
def context (program : Program) (bound depth : Nat) : Context :=
  ⟨program.routines, Routine.run program.routines bound depth⟩

/-- A run of the program comes to start the statement in the machine, in an activation of the part
inside which calls may still nest so deep. -/
inductive Visits (program : Program) (bound : Nat) : Option RoutineId → Nat → Stmt → Machine → Prop
  | start : Visits program bound none bound program.body ⟨program.initialStore, #[]⟩
  | inside {part depth s m t n} : Visits program bound part depth s m →
    s.Reaches (program.context bound depth) bound m t n → Visits program bound part depth t n
  | call {part depth s m id values n routine} : Visits program bound part (depth + 1) s m →
    s.Invokes (program.context bound (depth + 1)) bound m id values n →
    program.routines[id]? = some routine →
    Visits program bound (some id) depth routine.body ⟨routine.frame values n.store, n.output⟩

/-- A run of the program comes to the store in an activation of the part: a statement is started in
it, or has ended in it, with or without a fault. -/
inductive Reached (program : Program) (bound : Nat) (part : Option RoutineId) : Store → Prop
  | started {depth s machine} : Visits program bound part depth s machine →
    Reached program bound part machine.store
  | ended {depth s machine} : Visits program bound part depth s machine →
    Reached program bound part (s.exec (program.context bound depth) bound machine).2.store

end Program

end SmallPascal
