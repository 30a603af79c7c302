import SmallPascal.Interpreter
import SmallPascal.Proofs.Nodes
import SmallPascal.Proofs.Outcomes

/-! Bounds on the steps of a run. A run that meets its bound has written the beginning of what it
writes under a greater one, and a run that does not meet its bound is the same under all greater
ones. So the bound decides how far a run gets, and nothing else. -/

namespace SmallPascal

open Steps

/-- The first lines of the second output are those of the first one. -/
def Output.Begins (before after : Output) : Prop := before.toList <+: after.toList

lemma Output.Begins.refl (output : Output) : output.Begins output := List.prefix_refl _

lemma Output.Begins.trans {a b c : Output} (h : a.Begins b) (further : b.Begins c) : a.Begins c :=
  List.IsPrefix.trans h further

lemma Output.begins_push (output : Output) (line : String) : output.Begins (output.push line) := by
  unfold Begins
  rw [Array.toList_push]
  exact List.prefix_append _ _

/-! ### Computations that go on -/

variable {σ α β : Type} {written : σ → Output}

/-- The second computation takes nothing of the output back. It does the same as the first one, or
the first one runs out of steps and the second one writes at least as much. -/
def Prolongs (written : σ → Output) (x y : ExceptT Stop (StateM σ) α) : Prop :=
  ∀ s, (written s).Begins (written (y s).2) ∧
    (y s = x s ∨ (x s).1 = .error .outOfSteps ∧ (written (x s).2).Begins (written (y s).2))

namespace Prolongs

lemma pure (a : α) : Prolongs written (pure a) (pure a) := fun _ => ⟨.refl _, .inl rfl⟩

lemma throw (stop : Stop) : Prolongs (α := α) written (throw stop) (throw stop) :=
  fun _ => ⟨.refl _, .inl rfl⟩

lemma outOfSteps {x y : ExceptT Stop (StateM σ) α} (h : Prolongs written x y) :
    Prolongs written (MonadExcept.throw .outOfSteps) y :=
  fun s => ⟨(h s).1, .inr ⟨rfl, (h s).1⟩⟩

lemma bind {x y : ExceptT Stop (StateM σ) α} {f g : α → ExceptT Stop (StateM σ) β}
    (h : Prolongs written x y) (next : ∀ a, Prolongs written (f a) (g a)) :
    Prolongs written (x >>= f) (y >>= g) := by
  intro s
  obtain ⟨kept, goesOn⟩ := h s
  have after : (written (y s).2).Begins (written ((y >>= g) s).2) := by
    rw [bind_apply]
    rcases y s with ⟨stop | a, t⟩
    · exact .refl _
    · exact (next a t).1
  refine ⟨kept.trans after, ?_⟩
  rcases goesOn with same | ⟨stopped, further⟩
  · rw [bind_apply, bind_apply, same]
    rcases x s with ⟨stop | a, t⟩
    · exact .inl rfl
    · exact (next a t).2
  · -- what comes behind is not run in the first one, and only appends in the second one
    right
    rw [bind_apply x f]
    rcases ran : x s with ⟨answer, t⟩
    rw [ran] at stopped further
    subst stopped
    exact ⟨rfl, further.trans after⟩

end Prolongs

abbrev Eval.Prolongs (x y : Eval α) : Prop := SmallPascal.Prolongs id x y

abbrev Exec.Prolongs (x y : Exec α) : Prop := SmallPascal.Prolongs Machine.output x y

namespace Prolongs

lemma ofExcept (span : Span) (step : Except RuntimeFault α) :
    Eval.Prolongs (.ofExcept span step) (.ofExcept span step) := by
  cases step with
  | ok a => exact .pure a
  | error fault => exact .throw _

lemma eval {f g : Store → Eval α} (h : ∀ store, Eval.Prolongs (f store) (g store)) :
    Exec.Prolongs (.eval f) (.eval g) := by
  intro m
  obtain ⟨kept, same | ⟨stopped, further⟩⟩ := h m.store m.output
  · refine ⟨kept, .inl ?_⟩
    unfold Exec.eval
    rw [same]
  · exact ⟨kept, .inr ⟨stopped, further⟩⟩

lemma set (name : String) (value : Value) : Exec.Prolongs (.set name value) (.set name value) :=
  fun _ => ⟨.refl _, .inl rfl⟩

lemma writeLine (line : String) : Exec.Prolongs (.writeLine line) (.writeLine line) :=
  fun m => ⟨m.output.begins_push line, .inl rfl⟩

lemma readInteger (name : String) (span : Span) :
    Exec.Prolongs (.readInteger name span) (.readInteger name span) := by
  refine .eval fun store => ?_
  cases store.get? name with
  | none => exact .throw _
  | some value => exact .ofExcept span _

lemma writeElement (name : String) (path : List (Nat × Ty)) (value : Value) (span : Span) :
    Exec.Prolongs (.writeElement name path value span) (.writeElement name path value span) := by
  refine fun m => ⟨?_, .inl rfl⟩
  rw [Exec.writeElement_apply]
  cases m.store.get? name <;> exact .refl _

variable {bound bound' : Nat}

lemma repeatWhile {test test' : Exec Bool} {body body' : Exec Unit}
    (htest : Exec.Prolongs test test') (hbody : Exec.Prolongs body body') (le : bound ≤ bound') :
    Exec.Prolongs (.repeatWhile test body bound) (.repeatWhile test' body' bound') := by
  induction bound' generalizing bound with
  | zero =>
    obtain rfl := Nat.le_zero.1 le
    exact .throw _
  | succ bound' ih =>
    -- a whole turn, also where the first loop may take none and so stops before it
    have turn {bound : Nat} (le : bound ≤ bound') :
        Exec.Prolongs (.repeatWhile test body (bound + 1))
        (.repeatWhile test' body' (bound' + 1)) := by
      refine htest.bind fun b => ?_
      cases b with
      | false => exact .pure ()
      | true => exact hbody.bind fun _ => ih le
    cases bound with
    | zero => exact (turn (Nat.zero_le _)).outOfSteps
    | succ bound => exact turn (Nat.le_of_succ_le_succ le)

lemma countTo (name : String) (limit : Integer) (span : Span) {body body' : Exec Unit}
    (hbody : Exec.Prolongs body body') (le : bound ≤ bound') :
    Exec.Prolongs (.countTo name limit span body bound)
      (.countTo name limit span body' bound') := by
  induction bound' generalizing bound with
  | zero =>
    obtain rfl := Nat.le_zero.1 le
    exact .throw _
  | succ bound' ih =>
    have turn {bound : Nat} (le : bound ≤ bound') :
        Exec.Prolongs (.countTo name limit span body (bound + 1))
          (.countTo name limit span body' (bound' + 1)) := by
      refine (readInteger name span).bind fun current => ?_
      split
      · refine hbody.bind fun _ => (readInteger name span).bind fun reached => ?_
        cases Integer.add? reached 1 with
        | none => exact .pure ()
        | some next => exact (set name (.integer next)).bind fun _ => ih le
      · exact .pure ()
    cases bound with
    | zero => exact (turn (Nat.zero_le _)).outOfSteps
    | succ bound => exact turn (Nat.le_of_succ_le_succ le)

end Prolongs

/-! ### Trees -/

/-- Calls in the second context go on where those in the first one run out of steps. -/
structure Context.Prolongs (context context' : Context) : Prop where
  routines : context.routines = context'.routines
  run : ∀ routine values store,
    Eval.Prolongs (context.run routine values store) (context'.run routine values store)

section

variable {context context' : Context} (longer : context.Prolongs context') {store : Store}

lemma Expr.evalAll_prolongs {args : List Expr}
    (h : ∀ arg ∈ args, Eval.Prolongs (arg.eval context store) (arg.eval context' store)) :
    Eval.Prolongs (Expr.evalAll context store args) (Expr.evalAll context' store args) := by
  induction args with
  | nil => exact .pure []
  | cons arg rest ih =>
    refine (h arg List.mem_cons_self).bind fun value => ?_
    refine (ih fun arg among => h arg (List.mem_cons_of_mem _ among)).bind fun values => ?_
    exact .pure _

include longer

theorem Expr.eval_prolongs (e : Expr) :
    Eval.Prolongs (e.eval context store) (e.eval context' store) := by
  induction e using Node.exprByParts with | step e part =>
  cases e with
  | literal value => exact .pure value
  | var name =>
    unfold eval
    cases store.get? name with
    | none => exact .throw _
    | some value => exact .pure value
  | widen operand =>
    exact (part operand (by simp [Node.children])).bind fun value => .pure _
  | unary op operand =>
    exact (part operand (by simp [Node.children])).bind fun value => .ofExcept _ _
  | binary op left right =>
    refine (part left (by simp [Node.children])).bind fun a => ?_
    exact (part right (by simp [Node.children])).bind fun b => .ofExcept _ _
  | index array subscript =>
    refine (part array (by simp [Node.children])).bind fun elements => ?_
    refine (part subscript (by simp [Node.children])).bind fun n => ?_
    exact (Prolongs.ofExcept _ _).bind fun offset => .ofExcept _ _
  | call id name args =>
    unfold eval
    rw [longer.routines]
    cases context'.routines[id]? with
    | none => exact .throw _
    | some routine =>
      refine (evalAll_prolongs fun arg among => part arg (List.mem_map_of_mem among)).bind
        fun values => ?_
      refine (longer.run routine values store).bind fun result => ?_
      cases result with
      | none => exact .throw _
      | some value => exact .pure value

lemma Expr.holds_prolongs (e : Expr) :
    Eval.Prolongs (e.holds context store) (e.holds context' store) := by
  refine (e.eval_prolongs longer).bind fun value => ?_
  cases value with
  | boolean b => exact .pure b
  | _ => exact .throw _

lemma offsets_prolongs (path : List IndexStep) :
    Eval.Prolongs (offsets context store path) (offsets context' store path) := by
  induction path with
  | nil => exact .pure []
  | cons step rest ih =>
    refine (step.index.eval_prolongs longer).bind fun n => ?_
    refine (Prolongs.ofExcept _ _).bind fun offset => ?_
    exact ih.bind fun more => .pure _

end

section

variable {context context' : Context} {bound bound' : Nat}

mutual

/-- **A statement goes on** where it ran out of steps, and otherwise does the same. -/
theorem Stmt.exec_prolongs (longer : context.Prolongs context') (le : bound ≤ bound') (s : Stmt) :
    Exec.Prolongs (s.exec context bound) (s.exec context' bound') := by
  match s with
  | .block statements _ => exact Stmt.execAll_prolongs longer le statements
  | .ifThen condition yes _ =>
    refine (Prolongs.eval fun _ => condition.holds_prolongs longer).bind fun b => ?_
    cases b with
    | false => exact .pure ()
    | true => exact yes.exec_prolongs longer le
  | .ifThenElse condition yes no _ =>
    refine (Prolongs.eval fun _ => condition.holds_prolongs longer).bind fun b => ?_
    cases b with
    | false => exact no.exec_prolongs longer le
    | true => exact yes.exec_prolongs longer le
  | .whileDo condition body _ =>
    exact .repeatWhile (.eval fun _ => condition.holds_prolongs longer)
      (body.exec_prolongs longer le) le
  | .forTo name start limit body span =>
    refine (start.exec_prolongs longer le).bind fun _ => ?_
    refine (Prolongs.eval fun _ => limit.eval_prolongs longer).bind fun n => ?_
    refine (Prolongs.eval fun _ => .ofExcept _ _).bind fun last => ?_
    exact .countTo name last span (body.exec_prolongs longer le) le
  | .writeln args _ =>
    refine Prolongs.bind (.eval fun store => ?_) fun values => .writeLine _
    exact Expr.evalAll_prolongs fun arg _ => arg.eval_prolongs longer
  | .assign name value _ =>
    exact (Prolongs.eval fun _ => value.eval_prolongs longer).bind fun v => .set name v
  | .assignElement name path value span =>
    refine (Prolongs.eval fun _ => offsets_prolongs longer path).bind fun places => ?_
    refine (Prolongs.eval fun _ => value.eval_prolongs longer).bind fun v => ?_
    exact .writeElement name places v span
  | .call id _ args span =>
    unfold Stmt.exec
    rw [longer.routines]
    cases context'.routines[id]? with
    | none => exact .throw _
    | some routine =>
      refine Prolongs.bind (.eval fun store => ?_) fun _ => .pure ()
      refine (Expr.evalAll_prolongs fun arg _ => arg.eval_prolongs longer).bind fun values => ?_
      exact longer.run routine values store
  | .skip _ => exact .pure ()

theorem Stmt.execAll_prolongs (longer : context.Prolongs context') (le : bound ≤ bound')
    (statements : List Stmt) :
    Exec.Prolongs (Stmt.execAll context bound statements)
      (Stmt.execAll context' bound' statements) := by
  match statements with
  | [] => exact .pure ()
  | s :: rest =>
    exact (s.exec_prolongs longer le).bind fun _ => Stmt.execAll_prolongs longer le rest

end

end

/-! ### Runs -/

section

variable {bound bound' : Nat}

/-- Calls go on under greater bounds on the turns of loops and on the nesting of calls. -/
lemma Context.prolongs_run (routines : List Routine) (le : bound ≤ bound') {depth depth' : Nat}
    (deeper : depth ≤ depth') : Context.Prolongs ⟨routines, Routine.run routines bound depth⟩
      ⟨routines, Routine.run routines bound' depth'⟩ := by
  refine ⟨rfl, fun routine values store => ?_⟩
  induction depth' generalizing depth routine values store with
  | zero =>
    obtain rfl := Nat.le_zero.1 deeper
    exact .throw _
  | succ depth' ih =>
    have call {depth : Nat} (deeper : depth ≤ depth') : Eval.Prolongs
        (Routine.run routines bound (depth + 1) routine values store)
        (Routine.run routines bound' (depth' + 1) routine values store) := by
      have longer : Context.Prolongs ⟨routines, Routine.run routines bound depth⟩
          ⟨routines, Routine.run routines bound' depth'⟩ := ⟨rfl, ih deeper⟩
      intro output
      obtain ⟨kept, same | ⟨stopped, further⟩⟩ :=
        routine.body.exec_prolongs longer le ⟨routine.frame values store, output⟩
      · exact ⟨kept, .inl (by rw [Routine.run_apply, Routine.run_apply, same])⟩
      · refine ⟨kept, .inr ⟨?_, further⟩⟩
        rw [Routine.run_apply]
        exact congrArg (Except.map _) stopped
    cases depth with
    | zero => exact (call (Nat.zero_le _)).outOfSteps
    | succ depth => exact call (Nat.le_of_succ_le_succ deeper)

/-- **A program goes on** where it ran out of steps, and otherwise runs in the same way. -/
theorem Program.run_prolongs (program : Program) (le : bound ≤ bound') :
    program.run bound' = program.run bound ∨
    (program.run bound).1 = .error .outOfSteps ∧
      (program.run bound).2.output.Begins (program.run bound').2.output :=
  (program.body.exec_prolongs (Context.prolongs_run program.routines le le) le
    ⟨program.initialStore, #[]⟩).2

/-- **The bound decides how far a run gets, and nothing else.** Under a greater bound, the same
comes of a text, or it ran out of steps and the lines that it wrote are the first ones of those that
it writes now. -/
theorem interpret_prolongs (text : String) (le : bound ≤ bound') :
    interpret text bound' = interpret text bound ∨
    (interpret text bound).ending = .outOfSteps ∧
      (interpret text bound).output.Begins (interpret text bound').output := by
  rcases read : Program.ofText text with diagnostic | program
  · left
    simp only [interpret, read]
  obtain same | ⟨stopped, further⟩ := program.run_prolongs le
  · left
    simp only [interpret, read, same]
  · right
    rcases ran : program.run bound with ⟨answer, machine⟩
    rcases ran' : program.run bound' with ⟨answer', machine'⟩
    rw [ran, ran'] at further
    rw [ran] at stopped
    subst stopped
    simp only [interpret, read, ran, ran', true_and]
    rcases answer' with (_ | _) | _ <;> exact further

/-- What comes of a text under a bound that it does not meet comes of it under every greater one. -/
theorem interpret_of_ended {text : String} (ended : (interpret text bound).ending ≠ .outOfSteps)
    (le : bound ≤ bound') : interpret text bound' = interpret text bound :=
  (interpret_prolongs text le).resolve_right fun stopped => ended stopped.1

/-- Two bounds under which a text does not run out of steps lead to the same. -/
theorem interpret_eq_of_ended {text : String} (ended : (interpret text bound).ending ≠ .outOfSteps)
    (ended' : (interpret text bound').ending ≠ .outOfSteps) :
    interpret text bound' = interpret text bound := by
  rcases Nat.le_total bound bound' with le | le
  · exact interpret_of_ended ended le
  · exact (interpret_of_ended ended' le).symm

end

end SmallPascal
