import SmallPascal.Proofs.Outcomes
import SmallPascal.Proofs.Recast

/-!
Running what is recast: statements do the same to the store and write the same lines, and where they
stop, they stop with the same fault at its new place.
-/

namespace SmallPascal

open Steps

/-! ### Stops at new places -/

section

variable {ε ε' σ α β : Type} (g : ε → ε')

lemma adapt_apply (x : ExceptT ε (StateM σ) α) (s : σ) :
    x.adapt g s = ((x s).1.mapError g, (x s).2) := rfl

lemma adapt_bind (x : ExceptT ε (StateM σ) α) (f : α → ExceptT ε (StateM σ) β) :
    (x >>= f).adapt g = x.adapt g >>= fun a => (f a).adapt g := by
  funext s
  rw [bind_apply, adapt_apply, adapt_apply, bind_apply]
  rcases x s with ⟨_ | _, _⟩ <;> rfl

omit g in
lemma adapt_id (x : ExceptT ε (StateM σ) α) : x.adapt id = x := by
  funext s
  rw [adapt_apply]
  rcases x s with ⟨_ | _, _⟩ <;> rfl

lemma adapt_ite (c : Prop) [Decidable c] (x y : ExceptT ε (StateM σ) α) :
    (if c then x else y).adapt g = if c then x.adapt g else y.adapt g :=
  apply_ite (ExceptT.adapt g) c x y

end

namespace Exec

lemma adapt_eval {α : Type} (g : Stop → Stop) (computation : Store → Eval α) :
    (eval computation).adapt g = eval fun store => (computation store).adapt g := rfl

lemma adapt_repeatWhile (g : Stop → Stop) (steps : g .outOfSteps = .outOfSteps) (test : Exec Bool)
    (body : Exec Unit) :
    ∀ bound, (repeatWhile test body bound).adapt g = repeatWhile (test.adapt g) (body.adapt g) bound
  | 0 => congrArg (fun stop => (throw stop : Exec Unit)) steps
  | bound + 1 => by
    simp only [repeatWhile, adapt_bind, adapt_ite, adapt_repeatWhile g steps test body bound]
    rfl

end Exec

namespace Recast

variable {m : Recast}

lemma adapt_ofExcept {α : Type} (span : Span) (step : Except RuntimeFault α) :
    (Eval.ofExcept span step).adapt m.stop = Eval.ofExcept (m.span span) step := by
  cases step <;> rfl

lemma adapt_readInteger (name : String) (span : Span) :
    (Exec.readInteger name span).adapt m.stop = Exec.readInteger name (m.span span) := by
  unfold Exec.readInteger
  rw [Exec.adapt_eval]
  refine congrArg Exec.eval (funext fun store => ?_)
  cases store.get? name with
  | some => exact adapt_ofExcept ..
  | none => rfl

lemma adapt_writeElement (name : String) (path : List (Nat × Ty)) (value : Value) (span : Span) :
    (Exec.writeElement name path value span).adapt m.stop =
      Exec.writeElement name path value (m.span span) := by
  funext machine
  rw [adapt_apply, Exec.writeElement_apply, Exec.writeElement_apply]
  cases machine.store.get? name with
  | none => rfl
  | some target =>
    dsimp only
    cases (Value.write path value target).2 <;> rfl

lemma adapt_countTo (name : String) (limit : Integer) (span : Span) (body : Exec Unit) :
    ∀ bound, (Exec.countTo name limit span body bound).adapt m.stop =
      Exec.countTo name limit (m.span span) (body.adapt m.stop) bound
  | 0 => rfl
  | bound + 1 => by
    simp only [Exec.countTo, adapt_bind, adapt_ite, adapt_readInteger]
    refine congrArg _ (funext fun current => if_congr Iff.rfl (congrArg _ (funext fun _ => ?_)) rfl)
    refine congrArg _ (funext fun reached => ?_)
    cases Integer.add? reached 1 with
    | none => rfl
    | some next =>
      exact (adapt_bind ..).trans (congrArg _ (funext fun _ => adapt_countTo name limit span body
        bound))

/-! ### Statements -/

section

variable (law : m.Lawful) {c d : Context} (carries : m.Carries c d)

include law carries

lemma evalAll_map (store : Store) (args : List Expr) :
    Expr.evalAll d store (args.map m.expr) = (Expr.evalAll c store args).adapt m.stop := by
  induction args with
  | nil => rfl
  | cons e rest ih =>
    simp only [List.map_cons, Expr.evalAll, adapt_bind, law.eval carries, ih]
    rfl

lemma holds_expr (store : Store) (e : Expr) :
    (m.expr e).holds d store = (e.holds c store).adapt m.stop := by
  unfold Expr.holds
  rw [law.eval carries, adapt_bind, law.place]
  refine congrArg _ (funext fun value => ?_)
  cases value <;> rfl

lemma offsets_map (store : Store) (path : List IndexStep) :
    offsets d store (path.map m.indexStep) = (offsets c store path).adapt m.stop := by
  induction path with
  | nil => rfl
  | cons step rest ih =>
    simp only [List.map_cons, offsets, adapt_bind, adapt_ofExcept]
    rw [ih]
    dsimp only [indexStep]
    rw [law.eval carries, law.place]
    rfl

end

section

variable {c d : Context} (bound : Nat)

mutual

/-- **Statements run as before.** -/
theorem exec_stmt (law : m.Lawful) (carries : m.Carries c d) (s : Stmt) :
    (m.stmt s).exec d bound = (s.exec c bound).adapt m.stop := by
  have test (e : Expr) : Exec.eval (fun store => (m.expr e).holds d store) =
      (Exec.eval fun store => e.holds c store).adapt m.stop := by
    rw [Exec.adapt_eval]
    exact congrArg _ (funext fun store => holds_expr law carries store e)
  have value (e : Expr) : Exec.eval (fun store => (m.expr e).eval d store) =
      (Exec.eval fun store => e.eval c store).adapt m.stop := by
    rw [Exec.adapt_eval]
    exact congrArg _ (funext fun store => law.eval carries store e)
  match s with
  | .block statements _ => exact execAll_stmtAll law carries statements
  | .ifThen condition yes _ =>
    simp only [stmt, Stmt.exec, adapt_bind, adapt_ite, test, exec_stmt law carries yes]
    rfl
  | .ifThenElse condition yes no _ =>
    simp only [stmt, Stmt.exec, adapt_bind, adapt_ite, test, exec_stmt law carries yes,
      exec_stmt law carries no]
  | .whileDo condition body _ =>
    simp only [stmt, Stmt.exec, Exec.adapt_repeatWhile m.stop rfl, test, exec_stmt law carries body]
  | .forTo name initializer limit body span =>
    simp only [stmt, Stmt.exec, adapt_bind, value, exec_stmt law carries initializer,
      exec_stmt law carries body, adapt_countTo, Exec.adapt_eval, adapt_ofExcept, law.place]
  | .writeln args _ =>
    simp only [stmt, Stmt.exec, adapt_bind, Exec.adapt_eval, evalAll_map law carries]
    rfl
  | .assign name e _ =>
    simp only [stmt, Stmt.exec, adapt_bind, value]
    rfl
  | .assignElement name path e span =>
    simp only [stmt, Stmt.exec, adapt_bind, value, Exec.adapt_eval, offsets_map law carries,
      adapt_writeElement]
  | .call id name args span =>
    simp only [stmt, Stmt.exec, carries.routines, List.getElem?_map]
    cases c.routines[id]? with
    | none => rfl
    | some routine =>
      simp only [Option.map_some, adapt_bind, Exec.adapt_eval, evalAll_map law carries, carries.run]
      rfl
  | .skip _ => rfl

theorem execAll_stmtAll (law : m.Lawful) (carries : m.Carries c d) (statements : List Stmt) :
    Stmt.execAll d bound (m.stmtAll statements) =
      (Stmt.execAll c bound statements).adapt m.stop := by
  match statements with
  | [] => rfl
  | s :: rest =>
    simp only [stmtAll, Stmt.execAll, adapt_bind, exec_stmt law carries s,
      execAll_stmtAll law carries rest]

end

end

/-! ### Programs -/

variable (law : m.Lawful)

include law

lemma run_routine (routines : List Routine) (bound : Nat) :
    ∀ depth routine values store, Routine.run (routines.map m.routine) bound depth
      (m.routine routine)
      values store = (Routine.run routines bound depth routine values store).adapt m.stop
  | 0, _, _, _ => rfl
  | depth + 1, routine, values, store => by
    have carries : m.Carries ⟨routines, Routine.run routines bound depth⟩
        ⟨routines.map m.routine, Routine.run (routines.map m.routine) bound depth⟩ :=
      ⟨rfl, run_routine routines bound depth⟩
    funext output
    have body :
        (m.routine routine).body.exec _ bound
        ⟨(m.routine routine).frame values store, output⟩ = _ :=
      congrFun (exec_stmt bound law carries routine.body) ⟨routine.frame values store, output⟩
    rw [adapt_apply, Routine.run_apply, Routine.run_apply, body, adapt_apply]
    rcases routine.body.exec _ bound ⟨routine.frame values store, output⟩ with ⟨_ | _, machine⟩ <;>
      rfl

/-- **Programs run as before**, to the same store and the same lines. -/
theorem run_program (program : Program) (bound : Nat) :
    (m.program program).run bound =
      ((program.run bound).1.mapError m.stop, (program.run bound).2) := by
  have carries : m.Carries (.ofRoutines program.routines bound)
      (.ofRoutines (program.routines.map m.routine) bound) :=
    ⟨rfl, run_routine law program.routines bound bound⟩
  exact congrFun (exec_stmt bound law carries program.body) _

end Recast

end SmallPascal
