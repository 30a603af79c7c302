import SmallPascal.Proofs.Policies

/-! What a statement may set: the names that it assigns to or counts, itself or in a statement
inside it. What the routines that it calls set is set in stores of their own. -/

namespace SmallPascal

def Node.target? : Node → Option String
  | .expr _ => none
  | .stmt s => s.target?

/-- The names that are set in a statement, bodies of routines not counted. -/
def Stmt.targets (s : Stmt) : List String := (Node.stmt s).all.filterMap Node.target?

lemma Stmt.throughout_of_not_mem_targets {name : String} {s : Stmt} (h : name ∉ s.targets) :
    (Node.stmt s).Throughout fun node => node.target? ≠ some name :=
  fun _ among sets => h (List.mem_filterMap.2 ⟨_, among, sets⟩)

lemma suits_untouched (name : String) (there : Option Value) (context : Context) :
    Policy.Suits ⟨fun store => store.get? name = there, fun _ => True, fun _ _ => True⟩ context
      (fun node => node.target? ≠ some name) := by
  refine Policy.suits_of_sets (fun s other target sets store value kept => ?_) context
  have apart : target ≠ name := by
    rintro rfl
    exact other sets
  exact (store.get?_set_of_ne value apart).trans kept

/-- **What a statement does not set stays**, whatever comes of it. -/
theorem Stmt.get?_exec {name : String} {s : Stmt} (h : name ∉ s.targets)
    (context : Context) (bound : Nat)
    (m : Machine) : (s.exec context bound m).2.store.get? name = m.store.get? name :=
  ((suits_untouched name _ context).exec bound s (throughout_of_not_mem_targets h) m rfl).1

lemma suits_defined (name : String) (context : Context) :
    Policy.Suits ⟨fun store => (store.get? name).isSome, fun _ => True, fun _ _ => True⟩ context
      (fun _ => True) := by
  refine Policy.suits_of_sets (fun s _ target _ store value defined => ?_) context
  by_cases same : target = name
  · simp [same]
  · rwa [store.get?_set_of_ne value same]

lemma Stmt.isSome_get?_exec {name : String} {m : Machine} (defined : (m.store.get? name).isSome)
    (context : Context) (bound : Nat) (s : Stmt) :
    ((s.exec context bound m).2.store.get? name).isSome :=
  ((suits_defined name context).exec bound s (fun _ _ => trivial) m defined).1

lemma Exec.store_eval {α : Type} (computation : Store → Eval α) (m : Machine) :
    (Exec.eval computation m).2.store = m.store := Exec.store_of_eval rfl

/-- A procedure works in a copy of its caller's store, of which nothing comes back. -/
lemma Stmt.store_exec_call (context : Context) (bound : Nat) (id : RoutineId) (name : String)
    (args : List Expr) (span : Span) (m : Machine) :
    ((Stmt.call id name args span).exec context bound m).2.store = m.store := by
  unfold Stmt.exec
  cases context.routines[id]? with
  | none => rfl
  | some routine =>
    have kept := Exec.store_eval (fun store => do
      context.run routine (← Expr.evalAll context store args) store) m
    dsimp only
    rw [Steps.bind_apply]
    split
    next ran => rw [ran] at kept; exact kept
    next ran => rw [ran] at kept; exact kept

/-- **A statement writes only what it names.** However its run ends, a name that it does not set has
the value that it had, or none if it had none; no name loses its value; and the call of a procedure
leaves the whole store. -/
theorem Stmt.writes_only_targets (context : Context) (bound : Nat) (s : Stmt) (m : Machine) :
    (∀ name, name ∉ s.targets →
      (s.exec context bound m).2.store.get? name = m.store.get? name) ∧
    (∀ name, (m.store.get? name).isSome →
      ((s.exec context bound m).2.store.get? name).isSome) ∧
    ∀ id name args span, s = .call id name args span →
      (s.exec context bound m).2.store = m.store := by
  refine ⟨fun name other => s.get?_exec other context bound m, fun name defined => ?_, ?_⟩
  · exact s.isSome_get?_exec defined context bound
  · rintro id name args span rfl
    exact store_exec_call context bound id name args span m

/-- A procedure that sets a name of its caller is called, by itself and in a loop, before a division
by zero ends the run. -/
theorem Stmt.writes_only_targets_stopped :
    let one : Expr := .literal (.integer 1) .integer .nowhere
    let p : Routine :=
      ⟨"p", [], none, [], .assign "x" (.literal (.integer 5) .integer .nowhere) .nowhere,
      .nowhere⟩
    let context : Context := ⟨[p], Routine.run [p] 9 9⟩
    let call : Stmt := .call 0 "p" [] .nowhere
    let s : Stmt := .block [.assignElement "a" [⟨one, 0, 3, .integer⟩] one .nowhere,
      .forTo "i" (.assign "i" one .nowhere) (.literal (.integer 2) .integer .nowhere) call .nowhere,
      .assign "a" (.binary .intDiv one (.literal (.integer 0) .integer .nowhere) .integer .nowhere)
        .nowhere] .nowhere
    let m : Machine := ⟨⟨[("x", .integer 1), ("a", .array .nil)]⟩, #[]⟩
    "x" ∉ s.targets ∧ (m.store.get? "a").isSome ∧
    (s.exec context 9 m).1 = .error (.fault .divisionByZero .nowhere) ∧
    (s.exec context 9 m).2.store.get? "x" = m.store.get? "x" ∧
    ((s.exec context 9 m).2.store.get? "a").isSome ∧
    (call.exec context 9 m).2.store = m.store := by
  intro one p context call s m
  have other : "x" ∉ s.targets := by decide +kernel
  have defined : (m.store.get? "a").isSome := by decide +kernel
  have written := writes_only_targets context 9 s m
  have called := writes_only_targets context 9 call m
  exact ⟨other, defined, rfl, written.1 "x" other, written.2.1 "a" defined,
    called.2.2 0 "p" [] .nowhere rfl⟩

end SmallPascal
