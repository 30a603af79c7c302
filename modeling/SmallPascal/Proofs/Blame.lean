import SmallPascal.Proofs.Policies

/-! Where the faults of a run are put: each of them is the fault of a node of the program, and has
its place. -/

namespace SmallPascal

open Steps

variable {blamed : Span → Prop} {context : Context}

/-- The node covers a part of the text that may be blamed. -/
def Node.Blamed (blamed : Span → Prop) (node : Node) : Prop := blamed node.span

/-- Nothing is kept of the stores but that faults are put where they may be. -/
def Policy.blaming (blamed : Span → Prop) : Policy := ⟨fun _ => True, blamed, fun _ _ => True⟩

lemma Policy.values_blaming {store : Store}
    (answers : ∀ routine ∈ context.routines, ∀ values,
      Eval.Yields (Stop.At blamed) (fun _ => True) (context.run routine values store)) :
    (Policy.blaming blamed).Values context store (Node.Blamed blamed) where
  place _ h := h
  literal _ _ _ _ := trivial
  var _ _ _ _ _ := trivial
  widen _ _ _ _ _ := trivial
  binary _ _ _ _ _ _ _ _ _ := trivial
  unary _ _ _ _ _ _ _ := trivial
  index _ _ _ _ _ _ _ _ _ _ _ := trivial
  call _ _ _ _ _ _ routine found values _ :=
    (answers routine (List.mem_of_getElem? found) values).imp fun _ _ _ _ => trivial

lemma Expr.blamed_of_constant? {e : Expr} (h : (Node.expr e).Throughout (Node.Blamed blamed))
    {fault : RuntimeFault} {span : Span} (failed : e.constant? = .error (.fault fault span)) :
    blamed span := by
  have values : (Policy.blaming blamed).Values .empty .empty (Node.Blamed blamed) :=
    Policy.values_blaming (by simp [Context.empty])
  have ended := (values.eval e h #[] trivial).2
  unfold constant? at failed
  rwa [failed] at ended

lemma Policy.suits_blaming
    (answers : ∀ routine ∈ context.routines, ∀ values store,
      Eval.Yields (Stop.At blamed) (fun _ => True) (context.run routine values store)) :
    (Policy.blaming blamed).Suits context (Node.Blamed blamed) where
  place _ h := h
  eval e h store _ :=
    (Policy.values_blaming fun routine among values => answers routine among values store).eval e h
  write s _ := by cases s <;> simp [Stmt.Respects, blaming]
  call _ _ _ _ _ routine found values store _ _ :=
    answers routine (List.mem_of_getElem? found) values store

/-- The faults of calls are put at nodes of the bodies of routines, from however deep they are
made. -/
lemma Routine.yields_run {routines : List Routine} (bound : Nat)
    (h : ∀ routine ∈ routines, (Node.stmt routine.body).Throughout (Node.Blamed blamed))
    (depth : Nat) :
    ∀ routine ∈ routines, ∀ values store,
      Eval.Yields (Stop.At blamed) (fun _ => True)
      (Routine.run routines bound depth routine values store) := by
  induction depth with
  | zero => exact fun _ _ _ _ => .throw trivial
  | succ depth ih =>
    intro routine among values store
    have suits : (Policy.blaming blamed).Suits ⟨routines, Routine.run routines bound depth⟩
        (Node.Blamed blamed) := Policy.suits_blaming ih
    exact .run (suits.exec bound _ (h routine among)) trivial fun _ _ => trivial

namespace Program

variable {program : Program} {bound : Nat}

lemma throughout_of_nodes {P : Node → Prop} (h : ∀ node ∈ program.nodes, P node) :
    (Node.stmt program.body).Throughout P ∧
      ∀ routine ∈ program.routines, (Node.stmt routine.body).Throughout P := by
  constructor
  · exact fun node among => h node (List.mem_append_left _ among)
  · intro routine listed node among
    exact h node (List.mem_append_right _ (List.mem_flatMap.2 ⟨routine, listed, among⟩))

/-- **Every fault of a run is the fault of a node of the program.** -/
theorem exists_node_of_run {fault : RuntimeFault} {span : Span}
    (failed : (program.run bound).1 = .error (.fault fault span)) :
    ∃ node ∈ program.nodes, node.span = span := by
  let blamed (span : Span) : Prop := ∃ node ∈ program.nodes, node.span = span
  have nodes (node) (among : node ∈ program.nodes) : node.Blamed blamed := ⟨node, among, rfl⟩
  obtain ⟨body, routines⟩ := throughout_of_nodes nodes
  have suits : (Policy.blaming blamed).Suits (.ofRoutines program.routines bound)
      (Node.Blamed blamed) := Policy.suits_blaming (Routine.yields_run bound routines bound)
  have ended := (suits.exec bound program.body body ⟨program.initialStore, #[]⟩ trivial).2
  unfold run at failed
  rwa [failed] at ended

end Program

end SmallPascal
