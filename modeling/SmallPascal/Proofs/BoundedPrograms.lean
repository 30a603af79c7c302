import SmallPascal.Proofs.Counting
import SmallPascal.Proofs.StepBounds

/-! Programs that come to an end. Where there are no loops with conditions, no loop counts a
variable that its body sets, and calls cannot lead back to where they come from, no loop takes more
turns than there are integers and no call nests deeper than the routines are ranked. So a run comes
to its end, or to a fault. -/

namespace SmallPascal

open Steps

/-! ### Computations that end -/

lemma Exec.readInteger_refused {name : String} {m : Machine}
    (h : ¬ ∃ n : Integer, m.store.get? name = some (.integer n)) (span : Span) :
    ∃ fault, Exec.readInteger name span m = (.error (.fault fault span), m) := by
  unfold readInteger eval
  dsimp only
  rcases there : m.store.get? name with _ | value
  · exact ⟨_, rfl⟩
  · cases value with
    | integer n => exact absurd ⟨n, there⟩ h
    | _ => exact ⟨_, rfl⟩

/-- From every state the computation comes to an answer or to a fault. -/
def Completes {σ α : Type} (x : ExceptT Stop (StateM σ) α) : Prop :=
  Upholds (fun _ => True) (· ≠ .outOfSteps) (fun _ => True) x

namespace Completes

variable {σ α β : Type}

lemma apply {x : ExceptT Stop (StateM σ) α} (h : Completes x) (s : σ) :
    (x s).1 ≠ .error .outOfSteps := by
  intro stopped
  have ended := (h s trivial).2
  rw [stopped] at ended
  exact ended rfl

lemma pure (a : α) : Completes (pure a : ExceptT Stop (StateM σ) α) := Upholds.pure trivial

lemma fault (fault : RuntimeFault) (span : Span) :
    Completes (throw (.fault fault span) : ExceptT Stop (StateM σ) α) := Upholds.throw nofun

lemma bind {x : ExceptT Stop (StateM σ) α} {f : α → ExceptT Stop (StateM σ) β} (h : Completes x)
    (next : ∀ a, Completes (f a)) : Completes (x >>= f) := Upholds.bind h fun a _ => next a

lemma ofExcept (span : Span) (step : Except RuntimeFault α) :
    Completes (Eval.ofExcept span step) :=
  Upholds.ofExcept (.intro (fun _ => nofun) fun _ _ => trivial)

lemma eval {computation : Store → Eval α} (h : ∀ store, Completes (computation store)) :
    Completes (Exec.eval computation) :=
  (Upholds.eval fun store _ => h store : Exec.Upholds (fun _ => True) _ _ _)

lemma set (name : String) (value : Value) : Completes (Exec.set name value) :=
  (Upholds.set fun _ _ => trivial : Exec.Upholds (fun _ => True) _ _ _)

lemma writeLine (line : String) : Completes (Exec.writeLine line) :=
  (Upholds.writeLine line : Exec.Upholds (fun _ => True) _ _ _)

lemma writeElement (name : String) (path : List (Nat × Ty)) (value : Value) (span : Span) :
    Completes (Exec.writeElement name path value span) := by
  refine (Upholds.writeElement fun store _ => ?_ : Exec.Upholds (fun _ => True) _ _ _)
  cases store.get? name with
  | none => nofun
  | some target => exact ⟨trivial, fun _ _ => nofun⟩

lemma countTo {name : String} {body : Exec Unit}
    (keeps : ∀ m, (body m).2.store.get? name = m.store.get? name) (hbody : Completes body)
    (limit : Integer) (span : Span) {bound : Nat}
    (enough : ∀ first : Integer, (first.upTo limit).length < bound) :
    Completes (Exec.countTo name limit span body bound) := by
  intro m _
  obtain ⟨bound, rfl⟩ : ∃ more, bound = more + 1 :=
    Nat.exists_eq_add_one_of_ne_zero (Nat.ne_zero_of_lt (enough limit))
  -- a variable that is no integer ends the loop with a fault at once
  by_cases counts : ∃ first : Integer, m.store.get? name = some (.integer first)
  · obtain ⟨first, there⟩ := counts
    have turns := Exec.countTo_eq_forEach keeps limit span (bound + 1) first m (enough first)
    rw [bind_of_ok (Exec.set_of_get? there)] at turns
    rw [turns, bind_apply]
    rcases ran : Exec.forEach name body (first.upTo limit) m with ⟨stop | _, n⟩
    · refine ⟨trivial, ?_⟩
      rintro rfl
      obtain ⟨-, -, m', -, stopped⟩ := Exec.forEach_error ran
      exact hbody.apply m' (congrArg Prod.fst stopped)
    · exact set name _ n trivial
  · obtain ⟨fault, refused⟩ := Exec.readInteger_refused counts span
    rw [Exec.countTo, bind_apply, refused]
    refine ⟨trivial, ?_⟩
    rintro ⟨⟩

end Completes

/-! ### Loops -/

def Integer.count : Nat := 18446744073709551616

lemma Integer.length_upTo_le (first last : Integer) : (first.upTo last).length ≤ count := by
  have low := least_le_toInt first
  have high := toInt_le_greatest last
  unfold upTo
  rw [List.length_map, List.length_range]
  unfold least greatest count at *
  omega

/-! ### Trees -/

/-- How far a run of the node itself goes is known beforehand. It is no loop with a condition, and
no loop that counts a variable which its body sets; and if it calls a routine, that ranks below the
limit. -/
def Node.Bounded (rank : RoutineId → Nat) (limit : Nat) : Node → Prop
  | .stmt (.whileDo ..) => False
  | .stmt (.forTo name _ _ body _) => name ∉ body.targets
  | .stmt (.call id ..) | .expr (.call id ..) => rank id < limit
  | _ => True

instance (rank : RoutineId → Nat) (limit : Nat) : DecidablePred (Node.Bounded rank limit)
  | .stmt (.whileDo ..) => .isFalse id
  | .stmt (.forTo name _ _ body _) => inferInstanceAs (Decidable (name ∉ body.targets))
  | .stmt (.call id ..) | .expr (.call id ..) => inferInstanceAs (Decidable (rank id < limit))
  | .stmt (.block ..) | .stmt (.ifThen ..) | .stmt (.ifThenElse ..) | .stmt (.writeln ..)
  | .stmt (.assign ..) | .stmt (.assignElement ..) | .stmt (.skip ..) | .expr (.literal ..)
  | .expr (.var ..) | .expr (.widen ..) | .expr (.unary ..) | .expr (.binary ..) | .expr
    (.index ..) =>
    .isTrue trivial

instance (P : Node → Prop) [DecidablePred P] (node : Node) : Decidable (node.Throughout P) :=
  inferInstanceAs (Decidable (∀ inner ∈ node.all, P inner))

/-- Calls of routines that rank below the limit come to an end. -/
def Context.Completes (rank : RoutineId → Nat) (limit : Nat) (context : Context) : Prop :=
  ∀ id routine, context.routines[id]? = some routine → rank id < limit →
    ∀ values store, SmallPascal.Completes (context.run routine values store)

section

variable {rank : RoutineId → Nat} {limit : Nat} {context : Context} {store : Store}

lemma Expr.evalAll_completes {args : List Expr}
    (h : ∀ arg ∈ args, Completes (arg.eval context store)) :
    Completes (Expr.evalAll context store args) :=
  (Upholds.evalAll h).imp fun _ _ => trivial

variable (calls : context.Completes rank limit)

include calls

theorem Expr.eval_completes (e : Expr) (h : (Node.expr e).Throughout (Node.Bounded rank limit)) :
    Completes (e.eval context store) := by
  induction e using Node.exprByParts with | step e ih =>
  have part (inner : Expr) (direct : .expr inner ∈ (Node.expr e).children) :
      Completes (inner.eval context store) := ih inner direct (h.child direct)
  cases e with
  | literal value => exact .pure value
  | var name =>
    unfold eval
    cases store.get? name with
    | none => exact .fault _ _
    | some value => exact .pure value
  | widen operand =>
    exact (part operand (by simp [Node.children])).bind fun value => .pure _
  | unary op operand =>
    exact (part operand (by simp [Node.children])).bind fun value => .ofExcept _ _
  | binary op left right =>
    refine (part left (by simp [Node.children])).bind fun a => ?_
    exact (part right (by simp [Node.children])).bind fun b => .ofExcept _ _
  | index array subscript =>
    refine (part array (by simp [Node.children])).bind fun elements => ?_
    refine (part subscript (by simp [Node.children])).bind fun n => ?_
    exact (Completes.ofExcept _ _).bind fun offset => .ofExcept _ _
  | call id name args =>
    have below : rank id < limit := h.self
    unfold eval
    rcases found : context.routines[id]? with _ | routine
    · exact .fault _ _
    · refine (evalAll_completes fun arg among => part arg (List.mem_map_of_mem among)).bind
        fun values => ?_
      refine (calls id routine found below values store).bind fun result => ?_
      cases result with
      | none => exact .fault _ _
      | some value => exact .pure value

lemma Expr.holds_completes (e : Expr) (h : (Node.expr e).Throughout (Node.Bounded rank limit)) :
    Completes (e.holds context store) := by
  refine (e.eval_completes calls h).bind fun value => ?_
  cases value with
  | boolean b => exact .pure b
  | _ => exact .fault _ _

lemma offsets_completes {path : List IndexStep}
    (h : ∀ step ∈ path, (Node.expr step.index).Throughout (Node.Bounded rank limit)) :
    Completes (offsets context store path) := by
  induction path with
  | nil => exact .pure []
  | cons step rest ih =>
    refine (step.index.eval_completes calls (h step List.mem_cons_self)).bind fun n => ?_
    refine (Completes.ofExcept _ _).bind fun offset => ?_
    exact (ih fun step among => h step (List.mem_cons_of_mem _ among)).bind fun more => .pure _

end

section

variable {rank : RoutineId → Nat} {limit : Nat} {context : Context} {bound : Nat}

mutual

/-- **A statement comes to its end**, or to a fault. -/
theorem Stmt.exec_completes (calls : context.Completes rank limit) (long : Integer.count < bound)
    (s : Stmt)
    (h : (Node.stmt s).Throughout (Node.Bounded rank limit)) :
    Completes (s.exec context bound) := by
  match s with
  | .block statements _ =>
    exact Stmt.execAll_completes calls long statements fun s among =>
      h.child (List.mem_map_of_mem among)
  | .ifThen condition yes _ =>
    have test : (Node.expr condition).Throughout (Node.Bounded rank limit) :=
      h.child (by simp [Node.children])
    refine (Completes.eval fun _ => condition.holds_completes calls test).bind fun b => ?_
    cases b with
    | false => exact .pure ()
    | true => exact yes.exec_completes calls long (h.child (by simp [Node.children]))
  | .ifThenElse condition yes no _ =>
    have test : (Node.expr condition).Throughout (Node.Bounded rank limit) :=
      h.child (by simp [Node.children])
    refine (Completes.eval fun _ => condition.holds_completes calls test).bind fun b => ?_
    cases b with
    | false => exact no.exec_completes calls long (h.child (by simp [Node.children]))
    | true => exact yes.exec_completes calls long (h.child (by simp [Node.children]))
  | .whileDo .. => exact h.self.elim
  | .forTo name start upper body span =>
    have untouched : name ∉ body.targets := h.self
    have last : (Node.expr upper).Throughout (Node.Bounded rank limit) :=
      h.child (by simp [Node.children])
    refine (start.exec_completes calls long (h.child (by simp [Node.children]))).bind fun _ => ?_
    refine (Completes.eval fun _ => upper.eval_completes calls last).bind fun n => ?_
    refine (Completes.eval fun _ => .ofExcept _ _).bind fun last => ?_
    refine .countTo (body.get?_exec untouched context bound)
      (body.exec_completes calls long (h.child (by simp [Node.children]))) last span fun first => ?_
    exact Nat.lt_of_le_of_lt (first.length_upTo_le last) long
  | .writeln args _ =>
    refine Completes.bind (.eval fun store => ?_) fun values => .writeLine _
    exact Expr.evalAll_completes fun arg among =>
      arg.eval_completes calls (h.child (List.mem_map_of_mem among))
  | .assign name value _ =>
    have given : (Node.expr value).Throughout (Node.Bounded rank limit) :=
      h.child (by simp [Node.children])
    exact (Completes.eval fun _ => value.eval_completes calls given).bind fun v => .set name v
  | .assignElement name path value span =>
    have given : (Node.expr value).Throughout (Node.Bounded rank limit) :=
      h.child (by simp [Node.children])
    have indices step (among : step ∈ path) :
        (Node.expr step.index).Throughout (Node.Bounded rank limit) :=
      h.child (List.mem_append_left _ (List.mem_map_of_mem among))
    refine (Completes.eval fun _ => offsets_completes calls indices).bind fun places => ?_
    refine (Completes.eval fun _ => value.eval_completes calls given).bind fun v => ?_
    exact .writeElement name places v span
  | .call id _ args span =>
    have below : rank id < limit := h.self
    unfold Stmt.exec
    rcases found : context.routines[id]? with _ | routine
    · exact .fault _ _
    · refine Completes.bind (.eval fun store => ?_) fun _ => .pure ()
      refine (Expr.evalAll_completes fun arg among =>
        arg.eval_completes calls (h.child (List.mem_map_of_mem among))).bind fun values => ?_
      exact calls id routine found below values store
  | .skip _ => exact .pure ()

theorem Stmt.execAll_completes (calls : context.Completes rank limit) (long : Integer.count < bound)
    (statements : List Stmt)
    (h : ∀ s ∈ statements, (Node.stmt s).Throughout (Node.Bounded rank limit)) :
    Completes (Stmt.execAll context bound statements) := by
  match statements with
  | [] => exact .pure ()
  | s :: rest =>
    exact (s.exec_completes calls long (h s List.mem_cons_self)).bind fun _ =>
      Stmt.execAll_completes calls long rest fun s among => h s (List.mem_cons_of_mem _ among)

end

end

/-! ### Runs -/

/-- No loop may go on for ever, the routines that the program calls rank below the limit, and those
that a routine calls rank below itself. -/
structure Program.Bounded (program : Program) (rank : RoutineId → Nat) (limit : Nat) : Prop where
  body : (Node.stmt program.body).Throughout (Node.Bounded rank limit)
  routines : ∀ entry ∈ program.routines.zipIdx,
    (Node.stmt entry.1.body).Throughout (Node.Bounded rank (rank entry.2))

instance (program : Program) (rank : RoutineId → Nat) (limit : Nat) :
    Decidable (program.Bounded rank limit) :=
  decidable_of_iff (_ ∧ _) ⟨fun h => ⟨h.1, h.2⟩, fun h => ⟨h.body, h.routines⟩⟩

section

variable {program : Program} {rank : RoutineId → Nat} {limit bound : Nat}

lemma Program.Bounded.calls (bounded : program.Bounded rank limit) (long : Integer.count < bound) :
    ∀ depth, Context.Completes rank depth
      ⟨program.routines, Routine.run program.routines bound depth⟩
  | 0 => fun _ _ _ below => absurd below (Nat.not_lt_zero _)
  | depth + 1 => by
    intro id routine found below values store
    have calls : Context.Completes rank (rank id)
        ⟨program.routines, Routine.run program.routines bound depth⟩ :=
      fun other callee found' lower => bounded.calls long depth other callee found' (by omega)
    have body := bounded.routines (routine, id) (List.mk_mem_zipIdx_iff_getElem?.2 found)
    have ended : Exec.Upholds (fun _ => True) _ _ _ :=
      routine.body.exec_completes calls long body
    exact Upholds.run ended trivial fun _ _ => trivial

/-- **Programs without loops or calls that may go on for ever come to an end.** If no loop has a
condition, no loop counts a variable that its body sets, and the routines can be ranked so that each
calls only lower ones, then a run comes to its end or to a fault, under every bound that is above
the number of integers and not below the ranks of the routines that are called; and it is the same
under every greater bound. -/
theorem Program.run_of_bounded (bounded : program.Bounded rank limit) (long : Integer.count < bound)
    (deep : limit ≤ bound) :
    (program.run bound).1 ≠ .error .outOfSteps ∧
    ∀ bound', bound ≤ bound' → program.run bound' = program.run bound := by
  have calls : (Context.ofRoutines program.routines bound).Completes rank limit :=
    fun id routine found below => bounded.calls long bound id routine found
      (Nat.lt_of_lt_of_le below deep)
  have ended :=
    (program.body.exec_completes calls long bounded.body).apply ⟨program.initialStore, #[]⟩
  exact ⟨ended, fun bound' le => (program.run_prolongs le).resolve_right fun stopped =>
    ended stopped.1⟩

/-- A loop calls a function, which calls the one inside it. -/
example : Program.Bounded
    { name := "P", constants := [], vars := [("i", .integer)],
      routines := [⟨"f", [("n", .integer)], some .integer, [],
          .assign resultSlot (.call 1 "g" [.var "n" .integer .nowhere] .integer .nowhere) .nowhere,
          .nowhere⟩,
        ⟨"g", [("n", .integer)], some .integer, [],
          .assign resultSlot (.var "n" .integer .nowhere) .nowhere, .nowhere⟩],
      body := .forTo "i" (.assign "i" (.literal (.integer 1) .integer .nowhere) .nowhere)
        (.literal (.integer 3) .integer .nowhere)
        (.writeln [.call 0 "f" [.var "i" .integer .nowhere] .integer .nowhere] .nowhere) .nowhere }
    (fun id => 1 - id) 2 := by decide +kernel

end

end SmallPascal
