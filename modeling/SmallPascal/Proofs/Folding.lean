import SmallPascal.Interpreter
import SmallPascal.Proofs.Handing
import SmallPascal.Proofs.RecastRunning
import SmallPascal.Proofs.RecastSyntax

/-!
Folding cannot be seen. A reader that folds accepts the same texts as one that does not, and what it
reads is the other's program with all operations on literals computed; that program does the same,
and the operations on literals that are left in it are those that fail.
-/

namespace SmallPascal

open Steps

namespace Expr

/-! ### All operations -/

mutual

/-- Folds all operations, from the inside out. -/
def reduce : Expr → Expr
  | .literal value type span => .literal value type span
  | .var name type span => .var name type span
  | .widen operand type span => (Expr.widen operand.reduce type span).folded
  | .binary op left right type span => (Expr.binary op left.reduce right.reduce type span).folded
  | .unary op operand type span => (Expr.unary op operand.reduce type span).folded
  | .index array subscript low high item span =>
    .index array.reduce subscript.reduce low high item span
  | .call id name args type span => .call id name (reduceAll args) type span

def reduceAll : List Expr → List Expr
  | [] => []
  | e :: rest => e.reduce :: reduceAll rest

end

lemma reduceAll_eq_map (es : List Expr) : reduceAll es = es.map reduce := by
  induction es with
  | nil => rfl
  | cons e rest ih => rw [reduceAll, ih, List.map_cons]

lemma type_reduce (e : Expr) : e.reduce.type = e.type := by
  cases e <;> simp only [reduce, type_folded] <;> rfl

lemma span_reduce (e : Expr) : e.reduce.span = e.span := by
  cases e <;> simp only [reduce, span_folded] <;> rfl

end Expr

namespace Recast

def folding : Recast := ⟨id, Expr.reduce, false, true⟩

/-! ### Values stay -/

section

variable {c d : Context} (store : Store)

mutual

theorem eval_reduce (carries : folding.Carries c d) (e : Expr) :
    e.reduce.eval d store = e.eval c store := by
  match e with
  | .literal .. => rfl
  | .var .. => rfl
  | .widen operand _ _ =>
    simp only [Expr.reduce, Expr.eval_folded, Expr.eval, eval_reduce carries operand]
  | .binary _ left right _ _ =>
    simp only [Expr.reduce, Expr.eval_folded, Expr.eval, eval_reduce carries left,
      eval_reduce carries right]
  | .unary _ operand _ _ =>
    simp only [Expr.reduce, Expr.eval_folded, Expr.eval, eval_reduce carries operand]
  | .index array subscript _ _ _ _ =>
    simp only [Expr.reduce, Expr.eval, eval_reduce carries array, eval_reduce carries subscript,
      Expr.span_reduce]
  | .call id _ args _ _ =>
    simp only [Expr.reduce, Expr.eval, carries.routines, List.getElem?_map]
    cases c.routines[id]? with
    | none => rfl
    | some routine =>
      simp only [Option.map_some, evalAll_reduceAll carries args, carries.run,
        stop_of_span (m := folding) rfl, adapt_id]

theorem evalAll_reduceAll (carries : folding.Carries c d) (args : List Expr) :
    Expr.evalAll d store (Expr.reduceAll args) = Expr.evalAll c store args := by
  match args with
  | [] => rfl
  | e :: rest =>
    simp only [Expr.reduceAll, Expr.evalAll, eval_reduce carries e, evalAll_reduceAll carries rest]

end

end

lemma lawful_folding : folding.Lawful where
  through _ _ := rfl
  type := Expr.type_reduce
  place := Expr.span_reduce
  literal _ _ _ := rfl
  var _ _ _ := rfl
  index _ _ _ _ _ _ := rfl
  call id name _ type span :=
    congrArg (fun args => Expr.call id name args type span) (Expr.reduceAll_eq_map _)
  widen _ _ _ := rfl
  binary _ _ _ _ _ := rfl
  unary _ _ _ _ := rfl
  eval carries store e := by
    rw [stop_of_span rfl, adapt_id]
    exact eval_reduce store carries e

end Recast

/-! ### What is left -/

/-- All expressions in a program, also those inside others. -/
def Program.exprs (program : Program) : List Expr :=
  program.body.gather (fun e => [e]) (fun _ => []) ++
    program.routines.flatMap fun routine => routine.body.gather (fun e => [e]) fun _ => []

namespace Recast

variable {m : Recast} {α : Type} {f : Expr → List α} {x : α}

lemma mem_gatherAll_map {es : List Expr} (among : x ∈ Expr.gatherAll f (es.map m.expr)) :
    ∃ e, x ∈ (m.expr e).gather f := by
  induction es with
  | nil => cases among
  | cons e rest ih =>
    rw [List.map_cons, Expr.gatherAll, List.mem_append] at among
    exact among.elim (fun here => ⟨e, here⟩) ih

mutual

lemma mem_gather_stmt (s : Stmt) (among : x ∈ (m.stmt s).gather f fun _ => []) :
    ∃ e, x ∈ (m.expr e).gather f := by
  cases s with
  | block statements => exact mem_gatherAll_stmtAll statements among
  | ifThen condition yes =>
    simp only [stmt, Stmt.gather, List.nil_append, List.mem_append] at among
    exact among.elim (fun here => ⟨condition, here⟩) (mem_gather_stmt yes)
  | ifThenElse condition yes no =>
    simp only [stmt, Stmt.gather, List.nil_append, List.mem_append] at among
    exact among.elim (fun among => among.elim (fun here => ⟨condition, here⟩) (mem_gather_stmt yes))
      (mem_gather_stmt no)
  | whileDo condition body =>
    simp only [stmt, Stmt.gather, List.nil_append, List.mem_append] at among
    exact among.elim (fun here => ⟨condition, here⟩) (mem_gather_stmt body)
  | forTo name start limit body =>
    simp only [stmt, Stmt.gather, List.nil_append, List.mem_append] at among
    exact among.elim (fun among => among.elim (mem_gather_stmt start) fun here => ⟨limit, here⟩)
      (mem_gather_stmt body)
  | writeln args => exact mem_gatherAll_map among
  | assign name value => exact ⟨value, among⟩
  | assignElement name path value =>
    have indices : (path.map m.indexStep).map (·.index) = (path.map (·.index)).map m.expr := by
      rw [List.map_map, List.map_map]
      rfl
    simp only [stmt, Stmt.gather, List.nil_append, List.mem_append, indices] at among
    exact among.elim mem_gatherAll_map fun here => ⟨value, here⟩
  | call id name args => exact mem_gatherAll_map among
  | skip => cases among

lemma mem_gatherAll_stmtAll (statements : List Stmt)
    (among : x ∈ Stmt.gatherAll f (fun _ => []) (m.stmtAll statements)) :
    ∃ e, x ∈ (m.expr e).gather f := by
  cases statements with
  | nil => cases among
  | cons s rest =>
    rw [stmtAll, Stmt.gatherAll, List.mem_append] at among
    exact among.elim (mem_gather_stmt s) (mem_gatherAll_stmtAll rest)

end

lemma mem_exprs_program {program : Program} {x : Expr} (among : x ∈ (m.program program).exprs) :
    ∃ e, x ∈ (m.expr e).gather fun e => [e] := by
  rw [Program.exprs, List.mem_append, List.mem_flatMap] at among
  rcases among with among | ⟨_, listed, among⟩
  · exact mem_gather_stmt program.body among
  · obtain ⟨routine, -, rfl⟩ := List.mem_map.1 listed
    exact mem_gather_stmt routine.body among

end Recast

namespace Expr

/-- The operations on literals in it are operations that fail. -/
def Computed (e : Expr) : Prop :=
  ∀ x ∈ e.gather (fun e => [e]), x.OnLiterals → ∃ fault, x.constant? = .error (.fault fault x.span)

lemma computed_folded {e : Expr}
    (inside : ∀ x ∈ (e.gather fun e => [e]).tail, x.OnLiterals →
      ∃ fault, x.constant? = .error (.fault fault x.span)) :
    e.folded.Computed := by
  obtain ⟨value, -, -, folded⟩ | ⟨folded, fails⟩ := e.folded_cases
  · rw [folded]
    intro x among onLiterals
    obtain rfl := List.mem_singleton.1 among
    cases onLiterals
  · rw [folded]
    intro x among
    have split : (e.gather fun e => [e]) = e :: (e.gather fun e => [e]).tail := by cases e <;> rfl
    rw [split, List.mem_cons] at among
    rcases among with rfl | among
    · exact fails
    · exact inside x among

mutual

/-- **The operations on literals that are left are those that fail.** -/
theorem computed_reduce (e : Expr) : e.reduce.Computed := by
  have itself {e x : Expr} (h : x ∈ [e]) (plain : e.isFoldable = false)
    (onLiterals : x.OnLiterals) :
      ∃ fault, x.constant? = .error (.fault fault x.span) := by
    obtain rfl := List.mem_singleton.1 h
    rw [isFoldable_iff.2 onLiterals] at plain
    cases plain
  match e with
  | .literal .. => exact fun x among => itself among rfl
  | .var .. => exact fun x among => itself among rfl
  | .widen operand _ _ => exact computed_folded (computed_reduce operand)
  | .binary _ left right _ _ =>
    exact computed_folded fun x among =>
      (List.mem_append.1 among).elim (computed_reduce left x) (computed_reduce right x)
  | .unary _ operand _ _ => exact computed_folded (computed_reduce operand)
  | .index array subscript _ _ _ _ =>
    intro x among
    rw [reduce, gather, List.mem_append, List.mem_append] at among
    exact among.elim (fun among => among.elim (itself · rfl) (computed_reduce array x))
      (computed_reduce subscript x)
  | .call _ _ args _ _ =>
    intro x among
    rw [reduce, gather, List.mem_append] at among
    exact among.elim (itself · rfl) (computed_reduceAll args x)

theorem computed_reduceAll (args : List Expr) :
    ∀ x ∈ gatherAll (fun e => [e]) (reduceAll args), x.OnLiterals →
      ∃ fault, x.constant? = .error (.fault fault x.span) := by
  match args with
  | [] => exact nofun
  | e :: rest =>
    intro x among
    rw [reduceAll, gatherAll, List.mem_append] at among
    exact among.elim (computed_reduce e x) (computed_reduceAll rest x)

end

end Expr

/-! ### The two readers -/

def Routine.header (routine : Routine) : String × Params × Option Ty × List (String × Ty) × Span :=
  (routine.name, routine.params, routine.returns, routine.locals, routine.span)

namespace Program

/-- Reads a program and checks it, and computes nothing but constants. -/
def ofTextUnfolded (text : String) : Except Diagnostic Program :=
  (Parse.program (.ofText text false)).1

lemma ofText_eq (text : String) :
    ofText text = Recast.folding.answer Recast.folding.program (ofTextUnfolded text) := by
  have state : Recast.folding.state (.ofText text false) = .ofText text true :=
    congrArg (ParseState.mk · _ _ _ _ _ _) (congrFun (Recast.tokens_of_span rfl) (.ofText text))
  have read := (Parse.recasts_program Recast.lawful_folding (.ofText text false) rfl).2
  rw [state] at read
  exact congrArg Prod.fst read

/-- The second program is the first one with operations on literals computed, as far as anyone can
tell: both declare the same, both run alike, to the same store or stop and with the same lines, and
the operations on literals in the second one all fail, wherever they are evaluated. -/
structure ComputedAs (plain computed : Program) : Prop where
  name : computed.name = plain.name
  constants : computed.constants = plain.constants
  vars : computed.vars = plain.vars
  headers : computed.routines.map Routine.header = plain.routines.map Routine.header
  runs : ∀ bound, computed.run bound = plain.run bound
  fails : ∀ e ∈ computed.exprs, e.OnLiterals → ∃ fault, ∀ context store output,
    e.eval context store output = (.error (.fault fault e.span), output)

lemma computedAs_folding (program : Program) :
    program.ComputedAs (Recast.folding.program program) where
  name := rfl
  constants := rfl
  vars := rfl
  headers := List.map_map
  runs bound := by
    rw [Recast.run_program Recast.lawful_folding, Recast.stop_of_span rfl]
    rcases program.run bound with ⟨_ | _, _⟩ <;> rfl
  fails x among onLiterals := by
    obtain ⟨e, among⟩ := Recast.mem_exprs_program among
    obtain ⟨fault, fails⟩ := e.computed_reduce x among onLiterals
    refine ⟨fault, fun context store output => ?_⟩
    rw [onLiterals.eval_eq_constant?, fails]

/-- **Folding is not seen.** With and without it, a text is refused for the same reason, or read as
programs of which one is the other computed. -/
theorem folding_unseen (text : String) :
    (∃ diagnostic, ofTextUnfolded text = .error diagnostic ∧ ofText text = .error diagnostic) ∨
      ∃ plain computed, ofTextUnfolded text = .ok plain ∧ ofText text = .ok computed ∧
        plain.ComputedAs computed := by
  rw [ofText_eq]
  cases ofTextUnfolded text with
  | error diagnostic => exact .inl ⟨diagnostic, rfl,
      congrArg _ (congrFun (Recast.diagnostic_of_span rfl) diagnostic)⟩
  | ok plain => exact .inr ⟨plain, _, rfl, rfl, plain.computedAs_folding⟩

/-- An operation with a value, and one without. -/
def half : String := "program P; begin writeln(1 + 2, 1 div 0) end."

/-- The first operation is folded together with its operands, and the second one stays. -/
theorem folding_unseen_half : ∃ plain computed, ofTextUnfolded half = .ok plain ∧
    ofText half = .ok computed ∧ plain.ComputedAs computed ∧
    plain.exprs.length = 6 ∧ computed.exprs.length = 4 ∧ ∃ e ∈ computed.exprs, e.OnLiterals := by
  have plainly : (ofTextUnfolded half).toOption.any (·.exprs.length == 6) = true := by
    decide +kernel
  have folded : (ofText half).toOption.any (fun computed =>
      computed.exprs.length == 4 && computed.exprs.any Expr.isFoldable) = true := by
    decide +kernel
  obtain ⟨_, refused, -⟩ | ⟨plain, computed, read, read', same⟩ := folding_unseen half
  · rw [refused] at plainly
    cases plainly
  · rw [read] at plainly
    rw [read'] at folded
    obtain ⟨few, left⟩ := Bool.and_eq_true_iff.1 folded
    obtain ⟨e, among, foldable⟩ := List.any_eq_true.1 left
    exact ⟨plain, computed, read, read', same, beq_iff_eq.1 plainly, beq_iff_eq.1 few, e, among,
      Expr.isFoldable_iff.1 foldable⟩

end Program

end SmallPascal
