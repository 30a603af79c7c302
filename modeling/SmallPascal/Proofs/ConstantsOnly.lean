import SmallPascal.Proofs.Phases
import SmallPascal.Proofs.RecastRunning
import SmallPascal.Proofs.RecastSyntax
import SmallPascal.Proofs.Survival

/-! What is computed while a text is read. A reader can keep a record of it, and reads the same with
it. Only the values of constants are computed: of well-typed operations on literals, which have a
value of their type or fail by the arithmetic. A name stands in such an expression only for a
constant that was computed before, since a constant has no other names in it, and anywhere else no
operation is folded but one on literals. -/

namespace SmallPascal

open Steps
open RuntimeFault (IsArithmetic)

lemma Value.HasShape.isData {v : Value} {type : Ty} (h : v.HasShape type)
    (single : type.isArray = false) : type.isData := by
  cases type with
  | array => cases single
  | function | procedure => cases v <;> cases h
  | _ => rfl

namespace Expr.Constant

variable {e : Expr}

lemma wellTyped (h : e.Constant) (sight : Sight) : e.WellTyped sight := by
  induction h with
  | literal shaped single => exact .literal shaped (shaped.isData single)
  | widen _ accepts widens ih => exact .widen ih accepts widens
  | binary _ _ takes ihl ihr => exact .binary ihl ihr takes
  | unary _ takes ih => exact .unary ih takes

end Expr.Constant

/-! ### The record -/

namespace ParseState

variable {ρ : Type}

/-- The same reader without its record. -/
def plain (s : ParseState ρ) : ParseState := { s with record := () }

/-- The same reader with a record. -/
def noting (s : ParseState) (record : ρ) : ParseState ρ := { s with record }

end ParseState

namespace Recast

def identity (folding : Bool) : Recast := ⟨id, id, folding, folding⟩

variable {folding : Bool}

mutual

theorem stmt_identity (s : Stmt) : (identity folding).stmt s = s := by
  match s with
  | .block statements span => exact congrArg (Stmt.block · span) (stmtAll_identity statements)
  | .ifThen condition yes span => exact congrArg (Stmt.ifThen condition · span) (stmt_identity yes)
  | .ifThenElse condition yes no span =>
    exact congrArg₂ (Stmt.ifThenElse condition · · span) (stmt_identity yes) (stmt_identity no)
  | .whileDo condition body span =>
    exact congrArg (Stmt.whileDo condition · span) (stmt_identity body)
  | .forTo name initializer limit body span =>
    exact congrArg₂ (Stmt.forTo name · limit · span) (stmt_identity initializer)
      (stmt_identity body)
  | .writeln args span => exact congrArg (Stmt.writeln · span) (List.map_id args)
  | .assign .. => rfl
  | .assignElement name path value span =>
    exact congrArg (Stmt.assignElement name · value span) (List.map_id path)
  | .call id name args span => exact congrArg (Stmt.call id name · span) (List.map_id args)
  | .skip _ => rfl

theorem stmtAll_identity (statements : List Stmt) :
    (identity folding).stmtAll statements = statements := by
  match statements with
  | [] => rfl
  | s :: rest => exact congrArg₂ List.cons (stmt_identity s) (stmtAll_identity rest)

end

lemma routine_identity : (identity folding).routine = id := by
  funext routine
  unfold Recast.routine
  rw [stmt_identity]
  rfl

lemma program_identity : (identity folding).program = id := by
  funext program
  unfold Recast.program
  rw [routine_identity, List.map_id, stmt_identity]
  rfl

lemma state_identity {ρ : Type} {s : ParseState ρ} (h : s.folding = folding) :
    (identity folding).state s = s.plain := by
  unfold Recast.state
  rw [tokens_of_span rfl, scopes_of_span rfl, routine_identity, List.map_id]
  subst h
  rfl

lemma lawful_identity : (identity folding).Lawful where
  through _ _ := rfl
  type _ := rfl
  place _ := rfl
  literal _ _ _ := rfl
  var _ _ _ := rfl
  index _ _ _ _ _ _ := rfl
  call id name args type span := congrArg (Expr.call id name · type span) (List.map_id args).symm
  widen _ _ _ := rfl
  binary _ _ _ _ _ := rfl
  unary _ _ _ _ := rfl
  eval {c d} carries store e := by
    have routines := carries.routines
    have run := carries.run
    rw [routine_identity, List.map_id] at routines
    simp only [routine_identity, stop_of_span (m := identity folding) rfl, adapt_id] at run
    have same : d = c := by
      obtain ⟨_, _⟩ := d
      exact congrArg₂ Context.mk routines
        (funext fun r => funext fun vs => funext fun st => run r vs st)
    rw [same, stop_of_span rfl, adapt_id]
    rfl

end Recast

namespace Demand

variable {ρ : Type} [Record ρ]

lemma recasts (demand : Demand) (folding : Bool) :
    Parse.Recasts ρ (.identity folding) id demand.read demand.read := by
  have law : (Recast.identity folding).Lawful := Recast.lawful_identity
  cases demand with
  | program =>
    have read := Parse.recasts_program (ρ := ρ) law
    rw [Recast.program_identity] at read
    exact read.map fun _ => rfl
  | wholeExpression => exact (Parse.recasts_wholeExpression law).map fun _ => rfl
  | expression => exact (Parse.recasts_expression law).map fun _ => rfl

/-- With a record a reader answers the same, and knows the same behind it. -/
theorem read_plain (demand : Demand) (s : ParseState ρ) :
    demand.read s.plain = ((demand.read s).1, (demand.read s).2.plain) := by
  obtain ⟨folds, same⟩ := demand.recasts s.folding s rfl
  have folds : (demand.read s).2.folding = s.folding := folds
  rwa [Recast.state_identity rfl, Recast.state_identity folds, Recast.answer_of_span rfl] at same

lemma keeps (demand : Demand) : Parse.Keeps (checking ρ false) (fun _ => True) demand.read := by
  cases demand with
  | program => exact Parse.keeps_program.map fun _ _ => trivial
  | wholeExpression => exact Parse.keeps_wholeExpression.map fun _ _ => trivial
  | expression => exact Parse.keeps_expression.map fun _ _ => trivial

end Demand

namespace ParseState

lemma checking_noting {s : ParseState} (h : Checking false s) :
    Checking false (s.noting ([] : List Expr)) :=
  ⟨h.lexical, h.settled, h.mode, List.forall_mem_nil _⟩

lemma checking_asked {s : ParseState} (known : Checking false s) (demands : List Demand) :
    Checking false (s.asked demands) := by
  induction demands generalizing s with
  | nil => exact known
  | cons demand rest ih => exact ih (demand.keeps s known).1

/-- The reader asked, with a record that starts there. -/
def recorded (s : ParseState) (demand : Demand) :
    Except Diagnostic Reply × ParseState (List Expr) :=
  demand.read (s.noting [])

/-- The expressions whose values are computed when the reader is asked, in order. -/
def computed (s : ParseState) (demand : Demand) : List Expr := (s.recorded demand).2.record

/-- What is computed when the reader is asked: a reader that keeps a record reads the same, and each
expression in its record is a well-typed operation on literals. With no name and no routine in reach
it has a value of its type, or there is an overflow or a division by zero; and no line is written.
So no bound has the value of another type than integers, and a constant is invalid for these two
faults only. -/
structure ComputesConstants (s : ParseState) (demand : Demand) : Prop where
  same : ((s.recorded demand).1, (s.recorded demand).2.plain) = demand.read s
  constant : ∀ e ∈ s.computed demand, e.Constant
  wellTyped : ∀ e ∈ s.computed demand, ∀ sight, e.WellTyped sight
  value : ∀ e ∈ s.computed demand, ∀ output,
    (∃ value, value.HasShape e.type ∧ e.eval .empty .empty output = (.ok value, output)) ∨
    ∃ fault span, fault ∈ [RuntimeFault.divisionByZero, .overflow] ∧
      e.eval .empty .empty output = (.error (.fault fault span), output)
  bound : ∀ d tag, (demand.read s).1 = .error d → d.fault ≠ .semantic (.boundValue tag)
  invalid : ∀ d cause, (demand.read s).1 = .error d → d.fault = .semantic (.invalidConstant cause) →
    d.fault.message ∈ ["Invalid constant expression: Division by zero",
      "Invalid constant expression: Integer overflow"]

/-- **Only the values of constants are computed**, whatever the reader of a text is asked for, and
whatever it was asked for before. -/
theorem computes_constants (text : String) (before : List Demand) (demand : Demand) :
    ((ofText text true).asked before).ComputesConstants demand := by
  have known := checking_asked (checking_ofText text) before
  have constant := (demand.keeps _ (checking_noting known)).1.computed
  have suits {d : Diagnostic}
    (failed : (demand.read ((ofText text true).asked before)).1 = .error d) :
      d.IsRefusal := by
    have suits := (demand.keeps _ known).2
    rwa [failed] at suits
  refine ⟨(demand.read_plain _).symm, constant, fun e among => (constant e among).wellTyped,
    fun e among output => ?_, fun d tag failed => (suits failed).ne_boundValue tag,
    fun d cause failed invalid => ?_⟩
  · obtain ⟨silent, ended⟩ := (constant e among).quiet .empty .empty output output rfl
    rcases found : e.eval .empty .empty output with ⟨(⟨fault, span⟩ | _) | value, after⟩ <;>
      rw [found] at silent ended <;> subst silent
    · refine .inr ⟨fault, span, ?_, rfl⟩
      rcases ended with rfl | rfl <;> simp
    · exact ended.elim
    · exact .inl ⟨value, ended, rfl⟩
  · rw [invalid]
    rcases (suits failed).of_invalidConstant invalid with rfl | rfl <;> decide

/-- A constant with a value, an array that it bounds, and a constant without a value. -/
def divided : String :=
  "program P; const n = 2 + 3; var a: Array[1..n * 2] of Real; const z = -n div 0; begin end."

theorem computes_constants_divided :
    ((ofText divided true).computed .program).length = 8 ∧
    (∃ d, (Demand.program.read (ofText divided true)).1 = .error d ∧
      d.fault = .semantic (.invalidConstant .divisionByZero)) ∧
    (ofText divided true).ComputesConstants .program := by
  refine ⟨by decide +kernel, ?_, computes_constants divided [] .program⟩
  have failed : (match (Demand.program.read (ofText divided true)).1 with
      | .error d => d.fault == .semantic (.invalidConstant .divisionByZero)
      | .ok _ => false) = true := by
    decide +kernel
  rcases e : (Demand.program.read (ofText divided true)).1 with d | reply <;> rw [e] at failed
  · exact ⟨d, rfl, by simpa using failed⟩
  · cases failed

end ParseState

end SmallPascal
