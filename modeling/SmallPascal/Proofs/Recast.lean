import SmallPascal.Proofs.Computing

/-!
Recasting a program: its spans and its expressions are replaced by others, and all else stays. Two
ways to do that are of use, to compute the operations on literals and to forget all places. Whatever
suits the laws below can neither be seen by a reader nor by a run.
-/

namespace SmallPascal

def Expr.foldedIf (folding : Bool) (e : Expr) : Expr := if folding then e.folded else e

/-- What becomes of spans and expressions, and whether readers fold before and after. -/
structure Recast where
  span : Span → Span
  expr : Expr → Expr
  before : Bool
  after : Bool

namespace Recast

variable (m : Recast)

/-! ### Faults -/

def token (token : Token) : Token := { token with span := m.span token.span }

def symbol (symbol : Symbol) : Symbol := { symbol with span := m.span symbol.span }

/-- Only faults about symbols have places in them. -/
def semanticFault : SemanticFault → SemanticFault
  | .redeclared name first => .redeclared name (m.symbol first)
  | .notConstant symbol => .notConstant (m.symbol symbol)
  | .notCallable symbol => .notCallable (m.symbol symbol)
  | .loopVariable symbol => .loopVariable (m.symbol symbol)
  | fault => fault

/-- A fault, with its tokens and symbols at their new places. -/
def fault : Fault → Fault
  | .syntactic fault => .syntactic ⟨fault.expected, m.token fault.found⟩
  | .semantic fault => .semantic (m.semanticFault fault)
  | .lexical fault => .lexical fault
  | .runtime fault => .runtime fault

def diagnostic (diagnostic : Diagnostic) : Diagnostic :=
  ⟨m.fault diagnostic.fault, m.span diagnostic.span⟩

def stop : Stop → Stop
  | .fault fault span => .fault fault (m.span span)
  | .outOfSteps => .outOfSteps

/-! ### Trees -/

def indexStep (step : IndexStep) : IndexStep := { step with index := m.expr step.index }

mutual

/-- A statement all of whose spans and expressions are recast. -/
def stmt : Stmt → Stmt
  | .block statements span => .block (stmtAll statements) (m.span span)
  | .ifThen condition yes span => .ifThen (m.expr condition) (stmt yes) (m.span span)
  | .ifThenElse condition yes no span =>
    .ifThenElse (m.expr condition) (stmt yes) (stmt no) (m.span span)
  | .whileDo condition body span => .whileDo (m.expr condition) (stmt body) (m.span span)
  | .forTo name initializer limit body span =>
    .forTo name (stmt initializer) (m.expr limit) (stmt body) (m.span span)
  | .writeln args span => .writeln (args.map m.expr) (m.span span)
  | .assign name value span => .assign name (m.expr value) (m.span span)
  | .assignElement name path value span =>
    .assignElement name (path.map m.indexStep) (m.expr value) (m.span span)
  | .call id name args span => .call id name (args.map m.expr) (m.span span)
  | .skip span => .skip (m.span span)

/-- Statements all of whose spans and expressions are recast. -/
def stmtAll : List Stmt → List Stmt
  | [] => []
  | s :: rest => stmt s :: stmtAll rest

end

def routine (routine : Routine) : Routine :=
  { routine with body := m.stmt routine.body, span := m.span routine.span }

/-- A program whose body and whose routines are recast. -/
def program (program : Program) : Program :=
  { program with routines := program.routines.map m.routine, body := m.stmt program.body }

@[simp] lemma stmtAll_eq_map (statements : List Stmt) :
    m.stmtAll statements = statements.map m.stmt := by
  induction statements with
  | nil => rfl
  | cons s rest ih => rw [stmtAll, ih, List.map_cons]

lemma span_stmt (s : Stmt) : (m.stmt s).span = m.span s.span := by cases s <;> rfl

@[simp] lemma message_fault (fault : Fault) : (m.fault fault).message = fault.message := by
  rcases fault with _ | _ | semantic | _ <;> try rfl
  cases semantic <;> rfl

@[simp] lemma phase_fault (fault : Fault) : (m.fault fault).phase = fault.phase := by
  cases fault <;> rfl

/-! ### Places that stay -/

section

variable {m} (h : m.span = id)

include h

lemma token_of_span : m.token = id := by
  funext token
  unfold Recast.token
  rw [h]
  rfl

lemma symbol_of_span : m.symbol = id := by
  funext symbol
  unfold Recast.symbol
  rw [h]
  rfl

lemma stop_of_span : m.stop = id := by
  funext stop
  cases stop with
  | fault fault span => exact congrArg (Stop.fault fault) (congrFun h span)
  | outOfSteps => rfl

lemma diagnostic_of_span : m.diagnostic = id := by
  funext diagnostic
  obtain ⟨fault, span⟩ := diagnostic
  have semantic (fault : SemanticFault) : m.semanticFault fault = fault := by
    cases fault <;> simp only [semanticFault, symbol_of_span h, id]
  cases fault <;> simp only [Recast.diagnostic, Recast.fault, semantic, token_of_span h, h, id]

end

/-! ### Laws -/

/-- The routines of the second context are those of the first one recast, and calls of them run
alike. -/
structure Carries (c d : Context) : Prop where
  routines : d.routines = c.routines.map m.routine
  run : ∀ routine values store,
    d.run (m.routine routine) values store = (c.run routine values store).adapt m.stop

/-- What readers and runs rely on: places can still be put together, expressions are put together as
before and keep their types, operations come to be folded as the reader says, and values stay. -/
structure Lawful : Prop where
  through : ∀ s t, m.span (s.through t) = (m.span s).through (m.span t)
  type : ∀ e, (m.expr e).type = e.type
  place : ∀ e, (m.expr e).span = m.span e.span
  literal : ∀ value type span, m.expr (.literal value type span) = .literal value type (m.span span)
  var : ∀ name type span, m.expr (.var name type span) = .var name type (m.span span)
  index : ∀ array index low high item span, m.expr (.index array index low high item span) =
    .index (m.expr array) (m.expr index) low high item (m.span span)
  call : ∀ id name args type span,
    m.expr (.call id name args type span) = .call id name (args.map m.expr) type (m.span span)
  widen : ∀ operand type span, m.expr ((Expr.widen operand type span).foldedIf m.before) =
    (Expr.widen (m.expr operand) type (m.span span)).foldedIf m.after
  binary : ∀ op left right type span,
    m.expr ((Expr.binary op left right type span).foldedIf m.before) =
      (Expr.binary op (m.expr left) (m.expr right) type (m.span span)).foldedIf m.after
  unary : ∀ op operand type span, m.expr ((Expr.unary op operand type span).foldedIf m.before) =
    (Expr.unary op (m.expr operand) type (m.span span)).foldedIf m.after
  eval : ∀ {c d}, m.Carries c d → ∀ store e,
    (m.expr e).eval d store = (e.eval c store).adapt m.stop

end Recast

end SmallPascal
