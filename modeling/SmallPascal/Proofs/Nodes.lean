import SmallPascal.Proofs.Handing

/-! The nodes of a program: its statements and expressions, each with those that stand directly
inside it. -/

namespace SmallPascal

def Span.nowhere : Span := ⟨0, 0, 0, 0⟩

def Stmt.target? : Stmt → Option String
  | .assign name .. | .assignElement name .. | .forTo name .. => some name
  | _ => none

inductive Node where
  | expr (e : Expr)
  | stmt (s : Stmt)

namespace Node

/-- The part of the text that the node covers. -/
def span : Node → Span
  | .expr e => e.span
  | .stmt s => s.span

@[simp] lemma span_expr (e : Expr) : (expr e).span = e.span := rfl

@[simp] lemma span_stmt (s : Stmt) : (stmt s).span = s.span := rfl

/-- What stands directly inside a node, from left to right. -/
def children : Node → List Node
  | .expr (.literal ..) | .expr (.var ..) => []
  | .expr (.widen operand ..) | .expr (.unary _ operand ..) => [.expr operand]
  | .expr (.binary _ left right ..) => [.expr left, .expr right]
  | .expr (.index array subscript ..) => [.expr array, .expr subscript]
  | .expr (.call _ _ args ..) => args.map .expr
  | .stmt (.block statements _) => statements.map .stmt
  | .stmt (.ifThen condition yes _) => [.expr condition, .stmt yes]
  | .stmt (.ifThenElse condition yes no _) => [.expr condition, .stmt yes, .stmt no]
  | .stmt (.whileDo condition body _) => [.expr condition, .stmt body]
  | .stmt (.forTo _ start limit body _) => [.stmt start, .expr limit, .stmt body]
  | .stmt (.writeln args _) | .stmt (.call _ _ args _) => args.map .expr
  | .stmt (.assign _ value _) => [.expr value]
  | .stmt (.assignElement _ path value _) =>
    path.map (fun step => .expr step.index) ++ [.expr value]
  | .stmt (.skip _) => []

def all : Node → List Node
  | .expr e => e.gather fun e => [.expr e]
  | .stmt s => s.gather (fun e => [.expr e]) fun s => [.stmt s]

/-- Something is true of the node and of all that stand inside it. -/
def Throughout (P : Node → Prop) (node : Node) : Prop := ∀ inner ∈ node.all, P inner

lemma mem_gatherAll_exprs {node : Node} {es : List Expr} :
    node ∈ Expr.gatherAll (fun e => [.expr e]) es ↔ ∃ e ∈ es, node ∈ (Node.expr e).all := by
  induction es with
  | nil => simp [Expr.gatherAll]
  | cons e rest ih => simp [Expr.gatherAll, ih, all]

lemma mem_gatherAll_stmts {node : Node} {statements : List Stmt} :
    node ∈ Stmt.gatherAll (fun e => [.expr e]) (fun s => [.stmt s]) statements ↔
      ∃ s ∈ statements, node ∈ (Node.stmt s).all := by
  induction statements with
  | nil => simp [Stmt.gatherAll]
  | cons s rest ih => simp [Stmt.gatherAll, ih, all]

lemma mem_all {node inner : Node} :
    inner ∈ node.all ↔ inner = node ∨ ∃ child ∈ node.children, inner ∈ child.all := by
  rcases node with e | s
  · cases e <;> simp [all, children, Expr.gather, mem_gatherAll_exprs]
  · cases s <;> simp [all, children, Stmt.gather, mem_gatherAll_exprs, mem_gatherAll_stmts,
      or_and_right, exists_or]

lemma throughout_iff {P : Node → Prop} {node : Node} :
    node.Throughout P ↔ P node ∧ ∀ child ∈ node.children, child.Throughout P := by
  unfold Throughout
  simp only [@mem_all node]
  constructor
  · intro h
    exact ⟨h node (.inl rfl), fun child direct inner among =>
      h inner (.inr ⟨child, direct, among⟩)⟩
  · rintro ⟨self, inside⟩ inner (rfl | ⟨child, direct, among⟩)
    · exact self
    · exact inside child direct inner among

lemma Throughout.self {P : Node → Prop} {node : Node} (h : node.Throughout P) : P node :=
  (throughout_iff.1 h).1

lemma Throughout.child {P : Node → Prop} {node child : Node} (h : node.Throughout P)
    (direct : child ∈ node.children) : child.Throughout P := (throughout_iff.1 h).2 child direct

lemma sizeOf_lt_of_mem_children {node child : Node} (direct : child ∈ node.children) :
    sizeOf child < sizeOf node := by
  have ofExprs {args : List Expr} (among : child ∈ args.map .expr) :
      sizeOf child < 1 + (1 + sizeOf args) := by
    obtain ⟨arg, listed, rfl⟩ := List.mem_map.1 among
    have := List.sizeOf_lt_of_mem listed
    simp only [expr.sizeOf_spec]
    omega
  have ofStmts {statements : List Stmt} (among : child ∈ statements.map .stmt) :
      sizeOf child < 1 + (1 + sizeOf statements) := by
    obtain ⟨s, listed, rfl⟩ := List.mem_map.1 among
    have := List.sizeOf_lt_of_mem listed
    simp only [stmt.sizeOf_spec]
    omega
  have ofSteps {path : List IndexStep} (among : child ∈ path.map fun step => .expr step.index) :
      sizeOf child < 1 + (1 + sizeOf path) := by
    obtain ⟨step, listed, rfl⟩ := List.mem_map.1 among
    have := List.sizeOf_lt_of_mem listed
    have : sizeOf step.index < sizeOf step := by cases step; simp; omega
    simp only [expr.sizeOf_spec]
    omega
  rcases node with e | s
  · cases e <;> simp only [children, List.mem_cons, List.not_mem_nil, or_false] at direct
    case call =>
      have := ofExprs direct
      simp only [expr.sizeOf_spec, Expr.call.sizeOf_spec]
      omega
    all_goals rcases direct with rfl | rfl <;> simp <;> omega
  · cases s <;> simp only [children, List.mem_cons, List.not_mem_nil, or_false, List.mem_append]
      at direct
    case block =>
      have := ofStmts direct
      simp only [stmt.sizeOf_spec, Stmt.block.sizeOf_spec]
      omega
    case writeln | call =>
      have := ofExprs direct
      simp
      omega
    case assignElement =>
      rcases direct with among | rfl
      · have := ofSteps among
        simp only [stmt.sizeOf_spec, Stmt.assignElement.sizeOf_spec]
        omega
      · simp
        omega
    case assign =>
      subst direct
      simp
      omega
    all_goals rcases direct with rfl | rfl | rfl <;> simp <;> omega

/-- What is true of a node as soon as it is true of what stands directly inside it is true of
all. -/
@[elab_as_elim]
theorem byParts {motive : Node → Prop}
    (step : ∀ node, (∀ child ∈ node.children, motive child) → motive node) (node : Node) :
    motive node :=
  step node fun child direct =>
    have := sizeOf_lt_of_mem_children direct
    byParts step child
termination_by sizeOf node

/-- What is true of an expression as soon as it is true of its parts is true of all expressions. -/
@[elab_as_elim]
theorem exprByParts {motive : Expr → Prop}
    (step : ∀ e, (∀ part, .expr part ∈ (Node.expr e).children → motive part) → motive e)
    (e : Expr) : motive e :=
  step e fun part direct =>
    have := sizeOf_lt_of_mem_children direct
    exprByParts step part
termination_by sizeOf e
decreasing_by simpa using this

/-- What is handed on from each node to those directly inside it is true throughout. -/
lemma throughout_of_children {P : Node → Prop}
    (closed : ∀ node, P node → ∀ child ∈ node.children, P child) {node : Node} (h : P node) :
    node.Throughout P := by
  induction node using byParts with | step node ih =>
  exact throughout_iff.2 ⟨h, fun child direct => ih child direct (closed node h child direct)⟩

def WellTyped (sight : Sight) : Node → Prop
  | .expr e => e.WellTyped sight
  | .stmt s => s.WellTyped sight

lemma WellTyped.throughout {sight : Sight} {node : Node} (h : node.WellTyped sight) :
    node.Throughout (WellTyped sight) := by
  have ofAll {args : List Expr} (typed : ∀ arg ∈ args, arg.WellTyped sight) :
      ∀ child ∈ args.map expr, child.WellTyped sight := by
    intro child among
    obtain ⟨arg, listed, rfl⟩ := List.mem_map.1 among
    exact typed arg listed
  refine throughout_of_children (fun node typed => ?_) h
  rcases node with e | s
  · cases typed with
    | literal | var => exact nofun
    | widen operand | unary operand => exact List.forall_mem_singleton.2 operand
    | binary left right | index left right =>
      exact List.forall_mem_cons.2 ⟨left, List.forall_mem_singleton.2 right⟩
    | call _ args => exact ofAll args
  · cases typed with
    | block statements =>
      intro child among
      obtain ⟨s, listed, rfl⟩ := List.mem_map.1 among
      exact statements s listed
    | ifThen condition _ yes | whileDo condition _ yes =>
      exact List.forall_mem_cons.2 ⟨condition, List.forall_mem_singleton.2 yes⟩
    | ifThenElse condition _ yes no =>
      refine List.forall_mem_cons.2 ⟨condition, ?_⟩
      exact List.forall_mem_cons.2 ⟨yes, List.forall_mem_singleton.2 no⟩
    | forTo _ start limit _ body =>
      refine List.forall_mem_cons.2 ⟨start, ?_⟩
      exact List.forall_mem_cons.2 ⟨limit, List.forall_mem_singleton.2 body⟩
    | writeln args | call _ args => exact ofAll args
    | assign _ value | result _ value => exact List.forall_mem_singleton.2 value
    | assignElement _ _ path value =>
      refine List.forall_mem_append.2 ⟨fun child among => ?_, List.forall_mem_singleton.2 value⟩
      obtain ⟨step, listed, rfl⟩ := List.mem_map.1 among
      exact path.index_wellTyped step listed
    | skip => exact nofun

inductive Calls (id : RoutineId) (args : List Expr) : Node → Prop
  | function {name type span} : Calls id args (.expr (.call id name args type span))
  | procedure {name span} : Calls id args (.stmt (.call id name args span))

end Node

/-- All nodes of a program: those of its body and of the bodies of its routines. -/
def Program.nodes (program : Program) : List Node :=
  (Node.stmt program.body).all ++ program.routines.flatMap fun routine =>
    (Node.stmt routine.body).all

end SmallPascal
