import SmallPascal.Operator
import SmallPascal.Symbol

/-!
Trees of programs. Every expression carries the type that was found for it, and every node the part
of the text that it came from.
-/

namespace SmallPascal

inductive Expr where
  | literal (value : Value) (type : Ty) (span : Span)
  | var (name : String) (type : Ty) (span : Span)
  /-- An integer that is used as a real, or an array of them. -/
  | widen (operand : Expr) (type : Ty) (span : Span)
  | binary (op : BinaryOp) (left right : Expr) (type : Ty) (span : Span)
  | unary (op : UnaryOp) (operand : Expr) (type : Ty) (span : Span)
  | index (array index : Expr) (low high : Integer) (type : Ty) (span : Span)
  | call (routine : RoutineId) (name : String) (args : List Expr) (type : Ty) (span : Span)

namespace Expr

def type : Expr → Ty
  | .literal _ type _ | .var _ type _ | .widen _ type _ | .binary _ _ _ type _ | .unary _ _ type _
  | .index _ _ _ _ type _ | .call _ _ _ type _ => type

/-- The part of the text that the expression covers. -/
def span : Expr → Span
  | .literal _ _ span | .var _ _ span | .widen _ _ span | .binary _ _ _ _ span | .unary _ _ _ span
  | .index _ _ _ _ _ span | .call _ _ _ _ span => span

def isLiteral : Expr → Bool
  | .literal .. => true
  | _ => false

end Expr

/-- One index of an element: the expression, the bounds that it must keep, and the type of what it
leads to. -/
structure IndexStep where
  index : Expr
  low : Integer
  high : Integer
  item : Ty

inductive Stmt where
  | block (statements : List Stmt) (span : Span)
  | ifThen (condition : Expr) (yes : Stmt) (span : Span)
  | ifThenElse (condition : Expr) (yes no : Stmt) (span : Span)
  | whileDo (condition : Expr) (body : Stmt) (span : Span)
  | forTo (name : String) (initializer : Stmt) (limit : Expr) (body : Stmt) (span : Span)
  | writeln (args : List Expr) (span : Span)
  | assign (name : String) (value : Expr) (span : Span)
  | assignElement (name : String) (path : List IndexStep) (value : Expr) (span : Span)
  | call (routine : RoutineId) (name : String) (args : List Expr) (span : Span)
  | skip (span : Span)

/-- The part of the text that the statement covers. -/
def Stmt.span : Stmt → Span
  | .block _ span | .ifThen _ _ span | .ifThenElse _ _ _ span | .whileDo _ _ span
  | .forTo _ _ _ _ span | .writeln _ span | .assign _ _ span | .assignElement _ _ _ span
  | .call _ _ _ span | .skip span => span

/-- A function, which has a type of result, or a procedure, which has none. -/
structure Routine where
  name : String
  params : Params
  returns : Option Ty
  locals : List (String × Ty)
  body : Stmt
  span : Span

def Routine.type (routine : Routine) : Ty :=
  match routine.returns with
  | some returns => .function routine.params returns
  | none => .procedure routine.params

/-- A program: its own constants and variables, and all routines, also those inside others, in the
order in which they are declared. -/
structure Program where
  name : String
  constants : List (String × Value)
  vars : List (String × Ty)
  routines : List Routine
  body : Stmt

/-- The name under which a function's activation keeps its result; no identifier is spelled so. -/
def resultSlot : String := "$result"

end SmallPascal
