import SmallPascal.Type

/-!
Operators of the language: how they are written, and the types that they take and give.
-/

namespace SmallPascal

inductive BinaryOp where
  | add | sub | mul | div | intDiv | mod | eq | lt | le | gt | ge | and | or
deriving DecidableEq

inductive UnaryOp where
  | plus | negate | not
deriving DecidableEq

def BinaryOp.symbol : BinaryOp → String
  | .add => "+"
  | .sub => "-"
  | .mul => "*"
  | .div => "/"
  | .intDiv => "div"
  | .mod => "mod"
  | .eq => "="
  | .lt => "<"
  | .le => "<="
  | .gt => ">"
  | .ge => ">="
  | .and => "and"
  | .or => "or"

def UnaryOp.symbol : UnaryOp → String
  | .plus => "+"
  | .negate => "-"
  | .not => "not"

/-- The type of an operation on operands of the given types, if it is allowed. Arithmetic on
integers gives integers, but for `/`; the order is defined on integers only; two values of types
that agree can be compared for equality unless they are arrays. -/
def BinaryOp.resultType? (op : BinaryOp) (left right : Ty) : Option Ty :=
  match op with
  | .add | .sub | .mul =>
    if left = .integer ∧ right = .integer then some .integer
    else if left.isNumeric ∧ right.isNumeric then some .real
    else none
  | .div => if left.isNumeric ∧ right.isNumeric then some .real else none
  | .intDiv | .mod => if left = .integer ∧ right = .integer then some .integer else none
  | .lt | .le | .gt | .ge => if left = .integer ∧ right = .integer then some .boolean else none
  | .eq => if left.sameAs right ∧ ¬ left.isArray then some .boolean else none
  | .and | .or => if left = .boolean ∧ right = .boolean then some .boolean else none

/-- The type of an operation on an operand of the given type, if it is allowed. -/
def UnaryOp.resultType? (op : UnaryOp) (operand : Ty) : Option Ty :=
  match op with
  | .plus | .negate => if operand.isNumeric then some operand else none
  | .not => if operand = .boolean then some .boolean else none

end SmallPascal
