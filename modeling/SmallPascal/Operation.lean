import SmallPascal.Fault

/-! Operations on values. Arithmetic is exact on integers, and on reals as soon as one operand is a
real; an operator that does not apply to its operands is a fault. -/

namespace SmallPascal

def Integer.checked (n? : Option Integer) : Except RuntimeFault Value :=
  match n? with
  | some n => .ok (.integer n)
  | none => .error .overflow

namespace BinaryOp

/-- The fault of an operator that does not apply to its operands. -/
def refuse (op : BinaryOp) (left right : Value) : Except RuntimeFault Value :=
  .error (.operands op left.tag right.tag)

/-- An operation that integers have among themselves, and numbers otherwise as reals. -/
def arithmetic (op : BinaryOp) (exact : Integer → Integer → Option Integer)
    (rounded : Float → Float → Float) (left right : Value) : Except RuntimeFault Value :=
  match left, right with
  | .integer m, .integer n => Integer.checked (exact m n)
  | _, _ =>
    match left.toReal?, right.toReal? with
    | some x, some y => .ok (.real (rounded x y))
    | _, _ => op.refuse left right

def quotient (left right : Value) : Except RuntimeFault Value :=
  match left.toReal?, right.toReal? with
  | some x, some y => if y == 0 then .error .divisionByZero else .ok (.real (x / y))
  | _, _ => refuse .div left right

/-- An operation that only integers have, with a divisor that must not be zero. -/
def division (op : BinaryOp) (exact : Integer → Integer → Option Integer) (left right : Value) :
    Except RuntimeFault Value :=
  match left, right with
  | .integer m, .integer n =>
    if n = 0 then .error .divisionByZero else Integer.checked (exact m n)
  | _, _ => op.refuse left right

/-- How two reals compare; what is not a number compares with none. -/
def compareReals? (x y : Float) : Option Ordering :=
  if x < y then some .lt
  else if x == y then some .eq
  else if y < x then some .gt
  else none

/-- A comparison of two numbers; it holds for the orders that `admits` names. -/
def comparison (op : BinaryOp) (admits : Ordering → Bool) (left right : Value) :
    Except RuntimeFault Value :=
  match left, right with
  | .integer m, .integer n => .ok (.boolean (admits (compare m.toInt n.toInt)))
  | _, _ =>
    match left.toReal?, right.toReal? with
    | some x, some y => .ok (.boolean ((compareReals? x y).any admits))
    | _, _ => op.refuse left right

def logic (op : BinaryOp) (combine : Bool → Bool → Bool) (left right : Value) :
    Except RuntimeFault Value :=
  match left, right with
  | .boolean a, .boolean b => .ok (.boolean (combine a b))
  | _, _ => op.refuse left right

/-- The value of an operation. Any two values can be compared for equality. -/
def apply (op : BinaryOp) (left right : Value) : Except RuntimeFault Value :=
  match op with
  | .add => op.arithmetic Integer.add? (· + ·) left right
  | .sub => op.arithmetic Integer.sub? (· - ·) left right
  | .mul => op.arithmetic Integer.mul? (· * ·) left right
  | .div => quotient left right
  | .intDiv => op.division Integer.floorDiv? left right
  | .mod => op.division Integer.floorMod? left right
  | .eq => .ok (.boolean (left.equals right))
  | .lt => op.comparison (·.isLT) left right
  | .le => op.comparison (·.isLE) left right
  | .gt => op.comparison (·.isGT) left right
  | .ge => op.comparison (·.isGE) left right
  | .and => op.logic (· && ·) left right
  | .or => op.logic (· || ·) left right

end BinaryOp

def UnaryOp.apply (op : UnaryOp) (operand : Value) : Except RuntimeFault Value :=
  match op, operand with
  | .plus, .integer n => .ok (.integer n)
  | .plus, .real x => .ok (.real x)
  | .negate, .integer n => Integer.checked (Integer.neg? n)
  | .negate, .real x => .ok (.real (-x))
  | .not, .boolean b => .ok (.boolean (!b))
  | _, _ => .error (.operand op operand.tag)

end SmallPascal
