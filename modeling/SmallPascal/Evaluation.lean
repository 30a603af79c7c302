import SmallPascal.Operation
import SmallPascal.Store
import SmallPascal.Syntax

/-!
The value of an expression in a store. Evaluation never changes the store, but a function that it
calls may write lines.
-/

namespace SmallPascal

/-- Why an evaluation did not finish: a fault somewhere in the text, or the bound on the number of
steps. -/
inductive Stop where
  | fault (fault : RuntimeFault) (span : Span)
  | outOfSteps
deriving DecidableEq

abbrev Output := Array String

abbrev Eval := ExceptT Stop (StateM Output)

def Eval.fail {α : Type} (fault : RuntimeFault) (span : Span) : Eval α := throw (.fault fault span)

/-- Stops with the fault of a step that failed. -/
def Eval.ofExcept {α : Type} (span : Span) : Except RuntimeFault α → Eval α
  | .ok a => pure a
  | .error fault => fail fault span

/-- The routines of a program, and how a call of one is run: from the values of its arguments and
the caller's store to its result, if it has one. -/
structure Context where
  routines : List Routine
  run : Routine → List Value → Store → Eval (Option Value)

def Context.empty : Context := ⟨[], fun _ _ _ => pure none⟩

def Value.expectInteger : Value → Except RuntimeFault Integer
  | .integer n => .ok n
  | other => .error (.notAnInteger other.tag)

/-- How far an index lies from the lower bound. The bounds may be up to `2^64 - 1` apart, and no
further offset can be addressed. -/
def elementOffset (index low high : Integer) : Except RuntimeFault Nat :=
  if index.toInt < low.toInt ∨ high.toInt < index.toInt then .error (.outOfBounds index low high)
  else
    let offset := (index.toInt - low.toInt).toNat
    if offset < 18446744073709551616 then .ok offset else .error (.notAddressable index low high)

/-- The offset that the value of an index leads to. -/
def Value.offset (low high : Integer) (index : Value) : Except RuntimeFault Nat := do
  elementOffset (← index.expectInteger) low high

/-- The element of an array at an offset, of the type `item`. -/
def Value.element (offset : Nat) (item : Ty) : Value → Except RuntimeFault Value
  | .array elements => .ok ((elements.get? offset).getD item.default)
  | other => .error (.notAnArray other.tag)

namespace Expr

variable (context : Context) (store : Store)

mutual

/-- The value of an expression. Operands and arguments are evaluated from left to right. -/
def eval : Expr → Eval Value
  | .literal value _ _ => pure value
  | .var name _ span =>
    match store.get? name with
    | some value => pure value
    | none => .fail (.undefined name) span
  | .widen operand _ _ => return (← operand.eval).widen
  | .binary op left right _ span => do
    let left ← left.eval
    let right ← right.eval
    .ofExcept span (op.apply left right)
  | .unary op operand _ span => do
    let operand ← operand.eval
    .ofExcept span (op.apply operand)
  | .index array subscript low high item _ => do
    let elements ← array.eval
    let n ← subscript.eval
    let offset ← .ofExcept subscript.span (n.offset low high)
    .ofExcept array.span (elements.element offset item)
  | .call id name args _ span =>
    match context.routines[id]? with
    | none => .fail (.unknownRoutine id) span
    | some routine => do
      match ← context.run routine (← evalAll args) store with
      | some value => pure value
      | none => .fail (.noResult name) span

def evalAll : List Expr → Eval (List Value)
  | [] => pure []
  | e :: rest => do
    let value ← e.eval
    let values ← evalAll rest
    return value :: values

end

def holds (condition : Expr) : Eval Bool := do
  match ← condition.eval context store with
  | .boolean b => pure b
  | other => .fail (.notACondition other.tag) condition.span

/-- The value of an expression that calls no routine and reads no variable. -/
def constant? (e : Expr) : Except Stop Value := (e.eval .empty .empty #[]).1

end Expr

end SmallPascal
