import SmallPascal.Parse.Basic

/-!
Reading expressions. There are two levels of operators, each grouped from the left:

* an expression is a chain of factors with `+`, `-` and the comparisons between them;
* a factor is a chain of terms with `*`, `/`, `div`, `mod`, `and` and `or` between them.

A sign takes the term behind it, and `not` the longest expression behind it. Types are checked, and
operations on literals computed, as soon as an operation has been read.
-/

namespace SmallPascal

namespace Expr

/-- Whether the expression is an operation on literals only. -/
def isFoldable : Expr → Bool
  | .binary _ left right _ _ => left.isLiteral && right.isLiteral
  | .unary _ operand _ _ | .widen operand _ _ => operand.isLiteral
  | _ => false

end Expr

def Kind.additive? : Kind → Option BinaryOp
  | .plus => some .add
  | .minus => some .sub
  | .equal => some .eq
  | .less => some .lt
  | .greater => some .gt
  | .lessEqual => some .le
  | .greaterEqual => some .ge
  | _ => none

def Kind.multiplicative? : Kind → Option BinaryOp
  | .star => some .mul
  | .slash => some .div
  | .divWord => some .intDiv
  | .modWord => some .mod
  | .andWord => some .and
  | .orWord => some .or
  | _ => none

namespace Token

def integer? (token : Token) : Option Integer :=
  Integer.ofNat? (Nat.ofDigitChars 10 token.lexeme.toList 0)

def real (token : Token) : Float :=
  let letters := token.lexeme.toList
  Decimal.read (letters.takeWhile Char.isDigit) (letters.dropWhile Char.isDigit).tail

end Token

namespace Parse

variable {ρ : Type} [Record ρ]

/-- Computes the value of an expression that calls no routine and reads no variable, and notes the
expression. No other step has values computed. -/
def compute (e : Expr) : Reading ρ (Except Stop Value) := do
  modify fun state => { state with record := Record.note e state.record }
  return e.constant?

/-- Replaces an operation on literals by its value, if the reader folds at all. One without a value
stays, to fail when it is run. -/
def fold (e : Expr) : Reading ρ Expr := do
  if (← get).folding ∧ e.isFoldable then
    match ← compute e with
    | .ok value => return .literal value e.type e.span
    | .error _ => return e
  else return e

/-- An operation between two operands, whose types have to suit the operator. -/
def binary (op : BinaryOp) (operator : Token) (left right : Expr) : Reading ρ Expr :=
  match op.resultType? left.type right.type with
  | some type => fold (.binary op left right type (left.span.through right.span))
  | none => fail (.operands op left.type right.type) operator.span

/-- An operation on one operand, whose type has to suit the operator. -/
def unary (op : UnaryOp) (operator : Token) (operand : Expr) : Reading ρ Expr :=
  match op.resultType? operand.type with
  | some type => fold (.unary op operand type (operator.span.through operand.span))
  | none => fail (.operand op operand.type) operator.span

/-- Fits a value to the type that is expected at its destination, widening integers to reals where
that is called for. -/
def coerce (e : Expr) (target : Ty) (span : Span) (destination : Destination) : Reading ρ Expr := do
  unless target.accepts e.type do
    fail (.mismatch destination target e.type) span
  if target.widens e.type then fold (.widen e target e.span) else pure e

/-- A chain of operands, grouped from the left. -/
def chain (operator? : Kind → Option BinaryOp) (operand : Reading ρ Expr) : Reading ρ Expr := do
  let first ← operand
  extend (fun left => do
    let operator ← peek
    match operator? operator.kind with
    | none => return none
    | some op =>
      let _ ← next
      let right ← operand
      some <$> binary op operator left right) first

section

variable (term : Reading ρ Expr)

/-- An expression, given how a term is read. -/
def expressionOf : Reading ρ Expr := chain Kind.additive? (chain Kind.multiplicative? term)

def subscriptOf : Reading ρ Expr := do
  let e ← expressionOf term
  unless e.type = .integer do
    fail (.index e.type) e.span
  return e

/-- An index in brackets, if the next token opens one: it leads into an array of the given type to
items of the type in the answer, which also has the place of the closing bracket. -/
def bracketOf (name : Token) (array : Ty) : Reading ρ (Option (IndexStep × Span)) := do
  if ← check .leftBracket then
    let bracket ← next
    match array with
    | .array low high item =>
      let index ← subscriptOf term
      let close ← expect .rightBracket
      return some (⟨index, low, high, item⟩, close.span)
    | other => fail (.notAnArray name.lexeme other) bracket.span
  else return none

/-- Expressions in parentheses, or nothing at all, behind the token `head`; with the place of the
last token. -/
def argumentsOf (head : Token) : Reading ρ (List Expr × Span) := do
  if ← accept .leftParen then
    let args ← if ← check .rightParen then pure [] else separated .comma (expressionOf term)
    let close ← expect .rightParen
    return (args, close.span)
  else return ([], head.span)

/-- The arguments of a call of the routine `name`, which have to suit its parameters; with the part
of the text that the call covers. -/
def callOf (symbol : Symbol) (name : Token) : Reading ρ (List Expr × Span) :=
  match symbol.type with
  | .function params _ | .procedure params => do
    let (args, last) ← argumentsOf term name
    let span := name.span.through last
    unless args.length = params.length do
      fail (.arity name.lexeme symbol.type params.length args.length) span
    let args ← (args.zip params).mapM fun (arg, param, type) =>
      coerce arg type arg.span (.argument param name.lexeme)
    return (args, span)
  | _ => fail (.notCallable symbol) name.span

/-- What a name stands for in an expression, without indices behind it. -/
def valueOf (name : Token) (symbol : Symbol) : Reading ρ Expr := do
  match symbol.meaning with
  | .constant value => return .literal value symbol.type name.span
  | .var | .array =>
    if ← check .leftParen then fail (.notCallable symbol) name.span
    return .var name.lexeme symbol.type name.span
  | .function id =>
    match symbol.type with
    | .function _ returns =>
      let (args, span) ← callOf term symbol name
      return .call id name.lexeme args returns span
    | _ => fail (.notCallable symbol) name.span
  | .procedure _ => fail (.procedureAsValue name.lexeme) name.span

/-- A name in an expression, with the indices behind it. -/
def nameOf (name : Token) : Reading ρ Expr := do
  let symbol ← lookup name
  match symbol.meaning, (← get).inConstant with
  | .constant _, _ | _, false => pure ()
  | _, true => fail (.notConstant symbol) name.span
  let first ← valueOf term name symbol
  extend (fun array => do
    match ← bracketOf term name array.type with
    | some (step, close) =>
      return some (.index array step.index step.low step.high step.item (array.span.through close))
    | none => return none) first

/-- A term, given how the terms inside it are read. -/
def termOf : Reading ρ Expr := do
  let token ← next
  match token.kind with
  | .integerLiteral =>
    match token.integer? with
    | some n => return .literal (.integer n) .integer token.span
    | none => throw ⟨.lexical (.invalidNumber token.lexeme), token.span⟩
  | .realLiteral => return .literal (.real token.real) .real token.span
  | .stringLiteral => return .literal (.string token.lexeme) .string token.span
  | .trueWord => return .literal (.boolean true) .boolean token.span
  | .falseWord => return .literal (.boolean false) .boolean token.span
  | .notWord => unary .not token (← expressionOf term)
  | .plus => unary .plus token (← term)
  | .minus => unary .negate token (← term)
  | .leftParen =>
    let e ← expressionOf term
    let _ ← expect .rightParen
    return e
  | .identifier => nameOf term token
  | _ => unexpected .expression token

end

/-- A term that is nested less deep than the bound. Every term begins with a token of its own. -/
def termWithin : Nat → Reading ρ Expr
  | 0 => exhausted
  | bound + 1 => fun state => termOf (termWithin bound) state

def term : Reading ρ Expr := do termWithin (← budget)

def expression : Reading ρ Expr := expressionOf term

def subscript : Reading ρ Expr := subscriptOf term

/-- An expression that takes up all the rest of the text. -/
def wholeExpression : Reading ρ Expr := do
  let e ← expression
  let _ ← expect .endOfText
  return e

/-- The fault or the value of a constant, which calls no routine. -/
def constantValue (e : Expr) : Reading ρ (Except (RuntimeFault × Span) Value) := do
  match ← compute e with
  | .ok value => return .ok value
  | .error (.fault fault span) => return .error (fault, span)
  | .error .outOfSteps => exhausted

end Parse

end SmallPascal
