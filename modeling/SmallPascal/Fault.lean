import SmallPascal.Operator
import SmallPascal.Symbol
import SmallPascal.Token

/-!
Everything that can be wrong with a program, by the phase that finds it, and the wording of each.
-/

namespace SmallPascal

inductive LexicalFault where
  | unexpectedCharacter (c : Char)
  | unterminatedComment
  | unterminatedString
  | invalidNumber (text : String)
deriving DecidableEq

/-- What the grammar allows at a place: a token of one kind, some type, or some expression. -/
inductive Expectation where
  | token (kind : Kind)
  | type
  | expression
deriving DecidableEq

structure SyntaxFault where
  expected : Expectation
  found : Token
deriving DecidableEq

/-- What happens while a program runs, or while a constant is computed. -/
inductive RuntimeFault where
  | overflow
  | divisionByZero
  | outOfBounds (index low high : Integer)
  | notAddressable (index low high : Integer)
  | notAnArray (found : Tag)
  | notAnInteger (found : Tag)
  | notACondition (found : Tag)
  | operands (op : BinaryOp) (left right : Tag)
  | operand (op : UnaryOp) (found : Tag)
  | undefined (name : String)
  | unknownRoutine (id : RoutineId)
  | noResult (name : String)
deriving DecidableEq

inductive Destination where
  | constant
  | target (name : String)
  | argument (param routine : String)
deriving DecidableEq

inductive SemanticFault where
  | redeclared (name : String) (first : Symbol)
  | undeclared (name : String)
  | notConstant (symbol : Symbol)
  | notCallable (symbol : Symbol)
  | notAnArray (name : String) (found : Ty)
  | procedureAsValue (name : String)
  | functionAsStatement (name : String)
  | constantAssigned (name : String)
  | functionAssigned (name : String)
  | loopVariable (symbol : Symbol)
  | loopLimit (found : Ty)
  | condition (word : Kind) (found : Ty)
  | index (found : Ty)
  | boundType (found : Ty)
  | boundValue (found : Tag)
  | boundsReversed (low high : Integer)
  | mismatch (destination : Destination) (expected found : Ty)
  | arity (name : String) (signature : Ty) (expected found : Nat)
  | operands (op : BinaryOp) (left right : Ty)
  | operand (op : UnaryOp) (found : Ty)
  | invalidConstant (cause : RuntimeFault)
deriving DecidableEq

inductive Fault where
  | lexical (fault : LexicalFault)
  | syntactic (fault : SyntaxFault)
  | semantic (fault : SemanticFault)
  | runtime (fault : RuntimeFault)
deriving DecidableEq

/-- The phases of working on a program, each with faults of its own. -/
inductive Phase where
  | lexical | syntactic | semantic | runtime
deriving DecidableEq

/-- How messages call the faults of a phase. -/
def Phase.title : Phase → String
  | .lexical => "Lexical Error"
  | .syntactic => "Syntax Error"
  | .semantic => "Semantic Error"
  | .runtime => "Runtime Error"

def LexicalFault.message : LexicalFault → String
  | .unexpectedCharacter c => "Unexpected character: '" ++ String.ofList [c] ++ "'"
  | .unterminatedComment => "Unterminated comment"
  | .unterminatedString => "Unterminated string"
  | .invalidNumber text => "Invalid number literal: " ++ text

def Expectation.text : Expectation → String
  | .token kind => kind.text
  | .type => "type"
  | .expression => "expression"

def SyntaxFault.message (fault : SyntaxFault) : String :=
  "Expected " ++ fault.expected.text ++ ", found " ++ fault.found.describe

def RuntimeFault.message : RuntimeFault → String
  | .overflow => "Integer overflow"
  | .divisionByZero => "Division by zero"
  | .outOfBounds index low high =>
    "Index " ++ index.text ++ " is out of bounds " ++ low.text ++ ".." ++ high.text
  | .notAddressable index low high =>
    "Index " ++ index.text ++ " of " ++ low.text ++ ".." ++ high.text ++ " cannot be addressed"
  | .notAnArray found => "Cannot index a value of type " ++ found.name
  | .notAnInteger found => "Expected Integer, got " ++ found.name
  | .notACondition found => "Condition must be Boolean, got " ++ found.name
  | .operands op left right =>
    "Operator '" ++ op.symbol ++ "' cannot be applied to " ++ left.name ++ " and " ++ right.name
  | .operand op found => "Operator '" ++ op.symbol ++ "' cannot be applied to " ++ found.name
  | .undefined name => "Undefined variable '" ++ name ++ "'"
  | .unknownRoutine id => "Unknown routine #" ++ digits id
  | .noResult name => "'" ++ name ++ "' does not return a value"

def Destination.text : Destination → String
  | .constant => "constant declaration"
  | .target name => "assignment to '" ++ name ++ "'"
  | .argument param routine => "argument '" ++ param ++ "' of '" ++ routine ++ "'"

/-- The wording of a breach of the rules on names and types. -/
def SemanticFault.message : SemanticFault → String
  | .redeclared name _ => "'" ++ name ++ "' is already declared in this scope"
  | .undeclared name => "Undeclared identifier '" ++ name ++ "'"
  | .notConstant symbol =>
    "'" ++ symbol.name ++ "' is a " ++ symbol.meaning.noun ++ ", not a constant"
  | .notCallable symbol =>
    "'" ++ symbol.name ++ "' is a " ++ symbol.meaning.noun ++ " of type " ++ symbol.type.text
      ++ " and cannot be called"
  | .notAnArray name found => "Cannot index '" ++ name ++ "': " ++ found.text ++ " is not an array"
  | .procedureAsValue name => "Procedure '" ++ name ++ "' does not return a value"
  | .functionAsStatement name => "Function '" ++ name ++ "' cannot be used as a statement"
  | .constantAssigned name => "Cannot assign to constant '" ++ name ++ "'"
  | .functionAssigned name => "Cannot assign to function '" ++ name ++ "' outside its own body"
  | .loopVariable symbol =>
    "Loop variable '" ++ symbol.name ++ "' must be an Integer variable, found "
      ++ symbol.meaning.noun ++ " of type " ++ symbol.type.text
  | .loopLimit found => "Loop limit must be Integer, found " ++ found.text
  | .condition word found =>
    "Condition of " ++ word.text ++ " must be Boolean, found " ++ found.text
  | .index found => "Array index must be Integer, found " ++ found.text
  | .boundType found => "Array bounds must be Integer, found " ++ found.text
  | .boundValue found => "Array bounds must be Integer, found " ++ found.name
  | .boundsReversed low high =>
    "Array lower bound " ++ low.text ++ " is greater than upper bound " ++ high.text
  | .mismatch destination expected found =>
    "Type mismatch in " ++ destination.text ++ ": expected " ++ expected.text ++ ", found "
      ++ found.text
  | .arity name _ expected found =>
    "'" ++ name ++ "' expects " ++ digits expected ++ " argument(s), found " ++ digits found
  | .operands op left right =>
    "Operator '" ++ op.symbol ++ "' cannot be applied to " ++ left.text ++ " and " ++ right.text
  | .operand op found => "Operator '" ++ op.symbol ++ "' cannot be applied to " ++ found.text
  | .invalidConstant cause => "Invalid constant expression: " ++ cause.message

/-- The advice that goes with some breaches of the rules on names and types. -/
def SemanticFault.help? : SemanticFault → Option String
  | .redeclared _ first =>
    some ("'" ++ first.name ++ "' was first declared as a " ++ first.meaning.noun ++ " at line "
      ++ digits first.span.line ++ ", column " ++ digits first.span.column ++ ".")
  | .undeclared _ => some "Declare it in a 'var' or 'const' section before using it."
  | .notConstant _ =>
    some "Constant initializers and array bounds may only use literals and constants."
  | .procedureAsValue _ => some "Only functions can be used inside expressions."
  | .functionAsStatement _ =>
    some "Assign the result to a variable, or declare it as a procedure."
  | .functionAssigned _ =>
    some "A function's result is set by assigning to its name inside the function."
  | .boundsReversed _ _ => some "Declare arrays as Array[low..high] with low <= high."
  | .arity name signature _ _ => some ("Signature: " ++ name ++ " " ++ signature.text)
  | _ => none

namespace Fault

def phase : Fault → Phase
  | .lexical _ => .lexical
  | .syntactic _ => .syntactic
  | .semantic _ => .semantic
  | .runtime _ => .runtime

def message : Fault → String
  | .lexical fault => fault.message
  | .syntactic fault => fault.message
  | .semantic fault => fault.message
  | .runtime fault => fault.message

def help? : Fault → Option String
  | .semantic fault => fault.help?
  | _ => none

end Fault

structure Diagnostic where
  fault : Fault
  span : Span
deriving DecidableEq

def Diagnostic.text (diagnostic : Diagnostic) : String :=
  diagnostic.fault.phase.title ++ " at line " ++ digits diagnostic.span.line ++ ", column "
    ++ digits diagnostic.span.column ++ ": " ++ diagnostic.fault.message

end SmallPascal
