import SmallPascal.Span
import SmallPascal.Value

/-!
Symbols: what a declared name stands for.
-/

namespace SmallPascal

abbrev RoutineId := Nat

/-- What a name stands for. The value of a constant is known once the constant is declared. -/
inductive Meaning where
  | constant (value : Value)
  | var
  | array
  | function (id : RoutineId)
  | procedure (id : RoutineId)
deriving DecidableEq

/-- How messages call what a name stands for. -/
def Meaning.noun : Meaning → String
  | .constant _ => "constant"
  | .var => "variable"
  | .array => "array"
  | .function _ => "function"
  | .procedure _ => "procedure"

structure Symbol where
  name : String
  meaning : Meaning
  type : Ty
  span : Span
deriving DecidableEq

/-- A name for a place that holds values of the given type. -/
def Symbol.storage (name : String) (type : Ty) (span : Span) : Symbol :=
  ⟨name, if type.isArray then .array else .var, type, span⟩

end SmallPascal
