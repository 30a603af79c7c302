import SmallPascal.Integer

/-!
Types of the language: which are equal, which values may be stored where, and how a type is written.
Two arrays agree if their items do, whatever their bounds.
-/

namespace SmallPascal

/-- The type of a value, of a place that holds one, or of a routine with named parameters. -/
inductive Ty where
  | integer
  | real
  | boolean
  | string
  | array (low high : Integer) (item : Ty)
  | function (params : List (String × Ty)) (returns : Ty)
  | procedure (params : List (String × Ty))

abbrev Params := List (String × Ty)

namespace Ty

mutual

/-- Equality of types, with bounds and names of parameters. -/
def decEq : (s t : Ty) → Decidable (s = t)
  | .integer, .integer | .real, .real | .boolean, .boolean | .string, .string => isTrue rfl
  | .array low high s, .array low' high' t =>
    if bounds : low = low' ∧ high = high' then
      match decEq s t with
      | isTrue e => isTrue (by simp [bounds, e])
      | isFalse e => isFalse (by simp [e])
    else isFalse (fun e => bounds ⟨(array.inj e).1, (array.inj e).2.1⟩)
  | .function ps s, .function qs t =>
    match decEqParams ps qs, decEq s t with
    | isTrue e, isTrue f => isTrue (by simp [e, f])
    | isFalse e, _ => isFalse (by simp [e])
    | _, isFalse e => isFalse (by simp [e])
  | .procedure ps, .procedure qs =>
    match decEqParams ps qs with
    | isTrue e => isTrue (by simp [e])
    | isFalse e => isFalse (by simp [e])
  | .integer, .real | .integer, .boolean | .integer, .string | .integer, .array .. => isFalse nofun
  | .integer, .function .. | .integer, .procedure .. => isFalse nofun
  | .real, .integer | .real, .boolean | .real, .string | .real, .array .. => isFalse nofun
  | .real, .function .. | .real, .procedure .. => isFalse nofun
  | .boolean, .integer | .boolean, .real | .boolean, .string | .boolean, .array .. => isFalse nofun
  | .boolean, .function .. | .boolean, .procedure .. => isFalse nofun
  | .string, .integer | .string, .real | .string, .boolean | .string, .array .. => isFalse nofun
  | .string, .function .. | .string, .procedure .. => isFalse nofun
  | .array .., .integer | .array .., .real | .array .., .boolean | .array .., .string =>
    isFalse nofun
  | .array .., .function .. | .array .., .procedure .. => isFalse nofun
  | .function .., .integer | .function .., .real | .function .., .boolean => isFalse nofun
  | .function .., .string | .function .., .array .. | .function .., .procedure .. => isFalse nofun
  | .procedure .., .integer | .procedure .., .real | .procedure .., .boolean => isFalse nofun
  | .procedure .., .string | .procedure .., .array .. | .procedure .., .function .. => isFalse nofun

def decEqParams : (ps qs : Params) → Decidable (ps = qs)
  | [], [] => isTrue rfl
  | [], _ :: _ | _ :: _, [] => isFalse nofun
  | (x, s) :: ps, (y, t) :: qs =>
    if name : x = y then
      match decEq s t, decEqParams ps qs with
      | isTrue e, isTrue f => isTrue (by simp [name, e, f])
      | isFalse e, _ => isFalse (by simp [e])
      | _, isFalse e => isFalse (by simp [e])
    else isFalse (by simp [name])

end

instance : DecidableEq Ty := decEq

def isNumeric : Ty → Bool
  | .integer | .real => true
  | _ => false

def isArray : Ty → Bool
  | .array .. => true
  | _ => false

/-- Agreement of types: arrays agree if their items do, and the type of a routine agrees with
none. -/
def sameAs : Ty → Ty → Bool
  | .integer, .integer | .real, .real | .boolean, .boolean | .string, .string => true
  | .array _ _ s, .array _ _ t => s.sameAs t
  | _, _ => false

/-- Whether a value of the type `source` may be stored where `target` is expected: the two agree, or
they differ only in that an integer stands where a real is expected. -/
def accepts : (target source : Ty) → Bool
  | .real, .integer => true
  | .array _ _ s, .array _ _ t => s.accepts t
  | s, t => s.sameAs t

/-- Whether a value of the type `source` changes on its way into `target`: somewhere an integer
becomes a real. -/
def widens : (target source : Ty) → Bool
  | .real, .integer => true
  | .array _ _ s, .array _ _ t => s.widens t
  | _, _ => false

mutual

def text : Ty → String
  | .integer => "Integer"
  | .real => "Real"
  | .boolean => "Boolean"
  | .string => "String"
  | .array low high item => "Array[" ++ low.text ++ ".." ++ high.text ++ "] of " ++ item.text
  | .function params returns => "Function(" ++ paramsText params ++ "): " ++ returns.text
  | .procedure params => "Procedure(" ++ paramsText params ++ ")"

/-- The text of a list of parameters, without its parentheses. -/
def paramsText : Params → String
  | [] => ""
  | [(name, type)] => name ++ ": " ++ type.text
  | (name, type) :: rest => name ++ ": " ++ type.text ++ "; " ++ paramsText rest

end

/-- Among types that accept each other, widening is exactly the failure to agree. -/
theorem widens_of_accepts_of_not_sameAs {s t : Ty} (h : s.accepts t) :
    s.widens t = !s.sameAs t := by
  fun_induction accepts s t with
  | case1 => rfl
  | case2 _ _ _ _ _ _ ih => simpa [widens, sameAs] using ih h
  | case3 s t h₁ h₂ => cases s <;> cases t <;> simp_all [widens, sameAs]

end Ty

end SmallPascal
