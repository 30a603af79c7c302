import SmallPascal.Decimal
import SmallPascal.Type

/-!
Values of the language. An array keeps only the elements that were written, under their distance
from the lower bound; any other element is the default value of the item type.
-/

namespace SmallPascal

mutual

inductive Value where
  | integer (n : Integer)
  | real (x : Float)
  | boolean (b : Bool)
  | string (s : String)
  | array (elements : Elements)

/-- The written elements of an array, each with its offset, in increasing order of offsets. -/
inductive Elements where
  | nil
  | cons (offset : Nat) (value : Value) (rest : Elements)

end

deriving instance DecidableEq for Value, Elements

inductive Tag where
  | integer | real | boolean | string | array
deriving DecidableEq

def Tag.name : Tag → String
  | .integer => "Integer"
  | .real => "Real"
  | .boolean => "Boolean"
  | .string => "String"
  | .array => "Array"

namespace Elements

def get? : Elements → Nat → Option Value
  | .nil, _ => none
  | .cons offset value rest, k => if offset = k then some value else rest.get? k

/-- Writes an element at its place in the order, instead of the one that was there. -/
def insert : Elements → Nat → Value → Elements
  | .nil, k, v => .cons k v .nil
  | .cons offset value rest, k, v =>
    if k < offset then .cons k v (.cons offset value rest)
    else if k = offset then .cons k v rest
    else .cons offset value (rest.insert k v)

/-- The elements with their offsets, in order. -/
def toList : Elements → List (Nat × Value)
  | .nil => []
  | .cons offset value rest => (offset, value) :: rest.toList

/-- The elements of a list of offsets and values; of two at one offset the later one stays. -/
def ofList (entries : List (Nat × Value)) : Elements :=
  entries.foldl (fun elements entry => elements.insert entry.1 entry.2) .nil

end Elements

namespace Value

def tag : Value → Tag
  | .integer _ => .integer
  | .real _ => .real
  | .boolean _ => .boolean
  | .string _ => .string
  | .array _ => .array

def toReal? : Value → Option Float
  | .integer n => some n.toReal
  | .real x => some x
  | _ => none

mutual

/-- Equality as the language compares: values of two sorts differ, reals are compared as numbers, so
that the two zeros are equal and what is not a number differs from itself. -/
def equals : Value → Value → Bool
  | .integer m, .integer n => m == n
  | .real x, .real y => x == y
  | .boolean a, .boolean b => a == b
  | .string s, .string t => s == t
  | .array xs, .array ys => elementsEqual xs ys
  | _, _ => false

/-- Equality of arrays: the same offsets are written, with equal elements. -/
def elementsEqual : Elements → Elements → Bool
  | .nil, .nil => true
  | .cons i x xs, .cons j y ys => i == j && x.equals y && elementsEqual xs ys
  | _, _ => false

end

mutual

/-- Replaces every integer, also inside arrays, by the real nearest to it. -/
def widen : Value → Value
  | .integer n => .real n.toReal
  | .array elements => .array (widenElements elements)
  | value => value

def widenElements : Elements → Elements
  | .nil => .nil
  | .cons offset value rest => .cons offset value.widen (widenElements rest)

end

mutual

/-- The text that is written for a value; an array shows its written elements. -/
def text : Value → String
  | .integer n => n.text
  | .real x => Decimal.text x
  | .boolean b => if b then "true" else "false"
  | .string s => s
  | .array elements => "[" ++ elementsText elements ++ "]"

/-- The texts of the elements, with commas between them. -/
def elementsText : Elements → String
  | .nil => ""
  | .cons _ value .nil => value.text
  | .cons _ value rest => value.text ++ ", " ++ elementsText rest

end

end Value

/-- The value of a place of this type before anything is stored there. A routine is no place; it has
the default of an integer. -/
def Ty.default : Ty → Value
  | .integer => .integer 0
  | .real => .real 0
  | .boolean => .boolean false
  | .string => .string ""
  | .array .. => .array .nil
  | .function .. | .procedure .. => .integer 0

namespace Elements

@[simp] theorem get?_nil (k : Nat) : Elements.nil.get? k = none := rfl

theorem get?_insert (elements : Elements) (k j : Nat) (v : Value) :
    (elements.insert k v).get? j = if k = j then some v else elements.get? j := by
  fun_induction insert elements k v <;> grind [get?]

@[simp] theorem get?_insert_self (elements : Elements) (k : Nat) (v : Value) :
    (elements.insert k v).get? k = some v := by
  simp [get?_insert]

theorem get?_widenElements (elements : Elements) (k : Nat) :
    (Value.widenElements elements).get? k = (elements.get? k).map Value.widen := by
  match elements with
  | .nil => rfl
  | .cons offset value rest =>
    simp only [Value.widenElements, get?]
    split
    · rfl
    · exact get?_widenElements rest k

end Elements

end SmallPascal
