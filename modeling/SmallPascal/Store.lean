import SmallPascal.Value

/-!
Stores: the values of the names of one activation, and writing into an element of an array.
-/

namespace SmallPascal

/-- Names with their values, each name once, in the order in which they were first set. -/
structure Store where
  entries : List (String × Value)
deriving DecidableEq

namespace Store

def empty : Store := ⟨[]⟩

def get? (store : Store) (name : String) : Option Value :=
  (store.entries.find? (fun entry => entry.1 == name)).map (·.2)

def setEntry (name : String) (value : Value) : List (String × Value) → List (String × Value)
  | [] => [(name, value)]
  | entry :: rest =>
    if entry.1 = name then (name, value) :: rest else entry :: setEntry name value rest

/-- Gives a name a value, whether or not it had one. -/
def set (store : Store) (name : String) (value : Value) : Store :=
  ⟨setEntry name value store.entries⟩

def setAll (store : Store) (entries : List (String × Value)) : Store :=
  entries.foldl (fun store entry => store.set entry.1 entry.2) store

/-- Gives names the default values of their types. -/
def setDefaults (store : Store) (places : List (String × Ty)) : Store :=
  store.setAll (places.map fun place => (place.1, place.2.default))

@[simp] theorem get?_empty (name : String) : empty.get? name = none := rfl

theorem get?_set (store : Store) (name other : String) (value : Value) :
    (store.set name value).get? other = if name = other then some value else store.get? other := by
  obtain ⟨entries⟩ := store
  unfold get? set
  fun_induction setEntry name value entries <;> grind

@[simp] theorem get?_set_self (store : Store) (name : String) (value : Value) :
    (store.set name value).get? name = some value := by
  simp [get?_set]

theorem get?_set_of_ne (store : Store) {name other : String} (value : Value) (h : name ≠ other) :
    (store.set name value).get? other = store.get? other := by
  simp [get?_set, h]

@[simp] theorem setAll_nil (store : Store) : store.setAll [] = store := rfl

@[simp] theorem setAll_cons (store : Store) (entry : String × Value)
    (entries : List (String × Value)) :
    store.setAll (entry :: entries) = (store.set entry.1 entry.2).setAll entries := rfl

end Store

/-- Writes a value at a path of offsets, each given with the type of what it leads to. Elements on
the way that were never written come into being with their default values. Where the path leads
into something that is no array, its sort is answered, and the elements made on the way stay. -/
def Value.write (path : List (Nat × Ty)) (new target : Value) : Value × Option Tag :=
  match path with
  | [] => (new, none)
  | (offset, item) :: rest =>
    match target with
    | .array elements =>
      let (element, refused) := Value.write rest new ((elements.get? offset).getD item.default)
      (.array (elements.insert offset element), refused)
    | other => (other, some other.tag)

/-- The element of an array at a path of offsets; what was never written has its default value. -/
def Value.read? (path : List (Nat × Ty)) (target : Value) : Option Value :=
  match path with
  | [] => some target
  | (offset, item) :: rest =>
    match target with
    | .array elements => Value.read? rest ((elements.get? offset).getD item.default)
    | _ => none

theorem Value.read?_write {path : List (Nat × Ty)} {new target : Value}
    (h : (Value.write path new target).2 = none) :
    Value.read? path (Value.write path new target).1 = some new := by
  fun_induction Value.write path new target with
  | case1 => rfl
  | case2 offset item rest elements element refused e ih =>
    simp_all [Value.read?]
  | case3 => simp at h

end SmallPascal
