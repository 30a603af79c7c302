import SmallPascal.Fault

/-!
Scopes: the declared names of the program and, inside it, of the routines whose bodies are being
read. A name means what its innermost declaration says.
-/

namespace SmallPascal

abbrev Scope := List Symbol

/-- The symbol of a name, if the scope has one. -/
def Scope.find? (scope : Scope) (name : String) : Option Symbol :=
  List.find? (fun symbol => symbol.name == name) scope

/-- The scope of the program, and the open scopes inside it from the innermost outward. -/
structure Scopes where
  program : Scope
  nested : List Scope

namespace Scopes

/-- Only the scope of the program, without a name. -/
def empty : Scopes := ⟨[], []⟩

def depth (scopes : Scopes) : Nat := scopes.nested.length + 1

def push (scopes : Scopes) : Scopes := { scopes with nested := [] :: scopes.nested }

/-- Closes the innermost scope; that of the program stays open. -/
def pop (scopes : Scopes) : Scopes := { scopes with nested := scopes.nested.tail }

def current (scopes : Scopes) : Scope := scopes.nested.headD scopes.program

def setCurrent (scopes : Scopes) (scope : Scope) : Scopes :=
  match scopes.nested with
  | [] => { scopes with program := scope }
  | _ :: outer => { scopes with nested := scope :: outer }

/-- Declares a symbol in the innermost scope, which must not have its name yet. -/
def declare (scopes : Scopes) (symbol : Symbol) : Except Diagnostic Scopes :=
  match scopes.current.find? symbol.name with
  | some first => .error ⟨.semantic (.redeclared symbol.name first), symbol.span⟩
  | none => .ok (scopes.setCurrent (symbol :: scopes.current))

/-- What a name means: the symbol of the innermost scope that has it. -/
def resolve (scopes : Scopes) (name : String) : Option Symbol :=
  (scopes.nested ++ [scopes.program]).findSome? (·.find? name)

@[simp] theorem pop_push (scopes : Scopes) : scopes.push.pop = scopes := rfl

@[simp] theorem depth_push (scopes : Scopes) : scopes.push.depth = scopes.depth + 1 := rfl

theorem pop_of_nested_eq_nil {scopes : Scopes} (h : scopes.nested = []) : scopes.pop = scopes := by
  cases scopes; simp_all [pop]

@[simp] theorem current_setCurrent (scopes : Scopes) (scope : Scope) :
    (scopes.setCurrent scope).current = scope := by
  unfold setCurrent current; split <;> simp_all

@[simp] theorem depth_setCurrent (scopes : Scopes) (scope : Scope) :
    (scopes.setCurrent scope).depth = scopes.depth := by
  unfold setCurrent depth; split <;> simp_all

end Scopes

end SmallPascal
