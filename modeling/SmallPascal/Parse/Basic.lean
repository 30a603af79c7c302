import SmallPascal.Evaluation
import SmallPascal.Scopes
import SmallPascal.Tokens

/-! Reading a program in one pass: what a reader knows at each point, the steps on tokens, and
repetition.

A reader that fails keeps what it had done, so that the text behind the failure can still be
read. -/

namespace SmallPascal

/-- What a reader knows: the tokens before it, the names that are declared, all routines so far, and
the routines whose bodies it is in, the innermost first. Beside that it keeps a record of what it
computes, of the kind `ρ`; a reader without one has the trivial record. -/
structure ParseState (ρ : Type := Unit) where
  tokens : Tokens
  scopes : Scopes
  routines : List Routine
  enclosing : List RoutineId
  /-- Whether a constant is being read, which may use no other names than those of constants. -/
  inConstant : Bool
  /-- Whether operations on literals are replaced by their values. -/
  folding : Bool
  record : ρ

/-- A step of reading, with a record of the kind `ρ`. -/
abbrev Reading (ρ : Type) := ExceptT Diagnostic (StateM (ParseState ρ))

abbrev Parse := Reading Unit

/-- A kind of record: the expressions whose values are computed can be noted in it, and it has no
other entries. -/
class Record (ρ : Type) where
  note : Expr → ρ → ρ
  entries : ρ → List Expr
  mem_entries {e x : Expr} {record : ρ} : x ∈ entries (note e record) → x ∈ entries record ∨ x = e

instance : Record Unit := ⟨fun _ record => record, fun _ => [], .inl⟩

instance : Record (List Expr) :=
  ⟨fun e record => record ++ [e], id, fun among => by simpa using among⟩

/-- A reader before the first token of a text. -/
def ParseState.ofText (text : String) (folding : Bool) : ParseState :=
  ⟨.ofText text, .empty, [], [], false, folding, ()⟩

namespace Parse

variable {ρ : Type}

/-! ### Tokens -/

/-- The next token, which stays to be read. -/
def peek : Reading ρ Token := do
  match (← get).tokens.peek with
  | .ok token => pure token
  | .error diagnostic => throw diagnostic

def next : Reading ρ Token := do
  let tokens := (← get).tokens
  modify fun state => { state with tokens := tokens.tail }
  match tokens.peek with
  | .ok token => pure token
  | .error diagnostic => throw diagnostic

/-- Fails at a token that stands where something else is expected. -/
def unexpected {α : Type} (expected : Expectation) (found : Token) : Reading ρ α :=
  throw ⟨.syntactic ⟨expected, found⟩, found.span⟩

def fail {α : Type} (fault : SemanticFault) (span : Span) : Reading ρ α :=
  throw ⟨.semantic fault, span⟩

def expect (kind : Kind) : Reading ρ Token := do
  let token ← next
  if token.kind = kind then pure token else unexpected (.token kind) token

/-- Whether the next token is of the given kind. -/
def check (kind : Kind) : Reading ρ Bool := return (← peek).kind = kind

/-- Reads the next token if it is of the given kind. -/
def accept (kind : Kind) : Reading ρ Bool := do
  if ← check kind then
    let _ ← next
    return true
  else return false

/-! ### Repetition

Every turn of a repetition reads a token, so that the number of tokens before the reader bounds the
turns. Past the bound, which is never reached, the next token counts as one that cannot stand there.
-/

/-- One more than the number of tokens before the reader. -/
def budget : Reading ρ Nat := return (← get).tokens.items.length + 1

/-- The failure of a repetition that goes on past its bound. -/
def exhausted {α : Type} : Reading ρ α := do unexpected .expression (← next)

/-- Reads items as long as `more` says so, at most so many. -/
def manyWithin {α : Type} (more : Reading ρ Bool) (item : Reading ρ α) : Nat → Reading ρ (List α)
  | 0 => exhausted
  | bound + 1 => do
    if ← more then
      let first ← item
      let rest ← manyWithin more item bound
      return first :: rest
    else return []

def many {α : Type} (more : Reading ρ Bool) (item : Reading ρ α) : Reading ρ (List α) := do
  manyWithin more item (← budget)

/-- Reads one item, and more behind each separator. -/
def separated {α : Type} (separator : Kind) (item : Reading ρ α) : Reading ρ (List α) := do
  let first ← item
  let rest ← many (accept separator) item
  return first :: rest

/-- Extends what was read until it cannot be extended, at most so many times. -/
def extendWithin {α : Type} (step : α → Reading ρ (Option α)) : Nat → α → Reading ρ α
  | 0, _ => exhausted
  | bound + 1, a => do
    match ← step a with
    | some b => extendWithin step bound b
    | none => return a

/-- Extends what was read until it cannot be extended. -/
def extend {α : Type} (step : α → Reading ρ (Option α)) (a : α) : Reading ρ α := do
  extendWithin step (← budget) a

/-! ### Names -/

/-- What a name means; it has to be declared. -/
def lookup (name : Token) : Reading ρ Symbol := do
  match (← get).scopes.resolve name.lexeme with
  | some symbol => pure symbol
  | none => fail (.undeclared name.lexeme) name.span

/-- Declares a symbol in the innermost scope. -/
def declare (symbol : Symbol) : Reading ρ Unit := do
  match (← get).scopes.declare symbol with
  | .ok scopes => modify fun state => { state with scopes }
  | .error diagnostic => throw diagnostic

/-- Reads a constant, whether or not that succeeds. -/
def asConstant {α : Type} (body : Reading ρ α) : Reading ρ α := fun state =>
  let (result, after) := body { state with inConstant := true }
  (result, { after with inConstant := state.inConstant })

/-- Reads the body of a routine in a scope of its own, which is closed whether or not that
succeeds. -/
def inRoutine {α : Type} (id : RoutineId) (body : Reading ρ α) : Reading ρ α := fun state =>
  let inside := { state with scopes := state.scopes.push, enclosing := id :: state.enclosing }
  let (result, after) := body inside
  (result, { after with scopes := after.scopes.pop, enclosing := after.enclosing.tail })

end Parse

end SmallPascal
