import SmallPascal.Parse.Statement

/-! Reading declarations and whole programs. A routine is entered into the list of routines, and its
name declared, before its body is read, so that the body can call it; the body is put in
afterwards. -/

namespace SmallPascal

/-- The constants and variables of one part of a program, in the order of their declarations. -/
structure Declarations where
  constants : List (String × Value)
  vars : List (String × Ty)

def Declarations.none : Declarations := ⟨[], []⟩

/-- The declarations of several sections as those of one. -/
def Declarations.join (sections : List Declarations) : Declarations :=
  ⟨sections.flatMap (·.constants), sections.flatMap (·.vars)⟩

namespace Parse

variable {ρ : Type} [Record ρ]

/-! ### Types -/

/-- A bound of an array, which has to be an integer constant. -/
def arrayBound : Reading ρ Integer := do
  let e ← asConstant expression
  unless e.type = .integer do
    fail (.boundType e.type) e.span
  match ← constantValue e with
  | .ok (.integer n) => return n
  | .ok other => fail (.boundValue other.tag) e.span
  | .error (fault, span) => throw ⟨.runtime fault, span⟩

/-- A type, given how the type of an array's items is read. -/
def typeOf (item : Reading ρ Ty) : Reading ρ Ty := do
  let token ← next
  match token.kind with
  | .integerType => return .integer
  | .realType => return .real
  | .booleanType => return .boolean
  | .arrayType =>
    let _ ← expect .leftBracket
    let low ← arrayBound
    let _ ← expect .range
    let high ← arrayBound
    let _ ← expect .rightBracket
    let _ ← expect .ofWord
    let t ← item
    if high.toInt < low.toInt then fail (.boundsReversed low high) token.span
    return .array low high t
  | _ => unexpected .type token

/-- A type that is nested less deep than the bound. Every type begins with a token of its own. -/
def typeWithin : Nat → Reading ρ Ty
  | 0 => exhausted
  | bound + 1 => fun state => typeOf (typeWithin bound) state

def type : Reading ρ Ty := do typeWithin (← budget)

/-! ### Constants and variables -/

def names : Reading ρ (List Token) := separated .comma (expect .identifier)

/-- Names with commas between them, and perhaps one more comma before a colon. -/
def constantNames : Reading ρ (List Token) := do
  let first ← expect .identifier
  let more : Reading ρ Bool := do
    if ← accept .comma then return !(← check .colon) else return false
  let rest ← many more (expect .identifier)
  return first :: rest

/-- Constants with a common value, which may be given a type. -/
def constantGroup : Reading ρ Declarations := do
  let group ← constantNames
  let declared? ← if ← accept .colon then some <$> type else pure none
  let sign ← expect .equal
  let e ← asConstant expression
  let _ ← expect .semicolon
  let e ← match declared? with
    | some declared => coerce e declared sign.span .constant
    | none => pure e
  match ← constantValue e with
  | .error (fault, span) => fail (.invalidConstant fault) span
  | .ok value =>
    let common := declared?.getD e.type
    group.forM fun name => declare ⟨name.lexeme, .constant value, common, name.span⟩
    return ⟨group.map fun name => (name.lexeme, value), []⟩

def variableGroup : Reading ρ Declarations := do
  let group ← names
  let _ ← expect .colon
  let common ← type
  let _ ← expect .semicolon
  group.forM fun name => declare (.storage name.lexeme common name.span)
  return ⟨[], group.map fun name => (name.lexeme, common)⟩

/-- A section of one group or more, behind its keyword. -/
def groups (group : Reading ρ Declarations) : Reading ρ Declarations := do
  let _ ← next
  let first ← group
  let rest ← many (check .identifier) group
  return .join (first :: rest)

/-! ### Routines -/

def parameterGroup : Reading ρ (List (Token × Ty)) := do
  let group ← names
  let _ ← expect .colon
  let common ← type
  return group.map fun name => (name, common)

/-- The parameters in the head of a routine, if there are any. -/
def parameters : Reading ρ (List (Token × Ty)) := do
  if ← accept .leftParen then
    let groups ← if ← check .rightParen then pure [] else separated .semicolon parameterGroup
    let _ ← expect .rightParen
    return groups.flatten
  else return []

/-- The head of a routine, up to its first semicolon: the routine with no body yet, its name, and
the tokens of its parameters. -/
def routineHead : Reading ρ (Routine × Token × List (Token × Ty)) := do
  let keyword ← next
  let name ← expect .identifier
  let params ← parameters
  let returns ←
    if keyword.kind = .functionWord then
      let _ ← expect .colon
      some <$> type
    else pure none
  let _ ← expect .semicolon
  let routine : Routine :=
    { name := name.lexeme
      params := params.map fun (param, type) => (param.lexeme, type)
      returns
      locals := []
      body := .skip name.span
      span := keyword.span.through name.span }
  return (routine, name, params)

/-- Enters a routine under a new number, and declares its name. -/
def enter (routine : Routine) (name : Token) : Reading ρ RoutineId := do
  let id := (← get).routines.length
  let meaning := if routine.returns.isSome then Meaning.function id else .procedure id
  declare ⟨name.lexeme, meaning, routine.type, name.span⟩
  modify fun state => { state with routines := state.routines ++ [routine] }
  return id

/-- Puts the body and the locals into a routine that was entered before. -/
def complete (id : RoutineId) (locals : List (String × Ty)) (body : Stmt) : Reading ρ Unit :=
  modify fun state =>
    { state with routines := state.routines.modify id fun r => { r with locals, body } }

section

variable (routine : Reading ρ Unit)

/-- The declarations of one part of a program, given how a routine is read. -/
def declarationsOf : Reading ρ Declarations := do
  let more : Reading ρ Bool := do
    match (← peek).kind with
    | .constWord | .varWord | .functionWord | .procedureWord => return true
    | _ => return false
  let declaration : Reading ρ Declarations := do
    match (← peek).kind with
    | .constWord => groups constantGroup
    | .varWord => groups variableGroup
    | _ =>
      routine
      return .none
  .join <$> many more declaration

/-- The body of a routine with the given parameters, with its locals. -/
def bodyOf (params : List (Token × Ty)) : Reading ρ (List (String × Ty) × Stmt) := do
  params.forM fun (param, type) => declare (.storage param.lexeme type param.span)
  let declarations ← declarationsOf routine
  let body ← block
  return (declarations.vars, body)

/-- A function or a procedure, given how the routines inside it are read. -/
def routineOf : Reading ρ Unit := do
  let (head, name, params) ← routineHead
  let id ← enter head name
  let (locals, body) ← inRoutine id (bodyOf routine params)
  let _ ← expect .semicolon
  complete id locals body

end

/-- A routine that is nested less deep than the bound. Every routine begins with a token of its
own. -/
def routineWithin : Nat → Reading ρ Unit
  | 0 => exhausted
  | bound + 1 => fun state => routineOf (routineWithin bound) state

def routine : Reading ρ Unit := do routineWithin (← budget)

/-! ### Programs -/

/-- A program that takes up all the rest of the text. The routines become its own: the reader then
has none. -/
def program : Reading ρ Program := do
  let _ ← expect .programWord
  let name ← expect .identifier
  let _ ← expect .semicolon
  let declarations ← declarationsOf routine
  let body ← block
  let _ ← expect .dot
  let _ ← expect .endOfText
  let routines := (← get).routines
  modify fun state => { state with routines := [] }
  return ⟨name.lexeme, declarations.constants, declarations.vars, routines, body⟩

end Parse

end SmallPascal
