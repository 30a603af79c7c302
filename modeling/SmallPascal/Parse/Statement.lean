import SmallPascal.Parse.Expression

/-!
Reading statements. What a statement that begins with a name is, depends on what the name means; an
`else` belongs to the nearest `if`.
-/

namespace SmallPascal

namespace Parse

variable {ρ : Type} [Record ρ]

/-- The value that is assigned to `target`, which holds values of the given type; the next token has
to be the assignment sign. -/
def assigned (target : Token) (type : Ty) : Reading ρ Expr := do
  let sign ← expect .assign
  let value ← expression
  coerce value type sign.span (.target target.lexeme)

/-- An assignment to `target`, whose value is kept under the name `slot`. -/
def assignment (target : Token) (type : Ty) (slot : String) : Reading ρ Stmt := do
  let value ← assigned target type
  return .assign slot value (target.span.through value.span)

/-- The indices of an element of `name`, and the type of the element. -/
def path (name : Token) (type : Ty) : Reading ρ (List IndexStep × Ty) :=
  extend (fun (steps, type) => do
    match ← bracketOf term name type with
    | some (step, _) => return some (steps ++ [step], step.item)
    | none => return none) ([], type)

/-- An assignment to the variable `name` or to an element of it. -/
def storing (name : Token) (symbol : Symbol) : Reading ρ Stmt := do
  if ← check .leftParen then fail (.notCallable symbol) name.span
  if ← check .leftBracket then
    let (steps, item) ← path name symbol.type
    let value ← assigned name item
    return .assignElement name.lexeme steps value (name.span.through value.span)
  else assignment name symbol.type name.lexeme

/-- An assignment to the name of a function, which sets its result inside its own body. -/
def setResult (name : Token) (symbol : Symbol) (id : RoutineId) : Reading ρ Stmt := do
  if ← check .assign then
    match symbol.type, (← get).enclosing.head? == some id with
    | .function _ returns, true => assignment name returns resultSlot
    | _, _ => fail (.functionAssigned name.lexeme) name.span
  else fail (.functionAsStatement name.lexeme) name.span

def nameStatement : Reading ρ Stmt := do
  let name ← next
  let symbol ← lookup name
  match symbol.meaning with
  | .procedure id =>
    let (args, span) ← callOf term symbol name
    return .call id name.lexeme args span
  | .function id => setResult name symbol id
  | .constant _ => fail (.constantAssigned name.lexeme) name.span
  | .var | .array => storing name symbol

/-- The condition behind the keyword `word`. -/
def condition (word : Kind) : Reading ρ Expr := do
  let e ← expression
  unless e.type = .boolean do
    fail (.condition word e.type) e.span
  return e

def loopVariable : Reading ρ Token := do
  let name ← expect .identifier
  let symbol ← lookup name
  unless symbol.meaning = .var ∧ symbol.type = .integer do
    fail (.loopVariable symbol) name.span
  return name

/-- The last value that a `for` loop counts to. -/
def loopLimit : Reading ρ Expr := do
  let e ← expression
  unless e.type = .integer do
    fail (.loopLimit e.type) e.span
  return e

def writelnStatement : Reading ρ Stmt := do
  let keyword ← next
  let (args, last) ← argumentsOf term keyword
  return .writeln args (keyword.span.through last)

section

variable (statement : Reading ρ Stmt)

/-- Statements between `begin` and `end`, given how a statement is read. -/
def blockOf : Reading ρ Stmt := do
  let first ← expect .beginWord
  let statements ← separated .semicolon statement
  let last ← expect .endWord
  return .block statements (first.span.through last.span)

/-- A choice, with or without an alternative. -/
def ifOf : Reading ρ Stmt := do
  let keyword ← next
  let test ← condition .ifWord
  let _ ← expect .thenWord
  let yes ← statement
  if ← accept .elseWord then
    let no ← statement
    return .ifThenElse test yes no (keyword.span.through no.span)
  else return .ifThen test yes (keyword.span.through yes.span)

def whileOf : Reading ρ Stmt := do
  let keyword ← next
  let test ← condition .whileWord
  let _ ← expect .doWord
  let body ← statement
  return .whileDo test body (keyword.span.through body.span)

def forOf : Reading ρ Stmt := do
  let keyword ← next
  let name ← loopVariable
  let initializer ← assignment name .integer name.lexeme
  let _ ← expect .toWord
  let limit ← loopLimit
  let _ ← expect .doWord
  let body ← statement
  return .forTo name.lexeme initializer limit body (keyword.span.through body.span)

/-- A statement, given how the statements inside it are read. Where none begins, it is empty. -/
def statementOf : Reading ρ Stmt := do
  let token ← peek
  match token.kind with
  | .beginWord => blockOf statement
  | .ifWord => ifOf statement
  | .whileWord => whileOf statement
  | .forWord => forOf statement
  | .writelnWord => writelnStatement
  | .identifier => nameStatement
  | _ => return .skip token.span

end

/-- A statement that is nested less deep than the bound. Every statement with others inside begins
with a token of its own. -/
def statementWithin : Nat → Reading ρ Stmt
  | 0 => exhausted
  | bound + 1 => fun state => statementOf (statementWithin bound) state

def statement : Reading ρ Stmt := do statementWithin (← budget)

def block : Reading ρ Stmt := blockOf statement

end Parse

end SmallPascal
