import SmallPascal.Evaluation

/-!
Running statements, routines and programs. Loops and nested calls are bounded by numbers that a run
is given; a run that exceeds one of them stops, and any other bound at which it does not stop leads
to the same outcome.
-/

namespace SmallPascal

structure Machine where
  store : Store
  output : Output

/-- A computation that may change the store and may stop. What it had changed before it stops stays
changed. -/
abbrev Exec := ExceptT Stop (StateM Machine)

namespace Exec

def eval {α : Type} (computation : Store → Eval α) : Exec α := fun machine =>
  let (result, output) := computation machine.store machine.output
  (result, { machine with output })

def fail {α : Type} (fault : RuntimeFault) (span : Span) : Exec α := throw (.fault fault span)

def set (name : String) (value : Value) : Exec Unit :=
  modify fun machine => { machine with store := machine.store.set name value }

def readInteger (name : String) (span : Span) : Exec Integer :=
  eval fun store =>
    match store.get? name with
    | some value => .ofExcept span value.expectInteger
    | none => .fail (.undefined name) span

def writeLine (line : String) : Exec Unit :=
  modify fun machine => { machine with output := machine.output.push line }

/-- Writes a value at a path of offsets into what a name stands for. -/
def writeElement (name : String) (path : List (Nat × Ty)) (value : Value) (span : Span) :
    Exec Unit := do
  match (← get).store.get? name with
  | none => fail (.undefined name) span
  | some target =>
    let (target, refused) := Value.write path value target
    set name target
    match refused with
    | none => pure ()
    | some tag => fail (.notAnArray tag) span

/-- Runs `body` as long as `test` holds, at most `bound` times. -/
def repeatWhile (test : Exec Bool) (body : Exec Unit) : (bound : Nat) → Exec Unit
  | 0 => throw .outOfSteps
  | bound + 1 => do
    if ← test then
      body
      repeatWhile test body bound

/-- Runs `body` and counts `name` up, until it exceeds `limit` or cannot be counted further. The
variable is read anew at each turn, as the body may have set it. -/
def countTo (name : String) (limit : Integer) (span : Span) (body : Exec Unit) :
    (bound : Nat) → Exec Unit
  | 0 => throw .outOfSteps
  | bound + 1 => do
    let current ← readInteger name span
    if current.toInt ≤ limit.toInt then
      body
      match Integer.add? (← readInteger name span) 1 with
      | none => pure ()
      | some next =>
        set name (.integer next)
        countTo name limit span body bound

end Exec

/-- The offsets of a path of indices, each with the type of what it leads to. -/
def offsets (context : Context) (store : Store) : List IndexStep → Eval (List (Nat × Ty))
  | [] => pure []
  | step :: rest => do
    let n ← step.index.eval context store
    let offset ← .ofExcept step.index.span (n.offset step.low step.high)
    let more ← offsets context store rest
    return (offset, step.item) :: more

namespace Stmt

variable (context : Context) (bound : Nat)

mutual

/-- Runs a statement, where a loop may take `bound` turns. -/
def exec : Stmt → Exec Unit
  | .block statements _ => execAll statements
  | .ifThen condition yes _ => do
    if ← Exec.eval fun store => condition.holds context store then yes.exec
  | .ifThenElse condition yes no _ => do
    if ← Exec.eval fun store => condition.holds context store then yes.exec else no.exec
  | .whileDo condition body _ =>
    .repeatWhile (.eval fun store => condition.holds context store) body.exec bound
  | .forTo name initializer limit body span => do
    initializer.exec
    let n ← Exec.eval fun store => limit.eval context store
    let last ← Exec.eval fun _ => .ofExcept limit.span n.expectInteger
    .countTo name last span body.exec bound
  | .writeln args _ => do
    let values ← Exec.eval fun store => Expr.evalAll context store args
    .writeLine (String.join (values.map Value.text))
  | .assign name value _ => do
    .set name (← Exec.eval fun store => value.eval context store)
  | .assignElement name path value span => do
    let path ← Exec.eval fun store => offsets context store path
    let value ← Exec.eval fun store => value.eval context store
    .writeElement name path value span
  | .call id _ args span =>
    match context.routines[id]? with
    | none => .fail (.unknownRoutine id) span
    | some routine => do
      let _ ← Exec.eval fun store => do
        context.run routine (← Expr.evalAll context store args) store
  | .skip _ => pure ()

def execAll : List Stmt → Exec Unit
  | [] => pure ()
  | statement :: rest => do
    statement.exec
    execAll rest

end

end Stmt

/-- The store in which a routine starts: a copy of the caller's, with the parameters set to the
arguments, and the locals and a function's result to the defaults of their types. -/
def Routine.frame (routine : Routine) (values : List Value) (store : Store) : Store :=
  let filled := (store.setAll ((routine.params.map (·.1)).zip values)).setDefaults routine.locals
  match routine.returns with
  | some type => filled.set resultSlot type.default
  | none => filled

/-- Runs a routine to its result, where calls may nest `depth` deep. Nothing that it stores is seen
by the caller. -/
def Routine.run (routines : List Routine) (bound : Nat) :
    (depth : Nat) → Routine → List Value → Store → Eval (Option Value)
  | 0, _, _, _ => throw .outOfSteps
  | depth + 1, routine, values, store => fun output =>
    let context : Context := ⟨routines, Routine.run routines bound depth⟩
    let (result, machine) := routine.body.exec context bound ⟨routine.frame values store, output⟩
    (result.map fun _ => routine.returns.bind fun _ => machine.store.get? resultSlot,
      machine.output)

/-- How calls run in a program with the given routines, where a loop may take `bound` turns and
calls may nest `bound` deep. -/
def Context.ofRoutines (routines : List Routine) (bound : Nat) : Context :=
  ⟨routines, Routine.run routines bound bound⟩

def Program.initialStore (program : Program) : Store :=
  (Store.empty.setAll program.constants).setDefaults program.vars

/-- Runs a program to its last store and its output. -/
def Program.run (program : Program) (bound : Nat) : Except Stop Unit × Machine :=
  program.body.exec (.ofRoutines program.routines bound) bound ⟨program.initialStore, #[]⟩

end SmallPascal
