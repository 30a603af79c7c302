import SmallPascal.Execution
import SmallPascal.Parse.Declaration

/-!
From the text of a program to what comes of it.
-/

namespace SmallPascal

/-- Reads a program and checks it, without running it. -/
def Program.ofText (text : String) : Except Diagnostic Program :=
  (Parse.program (.ofText text true)).1

/-- How the work on a program ends: the program has run to its last store, something is wrong with
it, or the bound on the number of steps was reached. -/
inductive Ending where
  | finished (program : Program) (store : Store)
  | failed (diagnostic : Diagnostic)
  | outOfSteps

structure Report where
  output : Output
  ending : Ending

/-- Reads, checks and runs a program. Nothing is written by a program that does not pass the check;
what a running program wrote before a fault stays written. -/
def interpret (text : String) (bound : Nat) : Report :=
  match Program.ofText text with
  | .error diagnostic => ⟨#[], .failed diagnostic⟩
  | .ok program =>
    match program.run bound with
    | (.ok (), machine) => ⟨machine.output, .finished program machine.store⟩
    | (.error (.fault fault span), machine) => ⟨machine.output, .failed ⟨.runtime fault, span⟩⟩
    | (.error .outOfSteps, machine) => ⟨machine.output, .outOfSteps⟩

/-- More turns of a loop, and more nested calls, than any run gets through. -/
def stepBound : Nat := 4611686018427387904

end SmallPascal
