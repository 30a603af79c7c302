import Mathlib.Data.List.Forall2
import SmallPascal.Execution
import SmallPascal.Proofs.Steps

/-! What is true of evaluations and of runs whatever comes of them. What is kept of the stores,
which answers are good, and why a computation may stop are left open. -/

namespace SmallPascal

open Steps

/-- The bound was exceeded, or there is an allowed fault. -/
def Stop.Within (allowed : RuntimeFault → Prop) : Stop → Prop
  | .fault found _ => allowed found
  | .outOfSteps => True

/-- The bound was exceeded, or there is a fault in a place that may be blamed. -/
def Stop.At (blamed : Span → Prop) : Stop → Prop
  | .fault _ span => blamed span
  | .outOfSteps => True

/-! ### Evaluations -/

abbrev Eval.Yields {α : Type} (stops : Stop → Prop) (good : α → Prop) (x : Eval α) : Prop :=
  Upholds (fun _ => True) stops good x

/-- The evaluation has a good answer, unless it stops with an allowed fault or at its bound. -/
abbrev Eval.Safe {α : Type} (allowed : RuntimeFault → Prop) (good : α → Prop) (x : Eval α) : Prop :=
  Eval.Yields (Stop.Within allowed) good x

namespace Upholds

section

variable {α : Type} {inv : Output → Prop} {stops : Stop → Prop} {good : α → Prop}

lemma fail {fault : RuntimeFault} {span : Span} (h : stops (.fault fault span)) :
    Upholds inv stops good (Eval.fail fault span) := throw h

lemma ofExcept {step : Except RuntimeFault α} {span : Span}
    (h : Accounts (fun fault => stops (.fault fault span)) good step) :
    Upholds inv stops good (Eval.ofExcept span step) := by
  cases step with
  | ok a => exact pure h
  | error => exact fail h

lemma evalAll {context : Context} {store : Store} {value : Expr → Value → Prop} {args : List Expr}
    (h : ∀ arg ∈ args, Upholds inv stops (value arg) (arg.eval context store)) :
    Upholds inv stops (List.Forall₂ value args) (Expr.evalAll context store args) := by
  induction args with
  | nil => exact pure .nil
  | cons arg rest ih =>
    have first := h arg List.mem_cons_self
    have others := ih fun arg among => h arg (List.mem_cons_of_mem _ among)
    exact first.bind fun v hv => others.bind fun vs hvs => pure (.cons hv hvs)

end

end Upholds

/-! ### Runs -/

abbrev Exec.Upholds {α : Type} (inv : Store → Prop) (stops : Stop → Prop) (good : α → Prop)
    (x : Exec α) : Prop :=
  SmallPascal.Upholds (fun machine : Machine => inv machine.store) stops good x

/-- The run has a good answer, unless it stops with an allowed fault or at its bound. -/
abbrev Exec.Safe {α : Type} (allowed : RuntimeFault → Prop) (inv : Store → Prop) (good : α → Prop)
    (x : Exec α) : Prop :=
  Exec.Upholds inv (Stop.Within allowed) good x

lemma Exec.eval_of {α : Type} {computation : Store → Eval α} {machine : Machine}
    {answer : Except Stop α} {output : Output}
    (h : computation machine.store machine.output = (answer, output)) :
    Exec.eval computation machine = (answer, { machine with output }) := by
  unfold Exec.eval
  rw [h]

/-- What writing an element comes to: the elements made on the way stay, also when the path leads
into something that is no array. -/
lemma Exec.writeElement_apply (name : String) (path : List (Nat × Ty)) (value : Value) (span : Span)
    (machine : Machine) :
    Exec.writeElement name path value span machine =
      match machine.store.get? name with
      | none => (.error (.fault (.undefined name) span), machine)
      | some target =>
        (match (Value.write path value target).2 with
          | none => .ok ()
          | some tag => .error (.fault (.notAnArray tag) span),
          { machine with store := machine.store.set name (Value.write path value target).1 }) := by
  change (match machine.store.get? name with | none => _ | some target => _ : Exec Unit) machine = _
  rcases machine.store.get? name with _ | target
  · rfl
  · dsimp only
    obtain ⟨new, refused⟩ := Value.write path value target
    cases refused <;> rfl

/-- What running a routine comes to: of what its body does in its frame, only its result and the
lines that it writes come out. -/
lemma Routine.run_apply (routines : List Routine) (bound depth : Nat) (routine : Routine)
    (values : List Value) (store : Store) (output : Output) :
    Routine.run routines bound (depth + 1) routine values store output =
      match routine.body.exec ⟨routines, Routine.run routines bound depth⟩ bound
        ⟨routine.frame values store, output⟩ with
      | (answer, last) =>
        (answer.map fun _ => routine.returns.bind fun _ =>
          last.store.get? resultSlot, last.output) := rfl

namespace Upholds

variable {α : Type} {inv : Store → Prop} {stops : Stop → Prop} {good : α → Prop}

lemma eval {computation : Store → Eval α}
    (h : ∀ store, inv store → Eval.Yields stops good (computation store)) :
    Exec.Upholds inv stops good (Exec.eval computation) :=
  fun machine kept => ⟨kept, (h machine.store kept machine.output trivial).2⟩

lemma set {name : String} {value : Value} (h : ∀ store, inv store → inv (store.set name value)) :
    Exec.Upholds inv stops (fun _ => True) (Exec.set name value) :=
  fun machine kept => ⟨h machine.store kept, trivial⟩

lemma writeLine (line : String) : Exec.Upholds inv stops (fun _ => True) (Exec.writeLine line) :=
  fun _ kept => ⟨kept, trivial⟩

lemma readInteger {name : String} {span : Span}
    (h : ∀ store, inv store → match store.get? name with
      | some value => Accounts (fun fault => stops (.fault fault span))
        (fun _ => True) value.expectInteger
      | none => stops (.fault (.undefined name) span)) :
    Exec.Upholds inv stops (fun _ => True) (Exec.readInteger name span) := by
  refine eval fun store kept => ?_
  have found := h store kept
  rcases e : store.get? name with _ | value <;> rw [e] at found
  · exact fail found
  · exact ofExcept found

lemma writeElement {name : String} {path : List (Nat × Ty)} {value : Value} {span : Span}
    (h : ∀ store, inv store → match store.get? name with
      | some target => inv (store.set name (Value.write path value target).1) ∧
        ∀ tag, (Value.write path value target).2 = some tag → stops (.fault (.notAnArray tag) span)
      | none => stops (.fault (.undefined name) span)) :
    Exec.Upholds inv stops (fun _ => True) (Exec.writeElement name path value span) := by
  intro machine kept
  have found := h machine.store kept
  rw [Exec.writeElement_apply]
  rcases e : machine.store.get? name with _ | target <;> rw [e] at found
  · exact ⟨kept, found⟩
  · -- the elements made on the way stay, even if the path is refused
    refine ⟨found.1, ?_⟩
    dsimp only
    rcases refused : (Value.write path value target).2 with _ | tag
    · trivial
    · exact found.2 tag refused

lemma repeatWhile (steps : stops .outOfSteps) {test : Exec Bool} {body : Exec Unit}
    (htest : Exec.Upholds inv stops (fun _ => True) test)
    (hbody : Exec.Upholds inv stops (fun _ => True) body) :
    ∀ bound, Exec.Upholds inv stops (fun _ => True) (Exec.repeatWhile test body bound)
  | 0 => throw steps
  | bound + 1 => by
    refine htest.bind fun b _ => ?_
    cases b with
    | false => exact pure trivial
    | true => exact hbody.bind fun _ _ => repeatWhile steps htest hbody bound

lemma countTo (steps : stops .outOfSteps) {name : String} {limit : Integer} {span : Span}
    {body : Exec Unit} (hread : Exec.Upholds inv stops (fun _ => True) (Exec.readInteger name span))
    (hset : ∀ store (n : Integer), inv store → inv (store.set name (.integer n)))
    (hbody : Exec.Upholds inv stops (fun _ => True) body) :
    ∀ bound, Exec.Upholds inv stops (fun _ => True) (Exec.countTo name limit span body bound)
  | 0 => throw steps
  | bound + 1 => by
    refine hread.bind fun current _ => ?_
    split
    · refine hbody.bind fun _ _ => hread.bind fun reached _ => ?_
      rcases Integer.add? reached 1 with _ | next
      · exact pure trivial
      · exact (set fun store kept => hset store next kept).bind fun _ _ =>
          countTo steps hread hset hbody bound
    · exact pure trivial

lemma execAll {context : Context} {bound : Nat} {statements : List Stmt}
    (h : ∀ s ∈ statements, Exec.Upholds inv stops (fun _ => True) (s.exec context bound)) :
    Exec.Upholds inv stops (fun _ => True) (Stmt.execAll context bound statements) := by
  induction statements with
  | nil => exact pure trivial
  | cons s rest ih =>
    exact (h s List.mem_cons_self).bind fun _ _ =>
      ih fun s among => h s (List.mem_cons_of_mem _ among)

lemma run {routines : List Routine} {bound depth : Nat} {routine : Routine} {values : List Value}
    {store : Store} {good : Option Value → Prop}
    (h : Exec.Upholds inv stops (fun _ => True)
      (routine.body.exec ⟨routines, Routine.run routines bound depth⟩ bound))
    (start : inv (routine.frame values store))
    (answers : ∀ last, inv last → good (routine.returns.bind fun _ => last.get? resultSlot)) :
    Eval.Yields stops good (Routine.run routines bound (depth + 1) routine values store) := by
  intro output _
  refine ⟨trivial, ?_⟩
  have ended := h ⟨routine.frame values store, output⟩ start
  rw [Routine.run_apply]
  rcases e : routine.body.exec ⟨routines, Routine.run routines bound depth⟩ bound
    ⟨routine.frame values store, output⟩ with ⟨stop | _, last⟩ <;> rw [e] at ended
  · exact ended.2
  · exact answers last.store ended.1

end Upholds

end SmallPascal
