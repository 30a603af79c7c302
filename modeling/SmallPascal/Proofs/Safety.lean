import SmallPascal.Proofs.Accepted
import SmallPascal.Proofs.Frames

/-! What cannot go wrong in a program that has passed the check. Names and routines are never
missing. Values are of the types that the text gives to their names, and then no operation is
applied to what it does not take, as long as the declarations of a name agree wherever one of them
may stand in for another: a call copies the store of the caller, and there a name may stand for
another declaration than in the text. -/

namespace SmallPascal

variable {program : Program} {parents : List (Option RoutineId)} {d : Discipline} {bound : Nat}

lemma Discipline.Sound.holds_iff (sound : d.Sound) {type type' : Ty} (same : type.sameAs type')
    (value : Value) : d.holds type value ↔ d.holds type' value :=
  ⟨sound.agree (by rwa [Ty.sameAs_comm]), sound.agree same⟩

/-- The faults that report a value of a type that is not called for. -/
def RuntimeFault.IsMismatch : RuntimeFault → Prop
  | .operands .. | .operand .. | .notACondition _ | .notAnInteger _ | .notAnArray _ => True
  | _ => False

/-- What is reported at the end, if the work on a program failed. -/
def Ending.diagnostic? : Ending → Option Diagnostic
  | .failed diagnostic => some diagnostic
  | _ => none

lemma Ending.eq_failed {ending : Ending} {diagnostic : Diagnostic}
    (h : ending.diagnostic? = some diagnostic) : ending = .failed diagnostic := by
  cases ending <;> cases h
  rfl

namespace Program

/-! ### Throughout a run -/

/-- The type of what an activation of the part answers, if it is one of a function. -/
def returns? (program : Program) (part : Option RoutineId) : Option Ty :=
  part.bind fun id => program.routines[id]?.bind (·.returns)

/-- Every name in scope has a good value, and so has the result of a function. -/
structure Has (program : Program) (good : Ty → Value → Prop) (part : Option RoutineId)
    (store : Store) : Prop where
  place : ∀ name type, program.InScope part name type →
    ∃ value, store.get? name = some value ∧ good type value
  result : ∀ type, program.returns? part = some type →
    ∃ value, store.get? resultSlot = some value ∧ good type value

/-- Something about the store holds wherever a run starts a statement, and where the statement
ends. -/
def Throughout (program : Program) (bound : Nat) (P : Option RoutineId → Store → Prop) : Prop :=
  ∀ part depth s machine, program.Visits bound part depth s machine →
    P part machine.store ∧
      ∀ after, s.exec (program.context bound depth) bound machine = (.ok (), after) →
      P part after.store

lemma Visits.there {part : Option RoutineId} {depth : Nat} {s : Stmt} {machine : Machine}
    (h : program.Visits bound part depth s machine) :
    ∀ id ∈ part, id < program.routines.length := by
  induction h with
  | start => exact nofun
  | inside _ _ ih => exact ih
  | call _ _ found =>
    rintro id ⟨⟩
    exact (List.getElem?_eq_some_iff.1 found).1

lemma returns?_eq (parents : List (Option RoutineId)) (part : Option RoutineId) :
    program.returns? part = (program.view parents part).result := by
  cases part with
  | none => rfl
  | some id =>
    change program.routines[id]?.bind (·.returns) =
      (program.routines.map Routine.signature)[id]?.bind (·.returns)
    rw [List.getElem?_map]
    cases program.routines[id]? <;> rfl

section

variable (typed : program.WellTyped parents) (consistent : Consistent d program parents)
  (sound : d.Sound)

include typed consistent sound

lemma throughout (lexical : program.Lexical parents) {good : Ty → Value → Prop}
    (place : ∀ owner part name type type', (name, type) ∈ program.storage owner →
      program.Hands name type' part → ∀ value, d.holds type' value → good type value)
    (result : ∀ type value, d.holds type value → good type value) :
    program.Throughout bound (program.Has good) := by
  intro part depth s machine visited
  have has (store : Store) (fit : Fit d program parents part store) :
    program.Has good part store := by
    refine ⟨fun name type scope => ?_, fun type returns => ?_⟩
    · obtain ⟨owner, within, stored⟩ := within_of_inScope typed lexical visited.there scope
      obtain ⟨type', value, got, hands, holds⟩ := fit.place owner name type within stored
      exact ⟨value, got, place owner part name type type' stored hands value holds⟩
    · rw [returns?_eq parents] at returns
      obtain ⟨value, got, holds⟩ := fit.result type returns
      exact ⟨value, got, result type value holds⟩
  obtain ⟨wellTyped, fit⟩ := visited.fit typed consistent sound
  refine ⟨has _ fit, fun after ended => has _ ?_⟩
  have guards := guards_fit typed consistent sound bound depth part
  exact ((guards.exec sound (typed.viewData _) bound wellTyped).kept fit ended).1

lemma fault_of_failed {text : String} (accepted : Program.ofText text = .ok program)
    {diagnostic : Diagnostic} (failed : (interpret text bound).ending = .failed diagnostic) :
    ∃ fault, diagnostic.fault = .runtime fault ∧ d.allows fault := by
  have ended := run_ends typed consistent sound bound
  unfold interpret at failed
  rw [accepted] at failed
  dsimp only at failed
  rcases e : program.run bound with ⟨(⟨fault, span⟩ | _) | _, machine⟩ <;> rw [e] at failed ended
  · obtain rfl := Ending.failed.inj failed
    exact ⟨fault, rfl, ended⟩
  · cases failed
  · cases failed

end

/-! ### Nothing is missing -/

/-- **Names and routines are never missing.** Throughout any run of an accepted program all names in
scope and the results of functions have values, and no run reports that a variable is undefined,
that a routine is unknown, or that a function has no result. -/
theorem never_missing {text : String} (accepted : Program.ofText text = .ok program) (bound : Nat) :
    program.Throughout bound (program.Has fun _ _ => True) ∧
      ∀ diagnostic, (interpret text bound).ending = .failed diagnostic →
        ∃ fault, diagnostic.fault = .runtime fault ∧ ¬ fault.IsMissing := by
  obtain ⟨o, s, fits, closed, routines, vars, body⟩ := fits_of_ofText accepted
  have typed := wellTyped_of_fits fits closed routines vars body
  have lexical := lexical_of_fits fits closed routines
  have consistent : Consistent .lax program o.parents := fun _ _ _ _ _ _ _ => Iff.rfl
  refine ⟨?_, fun diagnostic failed => ?_⟩
  · exact throughout typed consistent Discipline.lax_sound lexical
      (fun _ _ _ _ _ _ _ _ holds => holds) fun _ _ holds => holds
  · exact fault_of_failed typed consistent Discipline.lax_sound accepted failed

theorem never_missing_tally : ∃ program, ofText tally = .ok program ∧
    program.Throughout 9 (program.Has fun _ _ => True) ∧
      ∀ diagnostic, (interpret tally 9).ending = .failed diagnostic →
        ∃ fault, diagnostic.fault = .runtime fault ∧ ¬ fault.IsMissing := by
  obtain ⟨program, accepted, -⟩ := tally_accepted
  exact ⟨program, accepted, never_missing accepted 9⟩

/-! ### Types are kept -/

/-- **Type soundness.** If declarations that share a name agree, then throughout any run of an
accepted program all names in scope, and the results of functions, have values of their types; and
what a run may report is a division by zero, an overflow, or an index out of bounds. -/
theorem values_keep_types {text : String} (accepted : Program.ofText text = .ok program)
    (agreeing : ∀ a ∈ program.places, ∀ b ∈ program.places, a.1 = b.1 → a.2.sameAs b.2)
    (bound : Nat) :
    program.Throughout bound (program.Has fun type value => value.HasShape type) ∧
      ∀ diagnostic, (interpret text bound).ending = .failed diagnostic →
        ∃ fault, diagnostic.fault = .runtime fault ∧
          (fault.message = "Division by zero" ∨ fault.message = "Integer overflow" ∨
            ∃ index low high : Integer, fault.message =
              "Index " ++ index.text ++ " is out of bounds " ++ low.text ++ ".." ++ high.text) := by
  obtain ⟨o, s, fits, closed, routines, vars, body⟩ := fits_of_ofText accepted
  have typed := wellTyped_of_fits fits closed routines vars body
  have lexical := lexical_of_fits fits closed routines
  have same {owner part : Option RoutineId} {name : String} {type type' : Ty}
      (stored : (name, type) ∈ program.storage owner) (hands : program.Hands name type' part) :
      type'.sameAs type := by
    obtain ⟨owner', stored'⟩ := hands.declared
    exact agreeing _ (mem_places stored') _ (mem_places stored) rfl
  have consistent : Consistent .strict program o.parents := by
    rintro part name type type' ⟨⟨owner, -, stored⟩, -⟩ hands value
    exact Discipline.strict_sound.holds_iff (same stored hands) value
  refine ⟨?_, fun diagnostic failed => ?_⟩
  · exact throughout typed consistent Discipline.strict_sound lexical
      (fun _ _ _ _ _ stored hands value => (Value.hasShape_congr (same stored hands)).1)
      fun _ _ shaped => shaped
  · obtain ⟨fault, runtime, (rfl | rfl) | ⟨index, low, high, rfl⟩⟩ :=
      fault_of_failed typed consistent Discipline.strict_sound accepted failed
    · exact ⟨_, runtime, .inr (.inl rfl)⟩
    · exact ⟨_, runtime, .inl rfl⟩
    · exact ⟨_, runtime, .inr (.inr ⟨index, low, high, rfl⟩)⟩

theorem values_keep_types_tally : ∃ program, ofText tally = .ok program ∧
    (∀ a ∈ program.places, ∀ b ∈ program.places, a.1 = b.1 → a.2.sameAs b.2) ∧
    program.Throughout 9 (program.Has fun type value => value.HasShape type) ∧
      ∀ diagnostic, (interpret tally 9).ending = .failed diagnostic →
        ∃ fault, diagnostic.fault = .runtime fault ∧
          (fault.message = "Division by zero" ∨ fault.message = "Integer overflow" ∨
            ∃ index low high : Integer, fault.message =
              "Index " ++ index.text ++ " is out of bounds " ++ low.text ++ ".." ++ high.text) := by
  obtain ⟨program, accepted, agreeing, -⟩ := tally_accepted
  exact ⟨program, accepted, agreeing, values_keep_types accepted agreeing 9⟩

/-! ### Names that stand for other declarations -/

/-- A routine is called by one that has a Boolean under the name that it reads an Integer by. -/
def handedDown : String :=
  "program P; var x: Integer;
  procedure q; begin writeln(x + 1) end;
  procedure p; var x: Boolean; begin q end;
  begin p end."

/-- Passing the check is not enough to keep operations from what they do not take. -/
theorem mismatch_handed_down : ¬ ∀ (text : String) (program : Program) (bound : Nat),
    ofText text = .ok program → ∀ diagnostic, (interpret text bound).ending = .failed diagnostic →
      ∃ fault, diagnostic.fault = .runtime fault ∧ ¬ fault.IsMismatch := by
  intro h
  have checked : (ofText handedDown).toOption.any (fun _ => true) := by decide +kernel
  have failed : (interpret handedDown 3).ending.diagnostic? =
      some ⟨.runtime (.operands .add .boolean .integer), ⟨56, 61, 2, 30⟩⟩ := by decide +kernel
  obtain ⟨program, accepted, -⟩ := exists_of_any checked
  obtain ⟨fault, runtime, fine⟩ := h handedDown program 3 accepted _ (Ending.eq_failed failed)
  obtain rfl := Fault.runtime.inj runtime
  exact fine trivial

def parts (program : Program) : List (Option RoutineId) :=
  none :: (List.range program.routines.length).map some

/-- A part that only uses what it declares itself is not reached by other declarations. -/
lemma harmless_of_own (own : ∀ part ∈ program.parts, ∀ use ∈ program.uses part,
      (∃ place ∈ program.storage part, place.1 = use.1) ∧
        ∀ place ∈ program.storage part, place.1 = use.1 → use.2.sameAs place.2)
    (part : Option RoutineId) (name : String) (used : Ty) (among : (name, used) ∈ program.uses part)
    (type : Ty) (hands : program.Hands name type part) : used.sameAs type := by
  have there : part ∈ program.parts := by
    unfold parts
    cases part with
    | none => exact List.mem_cons_self
    | some id =>
      refine List.mem_cons_of_mem _ (List.mem_map_of_mem (List.mem_range.2 ?_))
      by_contra beyond
      change _ ∈ (((program.routines[id]?).map (·.body)).map Stmt.uses).getD [] at among
      rw [List.getElem?_eq_none (Nat.le_of_not_lt beyond)] at among
      cases among
  obtain ⟨⟨⟨name', other⟩, declared, rfl⟩, agree⟩ := own part there _ among
  cases hands with
  | own stored => exact agree _ stored rfl
  | down _ _ foreign => exact absurd declared (foreign other)

/-- **No operation meets what it does not take** in a run of an accepted program, if whatever
declaration of a name may reach a part agrees with the type that the part uses the name at. -/
theorem no_mismatch {text : String} (accepted : Program.ofText text = .ok program)
    (harmless : ∀ part name used, (name, used) ∈ program.uses part →
      ∀ type, program.Hands name type part → used.sameAs type) (bound : Nat) :
    ∀ diagnostic, (interpret text bound).ending = .failed diagnostic →
      ∃ fault, diagnostic.fault = .runtime fault ∧ ¬ fault.IsMismatch := by
  obtain ⟨o, s, fits, closed, routines, vars, body⟩ := fits_of_ofText accepted
  have typed := wellTyped_of_fits fits closed routines vars body
  have consistent : Consistent .strict program o.parents := by
    rintro part name type type' ⟨-, used, among, same⟩ hands value
    rw [Discipline.strict_sound.holds_iff same]
    exact (Discipline.strict_sound.holds_iff (harmless part name used among type' hands) value).symm
  intro diagnostic failed
  obtain ⟨fault, runtime, (rfl | rfl) | ⟨index, low, high, rfl⟩⟩ :=
    fault_of_failed typed consistent Discipline.strict_sound accepted failed <;>
  exact ⟨_, runtime, id⟩

/-- A routine with a name of its own that stands for another type outside. -/
def shadowed : String :=
  "program P; var x: Integer;
  procedure p; var x: Boolean; begin x := true end;
  begin x := 1; p end."

theorem no_mismatch_shadowed : ∃ program, ofText shadowed = .ok program ∧
    (∀ part name used, (name, used) ∈ program.uses part →
      ∀ type, program.Hands name type part → used.sameAs type) ∧
    ∀ diagnostic, (interpret shadowed 3).ending = .failed diagnostic →
      ∃ fault, diagnostic.fault = .runtime fault ∧ ¬ fault.IsMismatch := by
  have checked : (ofText shadowed).toOption.any (fun program =>
      decide (∀ part ∈ program.parts, ∀ use ∈ program.uses part,
        (∃ place ∈ program.storage part, place.1 = use.1) ∧
          ∀ place ∈ program.storage part, place.1 = use.1 → use.2.sameAs place.2)) := by
    decide +kernel
  obtain ⟨program, accepted, own⟩ := exists_of_any checked
  have harmless := harmless_of_own (of_decide_eq_true own)
  exact ⟨program, accepted, harmless, no_mismatch accepted harmless 3⟩

end Program

end SmallPascal
