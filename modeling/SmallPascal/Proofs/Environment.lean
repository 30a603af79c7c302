import Mathlib.Data.List.Nodup
import SmallPascal.Proofs.Accepted
import SmallPascal.Proofs.Frames
import SmallPascal.Proofs.Naming
import SmallPascal.Proofs.Policies

/-! The store of the program itself. From the first statement to the last it has values for the
constants and the variables of the program and for no other name, and the constants are what they
were computed to be: the program's body sets only variables, and routines run in stores of their
own. -/

namespace SmallPascal

def Node.SetsOnly (names : List String) : Node → Prop
  | .expr _ => True
  | .stmt s => ∀ name ∈ s.target?, name ∈ names

namespace Program

variable {program : Program} {bound depth : Nat} {store : Store}

/-- The store has a value for each constant and each variable of the program, for no other name, and
for each constant the one that was computed for it. -/
structure Environment (program : Program) (store : Store) : Prop where
  names : ∀ name, (store.get? name).isSome ↔
    name ∈ program.constants.map (·.1) ++ program.vars.map (·.1)
  constants : ∀ name value, (name, value) ∈ program.constants → store.get? name = some value

section

variable (distinct : (program.constants.map (·.1) ++ program.vars.map (·.1)).Nodup)

include distinct

lemma ne_of_constant {name other : String} {value : Value}
    (constant : (name, value) ∈ program.constants)
    (placed : other ∈ program.vars.map (·.1)) : other ≠ name :=
  ((List.nodup_append.1 distinct).2.2 name (List.mem_map_of_mem constant) other placed).symm

lemma environment_initialStore : program.Environment program.initialStore where
  names name := by
    rw [List.mem_append]
    obtain ⟨type, declared, found⟩ | ⟨noVariable, found⟩ :=
      Store.get?_setDefaults program.vars (Store.empty.setAll program.constants) name
    · exact iff_of_true (by rw [initialStore, found]; rfl) (.inr (List.mem_map_of_mem declared))
    · have absent : name ∉ program.vars.map (·.1) := by
        intro among
        obtain ⟨⟨_, type⟩, declared, rfl⟩ := List.mem_map.1 among
        exact noVariable type declared
      rw [initialStore, found, or_iff_left absent]
      obtain ⟨value, declared, found⟩ | ⟨noConstant, found⟩ :=
        Store.get?_setAll program.constants .empty name
      · exact iff_of_true (by rw [found]; rfl) (List.mem_map_of_mem declared)
      · refine iff_of_false (by rw [found]; simp) fun among => ?_
        obtain ⟨⟨_, value⟩, declared, rfl⟩ := List.mem_map.1 among
        exact noConstant value declared
  constants name value declared := by
    obtain ⟨type, clash, -⟩ | ⟨-, found⟩ :=
      Store.get?_setDefaults program.vars (Store.empty.setAll program.constants) name
    · exact absurd rfl (ne_of_constant distinct declared (List.mem_map_of_mem clash))
    · rw [initialStore, found]
      obtain ⟨value', declared', found⟩ | ⟨absent, -⟩ :=
        Store.get?_setAll program.constants .empty name
      · rw [found]
        have once := (List.nodup_append.1 distinct).1
        have same := List.inj_on_of_nodup_map once declared' declared rfl
        exact congrArg some (Prod.mk.inj same).2
      · exact absurd declared (absent value)

lemma Environment.set (h : program.Environment store) {name : String}
    (placed : name ∈ program.vars.map (·.1)) (value : Value) :
    program.Environment (store.set name value) where
  names other := by
    rw [Store.get?_set]
    split
    next same => exact iff_of_true rfl (List.mem_append_right _ (same ▸ placed))
    next => exact h.names other
  constants other value' declared := by
    rw [Store.get?_set_of_ne _ _ (ne_of_constant distinct declared placed)]
    exact h.constants other value' declared

lemma suits_environment (context : Context) :
    Policy.Suits ⟨program.Environment, fun _ => True, fun _ _ => True⟩ context
      (Node.SetsOnly (program.vars.map (·.1))) :=
  Policy.suits_of_sets
    (fun _ only name sets _ value kept => kept.set distinct (only name sets) value)
    context

variable (body : (Node.stmt program.body).Throughout (Node.SetsOnly (program.vars.map (·.1))))

include body

lemma Visits.environment {part : Option RoutineId} {s : Stmt} {machine : Machine}
    (visited : program.Visits bound part depth s machine) (own : part = none) :
    (Node.stmt s).Throughout (Node.SetsOnly (program.vars.map (·.1))) ∧
      program.Environment machine.store := by
  induction visited with
  | start => exact ⟨body, environment_initialStore distinct⟩
  | inside _ reached ih =>
    obtain ⟨only, kept⟩ := ih own
    exact (suits_environment distinct _).reaches reached only kept
  | call => cases own

lemma Reached.environment (reached : program.Reached bound none store) :
    program.Environment store :=
  reached.upholds (fun _ => suits_environment distinct _) fun _ _ _ visited =>
    visited.environment distinct body rfl

end

variable {text : String}

lemma setsOnly_of_ofText (accepted : ofText text = .ok program) :
    (Node.stmt program.body).Throughout (Node.SetsOnly (program.vars.map (·.1))) := by
  obtain ⟨o, s, -, -, -, vars, body⟩ := fits_of_ofText accepted
  have seen {name : String} {type : Ty} (place : (o.sight none).place name type) :
      name ∈ program.vars.map (·.1) := by
    obtain ⟨owner, within, stored⟩ := place
    cases within
    exact vars ▸ List.mem_map_of_mem stored
  have typed : (Node.stmt program.body).WellTyped (o.sight none) := body
  intro node among
  have typed := typed.throughout node among
  rcases node with e | s
  · trivial
  cases typed with
  | assign place | assignElement place | forTo place => rintro _ ⟨⟩; exact seen place
  | result result => cases result
  | _ => exact nofun

/-- **The environment of a program is kept.** In every store that the body of an accepted program
comes to, and at the end of the run, the names that have values are those of the program's constants
and variables, and every constant has the value that was computed for it. -/
theorem environment_kept (accepted : ofText text = .ok program) (bound : Nat) :
    (∀ store, program.Reached bound none store → program.Environment store) ∧
    ∀ finished store, (interpret text bound).ending = .finished finished store →
      finished = program ∧ program.Environment store := by
  have kept (store) (reached : program.Reached bound none store) : program.Environment store :=
    reached.environment (nodup_names accepted) (setsOnly_of_ofText accepted)
  refine ⟨kept, fun finished store ended => ?_⟩
  unfold interpret at ended
  rw [accepted] at ended
  dsimp only at ended
  rcases ran : program.run bound with ⟨(⟨fault, span⟩ | _) | _, machine⟩ <;> rw [ran] at ended <;>
    cases ended
  have last : (program.run bound).2.store = machine.store := by rw [ran]
  exact ⟨rfl, last ▸ kept _ (.ended .start)⟩

/-- A procedure with a constant and a variable of its own, of which the second has the name of a
constant outside. -/
def masked : String :=
  "program P; const k = 2; var x: Integer;
  procedure p; const c = 1; var k: Integer; begin k := 5; x := k + c end;
  begin p; x := k end."

theorem environment_kept_masked : ∃ program, ofText masked = .ok program ∧
    (∃ store, program.Reached 3 none store ∧ program.Environment store) ∧
    (∃ finished store, (interpret masked 3).ending = .finished finished store ∧
      finished = program ∧ program.Environment store) ∧
    ("k", .integer 2) ∈ program.constants := by
  have checked : (ofText masked).toOption.any (fun program => (program.run 3).1.toOption.isSome &&
      decide (("k", .integer 2) ∈ program.constants)) := by decide +kernel
  obtain ⟨program, accepted, good⟩ := exists_of_any checked
  obtain ⟨ends, constant⟩ := Bool.and_eq_true_iff.1 good
  obtain ⟨throughout, last⟩ := environment_kept accepted 3
  refine ⟨program, accepted, ⟨_, .ended .start, throughout _ (.ended .start)⟩, ?_,
    of_decide_eq_true constant⟩
  have ended : ∃ store, (interpret masked 3).ending = .finished program store := by
    unfold interpret
    rw [accepted]
    dsimp only
    rcases ran : program.run 3 with ⟨stop | _, machine⟩ <;> rw [ran] at ends
    · cases ends
    · exact ⟨machine.store, rfl⟩
  obtain ⟨store, ended⟩ := ended
  exact ⟨program, store, ended, last program store ended⟩

end Program

end SmallPascal
