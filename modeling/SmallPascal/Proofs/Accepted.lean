import SmallPascal.Interpreter
import SmallPascal.Proofs.DeclarationReading

/-! Programs that pass the check: they are well typed, and their routines are declared where the
text says that they are. A routine lies inside another one if its head stands between the other's
head and body. -/

namespace SmallPascal

variable {o : Outline} {s : ParseState} {program : Program}

namespace Program

/-- The routine `inner` is declared, at any depth, between the head and the body of the other
one. -/
def Encloses (program : Program) (outer inner : RoutineId) : Prop :=
  ∃ routine routine', program.routines[outer]? = some routine ∧
    program.routines[inner]? = some routine' ∧ routine.span.start < routine'.span.start ∧
    routine'.span.start < routine.body.span.start

/-- The routines are declared where the text says. -/
def Lexical (program : Program) (parents : List (Option RoutineId)) : Prop :=
  ∀ outer inner : RoutineId, outer < program.routines.length → inner < program.routines.length →
    (Within parents (some inner) (some outer) ↔ inner = outer ∨ program.Encloses outer inner)

lemma outline_of_fits (fits : Fits o s) (closed : s.enclosing = [])
    (routines : s.routines = program.routines) (vars : o.storage none = program.vars) :
    program.outline o.parents = o := by
  have signatures : program.routines.map Routine.signature = o.signatures := by
    rw [fits.signatures, routines]
  have storage : program.storage = o.storage := by
    funext part
    rcases part with _ | id
    · exact vars.symm
    · change (program.routines[id]?.map fun routine => routine.params ++ routine.locals).getD [] = _
      rcases found : program.routines[id]? with _ | routine
      · refine (fits.housed id ?_).symm
        rw [fits.length, routines]
        exact List.getElem?_eq_none_iff.1 found
      · rw [← routines] at found
        refine (fits.closed id routine found ?_).symm
        rw [closed]
        exact List.not_mem_nil
  unfold Program.outline
  rw [signatures, storage]

lemma wellTyped_of_fits (fits : Fits o s) (closed : s.enclosing = [])
    (routines : s.routines = program.routines) (vars : o.storage none = program.vars)
    (body : program.body.WellTyped (o.sight none)) : program.WellTyped o.parents := by
  have outline := outline_of_fits fits closed routines vars
  have storage : program.storage = o.storage := congrArg Outline.storage outline
  exact
    { length := by rw [fits.length, routines]
      earlier := fits.earlier
      storage := by rw [storage]; exact fits.storage
      returns := by rw [← routines]; exact fits.returns
      body := by rw [outline]; exact body
      routines := by rw [outline, ← routines]; exact fits.bodies }

end Program

lemma Within.le {parents : List (Option RoutineId)}
    (earlier : ∀ id outer : RoutineId, parents[id]? = some (some outer) → outer < id)
    {part owner : Option RoutineId} (h : Within parents part owner) :
    ∀ id ∈ owner, ∃ inner ∈ part, id ≤ inner := by
  induction h with
  | here => exact fun id among => ⟨id, among, Nat.le_refl _⟩
  | @outward inner outer _ parent _ ih =>
    intro id among
    obtain ⟨middle, rfl, le⟩ := ih id among
    have before := earlier inner middle parent
    exact ⟨inner, rfl, Nat.le_of_lt (Nat.lt_of_le_of_lt le before)⟩

namespace Program

lemma lexical_of_fits (fits : Fits o s) (closed : s.enclosing = [])
    (routines : s.routines = program.routines) : program.Lexical o.parents := by
  intro outer inner bound bound'
  have out (id : RoutineId) : id ∉ s.enclosing := by rw [closed]; exact List.not_mem_nil
  unfold Encloses
  rw [← routines] at bound bound' ⊢
  have found := List.getElem?_eq_getElem bound
  have found' := List.getElem?_eq_getElem bound'
  have order := List.pairwise_iff_getElem.1 fits.placed.order
  rcases Nat.lt_trichotomy outer inner with before | rfl | behind
  · -- what was declared later lies inside exactly if it stands before the body
    rw [fits.placed.apart outer inner _ _ found found' before (out outer)]
    have start := order outer inner bound bound' before
    constructor
    · exact fun inside => .inr ⟨_, _, found, found', start, inside⟩
    · rintro (rfl | ⟨routine, routine', at', at'', -, inside⟩)
      · exact absurd before (Nat.lt_irrefl _)
      · rw [found] at at'
        rw [found'] at at''
        cases at'
        cases at''
        exact inside
  · exact iff_of_true .here (.inl rfl)
  · -- what was declared before lies outside
    have start := order inner outer bound' bound behind
    refine iff_of_false (fun within => ?_) ?_
    · obtain ⟨_, ⟨⟩, le⟩ := within.le fits.earlier outer rfl
      exact absurd le (Nat.not_le.2 behind)
    · rintro (rfl | ⟨routine, routine', at', at'', start', -⟩)
      · exact Nat.lt_irrefl _ behind
      · rw [found] at at'
        rw [found'] at at''
        cases at'
        cases at''
        exact Nat.lt_asymm start start'

/-! ### Texts that are accepted -/

/-- All declarations of storage: those of the program, and parameters and locals of all routines. -/
def places (program : Program) : List (String × Ty) :=
  program.vars ++ program.routines.flatMap fun routine => routine.params ++ routine.locals

lemma exists_of_mem_storage {id : RoutineId} {name : String} {type : Ty}
    (h : (name, type) ∈ program.storage (some id)) :
    ∃ routine, program.routines[id]? = some routine ∧
      (name, type) ∈ routine.params ++ routine.locals := by
  rcases found : program.routines[id]? with _ | routine
  · simp [storage, found] at h
  · rw [storage_some found] at h
    exact ⟨routine, rfl, h⟩

lemma mem_places {part : Option RoutineId} {name : String} {type : Ty}
    (h : (name, type) ∈ program.storage part) : (name, type) ∈ program.places := by
  unfold places
  cases part with
  | none => exact List.mem_append_left _ h
  | some id =>
    obtain ⟨routine, found, among⟩ := exists_of_mem_storage h
    refine List.mem_append_right _ (List.mem_flatMap.2 ⟨routine, ?_, among⟩)
    exact List.mem_of_getElem? found

lemma exists_of_any {ε α : Type} {answer : Except ε α} {check : α → Bool}
    (h : answer.toOption.any check = true) : ∃ a, answer = .ok a ∧ check a = true := by
  rcases answer with _ | a
  · cases h
  · exact ⟨a, rfl, h⟩

/-- A program with an array of reals, a function that calls itself, and a procedure inside it. -/
def tally : String :=
  "program Tally; var sum: Integer; row: Array[1..3] of Real;
  function up(n: Integer): Integer;
    procedure note; begin sum := sum + n end;
    begin note; if n > 2 then up := sum div (n - 3) else up := up(n + 1) end;
  begin for sum := 1 to 3 do row[sum] := sum; writeln(up(1)) end."

lemma tally_accepted : ∃ program, ofText tally = .ok program ∧
    (∀ a ∈ program.places, ∀ b ∈ program.places, a.1 = b.1 → a.2.sameAs b.2) ∧
    (program.run 9).1 = .error (.fault .divisionByZero ⟨177, 191, 4, 37⟩) := by
  have checked : (ofText tally).toOption.any (fun program =>
      decide ((∀ a ∈ program.places, ∀ b ∈ program.places, a.1 = b.1 → a.2.sameAs b.2) ∧
        (program.run 9).1 = .error (.fault .divisionByZero ⟨177, 191, 4, 37⟩))) := by
    decide +kernel
  obtain ⟨program, accepted, known⟩ := exists_of_any checked
  exact ⟨program, accepted, of_decide_eq_true known⟩

lemma failed_of_run {text : String} {bound : Nat} {fault : RuntimeFault} {span : Span}
    (accepted : ofText text = .ok program)
    (ran : (program.run bound).1 = .error (.fault fault span)) :
    (interpret text bound).ending = .failed ⟨.runtime fault, span⟩ := by
  unfold interpret
  rw [accepted]
  dsimp only
  rcases e : program.run bound with ⟨answer, machine⟩
  rw [e] at ran
  obtain rfl : answer = _ := ran
  rfl

lemma fits_of_ofText {text : String} (h : Program.ofText text = .ok program) : ∃ o s, Fits o s ∧
    s.enclosing = [] ∧ s.routines = program.routines ∧ o.storage none = program.vars ∧
    program.body.WellTyped (o.sight none) := by
  unfold ofText at h
  rcases read : Parse.program (.ofText text true) with ⟨result, t⟩
  rw [read] at h
  obtain rfl : result = .ok program := h
  exact Parse.program_eq_ok read

/-- **The reader only answers well-typed programs.** Some assignment of parents to the routines, and
it is the one of the text, makes an accepted program well typed. -/
theorem exists_wellTyped_of_ofText {text : String} (h : Program.ofText text = .ok program) :
    ∃ parents, program.WellTyped parents ∧ program.Lexical parents := by
  obtain ⟨o, s, fits, closed, routines, vars, body⟩ := fits_of_ofText h
  exact ⟨o.parents, wellTyped_of_fits fits closed routines vars body,
    lexical_of_fits fits closed routines⟩

theorem exists_wellTyped_tally : ∃ program, ofText tally = .ok program ∧
    ∃ parents, program.WellTyped parents ∧ program.Lexical parents := by
  obtain ⟨program, accepted, -⟩ := tally_accepted
  exact ⟨program, accepted, exists_wellTyped_of_ofText accepted⟩

/-! ### Scopes -/

/-- The storage that a part declares itself, that a routine around it declares, or that the program
declares. -/
def InScope (program : Program) (part : Option RoutineId) (name : String) (type : Ty) : Prop :=
  (name, type) ∈ program.vars ∨ ∃ id ∈ part, ∃ owner, (id = owner ∨ program.Encloses owner id) ∧
    (name, type) ∈ program.storage (some owner)

lemma WellTyped.within_none {parents : List (Option RoutineId)} (typed : program.WellTyped parents)
    (id : RoutineId) (there : id < program.routines.length) : Within parents (some id) none := by
  induction id using Nat.strongRecOn with
  | ind id ih =>
    have bound : id < parents.length := by rwa [typed.length]
    have parent := List.getElem?_eq_getElem bound
    rcases e : parents[id] with _ | outer <;> rw [e] at parent
    · exact .outward parent .here
    · have before := typed.earlier id outer parent
      exact .outward parent (ih outer before (Nat.lt_trans before there))

lemma within_of_inScope {parents : List (Option RoutineId)} (typed : program.WellTyped parents)
    (lexical : program.Lexical parents) {part : Option RoutineId}
    (there : ∀ id ∈ part, id < program.routines.length) {name : String} {type : Ty}
    (h : program.InScope part name type) :
    ∃ owner, Within parents part owner ∧ (name, type) ∈ program.storage owner := by
  rcases h with vars | ⟨id, rfl, owner, around, stored⟩
  · cases part with
    | none => exact ⟨none, .here, vars⟩
    | some id => exact ⟨none, typed.within_none id (there id rfl), vars⟩
  · obtain ⟨routine, found, -⟩ := exists_of_mem_storage stored
    have bound : owner < program.routines.length := (List.getElem?_eq_some_iff.1 found).1
    exact ⟨some owner, (lexical owner id bound (there id rfl)).2 around, stored⟩

end Program

end SmallPascal
