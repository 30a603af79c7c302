import SmallPascal.Interpreter
import SmallPascal.Proofs.TrackingStatements

/-! What the reading of declarations and of whole programs leaves behind. A routine is entered
before its name can be used, and its number is never given again, so that every name of a routine
finds it. -/

namespace SmallPascal

open Steps

namespace Parse

variable {cs : List Char} {m : Mark}

/-! ### Types -/

lemma tracks_arrayBound : Tracks cs m (fun _ _ => True) arrayBound := by
  refine (Tracks.asConstant (tracks_expression m)).bind fun e m₁ _ he => ?_
  refine .require he.faithful fun _ => ?_
  refine (tracks_constantValue he.fine).bind fun found _ _ place => ?_
  rcases found with ⟨fault, span⟩ | value
  · exact .throw place
  · cases value with
    | integer => exact .pure trivial
    | _ => exact .fail he.faithful

lemma tracks_typeOf {item : Parse Ty} (h : ∀ m, Tracks cs m (fun _ _ => True) item) :
    Tracks cs m (fun _ _ => True) (typeOf item) := by
  refine Tracks.next.bind fun token m₁ _ taken => ?_
  split
  · exact .pure trivial
  · exact .pure trivial
  · exact .pure trivial
  · refine Tracks.expect.bind fun _ _ _ _ => tracks_arrayBound.bind fun low _ _ _ => ?_
    refine Tracks.expect.bind fun _ _ _ _ => tracks_arrayBound.bind fun high _ _ _ => ?_
    refine Tracks.expect.bind fun _ _ _ _ => Tracks.expect.bind fun _ m₂ _ _ => ?_
    refine (h m₂).bind fun _ _ _ _ => ?_
    exact .ite (fun _ => (Tracks.fail taken.faithful).stop) fun _ => .pure trivial
  · exact .unexpected taken.faithful

lemma tracks_typeWithin : ∀ bound m, Tracks cs m (fun _ _ => True) (typeWithin bound)
  | 0, _ => .exhausted
  | bound + 1, _ => fun s => tracks_typeOf (tracks_typeWithin bound) s

lemma tracks_type : Tracks cs m (fun _ _ => True) type :=
  Tracks.budget.bind fun bound m₁ _ _ => tracks_typeWithin bound m₁

/-! ### Constants and variables -/

lemma tracks_name (m : Mark) :
    Tracks cs m (fun name _ => name.span.Faithful cs) (expect .identifier) :=
  Tracks.expect.imp fun _ _ _ taken => taken.faithful

lemma tracks_names : Tracks cs m (fun group _ => ∀ name ∈ group, name.span.Faithful cs) names :=
  .separated (fun _ _ (name : Token) => name.span.Faithful cs) (fun _ _ place => place) tracks_name

lemma tracks_constantNames :
    Tracks cs m (fun group _ => ∀ name ∈ group, name.span.Faithful cs) constantNames := by
  refine (tracks_name m).bind fun first _ _ place => ?_
  refine (Tracks.many (fun _ _ (name : Token) => name.span.Faithful cs) (fun _ _ place => place)
    (fun m => ?_) tracks_name).bind fun rest _ _ places =>
    .pure (List.forall_mem_cons.2 ⟨place, places⟩)
  refine Tracks.accept.bind fun _ _ _ _ => .ite (fun _ => ?_) fun _ => .pure trivial
  exact Tracks.check.bind fun _ _ _ _ => .pure trivial

lemma tracks_declareStorage {name : Token} (place : name.span.Faithful cs) (type : Ty) :
    Tracks cs m (fun _ _ => True) (declare (.storage name.lexeme type name.span)) := by
  refine .declare place ?_ fun routines => ?_
  · intro value constant
    unfold Symbol.storage at constant
    cases array : type.isArray <;> simp [array] at constant
  · unfold Symbol.storage Symbol.Entered
    cases type.isArray <;> trivial

def Singles (constants : List (String × Value)) : Prop := ∀ constant ∈ constants, constant.2.Single

lemma singles_join {parts : List Declarations} (h : ∀ part ∈ parts, Singles part.constants) :
    Singles (Declarations.join parts).constants := by
  intro constant among
  obtain ⟨part, listed, among⟩ := List.mem_flatMap.1 among
  exact h part listed constant among

lemma tracks_constantGroup : Tracks cs m (fun part _ => Singles part.constants) constantGroup := by
  refine tracks_constantNames.bind fun group _ _ places => Tracks.accept.bind fun typed m₁ _ _ => ?_
  extract_lets rest
  have declared (declared? : Option Ty) (m : Mark) :
    Tracks cs m (fun part _ => Singles part.constants)
      (rest declared?) := by
    refine Tracks.expect.bind fun sign m₂ _ taken => ?_
    refine (Tracks.asConstant (tracks_expression m₂)).bind fun e m₃ _ he => ?_
    refine Tracks.expect.bind fun _ m₄ _ _ => ?_
    extract_lets behind
    have valued (e : Expr) (m : Mark) (fine : (Node.expr e).Throughout (Node.Fine cs)) :
        Tracks cs m (fun part _ => Singles part.constants) (behind e) := by
      refine (tracks_constantValue fine).bind fun found _ _ known => ?_
      rcases found with ⟨fault, span⟩ | value
      · exact .fail known
      · refine (Tracks.forM fun name among m => ?_).bind fun _ _ _ _ =>
          .pure fun constant among => ?_
        · refine .declare (places name among) ?_ fun _ => trivial
          rintro _ ⟨⟩
          exact known
        · obtain ⟨name, -, rfl⟩ := List.mem_map.1 among
          exact known
    cases declared? with
    | some declared =>
      exact (tracks_coerce he declared taken.faithful _).bind fun e m₅ _ he => valued e m₅ he.fine
    | none => exact valued e m₄ he.fine
  have typed : Tracks cs m₁ (fun _ _ => True) (some <$> type) :=
    tracks_type.map fun _ _ _ _ => trivial
  exact .ite (fun _ => typed.bind fun declared? m₂ _ _ => declared declared? m₂) fun _ =>
    declared none m₁

lemma tracks_variableGroup : Tracks cs m (fun part _ => Singles part.constants) variableGroup := by
  refine tracks_names.bind fun group _ _ places => Tracks.expect.bind fun _ _ _ _ => ?_
  refine tracks_type.bind fun common _ _ _ => Tracks.expect.bind fun _ _ _ _ => ?_
  refine (Tracks.forM fun name among m => ?_).bind fun _ _ _ _ => .pure nofun
  exact tracks_declareStorage (places name among) common

lemma tracks_groups {group : Parse Declarations}
    (h : ∀ m, Tracks cs m (fun part _ => Singles part.constants) group) :
    Tracks cs m (fun part _ => Singles part.constants) (groups group) := by
  refine Tracks.next.bind fun _ m₁ _ _ => (h m₁).bind fun first _ _ single => ?_
  refine (Tracks.many (fun _ _ (part : Declarations) => Singles part.constants)
    (fun _ _ single => single) (fun _ => Tracks.check) h).bind fun rest _ _ singles => .pure ?_
  exact singles_join (List.forall_mem_cons.2 ⟨single, singles⟩)

/-! ### Routines -/

/-- Parameters have their places in the text. -/
def PlacedAll (cs : List Char) (params : List (Token × Ty)) : Prop :=
  ∀ param ∈ params, param.1.span.Faithful cs

lemma tracks_parameterGroup : Tracks cs m (fun params _ => PlacedAll cs params) parameterGroup := by
  refine tracks_names.bind fun group _ _ places => Tracks.expect.bind fun _ _ _ _ => ?_
  refine tracks_type.bind fun common _ _ _ => .pure fun param among => ?_
  obtain ⟨name, listed, rfl⟩ := List.mem_map.1 among
  exact places name listed

lemma tracks_parameters : Tracks cs m (fun params _ => PlacedAll cs params) parameters := by
  refine Tracks.accept.bind fun opens m₁ _ _ => .ite (fun _ => ?_) fun _ => .pure nofun
  refine Tracks.check.bind fun closes m₂ _ _ => ?_
  extract_lets rest
  have closed (groups : List (List (Token × Ty))) (m : Mark)
      (places : ∀ group ∈ groups, PlacedAll cs group) :
      Tracks cs m (fun params _ => PlacedAll cs params) (rest groups) := by
    refine Tracks.expect.bind fun _ _ _ _ => .pure fun param among => ?_
    obtain ⟨group, listed, among⟩ := List.mem_flatten.1 among
    exact places group listed param among
  refine .ite (fun _ => closed [] m₂ nofun) fun _ => ?_
  exact (Tracks.separated (fun _ _ group => PlacedAll cs group) (fun _ _ places => places)
    fun _ => tracks_parameterGroup).bind fun groups m₃ _ places => closed groups m₃ places

/-- A routine that is read has its place in the text, and its body has. -/
def Routine.Fine (cs : List Char) (routine : Routine) : Prop :=
  routine.span.Faithful cs ∧ (Node.stmt routine.body).Throughout (Node.Fine cs)

lemma tracks_routineHead : Tracks cs m (fun found _ => Routine.Fine cs found.1 ∧
    found.1.name = found.2.1.lexeme ∧ found.2.1.span.Faithful cs ∧ PlacedAll cs found.2.2)
    routineHead := by
  refine Tracks.next.bind fun keyword _ _ begins => Tracks.expect.bind fun name _ _ taken => ?_
  refine tracks_parameters.bind fun params m₁ _ places => ?_
  extract_lets rest
  have headed (returns : Option Ty) (m : Mark) :
    Tracks cs m (fun found _ => Routine.Fine cs found.1 ∧
      found.1.name = found.2.1.lexeme ∧ found.2.1.span.Faithful cs ∧ PlacedAll cs found.2.2)
      (rest returns) := by
    refine Tracks.expect.bind fun _ _ _ _ => .pure ⟨⟨begins.faithful.through taken.faithful, ?_⟩,
      rfl, taken.faithful, places⟩
    refine Node.throughout_iff.2 ⟨⟨taken.faithful, nofun, nofun⟩, nofun⟩
  have typed (m : Mark) : Tracks cs m (fun _ _ => True) (some <$> type) :=
    tracks_type.map fun _ _ _ _ => trivial
  refine .ite (fun _ => ?_) fun _ => headed none m₁
  exact Tracks.expect.bind fun _ m₂ _ _ => (typed m₂).bind fun returns m₃ _ _ => headed returns m₃

lemma entered_new (routines : List Routine) (routine : Routine) (span : Span) :
    Symbol.Entered (routines ++ [routine]) ⟨routine.name,
      if routine.returns.isSome then .function routines.length else .procedure routines.length,
      routine.type, span⟩ := by
  have found : (routines ++ [routine])[routines.length]? = some routine :=
    List.getElem?_concat_length
  unfold Symbol.Entered Routine.type
  rcases e : routine.returns with _ | returns
  · exact ⟨routine, found, rfl, e, rfl⟩
  · exact ⟨routine, returns, found, rfl, e, rfl⟩

/-- **A routine is entered together with its name**, or the name is refused. -/
lemma tracks_enter {routine : Routine} {name : Token} (fine : Routine.Fine cs routine)
    (named : routine.name = name.lexeme) (place : name.span.Faithful cs) :
    Tracks cs m (fun _ _ => True) (enter routine name) := by
  intro s sound here
  let symbol : Symbol := ⟨name.lexeme,
    if routine.returns.isSome then .function s.routines.length else .procedure s.routines.length,
    routine.type, name.span⟩
  unfold enter
  rw [bind_of_ok get_self, bind_apply, Tracks.declare_apply]
  rcases e : s.scopes.declare symbol with d | scopes
  · refine ⟨sound, .refl s, ?_⟩
    change d.span.Faithful cs
    rw [Tracks.place_of_declare e]
    exact place
  · refine ⟨⟨sound.tokens, ?_, ?_, ?_⟩, ⟨Tracks.depth_of_declare e, rfl, rfl⟩, m, .refl m,
      trivial, here⟩
    · refine Tracks.levels_of_declare (P := (·.Entered (s.routines ++ [routine]))) e
        (fun scope among symbol listed => (sound.entered scope among symbol listed).mono) ?_
      have entered := entered_new s.routines routine name.span
      rwa [named] at entered
    · refine Tracks.levels_of_declare e sound.single fun value constant => ?_
      change ite _ _ _ = _ at constant
      split at constant <;> cases constant
    · exact List.forall_mem_append.2 ⟨sound.routines, List.forall_mem_singleton.2 fine⟩

lemma tracks_complete (id : RoutineId) (locals : List (String × Ty)) {body : Stmt}
    (fine : (Node.stmt body).Throughout (Node.Fine cs)) :
    Tracks cs m (fun _ _ => True) (complete id locals body) := by
  intro s sound here
  refine ⟨⟨sound.tokens, ?_, sound.single, ?_⟩, ⟨rfl, rfl, rfl⟩, m, .refl m, trivial, here⟩
  · exact fun scope among symbol listed =>
      (sound.entered scope among symbol listed).completed id locals body
  · intro routine among
    obtain ⟨n, found⟩ := List.getElem?_of_mem among
    obtain ⟨before, there, ⟨-, rfl⟩ | ⟨-, rfl⟩⟩ := Fits.of_completed found
    · exact sound.routines _ (List.mem_of_getElem? there)
    · exact ⟨(sound.routines _ (List.mem_of_getElem? there)).1, fine⟩

section

variable {routine : Parse Unit} (h : ∀ m, Tracks cs m (fun _ _ => True) routine)

include h

lemma tracks_declarationsOf :
    Tracks cs m (fun part _ => Singles part.constants) (declarationsOf routine) := by
  refine (Tracks.many (fun _ _ (part : Declarations) => Singles part.constants)
    (fun _ _ single => single) (fun m => ?_) fun m => ?_).map fun _ _ _ => singles_join
  · refine Tracks.peek.bind fun token _ _ _ => ?_
    split <;> exact .pure trivial
  · refine Tracks.peek.bind fun token m₁ _ _ => ?_
    split
    · exact tracks_groups fun _ => tracks_constantGroup
    · exact tracks_groups fun _ => tracks_variableGroup
    · exact (h m₁).bind fun _ _ _ _ => .pure nofun

lemma tracks_bodyOf {params : List (Token × Ty)} (places : PlacedAll cs params) :
    Tracks cs m (fun found _ => (Node.stmt found.2).Throughout (Node.Fine cs))
      (bodyOf routine params) := by
  refine Tracks.bind (.forM fun param among m => ?_) fun _ _ _ _ => ?_
  · exact tracks_declareStorage (places param among) param.2
  · refine (tracks_declarationsOf h).bind fun _ m₁ _ _ => ?_
    exact (tracks_block m₁).bind fun _ _ _ hbody => .pure hbody.fine

lemma tracks_routineOf : Tracks cs m (fun _ _ => True) (routineOf routine) := by
  refine tracks_routineHead.bind fun ⟨head, name, params⟩ _ _ ⟨fine, named, place, places⟩ => ?_
  refine (tracks_enter fine named place).bind fun id _ _ _ => ?_
  refine (Tracks.inRoutine id (tracks_bodyOf h places)).bind fun ⟨locals, body⟩ _ _ fine => ?_
  exact Tracks.expect.bind fun _ _ _ _ => tracks_complete id locals fine

end

lemma tracks_routineWithin : ∀ bound m, Tracks cs m (fun _ _ => True) (routineWithin bound)
  | 0, _ => .exhausted
  | bound + 1, _ => fun s => tracks_routineOf (tracks_routineWithin bound) s

lemma tracks_routine (m : Mark) : Tracks cs m (fun _ _ => True) routine :=
  Tracks.budget.bind fun bound m₁ _ _ => tracks_routineWithin bound m₁

/-! ### Programs -/

/-- A program up to its final point, without its routines. -/
def programText : Parse (Token × Declarations × Stmt) := do
  let _ ← expect .programWord
  let name ← expect .identifier
  let _ ← expect .semicolon
  let declarations ← declarationsOf routine
  let body ← block
  let _ ← expect .dot
  return (name, declarations, body)

lemma program_eq : program = do
    let (name, declarations, body) ← programText
    let _ ← expect .endOfText
    let routines := (← get).routines
    modify fun state => { state with routines := [] }
    return ⟨name.lexeme, declarations.constants, declarations.vars, routines, body⟩ := by
  unfold program programText
  simp only [bind_assoc, pure_bind]

lemma tracks_programText :
    Tracks cs m (fun found _ => (Node.stmt found.2.2).Throughout (Node.Fine cs) ∧
      Singles found.2.1.constants) programText := by
  refine Tracks.expect.bind fun _ _ _ _ => Tracks.expect.bind fun name _ _ _ => ?_
  refine Tracks.expect.bind fun _ _ _ _ => (tracks_declarationsOf tracks_routine).bind
    fun _ m₁ _ singles => ?_
  refine (tracks_block m₁).bind fun body _ _ hbody => ?_
  exact Tracks.expect.bind fun _ _ _ _ => .pure ⟨hbody.fine, singles⟩

lemma sound_ofText (text : String) (folding : Bool) :
    (ParseState.ofText text folding).Sound text.toList where
  tokens := Tokens.faithful_ofText text
  entered := List.forall_mem_singleton.2 nofun
  single := List.forall_mem_singleton.2 nofun
  routines := nofun

/-- **What the reading of a program leaves behind**: after a failure a reader that is sound, and
after a success one that has read all the text, and whose routines have become those of the
program. -/
theorem program_outcome {s : ParseState} (sound : s.Sound cs) :
    (∃ d t, program s = (.error d, t) ∧ d.span.Faithful cs ∧ t.Sound cs ∧ s.Resumes t) ∨
    ∃ (read : Program) (t : ParseState), program s = (.ok read, { t with routines := [] }) ∧
      read.routines = t.routines ∧ Singles read.constants ∧
      (Node.stmt read.body).Throughout (Node.Fine cs) ∧ t.Sound cs ∧ s.Resumes t ∧
      t.tokens.items = [] := by
  rw [program_eq, bind_apply]
  have first := tracks_programText s sound (Mark.at_start _)
  rcases e : programText s with ⟨d | ⟨name, declarations, body⟩, t⟩ <;> rw [e] at first <;>
    obtain ⟨sound, resumes, arrives⟩ := first
  · exact .inl ⟨d, t, rfl, arrives, sound, resumes⟩
  obtain ⟨_, -, ⟨fine, singles⟩, -⟩ := arrives
  have ends : Tracks cs .start _ (expect .endOfText) := Tracks.expect
  obtain ⟨sound', resumes', arrives⟩ := ends t sound (Mark.at_start _)
  dsimp only
  rw [bind_apply]
  rcases e : expect .endOfText t with ⟨d | ending, u⟩ <;> rw [e] at sound' resumes' arrives
  · exact .inl ⟨d, u, rfl, arrives, sound', resumes.trans resumes'⟩
  · refine .inr ⟨_, u, rfl, rfl, singles, fine, sound', resumes.trans resumes', ?_⟩
    obtain ⟨isEnd, taken⟩ := expect_eq_ok e
    obtain ⟨on, ⟨-, none⟩ | items⟩ := next_eq_ok taken
    · exact List.suffix_nil.1 (none ▸ on.items)
    · exact absurd isEnd (sound.tokens.inner ending (items ▸ List.mem_cons_self))

end Parse

/-- The nodes of a program are as its reader makes them, its routines have their places, and none of
its constants is an array. -/
structure Program.Fine (cs : List Char) (program : Program) : Prop where
  nodes : ∀ node ∈ program.nodes, node.Fine cs
  routines : ∀ routine ∈ program.routines, routine.span.Faithful cs
  constants : ∀ constant ∈ program.constants, constant.2.Single

lemma Program.fine_of_ofText {text : String} {program : Program}
    (accepted : ofText text = .ok program) :
    program.Fine text.toList := by
  unfold ofText at accepted
  obtain ⟨d, t, read, -⟩ | ⟨found, t, read, routines, singles, body, sound, -⟩ :=
      Parse.program_outcome (Parse.sound_ofText text true) <;> rw [read] at accepted <;>
        cases accepted
  have fine (routine) (listed : routine ∈ program.routines) :=
    sound.routines routine (routines ▸ listed)
  refine ⟨fun node among => ?_, fun routine listed => (fine routine listed).1, singles⟩
  rcases List.mem_append.1 among with inBody | inRoutines
  · exact body node inBody
  · obtain ⟨routine, listed, inside⟩ := List.mem_flatMap.1 inRoutines
    exact (fine routine listed).2 node inside

end SmallPascal
