import SmallPascal.Proofs.Acceptance
import SmallPascal.Proofs.Fitting

/-! The constants and the variables of a program have different names: whatever is declared is put
into the innermost scope, which does not have its name yet. -/

namespace SmallPascal

def Scope.names (scope : Scope) : List String := scope.map (·.name)

def Declarations.names (part : Declarations) : List String :=
  part.constants.map (·.1) ++ part.vars.map (·.1)

lemma Declarations.count_names_join (part : Declarations) (parts : List Declarations)
    (name : String) :
    (join (part :: parts)).names.count name =
      part.names.count name + (join parts).names.count name := by
  simp only [join, names, List.flatMap_cons, List.map_append, List.count_append]
  omega

/-- The second scope has the symbols of the first, and others with the names, each name once if that
was so before. -/
structure Scope.Gains (before after : Scope) (names : List String) : Prop where
  more : ∀ name, names.count name + before.names.count name ≤ after.names.count name
  distinct : before.names.Nodup → after.names.Nodup

namespace Setting

/-- Between the two settings names were declared in the innermost scope, and those around it are as
they were. -/
def Declares (setting setting' : Setting) (names : List String) : Prop :=
  ∃ inner inner' outer, setting.scopes.levels = inner :: outer ∧
    setting'.scopes.levels = inner' :: outer ∧ inner.Gains inner' names

variable {setting setting' setting'' : Setting} {names names' : List String}

lemma Declares.refl (setting : Setting) : setting.Declares setting [] := by
  rcases setting with ⟨⟨program, _ | ⟨inner, outer⟩⟩, -, -⟩
  · exact ⟨program, program, [], rfl, rfl, by simp, id⟩
  · exact ⟨inner, inner, outer ++ [program], rfl, rfl, by simp, id⟩

lemma Declares.trans {whole : List String} (h : setting.Declares setting' names)
    (h' : setting'.Declares setting'' names')
    (within : ∀ name, whole.count name ≤ names.count name + names'.count name) :
    setting.Declares setting'' whole := by
  obtain ⟨inner, middle, outer, before, between, gains⟩ := h
  obtain ⟨middle', inner', outer', between', after, gains'⟩ := h'
  rw [between] at between'
  obtain ⟨rfl, rfl⟩ := List.cons.inj between'
  refine ⟨inner, inner', outer, before, after, fun name => ?_, gains'.distinct ∘ gains.distinct⟩
  have first := gains.more name
  have then' := gains'.more name
  have all := within name
  omega

lemma Declares.forget (h : setting.Declares setting' names) : setting.Declares setting' [] :=
  (Declares.refl setting).trans h (by simp)

lemma declares_declare {symbol : Symbol} (h : setting.declare? symbol = some setting') :
    setting.Declares setting' [symbol.name] := by
  unfold declare? at h
  rcases declared : setting.scopes.declare symbol with d | scopes <;> rw [declared] at h <;> cases h
  obtain ⟨inner, outer, before, after⟩ := Scopes.levels_declare declared
  have current : setting.scopes.current = inner := by
    rcases e : setting.scopes with ⟨program, _ | ⟨first, rest⟩⟩ <;> rw [e] at before
    · exact (List.cons.inj before).1
    · exact (List.cons.inj before).1
  have fresh : symbol.name ∉ inner.names := by
    unfold Scopes.declare at declared
    rw [current] at declared
    split at declared
    · cases declared
    next none =>
      intro among
      obtain ⟨other, listed, same⟩ := List.mem_map.1 among
      exact absurd (by simpa using same) (List.find?_eq_none.1 none other listed)
  refine ⟨inner, symbol :: inner, outer, before, after, fun name => ?_, fun distinct =>
    List.nodup_cons.2 ⟨fresh, distinct⟩⟩
  simp only [Scope.names, List.map_cons, List.count_cons, List.count_nil]
  omega

lemma declares_declareAll {symbols : List Symbol}
    (h : setting.declareAll? symbols = some setting') :
    setting.Declares setting' (symbols.map (·.name)) := by
  induction symbols generalizing setting with
  | nil =>
    cases h
    exact .refl _
  | cons symbol rest ih =>
    obtain ⟨middle, first, others⟩ := Option.bind_eq_some_iff.1 h
    refine (declares_declare first).trans (ih others) fun name => ?_
    simp only [List.map_cons, List.count_cons, List.count_nil]
    omega

lemma Declares.close {opened inner : Setting} {id : Option RoutineId}
    (opens : { setting with scopes := setting.scopes.push, within := id } = opened)
    (h : opened.Declares inner names) : inner.scopes.pop.levels = setting.scopes.levels := by
  subst opens
  obtain ⟨first, last, outer, before, after, -⟩ := h
  obtain ⟨-, rfl⟩ := List.cons.inj (show [] :: setting.scopes.levels = first :: outer from before)
  rcases e : inner.scopes with ⟨program, _ | ⟨top, rest⟩⟩ <;> rw [e] at after
  · have none : [] = setting.scopes.levels := (List.cons.inj after).2
    exact absurd none.symm (by simp [Scopes.levels])
  · exact (List.cons.inj after).2

end Setting

variable {setting setting' : Setting} {part : Declarations}

/-! ### Sections -/

lemma ConstantPhrase.declares {group : ConstantPhrase}
    (h : group.elaborate setting = some (setting', part)) :
    setting.Declares setting' part.names := by
  obtain ⟨type?, -, h⟩ := Option.bind_eq_some_iff.1 h
  obtain ⟨read, -, h⟩ := Option.bind_eq_some_iff.1 h
  obtain ⟨e, -, h⟩ := Option.bind_eq_some_iff.1 h
  obtain ⟨value, -, h⟩ := Option.bind_eq_some_iff.1 h
  obtain ⟨after, all, same⟩ := Option.bind_eq_some_iff.1 h
  cases same
  have declared := Setting.declares_declareAll all
  simpa [Declarations.names, Function.comp_def] using declared

lemma VariablePhrase.declares {group : VariablePhrase}
    (h : group.elaborate setting = some (setting', part)) :
    setting.Declares setting' part.names := by
  obtain ⟨places, -, h⟩ := Option.bind_eq_some_iff.1 h
  obtain ⟨after, all, same⟩ := Option.bind_eq_some_iff.1 h
  cases same
  have declared := Setting.declares_declareAll all
  have named (place : Token × Ty) : (Symbol.storage place.1.lexeme place.2 place.1.span).name =
      place.1.lexeme := rfl
  simpa [Declarations.names, storages, Function.comp_def, named] using declared

lemma declares_groups {τ : Type} {elaborate : Setting → τ → Option (Setting × Declarations)}
    (h : ∀ {setting group setting' part}, elaborate setting group = some (setting', part) →
      setting.Declares setting' part.names) {groups : List τ} {parts : List Declarations}
    (means : elaborateGroups elaborate setting groups = some (setting', parts)) :
    setting.Declares setting' (Declarations.join parts).names := by
  induction groups generalizing setting parts with
  | nil =>
    cases means
    exact .refl _
  | cons group rest ih =>
    rw [elaborateGroups] at means
    obtain ⟨⟨middle, part⟩, first, means⟩ := Option.bind_eq_some_iff.1 means
    obtain ⟨⟨last, others⟩, later, same⟩ := Option.bind_eq_some_iff.1 means
    cases same
    exact (h first).trans (ih later) fun name =>
      Nat.le_of_eq (Declarations.count_names_join part others name)

mutual

lemma Section.declares {s : Section} {setting setting' : Setting} {count : Nat}
    {part : Declarations}
    {new : List Routine} (h : s.elaborate setting count = some (setting', part, new)) :
    setting.Declares setting' part.names := by
  match s with
  | .constants groups =>
    obtain ⟨⟨after, parts⟩, means, same⟩ := Option.bind_eq_some_iff.1 h
    cases same
    exact declares_groups ConstantPhrase.declares means
  | .vars groups =>
    obtain ⟨⟨after, parts⟩, means, same⟩ := Option.bind_eq_some_iff.1 h
    cases same
    exact declares_groups VariablePhrase.declares means
  | .routine keyword name params returns sections body =>
    obtain ⟨head, places, outer, opened, inner, parts, others, stmt, -, named, all,
      nested, -, rfl, rfl,
      -⟩ := Parse.elaborate_routine.1 h
    rw [← Section.elaborateAll_eq] at nested
    obtain ⟨first, last, around, before, after, gains⟩ := (Setting.declares_declare named).forget
    have inside : Setting.Declares _ inner [] :=
      (Setting.declares_declareAll all).trans (Section.declaresAll nested) (by simp)
    exact ⟨first, last, around, before, (inside.close rfl).trans after, gains⟩

lemma Section.declaresAll {sections : List Section} {setting setting' : Setting} {count : Nat}
    {parts : List Declarations} {new : List Routine}
    (h : Section.elaborateAll setting count sections = some (setting', parts, new)) :
    setting.Declares setting' (Declarations.join parts).names := by
  match sections with
  | [] =>
    cases h
    exact .refl _
  | s :: rest =>
    rw [Section.elaborateAll] at h
    obtain ⟨⟨middle, part, routines⟩, first, means⟩ := Option.bind_eq_some_iff.1 h
    obtain ⟨⟨last, others, more⟩, later, same⟩ := Option.bind_eq_some_iff.1 means
    cases same
    exact (Section.declares first).trans (Section.declaresAll later) fun name =>
      Nat.le_of_eq (Declarations.count_names_join part others name)

end

/-! ### Programs -/

/-- **The names of a program's constants and variables are all different.** -/
theorem Program.nodup_names {text : String} {program : Program} (h : ofText text = .ok program) :
    (program.constants.map (·.1) ++ program.vars.map (·.1)).Nodup := by
  have last : (ParseState.ofText text true).Ready := ⟨rfl, (Tokens.orderly_ofText text).last⟩
  obtain ⟨-, script, -, -, means⟩ := Parse.sound_program last
    (fun _ => Tokens.kind_ne_of_mem_ofCursor) rfl rfl (Prod.ext h rfl)
  obtain ⟨⟨setting, parts, routines⟩, sections, means⟩ := Option.bind_eq_some_iff.1 means
  obtain ⟨body, -, same⟩ := Option.bind_eq_some_iff.1 means
  cases same
  obtain ⟨inner, after, outer, before, -, gains⟩ := Section.declaresAll sections
  obtain ⟨rfl, -⟩ := List.cons.inj (show [[]] = inner :: outer from before)
  have distinct := gains.distinct List.nodup_nil
  refine List.nodup_iff_count.2 fun name => ?_
  have more := gains.more name
  have once := List.nodup_iff_count.1 distinct name
  change (Declarations.join parts).names.count name ≤ 1
  omega

end SmallPascal
