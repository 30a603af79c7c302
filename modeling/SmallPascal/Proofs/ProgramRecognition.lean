import SmallPascal.Proofs.DeclarationRecognition

/-!
Sections, routines and programs are read as the grammar has them: a section goes on as long as
groups follow, and the body of a routine is read in a scope of its own, where the routine is known
already. -/

namespace SmallPascal

open Steps Grammar

/-- The kinds of words that routines begin with. -/
def Kind.routines : List Kind := [.functionWord, .procedureWord]

/-- The kinds of words that sections and routines begin with. -/
def Kind.declaring : List Kind := [.constWord, .varWord, .functionWord, .procedureWord]

/-- The meanings of declarations one after the other. -/
def elaborateEach {τ α : Type} (meaning : Setting → Nat → τ → Option (Setting × α × List Routine))
    (setting : Setting) (count : Nat) : List τ → Option (Setting × List α × List Routine)
  | [] => some (setting, [], [])
  | tree :: rest => do
    let (setting, a, routines) ← meaning setting count tree
    let (setting, as, others) ← elaborateEach meaning setting (count + routines.length) rest
    return (setting, a :: as, routines ++ others)

lemma Section.elaborateAll_eq (setting : Setting) (count : Nat) (sections : List Section) :
    elaborateAll setting count sections = elaborateEach elaborate setting count sections := by
  induction sections generalizing setting count with
  | nil => rfl
  | cons s rest ih => simp only [elaborateAll, elaborateEach, ih]

namespace Parse

variable {α τ : Type} {s t : ParseState}

lemma elaborateEach_plain {elaborate : Setting → τ → Option (Setting × Declarations)}
    {setting setting' : Setting} {count : Nat} {trees : List τ} {parts : List Declarations}
    {new : List Routine} :
    elaborateEach (plain elaborate) setting count trees = some (setting', parts, new) ↔
      elaborateGroups elaborate setting trees = some (setting', parts) ∧ new = [] := by
  induction trees generalizing setting count parts new with
  | nil => simp [elaborateEach, elaborateGroups, and_assoc, eq_comm]
  | cons tree rest ih =>
    simp only [elaborateEach, elaborateGroups, plain]
    rcases elaborate setting tree with _ | ⟨mid, part⟩
    · exact ⟨nofun, nofun⟩
    · simp only [Option.map_some, Option.bind_eq_bind, Option.bind_some, Option.bind_eq_some_iff]
      constructor
      · rintro ⟨⟨_, parts, others⟩, found, same⟩
        cases same
        obtain ⟨found, rfl⟩ := ih.1 found
        exact ⟨⟨_, found, rfl⟩, rfl⟩
      · rintro ⟨⟨⟨_, parts⟩, found, same⟩, rfl⟩
        cases same
        exact ⟨⟨_, parts, []⟩, ih.2 ⟨found, rfl⟩, rfl⟩

/-! ### Repeated declarations -/

/-- The reader tells whether the next token is of one of the kinds. -/
def Asks (more : Parse Bool) (kinds : List Kind) : Prop :=
  ∀ ⦃s t b⦄, more s = (.ok b, t) ↔ s = t ∧ ∃ token, t.tokens.peek = .ok token ∧
      b = decide (token.kind ∈ kinds)

lemma asks_check (kind : Kind) : Asks (check kind) [kind] := by
  intro s t b
  simp only [List.mem_singleton]
  refine ⟨check_inv, ?_⟩
  rintro ⟨rfl, token, peeked, rfl⟩
  exact check_of peeked

section

variable {writing : τ → List Token → Prop}
  {meaning : Setting → Nat → τ → Option (Setting × α × List Routine)} {p : Parse α}
  {more : Parse Bool} {kinds : List Kind}

lemma introduces_manyWithin (asks : Asks more kinds)
    (h : ∀ {s a t token}, s.Ready → s.tokens.peek = .ok token → token.kind ∈ kinds →
      p s = (.ok a, t) → Introduces writing meaning s a t) {bound : Nat} :
    ∀ {s as t}, s.Ready → manyWithin more p bound s = (.ok as, t) →
      Introduces (Series writing) (elaborateEach meaning) s as t := by
  induction bound with
  | zero => exact fun _ e => absurd e exhausted_ne_ok
  | succ bound ih =>
    intro s as t ready read
    obtain ⟨b, _, asked, turn⟩ := bind_eq_ok.1 read
    obtain ⟨rfl, token, peeked, rfl⟩ := asks.1 asked
    by_cases is : token.kind ∈ kinds
    · rw [if_pos (decide_eq_true is)] at turn
      obtain ⟨a, v, first, rest⟩ := bind_eq_ok.1 turn
      obtain ⟨as, w, last, done⟩ := bind_eq_ok.1 rest
      obtain ⟨rfl, rfl⟩ := pure_eq_ok.1 done
      obtain ⟨tree, front, u, new, rfl, written, means, gains⟩ := h ready peeked is first
      rw [ParseState.ready_put, ← gains.ready] at ready
      obtain ⟨trees, behind, x, others, rfl, written', means', gains'⟩ := ih ready last
      obtain ⟨y, rfl, before⟩ := gains.put_left
      refine ⟨tree :: trees, front ++ behind, y, new ++ others, by simp, .more written written', ?_,
        before.trans gains'⟩
      have counted : x.routines.length = y.routines.length + new.length := by
        rw [before.routines, List.length_append]
      rw [elaborateEach]
      refine Option.bind_eq_some_iff.2 ⟨_, means, ?_⟩
      rw [counted] at means'
      exact Option.bind_eq_some_iff.2 ⟨_, means', rfl⟩
    · rw [if_neg (by simpa using is)] at turn
      obtain ⟨rfl, rfl⟩ := pure_eq_ok.1 turn
      exact ⟨[], [], s, [], rfl, .none, rfl, .refl s⟩

lemma introduces_many (asks : Asks more kinds)
    (h : ∀ {s a t token}, s.Ready → s.tokens.peek = .ok token → token.kind ∈ kinds →
      p s = (.ok a, t) → Introduces writing meaning s a t)
    {as : List α} (ready : s.Ready) (read : many more p s = (.ok as, t)) :
    Introduces (Series writing) (elaborateEach meaning) s as t := by
  obtain ⟨bound, _, counted, within⟩ := bind_eq_ok.1 read
  obtain rfl := budget_eq_ok counted
  exact introduces_manyWithin asks h ready within

/-- Whatever is written begins with a token of one of the kinds. -/
def Heads (kinds : List Kind) (writing : τ → List Token → Prop) : Prop :=
  ∀ ⦃tree toks⦄, writing tree toks → ∃ first rest, toks = first :: rest ∧ first.kind ∈ kinds

/-- What stands in front of a series is in front of its first item, or behind the series. -/
lemma exists_follower {next : Token} (heads : Heads kinds writing) {trees : List τ}
    {toks : List Token} (written : Series writing trees toks) (peeked : s.tokens.peek = .ok next) :
    ∃ follower, (s.put toks).tokens.peek = .ok follower ∧
    (follower = next ∨ follower.kind ∈ kinds) := by
  cases written with
  | none => exact ⟨next, peeked, .inl rfl⟩
  | more written _ =>
    obtain ⟨follower, _, rfl, is⟩ := heads written
    exact ⟨follower, rfl, .inr is⟩

lemma enters_manyWithin {before : Token → Prop} {length : Nat} (asks : Asks more kinds)
    (heads : Heads kinds writing) (between : ∀ token : Token, token.kind ∈ kinds → before token)
    (h : Enters writing meaning p before length) {trees : List τ} {toks : List Token}
    (written : Series writing trees toks) :
    ∀ {s : ParseState} {next setting as new bound}, s.folding = true →
      s.tokens.peek = .ok next → before next → next.kind ∉ kinds →
      elaborateEach meaning s.setting s.routines.length trees = some (setting, as, new) →
      toks.length ≤ length → toks.length < bound →
      ∃ t, s.Gains new t ∧ t.setting = setting ∧
      manyWithin more p bound (s.put toks) = (.ok as, t) := by
  induction written with
  | none =>
    intro s next setting as new bound folds peeked ends other means short few
    cases means
    obtain ⟨bound, rfl⟩ : ∃ n, bound = n + 1 := ⟨bound - 1, by omega⟩
    refine ⟨s, .refl s, rfl, ?_⟩
    have asked : more s = (.ok false, s) := asks.2 ⟨rfl, next, peeked, (decide_eq_false other).symm⟩
    unfold manyWithin
    rw [ParseState.put_nil, bind_of_ok asked]
    rfl
  | @more tree rest front behind written series ih =>
    intro s next setting as new bound folds peeked ends other means short few
    obtain ⟨⟨mid, a, first⟩, found, means⟩ := Option.bind_eq_some_iff.1 means
    obtain ⟨⟨_, others, routines⟩, found', same⟩ := Option.bind_eq_some_iff.1 means
    cases same
    obtain ⟨token, inner, rfl, is⟩ := heads written
    simp only [List.length_append, List.length_cons] at short few
    obtain ⟨bound, rfl⟩ : ∃ n, bound = n + 1 := ⟨bound - 1, by omega⟩
    obtain ⟨follower, peeked', follows⟩ := exists_follower heads series peeked
    have may : before follower := follows.elim (fun same => same ▸ ends) (between follower)
    obtain ⟨t, gains, rfl, read⟩ := h (s := s.put behind) folds peeked' may written found
      (by rw [List.length_cons]; omega)
    obtain ⟨u, rfl, gained⟩ := gains.put_right
    have counted : u.routines.length = s.routines.length + first.length := by
      rw [gained.routines, List.length_append]
    rw [← counted] at found'
    obtain ⟨v, gains', same, last⟩ := ih (gained.folding.trans folds) (gained.tokens ▸ peeked) ends
      other found' (by omega) (show behind.length < bound by omega)
    refine ⟨v, gained.trans gains', same, ?_⟩
    have asked : more (s.put (token :: inner ++ behind)) =
        (.ok true, s.put (token :: inner ++ behind)) :=
      asks.2 ⟨rfl, token, rfl, (decide_eq_true is).symm⟩
    rw [ParseState.put_put] at read
    unfold manyWithin
    rw [bind_of_ok asked, if_pos rfl, bind_of_ok read, bind_of_ok last]
    rfl

lemma enters_many {before : Token → Prop} {length : Nat} (asks : Asks more kinds)
    (heads : Heads kinds writing) (between : ∀ token : Token, token.kind ∈ kinds → before token)
    (h : Enters writing meaning p before length) :
    Enters (Series writing) (elaborateEach meaning) (many more p)
    (fun next => before next ∧ next.kind ∉ kinds)
      length := by
  intro s trees toks next setting as new folds peeked ends written means short
  unfold many
  rw [bind_of_ok budget_self]
  refine enters_manyWithin asks heads between h written folds peeked ends.1 ends.2 means short ?_
  rw [ParseState.length_put]
  omega

end

/-! ### Sections -/

section

variable {writing : τ → List Token → Prop}
  {elaborate : Setting → τ → Option (Setting × Declarations)} {group : Parse Declarations}

lemma sound_groups (h : ∀ {s part t}, s.Ready → group s = (.ok part, t) →
      Introduces writing (plain elaborate) s part t) {keyword : Token} {part : Declarations}
    (ready : s.Ready) (notEnd : keyword.kind ≠ .endOfText)
    (peeked : s.tokens.peek = .ok keyword) (read : groups group s = (.ok part, t)) :
    ∃ (trees : List τ) (toks : List Token) (parts : List Declarations) (u : ParseState),
      trees ≠ [] ∧ s = u.put (keyword :: toks) ∧ Series writing trees toks ∧
      elaborateGroups elaborate u.setting trees = some (t.setting, parts) ∧ part = .join parts ∧
      u.Gains [] t := by
  obtain ⟨u, rfl, ready, inside⟩ := next_inv ready notEnd peeked read
  obtain ⟨first, v, one, more⟩ := bind_eq_ok.1 inside
  obtain ⟨rest, w, others, done⟩ := bind_eq_ok.1 more
  obtain ⟨rfl, rfl⟩ := pure_eq_ok.1 done
  obtain ⟨tree, front, x, new, rfl, written, means, gains⟩ := h ready one
  rw [ParseState.ready_put, ← gains.ready] at ready
  obtain ⟨trees, behind, y, new', rfl, written', means', gains'⟩ :=
    introduces_many (asks_check .identifier) (fun ready _ _ read => h ready read) ready others
  obtain ⟨z, rfl, before⟩ := gains.put_left
  obtain ⟨result, rfl⟩ := plain_eq_some.1 means
  obtain ⟨result', rfl⟩ := elaborateEach_plain.1 means'
  refine ⟨tree :: trees, front ++ behind, first :: rest, z, nofun, by simp, .more written written',
    ?_, rfl, before.trans gains'⟩
  rw [elaborateGroups]
  exact Option.bind_eq_some_iff.2 ⟨_, result, Option.bind_eq_some_iff.2 ⟨_, result', rfl⟩⟩

lemma enters_groups (heads : Heads [.identifier] writing)
    (h : ∀ length, Enters writing (plain elaborate) group (fun _ => True) length) {trees : List τ}
    {keyword next : Token} {toks : List Token} {setting : Setting} {parts : List Declarations}
    (folds : s.folding = true) (peeked : s.tokens.peek = .ok next) (other : next.kind ≠ .identifier)
    (nonempty : trees ≠ []) (written : Series writing trees toks)
    (means : elaborateGroups elaborate s.setting trees = some (setting, parts)) :
    ∃ t, s.Gains [] t ∧ t.setting = setting ∧
    groups group (s.put (keyword :: toks)) = (.ok (.join parts), t) := by
  cases written with
  | none => exact absurd rfl nonempty
  | @more tree rest front behind written series =>
    rw [elaborateGroups] at means
    obtain ⟨⟨_, first⟩, found, means⟩ := Option.bind_eq_some_iff.1 means
    obtain ⟨⟨_, others⟩, found', same⟩ := Option.bind_eq_some_iff.1 means
    cases same
    obtain ⟨follower, peeked', -⟩ := exists_follower heads series peeked
    obtain ⟨t, gains, rfl, read⟩ := h front.length (s := s.put behind) folds peeked' trivial written
      (plain_eq_some.2 ⟨found, rfl⟩) (Nat.le_refl _)
    obtain ⟨u, rfl, gained⟩ := gains.put_right
    obtain ⟨v, gains', same, last⟩ := enters_many (asks_check .identifier) heads
      (fun _ _ => trivial) (h behind.length) (gained.folding.trans folds) (gained.tokens ▸ peeked)
      ⟨trivial, by simpa using other⟩ series (elaborateEach_plain.2 ⟨found', rfl⟩) (Nat.le_refl _)
    refine ⟨v, gained.trans gains', same, ?_⟩
    rw [ParseState.put_put] at read
    unfold groups
    rw [bind_of_ok next_put, bind_of_ok read, bind_of_ok last]
    rfl

end

lemma heads_constants : Heads [.identifier] Constants := by
  intro tree toks written
  cases written with
  | plain names =>
    obtain ⟨first, rest, rfl, is⟩ := names.starts
    exact ⟨first, _, rfl, by simpa using is⟩
  | typed names =>
    obtain ⟨first, rest, rfl, is⟩ := names.starts
    exact ⟨first, _, rfl, by simpa using is⟩

lemma heads_declared : Heads [.identifier] Declared := by
  rintro tree toks ⟨front, last, written, -, rfl⟩
  obtain ⟨first, rest, rfl, is⟩ := written.starts
  exact ⟨first, _, rfl, by simpa using is⟩

/-! ### Routines -/

lemma sound_parameters : Sound (Anywhere Parameters) parameters? parameters := by
  intro s found t ready read
  obtain ⟨opens, u, asked, more⟩ := bind_eq_ok.1 read
  cases opens with
  | false =>
    obtain ⟨rfl, rfl⟩ := pure_eq_ok.1 more
    exact ⟨[], [], (accept_false asked).1, fun _ _ => .absent, rfl⟩
  | true =>
    obtain ⟨opening, isOpening, rfl⟩ := put_of_accept ready (by decide) asked
    rw [ParseState.ready_put] at ready
    obtain ⟨params, toks, closing, groups, v, rfl, listed, isClosing, means, done⟩ :=
      Sound.enclosed (show Kind.semicolon ≠ .endOfText by decide) sound_parameterGroup ready more
    obtain ⟨rfl, rfl⟩ := pure_eq_ok.1 done
    refine ⟨params, opening :: (toks ++ [closing]), by simp, fun _ _ => ?_,
      by simp [parameters?, means]⟩
    obtain ⟨rfl, rfl⟩ | written := listed
    · exact .none isOpening isClosing
    · exact .some isOpening written isClosing

lemma complete_parameters (length : Nat) :
    Complete (Anywhere Parameters) parameters? parameters (·.kind ≠ .leftParen) length := by
  intro s tree toks next found folds peeked other written means _
  unfold parameters
  obtain ⟨rfl, rfl⟩ | ⟨opening, inner, closing, rfl, isOpening, isClosing, listed⟩ := written.inner
  · cases means
    rw [ParseState.put_nil, bind_of_ok (accept_of_ne peeked other)]
    rfl
  · obtain ⟨groups, found, rfl⟩ := Option.map_eq_some_iff.1 means
    rw [bind_of_ok (accept_put isOpening), if_pos rfl]
    exact Complete.enclosed (complete_parameterGroup inner.length) starts_variables (by decide)
      (by decide) (fun _ _ => trivial) folds listed isClosing found (Nat.le_refl _)

/-- The type of the result of a routine that begins with a word of the given kind. -/
def returned (kind : Kind) : Parse (Option Ty) :=
  if kind = .functionWord then do
    let _ ← expect .colon
    some <$> type
  else pure none

lemma sound_returned {kind : Kind} (is : kind = .functionWord ∨ kind = .procedureWord) :
    Sound (Anywhere (Returns kind)) TypePhrase.elaborate? (returned kind) := by
  intro s found t ready read
  rcases is with rfl | rfl
  · obtain ⟨colon, u, isColon, rfl, ready, rest⟩ := expect_inv ready (by decide) read
    rw [map_eq_pure_bind] at rest
    obtain ⟨result, v, annotated, done⟩ := bind_eq_ok.1 rest
    obtain ⟨rfl, rfl⟩ := pure_eq_ok.1 done
    obtain ⟨tree, toks, rfl, typing, means⟩ := sound_type ready annotated
    refine ⟨some tree, colon :: toks, by simp, fun next peeked => .function isColon
      (typing next peeked), ?_⟩
    simp [TypePhrase.elaborate?, means]
  · obtain ⟨rfl, rfl⟩ := pure_eq_ok.1 read
    exact ⟨none, [], rfl, fun _ _ => .procedure, rfl⟩

lemma complete_returned (kind : Kind) (length : Nat) :
    Complete (Anywhere (Returns kind)) TypePhrase.elaborate? (returned kind)
    (fun _ => True) length := by
  intro s tree toks next found folds peeked _ written means _
  cases written with
  | function isColon typing =>
    obtain ⟨result, annotated, rfl⟩ := Option.map_eq_some_iff.1 means
    exact (bind_of_ok (expect_put isColon)).trans
      (map_of_ok (complete_type _ folds peeked trivial typing annotated (Nat.le_refl _)))
  | procedure =>
    cases means
    rfl

lemma routineHead_eq : routineHead = (do
    let keyword ← next
    let name ← expect .identifier
    let params ← parameters
    let returns ← returned keyword.kind
    let _ ← expect .semicolon
    return (.ofHead keyword name params returns, name, params)) := by
  refine congrArg (next >>= ·) (funext fun keyword => congrArg (expect .identifier >>= ·)
      (funext fun name =>
    congrArg (parameters >>= ·) (funext fun params => ?_)))
  unfold returned
  split
  · rw [bind_assoc]
    rfl
  · rfl

lemma sound_routineHead {keyword name : Token} {head : Routine} {places : List (Token × Ty)}
    (ready : s.Ready) (peeked : s.tokens.peek = .ok keyword)
    (is : keyword.kind = .functionWord ∨ keyword.kind = .procedureWord)
    (read : routineHead s = (.ok (head, name, places), t)) :
    ∃ params returns front middle semicolon,
      s = t.put (keyword :: name :: (front ++ (middle ++ [semicolon]))) ∧
      name.kind = .identifier ∧ Parameters params front ∧ Returns keyword.kind returns middle ∧
      semicolon.kind = .semicolon ∧
      Section.head? t.setting keyword name params returns = some (head, places) := by
  rw [routineHead_eq] at read
  obtain ⟨u, rfl, ready, naming⟩ :=
    next_inv ready (by rcases is with is | is <;> rw [is] <;> decide) peeked read
  obtain ⟨_, v, isName, rfl, ready, listing⟩ := expect_inv ready (by decide) naming
  obtain ⟨found, w, listed, returning⟩ := bind_eq_ok.1 listing
  obtain ⟨params, front, rfl, written, means⟩ := sound_parameters ready listed
  rw [ParseState.ready_put] at ready
  obtain ⟨returns, middle, semicolon, result, x, rfl, _, written', isSemicolon, means', done⟩ :=
    (sound_returned is).closed (by decide) ready returning
  obtain ⟨same, rfl⟩ := pure_eq_ok.1 done
  cases same
  obtain ⟨next, peeked⟩ := ParseState.exists_peek_put (s := x) (List.concat_ne_nil semicolon middle)
  exact ⟨params, returns, front, middle, semicolon, by simp, isName, written next peeked, written',
    isSemicolon, Option.bind_eq_some_iff.2 ⟨_, means, Option.bind_eq_some_iff.2 ⟨_, means', rfl⟩⟩⟩

lemma complete_routineHead {keyword name semicolon : Token} {head : Routine}
    {places : List (Token × Ty)} {params : List VariablePhrase} {returns : Option TypePhrase}
    {front middle : List Token} (folds : s.folding = true) (isName : name.kind = .identifier)
    (written : Parameters params front) (written' : Returns keyword.kind returns middle)
    (isSemicolon : semicolon.kind = .semicolon)
    (means : Section.head? s.setting keyword name params returns = some (head, places)) :
    routineHead (s.put (keyword :: name :: (front ++ (middle ++ [semicolon])))) =
    (.ok (head, name, places), s) := by
  obtain ⟨found, listed, means⟩ := Option.bind_eq_some_iff.1 means
  obtain ⟨result, returning, same⟩ := Option.bind_eq_some_iff.1 means
  cases same
  have follows : ∃ next, (s.put (middle ++ [semicolon])).tokens.peek = .ok next ∧
      next.kind ≠ .leftParen := by
    revert written'
    generalize keyword.kind = kind
    rintro (⟨isColon, _⟩ | _)
    · exact ⟨_, rfl, by rw [isColon]; decide⟩
    · exact ⟨semicolon, rfl, by rw [isSemicolon]; decide⟩
  obtain ⟨next, peeked, other⟩ := follows
  have parameters := complete_parameters _ (s := s.put (middle ++ [semicolon])) folds peeked other
    written listed (Nat.le_refl _)
  rw [ParseState.put_put] at parameters
  rw [routineHead_eq, bind_of_ok next_put, bind_of_ok (expect_put isName), bind_of_ok parameters]
  exact (complete_returned keyword.kind _).closed trivial folds written' isSemicolon returning
    (Nat.le_refl _)

/-! ### Bodies -/

/-- What a routine of the given head is declared as. -/
def headSymbol (head : Routine) (name : Token) (id : RoutineId) : Symbol :=
  ⟨name.lexeme, if head.returns.isSome then .function id else .procedure id, head.type, name.span⟩

lemma elaborate_routine {setting setting' : Setting} {count : Nat} {keyword name : Token}
    {params : List VariablePhrase} {returns : Option TypePhrase} {sections : List Section}
    {body : Clause} {part : Declarations} {new : List Routine} :
    Section.elaborate setting count (.routine keyword name params returns sections body) =
        some (setting', part, new) ↔
      ∃ head places outer opened inner parts others stmt,
        Section.head? setting keyword name params returns = some (head, places) ∧
        setting.declare? (headSymbol head name count) = some outer ∧
        Setting.declareAll? { outer with scopes := outer.scopes.push, within := some count }
          (storages places) = some opened ∧
        elaborateEach Section.elaborate opened (count + 1) sections = some (inner, parts, others) ∧
        body.elaborate inner = some stmt ∧ setting' = { outer with scopes := inner.scopes.pop } ∧
        part = .none ∧
        new = { head with locals := (Declarations.join parts).vars, body := stmt } :: others := by
  rw [Section.elaborate]
  simp only [Option.bind_eq_bind, Option.bind_eq_some_iff, Option.pure_def, Option.some_inj,
    Section.elaborateAll_eq]
  constructor
  · rintro ⟨⟨head, places⟩, found, outer, declared, opened, all, ⟨inner, parts, others⟩, nested,
      stmt, means, same⟩
    cases same
    exact ⟨head, places, outer, opened, inner, parts, others, stmt, found, declared, all, nested,
      means, rfl, rfl, rfl⟩
  · rintro ⟨head, places, outer, opened, inner, parts, others, stmt, found, declared, all, nested,
      means, rfl, rfl, rfl⟩
    exact ⟨⟨head, places⟩, found, outer, declared, opened, all, ⟨inner, parts, others⟩, nested,
      stmt, means, rfl⟩

lemma enter_iff {head : Routine} {name : Token} {id : RoutineId} : enter head name s = (.ok id, t) ↔
    id = s.routines.length ∧ s.setting.declare? (headSymbol head name id) = some t.setting ∧
    s.Gains [head] t := by
  unfold enter
  rw [bind_of_ok get_self]
  constructor
  · intro h
    obtain ⟨_, u, declared, more⟩ := bind_eq_ok.1 h
    obtain ⟨_, v, modified, done⟩ := bind_eq_ok.1 more
    obtain rfl := modify_eq_ok.1 modified
    obtain ⟨rfl, rfl⟩ := pure_eq_ok.1 done
    obtain ⟨result, gains⟩ := declare_iff.1 declared
    refine ⟨rfl, result, gains.tokens, ?_, gains.enclosing, gains.inConstant, gains.folding⟩
    exact congrArg (· ++ [head]) (gains.routines.trans (List.append_nil _))
  · rintro ⟨rfl, result, gains⟩
    refine bind_eq_ok.2 ⟨(), { t with routines := s.routines }, declare_iff.2 ⟨result, ?_⟩,
      bind_eq_ok.2 ⟨(), t, modify_eq_ok.2 ?_, rfl⟩⟩
    · exact ⟨gains.tokens, (List.append_nil _).symm, gains.enclosing, gains.inConstant,
        gains.folding⟩
    · exact congrArg (fun routines => { t with routines }) gains.routines.symm

/-- Where the name of a routine can be declared, there is a reader behind its head. -/
lemma exists_gains_head (head : Routine) {symbol : Symbol} {setting : Setting}
    (h : s.setting.declare? symbol = some setting) :
    ∃ t, s.Gains [head] t ∧ t.setting = setting := by
  obtain ⟨t, gains, same⟩ := exists_gains h
  refine ⟨{ t with routines := s.routines ++ [head] }, ?_, same⟩
  exact ⟨gains.tokens, rfl, gains.enclosing, gains.inConstant, gains.folding⟩

def shifted (f : Scopes → Scopes) (g : List RoutineId → List RoutineId) (s : ParseState) :
    ParseState :=
  { s with scopes := f s.scopes, enclosing := g s.enclosing }

lemma put_of_shifted {f : Scopes → Scopes} {g : List RoutineId → List RoutineId} {toks : List Token}
    (h : shifted f g s = t.put toks) : ∃ u : ParseState, s = u.put toks ∧ t = shifted f g u := by
  refine ⟨{ s with tokens := t.tokens }, ?_, ?_⟩
  · have tokens : s.tokens = t.tokens.put toks := congrArg ParseState.tokens h
    unfold ParseState.put
    rw [← tokens]
  · exact (congrArg (fun u : ParseState => { u with tokens := t.tokens }) h).symm

abbrev inside (s : ParseState) (id : RoutineId) : ParseState := shifted .push (id :: ·) s

abbrev outside (s : ParseState) : ParseState := shifted .pop .tail s

lemma inRoutine_eq (id : RoutineId) (body : Parse α) :
    inRoutine id body s = ((body (inside s id)).1, outside (body (inside s id)).2) := rfl

lemma inRoutine_iff {id : RoutineId} {body : Parse α} {a : α} :
    inRoutine id body s = (.ok a, t) ↔ ∃ u, body (inside s id) = (.ok a, u) ∧ t = outside u := by
  rw [inRoutine_eq]
  rcases body (inside s id) with ⟨result, u⟩
  constructor
  · intro h
    cases h
    exact ⟨u, rfl, rfl⟩
  · rintro ⟨_, h, rfl⟩
    cases h
    rfl

/-- Whether a section or a routine follows. -/
def moreDeclarations : Parse Bool := do
  match (← peek).kind with
  | .constWord | .varWord | .functionWord | .procedureWord => return true
  | _ => return false

/-- A section or a routine, given how a routine is read. -/
def declarationOf (routine : Parse Unit) : Parse Declarations := do
  match (← peek).kind with
  | .constWord => groups constantGroup
  | .varWord => groups variableGroup
  | _ =>
    routine
    return .none

lemma declarationsOf_eq (routine : Parse Unit) :
    declarationsOf routine = .join <$> many moreDeclarations (declarationOf routine) := rfl

lemma asks_moreDeclarations : Asks moreDeclarations Kind.declaring := by
  have answer (s : ParseState) (token : Token) (peeked : s.tokens.peek = .ok token) :
      moreDeclarations s = (.ok (decide (token.kind ∈ Kind.declaring)), s) := by
    unfold moreDeclarations
    rw [bind_of_ok (peek_of peeked)]
    generalize token.kind = kind
    cases kind <;> rfl
  intro s t b
  constructor
  · intro h
    obtain ⟨token, _, seen, -⟩ := bind_eq_ok.1 h
    obtain ⟨rfl, peeked⟩ := peek_eq_ok seen
    rw [answer s token peeked] at h
    cases h
    exact ⟨rfl, token, peeked, rfl⟩
  · rintro ⟨rfl, token, peeked, rfl⟩
    exact answer s token peeked

section

variable {routine : Parse Unit} {length : Nat}

/-- What the reader takes off, where a routine begins, is the writing of a routine. -/
def SoundRoutine (routine : Parse Unit) : Prop :=
  ∀ ⦃s t token⦄, s.Ready → s.tokens.peek = .ok token → token.kind ∈ Kind.routines →
      routine s = (.ok (), t) →
    Introduces Declaration Section.elaborate s .none t

/-- The reader takes off the writing of every routine that has a meaning, if it is not too long. -/
def CompleteRoutine (routine : Parse Unit) (length : Nat) : Prop :=
  ∀ ⦃s : ParseState⦄ ⦃keyword name params returns sections body toks setting part new⦄,
    s.folding = true →
    Declaration (.routine keyword name params returns sections body) toks →
    Section.elaborate s.setting s.routines.length
      (.routine keyword name params returns sections body) = some (setting, part, new) →
    toks.length ≤ length →
    ∃ t, s.Gains new t ∧ t.setting = setting ∧ routine (s.put toks) = (.ok (), t)

lemma introduces_declarationOf (h : SoundRoutine routine) {s t : ParseState} {part : Declarations}
    {token : Token} (ready : s.Ready) (peeked : s.tokens.peek = .ok token)
    (is : token.kind ∈ Kind.declaring) (read : declarationOf routine s = (.ok part, t)) :
    Introduces Declaration Section.elaborate s part t := by
  obtain ⟨token', _, seen, more⟩ := bind_eq_ok.1 read
  obtain ⟨rfl, peeked'⟩ := peek_eq_ok seen
  obtain rfl := Except.ok.inj (peeked.symm.trans peeked')
  simp only [Kind.declaring, List.mem_cons, List.not_mem_nil, or_false] at is
  rcases is with is | is | is
  · rw [is] at more
    obtain ⟨groups, toks, parts, u, nonempty, rfl, written, means, rfl, gains⟩ :=
      sound_groups sound_constantGroup ready (by rw [is]; decide) peeked more
    refine ⟨.constants groups, token :: toks, u, [], rfl, .constants is written nonempty, ?_, gains⟩
    rw [Section.elaborate, means]
    rfl
  · rw [is] at more
    obtain ⟨groups, toks, parts, u, nonempty, rfl, written, means, rfl, gains⟩ :=
      sound_groups sound_variableGroup ready (by rw [is]; decide) peeked more
    refine ⟨.vars groups, token :: toks, u, [], rfl, .vars is written nonempty, ?_, gains⟩
    rw [Section.elaborate, means]
    rfl
  · have inner : ∃ u, routine s = (.ok (), u) ∧ (.none, u) = (part, t) := by
      rcases is with is | is <;> rw [is] at more <;>
        obtain ⟨_, u, inner, done⟩ := bind_eq_ok.1 more <;>
        obtain ⟨rfl, rfl⟩ := pure_eq_ok.1 done <;> exact ⟨u, inner, rfl⟩
    obtain ⟨u, inner, same⟩ := inner
    cases same
    exact h ready peeked (by simpa [Kind.routines] using is) inner

lemma enters_declarationOf (h : CompleteRoutine routine length) :
    Enters Declaration Section.elaborate (declarationOf routine) (·.kind ≠ .identifier) length := by
  intro s tree toks next setting part new folds peeked other written means short
  unfold declarationOf
  cases written with
  | constants is series nonempty =>
    rw [Section.elaborate] at means
    obtain ⟨⟨_, parts⟩, found, same⟩ := Option.bind_eq_some_iff.1 means
    cases same
    obtain ⟨t, gains, rfl, read⟩ :=
      enters_groups heads_constants enters_constantGroup folds peeked other nonempty series found
    refine ⟨t, gains, rfl, ?_⟩
    rw [bind_of_ok (peek_of ParseState.peek_put_cons), is]
    exact read
  | vars is series nonempty =>
    rw [Section.elaborate] at means
    obtain ⟨⟨_, parts⟩, found, same⟩ := Option.bind_eq_some_iff.1 means
    cases same
    obtain ⟨t, gains, rfl, read⟩ :=
      enters_groups heads_declared enters_variableGroup folds peeked other nonempty series found
    refine ⟨t, gains, rfl, ?_⟩
    rw [bind_of_ok (peek_of ParseState.peek_put_cons), is]
    exact read
  | @routine _ _ _ _ _ _ _ _ keyword _ _ _ _ _ isName params returns isSemicolon series block
      isClosing =>
    obtain ⟨t, gains, same, read⟩ :=
      h folds (.routine isName params returns isSemicolon series block isClosing) means short
    refine ⟨t, gains, same, ?_⟩
    rw [bind_of_ok (peek_of ParseState.peek_put_cons)]
    obtain ⟨_, _, _, _, _, _, _, _, -, -, -, -, -, -, rfl, -⟩ := elaborate_routine.1 means
    revert returns
    generalize keyword.kind = kind
    rintro (_ | _) <;> exact bind_of_ok read

lemma heads_declaration : Heads Kind.declaring Declaration := by
  intro tree toks written
  cases written with
  | constants is => exact ⟨_, _, rfl, by rw [is]; decide⟩
  | vars is => exact ⟨_, _, rfl, by rw [is]; decide⟩
  | @routine _ _ _ _ _ _ _ _ keyword _ _ _ _ _ _ _ returns =>
    refine ⟨keyword, _, rfl, ?_⟩
    revert returns
    generalize keyword.kind = kind
    rintro (_ | _) <;> decide

lemma introduces_declarationsOf (h : SoundRoutine routine) {s t : ParseState} {whole : Declarations}
    (ready : s.Ready) (read : declarationsOf routine s = (.ok whole, t)) :
    ∃ parts, whole = .join parts ∧
      Introduces (Series Declaration) (elaborateEach Section.elaborate) s parts t := by
  rw [declarationsOf_eq, map_eq_pure_bind] at read
  obtain ⟨parts, u, sections, done⟩ := bind_eq_ok.1 read
  obtain ⟨rfl, rfl⟩ := pure_eq_ok.1 done
  exact ⟨parts, rfl, introduces_many asks_moreDeclarations (introduces_declarationOf h) ready
    sections⟩

lemma enters_declarationsOf (h : CompleteRoutine routine length) {sections : List Section}
    {inner : List Token} {next : Token} {setting : Setting} {parts : List Declarations}
    {new : List Routine} (folds : s.folding = true)
    (peeked : s.tokens.peek = .ok next) (begins : next.kind = .beginWord)
    (series : Series Declaration sections inner)
    (means : elaborateEach Section.elaborate s.setting s.routines.length sections =
      some (setting, parts, new)) (short : inner.length ≤ length) :
    ∃ t, s.Gains new t ∧ t.setting = setting ∧
    declarationsOf routine (s.put inner) = (.ok (.join parts), t) := by
  have between : ∀ token : Token, token.kind ∈ Kind.declaring → token.kind ≠ .identifier :=
    fun token is => (by decide : ∀ kind ∈ Kind.declaring, kind ≠ .identifier) _ is
  obtain ⟨t, gains, same, read⟩ := enters_many asks_moreDeclarations heads_declaration between
    (enters_declarationOf h) folds peeked ⟨by rw [begins]; decide, by rw [begins]; decide⟩ series
    means short
  exact ⟨t, gains, same, map_of_ok read⟩

lemma sound_bodyOf (h : SoundRoutine routine) {places : List (Token × Ty)}
    {locals : List (String × Ty)} {stmt : Stmt} (ready : s.Ready)
    (read : bodyOf routine places s = (.ok (locals, stmt), t)) :
    ∃ (sections : List Section) (first last : Token) (clauses : List Clause)
    (inner toks : List Token)
      (u : ParseState) (opened : Setting) (parts : List Declarations) (new : List Routine),
      s = u.put (inner ++ toks) ∧ Series Declaration sections inner ∧
      (∀ next, Statement (.block first clauses last) toks next) ∧
      u.setting.declareAll? (storages places) = some opened ∧
      elaborateEach Section.elaborate opened u.routines.length sections =
      some (t.setting, parts, new) ∧ locals = (Declarations.join parts).vars ∧
      (Clause.block first clauses last).elaborate t.setting = some stmt ∧ u.Gains new t := by
  obtain ⟨_, u, declared, sectionsOn⟩ := bind_eq_ok.1 read
  obtain ⟨whole, v, sections, blockOn⟩ := bind_eq_ok.1 sectionsOn
  obtain ⟨body, w, closing, done⟩ := bind_eq_ok.1 blockOn
  obtain ⟨same, rfl⟩ := pure_eq_ok.1 done
  cases same
  obtain ⟨all, gains⟩ := declareAll_iff.1 declared
  rw [← gains.ready] at ready
  obtain ⟨parts, rfl, trees, inner, x, new, rfl, series, means, gains'⟩ :=
    introduces_declarationsOf h ready sections
  rw [ParseState.ready_put, ← gains'.ready] at ready
  obtain ⟨first, clauses, last, toks, rfl, written, means'⟩ := sound_block ready closing
  obtain ⟨y, rfl, gains''⟩ := gains'.put_left
  rw [ParseState.put_put] at gains
  obtain ⟨z, rfl, opened⟩ := gains.put_left
  refine ⟨trees, first, last, clauses, inner, toks, z, y.setting, parts, new, rfl, series, written,
    all, ?_, rfl, means', opened.trans gains''⟩
  have counted : y.routines.length = z.routines.length := by rw [opened.routines, List.append_nil]
  rw [← counted]
  exact means

lemma complete_bodyOf (h : CompleteRoutine routine length) {places : List (Token × Ty)}
    {sections : List Section} {first last next : Token} {clauses : List Clause}
    {inner toks : List Token} {opened setting : Setting} {parts : List Declarations}
    {new : List Routine} {stmt : Stmt} (folds : s.folding = true)
    (series : Series Declaration sections inner)
    (written : Statement (.block first clauses last) toks next)
    (all : s.setting.declareAll? (storages places) = some opened)
    (means : elaborateEach Section.elaborate opened s.routines.length sections =
      some (setting, parts, new))
    (means' : (Clause.block first clauses last).elaborate setting = some stmt)
    (short : inner.length ≤ length) :
    ∃ t, s.Gains new t ∧ t.setting = setting ∧
      bodyOf routine places (s.put (inner ++ toks)) =
        (.ok ((Declarations.join parts).vars, stmt), t) := by
  obtain ⟨u, gains, rfl⟩ := exists_gainsAll all
  have counted : u.routines.length = s.routines.length := by rw [gains.routines, List.append_nil]
  have begins : ∃ rest, toks = first :: rest ∧ first.kind = .beginWord := by
    cases written with
    | block isFirst => exact ⟨_, rfl, isFirst⟩
  obtain ⟨rest, e, isFirst⟩ := begins
  rw [← counted] at means
  obtain ⟨v, gains', rfl, sectionsRead⟩ := enters_declarationsOf h (s := u.put toks)
    (gains.folding.trans folds) (by rw [e]; rfl) isFirst series means short
  obtain ⟨w, rfl, gained⟩ := gains'.put_right
  rw [ParseState.put_put] at sectionsRead
  have folds' : w.folding = true := (gained.folding.trans gains.folding).trans folds
  refine ⟨w, gains.trans gained, rfl, ?_⟩
  have declared := (declareAll_iff (s := s.put (inner ++ toks)) (t := u.put (inner ++ toks))).2
    ⟨all, gains.put (inner ++ toks)⟩
  unfold bodyOf
  refine (bind_of_ok declared).trans ?_
  rw [bind_of_ok sectionsRead, bind_of_ok (complete_block folds' written means')]
  rfl

lemma modify_append (front : List α) (a : α) (behind : List α) (f : α → α) :
    (front ++ a :: behind).modify front.length f = front ++ f a :: behind := by
  induction front with
  | nil => rfl
  | cons b rest ih => exact congrArg (b :: ·) ih

/-- What has been gained once a routine is complete, from what was gained at its head and in its
body. -/
lemma gains_complete {id : RoutineId} {head : Routine} {new : List Routine}
    {locals : List (String × Ty)} {stmt : Stmt} {u v : ParseState} (headed : s.Gains [head] u)
    (counted : id = s.routines.length) (bodied : (inside u id).Gains new v) :
    ∃ w, complete id locals stmt (outside v) = (.ok (), w) ∧
      s.Gains ({ head with locals, body := stmt } :: new) w ∧
      w.setting = { u.setting with scopes := v.setting.scopes.pop } := by
  have enclosing : v.enclosing.tail = u.enclosing := by
    rw [bodied.enclosing]
    rfl
  refine ⟨_, rfl, ⟨bodied.tokens.trans headed.tokens, ?_, enclosing.trans headed.enclosing,
    bodied.inConstant.trans headed.inConstant, bodied.folding.trans headed.folding⟩, ?_⟩
  · have before : v.routines = s.routines ++ head :: new := by
      rw [bodied.routines, ← List.singleton_append, ← List.append_assoc, ← headed.routines]
      rfl
    change v.routines.modify id _ = _
    rw [before, counted, modify_append]
  · have inConstant : v.inConstant = u.inConstant := bodied.inConstant
    change Setting.mk v.scopes.pop v.inConstant v.enclosing.tail.head? = _
    rw [enclosing, inConstant]
    rfl

lemma sound_routineOf (h : SoundRoutine routine) : SoundRoutine (routineOf routine) := by
  intro s t keyword ready peeked is read
  obtain ⟨⟨head, name, places⟩, u, headed, enterOn⟩ := bind_eq_ok.1 read
  obtain ⟨id, v, entered, bodyOn⟩ := bind_eq_ok.1 enterOn
  obtain ⟨⟨locals, stmt⟩, w, within, closeOn⟩ := bind_eq_ok.1 bodyOn
  obtain ⟨closing, x, closed, completing⟩ := bind_eq_ok.1 closeOn
  have isRoutine : keyword.kind = .functionWord ∨ keyword.kind = .procedureWord := by
    simpa [Kind.routines] using is
  obtain ⟨params, returns, front, middle, semicolon, rfl, isName, written, written', isSemicolon,
      means⟩ :=
    sound_routineHead ready peeked isRoutine headed
  obtain ⟨counted, declared, gains⟩ := enter_iff.1 entered
  rw [ParseState.ready_put, ← gains.ready] at ready
  obtain ⟨y, bodied, rfl⟩ := inRoutine_iff.1 within
  obtain ⟨sections, first, last, clauses, inner, toks, z, opened, parts, new, located, series,
    written'', all, means', rfl, means'', gains'⟩ := sound_bodyOf h (s := inside v id)
    ⟨ready.folding, ready.last⟩ bodied
  have readyBody : y.Ready := by
    rw [gains'.ready, ← ParseState.ready_put, ← located]
    exact ⟨ready.folding, ready.last⟩
  obtain ⟨isClosing, closed⟩ := put_of_expect (s := outside y) ⟨readyBody.folding, readyBody.last⟩
    (by decide) closed
  -- the tokens of the body and behind it were there at the head already
  obtain ⟨y, rfl, rfl⟩ := put_of_shifted closed
  obtain ⟨z, rfl, bodyGains⟩ := gains'.put_left
  rw [ParseState.put_put] at located
  obtain ⟨v, rfl, rfl⟩ := put_of_shifted located
  obtain ⟨u, rfl, headGains⟩ := gains.put_left
  obtain ⟨t', completed, all', same⟩ := gains_complete headGains counted bodyGains
  obtain rfl : t' = t := congrArg Prod.snd (completed.symm.trans completing)
  refine ⟨.routine keyword name params returns sections (.block first clauses last),
    keyword :: name :: (front ++ (middle ++ semicolon :: (inner ++ (toks ++ [closing])))), u, _,
    by simp, .routine isName written written' isSemicolon series (written'' closing) isClosing, ?_,
    all'⟩
  have numbered : v.routines.length = u.routines.length + 1 :=
    (congrArg List.length headGains.routines).trans (List.length_append ..)
  have nested : elaborateEach Section.elaborate opened v.routines.length sections =
      some (y.setting, parts, new) :=
    means'
  rw [numbered] at nested
  subst counted
  exact elaborate_routine.2 ⟨head, places, v.setting, opened, y.setting, parts, new, stmt, means,
    declared, all, nested, means'', same, rfl, rfl⟩

lemma complete_routineOf (h : CompleteRoutine routine length) :
    CompleteRoutine (routineOf routine) (length + 1) := by
  intro s keyword name params returns sections body toks setting part new folds written means short
  obtain ⟨head, places, outer, opened, inner, parts, others, stmt, found, declared, all, nested,
    means', rfl, rfl, rfl⟩ := elaborate_routine.1 means
  cases written with
  | @routine _ _ _ clauses front middle between block _ _ semicolon first last closing isName
      params' returns' isSemicolon series written isClosing =>
    simp only [List.length_cons, List.length_append] at short
    obtain ⟨v, headGains, rfl⟩ := exists_gains_head head declared
    have numbered : v.routines.length = s.routines.length + 1 :=
      (congrArg List.length headGains.routines).trans (List.length_append ..)
    rw [← numbered] at nested
    obtain ⟨w', gains, same, bodied⟩ :=
      complete_bodyOf h (s := (inside v s.routines.length).put [closing])
        (headGains.folding.trans folds) series written all nested means' (by omega)
    obtain ⟨w, rfl, bodyGains⟩ := gains.put_right
    obtain ⟨t, completed, gained, setting⟩ := gains_complete headGains rfl bodyGains
    rw [← same]
    refine ⟨t, gained, setting, ?_⟩
    have headed := complete_routineHead (s := s.put (between ++ (block ++ [closing]))) folds isName
      params' returns' isSemicolon found
    have entered := (enter_iff (s := s.put (between ++ (block ++ [closing]))) (t := v.put _)).2
      ⟨rfl, declared, headGains.put (between ++ (block ++ [closing]))⟩
    rw [ParseState.put_put, List.append_assoc] at bodied
    have within := (inRoutine_iff (s := v.put (between ++ (block ++ [closing])))).2 ⟨_, bodied, rfl⟩
    rw [ParseState.put_put] at headed
    simp only [List.cons_append, List.append_assoc, List.nil_append] at headed
    unfold routineOf
    refine (bind_of_ok headed).trans ?_
    refine (bind_of_ok entered).trans ?_
    refine (bind_of_ok within).trans ?_
    refine (bind_of_ok (expect_put (s := outside w) isClosing)).trans ?_
    exact completed

end

lemma sound_routineWithin : ∀ bound, SoundRoutine (routineWithin bound)
  | 0 => fun _ _ _ _ _ _ read => absurd read exhausted_ne_ok
  | bound + 1 => fun _ _ _ ready peeked is read =>
    sound_routineOf (sound_routineWithin bound) ready peeked is read

lemma complete_routineWithin : ∀ length, CompleteRoutine (routineWithin length) length
  | 0 => by
    intro s _ _ _ _ _ _ toks _ _ _ _ written _ short
    obtain ⟨first, rest, rfl, -⟩ := heads_declaration written
    cases short
  | length + 1 => fun _ _ _ _ _ _ _ _ _ _ _ folds written means short =>
    complete_routineOf (complete_routineWithin length) folds written means short

lemma sound_routine : SoundRoutine routine := by
  intro s t token ready peeked is read
  obtain ⟨bound, _, counted, within⟩ := bind_eq_ok.1 read
  obtain rfl := budget_eq_ok counted
  exact sound_routineWithin bound ready peeked is within

lemma complete_routine (length : Nat) : CompleteRoutine routine length := by
  intro s keyword name params returns sections body toks setting part new folds written means _
  unfold routine
  rw [bind_of_ok budget_self]
  refine complete_routineWithin _ folds written means ?_
  rw [ParseState.length_put]
  omega

end Parse

end SmallPascal
