import Mathlib.Data.List.Infix
import SmallPascal.Proofs.Fitting

/-! What a stack of scopes remembers of its history. A name means what its last successful
declaration in the innermost scope says that is still open and has one; scopes that have been closed
again leave no trace. -/

namespace SmallPascal

namespace Scopes

/-! ### Histories -/

inductive Action where
  | push | pop | declare (symbol : Symbol) | resolve (name : String)

/-- The scopes behind an action. A declaration that is refused changes nothing. -/
def Action.behind (scopes : Scopes) : Action → Scopes
  | .push => scopes.push
  | .pop => scopes.pop
  | .declare symbol => (scopes.declare symbol).toOption.getD scopes
  | .resolve _ => scopes

def after (history : List Action) : Scopes := history.foldl Action.behind .empty

/-- How many scopes are open inside that of the program behind a history: its pushes and pops
decide. -/
def nesting (history : List Action) : Nat :=
  history.foldl (fun n action =>
    match action with
    | .push => n + 1
    | .pop => n - 1
    | _ => n) 0

/-- The symbol was declared with success, in a scope with `n` others around it that has not been
closed since then. -/
def Declared (history : List Action) (n : Nat) (symbol : Symbol) : Prop :=
  ∃ before more, history = before ++ .declare symbol :: more ∧
    (∃ scopes, (after before).declare symbol = .ok scopes) ∧ nesting before = n ∧
    ∀ part, part <+: more → n ≤ nesting (before ++ .declare symbol :: part)

/-- Every scope that is opened is closed again, and no others are. -/
inductive Balanced : List Action → Prop
  | none : Balanced []
  | declare (symbol : Symbol) {rest : List Action} :
    Balanced rest → Balanced (.declare symbol :: rest)
  | resolve (name : String) {rest : List Action} : Balanced rest → Balanced (.resolve name :: rest)
  | nest {inner rest : List Action} : Balanced inner → Balanced rest →
    Balanced (.push :: (inner ++ .pop :: rest))

variable {history inner later : List Action} {action : Action} {n : Nat} {symbol : Symbol}
    {name : String}

lemma Action.behind_of_error {scopes : Scopes} {d : Diagnostic}
    (h : scopes.declare symbol = .error d) :
    Action.behind scopes (.declare symbol) = scopes := by
  rw [Action.behind, h]
  rfl

lemma Action.behind_of_ok {scopes scopes' : Scopes} (h : scopes.declare symbol = .ok scopes') :
    Action.behind scopes (.declare symbol) = scopes' := by
  rw [Action.behind, h]
  rfl

lemma after_append (history later : List Action) :
    after (history ++ later) = later.foldl Action.behind (after history) := by
  simp [after]

lemma after_concat (history : List Action) (action : Action) :
    after (history ++ [action]) = action.behind (after history) := by
  simp [after]

@[simp] lemma nesting_push : nesting (history ++ [.push]) = nesting history + 1 := by simp [nesting]

@[simp] lemma nesting_pop : nesting (history ++ [.pop]) = nesting history - 1 := by simp [nesting]

@[simp] lemma nesting_declare : nesting (history ++ [.declare symbol]) = nesting history := by
  simp [nesting]

@[simp] lemma nesting_resolve : nesting (history ++ [.resolve name]) = nesting history := by
  simp [nesting]

/-! ### What is declared -/

lemma Declared.le (h : Declared history n symbol) : n ≤ nesting history := by
  obtain ⟨before, more, rfl, -, -, stays⟩ := h
  exact stays more List.prefix_rfl

lemma declared_concat : Declared (history ++ [action]) n symbol ↔
    Declared history n symbol ∧ n ≤ nesting (history ++ [action]) ∨
      action = .declare symbol ∧ (∃ scopes, (after history).declare symbol = .ok scopes) ∧
        nesting history = n := by
  constructor
  · rintro ⟨before, more, whole, accepted, rfl, stays⟩
    rcases List.eq_nil_or_concat more with rfl | ⟨more, last, rfl⟩
    · obtain ⟨rfl, same⟩ := List.append_inj' whole rfl
      cases same
      exact .inr ⟨rfl, accepted, rfl⟩
    · rw [List.concat_eq_append] at whole stays
      have whole : history ++ [action] = (before ++ .declare symbol :: more) ++ [last] := by
        simpa using whole
      obtain ⟨rfl, same⟩ := List.append_inj' whole rfl
      obtain rfl := List.singleton_inj.1 same
      refine .inl ⟨⟨before, more, rfl, accepted, rfl, fun part begins => ?_⟩, ?_⟩
      · exact stays part (begins.trans (List.prefix_append _ _))
      · simpa using stays _ List.prefix_rfl
  · rintro (⟨⟨before, more, rfl, accepted, rfl, stays⟩, still⟩ | ⟨rfl, accepted, rfl⟩)
    · refine ⟨before, more ++ [action], by simp, accepted, rfl, fun part begins => ?_⟩
      rcases List.prefix_concat_iff.1 begins with rfl | begins
      · simpa using still
      · exact stays part begins
    · refine ⟨history, [], rfl, accepted, rfl, fun part begins => ?_⟩
      obtain rfl := List.prefix_nil.1 begins
      simp

/-! ### What the scopes record -/

/-- The scopes, the innermost first, have exactly the symbols that are declared in them. -/
def Recorded (history : List Action) : List Scope → Prop
  | [] => True
  | scope :: outer =>
    (∀ name symbol, scope.find? name = some symbol ↔
      symbol.name = name ∧ Declared history outer.length symbol) ∧ Recorded history outer

lemma Recorded.congr {history' : List Action} {scopes : List Scope} (h : Recorded history scopes)
    (same : ∀ n < scopes.length, ∀ symbol, Declared history' n symbol ↔ Declared history n symbol) :
    Recorded history' scopes := by
  induction scopes with
  | nil => trivial
  | cons scope outer ih =>
    rw [List.length_cons] at same
    refine ⟨fun name symbol => ?_, ih h.2 fun n less => same n (by omega)⟩
    rw [same outer.length (by omega) symbol]
    exact h.1 name symbol

lemma Recorded.undeclared {scope : Scope} {outer : List Scope}
    (h : Recorded history (scope :: outer))
    (none : scope.find? name = none) {other : Symbol} (named : other.name = name) :
    ¬ Declared history outer.length other := by
  intro declared
  rw [(h.1 name other).2 ⟨named, declared⟩] at none
  cases none

/-- The first scope that has a name is the innermost one in which it is declared. -/
lemma Recorded.findSome? {scopes : List Scope} (h : Recorded history scopes) :
    scopes.findSome? (·.find? name) = some symbol ↔ symbol.name = name ∧ ∃ n < scopes.length,
      Declared history n symbol ∧ ∀ m < scopes.length, ∀ other, other.name = name →
        Declared history m other → m ≤ n := by
  induction scopes with
  | nil => simp
  | cons scope outer ih =>
    have head := h.1 name
    rw [List.findSome?_cons, List.length_cons]
    rcases found : scope.find? name with _ | first
    · rw [ih h.2]
      refine and_congr_right fun named => ⟨?_, ?_⟩
      · rintro ⟨n, less, declared, innermost⟩
        refine ⟨n, by omega, declared, fun m less' other named' declared' => ?_⟩
        have apart : m ≠ outer.length := by
          rintro rfl
          exact h.undeclared found named' declared'
        exact innermost m (by omega) other named' declared'
      · rintro ⟨n, less, declared, innermost⟩
        have apart : n ≠ outer.length := by
          rintro rfl
          exact h.undeclared found named declared
        exact ⟨n, by omega, declared, fun m less' => innermost m (by omega)⟩
    · obtain ⟨named, declared⟩ := (head first).1 found
      constructor
      · rintro ⟨⟩
        exact ⟨named, outer.length, by omega, declared, fun m less _ _ _ => by omega⟩
      · rintro ⟨named', n, less, declared', innermost⟩
        have above := innermost outer.length (by omega) first named declared
        obtain rfl : n = outer.length := by omega
        exact found.symm.trans ((head symbol).2 ⟨named', declared'⟩)

lemma Recorded.findSome?_eq_none {scopes : List Scope} (h : Recorded history scopes) :
    scopes.findSome? (·.find? name) = none ↔ ∀ n < scopes.length, ∀ symbol, symbol.name = name →
      ¬ Declared history n symbol := by
  induction scopes with
  | nil => simp
  | cons scope outer ih =>
    have head := h.1 name
    rw [List.findSome?_cons, List.length_cons]
    rcases found : scope.find? name with _ | first
    · rw [ih h.2]
      constructor
      · intro none n less symbol named declared
        rcases Nat.lt_succ_iff_lt_or_eq.1 less with less | rfl
        · exact none n less symbol named declared
        · exact h.undeclared found named declared
      · exact fun none n less => none n (by omega)
    · obtain ⟨named, declared⟩ := (head first).1 found
      exact iff_of_false nofun fun none => none outer.length (by omega) first named declared

lemma exists_levels (scopes : Scopes) :
    ∃ outer, scopes.levels = scopes.current :: outer ∧ outer.length = scopes.nested.length := by
  rcases scopes with ⟨program, _ | ⟨inner, outer⟩⟩
  · exact ⟨[], rfl, rfl⟩
  · exact ⟨outer ++ [program], rfl, by simp⟩

lemma length_levels (scopes : Scopes) : scopes.levels.length = scopes.nested.length + 1 := by
  simp [levels]

lemma find?_cons (symbol : Symbol) (scope : Scope) (name : String) :
    Scope.find? (symbol :: scope) name =
      if symbol.name = name then some symbol else scope.find? name := by
  unfold Scope.find?
  rw [List.find?_cons]
  by_cases same : symbol.name = name
  · simp [same]
  · rw [if_neg same, beq_false_of_ne same]

/-- A declaration is refused if the innermost scope has the name, and succeeds otherwise. -/
lemma declare_eq (scopes : Scopes) (symbol : Symbol) : scopes.declare symbol =
    match scopes.current.find? symbol.name with
    | some first => .error ⟨.semantic (.redeclared symbol.name first), symbol.span⟩
    | none => .ok (scopes.setCurrent (symbol :: scopes.current)) := rfl

lemma declared_still (plain : ∀ symbol scopes, action = .declare symbol →
      (after history).declare symbol ≠ .ok scopes) (less : n ≤ nesting (history ++ [action])) :
    Declared (history ++ [action]) n symbol ↔ Declared history n symbol := by
  rw [declared_concat]
  constructor
  · rintro (⟨declared, -⟩ | ⟨same, ⟨scopes, accepted⟩, -⟩)
    · exact declared
    · exact absurd accepted (plain symbol scopes same)
  · exact fun declared => .inl ⟨declared, less⟩

lemma declared_outside {other : Symbol} (less : n < nesting history) :
    Declared (history ++ [.declare symbol]) n other ↔ Declared history n other := by
  rw [declared_concat, nesting_declare]
  constructor
  · rintro (⟨old, -⟩ | ⟨-, -, above⟩)
    · exact old
    · omega
  · exact fun old => .inl ⟨old, by omega⟩

lemma fresh_of_declare {scopes scopes' : Scopes} (h : scopes.declare symbol = .ok scopes') :
    scopes.current.find? symbol.name = none := by
  rw [declare_eq] at h
  split at h
  · cases h
  next fresh => exact fresh

/-- A scope in which a new name is declared has what was declared there before, and the new
symbol. -/
lemma find?_declared {scope : Scope}
    (accepted : ∃ scopes, (after history).declare symbol = .ok scopes)
    (fresh : scope.find? symbol.name = none)
    (has : ∀ name other, scope.find? name = some other ↔
      other.name = name ∧ Declared history (nesting history) other) (name : String)
      (other : Symbol) :
    Scope.find? (symbol :: scope) name = some other ↔
      other.name = name ∧ Declared (history ++ [.declare symbol]) (nesting history) other := by
  rw [find?_cons, declared_concat, nesting_declare]
  split
  next same =>
    -- no other symbol of the name can be declared there
    subst same
    have clash := has symbol.name other
    rw [fresh] at clash
    constructor
    · rintro ⟨⟩
      exact ⟨rfl, .inr ⟨rfl, accepted, rfl⟩⟩
    · rintro ⟨named, ⟨old, -⟩ | ⟨new, -, -⟩⟩
      · cases clash.2 ⟨named, old⟩
      · cases new
        rfl
  next apart =>
    rw [has]
    refine and_congr_right fun named => ⟨fun old => .inl ⟨old, Nat.le_refl _⟩, ?_⟩
    rintro (⟨old, -⟩ | ⟨new, -, -⟩)
    · exact old
    · cases new
      exact absurd named apart

structure Records (history : List Action) (scopes : Scopes) : Prop where
  length : scopes.nested.length = nesting history
  recorded : Recorded history scopes.levels

namespace Records

variable {scopes : Scopes}

lemma push (h : Records history scopes) : Records (history ++ [.push]) scopes.push where
  length := by simp [Scopes.push, h.length]
  recorded := by
    have total := length_levels scopes
    have length := h.length
    refine ⟨fun name symbol => ?_, h.recorded.congr fun n less symbol => ?_⟩
    · -- the new scope is above all that were open
      refine iff_of_false nofun ?_
      rintro ⟨-, declared⟩
      rw [declared_still (by rintro _ _ ⟨⟩) declared.le] at declared
      have below := declared.le
      change scopes.levels.length ≤ _ at below
      omega
    · refine declared_still (by rintro _ _ ⟨⟩) ?_
      rw [nesting_push]
      omega

lemma pop (h : Records history scopes) : Records (history ++ [.pop]) scopes.pop where
  length := by simp [Scopes.pop, h.length]
  recorded := by
    have outer : Recorded history scopes.pop.levels := by
      rcases scopes with ⟨program, _ | ⟨inner, outer⟩⟩
      · exact h.recorded
      · exact h.recorded.2
    refine outer.congr fun n less symbol => declared_still (by rintro _ _ ⟨⟩) ?_
    have total := length_levels scopes.pop
    have fewer : scopes.pop.nested.length = scopes.nested.length - 1 := List.length_tail
    have length := h.length
    rw [nesting_pop]
    omega

/-- What is no successful declaration and opens or closes no scope leaves the record as it was. -/
lemma stays (h : Records history scopes) (plain : ∀ symbol scopes, action = .declare symbol →
    (after history).declare symbol ≠ .ok scopes)
    (same : nesting (history ++ [action]) = nesting history) :
    Records (history ++ [action]) scopes := by
  have total := length_levels scopes
  have length := h.length
  refine ⟨by rw [same, length], h.recorded.congr fun n less symbol => declared_still plain ?_⟩
  omega

lemma declare (h : Records history (after history)) (symbol : Symbol) :
    Records (history ++ [.declare symbol]) (Action.behind (after history) (.declare symbol)) := by
  rcases declared : (after history).declare symbol with d | scopes
  · rw [Action.behind_of_error declared]
    refine h.stays ?_ nesting_declare
    rintro _ scopes ⟨⟩ accepted
    rw [declared] at accepted
    cases accepted
  · rw [Action.behind_of_ok declared]
    obtain ⟨length, recorded⟩ := h
    obtain ⟨outer, levels, around⟩ := exists_levels (after history)
    obtain ⟨inner, outer', before, later⟩ := levels_declare declared
    rw [levels] at before
    cases before
    have total := length_levels scopes
    rw [later, List.length_cons] at total
    rw [levels] at recorded
    refine ⟨by rw [nesting_declare]; omega, ?_⟩
    rw [later]
    refine ⟨fun name other => ?_, recorded.2.congr fun n less other => declared_outside (by omega)⟩
    rw [around, length]
    refine find?_declared ⟨scopes, declared⟩ (fresh_of_declare declared)
      (fun name other => ?_) name other
    rw [← length, ← around]
    exact recorded.1 name other

end Records

/-- **The scopes record their history.** -/
lemma records_after (history : List Action) : Records history (after history) := by
  induction history using List.reverseRecOn with
  | nil =>
    refine ⟨rfl, fun name symbol => iff_of_false nofun ?_, trivial⟩
    rintro ⟨-, before, more, whole, -⟩
    simp at whole
  | append_singleton history action ih =>
    rw [after_concat]
    cases action with
    | push => exact ih.push
    | pop => exact ih.pop
    | declare symbol => exact ih.declare symbol
    | resolve name =>
      exact ih.stays (by rintro _ _ ⟨⟩) nesting_resolve

/-! ### Scopes that are closed again -/

lemma declare_behind (scopes : Scopes) (symbol : Symbol) :
    Action.behind scopes (.declare symbol) = scopes ∨
      ∃ scope, Action.behind scopes (.declare symbol) = scopes.setCurrent scope := by
  rw [Action.behind, declare_eq]
  split
  · exact .inl rfl
  · exact .inr ⟨_, rfl⟩

lemma Balanced.pop_behind (h : Balanced inner) : ∀ scopes : Scopes, scopes.nested ≠ [] →
    (inner.foldl Action.behind scopes).nested ≠ [] ∧
      (inner.foldl Action.behind scopes).pop = scopes.pop := by
  induction h with
  | none => exact fun scopes inside => ⟨inside, rfl⟩
  | declare symbol _ ih =>
    intro scopes inside
    rw [List.foldl_cons]
    obtain same | ⟨scope, changed⟩ := declare_behind scopes symbol
    · rw [same]
      exact ih scopes inside
    · rw [changed]
      rcases scopes with ⟨program, _ | ⟨first, outer⟩⟩
      · exact absurd rfl inside
      · exact ih _ nofun
  | resolve name _ ih => exact ih
  | nest _ _ ihi ihr =>
    intro scopes inside
    rw [List.foldl_cons, List.foldl_append, List.foldl_cons]
    change (List.foldl _ (List.foldl Action.behind scopes.push _).pop _).nested ≠ [] ∧
      (List.foldl _ (List.foldl Action.behind scopes.push _).pop _).pop = _
    rw [(ihi scopes.push nofun).2, pop_push]
    exact ihr scopes inside

lemma after_balanced (h : Balanced inner) (history later : List Action) :
    after (history ++ .push :: (inner ++ .pop :: later)) = after (history ++ later) := by
  rw [after_append, after_append, List.foldl_cons, List.foldl_append, List.foldl_cons]
  change List.foldl _ (List.foldl Action.behind (after history).push inner).pop later = _
  rw [(h.pop_behind (after history).push nofun).2, pop_push]

/-! ### Names -/

lemma Declared.lt (h : Declared history n symbol) : n < (after history).levels.length := by
  have below := h.le
  rw [length_levels, (records_after history).length]
  omega

lemma find?_current : (after history).current.find? name = some symbol ↔
    symbol.name = name ∧ Declared history (nesting history) symbol := by
  obtain ⟨outer, levels, around⟩ := exists_levels (after history)
  have recorded := (records_after history).recorded
  rw [levels] at recorded
  have found := recorded.1 name symbol
  rwa [around, (records_after history).length] at found

/-- **Names are looked up from the innermost scope outward.** Behind any history a name means the
symbol of its successful declaration in the innermost scope that is still open and has one. A
declaration is refused exactly if the innermost scope has its name; then nothing changes, and the
advice names the first declaration. Scopes that have been opened and closed leave no trace, and the
scope of the program stays. -/
theorem resolves_innermost (history : List Action) :
    (∀ name symbol, (after history).resolve name = some symbol ↔ symbol.name = name ∧
      ∃ n, Declared history n symbol ∧
        ∀ m other, other.name = name → Declared history m other → m ≤ n) ∧
    (∀ name, (after history).resolve name = none ↔
      ∀ n symbol, symbol.name = name → ¬ Declared history n symbol) ∧
    (∀ symbol d, (after history).declare symbol = .error d ↔
      ∃ first, first.name = symbol.name ∧ Declared history (nesting history) first ∧
        d = ⟨.semantic (.redeclared symbol.name first), symbol.span⟩ ∧
        d.fault.help? = some
          ("'" ++ first.name ++ "' was first declared as a " ++ first.meaning.noun ++ " at line " ++
            digits first.span.line ++ ", column " ++ digits first.span.column ++ ".")) ∧
    (∀ symbol d, (after history).declare symbol = .error d →
      after (history ++ [.declare symbol]) = after history ∧
        ∀ s : ParseState, s.scopes = after history → Parse.declare symbol s = (.error d, s)) ∧
    (∀ inner, Balanced inner → ∀ later,
      after (history ++ .push :: (inner ++ .pop :: later)) = after (history ++ later)) ∧
    (nesting history = 0 → after (history ++ [.pop]) = after history) := by
  have found {name : String} {symbol : Symbol} : (after history).resolve name = some symbol ↔
      symbol.name = name ∧ ∃ n, Declared history n symbol ∧
        ∀ m other, other.name = name → Declared history m other → m ≤ n := by
    refine (records_after history).recorded.findSome?.trans (and_congr_right fun named => ⟨?_, ?_⟩)
    · rintro ⟨n, -, declared, innermost⟩
      exact ⟨n, declared, fun m other named' declared' =>
        innermost m declared'.lt other named' declared'⟩
    · rintro ⟨n, declared, innermost⟩
      exact ⟨n, declared.lt, declared, fun m _ => innermost m⟩
  refine ⟨fun name symbol => found, fun name => ?_, fun symbol d => ?_, fun symbol d refused => ?_,
    fun inner balanced => after_balanced balanced history, fun bottom => ?_⟩
  · exact (records_after history).recorded.findSome?_eq_none.trans
      ⟨fun none n symbol named declared => none n declared.lt symbol named declared,
        fun none n _ => none n⟩
  · rw [declare_eq]
    rcases present : (after history).current.find? symbol.name with _ | first
    · refine iff_of_false nofun ?_
      rintro ⟨first, named, declared, -⟩
      rw [find?_current.2 ⟨named, declared⟩] at present
      cases present
    · obtain ⟨named, declared⟩ := find?_current.1 present
      constructor
      · rintro ⟨⟩
        exact ⟨first, named, declared, rfl, rfl⟩
      · rintro ⟨other, named', declared', rfl, -⟩
        rw [find?_current.2 ⟨named', declared'⟩] at present
        cases present
        rfl
  · constructor
    · rw [after_concat, Action.behind_of_error refused]
    · intro s standing
      unfold Parse.declare
      rw [Steps.bind_of_ok Steps.get_self, standing, refused]
      rfl
  · rw [after_concat]
    exact pop_of_nested_eq_nil
      (List.length_eq_zero_iff.1 ((records_after history).length.trans bottom))

/-- An inner declaration hides the outer one until its scope is closed, and bars its name
meanwhile. -/
theorem resolves_innermost_shadowed :
    let outer : Symbol := ⟨"x", .var, .integer, ⟨4, 5, 1, 5⟩⟩
    let inner : Symbol := ⟨"x", .constant (.boolean true), .boolean, ⟨20, 21, 2, 7⟩⟩
    let again : Symbol := ⟨"x", .var, .real, ⟨30, 31, 3, 5⟩⟩
    let history : List Action := [.declare outer, .push, .declare inner]
    (after history).resolve "x" = some inner ∧ (after history).resolve "y" = none ∧
      (∃ d, (after history).declare again = .error d ∧ d.span = again.span ∧
        d.fault.help? = some "'x' was first declared as a constant at line 2, column 7." ∧
        after (history ++ [.declare again]) = after history) ∧
      (after (history ++ [.declare again, .pop])).resolve "x" = some outer ∧
      after [.declare outer, .pop] = after [.declare outer] := by
  intro outer inner again history
  have inside : Declared history 1 inner :=
    ⟨[.declare outer, .push], [], rfl, ⟨_, rfl⟩, rfl, fun part begins => by
      obtain rfl := List.prefix_nil.1 begins
      exact Nat.le_refl 1⟩
  have outside : Declared [.declare outer] 0 outer :=
    ⟨[], [], rfl, ⟨_, rfl⟩, rfl, fun part _ => Nat.zero_le _⟩
  obtain ⟨found, missing, refused, kept, -, -⟩ := resolves_innermost history
  obtain ⟨single, -, -, -, closed, bottom⟩ := resolves_innermost [.declare outer]
  have none : (after history).resolve "y" = none := by
    refine (missing "y").2 fun n symbol named ⟨before, more, whole, _⟩ => ?_
    have among : Action.declare symbol ∈ history := by simp [whole]
    obtain rfl | rfl : symbol = outer ∨ symbol = inner := by simpa [history] using among
    all_goals exact absurd named (by decide)
  have first :
    (after history).declare again = .error ⟨.semantic (.redeclared "x" inner), again.span⟩ :=
    ((refused again _).2 ⟨inner, rfl, inside, rfl, rfl⟩)
  have balanced : Balanced [.declare inner, .declare again] := .declare inner (.declare again .none)
  refine ⟨(found "x" inner).2 ⟨rfl, 1, inside, fun m _ _ declared => declared.le⟩, none,
    ⟨_, first, rfl, by decide +kernel, (kept again _ first).1⟩, ?_, bottom rfl⟩
  refine (congrArg (resolve · "x") (closed _ balanced [])).trans ((single "x" outer).2 ?_)
  exact ⟨rfl, 0, outside, fun m _ _ declared => declared.le⟩

end Scopes

end SmallPascal
