import SmallPascal.Proofs.ExpressionRecognition

/-!
Statements are read as the grammar has them. What a name means tells an assignment from a call, and
an `else` is taken by the statement inside which it is seen first.
-/

namespace SmallPascal

open Steps Grammar

/-- The kinds of tokens that may stand behind a statement. -/
def Kind.closing : List Kind := [.semicolon, .endWord, .elseWord]

/-- The token may stand behind a statement. -/
def Token.Closes (token : Token) : Prop := token.kind ∈ Kind.closing

lemma Token.closes {token : Token} {kind : Kind} (is : token.kind = kind)
    (h : kind ∈ Kind.closing) : token.Closes := by
  subst is
  exact h

lemma Token.Closes.ends {token : Token} (h : token.Closes) : token.Ends :=
  Token.ends rfl ((by decide : ∀ kind ∈ Kind.closing, kind ∈ Kind.closers) _ h)

lemma Token.Closes.ne_leftParen {token : Token} (h : token.Closes) : token.kind ≠ .leftParen :=
  (by decide : ∀ kind ∈ Kind.closing, kind ≠ .leftParen) _ h

namespace Grammar

/-- Something behind a token of the given kind. -/
def After {τ : Type} (kind : Kind) (writing : Writing τ) : Writing τ := fun tree toks next =>
  ∃ mark rest, mark.kind = kind ∧ toks = mark :: rest ∧ writing tree rest next

lemma Series.concat {τ : Type} {item : τ → List Token → Prop} {trees : List τ} {tree : τ}
    {front behind : List Token} (h : Series item trees front) (last : item tree behind) :
    Series item (trees ++ [tree]) (front ++ behind) := by
  induction h with
  | none => simpa using Series.more last .none
  | more first _ ih =>
    rw [List.append_assoc]
    exact .more first ih

end Grammar

lemma Phrase.path?_concat {setting : Setting} {es : List Phrase} {e : Phrase} {type item : Ty}
    {steps : List IndexStep} {low high : Integer} {index : Expr}
    (front : path? setting es type = some (steps, .array low high item))
    (last : (e.elaborate setting >>= (·.typed? .integer)) = some index) :
    path? setting (es ++ [e]) type = some (steps ++ [⟨index, low, high, item⟩], item) := by
  induction es generalizing type steps with
  | nil =>
    cases front
    obtain ⟨raw, means, integer⟩ := Option.bind_eq_some_iff.1 last
    simp [path?, means, integer]
  | cons first rest ih =>
    cases type with
    | array low' high' item' =>
      simp only [path?, List.cons_append, Option.bind_eq_bind, Option.bind_eq_some_iff] at front ⊢
      obtain ⟨raw, means, index', integer, ⟨steps', last'⟩, behind, same⟩ := front
      cases same
      exact ⟨raw, means, index', integer, _, ih behind, rfl⟩
    | _ => cases front

namespace Parse

variable {α β τ : Type} {s t : ParseState}

/-! ### Marks -/

lemma Sound.after {writing : Writing τ} {meaning : Setting → τ → Option α} {kind : Kind}
    {p : Token → Parse α} (notEnd : kind ≠ .endOfText)
    (h : ∀ mark, Sound writing meaning (p mark)) :
    Sound (After kind writing) meaning (expect kind >>= p) := by
  intro s a t ready read
  obtain ⟨mark, u, taken, more⟩ := bind_eq_ok.1 read
  obtain ⟨is, rfl⟩ := put_of_expect ready notEnd taken
  obtain ⟨tree, toks, rfl, written, means⟩ := h mark (ParseState.ready_put.1 ready) more
  exact ⟨tree, mark :: toks, by simp, fun next peeked => ⟨mark, toks, is, rfl, written next peeked⟩,
    means⟩

lemma Complete.after {writing : Writing τ} {meaning : Setting → τ → Option α} {kind : Kind}
    {p : Token → Parse α} {before : Token → Prop} {length : Nat}
    (h : ∀ mark, Complete writing meaning (p mark) before length) :
    Complete (After kind writing) meaning (expect kind >>= p) before (length + 1) := by
  intro s tree toks next a folds peeked ends written means short
  obtain ⟨mark, rest, is, rfl, written⟩ := written
  rw [bind_of_ok (expect_put is)]
  exact h mark folds peeked ends written means (Nat.le_of_succ_le_succ short)

/-! ### Assignments -/

lemma sound_assigned (target : Token) (type : Ty) :
    Sound (After .assign Expression) (fun setting e => e.elaborate setting >>= (·.fitted? type))
      (assigned target type) :=
  .after (by decide) fun _ => sound_expression.decide fun _ => .coerce _ _ _ _

lemma complete_assigned (target : Token) (type : Ty) (length : Nat) :
    Complete (After .assign Expression) (fun setting e => e.elaborate setting >>= (·.fitted? type))
      (assigned target type) Token.Ends (length + 1) :=
  .after fun _ => (complete_expression length).decide fun _ => .coerce _ _ _ _

lemma assignment?_eq (setting : Setting) (target : Token) (type : Ty) (slot : String)
    (value : Phrase) :
    Clause.assignment? setting target type slot value =
      ((value.elaborate setting >>= (·.fitted? type)) >>= fun e =>
        some (.assign slot e (target.span.through e.span))) := by
  unfold Clause.assignment?
  simp only [bind_assoc]
  rfl

lemma sound_assignment (target : Token) (type : Ty) (slot : String) :
    Sound (After .assign Expression)
    (fun setting value => Clause.assignment? setting target type slot value)
      (assignment target type slot) := by
  simp only [assignment?_eq]
  exact (sound_assigned target type).decide fun _ => .pure

lemma complete_assignment (target : Token) (type : Ty) (slot : String) (length : Nat) :
    Complete (After .assign Expression)
    (fun setting value => Clause.assignment? setting target type slot value)
      (assignment target type slot) Token.Ends (length + 1) := by
  simp only [assignment?_eq]
  exact (complete_assigned target type length).decide fun _ => .pure

/-! ### Elements -/

lemma sound_path {name : Token} {type item : Ty} {steps : List IndexStep} (ready : s.Ready)
    (read : path name type s = (.ok (steps, item), t)) :
    ∃ trees toks, s = t.put toks ∧ Series Bracketed trees toks ∧
      Phrase.path? t.setting trees type = some (steps, item) := by
  let P (found : List IndexStep × Ty) (u : ParseState) : Prop := ∃ trees toks, s = u.put toks ∧
    Series Bracketed trees toks ∧ Phrase.path? u.setting trees type = some found
  refine extend_keeps (P := P) ?_ ⟨[], [], rfl, .none, rfl⟩ read
  rintro ⟨steps, array⟩ v found w ⟨trees, front, rfl, written, means⟩ extended
  rw [ParseState.ready_put] at ready
  obtain ⟨bracket, x, opened, done⟩ := bind_eq_ok.1 extended
  obtain ⟨rfl, rfl⟩ | ⟨low, high, item, subscript, toks, opening, closing, index, rfl, isOpening,
    written', isClosing, rfl, means', rfl⟩ := sound_bracketOf sound_term ready opened
  · obtain ⟨rfl, rfl⟩ := pure_eq_ok.1 done
    exact ⟨trees, front, rfl, written, means⟩
  · obtain ⟨rfl, rfl⟩ := pure_eq_ok.1 done
    refine ⟨trees ++ [subscript], front ++ opening :: (toks ++ [closing]), by simp,
      written.concat ⟨isOpening, written', isClosing⟩, ?_⟩
    rw [ParseState.setting_put] at means
    exact Phrase.path?_concat means means'

lemma Extends.cons {step : α → Parse (Option α)} {n : Nat} {a b c : α} {u : ParseState}
    (first : step a s = (.ok (some b), t)) (h : Extends step n b t c u) :
    Extends step (n + 1) a s c u := by
  induction h with
  | start => exact .more .start first
  | more _ last ih => exact .more (ih first) last

def longer (name : Token) : List IndexStep × Ty → Parse (Option (List IndexStep × Ty)) :=
  fun (steps, type) => do
    match ← bracketOf term name type with
    | some (step, _) => return some (steps ++ [step], step.item)
    | none => return none

lemma complete_path {name next : Token} {trees : List Phrase} {toks : List Token}
    (written : Series Bracketed trees toks) (folds : s.folding = true)
    (peeked : s.tokens.peek = .ok next) (other : next.kind ≠ .leftBracket) {type item : Ty}
    {steps : List IndexStep} (means : Phrase.path? s.setting trees type = some (steps, item)) :
    path name type (s.put toks) = (.ok (steps, item), s) := by
  suffices h : ∀ before, ∃ n ≤ toks.length,
      Extends (longer name) n (before, type) (s.put toks) (before ++ steps, item) s by
    obtain ⟨n, few, extended⟩ := h []
    refine extended.extend_eq (by rw [ParseState.length_put]; omega) ?_
    dsimp only [longer]
    rw [bind_of_ok (bracketOf_none peeked other)]
    rfl
  induction written generalizing type steps with
  | none =>
    cases means
    exact fun before => ⟨0, Nat.le_refl _, by simpa using Extends.start⟩
  | @more a rest front behind bracketed _ ih =>
    obtain ⟨isOpening, written, isClosing⟩ := bracketed
    cases type with
    | array low high array =>
      simp only [Phrase.path?, Option.bind_eq_bind, Option.bind_eq_some_iff] at means
      obtain ⟨raw, value, index, integer, ⟨others, last⟩, rest, same⟩ := means
      cases same
      intro before
      obtain ⟨n, few, extended⟩ := ih rest (before ++ [⟨index, low, high, array⟩])
      have bracket := complete_bracketOf (s := s.put behind) (complete_term _) name low high array
        folds isOpening written isClosing (Option.bind_eq_some_iff.2 ⟨raw, value, integer⟩)
        (Nat.le_refl _)
      rw [ParseState.put_put] at bracket
      refine ⟨n + 1, by simp only [List.length_append, List.length_cons]; omega, ?_⟩
      rw [List.append_assoc] at extended
      refine extended.cons ?_
      dsimp only [longer]
      rw [bind_of_ok bracket]
      rfl
    | _ => cases means

/-! ### Statements that begin with a name -/

/-- What is written behind a name that a value is assigned to. -/
def Assignment (subscripts : List Phrase) (value : Phrase) (toks : List Token)
    (next : Token) : Prop :=
  ∃ front behind, Series Bracketed subscripts front ∧ After .assign Expression value behind next ∧
    toks = front ++ behind

lemma sound_storing {name : Token} {symbol : Symbol} {stmt : Stmt} (ready : s.Ready)
    (read : storing name symbol s = (.ok stmt, t)) :
    ∃ subscripts value toks, s = t.put toks ∧
      (∀ next, t.tokens.peek = .ok next → Assignment subscripts value toks next) ∧
      Clause.stored? t.setting name symbol value subscripts = some stmt := by
  obtain ⟨opens, u, seen, more⟩ := bind_eq_ok.1 read
  obtain ⟨rfl, -, -, -⟩ := check_inv seen
  cases opens with
  | true =>
    obtain ⟨_, _, failed, -⟩ := bind_eq_ok.1 more
    exact absurd failed fail_ne_ok
  | false =>
    obtain ⟨bracket, v, asked, inside⟩ := bind_eq_ok.1 more
    obtain ⟨rfl, first, peeked, rfl⟩ := check_inv asked
    by_cases is : first.kind = .leftBracket
    · rw [if_pos (decide_eq_true is)] at inside
      obtain ⟨⟨steps, item⟩, w, path, rest⟩ := bind_eq_ok.1 inside
      obtain ⟨e, x, value, done⟩ := bind_eq_ok.1 rest
      obtain ⟨rfl, rfl⟩ := pure_eq_ok.1 done
      obtain ⟨trees, front, rfl, series, means⟩ := sound_path ready path
      rw [ParseState.ready_put] at ready
      cases series with
      | none =>
        -- the bracket that has been seen is not the assignment sign
        obtain ⟨sign, _, taken, -⟩ := bind_eq_ok.1 value
        obtain ⟨isSign, taken⟩ := expect_eq_ok taken
        obtain rfl := Except.ok.inj (peeked.symm.trans (peek_of_next taken))
        rw [isSign] at is
        cases is
      | @more subscript others front behind bracketed series =>
        obtain ⟨tree, toks, rfl, written, means'⟩ := sound_assigned name item ready value
        refine ⟨subscript :: others, tree, front ++ behind ++ toks, by simp,
          fun next peeked' => ⟨_, toks, .more bracketed series, written next peeked', rfl⟩, ?_⟩
        rw [ParseState.setting_put] at means
        obtain ⟨raw, found, fits⟩ := Option.bind_eq_some_iff.1 means'
        simp [Clause.stored?, means, found, fits]
    · rw [if_neg (by simpa using is)] at inside
      obtain ⟨tree, toks, rfl, written, means⟩ := sound_assignment name symbol.type name.lexeme
        ready inside
      exact ⟨[], tree, toks, rfl, fun next peeked' => ⟨[], toks, .none, written next peeked', rfl⟩,
        means⟩

lemma complete_storing {name next : Token} {symbol : Symbol} {subscripts : List Phrase}
    {value : Phrase} {toks : List Token} {stmt : Stmt} (folds : s.folding = true)
    (peeked : s.tokens.peek = .ok next) (ends : next.Ends)
    (written : Assignment subscripts value toks next)
    (means : Clause.stored? s.setting name symbol value subscripts = some stmt) :
    storing name symbol (s.put toks) = (.ok stmt, s) := by
  obtain ⟨front, behind, series, after, rfl⟩ := written
  have mark := after
  obtain ⟨sign, rest, isSign, rfl, -⟩ := mark
  unfold storing
  cases series with
  | none =>
    rw [List.nil_append, bind_of_ok (check_of ParseState.peek_put_cons), if_neg (by simp [isSign])]
    refine (bind_of_ok (check_of ParseState.peek_put_cons)).trans ?_
    rw [if_neg (by simp [isSign])]
    exact complete_assignment name symbol.type name.lexeme rest.length folds peeked ends after means
      (Nat.le_refl _)
  | @more subscript others front behind bracketed series =>
    have bracket := bracketed
    obtain ⟨isOpening, -, -⟩ := bracket
    obtain ⟨⟨steps, item⟩, route, means⟩ := Option.bind_eq_some_iff.1 means
    obtain ⟨raw, found, means⟩ := Option.bind_eq_some_iff.1 means
    obtain ⟨e, fits, same⟩ := Option.bind_eq_some_iff.1 means
    cases same
    have elements : path name symbol.type _ = _ :=
      complete_path (.more bracketed series) (s := s.put (sign :: rest)) folds rfl
        (by rw [isSign]; decide) route
    have assigns := complete_assigned name item rest.length folds peeked ends after
      (Option.bind_eq_some_iff.2 ⟨raw, found, fits⟩) (Nat.le_refl _)
    rw [ParseState.put_put] at elements
    rw [List.append_assoc, List.cons_append, bind_of_ok (check_of ParseState.peek_put_cons),
      if_neg (by simp [isOpening])]
    refine (bind_of_ok (check_of ParseState.peek_put_cons)).trans ?_
    rw [if_pos (by simp [isOpening])]
    rw [List.append_assoc] at elements
    refine (bind_of_ok elements).trans ?_
    refine (bind_of_ok assigns).trans ?_
    rfl

lemma sound_setResult {name : Token} {symbol : Symbol} {id : RoutineId} {stmt : Stmt}
    (ready : s.Ready) (read : setResult name symbol id s = (.ok stmt, t)) :
    ∃ params returns value toks, symbol.type = .function params returns ∧
      t.setting.within = some id ∧ s = t.put toks ∧
      (∀ next, t.tokens.peek = .ok next → After .assign Expression value toks next) ∧
      Clause.assignment? t.setting name returns resultSlot value = some stmt := by
  obtain ⟨sign, u, seen, more⟩ := bind_eq_ok.1 read
  obtain ⟨rfl, -, -, -⟩ := check_inv seen
  cases sign with
  | false => exact absurd more fail_ne_ok
  | true =>
    obtain ⟨_, _, got, inside⟩ := bind_eq_ok.1 more
    obtain ⟨rfl, rfl⟩ := get_eq_ok.1 got
    cases type : symbol.type with
    | function params returns =>
      rcases own : s.enclosing.head? == some id with _ | _ <;> simp only [type, own] at inside
      · exact absurd inside fail_ne_ok
      · obtain ⟨value, toks, rfl, written, means⟩ := sound_assignment name returns resultSlot ready
          inside
        exact ⟨params, returns, value, toks, rfl, eq_of_beq own, rfl, written, means⟩
    | _ =>
      simp only [type] at inside
      exact absurd inside fail_ne_ok

lemma complete_setResult {name next : Token} {symbol : Symbol} {id : RoutineId} {params : Params}
    {returns : Ty} {value : Phrase} {toks : List Token} {stmt : Stmt}
    (type : symbol.type = .function params returns) (own : s.setting.within = some id)
    (folds : s.folding = true) (peeked : s.tokens.peek = .ok next) (ends : next.Ends)
    (written : After .assign Expression value toks next)
    (means : Clause.assignment? s.setting name returns resultSlot value = some stmt) :
    setResult name symbol id (s.put toks) = (.ok stmt, s) := by
  have behind := written
  obtain ⟨sign, rest, isSign, rfl, -⟩ := behind
  unfold setResult
  rw [bind_of_ok (check_of ParseState.peek_put_cons), if_pos (decide_eq_true isSign),
    bind_of_ok get_self]
  have own : (s.put (sign :: rest)).enclosing.head? == some id := beq_iff_eq.2 own
  simp only [type, own]
  exact complete_assignment name returns resultSlot rest.length folds peeked ends written means
    (Nat.le_refl _)

lemma callable_of_callOf {symbol : Symbol} {name : Token} {found : List Expr × Span}
    (read : callOf term symbol name s = (.ok found, t)) :
    ∃ params, symbol.type.params? = some params := by
  unfold callOf at read
  cases type : symbol.type with
  | function params returns => exact ⟨params, rfl⟩
  | procedure params => exact ⟨params, rfl⟩
  | _ =>
    rw [type] at read
    exact absurd read fail_ne_ok

lemma sound_nameStatement {name : Token} {stmt : Stmt} (ready : s.Ready)
    (peeked : s.tokens.peek = .ok name) (is : name.kind = .identifier)
    (read : nameStatement s = (.ok stmt, t)) : Between Statement Clause.elaborate s stmt t := by
  obtain ⟨u, rfl, ready, more⟩ := next_inv ready (by rw [is]; decide) peeked read
  obtain ⟨symbol, v, resolved, inside⟩ := bind_eq_ok.1 more
  obtain ⟨rfl, found⟩ := lookup_eq_ok resolved
  have stored (kept : symbol.meaning = .var ∨ symbol.meaning = .array)
      (inside : storing name symbol u = (.ok stmt, t)) :
      Between Statement Clause.elaborate (u.put [name]) stmt t := by
    obtain ⟨subscripts, value, toks, rfl, written, means⟩ := sound_storing ready inside
    refine ⟨.assign name subscripts value, name :: toks, by simp, fun next peeked' => ?_, ?_⟩
    · obtain ⟨front, _, series, ⟨sign, rest, isSign, rfl, expression⟩, rfl⟩ := written next peeked'
      exact .assign is series isSign expression
    · rw [Clause.elaborate]
      refine Option.bind_eq_some_iff.2 ⟨symbol, found, ?_⟩
      rcases kept with kept | kept <;> simp only [kept] <;> exact means
  cases meaning : symbol.meaning with
  | constant value =>
    rw [meaning] at inside
    exact absurd inside fail_ne_ok
  | var =>
    rw [meaning] at inside
    exact stored (.inl meaning) inside
  | array =>
    rw [meaning] at inside
    exact stored (.inr meaning) inside
  | function id =>
    rw [meaning] at inside
    obtain ⟨params, returns, value, toks, type, own, rfl, written, means⟩ :=
      sound_setResult ready inside
    refine ⟨.assign name [] value, name :: toks, by simp, fun next peeked' => ?_, ?_⟩
    · obtain ⟨sign, rest, isSign, rfl, expression⟩ := written next peeked'
      exact .assign is .none isSign expression
    · rw [Clause.elaborate]
      refine Option.bind_eq_some_iff.2 ⟨symbol, found, ?_⟩
      simp only [meaning, type, own, if_pos]
      exact means
  | procedure id =>
    rw [meaning] at inside
    obtain ⟨⟨args, span⟩, w, called, done⟩ := bind_eq_ok.1 inside
    obtain ⟨rfl, rfl⟩ := pure_eq_ok.1 done
    obtain ⟨params, callable⟩ := callable_of_callOf called
    obtain ⟨phrases, last, toks, rfl, written, means, rfl⟩ := sound_callOf sound_term callable ready
      called
    obtain ⟨values, list, fits⟩ := Option.bind_eq_some_iff.1 means
    refine ⟨.call name phrases last, name :: toks, by simp, fun _ _ => .call is written, ?_⟩
    rw [Clause.elaborate, Phrase.elaborateAll_eq_mapM]
    refine Option.bind_eq_some_iff.2 ⟨symbol, found, ?_⟩
    simp only [meaning, callable, list, fits, Option.bind_eq_bind, Option.bind_some]
    rfl

lemma complete_assign {name next : Token} {subscripts : List Phrase} {value : Phrase}
    {toks : List Token} {stmt : Stmt} (folds : s.folding = true) (peeked : s.tokens.peek = .ok next)
    (ends : next.Ends) (written : Assignment subscripts value toks next)
    (means : Clause.elaborate s.setting (.assign name subscripts value) = some stmt) :
    nameStatement (s.put (name :: toks)) = (.ok stmt, s) := by
  rw [Clause.elaborate] at means
  obtain ⟨symbol, found, means⟩ := Option.bind_eq_some_iff.1 means
  unfold nameStatement
  rw [bind_of_ok next_put, bind_of_ok (lookup_of (s := s.put toks) found)]
  cases meaning : symbol.meaning with
  | constant | procedure => simp [meaning] at means
  | var | array =>
    simp only [meaning] at means
    exact complete_storing folds peeked ends written means
  | function id =>
    cases subscripts with
    | cons => simp [meaning] at means
    | nil =>
      cases type : symbol.type with
      | function params returns =>
        simp only [meaning, type] at means
        split at means
        next own =>
          obtain ⟨_, behind, series, after, rfl⟩ := written
          cases series
          exact complete_setResult type own folds peeked ends after means
        next => cases means
      | _ => simp [meaning, type] at means

lemma complete_call {name last next : Token} {args : List Phrase} {toks : List Token} {stmt : Stmt}
    (folds : s.folding = true) (peeked : s.tokens.peek = .ok next) (other : next.kind ≠ .leftParen)
    (written : Args name args last toks)
    (means : Clause.elaborate s.setting (.call name args last) = some stmt) :
    nameStatement (s.put (name :: toks)) = (.ok stmt, s) := by
  rw [Clause.elaborate, Phrase.elaborateAll_eq_mapM] at means
  obtain ⟨symbol, found, means⟩ := Option.bind_eq_some_iff.1 means
  unfold nameStatement
  rw [bind_of_ok next_put, bind_of_ok (lookup_of (s := s.put toks) found)]
  cases meaning : symbol.meaning with
  | procedure id =>
    simp only [meaning] at means
    obtain ⟨values, list, means⟩ := Option.bind_eq_some_iff.1 means
    obtain ⟨params, callable, means⟩ := Option.bind_eq_some_iff.1 means
    obtain ⟨fitted, fits, same⟩ := Option.bind_eq_some_iff.1 means
    cases same
    dsimp only
    rw [bind_of_ok (complete_callOf (complete_term _) callable folds peeked other written
      (Option.bind_eq_some_iff.2 ⟨values, list, fits⟩) (Nat.le_refl _))]
    rfl
  | _ => simp [meaning] at means

/-! ### Conditions and loops -/

lemma sound_condition (word : Kind) :
    Sound Expression (fun setting e => e.elaborate setting >>= (·.typed? .boolean))
    (condition word) :=
  sound_expression.decide fun _ => .typed

lemma complete_condition (word : Kind) (length : Nat) :
    Complete Expression (fun setting e => e.elaborate setting >>= (·.typed? .boolean))
    (condition word)
      Token.Ends length :=
  (complete_expression length).decide fun _ => .typed

lemma sound_loopLimit :
    Sound Expression (fun setting e => e.elaborate setting >>= (·.typed? .integer)) loopLimit :=
  sound_expression.decide fun _ => .typed

lemma complete_loopLimit (length : Nat) :
    Complete Expression (fun setting e => e.elaborate setting >>= (·.typed? .integer)) loopLimit
      Token.Ends length :=
  (complete_expression length).decide fun _ => .typed

lemma sound_loopVariable {name : Token} (ready : s.Ready) (read : loopVariable s = (.ok name, t)) :
    name.kind = .identifier ∧ s = t.put [name] ∧
      ∃ symbol, t.setting.scopes.resolve name.lexeme = some symbol ∧
      symbol.meaning = .var ∧ symbol.type = .integer := by
  obtain ⟨_, u, taken, more⟩ := bind_eq_ok.1 read
  obtain ⟨is, rfl⟩ := put_of_expect ready (by decide) taken
  obtain ⟨symbol, v, resolved, checked⟩ := bind_eq_ok.1 more
  obtain ⟨rfl, found⟩ := lookup_eq_ok resolved
  split at checked
  next counts =>
    obtain ⟨rfl, rfl⟩ := pure_eq_ok.1 checked
    exact ⟨is, rfl, symbol, found, counts⟩
  next =>
    obtain ⟨_, _, failed, -⟩ := bind_eq_ok.1 checked
    exact absurd failed fail_ne_ok

lemma complete_loopVariable {name : Token} {symbol : Symbol} (is : name.kind = .identifier)
    (found : s.setting.scopes.resolve name.lexeme = some symbol)
    (counts : symbol.meaning = .var ∧ symbol.type = .integer) :
    loopVariable (s.put [name]) = (.ok name, s) := by
  unfold loopVariable
  rw [bind_of_ok (expect_put is), bind_of_ok (lookup_of (s := s.put []) found), if_pos counts]
  rfl

section

variable {statement : Parse Stmt} {length : Nat}

lemma sound_blockOf (h : Sound Statement Clause.elaborate statement) {stmt : Stmt} (ready : s.Ready)
    (read : blockOf statement s = (.ok stmt, t)) :
    ∃ clauses toks first last, s = t.put (first :: (toks ++ [last])) ∧ first.kind = .beginWord ∧
      Listed Statement .semicolon clauses toks last ∧ last.kind = .endWord ∧
      (Clause.block first clauses last).elaborate t.setting = some stmt := by
  obtain ⟨first, u, isFirst, rfl, ready, inside⟩ := expect_inv ready (by decide) read
  obtain ⟨clauses, toks, last, stmts, v, rfl, ready, written, isLast, means, done⟩ :=
    (Sound.separated (by decide) h).closed (by decide) ready inside
  obtain ⟨rfl, rfl⟩ := pure_eq_ok.1 done
  refine ⟨clauses, toks, first, last, by simp, isFirst, written, isLast, ?_⟩
  rw [Clause.elaborate_block, means]
  rfl

variable {keyword : Token} {stmt : Stmt}

lemma sound_ifOf (h : Sound Statement Clause.elaborate statement) (ready : s.Ready)
    (peeked : s.tokens.peek = .ok keyword) (is : keyword.kind = .ifWord)
    (read : ifOf statement s = (.ok stmt, t)) : Between Statement Clause.elaborate s stmt t := by
  obtain ⟨u, rfl, ready, inside⟩ := next_inv ready (by rw [is]; decide) peeked read
  obtain ⟨test, front, word, e, v, rfl, ready, written, isThen, means, more⟩ :=
    (sound_condition .ifWord).closed (by decide) ready inside
  obtain ⟨yes, w, first, choice⟩ := bind_eq_ok.1 more
  obtain ⟨tree, toks, rfl, written', means'⟩ := h ready first
  rw [ParseState.ready_put] at ready
  obtain ⟨raw, value, boolean⟩ := Option.bind_eq_some_iff.1 means
  simp only [ParseState.setting_put] at value
  obtain ⟨alternates, x, asked, last⟩ := bind_eq_ok.1 choice
  cases alternates with
  | true =>
    obtain ⟨no, y, second, done⟩ := bind_eq_ok.1 last
    obtain ⟨rfl, rfl⟩ := pure_eq_ok.1 done
    obtain ⟨alternative, isElse, rfl⟩ := put_of_accept ready (by decide) asked
    rw [ParseState.ready_put] at ready
    obtain ⟨other, rest, rfl, written'', means''⟩ := h ready second
    refine ⟨.ifThenElse keyword test tree other,
      keyword :: (front ++ word :: (toks ++ alternative :: rest)), by simp, fun next peeked => ?_,
      ?_⟩
    · exact .ifThenElse is written isThen (written' _ rfl) isElse (written'' next peeked)
    · simp only [ParseState.setting_put] at value means'
      simp [Clause.elaborate, value, boolean, means', means'']
  | false =>
    obtain ⟨rfl, rfl⟩ := pure_eq_ok.1 last
    obtain ⟨rfl, other, peeked, notElse⟩ := accept_false asked
    refine ⟨.ifThen keyword test tree, keyword :: (front ++ word :: toks), by simp,
      fun next peeked' => ?_, ?_⟩
    · obtain rfl := Except.ok.inj (peeked.symm.trans peeked')
      exact .ifThen is written isThen (written' _ peeked) notElse
    · simp [Clause.elaborate, value, boolean, means']

lemma sound_whileOf (h : Sound Statement Clause.elaborate statement) (ready : s.Ready)
    (peeked : s.tokens.peek = .ok keyword) (is : keyword.kind = .whileWord)
    (read : whileOf statement s = (.ok stmt, t)) : Between Statement Clause.elaborate s stmt t := by
  obtain ⟨u, rfl, ready, inside⟩ := next_inv ready (by rw [is]; decide) peeked read
  obtain ⟨test, front, word, e, v, rfl, ready, written, isDo, means, more⟩ :=
    (sound_condition .whileWord).closed (by decide) ready inside
  obtain ⟨body, w, inner, done⟩ := bind_eq_ok.1 more
  obtain ⟨rfl, rfl⟩ := pure_eq_ok.1 done
  obtain ⟨tree, toks, rfl, written', means'⟩ := h ready inner
  obtain ⟨raw, value, boolean⟩ := Option.bind_eq_some_iff.1 means
  refine ⟨.whileDo keyword test tree, keyword :: (front ++ word :: toks), by simp,
    fun next peeked => ?_, ?_⟩
  · exact .whileDo is written isDo (written' next peeked)
  · simp only [ParseState.setting_put] at value
    simp [Clause.elaborate, value, boolean, means']

lemma sound_forOf (h : Sound Statement Clause.elaborate statement) (ready : s.Ready)
    (peeked : s.tokens.peek = .ok keyword) (is : keyword.kind = .forWord)
    (read : forOf statement s = (.ok stmt, t)) : Between Statement Clause.elaborate s stmt t := by
  obtain ⟨u, rfl, ready, inside⟩ := next_inv ready (by rw [is]; decide) peeked read
  obtain ⟨name, v, counted, assigned⟩ := bind_eq_ok.1 inside
  obtain ⟨isName, rfl, symbol, found, counts⟩ := sound_loopVariable ready counted
  rw [ParseState.ready_put] at ready
  obtain ⟨start, _, bound, initializer, w, rfl, readyLimit, ⟨sign, front, isSign, rfl, written⟩,
    isTo, means, limited⟩ := (sound_assignment name .integer name.lexeme).closed (by decide) ready
    assigned
  obtain ⟨limit, middle, word, last, x, rfl, readyBody, written', isDo, means', looped⟩ :=
    sound_loopLimit.closed (by decide) readyLimit limited
  obtain ⟨body, y, inner, done⟩ := bind_eq_ok.1 looped
  obtain ⟨rfl, rfl⟩ := pure_eq_ok.1 done
  obtain ⟨tree, toks, rfl, written'', means''⟩ := h readyBody inner
  obtain ⟨raw, value, integer⟩ := Option.bind_eq_some_iff.1 means'
  refine ⟨.forTo keyword name start limit tree,
    keyword :: name :: sign :: (front ++ bound :: (middle ++ word :: toks)), by simp,
    fun next peeked => ?_, ?_⟩
  · exact .forTo is isName isSign written isTo written' isDo (written'' next peeked)
  · simp only [ParseState.setting_put] at found means value
    simp [Clause.elaborate, found, counts, means, value, integer, means'']

lemma sound_writeln (ready : s.Ready) (peeked : s.tokens.peek = .ok keyword)
    (is : keyword.kind = .writelnWord) (read : writelnStatement s = (.ok stmt, t)) :
    Between Statement Clause.elaborate s stmt t := by
  obtain ⟨u, rfl, ready, inside⟩ := next_inv ready (by rw [is]; decide) peeked read
  obtain ⟨⟨args, last⟩, v, listed, done⟩ := bind_eq_ok.1 inside
  obtain ⟨rfl, rfl⟩ := pure_eq_ok.1 done
  obtain ⟨phrases, token, toks, rfl, written, rfl, means⟩ :=
    sound_argumentsOf sound_term ready listed
  refine ⟨.writeln keyword phrases token, keyword :: toks, by simp, fun _ _ => .writeln is written,
    ?_⟩
  rw [Clause.elaborate, Phrase.elaborateAll_eq_mapM, means]
  rfl

lemma sound_statementOf (h : Sound Statement Clause.elaborate statement) :
    Sound Statement Clause.elaborate (statementOf statement) := by
  intro s stmt t ready read
  obtain ⟨token, _, seen, more⟩ := bind_eq_ok.1 read
  obtain ⟨rfl, peeked⟩ := peek_eq_ok seen
  cases is : token.kind <;> rw [is] at more
  case beginWord =>
    obtain ⟨clauses, toks, first, last, rfl, isFirst, written, isLast, means⟩ :=
      sound_blockOf h ready more
    exact ⟨_, _, rfl, fun _ _ => .block isFirst written isLast, means⟩
  case ifWord => exact sound_ifOf h ready peeked is more
  case whileWord => exact sound_whileOf h ready peeked is more
  case forWord => exact sound_forOf h ready peeked is more
  case writelnWord => exact sound_writeln ready peeked is more
  case identifier => exact sound_nameStatement ready peeked is more
  all_goals
    obtain ⟨rfl, rfl⟩ := pure_eq_ok.1 more
    refine ⟨.empty token, [], rfl, fun next peeked' => ?_, rfl⟩
    obtain rfl := Except.ok.inj (peeked.symm.trans peeked')
    exact .empty

lemma complete_blockOf (h : Complete Statement Clause.elaborate statement Token.Closes length)
    {clauses : List Clause} {toks rest : List Token} {first last : Token} (folds : s.folding = true)
    (isFirst : first.kind = .beginWord) (written : Listed Statement .semicolon clauses toks last)
    (isLast : last.kind = .endWord)
    (means : (Clause.block first clauses last).elaborate s.setting = some stmt)
    (short : toks.length ≤ length) : blockOf statement (s.put (first :: (toks ++ last :: rest))) =
    (.ok stmt, s.put rest) := by
  rw [Clause.elaborate_block] at means
  obtain ⟨stmts, found, same⟩ := Option.bind_eq_some_iff.1 means
  cases same
  have inside := Complete.separated h fun mark (is : mark.kind = .semicolon) => Token.closes is
    (by decide)
  unfold blockOf
  rw [bind_of_ok (expect_put isFirst)]
  refine (inside.closed ⟨Token.closes isLast (by decide), by rw [isLast]; decide⟩ folds written
    isLast found short).trans ?_
  rfl

section

variable {next : Token} (folds : s.folding = true) (peeked : s.tokens.peek = .ok next)
  (ends : next.Closes)
include folds peeked ends

lemma complete_ifThen (h : Complete Statement Clause.elaborate statement Token.Closes length)
    {test : Phrase} {yes : Clause} {front toks : List Token} {word : Token}
    (written : Expression test front word) (isThen : word.kind = .thenWord)
    (written' : Statement yes toks next) (other : next.kind ≠ .elseWord)
    (means : (Clause.ifThen keyword test yes).elaborate s.setting = some stmt)
    (short : toks.length ≤ length) : ifOf statement (s.put (keyword :: (front ++ word :: toks))) =
    (.ok stmt, s) := by
  rw [Clause.elaborate] at means
  obtain ⟨raw, value, means⟩ := Option.bind_eq_some_iff.1 means
  obtain ⟨e, boolean, means⟩ := Option.bind_eq_some_iff.1 means
  obtain ⟨body, means', same⟩ := Option.bind_eq_some_iff.1 means
  cases same
  unfold ifOf
  rw [bind_of_ok next_put]
  refine ((complete_condition .ifWord front.length).closed (Token.ends isThen (by decide)) folds
    written isThen (Option.bind_eq_some_iff.2 ⟨raw, value, boolean⟩) (Nat.le_refl _)).trans ?_
  rw [bind_of_ok (h folds peeked ends written' means' short),
    bind_of_ok (accept_of_ne peeked other)]
  rfl

lemma complete_ifThenElse (h : Complete Statement Clause.elaborate statement Token.Closes length)
    {test : Phrase} {yes no : Clause} {front toks behind : List Token} {word alternative : Token}
    (written : Expression test front word) (isThen : word.kind = .thenWord)
    (written' : Statement yes toks alternative) (isElse : alternative.kind = .elseWord)
    (written'' : Statement no behind next)
    (means : (Clause.ifThenElse keyword test yes no).elaborate s.setting = some stmt)
    (short : toks.length + behind.length ≤ length) :
    ifOf statement (s.put (keyword :: (front ++ word :: (toks ++ alternative :: behind)))) =
    (.ok stmt, s) := by
  rw [Clause.elaborate] at means
  obtain ⟨raw, value, means⟩ := Option.bind_eq_some_iff.1 means
  obtain ⟨e, boolean, means⟩ := Option.bind_eq_some_iff.1 means
  obtain ⟨body, means', means⟩ := Option.bind_eq_some_iff.1 means
  obtain ⟨other, means'', same⟩ := Option.bind_eq_some_iff.1 means
  cases same
  have first := h (s := s.put (alternative :: behind)) folds rfl (Token.closes isElse (by decide))
    written' means' (by omega)
  rw [ParseState.put_put] at first
  unfold ifOf
  rw [bind_of_ok next_put]
  refine ((complete_condition .ifWord front.length).closed (Token.ends isThen (by decide)) folds
    written isThen (Option.bind_eq_some_iff.2 ⟨raw, value, boolean⟩) (Nat.le_refl _)).trans ?_
  rw [bind_of_ok first, bind_of_ok (accept_put isElse), if_pos rfl,
    bind_of_ok (h folds peeked ends written'' means'' (by omega))]
  rfl

lemma complete_whileOf (h : Complete Statement Clause.elaborate statement Token.Closes length)
    {test : Phrase} {body : Clause} {front toks : List Token} {word : Token}
    (written : Expression test front word) (isDo : word.kind = .doWord)
    (written' : Statement body toks next)
    (means : (Clause.whileDo keyword test body).elaborate s.setting = some stmt)
    (short : toks.length ≤ length) :
    whileOf statement (s.put (keyword :: (front ++ word :: toks))) = (.ok stmt, s) := by
  rw [Clause.elaborate] at means
  obtain ⟨raw, value, means⟩ := Option.bind_eq_some_iff.1 means
  obtain ⟨e, boolean, means⟩ := Option.bind_eq_some_iff.1 means
  obtain ⟨inner, means', same⟩ := Option.bind_eq_some_iff.1 means
  cases same
  unfold whileOf
  rw [bind_of_ok next_put]
  refine ((complete_condition .whileWord front.length).closed (Token.ends isDo (by decide)) folds
    written isDo (Option.bind_eq_some_iff.2 ⟨raw, value, boolean⟩) (Nat.le_refl _)).trans ?_
  rw [bind_of_ok (h folds peeked ends written' means' short)]
  rfl

lemma complete_forOf (h : Complete Statement Clause.elaborate statement Token.Closes length)
    {start limit : Phrase} {body : Clause} {front middle toks : List Token}
    {name sign bound word : Token} (isName : name.kind = .identifier) (isSign : sign.kind = .assign)
    (written : Expression start front bound) (isTo : bound.kind = .toWord)
    (written' : Expression limit middle word) (isDo : word.kind = .doWord)
    (written'' : Statement body toks next)
    (means : (Clause.forTo keyword name start limit body).elaborate s.setting = some stmt)
    (short : toks.length ≤ length) :
    forOf statement
      (s.put (keyword :: name :: sign :: (front ++ bound :: (middle ++ word :: toks)))) =
      (.ok stmt, s) := by
  rw [Clause.elaborate] at means
  obtain ⟨symbol, found, means⟩ := Option.bind_eq_some_iff.1 means
  split at means
  next counts =>
    obtain ⟨initializer, first, means⟩ := Option.bind_eq_some_iff.1 means
    obtain ⟨raw, value, means⟩ := Option.bind_eq_some_iff.1 means
    obtain ⟨last, integer, means⟩ := Option.bind_eq_some_iff.1 means
    obtain ⟨inner, means', same⟩ := Option.bind_eq_some_iff.1 means
    cases same
    have counted :=
      complete_loopVariable (s := s.put (sign :: (front ++ bound :: (middle ++ word :: toks))))
        isName found counts
    rw [ParseState.put_put] at counted
    unfold forOf
    rw [bind_of_ok next_put]
    refine (bind_of_ok counted).trans ?_
    have signed : After .assign Expression start (sign :: front) bound :=
      ⟨sign, front, isSign, rfl, written⟩
    refine ((complete_assignment name .integer name.lexeme front.length).closed
      (Token.ends isTo (by decide)) folds signed isTo first (Nat.le_refl _)).trans ?_
    refine ((complete_loopLimit middle.length).closed (Token.ends isDo (by decide)) folds written'
      isDo (Option.bind_eq_some_iff.2 ⟨raw, value, integer⟩) (Nat.le_refl _)).trans ?_
    rw [bind_of_ok (h folds peeked ends written'' means' short)]
    rfl
  next => cases means

omit ends in
lemma complete_writeln {args : List Phrase} {toks : List Token} {last : Token}
    (other : next.kind ≠ .leftParen) (written : Args keyword args last toks)
    (means : (Clause.writeln keyword args last).elaborate s.setting = some stmt) :
    writelnStatement (s.put (keyword :: toks)) = (.ok stmt, s) := by
  rw [Clause.elaborate, Phrase.elaborateAll_eq_mapM] at means
  obtain ⟨values, found, same⟩ := Option.bind_eq_some_iff.1 means
  cases same
  unfold writelnStatement
  rw [bind_of_ok next_put,
    bind_of_ok (complete_argumentsOf (complete_term _) folds peeked other written found
    (Nat.le_refl _))]
  rfl

omit folds in
lemma complete_empty : statementOf statement s = (.ok (.skip next.span), s) := by
  unfold statementOf
  rw [bind_of_ok (peek_of peeked)]
  have closing : next.kind ∈ Kind.closing := ends
  simp only [Kind.closing, List.mem_cons, List.not_mem_nil, or_false] at closing
  rcases closing with is | is | is <;> rw [is] <;> rfl

end

lemma complete_statementOf (h : Complete Statement Clause.elaborate statement Token.Closes length) :
    Complete Statement Clause.elaborate (statementOf statement) Token.Closes (length + 1) := by
  intro s tree toks next stmt folds peeked ends written means short
  cases written with
  | empty =>
    cases means
    exact complete_empty peeked ends
  | @block clauses inner first last _ isFirst written isLast =>
    simp only [List.length_cons, List.length_append] at short
    unfold statementOf
    rw [bind_of_ok (peek_of ParseState.peek_put_cons), isFirst]
    exact complete_blockOf h folds isFirst written isLast means (by omega)
  | ifThen is written isThen written' other =>
    simp only [List.length_cons, List.length_append] at short
    unfold statementOf
    rw [bind_of_ok (peek_of ParseState.peek_put_cons), is]
    exact complete_ifThen folds peeked ends h written isThen written' other means (by omega)
  | ifThenElse is written isThen written' isElse written'' =>
    simp only [List.length_cons, List.length_append] at short
    unfold statementOf
    rw [bind_of_ok (peek_of ParseState.peek_put_cons), is]
    exact complete_ifThenElse folds peeked ends h written isThen written' isElse written'' means
      (by omega)
  | whileDo is written isDo written' =>
    simp only [List.length_cons, List.length_append] at short
    unfold statementOf
    rw [bind_of_ok (peek_of ParseState.peek_put_cons), is]
    exact complete_whileOf folds peeked ends h written isDo written' means (by omega)
  | forTo is isName isSign written isTo written' isDo written'' =>
    simp only [List.length_cons, List.length_append] at short
    unfold statementOf
    rw [bind_of_ok (peek_of ParseState.peek_put_cons), is]
    exact complete_forOf folds peeked ends h isName isSign written isTo written' isDo written''
      means (by omega)
  | writeln is written =>
    unfold statementOf
    rw [bind_of_ok (peek_of ParseState.peek_put_cons), is]
    exact complete_writeln folds peeked ends.ne_leftParen written means
  | @assign subscripts value front inner name sign _ is series isSign written =>
    unfold statementOf
    rw [bind_of_ok (peek_of ParseState.peek_put_cons), is]
    exact complete_assign folds peeked ends.ends ⟨front, sign :: inner, series,
      ⟨sign, inner, isSign, rfl, written⟩, rfl⟩ means
  | call is written =>
    unfold statementOf
    rw [bind_of_ok (peek_of ParseState.peek_put_cons), is]
    exact complete_call folds peeked ends.ne_leftParen written means

end

lemma sound_statementWithin : ∀ bound, Sound Statement Clause.elaborate (statementWithin bound)
  | 0 => fun _ _ _ _ read => absurd read exhausted_ne_ok
  | bound + 1 => fun _ _ _ ready read => sound_statementOf (sound_statementWithin bound) ready read

lemma complete_statementWithin :
    ∀ length, Complete Statement Clause.elaborate (statementWithin (length + 1)) Token.Closes length
  | 0 => by
    intro s tree toks next stmt folds peeked ends written means short
    cases written with
    | empty =>
      cases means
      exact complete_empty peeked ends
    | _ => cases short
  | length + 1 => fun _ _ _ _ _ folds peeked ends written means short =>
    complete_statementOf (complete_statementWithin length) folds peeked ends written means short

lemma sound_statement : Sound Statement Clause.elaborate statement := .within sound_statementWithin

lemma complete_statement (length : Nat) :
    Complete Statement Clause.elaborate statement Token.Closes length :=
    .within complete_statementWithin length

/-! ### Blocks -/

lemma sound_block {stmt : Stmt} (ready : s.Ready) (read : block s = (.ok stmt, t)) :
    ∃ first clauses last toks, s = t.put toks ∧
      (∀ next, Statement (.block first clauses last) toks next) ∧
      (Clause.block first clauses last).elaborate t.setting = some stmt := by
  obtain ⟨clauses, toks, first, last, rfl, isFirst, written, isLast, means⟩ :=
    sound_blockOf sound_statement ready read
  exact ⟨first, clauses, last, _, rfl, fun _ => .block isFirst written isLast, means⟩

lemma complete_block {first last next : Token} {clauses : List Clause} {toks : List Token}
    {stmt : Stmt} (folds : s.folding = true)
    (written : Statement (.block first clauses last) toks next)
    (means : (Clause.block first clauses last).elaborate s.setting = some stmt) :
    block (s.put toks) = (.ok stmt, s) := by
  cases written with
  | @block _ inner _ _ _ isFirst written isLast =>
    exact complete_blockOf (complete_statement inner.length) folds isFirst written isLast means
      (Nat.le_refl _)

end Parse

end SmallPascal
