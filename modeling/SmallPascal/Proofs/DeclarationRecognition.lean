import SmallPascal.Proofs.StatementRecognition

/-!
Types, constants and variables are read as the grammar has them. What a reader gains by a
declaration is what the second pass says of it: names in the innermost scope, and routines.
-/

namespace SmallPascal

open Steps Grammar

namespace Grammar

lemma Names.listed {names toks : List Token} {next : Token} (h : Names names toks) :
    Listed (Anywhere Named) .comma names toks next := by
  obtain ⟨other, written⟩ := h
  induction written with
  | one named => exact .one named
  | more named is _ ih => exact .more named is ih

lemma Names.uncons {first : Token} {others toks : List Token} (h : Names (first :: others) toks) :
    first.kind = .identifier ∧ ∃ behind, toks = first :: behind ∧ (others = [] ∧ behind = [] ∨
      ∃ mark rest, behind = mark :: rest ∧ mark.kind = .comma ∧ Names others rest) := by
  obtain ⟨next, written⟩ := h
  cases written with
  | one named => exact ⟨named.1, [], named.2, .inl ⟨rfl, rfl⟩⟩
  | @more _ _ _ behind mark _ named is more =>
    obtain ⟨is', rfl⟩ := named
    exact ⟨is', mark :: behind, rfl, .inr ⟨mark, behind, rfl, is, next, more⟩⟩

lemma Names.starts {names toks : List Token} (h : Names names toks) :
    ∃ first rest, toks = first :: rest ∧ first.kind = .identifier := by
  cases names with
  | nil =>
    obtain ⟨_, none⟩ := h
    cases none
  | cons first others =>
    obtain ⟨is, behind, rfl, -⟩ := h.uncons
    exact ⟨first, behind, rfl, is⟩

lemma Variables.starts {group : VariablePhrase} {toks : List Token} (h : Variables group toks) :
    ∃ first rest, toks = first :: rest ∧ first.kind = .identifier := by
  obtain ⟨names, -, -⟩ := h
  obtain ⟨first, rest, rfl, is⟩ := names.starts
  exact ⟨first, _, rfl, is⟩

lemma starts_variables : Starts [.identifier] (Anywhere Variables) := by
  intro group toks next written
  obtain ⟨first, rest, rfl, is⟩ := Variables.starts written
  exact ⟨first, rest, rfl, by rw [is]; decide⟩

lemma Parameters.inner {params : List VariablePhrase} {toks : List Token}
    (h : Parameters params toks) : params = [] ∧ toks = [] ∨
    ∃ opening inner closing, toks = opening :: (inner ++ [closing]) ∧
      opening.kind = .leftParen ∧ closing.kind = .rightParen ∧
      (params = [] ∧ inner = [] ∨ Listed (Anywhere Variables) .semicolon params inner closing) := by
  cases h with
  | absent => exact .inl ⟨rfl, rfl⟩
  | none isOpening isClosing => exact .inr ⟨_, [], _, rfl, isOpening, isClosing, .inl ⟨rfl, rfl⟩⟩
  | some isOpening listed isClosing => exact .inr ⟨_, _, _, rfl, isOpening, isClosing, .inr listed⟩

end Grammar

/-! ### What is gained by declarations -/

namespace ParseState

lemma eq_put {s : ParseState} {tokens : Tokens} {toks : List Token}
    (h : s.tokens = tokens.put toks) : s = ParseState.put { s with tokens } toks := by
  unfold ParseState.put
  rw [← h]

/-- From one point to the other nothing has been read, but names have been declared, and routines
added. -/
structure Gains (s : ParseState) (new : List Routine) (t : ParseState) : Prop where
  tokens : t.tokens = s.tokens
  routines : t.routines = s.routines ++ new
  enclosing : t.enclosing = s.enclosing
  inConstant : t.inConstant = s.inConstant
  folding : t.folding = s.folding

namespace Gains

variable {s t u : ParseState} {new more : List Routine}

lemma refl (s : ParseState) : s.Gains [] s := ⟨rfl, (List.append_nil _).symm, rfl, rfl, rfl⟩

lemma trans (h : s.Gains new t) (h' : t.Gains more u) : s.Gains (new ++ more) u where
  tokens := h'.tokens.trans h.tokens
  routines := by rw [h'.routines, h.routines, List.append_assoc]
  enclosing := h'.enclosing.trans h.enclosing
  inConstant := h'.inConstant.trans h.inConstant
  folding := h'.folding.trans h.folding

lemma ready (h : s.Gains new t) : t.Ready ↔ s.Ready := by
  constructor <;> rintro ⟨folding, last⟩
  · exact ⟨h.folding ▸ folding, h.tokens ▸ last⟩
  · exact ⟨h.folding ▸ folding, h.tokens ▸ last⟩

lemma eq_of_setting (h : s.Gains [] t) (same : s.setting = t.setting) : s = t := by
  obtain ⟨tokens, routines, enclosing, inConstant, folding⟩ := h
  have scopes : s.scopes = t.scopes := congrArg Setting.scopes same
  rw [List.append_nil] at routines
  cases s
  cases t
  simp_all

lemma symm (h : s.Gains [] t) : t.Gains [] s where
  tokens := h.tokens.symm
  routines := by rw [h.routines, List.append_nil, List.append_nil]
  enclosing := h.enclosing.symm
  inConstant := h.inConstant.symm
  folding := h.folding.symm

lemma cancel (h : s.Gains [] t) (h' : s.Gains new u) : t.Gains new u := h.symm.trans h'

lemma put (h : s.Gains new t) (toks : List Token) : (s.put toks).Gains new (t.put toks) :=
  ⟨congrArg (Tokens.put · toks) h.tokens, h.routines, h.enclosing, h.inConstant, h.folding⟩

lemma put_left {toks : List Token} (h : s.Gains new (t.put toks)) :
    ∃ u : ParseState, s = u.put toks ∧ u.Gains new t :=
  ⟨_, eq_put h.tokens.symm, rfl, h.routines, h.enclosing, h.inConstant, h.folding⟩

lemma put_right {toks : List Token} (h : (s.put toks).Gains new t) :
    ∃ u : ParseState, t = u.put toks ∧ s.Gains new u :=
  ⟨_, eq_put h.tokens, rfl, h.routines, h.enclosing, h.inConstant, h.folding⟩

end Gains

end ParseState

namespace Parse

variable {α β τ : Type} {s t : ParseState}

/-! ### Constant expressions -/

lemma Sound.asConstant {writing : Writing τ} {meaning : Setting → τ → Option α} {p : Parse α}
    (h : Sound writing meaning p) :
    Sound writing (fun setting tree => meaning setting.constant tree) (asConstant p) := by
  intro s a t ready read
  cases e : p { s with inConstant := true } with
  | mk result u =>
    have same : (result, { u with inConstant := s.inConstant }) = (Except.ok a, t) := by
      rw [← read]
      unfold Parse.asConstant
      rw [e]
    cases same
    obtain ⟨tree, toks, put, written, means⟩ :=
      h (s := { s with inConstant := true }) ⟨ready.folding, ready.last⟩ e
    refine ⟨tree, toks, congrArg (fun v => { v with inConstant := s.inConstant }) put, written, ?_⟩
    have constant : u.inConstant = true := (congrArg ParseState.inConstant put).symm
    rw [← means]
    simp only [ParseState.setting, Setting.constant, constant]

lemma Complete.asConstant {writing : Writing τ} {meaning : Setting → τ → Option α} {p : Parse α}
    {before : Token → Prop} {length : Nat} (h : Complete writing meaning p before length) :
    Complete writing (fun setting tree => meaning setting.constant tree) (asConstant p) before
    length := by
  intro s tree toks next a folds peeked ends written means short
  have read := h (s := { s with inConstant := true }) folds peeked ends written means short
  unfold Parse.asConstant
  rw [show ({ s.put toks with inConstant := true } : ParseState) = { s with inConstant := true }.put
    toks from rfl, read]
  rfl

namespace Decides

lemma never {p : Parse α} (h : ∀ s a t, p s ≠ (.ok a, t)) : Decides p none :=
  fun s _ a t => ⟨fun e => absurd e (h s a t), nofun⟩

lemma bound (e : Expr) : Decides (do
      unless e.type = .integer do
        Parse.fail (.boundType e.type) e.span
      match ← constantValue e with
      | .ok (.integer n) => return n
      | .ok other => Parse.fail (.boundValue other.tag) e.span
      | .error (fault, span) => MonadExcept.throw ⟨.runtime fault, span⟩)
    (e.typed? .integer >>= fun e => match e.constant? with
      | .ok (.integer n) => some n
      | _ => none) := by
  have valued : Decides (do
      match ← constantValue e with
      | .ok (.integer n) => return n
      | .ok other => Parse.fail (.boundValue other.tag) e.span
      | .error (fault, span) => MonadExcept.throw ⟨.runtime fault, span⟩)
      (match e.constant? with
        | .ok (.integer n) => some n
        | _ => none) := by
    rw [constantValue_eq]
    cases e.constant? with
    | ok value =>
      cases value with
      | integer n => exact Decides.pure
      | _ => exact Decides.fail
    | error stop =>
      cases stop with
      | fault => exact Decides.throw
      | outOfSteps => exact (Decides.never fun _ _ _ => exhausted_ne_ok).stop
  have answer {k : Expr → Option Integer} :
      (e.typed? .integer >>= k) = if e.type = .integer then k e else none := by
    unfold Expr.typed?
    split <;> rfl
  rw [answer]
  exact .require .fail valued

end Decides

lemma sound_arrayBound : Sound Expression (fun setting e => e.bound? setting) arrayBound :=
  sound_expression.asConstant.decide .bound

lemma complete_arrayBound (length : Nat) :
    Complete Expression (fun setting e => e.bound? setting) arrayBound Token.Ends length :=
  (complete_expression length).asConstant.decide .bound

/-! ### Types -/

section

variable {item : Parse Ty} {length : Nat}

lemma sound_typeOf (h : Sound (Anywhere Typing) TypePhrase.elaborate item) :
    Sound (Anywhere Typing) TypePhrase.elaborate (typeOf item) := by
  intro s a t ready read
  obtain ⟨token, u, taken, more⟩ := bind_eq_ok.1 read
  by_cases ends : token.kind = .endOfText
  · rw [ends] at more
    exact absurd more unexpected_ne_ok
  obtain rfl := put_of_next ready ends taken
  rw [ParseState.ready_put] at ready
  cases is : token.kind <;> rw [is] at more
  case integerType | realType | booleanType =>
    obtain ⟨rfl, rfl⟩ := pure_eq_ok.1 more
    exact ⟨.simple token, [token], rfl, fun _ _ => .simple (by rw [is]; decide),
      by simp [TypePhrase.elaborate, is]⟩
  case arrayType =>
    obtain ⟨opening, v, isOpening, rfl, ready, inside⟩ := expect_inv ready (by decide) more
    obtain ⟨low, front, range, l, v, rfl, readyHigh, written, isRange, means, behind⟩ :=
      sound_arrayBound.closed (by decide) ready inside
    obtain ⟨high, middle, closing, r, w, rfl, readyOf, written', isClosing, means', items⟩ :=
      sound_arrayBound.closed (by decide) readyHigh behind
    obtain ⟨ofWord, x, isOf, rfl, readyOf, last⟩ := expect_inv readyOf (by decide) items
    obtain ⟨type, y, inner, done⟩ := bind_eq_ok.1 last
    obtain ⟨tree, toks, rfl, written'', means''⟩ := h readyOf inner
    split at done
    next =>
      obtain ⟨_, _, failed, -⟩ := bind_eq_ok.1 done
      exact absurd failed fail_ne_ok
    next ordered =>
      obtain ⟨rfl, rfl⟩ := pure_eq_ok.1 done
      refine ⟨.array low high tree,
        token :: opening :: (front ++ range :: (middle ++ closing :: ofWord :: toks)), by simp,
        fun next peeked => ?_, ?_⟩
      · exact .array is isOpening written isRange written' isClosing isOf (written'' next peeked)
      · simp only [ParseState.setting_put] at means means'
        simp [TypePhrase.elaborate, means, means', means'', ordered]
  all_goals exact absurd more unexpected_ne_ok

lemma complete_typeOf
    (h : Complete (Anywhere Typing) TypePhrase.elaborate item (fun _ => True) length) :
    Complete (Anywhere Typing) TypePhrase.elaborate (typeOf item) (fun _ => True) (length + 1) := by
  intro s tree toks next a folds peeked _ written means short
  unfold typeOf
  cases written with
  | @simple word is =>
    rw [bind_of_ok next_put]
    simp only [List.mem_cons, List.not_mem_nil, or_false] at is
    rcases is with is | is | is <;> simp only [TypePhrase.elaborate, is] at means <;> cases means
      <;> rw [is] <;> rfl
  | @array low high tree front middle toks word opening range closing ofWord is isOpening written
      isRange written' isClosing isOf written'' =>
    simp only [List.length_append, List.length_cons] at short
    rw [TypePhrase.elaborate] at means
    obtain ⟨l, lower, means⟩ := Option.bind_eq_some_iff.1 means
    obtain ⟨r, upper, means⟩ := Option.bind_eq_some_iff.1 means
    obtain ⟨type, found, means⟩ := Option.bind_eq_some_iff.1 means
    split at means
    next => cases means
    next ordered =>
      cases means
      rw [bind_of_ok next_put, is]
      refine (bind_of_ok (expect_put isOpening)).trans ?_
      refine ((complete_arrayBound front.length).closed (Token.ends isRange (by decide)) folds
        written isRange lower (Nat.le_refl _)).trans ?_
      refine ((complete_arrayBound middle.length).closed (Token.ends isClosing (by decide)) folds
        written' isClosing upper (Nat.le_refl _)).trans ?_
      rw [bind_of_ok (expect_put isOf),
        bind_of_ok (h folds peeked trivial written'' found (by omega)), if_neg ordered]
      rfl

end

lemma sound_typeWithin : ∀ bound, Sound (Anywhere Typing) TypePhrase.elaborate (typeWithin bound)
  | 0 => fun _ _ _ _ read => absurd read exhausted_ne_ok
  | bound + 1 => fun _ _ _ ready read => sound_typeOf (sound_typeWithin bound) ready read

lemma complete_typeWithin :
    ∀ length, Complete (Anywhere Typing) TypePhrase.elaborate (typeWithin length)
    (fun _ => True) length
  | 0 => by
    intro s tree toks next a _ _ _ written _ short
    cases written <;> cases short
  | length + 1 => fun _ _ _ _ _ folds peeked ends written means short =>
    complete_typeOf (complete_typeWithin length) folds peeked ends written means short

lemma sound_type : Sound (Anywhere Typing) TypePhrase.elaborate type := .within sound_typeWithin

lemma complete_type (length : Nat) :
    Complete (Anywhere Typing) TypePhrase.elaborate type (fun _ => True) length :=
  .within (fun length => (complete_typeWithin (length + 1)).mono (Nat.le_succ length)) length

/-! ### Declaring -/

lemma declare_iff {symbol : Symbol} :
    declare symbol s = (.ok (), t) ↔ s.setting.declare? symbol = some t.setting ∧ s.Gains [] t := by
  have scopes : s.setting.scopes = s.scopes := rfl
  unfold declare Setting.declare?
  rw [bind_of_ok get_self, scopes]
  cases s.scopes.declare symbol with
  | error d => exact ⟨fun h => absurd h throw_ne_ok, nofun⟩
  | ok scopes =>
    refine modify_eq_ok.trans ⟨?_, ?_⟩
    · rintro rfl
      exact ⟨rfl, rfl, (List.append_nil _).symm, rfl, rfl, rfl⟩
    · rintro ⟨same, gains⟩
      have here : ({ s with scopes } : ParseState).Gains [] t :=
        ⟨gains.1, gains.2, gains.3, gains.4, gains.5⟩
      exact here.eq_of_setting (Option.some.inj same)

lemma exists_gains {symbol : Symbol} {setting : Setting}
    (h : s.setting.declare? symbol = some setting) : ∃ t, s.Gains [] t ∧ t.setting = setting := by
  unfold Setting.declare? at h
  split at h
  next scopes _ =>
    refine ⟨{ s with scopes }, ⟨rfl, (List.append_nil _).symm, rfl, rfl, rfl⟩, ?_⟩
    exact Option.some.inj h
  next => cases h

lemma declareAll_iff {f : τ → Symbol} {items : List τ} :
    (items.forM fun item => declare (f item)) s = (.ok (), t) ↔
      s.setting.declareAll? (items.map f) = some t.setting ∧ s.Gains [] t := by
  induction items generalizing s with
  | nil =>
    refine pure_eq_ok.trans ⟨?_, ?_⟩
    · rintro ⟨-, rfl⟩
      exact ⟨rfl, .refl s⟩
    · rintro ⟨same, gains⟩
      exact ⟨rfl, gains.eq_of_setting (Option.some.inj same)⟩
  | cons item rest ih =>
    change (declare (f item) >>= fun _ => rest.forM fun item => declare (f item)) s = _ ↔ _
    rw [bind_eq_ok, List.map_cons, Setting.declareAll?]
    constructor
    · rintro ⟨_, v, first, others⟩
      obtain ⟨declared, gains⟩ := declare_iff.1 first
      obtain ⟨all, more⟩ := ih.1 others
      exact ⟨Option.bind_eq_some_iff.2 ⟨v.setting, declared, all⟩, gains.trans more⟩
    · rintro ⟨all, gains⟩
      obtain ⟨setting, first, others⟩ := Option.bind_eq_some_iff.1 all
      obtain ⟨v, declared, rfl⟩ := exists_gains first
      exact ⟨(), v, declare_iff.2 ⟨first, declared⟩, ih.2 ⟨others, declared.cancel gains⟩⟩

lemma exists_gainsAll {symbols : List Symbol} {setting : Setting}
    (h : s.setting.declareAll? symbols = some setting) :
    ∃ t, s.Gains [] t ∧ t.setting = setting := by
  induction symbols generalizing s with
  | nil => exact ⟨s, .refl s, Option.some.inj h⟩
  | cons symbol rest ih =>
    obtain ⟨_, first, others⟩ := Option.bind_eq_some_iff.1 h
    obtain ⟨u, gains, rfl⟩ := exists_gains first
    obtain ⟨t, more, same⟩ := ih others
    exact ⟨t, gains.trans more, same⟩

/-! ### Readers of declarations -/

section

variable (writing : τ → List Token → Prop)
  (meaning : Setting → Nat → τ → Option (Setting × α × List Routine)) (p : Parse α)

/-- From one point of the text to the other there is the writing of a tree that declares what has
been gained, and means `a`. -/
abbrev Introduces (s : ParseState) (a : α) (t : ParseState) : Prop :=
  ∃ (tree : τ) (toks : List Token) (u : ParseState) (new : List Routine), s = u.put toks ∧
    writing tree toks ∧ meaning u.setting u.routines.length tree = some (t.setting, a, new) ∧
    u.Gains new t

/-- The reader takes off the writing of every tree that has a meaning, if it is not too long and
what is in front of it may stand there, and gains what the tree declares. -/
def Enters (before : Token → Prop) (length : Nat) : Prop :=
  ∀ ⦃s : ParseState⦄ ⦃tree toks next setting a new⦄, s.folding = true → s.tokens.peek = .ok next →
    before next → writing tree toks →
    meaning s.setting s.routines.length tree = some (setting, a, new) → toks.length ≤ length →
    ∃ t, s.Gains new t ∧ t.setting = setting ∧ p (s.put toks) = (.ok a, t)

end

/-! ### Names -/

lemma sound_name : Sound (Anywhere Named) (fun _ name => some name) (expect .identifier) := by
  intro s name t ready read
  obtain ⟨is, rfl⟩ := put_of_expect ready (by decide) read
  exact ⟨name, [name], rfl, fun _ _ => ⟨is, rfl⟩, rfl⟩

lemma complete_name (length : Nat) :
    Complete (Anywhere Named) (fun _ name => some name) (expect .identifier)
    (fun _ => True) length := by
  intro s tree toks next a _ _ _ written means _
  obtain ⟨is, rfl⟩ := written
  cases means
  exact expect_put is

lemma mapM_some (items : List τ) : items.mapM (fun item => some item) = some items := by
  induction items with
  | nil => rfl
  | cons item rest ih => rw [List.mapM_cons, ih]; rfl

lemma sound_names : Sound (Listed (Anywhere Named) .comma) (fun _ names => some names) names := by
  intro s found t ready read
  obtain ⟨tree, toks, put, written, means⟩ := Sound.separated (by decide) sound_name ready read
  exact ⟨tree, toks, put, written, (mapM_some tree).symm.trans means⟩

lemma complete_names (length : Nat) :
    Complete (Listed (Anywhere Named) .comma) (fun _ names => some names) names
    (·.kind ≠ .comma) length := by
  intro s tree toks next found folds peeked ends written means short
  exact (complete_name length).separated (fun _ _ => trivial) folds peeked ⟨trivial, ends⟩ written
    ((mapM_some tree).trans means) short

/-- What may stand between the names of constants and the token behind them. -/
def Trails (comma : List Token) (next : Token) : Prop :=
  comma = [] ∧ next.kind ≠ .comma ∨ ∃ mark, mark.kind = .comma ∧ comma = [mark] ∧ next.kind = .colon

/-- Whether one more name stands behind a comma; a colon may stand there in place of it. -/
def moreNames : Parse Bool := do
  if ← accept .comma then return !(← check .colon) else return false

lemma sound_moreNames {bound : Nat} : ∀ {s t : ParseState} {others : List Token}, s.Ready →
    manyWithin moreNames (expect .identifier) bound s = (.ok others, t) →
    ∃ toks comma, s = t.put (toks ++ comma) ∧
      (∀ next, t.tokens.peek = .ok next → Trails comma next) ∧
      ∀ first, first.kind = .identifier → Names (first :: others) (first :: toks) := by
  induction bound with
  | zero => exact fun _ e => absurd e exhausted_ne_ok
  | succ bound ih =>
    intro s t others ready read
    obtain ⟨more, u, asked, turn⟩ := bind_eq_ok.1 read
    obtain ⟨comma, v, accepted, looked⟩ := bind_eq_ok.1 asked
    cases comma with
    | false =>
      obtain ⟨rfl, rfl⟩ := pure_eq_ok.1 looked
      obtain ⟨rfl, rfl⟩ := pure_eq_ok.1 turn
      obtain ⟨rfl, next, peeked, other⟩ := accept_false accepted
      refine ⟨[], [], rfl, fun next' peeked' => ?_, fun first is => ⟨next, .one ⟨is, rfl⟩⟩⟩
      obtain rfl := Except.ok.inj (peeked.symm.trans peeked')
      exact .inl ⟨rfl, other⟩
    | true =>
      obtain ⟨mark, isComma, rfl⟩ := put_of_accept ready (by decide) accepted
      rw [ParseState.ready_put] at ready
      obtain ⟨_, w, seen, done⟩ := bind_eq_ok.1 looked
      obtain ⟨rfl, colon, peeked, rfl⟩ := check_inv seen
      obtain ⟨rfl, rfl⟩ := pure_eq_ok.1 done
      by_cases is : colon.kind = .colon
      · rw [decide_eq_true is] at turn
        obtain ⟨rfl, rfl⟩ := pure_eq_ok.1 turn
        refine ⟨[], [mark], rfl, fun next' peeked' => ?_, fun first is => ⟨mark, .one ⟨is, rfl⟩⟩⟩
        obtain rfl := Except.ok.inj (peeked.symm.trans peeked')
        exact .inr ⟨mark, isComma, rfl, is⟩
      · rw [decide_eq_false is] at turn
        obtain ⟨name, x, taken, rest⟩ := bind_eq_ok.1 turn
        obtain ⟨names, y, others, last⟩ := bind_eq_ok.1 rest
        obtain ⟨rfl, rfl⟩ := pure_eq_ok.1 last
        obtain ⟨isName, rfl⟩ := put_of_expect ready (by decide) taken
        rw [ParseState.ready_put] at ready
        obtain ⟨toks, comma, rfl, trailing, written⟩ := ih ready others
        refine ⟨mark :: name :: toks, comma, by simp, trailing, fun first is => ?_⟩
        obtain ⟨next, listed⟩ := written name isName
        have named : Named first [first] := ⟨is, rfl⟩
        exact ⟨next, .more named isComma listed⟩

lemma moreNames_of {b : Bool} {mark next : Token} (isComma : mark.kind = .comma)
    (peeked : s.tokens.peek = .ok next) (is : b = decide (next.kind ≠ .colon)) :
    moreNames (s.put [mark]) = (.ok b, s) := by
  unfold moreNames
  rw [bind_of_ok (accept_put isComma), if_pos rfl, ParseState.put_nil, bind_of_ok (check_of peeked),
    is]
  rw [decide_not]
  rfl

lemma complete_moreNames {next : Token} {comma : List Token} (peeked : s.tokens.peek = .ok next)
    (trailing : Trails comma next)
    {others : List Token} {first : Token} {behind : List Token} {bound : Nat}
    (written : Names (first :: others) (first :: behind)) (few : behind.length < bound) :
    manyWithin moreNames (expect .identifier) bound (s.put (behind ++ comma)) =
    (.ok others, s) := by
  induction others generalizing first behind bound with
  | nil =>
    obtain ⟨-, _, same, ⟨-, rfl⟩ | ⟨_, _, -, -, _, none⟩⟩ := written.uncons
    · cases same
      obtain ⟨bound, rfl⟩ := Nat.exists_eq_add_of_lt few
      unfold manyWithin
      obtain ⟨rfl, other⟩ | ⟨mark, isComma, rfl, isColon⟩ := trailing
      · have none : moreNames s = (.ok false, s) := by
          unfold moreNames
          rw [bind_of_ok (accept_of_ne peeked other)]
          rfl
        rw [List.append_nil, ParseState.put_nil, bind_of_ok none]
        rfl
      · rw [List.nil_append,
          bind_of_ok (moreNames_of isComma peeked (b := false) (by simp [isColon]))]
        rfl
    · cases none
  | cons name others ih =>
    obtain ⟨-, _, same, ⟨none, -⟩ | ⟨mark, rest, rfl, isComma, more⟩⟩ := written.uncons
    · cases none
    · cases same
      obtain ⟨isName, behind, rfl, -⟩ := more.uncons
      rw [List.length_cons, List.length_cons] at few
      obtain ⟨bound, rfl⟩ : ∃ n, bound = n + 1 := ⟨bound - 1, by omega⟩
      have asks := moreNames_of (s := s.put (name :: (behind ++ comma))) (b := true) isComma rfl
        (by simp [isName])
      rw [ParseState.put_put] at asks
      unfold manyWithin
      refine (bind_of_ok asks).trans ?_
      rw [if_pos rfl, bind_of_ok (expect_put isName), bind_of_ok (ih more (by omega))]
      rfl

lemma constantNames_eq : constantNames = (do
    let first ← expect .identifier
    let rest ← many moreNames (expect .identifier)
    return first :: rest) := rfl

lemma sound_constantNames {group : List Token} (ready : s.Ready)
    (read : constantNames s = (.ok group, t)) : ∃ toks comma, s = t.put (toks ++ comma) ∧
      (∀ next, t.tokens.peek = .ok next → Trails comma next) ∧ Names group toks := by
  rw [constantNames_eq] at read
  obtain ⟨first, u, taken, more⟩ := bind_eq_ok.1 read
  obtain ⟨others, v, rest, done⟩ := bind_eq_ok.1 more
  obtain ⟨rfl, rfl⟩ := pure_eq_ok.1 done
  obtain ⟨is, rfl⟩ := put_of_expect ready (by decide) taken
  rw [ParseState.ready_put] at ready
  obtain ⟨bound, _, counted, within⟩ := bind_eq_ok.1 rest
  obtain rfl := budget_eq_ok counted
  obtain ⟨toks, comma, rfl, trailing, written⟩ := sound_moreNames ready within
  exact ⟨first :: toks, comma, by simp, trailing, written first is⟩

lemma complete_constantNames {next : Token} {comma group toks : List Token}
    (peeked : s.tokens.peek = .ok next)
    (trailing : Trails comma next) (written : Names group toks) :
    constantNames (s.put (toks ++ comma)) = (.ok group, s) := by
  cases group with
  | nil =>
    obtain ⟨_, none⟩ := written
    cases none
  | cons first others =>
    obtain ⟨is, behind, rfl, -⟩ := written.uncons
    have rest : many moreNames (expect .identifier) (s.put (behind ++ comma)) =
        (.ok others, s) := by
      unfold many
      rw [bind_of_ok budget_self]
      refine complete_moreNames peeked trailing written ?_
      rw [ParseState.length_put, List.length_append]
      omega
    rw [constantNames_eq, List.cons_append, bind_of_ok (expect_put is), bind_of_ok rest]
    rfl

/-! ### Constants -/

/-- Declares constants of the given type whose value is that of `e`. -/
def constantsOf (group : List Token) (type : Ty) (e : Expr) : Parse Declarations := do
  match ← constantValue e with
  | .error (fault, span) => Parse.fail (.invalidConstant fault) span
  | .ok value =>
    group.forM fun name => declare ⟨name.lexeme, .constant value, type, name.span⟩
    return ⟨group.map fun name => (name.lexeme, value), []⟩

/-- A value as one of a type that may be left out. -/
def suited (e : Expr) (sign : Token) : Option Ty → Parse Expr
  | some declared => coerce e declared sign.span .constant
  | none => pure e

/-- Reads a value, and declares constants that have it. -/
def initialized (group : List Token) (declared? : Option Ty) : Parse Declarations := do
  let sign ← expect .equal
  let e ← asConstant expression
  let _ ← expect .semicolon
  let e ← suited e sign declared?
  constantsOf group (declared?.getD e.type) e

lemma constantGroup_eq : constantGroup = (do
    let group ← constantNames
    if ← accept .colon then
      let declared ← type
      initialized group (some declared)
    else initialized group none) := by
  refine congrArg (constantNames >>= ·) (funext fun group => congrArg (accept .colon >>= ·)
    (funext fun typed => ?_))
  cases typed with
  | false => rfl
  | true =>
    refine (bind_map_left some type _).trans ?_
    rfl

lemma constantsOf_iff {group : List Token} {type : Ty} {e : Expr} {part : Declarations} :
    constantsOf group type e s = (.ok part, t) ↔
      s.setting.constants? group type e = some (t.setting, part) ∧ s.Gains [] t := by
  unfold constantsOf Setting.constants?
  rw [constantValue_eq]
  rcases valued : e.constant? with stop | value
  · refine ⟨fun h => ?_, nofun⟩
    cases stop with
    | fault => exact absurd h fail_ne_ok
    | outOfSteps =>
      obtain ⟨_, _, failed, -⟩ := bind_eq_ok.1 h
      exact absurd failed exhausted_ne_ok
  · dsimp only
    rw [pure_bind]
    constructor
    · intro h
      obtain ⟨_, u, declared, done⟩ := bind_eq_ok.1 h
      obtain ⟨rfl, rfl⟩ := pure_eq_ok.1 done
      obtain ⟨all, gains⟩ := declareAll_iff.1 declared
      exact ⟨Option.bind_eq_some_iff.2 ⟨value, rfl, Option.bind_eq_some_iff.2 ⟨_, all, rfl⟩⟩, gains⟩
    · rintro ⟨h, gains⟩
      obtain ⟨_, same, h⟩ := Option.bind_eq_some_iff.1 h
      cases same
      obtain ⟨setting, all, h⟩ := Option.bind_eq_some_iff.1 h
      cases h
      exact bind_eq_ok.2 ⟨(), t, declareAll_iff.2 ⟨all, gains⟩, rfl⟩

lemma Decides.suited (e : Expr) (sign : Token) (type? : Option Ty) :
    Decides (suited e sign type?) (e.suited? type?) := by
  cases type? with
  | none => exact .pure
  | some declared => exact .coerce _ _ _ _

/-- What is written behind the names and the type of constants. -/
def Initialization (value : Phrase) (toks : List Token) : Prop :=
  ∃ sign inner last, sign.kind = .equal ∧ Expression value inner last ∧
    last.kind = .semicolon ∧ toks = sign :: (inner ++ [last])

lemma sound_initialized {group : List Token} {type? : Option Ty} {part : Declarations}
    (ready : s.Ready) (read : initialized group type? s = (.ok part, t)) :
    ∃ (value : Phrase) (toks : List Token) (u : ParseState),
      s = u.put toks ∧ Initialization value toks ∧
      u.setting.initialized? group type? value = some (t.setting, part) ∧ u.Gains [] t := by
  obtain ⟨sign, u, isSign, rfl, ready, inside⟩ := expect_inv ready (by decide) read
  obtain ⟨value, inner, last, raw, v, rfl, readyValue, written, isLast, means, rest⟩ :=
    sound_expression.asConstant.closed (by decide) ready inside
  obtain ⟨e, w, fits, declared⟩ := bind_eq_ok.1 rest
  obtain ⟨fitted, rfl⟩ := (Decides.suited raw sign type? v readyValue.folding e w).1 fits
  obtain ⟨result, gains⟩ := constantsOf_iff.1 declared
  refine ⟨value, sign :: (inner ++ [last]), v, by simp, ⟨sign, inner, last, isSign, written, isLast,
    rfl⟩, ?_, gains⟩
  exact Option.bind_eq_some_iff.2 ⟨raw, means, Option.bind_eq_some_iff.2 ⟨e, fitted, result⟩⟩

lemma complete_initialized {group toks : List Token} {type? : Option Ty} {part : Declarations}
    {value : Phrase} {setting : Setting} (folds : s.folding = true)
    (written : Initialization value toks)
    (means : s.setting.initialized? group type? value = some (setting, part)) :
    ∃ t, s.Gains [] t ∧ t.setting = setting ∧
    initialized group type? (s.put toks) = (.ok part, t) := by
  obtain ⟨sign, inner, last, isSign, written, isLast, rfl⟩ := written
  obtain ⟨raw, found, means⟩ := Option.bind_eq_some_iff.1 means
  obtain ⟨e, fits, means⟩ := Option.bind_eq_some_iff.1 means
  have declared := means
  unfold Setting.constants? at declared
  obtain ⟨_, -, declared⟩ := Option.bind_eq_some_iff.1 declared
  obtain ⟨_, all, same⟩ := Option.bind_eq_some_iff.1 declared
  cases same
  obtain ⟨t, gains, rfl⟩ := exists_gainsAll all
  refine ⟨t, gains, rfl, ?_⟩
  unfold initialized
  rw [bind_of_ok (expect_put isSign)]
  refine ((complete_expression inner.length).asConstant.closed (Token.ends isLast (by decide)) folds
    written isLast found (Nat.le_refl _)).trans ?_
  refine (bind_of_ok ((Decides.suited raw sign type? s folds e s).2 ⟨fits, rfl⟩)).trans ?_
  exact constantsOf_iff.2 ⟨means, gains⟩

abbrev plain (elaborate : Setting → τ → Option (Setting × Declarations)) (setting : Setting)
    (_ : Nat) (group : τ) : Option (Setting × Declarations × List Routine) :=
  (elaborate setting group).map fun (setting, part) => (setting, part, [])

lemma plain_eq_some {elaborate : Setting → τ → Option (Setting × Declarations)}
    {setting setting' : Setting} {count : Nat} {group : τ} {part : Declarations}
    {new : List Routine} :
    plain elaborate setting count group = some (setting', part, new) ↔
      elaborate setting group = some (setting', part) ∧ new = [] := by
  unfold plain
  rcases elaborate setting group with _ | ⟨_, _⟩
  · exact ⟨nofun, nofun⟩
  · simp [and_assoc, eq_comm]

lemma sound_constantGroup {part : Declarations} (ready : s.Ready)
    (read : constantGroup s = (.ok part, t)) :
    Introduces Constants (plain ConstantPhrase.elaborate) s part t := by
  rw [constantGroup_eq] at read
  obtain ⟨group, u, named, more⟩ := bind_eq_ok.1 read
  obtain ⟨front, comma, rfl, trailing, names⟩ := sound_constantNames ready named
  rw [ParseState.ready_put] at ready
  obtain ⟨typed, v, asked, inside⟩ := bind_eq_ok.1 more
  cases typed with
  | true =>
    obtain ⟨declared, w, annotated, rest⟩ := bind_eq_ok.1 inside
    obtain ⟨colon, isColon, rfl⟩ := put_of_accept ready (by decide) asked
    rw [ParseState.ready_put] at ready
    obtain ⟨type, middle, rfl, typing, means⟩ := sound_type ready annotated
    rw [ParseState.ready_put] at ready
    obtain ⟨value, _, x, rfl, ⟨sign, inner, last, isSign, written, isLast, rfl⟩, result, gains⟩ :=
      sound_initialized ready rest
    refine ⟨⟨group, some type, value⟩,
      front ++ (comma ++ colon :: (middle ++ sign :: (inner ++ [last]))), x, [], by simp, ?_, ?_,
      gains⟩
    · refine .typed names ?_ isColon (typing sign rfl) isSign written isLast
      exact (trailing colon rfl).imp (·.1) fun ⟨mark, isComma, same, _⟩ => ⟨mark, isComma, same⟩
    · rw [ParseState.setting_put] at means
      refine plain_eq_some.2 ⟨?_, rfl⟩
      simp [ConstantPhrase.elaborate, TypePhrase.elaborate?, means, result]
  | false =>
    obtain ⟨rfl, next, peeked, notColon⟩ := accept_false asked
    obtain ⟨value, _, x, rfl, ⟨sign, inner, last, isSign, written, isLast, rfl⟩, result, gains⟩ :=
      sound_initialized ready inside
    obtain ⟨rfl, -⟩ | ⟨_, -, -, isColon⟩ := trailing next peeked
    · exact ⟨⟨group, none, value⟩, front ++ sign :: (inner ++ [last]), x, [], by simp,
        .plain names isSign written isLast, plain_eq_some.2 ⟨result, rfl⟩, gains⟩
    · exact absurd isColon notColon

lemma enters_constantGroup (length : Nat) :
    Enters Constants (plain ConstantPhrase.elaborate) constantGroup (fun _ => True) length := by
  intro s tree toks next setting part new folds peeked _ written means short
  obtain ⟨result, rfl⟩ := plain_eq_some.1 means
  rw [constantGroup_eq]
  cases written with
  | @plain names value front inner sign last written isSign expression isLast =>
    obtain ⟨t, gains, same, read⟩ := complete_initialized folds
      ⟨sign, inner, last, isSign, expression, isLast, rfl⟩ result
    refine ⟨t, gains, same, ?_⟩
    have named := complete_constantNames (s := s.put (sign :: (inner ++ [last]))) rfl
      (.inl ⟨rfl, by rw [isSign]; decide⟩) written
    rw [ParseState.put_put, List.append_nil] at named
    rw [bind_of_ok named, bind_of_ok (accept_of_ne rfl (by rw [isSign]; decide))]
    exact read
  | @typed names comma type value front middle inner colon sign last written trailing isColon typing
      isSign expression isLast =>
    obtain ⟨declared, annotated, initial⟩ := Option.bind_eq_some_iff.1 result
    obtain ⟨ty, means, rfl⟩ := Option.map_eq_some_iff.1 annotated
    obtain ⟨t, gains, same, read⟩ := complete_initialized folds
      ⟨sign, inner, last, isSign, expression, isLast, rfl⟩ initial
    refine ⟨t, gains, same, ?_⟩
    have stops : Trails comma colon := trailing.imp (fun none => ⟨none, by rw [isColon]; decide⟩)
      fun ⟨mark, isComma, same⟩ => ⟨mark, isComma, same, isColon⟩
    have named :=
      complete_constantNames (s := s.put (colon :: (middle ++ sign :: (inner ++ [last])))) rfl stops
        written
    have typed := complete_type middle.length (s := s.put (sign :: (inner ++ [last]))) folds rfl
      trivial typing means (Nat.le_refl _)
    rw [ParseState.put_put] at named typed
    rw [List.append_assoc] at named
    rw [bind_of_ok named, bind_of_ok (accept_put isColon), if_pos rfl]
    refine (bind_of_ok typed).trans ?_
    exact read

/-! ### Variables and parameters -/

lemma sound_parameterGroup :
    Sound (Anywhere Variables) (fun setting group => group.places? setting) parameterGroup := by
  intro s found t ready read
  obtain ⟨names, front, colon, _, u, rfl, readyType, listed, isColon, same, inside⟩ :=
    sound_names.closed (by decide) ready read
  cases same
  obtain ⟨common, v, annotated, done⟩ := bind_eq_ok.1 inside
  obtain ⟨rfl, rfl⟩ := pure_eq_ok.1 done
  obtain ⟨type, toks, rfl, typing, means⟩ := sound_type readyType annotated
  refine ⟨⟨names, type⟩, front ++ colon :: toks, by simp, fun next peeked => ?_, ?_⟩
  · exact .mk ⟨colon, listed⟩ isColon (typing next peeked)
  · simp [VariablePhrase.places?, means]

lemma complete_parameterGroup (length : Nat) : Complete (Anywhere Variables)
    (fun setting group => group.places? setting) parameterGroup (fun _ => True) length := by
  intro s tree toks next found folds peeked _ written means _
  obtain ⟨names, isColon, typing⟩ := written
  obtain ⟨common, annotated, same⟩ := Option.bind_eq_some_iff.1 means
  cases same
  unfold parameterGroup
  refine ((complete_names _).closed (by rw [isColon]; decide) folds names.listed isColon rfl
    (Nat.le_refl _)).trans ?_
  rw [bind_of_ok (complete_type _ folds peeked trivial typing annotated (Nat.le_refl _))]
  rfl

lemma storages_eq (group : List Token) (type : Ty) : storages (group.map fun name => (name, type)) =
    group.map fun name => .storage name.lexeme type name.span := by
  unfold storages
  rw [List.map_map]
  rfl

lemma sound_variableGroup {part : Declarations} (ready : s.Ready)
    (read : variableGroup s = (.ok part, t)) :
    Introduces Declared (plain VariablePhrase.elaborate) s part t := by
  obtain ⟨names, front, colon, _, u, rfl, readyType, listed, isColon, same, inside⟩ :=
    sound_names.closed (by decide) ready read
  cases same
  obtain ⟨type, toks, last, common, v, rfl, _, typing, isLast, means, rest⟩ :=
    sound_type.closed (by decide) readyType inside
  obtain ⟨_, w, declared, done⟩ := bind_eq_ok.1 rest
  obtain ⟨rfl, rfl⟩ := pure_eq_ok.1 done
  obtain ⟨all, gains⟩ := declareAll_iff.1 declared
  refine ⟨⟨names, type⟩, front ++ colon :: toks ++ [last], v, [], by simp, ?_,
    plain_eq_some.2 ⟨?_, rfl⟩, gains⟩
  · exact ⟨front ++ colon :: toks, last, .mk ⟨colon, listed⟩ isColon typing, isLast, rfl⟩
  · rw [← storages_eq] at all
    simp [VariablePhrase.elaborate, VariablePhrase.places?, means, all]

lemma enters_variableGroup (length : Nat) :
    Enters Declared (plain VariablePhrase.elaborate) variableGroup (fun _ => True) length := by
  intro s tree toks next setting part new folds peeked _ written means _
  obtain ⟨result, rfl⟩ := plain_eq_some.1 means
  obtain ⟨_, last, ⟨names, isColon, typing⟩, isLast, rfl⟩ := written
  obtain ⟨places, found, result⟩ := Option.bind_eq_some_iff.1 result
  obtain ⟨common, annotated, same⟩ := Option.bind_eq_some_iff.1 found
  cases same
  obtain ⟨_, all, same⟩ := Option.bind_eq_some_iff.1 result
  cases same
  obtain ⟨t, gains, rfl⟩ := exists_gainsAll all
  rw [storages_eq] at all
  refine ⟨t, gains, rfl, ?_⟩
  unfold variableGroup
  rw [List.append_assoc, List.cons_append]
  refine ((complete_names _).closed (by rw [isColon]; decide) folds names.listed isColon rfl
    (Nat.le_refl _)).trans ?_
  refine ((complete_type _).closed trivial folds typing isLast annotated (Nat.le_refl _)).trans ?_
  rw [ParseState.put_nil, bind_of_ok (declareAll_iff.2 ⟨all, gains⟩), List.map_map]
  rfl

end Parse

end SmallPascal
