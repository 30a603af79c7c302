import SmallPascal.Proofs.ExpressionReading
import SmallPascal.Proofs.Recognition

/-!
Expressions are read as the grammar has them: operators are grouped from the left on two levels, and
`not` takes the longest expression behind it.
-/

namespace SmallPascal

open Steps Grammar

namespace Parse

variable {α τ : Type} {s t : ParseState}

/-! ### Extending what was read -/

/-- So many extensions lead from what was read at one point to what was read at another. -/
inductive Extends (step : α → Parse (Option α)) : Nat → α → ParseState → α → ParseState → Prop
  | start {a : α} {s : ParseState} : Extends step 0 a s a s
  | more {n : Nat} {a b c : α} {s t u : ParseState} : Extends step n a s b t →
    step b t = (.ok (some c), u) → Extends step (n + 1) a s c u

lemma Extends.within {step : α → Parse (Option α)} {n : Nat} {a b : α}
    (h : Extends step n a s b t) :
    ∀ bound, extendWithin step (bound + n) a s = extendWithin step bound b t := by
  induction h with
  | start => exact fun _ => rfl
  | @more n a b c s t u _ last ih =>
    intro bound
    rw [show bound + (n + 1) = bound + 1 + n by omega, ih]
    conv_lhs => unfold extendWithin
    rw [bind_of_ok last]

lemma Extends.extend_eq {step : α → Parse (Option α)} {n : Nat} {a b : α}
    (h : Extends step n a s b t) (few : n ≤ s.tokens.items.length)
    (last : step b t = (.ok none, t)) : extend step a s = (.ok b, t) := by
  have counted : budget s = (.ok (s.tokens.items.length - n + 1 + n), s) := by
    rw [show s.tokens.items.length - n + 1 + n = s.tokens.items.length + 1 by omega]
    rfl
  unfold extend
  rw [bind_of_ok counted, h.within]
  unfold extendWithin
  rw [bind_of_ok last]
  rfl

lemma extend_stops {step : α → Parse (Option α)} {a b : α} (h : extend step a s = (.ok b, t)) :
    ∃ u, step b u = (.ok none, t) := by
  obtain ⟨bound, s', -, extended⟩ := bind_eq_ok.1 h
  clear h
  induction bound generalizing a s' with
  | zero => exact absurd extended exhausted_ne_ok
  | succ bound ih =>
    obtain ⟨found, u, tried, more⟩ := bind_eq_ok.1 extended
    cases found with
    | some c => exact ih _ more
    | none =>
      obtain ⟨rfl, rfl⟩ := pure_eq_ok.1 more
      exact ⟨_, tried⟩

/-! ### Operators -/

/-- The parser's table of operators has the entries that are listed. -/
def Tabulates (operators : List (Kind × BinaryOp)) (operator? : Kind → Option BinaryOp) : Prop :=
  ∀ kind op, (kind, op) ∈ operators ↔ operator? kind = some op

lemma tabulates_sums : Tabulates sums Kind.additive? := by
  intro kind op
  cases kind <;> simp [sums, Kind.additive?, eq_comm]

lemma tabulates_products : Tabulates products Kind.multiplicative? := by
  intro kind op
  cases kind <;> simp [products, Kind.multiplicative?, eq_comm]

section

variable {operators : List (Kind × BinaryOp)} {operator? : Kind → Option BinaryOp}
  {writing : Writing Phrase} {operand : Parse Expr}

lemma binary_same {op : BinaryOp} {operator : Token} {left right e : Expr}
    (h : binary op operator left right s = (.ok e, t)) : s = t := by
  unfold binary at h
  rcases found : op.resultType? left.type right.type with _ | type <;> rw [found] at h
  · exact absurd h fail_ne_ok
  · dsimp only at h
    rw [fold_eq] at h
    obtain ⟨_, _, got, done⟩ := bind_eq_ok.1 h
    obtain ⟨rfl, rfl⟩ := get_eq_ok.1 got
    exact (pure_eq_ok.1 done).2

/-- One more operation in a chain, if there is one. -/
def operation (operator? : Kind → Option BinaryOp) (operand : Parse Expr) (left : Expr) :
    Parse (Option Expr) := do
  let operator ← peek
  match operator? operator.kind with
  | none => return none
  | some op =>
    let _ ← next
    let right ← operand
    some <$> binary op operator left right

lemma operation_eq_ok {left : Expr} {found : Option Expr}
    (h : operation operator? operand left s = (.ok found, t)) :
    (found = none ∧ s = t ∧ ∃ token, t.tokens.peek = .ok token ∧ operator? token.kind = none) ∨
      ∃ op operator u right v e, operator? operator.kind = some op ∧ s.tokens.peek = .ok operator ∧
        next s = (.ok operator, u) ∧ operand u = (.ok right, v) ∧
        binary op operator left right v = (.ok e, t) ∧ found = some e := by
  obtain ⟨operator, _, seen, more⟩ := bind_eq_ok.1 h
  obtain ⟨rfl, peeked⟩ := peek_eq_ok seen
  rcases is : operator? operator.kind with _ | op <;> rw [is] at more
  · obtain ⟨rfl, rfl⟩ := pure_eq_ok.1 more
    exact .inl ⟨rfl, rfl, operator, peeked, is⟩
  · obtain ⟨token, u, taken, more'⟩ := bind_eq_ok.1 more
    obtain ⟨right, v, read, done⟩ := bind_eq_ok.1 more'
    rw [map_eq_pure_bind] at done
    obtain ⟨e, w, put, done'⟩ := bind_eq_ok.1 done
    obtain ⟨rfl, rfl⟩ := pure_eq_ok.1 done'
    obtain rfl := Except.ok.inj (peeked.symm.trans (peek_of_next taken))
    exact .inr ⟨op, operator, u, right, v, e, is, peeked, taken, read, put, rfl⟩

lemma Sound.chain (table : Tabulates operators operator?)
    (atEnd : ∀ token : Token, token.kind = .endOfText → operator? token.kind = none)
    (h : Sound writing Phrase.elaborate operand) :
    Sound (Chain operators writing) Phrase.elaborate (chain operator? operand) := by
  intro s a t ready read
  obtain ⟨first, u, taken, more⟩ := bind_eq_ok.1 read
  let P (a : Expr) (u : ParseState) : Prop := ∃ tree toks, s = u.put toks ∧
    (∀ next, u.tokens.peek = .ok next → Chain operators writing tree toks next) ∧
    tree.elaborate u.setting = some a
  have start : P first u := by
    obtain ⟨tree, toks, e, written, means⟩ := h ready taken
    exact ⟨tree, toks, e, fun next peeked => .first (written next peeked), means⟩
  refine extend_keeps (P := P) ?_ start more
  rintro left v found w ⟨tree, front, rfl, written, means⟩ extended
  rw [ParseState.ready_put] at ready
  obtain ⟨rfl, rfl, -⟩ | ⟨op, operator, x, right, y, e, is, peeked, passed, other, put, rfl⟩ :=
    operation_eq_ok extended
  · exact ⟨tree, front, rfl, written, means⟩
  · have notEnd : operator.kind ≠ .endOfText := fun ends => by simp [atEnd operator ends] at is
    obtain rfl := put_of_next ready notEnd passed
    rw [ParseState.ready_put] at ready
    obtain ⟨tree', behind, rfl, written', means'⟩ := h ready other
    rw [ParseState.ready_put] at ready
    obtain ⟨result, rfl⟩ := (Decides.binary op operator left right y ready.folding e w).1 put
    refine ⟨.binary op tree tree', front ++ operator :: behind, by simp, fun next peeked => ?_, ?_⟩
    · exact .more (written operator rfl) ((table _ _).2 is) (written' next peeked)
    · simp only [ParseState.setting_put] at means
      rw [Phrase.elaborate, means, means']
      exact result

lemma chain_stops {Q : ParseState → Prop} (h : ∀ {s a t}, operand s = (.ok a, t) → Q t) {a : Expr}
    (read : chain operator? operand s = (.ok a, t)) :
    Q t ∧ ∃ token, t.tokens.peek = .ok token ∧ operator? token.kind = none := by
  obtain ⟨first, u, taken, more⟩ := bind_eq_ok.1 read
  constructor
  · refine extend_keeps (P := fun _ u => Q u) ?_ (h taken) more
    rintro left v found w kept extended
    obtain ⟨-, rfl, -⟩ | ⟨op, operator, x, right, y, e, -, -, -, other, put, -⟩ :=
      operation_eq_ok extended
    · exact kept
    · obtain rfl := binary_same put
      exact h other
  · obtain ⟨v, last⟩ := extend_stops more
    obtain ⟨-, rfl, stops⟩ | ⟨_, _, _, _, _, _, -, -, -, -, -, some⟩ := operation_eq_ok last
    · exact stops
    · cases some

lemma chain_complete (table : Tabulates operators operator?) {before : Token → Prop} {length : Nat}
    (h : Complete writing Phrase.elaborate operand before length)
    (between : ∀ (token : Token) (op : BinaryOp), operator? token.kind = some op → before token)
    {tree : Phrase} {toks : List Token} {next : Token}
    (written : Chain operators writing tree toks next) :
    ∀ {s a}, s.folding = true → s.tokens.peek = .ok next → before next →
      tree.elaborate s.setting = some a → toks.length ≤ length → ∃ n first rest,
        operand (s.put toks) = (.ok first, s.put rest) ∧ n ≤ rest.length ∧
        Extends (operation operator? operand) n first (s.put rest) a s := by
  induction written with
  | first written =>
    intro s a folds peeked ends means short
    exact ⟨0, a, [], h folds peeked ends written means short, Nat.le_refl _, .start⟩
  | @more op left right front behind operator next _ listed written ih =>
    intro s a folds peeked ends means short
    have is := (table _ _).1 listed
    rw [Phrase.elaborate] at means
    obtain ⟨l, meansLeft, means⟩ := Option.bind_eq_some_iff.1 means
    obtain ⟨r, meansRight, means⟩ := Option.bind_eq_some_iff.1 means
    simp only [List.length_append, List.length_cons] at short
    obtain ⟨n, first, rest, taken, few, extended⟩ :=
      ih (s := s.put (operator :: behind)) folds rfl (between operator op is) meansLeft (by omega)
    rw [ParseState.put_put] at taken
    rw [ParseState.put_put] at taken extended
    refine ⟨n + 1, first, rest ++ operator :: behind, taken, ?_, .more extended ?_⟩
    · simp only [List.length_append, List.length_cons]
      omega
    · unfold operation
      rw [bind_of_ok (peek_of ParseState.peek_put_cons), is]
      dsimp only
      rw [bind_of_ok next_put, bind_of_ok (h folds peeked ends written meansRight (by omega))]
      exact map_of_ok ((Decides.binary op operator l r s folds a s).2 ⟨means, rfl⟩)

lemma Complete.chain (table : Tabulates operators operator?) {before : Token → Prop} {length : Nat}
    (h : Complete writing Phrase.elaborate operand before length)
    (between : ∀ (token : Token) (op : BinaryOp), operator? token.kind = some op → before token) :
    Complete (Chain operators writing) Phrase.elaborate (chain operator? operand)
      (fun next => before next ∧ operator? next.kind = none) length := by
  intro s tree toks next a folds peeked ends written means short
  obtain ⟨n, first, rest, taken, few, extended⟩ :=
    chain_complete table h between written folds peeked ends.1 means short
  unfold Parse.chain
  rw [bind_of_ok taken]
  refine extended.extend_eq ?_ ?_
  · rw [ParseState.length_put]
    omega
  · unfold operation
    rw [bind_of_ok (peek_of peeked), ends.2]
    rfl

end

end Parse

/-! ### Behind an expression -/

/-- The token opens arguments or a subscript. -/
def Token.Opens (token : Token) : Prop := token.kind = .leftParen ∨ token.kind = .leftBracket

def Token.Ends (token : Token) : Prop := ¬ token.Opens ∧ ¬ token.IsOperator

/-- The kinds of tokens that may stand behind an expression. -/
def Kind.closers : List Kind :=
  [.rightParen, .rightBracket, .comma, .semicolon, .range, .thenWord, .doWord, .toWord, .elseWord,
    .endWord, .endOfText]

lemma Token.isOperator_iff {token : Token} :
    token.IsOperator ↔ token.kind.additive? ≠ none ∨ token.kind.multiplicative? ≠ none := by
  simp only [Token.IsOperator, List.mem_append, exists_or, Parse.tabulates_sums _ _,
    Parse.tabulates_products _ _, Option.ne_none_iff_exists']

lemma Token.ends {token : Token} {kind : Kind} (is : token.kind = kind) (h : kind ∈ Kind.closers) :
    token.Ends := by
  subst is
  unfold Token.Ends
  rw [Token.isOperator_iff]
  have closes : ∀ kind ∈ Kind.closers, ¬ (kind = .leftParen ∨ kind = .leftBracket) ∧
      ¬ (kind.additive? ≠ none ∨ kind.multiplicative? ≠ none) := by decide
  exact closes _ h

lemma Token.not_opens_of_operator {token : Token} {operator? : Kind → Option BinaryOp}
    {op : BinaryOp} (paren : operator? .leftParen = none) (bracket : operator? .leftBracket = none)
    (h : operator? token.kind = some op) : ¬ token.Opens := by
  rintro (e | e) <;> rw [e] at h
  · rw [paren] at h
    cases h
  · rw [bracket] at h
    cases h

lemma Token.multiplicative_of_additive {token : Token} {op : BinaryOp}
    (h : token.kind.additive? = some op) : token.kind.multiplicative? = none := by
  revert h
  generalize token.kind = kind
  cases kind <;> intro h <;> first | rfl | cases h

namespace Grammar

lemma Starts.chain {kinds : List Kind} {operators : List (Kind × BinaryOp)}
    {operand : Writing Phrase} (h : Starts kinds operand) :
    Starts kinds (Chain operators operand) := by
  intro tree toks next written
  induction written with
  | first written => exact h written
  | more _ _ _ ih =>
    obtain ⟨first, rest, rfl, kind⟩ := ih
    exact ⟨first, _, rfl, kind⟩

lemma Access.starts {expression : Writing Phrase} {tree : Phrase} {toks : List Token}
    (h : Access expression tree toks) :
    ∃ name rest, toks = name :: rest ∧ name.kind = .identifier := by
  induction h with
  | name is => exact ⟨_, _, rfl, is⟩
  | call is => exact ⟨_, _, rfl, is⟩
  | index _ _ _ _ ih =>
    obtain ⟨name, rest, rfl, is⟩ := ih
    exact ⟨name, _, rfl, is⟩

lemma Enclosed.inner {expression : Writing Phrase} {args : List Phrase} {closing : Token}
    {toks : List Token} (h : Enclosed expression args closing toks) :
    ∃ opening inner, toks = opening :: (inner ++ [closing]) ∧
      opening.kind = .leftParen ∧ closing.kind = .rightParen ∧
      (args = [] ∧ inner = [] ∨ Listed expression .comma args inner closing) := by
  cases h with
  | none isOpening isClosing => exact ⟨_, [], rfl, isOpening, isClosing, .inl ⟨rfl, rfl⟩⟩
  | some isOpening listed isClosing => exact ⟨_, _, rfl, isOpening, isClosing, .inr listed⟩

lemma starts_term :
    Starts (Kind.literals ++ [.identifier, .plus, .minus, .notWord, .leftParen]) Term := by
  intro tree toks next written
  cases written with
  | literal is => exact ⟨_, _, rfl, List.mem_append_left _ is⟩
  | access written =>
    obtain ⟨name, rest, rfl, is⟩ := written.starts
    exact ⟨name, rest, rfl, by rw [is]; decide⟩
  | @sign op _ _ mark _ is =>
    refine ⟨_, _, rfl, ?_⟩
    revert is
    generalize mark.kind = kind
    cases kind <;> intro is <;> first | decide | cases is
  | not is => exact ⟨_, _, rfl, by rw [is]; decide⟩
  | group is => exact ⟨_, _, rfl, by rw [is]; decide⟩

end Grammar

namespace Parse

variable {α β τ : Type} {s t : ParseState}

lemma Sound.decide {writing : Writing τ} {meaning : Setting → τ → Option α} {p : Parse α}
    {f : α → Parse β} {k : α → Option β} (h : Sound writing meaning p)
    (next : ∀ a, Decides (f a) (k a)) :
    Sound writing (fun setting tree => meaning setting tree >>= k) (p >>= f) := by
  intro s b t ready read
  obtain ⟨a, u, taken, checked⟩ := bind_eq_ok.1 read
  obtain ⟨tree, toks, rfl, written, means⟩ := h ready taken
  obtain ⟨found, rfl⟩ := (next a u (ParseState.ready_put.1 ready).folding b t).1 checked
  exact ⟨tree, toks, rfl, written, Option.bind_eq_some_iff.2 ⟨a, means, found⟩⟩

lemma Complete.decide {writing : Writing τ} {meaning : Setting → τ → Option α} {p : Parse α}
    {before : Token → Prop} {length : Nat} {f : α → Parse β} {k : α → Option β}
    (h : Complete writing meaning p before length) (next : ∀ a, Decides (f a) (k a)) :
    Complete writing (fun setting tree => meaning setting tree >>= k) (p >>= f) before length := by
  intro s tree toks token b folds peeked ends written means short
  obtain ⟨a, found, means⟩ := Option.bind_eq_some_iff.1 means
  rw [bind_of_ok (h folds peeked ends written found short)]
  exact (next a s folds b s).2 ⟨means, rfl⟩

section

variable {term : Parse Expr} {length : Nat}

lemma sound_expressionOf (h : Sound Term Phrase.elaborate term) :
    Sound Expression Phrase.elaborate (expressionOf term) :=
  Sound.chain tabulates_sums (fun _ ends => ends ▸ rfl)
    (Sound.chain tabulates_products (fun _ ends => ends ▸ rfl) h)

lemma expressionOf_stops {a : Expr} (h : expressionOf term s = (.ok a, t)) :
    ∃ next, t.tokens.peek = .ok next ∧ ¬ next.IsOperator := by
  obtain ⟨⟨next, peeked, multiplicative⟩, other, peeked', additive⟩ :=
    chain_stops (Q := fun t => ∃ next, t.tokens.peek = .ok next ∧ next.kind.multiplicative? = none)
      (fun read => (chain_stops (Q := fun _ => True) (fun _ => trivial) read).2) h
  obtain rfl := Except.ok.inj (peeked.symm.trans peeked')
  exact ⟨next, peeked, fun is => (Token.isOperator_iff.1 is).elim (· additive) (· multiplicative)⟩

lemma complete_expressionOf (h : Complete Term Phrase.elaborate term (¬ ·.Opens) length) :
    Complete Expression Phrase.elaborate (expressionOf term) Token.Ends length := by
  have factor := Complete.chain tabulates_products h fun _ _ => Token.not_opens_of_operator rfl rfl
  have both := Complete.chain tabulates_sums factor fun _ _ is =>
    ⟨Token.not_opens_of_operator rfl rfl is, Token.multiplicative_of_additive is⟩
  intro s tree toks next a folds peeked ⟨opens, operator⟩ written means short
  rw [Token.isOperator_iff, not_or, not_not, not_not] at operator
  exact both folds peeked ⟨⟨opens, operator.2⟩, operator.1⟩ written means short

/-! ### Arguments and subscripts -/

lemma sound_argumentsOf (h : Sound Term Phrase.elaborate term) {head : Token} {args : List Expr}
    {last : Span} (ready : s.Ready) (read : argumentsOf term head s = (.ok (args, last), t)) :
    ∃ phrases token toks, s = t.put toks ∧ Args head phrases token toks ∧ last = token.span ∧
      phrases.mapM (Phrase.elaborate t.setting) = some args := by
  obtain ⟨opens, u, asked, more⟩ := bind_eq_ok.1 read
  cases opens with
  | false =>
    obtain ⟨same, rfl⟩ := pure_eq_ok.1 more
    cases same
    exact ⟨[], head, [], (accept_false asked).1, .inl ⟨rfl, rfl, rfl⟩, rfl, rfl⟩
  | true =>
    obtain ⟨opening, isOpening, rfl⟩ := put_of_accept ready (by decide) asked
    rw [ParseState.ready_put] at ready
    obtain ⟨phrases, toks, closing, found, v, rfl, listed, isClosing, means, done⟩ :=
      Sound.enclosed (show Kind.comma ≠ .endOfText by decide) (sound_expressionOf h) ready more
    obtain ⟨same, rfl⟩ := pure_eq_ok.1 done
    cases same
    refine ⟨phrases, closing, opening :: (toks ++ [closing]), by simp, .inr ?_, rfl, means⟩
    obtain ⟨rfl, rfl⟩ | written := listed
    · exact .none isOpening isClosing
    · exact .some isOpening written isClosing

lemma complete_argumentsOf (h : Complete Term Phrase.elaborate term (¬ ·.Opens) length)
    {head last next : Token} {phrases : List Phrase} {toks : List Token} {args : List Expr}
    (folds : s.folding = true) (peeked : s.tokens.peek = .ok next) (other : next.kind ≠ .leftParen)
    (written : Args head phrases last toks)
    (means : phrases.mapM (Phrase.elaborate s.setting) = some args) (short : toks.length ≤ length) :
    argumentsOf term head (s.put toks) = (.ok (args, last.span), s) := by
  unfold argumentsOf
  rcases written with ⟨rfl, rfl, rfl⟩ | enclosed
  · cases means
    rw [ParseState.put_nil, bind_of_ok (accept_of_ne peeked other)]
    rfl
  obtain ⟨opening, inner, rfl, isOpening, isClosing, listed⟩ := enclosed.inner
  have begins : Starts _ Expression := Starts.chain (Starts.chain starts_term)
  have between (mark : Token) (is : mark.kind = .comma ∨ mark.kind = .rightParen) : mark.Ends := by
    rcases is with is | is <;> exact Token.ends is (by decide)
  simp only [List.length_cons, List.length_append] at short
  rw [bind_of_ok (accept_put isOpening), if_pos rfl]
  exact Complete.enclosed (complete_expressionOf h) begins (by decide) (by decide) between folds
    listed isClosing means (by omega)

lemma sound_subscriptOf (h : Sound Term Phrase.elaborate term) :
    Sound Expression (fun setting e => e.elaborate setting >>= (·.typed? .integer))
    (subscriptOf term) :=
  (sound_expressionOf h).decide fun _ => .typed

lemma complete_subscriptOf (h : Complete Term Phrase.elaborate term (¬ ·.Opens) length) :
    Complete Expression (fun setting e => e.elaborate setting >>= (·.typed? .integer))
    (subscriptOf term)
      Token.Ends length :=
  (complete_expressionOf h).decide fun _ => .typed

lemma sound_bracketOf (h : Sound Term Phrase.elaborate term) {name : Token} {type : Ty}
    {found : Option (IndexStep × Span)} (ready : s.Ready)
    (read : bracketOf term name type s = (.ok found, t)) :
    (found = none ∧ s = t) ∨ ∃ low high item tree toks opening closing index,
      type = .array low high item ∧
      opening.kind = .leftBracket ∧ Expression tree toks closing ∧ closing.kind = .rightBracket ∧
      s = t.put (opening :: (toks ++ [closing])) ∧
      (tree.elaborate t.setting >>= (·.typed? .integer)) = some index ∧
      found = some (⟨index, low, high, item⟩, closing.span) := by
  obtain ⟨opens, u, seen, more⟩ := bind_eq_ok.1 read
  obtain ⟨rfl, opening, peeked, rfl⟩ := check_inv seen
  by_cases is : opening.kind = .leftBracket
  · rw [if_pos (decide_eq_true is)] at more
    obtain ⟨v, rfl, ready, inside⟩ := next_inv ready (by rw [is]; decide) peeked more
    cases type with
    | array low high item =>
      obtain ⟨tree, toks, closing, index, w, rfl, -, written, isClosing, means, done⟩ :=
        (sound_subscriptOf h).closed (by decide) ready inside
      obtain ⟨rfl, rfl⟩ := pure_eq_ok.1 done
      exact .inr ⟨low, high, item, tree, toks, opening, closing, index, rfl, is, written, isClosing,
        by simp, means, rfl⟩
    | _ => exact absurd inside fail_ne_ok
  · rw [if_neg (by simpa using is)] at more
    obtain ⟨rfl, rfl⟩ := pure_eq_ok.1 more
    exact .inl ⟨rfl, rfl⟩

lemma bracketOf_none {name next : Token} {type : Ty} (peeked : s.tokens.peek = .ok next)
    (other : next.kind ≠ .leftBracket) : bracketOf term name type s = (.ok none, s) := by
  unfold bracketOf
  rw [bind_of_ok (check_of peeked), if_neg (by simpa using other)]
  rfl

lemma complete_bracketOf (h : Complete Term Phrase.elaborate term (¬ ·.Opens) length) (name : Token)
    (low high : Integer) (item : Ty) {opening closing : Token} {tree : Phrase} {toks : List Token}
    {index : Expr} (folds : s.folding = true) (isOpening : opening.kind = .leftBracket)
    (written : Expression tree toks closing) (isClosing : closing.kind = .rightBracket)
    (means : (tree.elaborate s.setting >>= (·.typed? .integer)) = some index)
    (short : toks.length ≤ length) :
    bracketOf term name (.array low high item) (s.put (opening :: (toks ++ [closing]))) =
      (.ok (some (⟨index, low, high, item⟩, closing.span)), s) := by
  unfold bracketOf
  rw [bind_of_ok (check_of ParseState.peek_put_cons), if_pos (decide_eq_true isOpening),
    bind_of_ok next_put]
  have ends := Token.ends isClosing (by decide)
  exact (complete_subscriptOf h).closed ends folds written isClosing means short

/-! ### Calls -/

lemma callOf_eq_of_params (term : Parse Expr) (name : Token) {symbol : Symbol} {params : Params}
    (callable : symbol.type.params? = some params) :
    ∃ f : List Expr × Span → Parse (List Expr × Span),
      callOf term symbol name = argumentsOf term name >>= f ∧ ∀ args last, Decides (f (args, last))
      (do
        let args ← Expr.fittedAll? args params
        return (args, name.span.through last)) := by
  have either : (∃ returns, symbol.type = .function params returns) ∨ symbol.type =
      .procedure params := by
    rcases e : symbol.type with _ | _ | _ | _ | _ | ⟨params', returns⟩ | params' <;> rw [e]
      at callable <;>
      cases callable
    · exact .inl ⟨returns, rfl⟩
    · exact .inr rfl
  refine ⟨_, callOf_eq symbol name either, fun args last => ?_⟩
  dsimp only
  unfold Expr.fittedAll?
  by_cases length : args.length = params.length
  · rw [if_pos length, if_pos length]
    exact (Decides.mapM (fun ⟨arg, _, type⟩ => .coerce arg type _ _) _).bind fun _ => .pure
  · rw [if_neg length, if_neg length]
    exact Decides.fail.stop

lemma sound_callOf (h : Sound Term Phrase.elaborate term) {symbol : Symbol} {name : Token}
    {params : Params} (callable : symbol.type.params? = some params) {args : List Expr}
    {span : Span} (ready : s.Ready) (read : callOf term symbol name s = (.ok (args, span), t)) :
    ∃ phrases last toks, s = t.put toks ∧ Args name phrases last toks ∧
      (phrases.mapM (Phrase.elaborate t.setting) >>= (Expr.fittedAll? · params)) = some args ∧
      span = name.span.through last.span := by
  obtain ⟨f, eq, decides⟩ := callOf_eq_of_params term name callable
  rw [eq] at read
  obtain ⟨⟨found, last⟩, u, listed, checked⟩ := bind_eq_ok.1 read
  obtain ⟨phrases, token, toks, rfl, written, rfl, means⟩ := sound_argumentsOf h ready listed
  obtain ⟨result, rfl⟩ := (decides found _ u (ParseState.ready_put.1 ready).folding _ t).1 checked
  obtain ⟨fitted, fits, same⟩ := Option.bind_eq_some_iff.1 result
  cases same
  exact ⟨phrases, token, toks, rfl, written, Option.bind_eq_some_iff.2 ⟨found, means, fits⟩, rfl⟩

lemma complete_callOf (h : Complete Term Phrase.elaborate term (¬ ·.Opens) length) {symbol : Symbol}
    {name last next : Token} {params : Params} (callable : symbol.type.params? = some params)
    {phrases : List Phrase} {toks : List Token} {args : List Expr} (folds : s.folding = true)
    (peeked : s.tokens.peek = .ok next) (other : next.kind ≠ .leftParen)
    (written : Args name phrases last toks)
    (means : (phrases.mapM (Phrase.elaborate s.setting) >>= (Expr.fittedAll? · params)) = some args)
    (short : toks.length ≤ length) :
    callOf term symbol name (s.put toks) = (.ok (args, name.span.through last.span), s) := by
  obtain ⟨f, eq, decides⟩ := callOf_eq_of_params term name callable
  obtain ⟨found, means, fits⟩ := Option.bind_eq_some_iff.1 means
  rw [eq, bind_of_ok (complete_argumentsOf h folds peeked other written means short)]
  exact (decides found _ s folds _ s).2 ⟨Option.bind_eq_some_iff.2 ⟨args, fits, rfl⟩, rfl⟩

/-! ### Names -/

lemma uncalled_eq_ok {symbol : Symbol} {place : Span} {e a : Expr}
    (read : (do
      if ← check .leftParen then Parse.fail (.notCallable symbol) place
      return e : Parse Expr) s = (.ok a, t)) : e = a ∧ s = t := by
  obtain ⟨opens, u, seen, more⟩ := bind_eq_ok.1 read
  obtain ⟨rfl, -, -, -⟩ := check_inv seen
  cases opens with
  | true =>
    obtain ⟨_, _, failed, -⟩ := bind_eq_ok.1 more
    exact absurd failed fail_ne_ok
  | false => exact pure_eq_ok.1 more

/-- A function is called with its arguments, of which there may be none, even without
parentheses. -/
lemma sound_functionOf (h : Sound Term Phrase.elaborate term) {name : Token}
    (is : name.kind = .identifier) {symbol : Symbol} {id : RoutineId} {params : Params}
    {returns : Ty}
    (function : symbol.meaning = .function id) (typed : symbol.type = .function params returns)
    (ready : s.Ready) (known : s.setting.value? name = some symbol) {args : List Expr} {span : Span}
    (called : callOf term symbol name s = (.ok (args, span), t)) :
    ∃ tree toks, s = t.put toks ∧ Access Expression tree (name :: toks) ∧
      tree.elaborate t.setting = some (.call id name.lexeme args returns span) := by
  have callable : symbol.type.params? = some params := by rw [typed]; rfl
  obtain ⟨phrases, last, toks, rfl, written, means, rfl⟩ := sound_callOf h callable ready called
  obtain ⟨found, means, fits⟩ := Option.bind_eq_some_iff.1 means
  rw [ParseState.setting_put] at known
  obtain ⟨_, _, _, _⟩ := symbol
  cases function
  cases typed
  obtain ⟨rfl, rfl, rfl⟩ | enclosed := written
  · cases means
    refine ⟨.name last, [], rfl, .name is, ?_⟩
    rw [Phrase.elaborate, known]
    exact Option.bind_eq_some_iff.2 ⟨_, rfl, Option.bind_eq_some_iff.2 ⟨args, fits, rfl⟩⟩
  · refine ⟨.call name phrases last, toks, rfl, .call is enclosed, ?_⟩
    rw [Phrase.elaborate, known, Phrase.elaborateAll_eq_mapM, means]
    refine Option.bind_eq_some_iff.2 ⟨_, rfl, Option.bind_eq_some_iff.2 ⟨found, rfl, ?_⟩⟩
    exact Option.bind_eq_some_iff.2 ⟨args, fits, rfl⟩

lemma sound_valueOf (h : Sound Term Phrase.elaborate term) {symbol : Symbol} {name : Token}
    (is : name.kind = .identifier) {a : Expr} (ready : s.Ready)
    (known : s.setting.value? name = some symbol) (read : valueOf term name symbol s = (.ok a, t)) :
    ∃ tree toks, s = t.put toks ∧ Access Expression tree (name :: toks) ∧
    tree.elaborate t.setting = some a := by
  have alone (same : s = t) (means : (Phrase.name name).elaborate s.setting = some a) :
      ∃ tree toks, s = t.put toks ∧ Access Expression tree (name :: toks) ∧
        tree.elaborate t.setting = some a := ⟨.name name, [], same, .name is, same ▸ means⟩
  obtain ⟨symbolName, meaning, type, place⟩ := symbol
  unfold valueOf at read
  cases meaning with
  | constant value =>
    obtain ⟨rfl, same⟩ := pure_eq_ok.1 read
    exact alone same (by rw [Phrase.elaborate, known]; rfl)
  | var | array =>
    obtain ⟨rfl, same⟩ := uncalled_eq_ok read
    exact alone same (by rw [Phrase.elaborate, known]; rfl)
  | procedure => exact absurd read fail_ne_ok
  | function id =>
    cases type with
    | function params returns =>
      obtain ⟨⟨args, span⟩, u, called, done⟩ := bind_eq_ok.1 read
      obtain ⟨rfl, rfl⟩ := pure_eq_ok.1 done
      exact sound_functionOf h is rfl rfl ready known called
    | _ => exact absurd read fail_ne_ok

def subscripted (term : Parse Expr) (name : Token) (array : Expr) : Parse (Option Expr) := do
  match ← bracketOf term name array.type with
  | some (step, close) =>
    return some (.index array step.index step.low step.high step.item (array.span.through close))
  | none => return none

lemma value?_eq_some {setting : Setting} {name : Token} {symbol : Symbol} :
    setting.value? name = some symbol ↔ setting.scopes.resolve name.lexeme = some symbol ∧
      ((∃ value, symbol.meaning = .constant value) ∨ setting.inConstant = false) := by
  unfold Setting.value?
  rw [Option.bind_eq_bind, Option.bind_eq_some_iff]
  constructor
  · rintro ⟨⟨_, meaning, _, _⟩, found, permitted⟩
    cases meaning <;> cases constant : setting.inConstant <;> simp only [constant] at permitted <;>
      cases permitted <;> exact ⟨found, by simp⟩
  · rintro ⟨found, permitted⟩
    refine ⟨symbol, found, ?_⟩
    rcases permitted with ⟨value, constant⟩ | constant
    · rw [constant]
    · rw [constant]
      cases symbol.meaning <;> rfl

lemma lookup_of {name : Token} {symbol : Symbol}
    (found : s.scopes.resolve name.lexeme = some symbol) : lookup name s = (.ok symbol, s) := by
  unfold lookup
  rw [bind_of_ok get_self]
  simp only [found]
  rfl

lemma nameOf_of_known {name : Token} {symbol : Symbol}
    (known : s.setting.value? name = some symbol) :
    nameOf term name s = (valueOf term name symbol >>= extend (subscripted term name)) s := by
  obtain ⟨found, permitted⟩ := value?_eq_some.1 known
  unfold nameOf
  rw [bind_of_ok (lookup_of found), bind_of_ok get_self]
  obtain ⟨_, meaning, _, _⟩ := symbol
  rcases permitted with ⟨value, rfl⟩ | constant
  · rfl
  · change s.inConstant = false at constant
    rw [constant]
    cases meaning <;> rfl

lemma known_of_nameOf {name : Token} {a : Expr} (read : nameOf term name s = (.ok a, t)) :
    ∃ symbol, s.setting.value? name = some symbol := by
  obtain ⟨symbol, _, resolved, more⟩ := bind_eq_ok.1 read
  obtain ⟨rfl, found⟩ := lookup_eq_ok resolved
  obtain ⟨_, _, got, guarded⟩ := bind_eq_ok.1 more
  obtain ⟨rfl, rfl⟩ := get_eq_ok.1 got
  refine ⟨symbol, value?_eq_some.2 ⟨found, ?_⟩⟩
  obtain ⟨_, meaning, _, _⟩ := symbol
  rcases constant : s.inConstant with _ | _
  · exact .inr constant
  · cases meaning with
    | constant value => exact .inl ⟨value, rfl⟩
    | _ =>
      simp only [constant] at guarded
      obtain ⟨_, _, failed, -⟩ := bind_eq_ok.1 guarded
      exact absurd failed fail_ne_ok

lemma sound_nameOf (h : Sound Term Phrase.elaborate term) {name : Token}
    (is : name.kind = .identifier) {a : Expr} (ready : s.Ready)
    (read : nameOf term name s = (.ok a, t)) :
    ∃ tree toks, s = t.put toks ∧ Access Expression tree (name :: toks) ∧
    tree.elaborate t.setting = some a := by
  obtain ⟨symbol, known⟩ := known_of_nameOf read
  rw [nameOf_of_known known] at read
  obtain ⟨first, u, value, more⟩ := bind_eq_ok.1 read
  let P (a : Expr) (u : ParseState) : Prop := ∃ tree toks, s = u.put toks ∧
    Access Expression tree (name :: toks) ∧ tree.elaborate u.setting = some a
  refine extend_keeps (P := P) ?_ (sound_valueOf h is ready known value) more
  rintro array v found w ⟨tree, front, rfl, written, means⟩ extended
  rw [ParseState.ready_put] at ready
  obtain ⟨bracket, x, opened, done⟩ := bind_eq_ok.1 extended
  obtain ⟨rfl, rfl⟩ | ⟨low, high, item, subscript, toks, opening, closing, index, type, isOpening,
    written', isClosing, rfl, means', rfl⟩ := sound_bracketOf h ready opened
  · obtain ⟨rfl, rfl⟩ := pure_eq_ok.1 done
    exact ⟨tree, front, rfl, written, means⟩
  · obtain ⟨rfl, rfl⟩ := pure_eq_ok.1 done
    refine ⟨.index tree subscript closing, front ++ opening :: (toks ++ [closing]), by simp,
      .index written isOpening written' isClosing, ?_⟩
    obtain ⟨e, found, integer⟩ := Option.bind_eq_some_iff.1 means'
    rw [ParseState.setting_put] at means
    simp only [Phrase.elaborate, means, found, type, Option.bind_eq_bind, Option.bind_some]
    rw [integer]
    rfl

lemma complete_valueOf_name (h : Complete Term Phrase.elaborate term (¬ ·.Opens) length)
    {name next : Token} {a : Expr} (folds : s.folding = true) (peeked : s.tokens.peek = .ok next)
    (other : next.kind ≠ .leftParen) (means : (Phrase.name name).elaborate s.setting = some a) :
    ∃ symbol, s.setting.value? name = some symbol ∧ valueOf term name symbol s = (.ok a, s) := by
  rw [Phrase.elaborate] at means
  obtain ⟨symbol, known, means⟩ := Option.bind_eq_some_iff.1 means
  refine ⟨symbol, known, ?_⟩
  obtain ⟨symbolName, meaning, type, place⟩ := symbol
  unfold valueOf
  cases meaning with
  | constant value => cases means; rfl
  | var | array =>
    cases means
    dsimp only
    rw [bind_of_ok (check_of peeked), if_neg (by simpa using other)]
    rfl
  | procedure => cases means
  | function id =>
    cases type with
    | function params returns =>
      obtain ⟨args, fits, same⟩ := Option.bind_eq_some_iff.1 means
      cases same
      have callable : (Ty.function params returns).params? = some params := rfl
      have called : callOf term ⟨symbolName, .function id, .function params returns, place⟩ name s =
          (.ok (args, name.span.through name.span), s) :=
        complete_callOf h callable folds peeked other (.inl ⟨rfl, rfl, rfl⟩)
          (Option.bind_eq_some_iff.2 ⟨[], rfl, fits⟩) (Nat.zero_le _)
      dsimp only
      rw [bind_of_ok called]
      rfl
    | _ => cases means

lemma complete_valueOf_call (h : Complete Term Phrase.elaborate term (¬ ·.Opens) length)
    {name closing next : Token} {args : List Phrase} {toks : List Token} {a : Expr}
    (folds : s.folding = true) (peeked : s.tokens.peek = .ok next) (other : next.kind ≠ .leftParen)
    (enclosed : Enclosed Expression args closing toks)
    (means : (Phrase.call name args closing).elaborate s.setting = some a)
    (short : toks.length ≤ length) :
    ∃ symbol, s.setting.value? name = some symbol ∧
      valueOf term name symbol (s.put toks) = (.ok a, s) := by
  rw [Phrase.elaborate, Phrase.elaborateAll_eq_mapM] at means
  obtain ⟨symbol, known, means⟩ := Option.bind_eq_some_iff.1 means
  refine ⟨symbol, known, ?_⟩
  obtain ⟨_, meaning, type, place⟩ := symbol
  unfold valueOf
  cases meaning with
  | function id =>
    obtain ⟨found, list, call⟩ := Option.bind_eq_some_iff.1 means
    cases type with
    | function params returns =>
      obtain ⟨fitted, fits, same⟩ := Option.bind_eq_some_iff.1 call
      cases same
      have callable : (Ty.function params returns).params? = some params := rfl
      dsimp only
      rw [bind_of_ok (complete_callOf h callable folds peeked other (.inr enclosed)
        (Option.bind_eq_some_iff.2 ⟨found, list, fits⟩) short)]
      rfl
    | _ => cases call
  | _ => cases means

lemma complete_subscripted (h : Complete Term Phrase.elaborate term (¬ ·.Opens) length)
    (name : Token)
    {array subscript : Phrase} {opening closing : Token} {inner : List Token} {e a : Expr}
    (folds : s.folding = true) (isOpening : opening.kind = .leftBracket)
    (written : Expression subscript inner closing) (isClosing : closing.kind = .rightBracket)
    (found : array.elaborate s.setting = some e)
    (means : (Phrase.index array subscript closing).elaborate s.setting = some a)
    (short : inner.length ≤ length) :
    subscripted term name e (s.put (opening :: (inner ++ [closing]))) = (.ok (some a), s) := by
  rw [Phrase.elaborate, found, Option.bind_eq_bind, Option.bind_some] at means
  cases type : e.type with
  | array low high item =>
    rw [type] at means
    obtain ⟨raw, means', means⟩ := Option.bind_eq_some_iff.1 means
    obtain ⟨index, integer, same⟩ := Option.bind_eq_some_iff.1 means
    cases same
    unfold subscripted
    rw [type, bind_of_ok (complete_bracketOf h name low high item folds isOpening written
      isClosing (Option.bind_eq_some_iff.2 ⟨raw, means', integer⟩) short)]
    rfl
  | _ => rw [type] at means; cases means

lemma complete_access (h : Complete Term Phrase.elaborate term (¬ ·.Opens) length) {tree : Phrase}
    {front : List Token} (written : Access Expression tree front) :
    ∃ name toks, front = name :: toks ∧ name.kind = .identifier ∧ ∀ {s next a}, s.folding = true →
      s.tokens.peek = .ok next → next.kind ≠ .leftParen → tree.elaborate s.setting = some a →
      toks.length ≤ length → ∃ symbol n first rest, s.setting.value? name = some symbol ∧
        valueOf term name symbol (s.put toks) = (.ok first, s.put rest) ∧ n ≤ rest.length ∧
        Extends (subscripted term name) n first (s.put rest) a s := by
  induction written with
  | @name name is =>
    refine ⟨name, [], rfl, is, fun {s next a} folds peeked other means _ => ?_⟩
    obtain ⟨symbol, known, value⟩ := complete_valueOf_name h folds peeked other means
    exact ⟨symbol, 0, a, [], known, value, Nat.le_refl _, .start⟩
  | @call name closing args toks is enclosed =>
    refine ⟨name, toks, rfl, is, fun {s next a} folds peeked other means short => ?_⟩
    obtain ⟨symbol, known, value⟩ := complete_valueOf_call h folds peeked other enclosed means short
    exact ⟨symbol, 0, a, [], known, value, Nat.le_refl _, .start⟩
  | @index array subscript front inner opening closing _ isOpening written isClosing ih =>
    obtain ⟨name, toks, rfl, is, reads⟩ := ih
    refine ⟨name, toks ++ opening :: (inner ++ [closing]), rfl, is,
      fun {s next a} folds peeked other means short => ?_⟩
    simp only [List.length_append, List.length_cons] at short
    have array := means
    rw [Phrase.elaborate] at array
    obtain ⟨e, found, -⟩ := Option.bind_eq_some_iff.1 array
    -- what stands before the bracket is read with the bracket behind it
    obtain ⟨symbol, n, first, rest, known, value, few, extended⟩ :=
      reads (s := s.put (opening :: (inner ++ [closing]))) folds rfl
        (by rw [isOpening]; decide) found (by omega)
    rw [ParseState.put_put, ParseState.put_put] at value
    rw [ParseState.put_put] at extended
    have last :=
      complete_subscripted h name folds isOpening written isClosing found means (by omega)
    refine ⟨symbol, n + 1, first, rest ++ opening :: (inner ++ [closing]), known, value, ?_,
      .more extended last⟩
    simp only [List.length_append, List.length_cons]
    omega

lemma complete_nameOf (h : Complete Term Phrase.elaborate term (¬ ·.Opens) length) {tree : Phrase}
    {name next : Token} {toks : List Token} {a : Expr} (folds : s.folding = true)
    (peeked : s.tokens.peek = .ok next) (ends : ¬ next.Opens)
    (written : Access Expression tree (name :: toks)) (means : tree.elaborate s.setting = some a)
    (short : toks.length ≤ length) : nameOf term name (s.put toks) = (.ok a, s) := by
  obtain ⟨parens, brackets⟩ := not_or.1 ends
  obtain ⟨_, _, same, -, reads⟩ := complete_access h written
  cases same
  obtain ⟨symbol, n, first, rest, known, value, few, extended⟩ :=
    reads folds peeked parens means short
  rw [nameOf_of_known (s := s.put toks) known, bind_of_ok value]
  refine extended.extend_eq ?_ ?_
  · rw [ParseState.length_put]
    omega
  · unfold subscripted
    rw [bind_of_ok (bracketOf_none peeked brackets)]
    rfl

/-! ### Terms -/

lemma sound_termOf (h : Sound Term Phrase.elaborate term) :
    Sound Term Phrase.elaborate (termOf term) := by
  intro s a t ready read
  obtain ⟨token, u, taken, more⟩ := bind_eq_ok.1 read
  by_cases ends : token.kind = .endOfText
  · rw [ends] at more
    exact absurd more unexpected_ne_ok
  obtain rfl := put_of_next ready ends taken
  rw [ParseState.ready_put] at ready
  have literal (is : token.kind ∈ Kind.literals) (means : token.literal? = some a) (same : u = t) :
      Between Term Phrase.elaborate (u.put [token]) a t := by
    subst same
    exact ⟨.literal token, [token], rfl, fun _ _ => .literal is, by rw [Phrase.elaborate, means]⟩
  have sign {op : UnaryOp} (is : token.kind.sign? = some op)
      (more : (do Parse.unary op token (← term) : Parse Expr) u = (.ok a, t)) :
      Between Term Phrase.elaborate (u.put [token]) a t := by
    obtain ⟨tree, toks, rfl, written, means⟩ := (h.decide fun e => .unary op token e) ready more
    refine ⟨.unary op token tree, token :: toks, by simp,
      fun next peeked => .sign is (written next peeked), ?_⟩
    rw [Phrase.elaborate]
    exact means
  cases is : token.kind <;> rw [is] at more
  case integerLiteral =>
    rcases found : token.integer? with _ | n <;> rw [found] at more
    · exact absurd more throw_ne_ok
    · obtain ⟨rfl, same⟩ := pure_eq_ok.1 more
      exact literal (by rw [is]; decide) (by simp [Token.literal?, is, found]) same
  case realLiteral | stringLiteral | trueWord | falseWord =>
    obtain ⟨rfl, same⟩ := pure_eq_ok.1 more
    exact literal (by rw [is]; decide) (by rw [Token.literal?, is]) same
  case notWord =>
    obtain ⟨operand, v, inner, checked⟩ := bind_eq_ok.1 more
    obtain ⟨stop, peeked, notOperator⟩ := expressionOf_stops inner
    obtain ⟨tree, toks, rfl, written, means⟩ := sound_expressionOf h ready inner
    rw [ParseState.ready_put] at ready
    obtain ⟨result, rfl⟩ := (Decides.unary .not token operand v ready.folding a t).1 checked
    refine ⟨.unary .not token tree, token :: toks, by simp, fun next peeked' => ?_, ?_⟩
    · obtain rfl := Except.ok.inj (peeked.symm.trans peeked')
      exact .not is (written _ peeked) notOperator
    · rw [Phrase.elaborate, means]
      exact result
  case plus | minus => exact sign (by rw [is]; rfl) more
  case leftParen =>
    obtain ⟨tree, toks, closing, e, v, rfl, -, written, isClosing, means, done⟩ :=
      (sound_expressionOf h).closed (by decide) ready more
    obtain ⟨rfl, rfl⟩ := pure_eq_ok.1 done
    exact ⟨tree, token :: (toks ++ [closing]), by simp, fun _ _ => .group is written isClosing,
      means⟩
  case identifier =>
    obtain ⟨tree, toks, rfl, written, means⟩ := sound_nameOf h is ready more
    exact ⟨tree, token :: toks, by simp, fun _ _ => .access written, means⟩
  all_goals exact absurd more unexpected_ne_ok

lemma complete_termOf (h : Complete Term Phrase.elaborate term (¬ ·.Opens) length) :
    Complete Term Phrase.elaborate (termOf term) (¬ ·.Opens) (length + 1) := by
  intro s tree toks next a folds peeked ends written means short
  unfold termOf
  cases written with
  | @literal token _ is =>
    rw [Phrase.elaborate] at means
    rw [bind_of_ok next_put]
    simp only [Kind.literals, List.mem_cons, List.not_mem_nil, or_false] at is
    rcases is with is | is | is | is | is <;> rw [Token.literal?, is] at means <;> rw [is]
    · obtain ⟨n, found, same⟩ := Option.bind_eq_some_iff.1 means
      cases same
      simp only [found]
      rfl
    all_goals
      cases means
      rfl
  | access written =>
    obtain ⟨name, rest, rfl, is⟩ := written.starts
    rw [bind_of_ok next_put, is]
    exact complete_nameOf h folds peeked ends written means (Nat.le_of_succ_le_succ short)
  | @sign op operand rest mark _ is written =>
    rw [Phrase.elaborate] at means
    have operation := h.decide (fun e => .unary op mark e) folds peeked ends written means
      (Nat.le_of_succ_le_succ short)
    rw [bind_of_ok next_put]
    revert is
    rcases kind : mark.kind <;> intro is <;> cases is
    · exact operation
    · exact operation
  | @not operand rest word _ is written notOperator =>
    rw [Phrase.elaborate] at means
    rw [bind_of_ok next_put, is]
    exact (complete_expressionOf h).decide (fun e => .unary .not word e) folds peeked ⟨ends,
      notOperator⟩ written means (Nat.le_of_succ_le_succ short)
  | @group _ inner opening closing _ isOpening written isClosing =>
    simp only [List.length_cons, List.length_append] at short
    rw [bind_of_ok next_put, isOpening]
    have ends := Token.ends isClosing (by decide)
    exact (complete_expressionOf h).closed ends folds written isClosing means (by omega)

end

lemma sound_termWithin : ∀ bound, Sound Term Phrase.elaborate (termWithin bound)
  | 0 => fun _ _ _ _ read => absurd read exhausted_ne_ok
  | bound + 1 => fun _ _ _ ready read => sound_termOf (sound_termWithin bound) ready read

lemma complete_termWithin : ∀ length, Complete Term Phrase.elaborate (termWithin length)
    (¬ ·.Opens) length
  | 0 => by
    intro s tree toks next a _ _ _ written _ short
    obtain ⟨first, rest, rfl, -⟩ := starts_term written
    cases short
  | length + 1 => fun _ _ _ _ _ folds peeked ends written means short =>
    complete_termOf (complete_termWithin length) folds peeked ends written means short

lemma sound_term : Sound Term Phrase.elaborate term := .within sound_termWithin

lemma complete_term (length : Nat) : Complete Term Phrase.elaborate term (¬ ·.Opens) length :=
  .within (fun length => (complete_termWithin (length + 1)).mono (Nat.le_succ length)) length

/-- **Expressions are read as they are written and mean what they are read as.** -/
theorem sound_expression : Sound Expression Phrase.elaborate expression :=
    sound_expressionOf sound_term

theorem complete_expression (length : Nat) :
    Complete Expression Phrase.elaborate expression Token.Ends length :=
  complete_expressionOf (complete_term length)

end Parse

end SmallPascal
