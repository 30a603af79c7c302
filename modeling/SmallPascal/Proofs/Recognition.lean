import SmallPascal.Proofs.Elaboration
import SmallPascal.Proofs.Reading

/-!
What it means that a reader reads the trees of a grammar: whatever it takes off is the writing of a
tree and its answer is the meaning of that tree, and it takes off the writing of every tree that has
a meaning. Here for tokens, for checks that read nothing, and for repetitions.
-/

namespace SmallPascal

open Steps Grammar

namespace Grammar

/-- Whatever is written begins with a token of one of the kinds. -/
def Starts {τ : Type} (kinds : List Kind) (writing : Writing τ) : Prop :=
  ∀ ⦃tree toks next⦄, writing tree toks next → ∃ first rest, toks = first :: rest ∧
      first.kind ∈ kinds

lemma Starts.listed {τ : Type} {kinds : List Kind} {item : Writing τ} {separator : Kind}
    (h : Starts kinds item) : Starts kinds (Listed item separator) := by
  intro trees toks next written
  cases written with
  | one written => exact h written
  | more written =>
    obtain ⟨first, rest, rfl, kind⟩ := h written
    exact ⟨first, _, rfl, kind⟩

end Grammar

/-! ### Tokens in front -/

def Tokens.put (tokens : Tokens) (front : List Token) : Tokens :=
  { tokens with items := front.map .ok ++ tokens.items }

namespace ParseState

def put (s : ParseState) (front : List Token) : ParseState :=
  { s with tokens := s.tokens.put front }

/-- What trees are understood by at this point. -/
def setting (s : ParseState) : Setting := ⟨s.scopes, s.inConstant, s.enclosing.head?⟩

structure Ready (s : ParseState) : Prop where
  folding : s.folding = true
  last : s.tokens.last.kind = .endOfText

variable {s : ParseState}

@[simp] lemma put_nil : s.put [] = s := rfl

@[simp] lemma put_put {front behind : List Token} :
    (s.put behind).put front = s.put (front ++ behind) := by
  unfold put Tokens.put
  rw [List.map_append, List.append_assoc]

@[simp] lemma setting_put {front : List Token} : (s.put front).setting = s.setting := rfl

lemma peek_put_cons {token : Token} {rest : List Token} :
    (s.put (token :: rest)).tokens.peek = .ok token := rfl

lemma exists_peek_put {front : List Token} (h : front ≠ []) :
    ∃ token, (s.put front).tokens.peek = .ok token := by
  cases front with
  | nil => exact absurd rfl h
  | cons token rest => exact ⟨token, rfl⟩

lemma length_put {front : List Token} :
    (s.put front).tokens.items.length = front.length + s.tokens.items.length := by
  simp [put, Tokens.put]

lemma ready_put {front : List Token} : (s.put front).Ready ↔ s.Ready :=
  ⟨fun h => ⟨h.folding, h.last⟩, fun h => ⟨h.folding, h.last⟩⟩

end ParseState

namespace Parse

variable {α β τ : Type} {s t : ParseState} {token : Token} {kind : Kind}

lemma budget_self : budget s = (.ok (s.tokens.items.length + 1), s) := rfl

lemma map_of_ok {p : Parse α} {f : α → β} {a : α} (h : p s = (.ok a, t)) :
    (f <$> p) s = (.ok (f a), t) := by
  rw [map_eq_pure_bind]
  exact bind_of_ok h

/-! ### Reading tokens that are there -/

lemma next_put {rest : List Token} : next (s.put (token :: rest)) = (.ok token, s.put rest) := rfl

lemma expect_put {rest : List Token} (h : token.kind = kind) :
    expect kind (s.put (token :: rest)) = (.ok token, s.put rest) := by
  unfold expect
  rw [bind_of_ok next_put, if_pos h]
  rfl

lemma peek_of (h : s.tokens.peek = .ok token) : peek s = (.ok token, s) := by
  unfold peek
  rw [bind_of_ok get_self, h]
  rfl

lemma check_of (h : s.tokens.peek = .ok token) : check kind s = (.ok (token.kind = kind), s) := by
  unfold check
  rw [bind_of_ok (peek_of h)]
  rfl

lemma accept_put {rest : List Token} (h : token.kind = kind) :
    accept kind (s.put (token :: rest)) = (.ok true, s.put rest) := by
  unfold accept
  rw [bind_of_ok (check_of ParseState.peek_put_cons), if_pos (decide_eq_true h),
    bind_of_ok next_put]
  rfl

lemma accept_of_ne (h : s.tokens.peek = .ok token) (other : token.kind ≠ kind) :
    accept kind s = (.ok false, s) := by
  unfold accept
  rw [bind_of_ok (check_of h), if_neg (by simpa using other)]
  rfl

/-! ### Tokens that have been read -/

lemma peek_of_next (h : next s = (.ok token, t)) : s.tokens.peek = .ok token := by
  unfold Tokens.peek
  obtain ⟨-, ⟨rfl, none⟩ | items⟩ := next_eq_ok h
  · rw [none]
  · rw [items]

lemma put_of_next (ready : s.Ready) (notEnd : token.kind ≠ .endOfText)
    (h : next s = (.ok token, t)) : s = t.put [token] := by
  obtain ⟨on, ⟨rfl, -⟩ | items⟩ := next_eq_ok h
  · exact absurd ready.last notEnd
  · rw [on.same]
    have tokens : s.tokens = t.tokens.put [token] := by
      obtain ⟨⟨_, _⟩, _⟩ := s
      cases items
      cases on.last
      rfl
    unfold ParseState.put
    rw [← tokens]

lemma put_of_expect (ready : s.Ready) (notEnd : kind ≠ .endOfText)
    (h : expect kind s = (.ok token, t)) : token.kind = kind ∧ s = t.put [token] := by
  obtain ⟨rfl, taken⟩ := expect_eq_ok h
  exact ⟨rfl, put_of_next ready notEnd taken⟩

lemma next_inv {f : Token → Parse α} {a : α} (ready : s.Ready) (notEnd : token.kind ≠ .endOfText)
    (peeked : s.tokens.peek = .ok token) (read : (next >>= f) s = (.ok a, t)) :
    ∃ u, s = u.put [token] ∧ u.Ready ∧ f token u = (.ok a, t) := by
  obtain ⟨found, u, taken, more⟩ := bind_eq_ok.1 read
  obtain rfl := Except.ok.inj (peeked.symm.trans (peek_of_next taken))
  obtain rfl := put_of_next ready notEnd taken
  exact ⟨u, rfl, ParseState.ready_put.1 ready, more⟩

lemma expect_inv {f : Token → Parse α} {a : α} (ready : s.Ready) (notEnd : kind ≠ .endOfText)
    (read : (expect kind >>= f) s = (.ok a, t)) :
    ∃ token u, token.kind = kind ∧ s = u.put [token] ∧ u.Ready ∧ f token u = (.ok a, t) := by
  obtain ⟨token, u, taken, more⟩ := bind_eq_ok.1 read
  obtain ⟨is, rfl⟩ := put_of_expect ready notEnd taken
  exact ⟨token, u, is, rfl, ParseState.ready_put.1 ready, more⟩

lemma check_inv {b : Bool} (h : check kind s = (.ok b, t)) :
    s = t ∧ ∃ token, t.tokens.peek = .ok token ∧ b = decide (token.kind = kind) := by
  obtain ⟨token, _, seen, h⟩ := bind_eq_ok.1 h
  obtain ⟨rfl, peeked⟩ := peek_eq_ok seen
  obtain ⟨rfl, rfl⟩ := pure_eq_ok.1 h
  exact ⟨rfl, token, peeked, rfl⟩

lemma put_of_accept (ready : s.Ready) (notEnd : kind ≠ .endOfText)
    (h : accept kind s = (.ok true, t)) : ∃ token, token.kind = kind ∧ s = t.put [token] := by
  obtain ⟨b, _, seen, h⟩ := bind_eq_ok.1 h
  obtain ⟨rfl, token, peeked, rfl⟩ := check_inv seen
  split at h
  next is =>
    obtain ⟨token', _, taken, h⟩ := bind_eq_ok.1 h
    obtain ⟨-, rfl⟩ := pure_eq_ok.1 h
    obtain rfl := Except.ok.inj (peeked.symm.trans (peek_of_next taken))
    have is := of_decide_eq_true is
    exact ⟨token, is, put_of_next ready (is ▸ notEnd) taken⟩
  next => cases (pure_eq_ok.1 h).1

lemma accept_false (h : accept kind s = (.ok false, t)) :
    s = t ∧ ∃ token, t.tokens.peek = .ok token ∧ token.kind ≠ kind := by
  obtain ⟨b, _, seen, h⟩ := bind_eq_ok.1 h
  obtain ⟨rfl, token, peeked, rfl⟩ := check_inv seen
  split at h
  next is =>
    obtain ⟨_, _, taken, h⟩ := bind_eq_ok.1 h
    cases (pure_eq_ok.1 h).1
  next other =>
    obtain ⟨-, rfl⟩ := pure_eq_ok.1 h
    exact ⟨rfl, token, peeked, by simpa using other⟩

/-! ### Checks

What checks the names and types in something that has been read answers what the second pass says of
it, and reads nothing. -/

/-- The reader reads nothing, and succeeds with the answer, if there is one. -/
def Decides (p : Parse α) (answer : Option α) : Prop :=
  ∀ s, s.folding = true → ∀ a t, p s = (.ok a, t) ↔ answer = some a ∧ s = t

namespace Decides

lemma pure {a : α} : Decides (pure a) (some a) := by
  intro s _ b t
  rw [pure_eq_ok, Option.some_inj]

lemma throw {d : Diagnostic} : Decides (throw d : Parse α) none :=
  fun _ _ _ _ => ⟨fun h => absurd h throw_ne_ok, nofun⟩

lemma fail {fault : SemanticFault} {span : Span} : Decides (fail fault span : Parse α) none := throw

lemma bind {p : Parse α} {answer : Option α} {f : α → Parse β} {k : α → Option β}
    (h : Decides p answer) (next : ∀ a, Decides (f a) (k a)) :
    Decides (p >>= f) (answer >>= k) := by
  intro s folds b t
  rw [bind_eq_ok]
  constructor
  · rintro ⟨a, u, first, second⟩
    obtain ⟨rfl, rfl⟩ := (h s folds a u).1 first
    exact (next a s folds b t).1 second
  · rintro ⟨found, rfl⟩
    obtain ⟨a, rfl, second⟩ := Option.bind_eq_some_iff.1 found
    exact ⟨a, s, (h s folds a s).2 ⟨rfl, rfl⟩, (next a s folds b s).2 ⟨second, rfl⟩⟩

lemma stop {p : Parse α} {f : α → Parse β} (h : Decides p none) : Decides (p >>= f) none := by
  intro s folds b t
  rw [bind_eq_ok]
  constructor
  · rintro ⟨a, u, first, -⟩
    cases ((h s folds a u).1 first).1
  · exact nofun

lemma require {condition : Prop} [Decidable condition] {refused : Parse Unit} {f : Unit → Parse α}
    {answer : Option α} (h : Decides refused none) (next : Decides (f ()) answer) :
    Decides (if condition then f () else refused >>= f) (if condition then answer else none) := by
  split
  · exact next
  · exact h.stop

lemma mapM {f : α → Parse β} {k : α → Option β} (h : ∀ a, Decides (f a) (k a)) :
    ∀ items : List α, Decides (items.mapM f) (items.mapM k)
  | [] => pure
  | a :: rest => by
    rw [List.mapM_cons, List.mapM_cons]
    exact (h a).bind fun _ => (mapM h rest).bind fun _ => pure

lemma fold (e : Expr) : Decides (fold e) (some e.folded) := by
  intro s folds a t
  rw [fold_eq, bind_of_ok get_self, folds]
  exact pure s folds a t

lemma binary (op : BinaryOp) (operator : Token) (left right : Expr) :
    Decides (binary op operator left right) (Expr.operation? op left right) := by
  unfold Parse.binary Expr.operation?
  cases op.resultType? left.type right.type with
  | some type => exact fold _
  | none => exact fail

lemma unary (op : UnaryOp) (mark : Token) (operand : Expr) :
    Decides (unary op mark operand) (operand.signed? op mark) := by
  unfold Parse.unary Expr.signed?
  cases op.resultType? operand.type with
  | some type => exact fold _
  | none => exact fail

lemma coerce (e : Expr) (target : Ty) (span : Span) (destination : Destination) :
    Decides (coerce e target span destination) (e.fitted? target) := by
  refine require fail ?_
  split
  · exact fold _
  · exact pure

lemma typed {e : Expr} {type : Ty} {fault : SemanticFault} {span : Span} :
    Decides (do unless e.type = type do Parse.fail fault span
                return e) (e.typed? type) := require fail pure

end Decides

/-! ### Trees -/

section

variable (writing : Writing τ) (meaning : Setting → τ → Option α) (p : Parse α)

/-- From one point of the text to the other there is the writing of a tree that means `a`. -/
abbrev Between (s : ParseState) (a : α) (t : ParseState) : Prop :=
  ∃ tree toks, s = t.put toks ∧ (∀ next, t.tokens.peek = .ok next → writing tree toks next) ∧
    meaning t.setting tree = some a

/-- What the reader takes off is the writing of a tree, and its answer is the meaning of that
tree. -/
def Sound : Prop := ∀ ⦃s a t⦄, s.Ready → p s = (.ok a, t) → Between writing meaning s a t

/-- The reader takes off the writing, if it is not too long, of every tree that has a meaning, in
front of any token that may be there. -/
def Complete (before : Token → Prop) (length : Nat) : Prop :=
  ∀ ⦃s tree toks next a⦄, s.folding = true → s.tokens.peek = .ok next → before next →
    writing tree toks next → meaning s.setting tree = some a → toks.length ≤ length →
    p (s.put toks) = (.ok a, s)

end

variable {writing : Writing τ} {meaning : Setting → τ → Option α} {p : Parse α}

lemma Sound.closed {f : α → Token → Parse β} {b : β} (h : Sound writing meaning p)
    (notEnd : kind ≠ .endOfText) (ready : s.Ready)
    (read : (p >>= fun a => expect kind >>= f a) s = (.ok b, t)) :
    ∃ tree toks mark a u, s = u.put (toks ++ [mark]) ∧ u.Ready ∧ writing tree toks mark ∧
      mark.kind = kind ∧ meaning u.setting tree = some a ∧ f a mark u = (.ok b, t) := by
  obtain ⟨a, u, taken, more⟩ := bind_eq_ok.1 read
  obtain ⟨mark, v, closed, done⟩ := bind_eq_ok.1 more
  obtain ⟨tree, toks, rfl, written, means⟩ := h ready taken
  rw [ParseState.ready_put] at ready
  obtain ⟨is, rfl⟩ := put_of_expect ready notEnd closed
  exact ⟨tree, toks, mark, a, v, by simp, ParseState.ready_put.1 ready, written mark rfl, is, means,
    done⟩

/-- What stands in front of a token of the given kind is read off together with it. -/
lemma Complete.closed {before : Token → Prop} {length : Nat} {f : α → Token → Parse β} {tree : τ}
    {toks rest : List Token} {mark : Token} {a : α} (h : Complete writing meaning p before length)
    (ends : before mark) (folds : s.folding = true) (written : writing tree toks mark)
    (is : mark.kind = kind) (means : meaning s.setting tree = some a)
    (short : toks.length ≤ length) :
    (p >>= fun a => expect kind >>= f a) (s.put (toks ++ mark :: rest)) = f a mark
    (s.put rest) := by
  have front := h (s := s.put (mark :: rest)) folds rfl ends written means short
  rw [ParseState.put_put] at front
  rw [bind_of_ok front, bind_of_ok (expect_put is)]

lemma Sound.within {p : Nat → Parse α} (h : ∀ bound, Sound writing meaning (p bound)) :
    Sound writing meaning (do p (← budget)) := by
  intro s a t ready read
  obtain ⟨bound, _, counted, within⟩ := bind_eq_ok.1 read
  obtain rfl := budget_eq_ok counted
  exact h bound ready within

lemma Complete.within {before : Token → Prop} {p : Nat → Parse α}
    (h : ∀ length, Complete writing meaning (p (length + 1)) before length) (length : Nat) :
    Complete writing meaning (do p (← budget)) before length := by
  intro s tree toks next a folds peeked ends written means _
  rw [bind_of_ok budget_self]
  refine h _ folds peeked ends written means ?_
  rw [ParseState.length_put]
  omega

lemma Complete.mono {before : Token → Prop} {length shorter : Nat}
    (h : Complete writing meaning p before length) (less : shorter ≤ length) :
    Complete writing meaning p before shorter :=
  fun _ _ _ _ _ folds peeked ends written means short => h folds peeked ends written means
    (Nat.le_trans short less)

/-! ### Lists -/

lemma mapM_cons_eq_some {f : τ → Option α} {a : τ} {rest : List τ} {as : List α} :
    (a :: rest).mapM f = some as ↔
      ∃ first, f a = some first ∧ ∃ others, rest.mapM f = some others ∧ as = first :: others := by
  simp only [List.mapM_cons, Option.bind_eq_bind, Option.bind_eq_some_iff, Option.pure_def,
    Option.some_inj]
  simp only [eq_comm]

variable {item : Parse α} {separator : Kind}

lemma manyWithin_sound (notEnd : separator ≠ .endOfText) (h : Sound writing meaning item)
    {bound : Nat} :
    ∀ {s as t}, s.Ready → manyWithin (accept separator) item bound s = (.ok as, t) →
      (as = [] ∧ s = t) ∨ ∃ mark trees toks, mark.kind = separator ∧ s = t.put (mark :: toks) ∧
        (∀ next, t.tokens.peek = .ok next → Listed writing separator trees toks next) ∧
        trees.mapM (meaning t.setting) = some as := by
  induction bound with
  | zero => exact fun _ e => absurd e exhausted_ne_ok
  | succ bound ih =>
    intro s as t ready read
    obtain ⟨b, u, asked, turn⟩ := bind_eq_ok.1 read
    cases b with
    | false =>
      obtain ⟨rfl, rfl⟩ := pure_eq_ok.1 turn
      exact .inl ⟨rfl, (accept_false asked).1⟩
    | true =>
      obtain ⟨first, v, taken, more⟩ := bind_eq_ok.1 turn
      obtain ⟨rest, w, others, done⟩ := bind_eq_ok.1 more
      obtain ⟨rfl, rfl⟩ := pure_eq_ok.1 done
      obtain ⟨mark, is, rfl⟩ := put_of_accept ready notEnd asked
      rw [ParseState.ready_put] at ready
      obtain ⟨tree, front, rfl, written, means⟩ := h ready taken
      rw [ParseState.ready_put] at ready
      obtain ⟨rfl, rfl⟩ | ⟨mark', trees, behind, is', rfl, written', means'⟩ := ih ready others
      · refine .inr ⟨mark, [tree], front, is, by simp,
          fun next peeked => .one (written next peeked), ?_⟩
        simp [means]
      · refine .inr ⟨mark, tree :: trees, front ++ mark' :: behind, is, by simp,
          fun next peeked => ?_, ?_⟩
        · exact .more (written mark' rfl) is' (written' next peeked)
        · rw [ParseState.setting_put] at means
          simp [means, means']

lemma Sound.separated (notEnd : separator ≠ .endOfText) (h : Sound writing meaning item) :
    Sound (Listed writing separator) (fun setting trees => trees.mapM (meaning setting))
      (separated separator item) := by
  intro s as t ready read
  obtain ⟨first, u, taken, more⟩ := bind_eq_ok.1 read
  obtain ⟨rest, v, others, done⟩ := bind_eq_ok.1 more
  obtain ⟨rfl, rfl⟩ := pure_eq_ok.1 done
  obtain ⟨tree, front, rfl, written, means⟩ := h ready taken
  rw [ParseState.ready_put] at ready
  obtain ⟨_, _, counted, others⟩ := bind_eq_ok.1 others
  obtain rfl := budget_eq_ok counted
  obtain ⟨rfl, rfl⟩ | ⟨mark, trees, behind, is, rfl, written', means'⟩ :=
    manyWithin_sound notEnd h ready others
  · exact ⟨[tree], front, rfl, fun next peeked => .one (written next peeked), by simp [means]⟩
  · refine ⟨tree :: trees, front ++ mark :: behind, by simp, fun next peeked => ?_, ?_⟩
    · exact .more (written mark rfl) is (written' next peeked)
    · rw [ParseState.setting_put] at means
      simp [means, means']

lemma separated_complete {before : Token → Prop} {length : Nat}
    (h : Complete writing meaning item before length)
    (between : ∀ mark : Token, mark.kind = separator → before mark) {trees : List τ}
    {toks : List Token} {next : Token} (written : Listed writing separator trees toks next)
    {as : List α} (folds : s.folding = true) (peeked : s.tokens.peek = .ok next)
    (ends : before next) (other : next.kind ≠ separator)
    (means : trees.mapM (meaning s.setting) = some as) (short : toks.length ≤ length) :
    ∃ first others rest, as = first :: others ∧
      item (s.put toks) = (.ok first, s.put rest) ∧ rest.length ≤ toks.length ∧
      ∀ bound, rest.length < bound →
      manyWithin (accept separator) item bound (s.put rest) = (.ok others, s) := by
  induction written generalizing as with
  | @one a toks next written =>
    obtain ⟨first, found, others, none, rfl⟩ := mapM_cons_eq_some.1 means
    rw [List.mapM_nil] at none
    obtain rfl := Option.some.inj none
    refine ⟨first, [], [], rfl, h folds peeked ends written found short, Nat.zero_le _, ?_⟩
    rintro (_ | bound) few
    · cases few
    · unfold manyWithin
      rw [ParseState.put_nil, bind_of_ok (accept_of_ne peeked other)]
      rfl
  | @more a rest front behind mark next written is _ ih =>
    obtain ⟨first, found, others, rest, rfl⟩ := mapM_cons_eq_some.1 means
    simp only [List.length_append, List.length_cons] at short ⊢
    obtain ⟨second, others, left, rfl, taken, fewer, more⟩ := ih peeked ends other rest (by omega)
    have first := h (s := s.put (mark :: behind)) folds rfl (between mark is) written found
      (by omega)
    rw [ParseState.put_put] at first
    refine ⟨_, _, mark :: behind, rfl, first, by simp, ?_⟩
    rintro (_ | bound) few
    · cases few
    · rw [List.length_cons] at few
      unfold manyWithin
      rw [bind_of_ok (accept_put is), if_pos rfl, bind_of_ok taken,
        bind_of_ok (more bound (by omega))]
      rfl

lemma Complete.separated {before : Token → Prop} {length : Nat}
    (h : Complete writing meaning item before length)
    (between : ∀ mark : Token, mark.kind = separator → before mark) :
    Complete (Listed writing separator) (fun setting trees => trees.mapM (meaning setting))
      (separated separator item) (fun next => before next ∧ next.kind ≠ separator) length := by
  intro s trees toks next as folds peeked ends written means short
  obtain ⟨first, others, rest, rfl, taken, fewer, more⟩ :=
    separated_complete h between written folds peeked ends.1 ends.2 means short
  unfold Parse.separated
  rw [bind_of_ok taken]
  have many : many (accept separator) item (s.put rest) = (.ok others, s) := by
    refine more _ ?_
    rw [ParseState.length_put]
    omega
  rw [bind_of_ok many]
  rfl

/-! ### Lists in parentheses -/

lemma Sound.enclosed {f : List α → Token → Parse β} {b : β} (notEnd : separator ≠ .endOfText)
    (h : Sound writing meaning item) (ready : s.Ready)
    (read : (check .rightParen >>= fun closes =>
      if closes then expect .rightParen >>= f []
      else Parse.separated separator item >>= fun as => expect .rightParen >>= f as) s =
        (.ok b, t)) :
    ∃ trees toks closing as u, s = u.put (toks ++ [closing]) ∧
      (trees = [] ∧ toks = [] ∨ Listed writing separator trees toks closing) ∧ closing.kind =
      .rightParen ∧ trees.mapM (meaning u.setting) = some as ∧ f as closing u = (.ok b, t) := by
  obtain ⟨closes, u, seen, more⟩ := bind_eq_ok.1 read
  obtain ⟨rfl, -⟩ := check_inv seen
  cases closes with
  | true =>
    obtain ⟨closing, v, closed, done⟩ := bind_eq_ok.1 more
    obtain ⟨isClosing, rfl⟩ := put_of_expect ready (by decide) closed
    exact ⟨[], [], closing, [], v, rfl, .inl ⟨rfl, rfl⟩, isClosing, rfl, done⟩
  | false =>
    obtain ⟨trees, toks, closing, as, v, rfl, -, listed, isClosing, means, done⟩ :=
      (Sound.separated notEnd h).closed (by decide) ready more
    exact ⟨trees, toks, closing, as, v, rfl, .inr listed, isClosing, means, done⟩

/-- A list in parentheses is read off, if none of its items begins with the closing one. -/
lemma Complete.enclosed {before : Token → Prop} {length : Nat} {kinds : List Kind}
    (h : Complete writing meaning item before length) (starts : Starts kinds writing)
    (opens : .rightParen ∉ kinds) (apart : separator ≠ .rightParen)
    (between : ∀ mark : Token, mark.kind = separator ∨ mark.kind = .rightParen → before mark)
    {f : List α → Token → Parse β} {trees : List τ} {toks : List Token} {closing : Token}
    {as : List α} (folds : s.folding = true)
    (written : trees = [] ∧ toks = [] ∨ Listed writing separator trees toks closing)
    (is : closing.kind = .rightParen) (means : trees.mapM (meaning s.setting) = some as)
    (short : toks.length ≤ length) :
    (check .rightParen >>= fun closes =>
      if closes then expect .rightParen >>= f []
      else Parse.separated separator item >>= fun as => expect .rightParen >>= f as)
        (s.put (toks ++ [closing])) =
      f as closing s := by
  obtain ⟨rfl, rfl⟩ | listed := written
  · cases means
    rw [List.nil_append, bind_of_ok (check_of ParseState.peek_put_cons), if_pos (decide_eq_true is)]
    exact bind_of_ok (expect_put is)
  · obtain ⟨first, rest, rfl, kind⟩ := starts.listed listed
    have other : first.kind ≠ .rightParen := fun same => opens (same ▸ kind)
    have ends := between closing (.inr is)
    have items := h.separated fun mark same => between mark (.inl same)
    rw [List.cons_append, bind_of_ok (check_of ParseState.peek_put_cons),
      if_neg (by simpa using other)]
    exact items.closed ⟨ends, is ▸ apart.symm⟩ folds listed is means short

end Parse

end SmallPascal
