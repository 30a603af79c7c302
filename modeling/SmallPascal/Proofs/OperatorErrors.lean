import SmallPascal.Proofs.Arithmetic
import SmallPascal.Proofs.Termination

/-! Operators are checked as soon as they have been read. Of an expression without names, the type
is known from a table of operators, and so is every use of an operator that the table does not have.
A reader fails at the first of these uses, from the left to the right and operands before the
operation on them, and reads an expression of that type if there are none. -/

namespace SmallPascal

open Grammar Steps

/-! ### The table of operators -/

/-- The types of operands that an operator between them takes, each with the type of the result. -/
def BinaryOp.table : BinaryOp → List ((Ty × Ty) × Ty)
  | .add | .sub | .mul => [((.integer, .integer), .integer), ((.integer, .real), .real),
    ((.real, .integer), .real), ((.real, .real), .real)]
  | .div => [((.integer, .integer), .real), ((.integer, .real), .real), ((.real, .integer), .real),
    ((.real, .real), .real)]
  | .intDiv | .mod => [((.integer, .integer), .integer)]
  | .eq =>
    [((.integer, .integer), .boolean), ((.real, .real), .boolean), ((.boolean, .boolean), .boolean),
    ((.string, .string), .boolean)]
  | .lt | .le | .gt | .ge => [((.integer, .integer), .boolean)]
  | .and | .or => [((.boolean, .boolean), .boolean)]

/-- The types of an operand that an operator before it takes, each with the type of the result. -/
def UnaryOp.table : UnaryOp → List (Ty × Ty)
  | .plus | .negate => [(.integer, .integer), (.real, .real)]
  | .not => [(.boolean, .boolean)]

lemma BinaryOp.resultType?_eq_lookup (op : BinaryOp) (left right : Ty) :
    op.resultType? left right = op.table.lookup (left, right) := by
  cases op
  case eq => cases left <;> cases right <;> first | rfl | (simp [resultType?, Ty.isArray]; rfl)
  all_goals cases left <;> cases right <;> rfl

lemma UnaryOp.resultType?_eq_lookup (op : UnaryOp) (operand : Ty) :
    op.resultType? operand = op.table.lookup operand := by
  cases op <;> cases operand <;> rfl

/-! ### Expressions without names -/

/-- The level of the chains that an operator stands in. -/
def BinaryOp.tier : BinaryOp → Tier
  | .mul | .div | .intDiv | .mod | .and | .or => .product
  | _ => .sum

def Tier.below : Tier → Tier
  | .sum => .product
  | _ => .term

/-- An expression without names as it is written on some level. It is open if it ends with what
`not` takes, which is all that follows, so that no operator can stand behind it. -/
inductive Nameless : Tier → Bool → Type
  | literal (kind : Kind) (lexeme : String) (listed : kind ∈ Kind.literals)
    (fits : kind.Fits lexeme) :
    Nameless .term false
  | signed {isOpen : Bool} (sign : Sign) (gap : Gap) (operand : Nameless .term isOpen) :
    Nameless .term isOpen
  | not {isOpen : Bool} (gap : Gap) (operand : Nameless .sum isOpen) : Nameless .term true
  | group {isOpen : Bool} (gap : Gap) (inner : Nameless .sum isOpen) (gap' : Gap) :
    Nameless .term false
  | product {isOpen : Bool} (single : Nameless .term isOpen) : Nameless .product isOpen
  | sum {isOpen : Bool} (single : Nameless .product isOpen) : Nameless .sum isOpen
  | operation {isOpen : Bool} (op : BinaryOp) (left : Nameless op.tier false) (gap gap' : Gap)
    (right : Nameless op.tier.below isOpen) : Nameless op.tier isOpen

def Kind.literalType : Kind → Ty
  | .integerLiteral => .integer
  | .realLiteral => .real
  | .stringLiteral => .string
  | _ => .boolean

structure Misuse where
  operator : String
  operands : List Ty
  place : Span
deriving DecidableEq

def Misuse.message (misuse : Misuse) : String :=
  "Operator '" ++ misuse.operator ++ "' cannot be applied to " ++
    String.intercalate " and " (misuse.operands.map Ty.text)

lemma Misuse.message_one (word : String) (type : Ty) (place : Span) :
    Misuse.message ⟨word, [type], place⟩ = "Operator '" ++ word ++ "' cannot be applied to " ++
      type.text := rfl

lemma Misuse.message_two (word : String) (left right : Ty) (place : Span) :
    Misuse.message ⟨word, [left, right], place⟩ =
      "Operator '" ++ word ++ "' cannot be applied to " ++ left.text ++ " and " ++ right.text := by
  change "Operator '" ++ word ++ "' cannot be applied to " ++
    (left.text ++ " and " ++ right.text) = _
  simp only [String.append_assoc]

/-- The use of an operator on an operand, if that has a type, but none that the operator takes. -/
def UnaryOp.misuse? (op : UnaryOp) : Option Ty → Span → Option Misuse
  | some operand, place =>
    if (op.table.lookup operand).isSome then none else some ⟨op.symbol, [operand], place⟩
  | none, _ => none

/-- The use of an operator between operands, if they have types, but none that the operator
takes. -/
def BinaryOp.misuse? (op : BinaryOp) : Option Ty → Option Ty → Span → Option Misuse
  | some left, some right, place =>
    if (op.table.lookup (left, right)).isSome then none else some ⟨op.symbol, [left, right], place⟩
  | _, _, _ => none

namespace Nameless

variable {tier : Tier} {isOpen : Bool}

def chars {tier : Tier} {isOpen : Bool} : Nameless tier isOpen → List Char
  | .literal kind lexeme _ _ => kind.written lexeme
  | .signed sign gap operand => [sign.mark] ++ (gap.chars ++ operand.chars)
  | .not gap operand => ['n', 'o', 't'] ++ (gap.chars ++ operand.chars)
  | .group gap inner gap' => ['('] ++ (gap.chars ++ (inner.chars ++ (gap'.chars ++ [')'])))
  | .product single => single.chars
  | .sum single => single.chars
  | .operation op left gap gap' right =>
    left.chars ++ (gap.chars ++ (op.symbol.toList ++ (gap'.chars ++ right.chars)))

/-- The type of an expression by the table, if all operators in it are there. -/
def type? {tier : Tier} {isOpen : Bool} : Nameless tier isOpen → Option Ty
  | .literal kind _ _ _ => some kind.literalType
  | .signed sign _ operand => operand.type?.bind fun type => sign.op.table.lookup type
  | .not _ operand => operand.type?.bind fun type => UnaryOp.not.table.lookup type
  | .group _ inner _ => inner.type?
  | .product single => single.type?
  | .sum single => single.type?
  | .operation op left _ _ right =>
    left.type?.bind fun l => right.type?.bind fun r => op.table.lookup (l, r)

/-- All misuses of operators in an expression at the place, from the left to the right, and operands
before the operation on them. -/
def misuses {tier : Tier} {isOpen : Bool} : Nameless tier isOpen → Position → List Misuse
  | .literal _ _ _ _, _ => []
  | .signed sign gap operand, p => operand.misuses (p.after ([sign.mark] ++ gap.chars)) ++
      (sign.op.misuse? operand.type? (.between p (p.after [sign.mark]))).toList
  | .not gap operand, p => operand.misuses (p.after (['n', 'o', 't'] ++ gap.chars)) ++
      (UnaryOp.not.misuse? operand.type? (.between p (p.after ['n', 'o', 't']))).toList
  | .group gap inner _, p => inner.misuses (p.after (['('] ++ gap.chars))
  | .product single, p => single.misuses p
  | .sum single, p => single.misuses p
  | .operation op left gap gap' right, p =>
    let q := p.after (left.chars ++ gap.chars)
    left.misuses p ++ (right.misuses (q.after (op.symbol.toList ++ gap'.chars)) ++
      (op.misuse? left.type? right.type? (.between q (q.after op.symbol.toList))).toList)

end Nameless

/-! ### Operations -/

def Misuse.Told (misuse : Misuse) (d : Diagnostic) : Prop :=
  d.fault.phase = .semantic ∧ d.fault.message = misuse.message ∧ d.span = misuse.place

namespace Parse

variable {s t : ParseState}

/-- The reading goes on with an expression of the type, or it fails with the first of the misuses,
in which case there is no type. -/
def Settles (run : Except Diagnostic Expr × ParseState)
    (onward : Expr → Except Diagnostic Expr × ParseState)
    (type? : Option Ty) (misuses : List Misuse) : Prop :=
  (misuses = [] ∧ ∃ e, type? = some e.type ∧ run = onward e) ∨
    ∃ misuse rest d, misuses = misuse :: rest ∧ type? = none ∧ run.1 = .error d ∧ misuse.Told d

lemma fst_bind_of_error {α β : Type} {x : Parse α} {f : α → Parse β} {d : Diagnostic}
    (h : (x s).1 = .error d) : ((x >>= f) s).1 = .error d := by
  rw [bind_apply]
  rcases e : x s with ⟨_ | _, _⟩ <;> rw [e] at h <;> cases h
  rfl

lemma fold_same (e : Expr) : ∃ e', fold e s = (.ok e', s) ∧ e'.type = e.type := by
  rw [fold_eq]
  refine ⟨_, rfl, ?_⟩
  split
  · exact e.type_folded
  · rfl

lemma unary_settles (op : UnaryOp) (operator : Token) (e : Expr) :
    Settles (unary op operator e s) (fun e => (.ok e, s)) (op.table.lookup e.type)
      (op.misuse? (some e.type) operator.span).toList := by
  unfold unary UnaryOp.misuse?
  rw [op.resultType?_eq_lookup]
  dsimp only
  rcases found : op.table.lookup e.type with _ | type
  · refine .inr ⟨⟨op.symbol, [e.type], operator.span⟩, [], _, rfl, rfl, rfl, rfl, ?_, rfl⟩
    exact (Misuse.message_one _ _ _).symm
  · obtain ⟨e', folded, same⟩ :=
      fold_same (s := s) (.unary op e type (operator.span.through e.span))
    exact .inl ⟨rfl, e', congrArg some same.symm, folded⟩

lemma binary_settles (op : BinaryOp) (operator : Token) (left right : Expr) :
    Settles (binary op operator left right s) (fun e => (.ok e, s))
      (op.table.lookup (left.type, right.type))
      (op.misuse? (some left.type) (some right.type) operator.span).toList := by
  unfold binary BinaryOp.misuse?
  rw [op.resultType?_eq_lookup]
  dsimp only
  rcases found : op.table.lookup (left.type, right.type) with _ | type
  · refine .inr
      ⟨⟨op.symbol, [left.type, right.type], operator.span⟩, [], _, rfl, rfl, rfl, rfl, ?_, rfl⟩
    exact (Misuse.message_two _ _ _ _).symm
  · obtain ⟨e', folded, same⟩ :=
      fold_same (s := s) (.binary op left right type (left.span.through right.span))
    exact .inl ⟨rfl, e', congrArg some same.symm, folded⟩

namespace Settles

variable {x : Parse Expr} {type? : Option Ty} {misuses : List Misuse}

lemma bind {f : Expr → Parse Expr} {onward : Expr → Except Diagnostic Expr × ParseState}
    (h : Settles (x s) (fun e => (.ok e, t)) type? misuses) (next : ∀ e, f e t = onward e) :
    Settles ((x >>= f) s) onward type? misuses := by
  obtain ⟨rfl, e, rfl, read⟩ | ⟨misuse, rest, d, rfl, rfl, failed, told⟩ := h
  · exact .inl ⟨rfl, e, rfl, by rw [bind_of_ok read, next]⟩
  · exact .inr ⟨misuse, rest, d, rfl, rfl, fst_bind_of_error failed, told⟩

lemma checked {check : Expr → Parse Expr} {onward : Expr → Except Diagnostic Expr × ParseState}
    {result? : Ty → Option Ty} (h : Settles (x s) (fun e => (.ok e, t)) type? misuses)
    (found : Option Ty → List Misuse) (nothing : found none = [])
    (next : ∀ e, Settles (check e t) onward (result? e.type) (found (some e.type))) :
    Settles ((x >>= check) s) onward (type?.bind result?) (misuses ++ found type?) := by
  obtain ⟨rfl, e, rfl, read⟩ | ⟨misuse, rest, d, rfl, rfl, failed, told⟩ := h
  · rw [bind_of_ok read]
    exact next e
  · rw [nothing, List.append_nil]
    exact .inr ⟨misuse, rest, d, rfl, rfl, fst_bind_of_error failed, told⟩

lemma unary (h : Settles (x s) (fun e => (.ok e, t)) type? misuses) (op : UnaryOp)
    (operator : Token) :
    Settles ((x >>= unary op operator) s) (fun e => (.ok e, t))
      (type?.bind fun type => op.table.lookup type)
      (misuses ++ (op.misuse? type? operator.span).toList) :=
  h.checked (fun type? => (op.misuse? type? operator.span).toList) rfl (unary_settles op operator)

lemma binary (h : Settles (x s) (fun e => (.ok e, t)) type? misuses) (op : BinaryOp)
    (operator : Token) (left : Expr) :
    Settles ((x >>= binary op operator left) s) (fun e => (.ok e, t))
      (type?.bind fun type => op.table.lookup (left.type, type))
      (misuses ++ (op.misuse? (some left.type) type? operator.span).toList) :=
  h.checked (fun type? => (op.misuse? (some left.type) type? operator.span).toList) rfl
    (binary_settles op operator left)

lemma answers {run : Except Diagnostic Expr × ParseState}
    (h : Settles run (fun e => (.ok e, t)) type? misuses) :
    ((∃ e, run.1 = .ok e) ↔ misuses = []) ∧ (misuses = [] ↔ type?.isSome) ∧
    (∀ e, run.1 = .ok e → type? = some e.type) ∧
    ∀ d, run.1 = .error d → ∃ misuse rest, misuses = misuse :: rest ∧
      d.fault.phase = .semantic ∧ d.fault.message = misuse.message ∧ d.span = misuse.place := by
  obtain ⟨rfl, e, rfl, rfl⟩ | ⟨misuse, rest, d, rfl, rfl, failed, told⟩ := h
  · refine ⟨iff_of_true ⟨e, rfl⟩ rfl, iff_of_true rfl rfl, ?_, fun d failed => ?_⟩
    · rintro _ ⟨⟩
      rfl
    · cases failed
  · rw [failed]
    refine ⟨iff_of_false nofun nofun, iff_of_false nofun nofun, nofun, ?_⟩
    rintro _ ⟨⟩
    exact ⟨misuse, rest, rfl, told⟩

end Settles

lemma extend_of_none {operator? : Kind → Option BinaryOp} {operand : Parse Expr} {e : Expr}
    {next : Token} (peeked : s.tokens.peek = .ok next) (none : operator? next.kind = none) :
    extend (operation operator? operand) e s = (.ok e, s) := by
  refine Extends.start.extend_eq (Nat.zero_le _) ?_
  unfold operation
  rw [bind_of_ok (peek_of peeked), none]
  rfl

/-! ### Reading without bounds -/

lemma term_apply (ends : s.tokens.last.kind = .endOfText) : term s = termOf term s :=
  (Guarded.turn_eq (fun _ => guarded_termOf) monotone_pred bounds_term ⟨ends, rfl, List.suffix_rfl⟩
    (fun _ _ _ _ => rfl) ()).symm

lemma extend_apply {α : Type} {step : α → Parse (Option α)} (h : ∀ n, Grows s.tokens n step step)
    (ends : s.tokens.last.kind = .endOfText) (a : α) :
    extend step a s = extendOf step (extend step) a s :=
  (Guarded.turn_eq (fun n => (h n).guarded) monotone_id (bounds_extend step)
    ⟨ends, rfl, List.suffix_rfl⟩
    (fun _ _ _ _ => rfl) a).symm

lemma extend_operation {operator? : Kind → Option BinaryOp} {operand : Parse Expr} {op : BinaryOp}
    {operator : Token} {rest : List Token} (h : ∀ whole n, Takes whole n operand operand)
    (ends : s.tokens.last.kind = .endOfText) (is : operator? operator.kind = some op)
    (left : Expr) :
    extend (operation operator? operand) left (s.put (operator :: rest)) =
      ((operand >>= binary op operator left) >>= extend (operation operator? operand))
      (s.put rest) := by
  have turn : extend (operation operator? operand) left (s.put (operator :: rest)) =
      extendOf (operation operator? operand) (extend (operation operator? operand)) left
        (s.put (operator :: rest)) :=
    extend_apply (s := s.put _) (fun n => grows_operation _ (h _ n)) ends left
  rw [turn]
  unfold extendOf operation
  rw [bind_assoc, bind_of_ok (peek_of ParseState.peek_put_cons), is]
  dsimp only
  rw [bind_assoc, bind_of_ok next_put, bind_assoc, bind_assoc]
  simp only [map_eq_pure_bind, bind_assoc, pure_bind]

end Parse

/-! ### Levels of operators -/

/-- The operators in the chains of a level. -/
def Tier.operator? : Tier → Kind → Option BinaryOp
  | .sum => Kind.additive?
  | _ => Kind.multiplicative?

def Tier.reader : Tier → Parse Expr
  | .term => Parse.term
  | .product => Parse.chain Kind.multiplicative? Parse.term
  | .sum => Parse.expression

/-- How the reader of a level goes on behind an expression. -/
def Tier.onward : Tier → Expr → Parse Expr
  | .term => pure
  | .product => Parse.extend (Parse.operation Kind.multiplicative? Parse.term)
  | .sum =>
    Parse.extend (Parse.operation Kind.additive? (Parse.chain Kind.multiplicative? Parse.term))

/-- The token ends the last operand of a chain, if not the chain. -/
def Tier.Ends : Tier → Token → Prop
  | .sum, next => next.kind.multiplicative? = none
  | _, _ => True

def BinaryOp.kind : BinaryOp → Kind
  | .add => .plus
  | .sub => .minus
  | .mul => .star
  | .div => .slash
  | .intDiv => .divWord
  | .mod => .modWord
  | .eq => .equal
  | .lt => .less
  | .le => .lessEqual
  | .gt => .greater
  | .ge => .greaterEqual
  | .and => .andWord
  | .or => .orWord

namespace BinaryOp

variable (op : BinaryOp)

lemma operator?_kind : op.tier.operator? op.kind = some op := by cases op <;> rfl

lemma onward_tier :
    op.tier.onward = Parse.extend (Parse.operation op.tier.operator? op.tier.below.reader) := by
  cases op <;> rfl

lemma ends_of_kind {token : Token} (is : token.kind = op.kind) : op.tier.Ends token := by
  cases op <;> first | trivial | exact congrArg Kind.multiplicative? is

lemma ends_below (token : Token) : op.tier.below.Ends token := by cases op <;> trivial

lemma lexes (p : Position) : Lexes p op.symbol.toList
    [⟨op.kind, String.ofList op.symbol.toList, .between p (p.after op.symbol.toList)⟩] := by
  cases op <;> exact .letters (by decide) (by decide) p

variable {s : ParseState} {next : Token} {e : Expr}

lemma onward_below (ends : op.tier.Ends next) (peeked : s.tokens.peek = .ok next) :
    op.tier.below.onward e s = (.ok e, s) := by
  cases op <;> first | rfl | exact Parse.extend_of_none peeked ends

end BinaryOp

lemma Tier.takes_reader (tier : Tier) {whole : Tokens} {n : Nat} :
    Parse.Takes whole n tier.reader tier.reader := by
  cases tier with
  | term => exact Parse.takes_term
  | product => exact Parse.takes_term.chain _
  | sum => exact Parse.takes_expression

/-! ### How expressions without names are read -/

/-- The expression at the place is read as the tokens. In front of a token that ends it, its reader
goes on behind it, or has failed with the first misuse. -/
structure Nameless.ReadAs {tier : Tier} {isOpen : Bool} (f : Nameless tier isOpen) (p : Position)
    (tokens : List Token) : Prop where
  lexes : Lexes p f.chars tokens
  settles : ∀ s next, s.tokens.last.kind = .endOfText → s.tokens.peek = .ok next → tier.Ends next →
    (isOpen = true → ¬ next.IsOperator) →
    Parse.Settles (tier.reader (s.put tokens)) (tier.onward · s) f.type? (f.misuses p)

namespace Nameless.ReadAs

variable {p : Position} {tokens tokens' : List Token} {isOpen : Bool}

lemma literal {kind : Kind} {lexeme : String} (listed : kind ∈ Kind.literals)
    (fits : kind.Fits lexeme)
    (p : Position) : ∃ token, (literal kind lexeme listed fits).ReadAs p [token] := by
  refine ⟨_, .word fits p, fun s next ends _ _ _ => .inl ⟨rfl, ?_⟩⟩
  let token : Token := ⟨kind, lexeme, .between p (p.after (kind.written lexeme))⟩
  change ∃ e, some kind.literalType = some e.type ∧ Parse.term (s.put [token]) = (.ok e, s)
  rw [Parse.term_apply (s := s.put _) ends]
  unfold Parse.termOf
  rw [bind_of_ok Parse.next_put]
  have range := fits.range
  clear fits
  simp only [Kind.literals, List.mem_cons, List.not_mem_nil, or_false] at listed
  rcases listed with rfl | rfl | rfl | rfl | rfl
  · rcases found : token.integer? with _ | n
    · exact absurd (range rfl) (Int.not_le.2 (Item.ofNat?_eq_none_iff.1 found))
    · exact ⟨.literal (.integer n) .integer token.span, rfl, rfl⟩
  · exact ⟨_, rfl, rfl⟩
  · exact ⟨_, rfl, rfl⟩
  · exact ⟨_, rfl, rfl⟩
  · exact ⟨_, rfl, rfl⟩

lemma signed {sign : Sign} {gap : Gap} {operand : Nameless .term isOpen}
    (h : operand.ReadAs (p.after ([sign.mark] ++ gap.chars)) tokens) :
    ∃ mark, (signed sign gap operand).ReadAs p (mark :: tokens) := by
  refine ⟨_, (sign.lexes p).append h.lexes, fun s next ends peeked _ closed => ?_⟩
  let mark : Token := ⟨sign.kind, String.ofList [sign.mark], .between p (p.after [sign.mark])⟩
  have read : Parse.term (s.put (mark :: tokens)) =
      (Parse.term >>= Parse.unary sign.op mark) (s.put tokens) := by
    rw [Parse.term_apply (s := s.put _) ends]
    unfold Parse.termOf
    rw [bind_of_ok Parse.next_put]
    cases sign <;> rfl
  change Parse.Settles (Parse.term (s.put (mark :: tokens))) _ _ _
  rw [read]
  exact (h.settles s next ends peeked trivial closed).unary sign.op mark

lemma complete {f : Nameless .sum isOpen} (h : f.ReadAs p tokens) {s : ParseState} {next : Token}
    (ends : s.tokens.last.kind = .endOfText) (peeked : s.tokens.peek = .ok next)
    (other : ¬ next.IsOperator) :
    Parse.Settles (Parse.expression (s.put tokens)) (fun e => (.ok e, s)) f.type?
      (f.misuses p) := by
  obtain ⟨noSum, noProduct⟩ := not_or.1 (mt Token.isOperator_iff.2 other)
  have stops (e : Expr) : Tier.sum.onward e s = (.ok e, s) :=
    Parse.extend_of_none peeked (not_not.1 noSum)
  have settled := h.settles s next ends peeked (not_not.1 noProduct) fun _ => other
  rwa [funext stops] at settled

lemma not {gap : Gap} {operand : Nameless .sum isOpen}
    (h : operand.ReadAs (p.after (['n', 'o', 't'] ++ gap.chars)) tokens) :
    ∃ word, (Nameless.not gap operand).ReadAs p (word :: tokens) := by
  have letters : Kind.letters .notWord = ['n', 'o', 't'] := by decide
  refine ⟨_, (Lexes.letters (by decide) letters p).append h.lexes,
    fun s next ends peeked _ closed => ?_⟩
  let word : Token :=
    ⟨.notWord, String.ofList ['n', 'o', 't'], .between p (p.after ['n', 'o', 't'])⟩
  have read : Parse.term (s.put (word :: tokens)) =
      (Parse.expression >>= Parse.unary .not word) (s.put tokens) := by
    rw [Parse.term_apply (s := s.put _) ends]
    unfold Parse.termOf
    rw [bind_of_ok Parse.next_put]
    rfl
  change Parse.Settles (Parse.term (s.put (word :: tokens))) _ _ _
  rw [read]
  exact (h.complete ends peeked (closed rfl)).unary .not word

lemma group {gap gap' : Gap} {inner : Nameless .sum isOpen}
    (h : inner.ReadAs (p.after (['('] ++ gap.chars)) tokens) :
    ∃ opening closing, (group gap inner gap').ReadAs p (opening :: (tokens ++ [closing])) := by
  have opens := Lexes.letters (by decide) (by decide : Kind.letters .leftParen = ['(']) p
  have closes := Lexes.letters (by decide) (by decide : Kind.letters .rightParen = [')'])
    ((p.after (['('] ++ gap.chars)).after (inner.chars ++ gap'.chars))
  refine ⟨_, _, opens.append (h.lexes.append closes), fun s next ends peeked _ _ => ?_⟩
  let opening : Token := ⟨.leftParen, String.ofList ['('], .between p (p.after ['('])⟩
  have behind (closing : Token) (closes : closing.kind = .rightParen) :
      Parse.Settles (Parse.term (s.put (opening :: (tokens ++ [closing])))) (fun e => (.ok e, s))
        inner.type? (inner.misuses (p.after (['('] ++ gap.chars))) := by
    have other : ¬ closing.IsOperator := (Token.ends closes (by decide)).2
    have settled := h.complete (s := s.put [closing]) ends rfl other
    rw [ParseState.put_put] at settled
    rw [Parse.term_apply (s := s.put _) ends]
    unfold Parse.termOf
    rw [bind_of_ok Parse.next_put]
    exact settled.bind fun e => by rw [bind_of_ok (Parse.expect_put closes)]; rfl
  exact behind _ rfl

lemma product {single : Nameless .term isOpen} (h : single.ReadAs p tokens) :
    (product single).ReadAs p tokens :=
  ⟨h.lexes, fun s next ends peeked _ closed =>
    (h.settles s next ends peeked trivial closed).bind fun _ => rfl⟩

lemma sum {single : Nameless .product isOpen} (h : single.ReadAs p tokens) :
    (sum single).ReadAs p tokens := by
  refine ⟨h.lexes, fun s next ends peeked stops closed => ?_⟩
  have complete (e : Expr) : Tier.product.onward e s = (.ok e, s) :=
    Parse.extend_of_none peeked stops
  have settled := h.settles s next ends peeked trivial closed
  rw [funext complete] at settled
  exact settled.bind fun _ => rfl

lemma operation {op : BinaryOp} {left : Nameless op.tier false} {gap gap' : Gap}
    {right : Nameless op.tier.below isOpen} (h : left.ReadAs p tokens)
    (h' : right.ReadAs ((p.after (left.chars ++ gap.chars)).after (op.symbol.toList ++ gap'.chars))
      tokens') :
    ∃ operator, (operation op left gap gap' right).ReadAs p (tokens ++ operator :: tokens') := by
  refine ⟨_, h.lexes.append ((op.lexes _).append h'.lexes), fun s next ends peeked stops closed =>
    ?_⟩
  let q := p.after (left.chars ++ gap.chars)
  let operator : Token :=
    ⟨op.kind, String.ofList op.symbol.toList, .between q (q.after op.symbol.toList)⟩
  have complete (e : Expr) : op.tier.below.onward e s = (.ok e, s) := op.onward_below stops peeked
  have second := h'.settles s next ends peeked (op.ends_below next) closed
  rw [funext complete] at second
  have first :=
    h.settles (s.put (operator :: tokens')) operator ends rfl (op.ends_of_kind rfl) nofun
  rw [ParseState.put_put] at first
  change Parse.Settles (op.tier.reader (s.put (tokens ++ operator :: tokens'))) _
    (left.type?.bind fun l => right.type?.bind fun r => op.table.lookup (l, r))
    (left.misuses p ++ (right.misuses (q.after (op.symbol.toList ++ gap'.chars)) ++
      (op.misuse? left.type? right.type? operator.span).toList))
  obtain ⟨none, e, typed, read⟩ | ⟨misuse, rest, d, some, untyped, failed, told⟩ := first
  · have extended : op.tier.onward e (s.put (operator :: tokens')) =
        ((op.tier.below.reader >>= Parse.binary op operator e) >>= op.tier.onward)
        (s.put tokens') := by
      rw [op.onward_tier]
      exact Parse.extend_operation (fun _ _ => Tier.takes_reader _) ends op.operator?_kind e
    rw [none, typed, read]
    dsimp only
    rw [extended]
    exact (second.binary op operator e).bind fun _ => rfl
  · rw [some, untyped]
    exact .inr ⟨misuse, _, d, rfl, rfl, failed, told⟩

end Nameless.ReadAs

namespace Nameless

lemma exists_readAs {tier : Tier} {isOpen : Bool} (f : Nameless tier isOpen) :
    ∀ p, ∃ tokens, f.ReadAs p tokens := by
  induction f with
  | literal kind lexeme listed fits =>
    intro p
    obtain ⟨_, h⟩ := ReadAs.literal listed fits p
    exact ⟨_, h⟩
  | signed sign gap operand ih =>
    intro p
    obtain ⟨_, h⟩ := ih (p.after ([sign.mark] ++ gap.chars))
    obtain ⟨_, h⟩ := h.signed
    exact ⟨_, h⟩
  | not gap operand ih =>
    intro p
    obtain ⟨_, h⟩ := ih (p.after (['n', 'o', 't'] ++ gap.chars))
    obtain ⟨_, h⟩ := h.not
    exact ⟨_, h⟩
  | group gap inner gap' ih =>
    intro p
    obtain ⟨_, h⟩ := ih (p.after (['('] ++ gap.chars))
    obtain ⟨_, _, h⟩ := h.group
    exact ⟨_, h⟩
  | product single ih =>
    intro p
    obtain ⟨_, h⟩ := ih p
    exact ⟨_, h.product⟩
  | sum single ih =>
    intro p
    obtain ⟨_, h⟩ := ih p
    exact ⟨_, h.sum⟩
  | operation op left gap gap' right ihl ihr =>
    intro p
    obtain ⟨_, h⟩ := ihl p
    obtain ⟨_, h'⟩ :=
      ihr ((p.after (left.chars ++ gap.chars)).after (op.symbol.toList ++ gap'.chars))
    obtain ⟨_, h⟩ := h.operation h'
    exact ⟨_, h⟩

/-- A text with an expression in it, and layout around it, is read, or its first misuse is
reported. -/
lemma wholeExpression_settles {isOpen : Bool} (f : Nameless .sum isOpen)
    {leading trailing : List Char}
    (front : IsLayout leading) (behind : IsLayout trailing) (folding : Bool) : ∃ s,
      Parse.Settles
      (Parse.wholeExpression (.ofText (String.ofList (leading ++ (f.chars ++ trailing))) folding))
        (fun e => (.ok e, s)) f.type? (f.misuses (.after .start leading)) := by
  obtain ⟨tokens, read⟩ := f.exists_readAs (.after .start leading)
  obtain ⟨last, is, whole⟩ := read.lexes.exists_atEnd front behind folding
  have other : ¬ last.IsOperator := (Token.ends is (by decide)).2
  have settled := read.complete (s := .atEnd last folding) is rfl other
  refine ⟨.atEnd last folding, ?_⟩
  rw [whole]
  exact settled.bind fun e => by rw [bind_of_ok (Parse.expect_atEnd is folding)]; rfl

/-- **Operators are checked from the left to the right and from the inside out.** An expression
without names and with layout around it is read exactly if all uses of operators in it are in the
table, and then as an expression of the type that the table gives. Otherwise the first misuse is
reported, at the place of its operator, with the operator and the types of its operands in the
message. -/
theorem checked_in_order {isOpen : Bool} (f : Nameless .sum isOpen) {leading trailing : List Char}
    (front : IsLayout leading) (behind : IsLayout trailing) (folding : Bool) :
    let place := Position.after .start leading
    let text := String.ofList (leading ++ (f.chars ++ trailing))
    let answer := (Parse.wholeExpression (.ofText text folding)).1
    ((∃ e, answer = .ok e) ↔ f.misuses place = []) ∧ (f.misuses place = [] ↔ f.type?.isSome) ∧
    (∀ e, answer = .ok e → f.type? = some e.type) ∧
    ∀ d, answer = .error d → ∃ misuse rest, f.misuses place = misuse :: rest ∧
      d.fault.phase = .semantic ∧ d.fault.message = misuse.message ∧ d.span = misuse.place := by
  obtain ⟨s, settled⟩ := f.wholeExpression_settles front behind folding
  exact settled.answers

/-- A sum with a truth value is wrong too, but its other operand is wrong before it. -/
theorem checked_in_order_inner :
    let space : Gap := ⟨[' '], .blank (by decide) .none, by decide⟩
    let one : Nameless .term false := .literal .integerLiteral "1"
      (by decide) ⟨@Kind.Spells.integer ['1'] (by decide) (by simp), fun _ => by decide⟩
    let two : Nameless .term false := .literal .realLiteral "2.0"
      (by decide) ⟨@Kind.Spells.real ['2'] ['0'] (by decide) (by simp) (by decide) (by simp), nofun⟩
    let yes : Nameless .term false :=
      .literal .trueWord "true" (by decide) ⟨.word (by decide), nofun⟩
    let letter : Nameless .term false := .literal .stringLiteral "a"
      (by decide) ⟨.string (by decide), nofun⟩
    let inner : Nameless .sum false := .sum (.operation .intDiv (.product one) space space two)
    let sum : Nameless .sum false := .operation .add (.sum (.product yes)) space space
      (.product (.group space inner space))
    let f : Nameless .sum false :=
      .operation .eq sum space space (.operation .mul (.product letter) space space one)
    let text := String.ofList (['\n'] ++ (f.chars ++ ['{', 'c', '}']))
    IsLayout ['\n'] ∧ IsLayout ['{', 'c', '}'] ∧
      text = "\ntrue + ( 1 div 2.0 ) = 'a' * 1\x7bc\x7d" ∧
    f.misuses (.after .start ['\n']) = [⟨"div", [.integer, .real], ⟨12, 15, 2, 12⟩⟩,
      ⟨"*", [.string, .integer], ⟨28, 29, 2, 28⟩⟩] ∧
    ∃ d, (Parse.wholeExpression (.ofText text true)).1 = .error d ∧ d.fault.phase = .semantic ∧
      d.fault.message = "Operator 'div' cannot be applied to Integer and Real" ∧
      d.span = ⟨12, 15, 2, 12⟩ := by
  intro space one two yes letter inner sum f text
  have front : IsLayout ['\n'] := .blank (by decide) .none
  have behind : IsLayout ['{', 'c', '}'] := .comment (by decide : '}' ∉ ['c']) .none
  have wrong : f.misuses (.after .start ['\n']) = [⟨"div", [.integer, .real], ⟨12, 15, 2, 12⟩⟩,
      ⟨"*", [.string, .integer], ⟨28, 29, 2, 28⟩⟩] := by decide +kernel
  refine ⟨front, behind, by decide +kernel, wrong, ?_⟩
  obtain ⟨reads, -, -, fails⟩ := f.checked_in_order front behind true
  rcases answer : (Parse.wholeExpression (.ofText text true)).1 with d | e
  · obtain ⟨misuse, rest, first, phase, message, place⟩ := fails d answer
    rw [wrong] at first
    obtain ⟨rfl, -⟩ := List.cons.inj first
    exact ⟨d, rfl, phase, message, place⟩
  · exact absurd (reads.1 ⟨e, answer⟩) (by rw [wrong]; nofun)

end Nameless

end SmallPascal
