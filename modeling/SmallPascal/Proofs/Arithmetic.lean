import SmallPascal.Proofs.Computing
import SmallPascal.Proofs.ExpressionRecognition
import SmallPascal.Proofs.FloorDivision
import SmallPascal.Proofs.Printing

/-! Arithmetic on integers is exact. A formula is written with numerals, signs, parentheses and four
operators on two levels, and with any layout between its tokens. It is always read as an expression,
and this has the exact value of the formula, unless some value on the way is out of range or some
divisor is zero; then it fails there. -/

namespace SmallPascal

open Grammar Steps

/-! ### Formulas -/

/-- The levels of formulas: terms, products of terms, and sums of products. -/
inductive Tier where
  | term | product | sum

inductive Sign where
  | plus | minus

/-- The operators between operands on one level, which make formulas on the next. -/
inductive Operation : Tier → Tier → Type
  | add : Operation .product .sum
  | subtract : Operation .product .sum
  | multiply : Operation .term .product
  | divide : Operation .term .product

structure Numeral where
  digits : List Char
  some : digits ≠ []
  decimal : digits.all Char.isDigit
  range : Nat.ofDigitChars 10 digits 0 ≤ Integer.greatest

inductive Formula : Tier → Type
  | number (numeral : Numeral) : Formula .term
  | signed (sign : Sign) (gap : Gap) (operand : Formula .term) : Formula .term
  | group (gap : Gap) (inner : Formula .sum) (gap' : Gap) : Formula .term
  | product (single : Formula .term) : Formula .product
  | sum (single : Formula .product) : Formula .sum
  | operation {operand chain : Tier} (left : Formula chain) (gap : Gap)
    (op : Operation operand chain) (gap' : Gap) (right : Formula operand) : Formula chain

variable {operand chain : Tier}

def Sign.mark : Sign → Char
  | .plus => '+'
  | .minus => '-'

/-- The exact value of a number with a sign. -/
def Sign.exact (x : Int) : Sign → Int
  | .plus => x
  | .minus => -x

def Operation.word : Operation operand chain → List Char
  | .add => ['+']
  | .subtract => ['-']
  | .multiply => ['*']
  | .divide => ['d', 'i', 'v']

/-- The exact value of an operation. Quotients are rounded down. -/
def Operation.exact (x y : Int) : Operation operand chain → Int
  | .add => x + y
  | .subtract => x - y
  | .multiply => x * y
  | .divide => x.fdiv y

/-- What is wrong with a number that is out of range. -/
def outOfRange? (x : Int) : Option RuntimeFault :=
  if Integer.least ≤ x ∧ x ≤ Integer.greatest then none else some .overflow

/-- What is wrong with an operation on numbers, if anything is. -/
def Operation.fault? (x y : Int) : Operation operand chain → Option RuntimeFault
  | .divide => if y = 0 then some .divisionByZero else outOfRange? (x.fdiv y)
  | op => outOfRange? (op.exact x y)

namespace Formula

def chars {tier : Tier} : Formula tier → List Char
  | .number numeral => numeral.digits
  | .signed sign gap operand => [sign.mark] ++ (gap.chars ++ operand.chars)
  | .group gap inner gap' => ['('] ++ (gap.chars ++ (inner.chars ++ (gap'.chars ++ [')'])))
  | .product single => single.chars
  | .sum single => single.chars
  | .operation left gap op gap' right =>
    left.chars ++ (gap.chars ++ (op.word ++ (gap'.chars ++ right.chars)))

def value {tier : Tier} : Formula tier → Int
  | .number numeral => Nat.ofDigitChars 10 numeral.digits 0
  | .signed sign _ operand => sign.exact operand.value
  | .group _ inner _ => inner.value
  | .product single => single.value
  | .sum single => single.value
  | .operation left _ op _ right => op.exact left.value right.value

/-- The part of the text that a formula at the place covers, from the first numeral or sign up to
the last numeral. Parentheses around it all are no part of it. -/
def span {tier : Tier} : Formula tier → Position → Span
  | .number numeral, p => .between p (p.after numeral.digits)
  | .signed sign gap operand, p =>
    (Span.between p (p.after [sign.mark])).through
      (operand.span (p.after ([sign.mark] ++ gap.chars)))
  | .group gap inner _, p => inner.span (p.after (['('] ++ gap.chars))
  | .product single, p => single.span p
  | .sum single, p => single.span p
  | .operation left gap op gap' right, p =>
    (left.span p).through
      (right.span (p.after (left.chars ++ (gap.chars ++ (op.word ++ gap'.chars)))))

/-- All that is wrong in a formula at the place, and with which part of it: from the left to the
right, and operands before the operation on them. -/
def offences {tier : Tier} : Formula tier → Position → List (RuntimeFault × Span)
  | .number _, _ => []
  | .signed sign gap operand, p =>
    operand.offences (p.after ([sign.mark] ++ gap.chars)) ++
      (outOfRange? (sign.exact operand.value)).toList.map
      (·, (Formula.signed sign gap operand).span p)
  | .group gap inner _, p => inner.offences (p.after (['('] ++ gap.chars))
  | .product single, p => single.offences p
  | .sum single, p => single.offences p
  | .operation left gap op gap' right, p =>
    left.offences p ++
      (right.offences (p.after (left.chars ++ (gap.chars ++ (op.word ++ gap'.chars)))) ++
      (op.fault? left.value right.value).toList.map
      (·, (Formula.operation left gap op gap' right).span p))

lemma outOfRange?_eq {x : Int} {fault : RuntimeFault} (h : outOfRange? x = some fault) :
    fault = .overflow := by
  unfold outOfRange? at h
  split at h <;> cases h
  rfl

lemma fault_of_mem_offences {tier : Tier} {f : Formula tier} {fault : RuntimeFault} {place : Span} :
    ∀ {p : Position}, (fault, place) ∈ f.offences p →
      fault = .overflow ∨ fault = .divisionByZero := by
  have own {found : Option RuntimeFault} {part : Span}
      (h : ∀ fault, found = some fault → fault = .overflow ∨ fault = .divisionByZero)
      (among : (fault, place) ∈ found.toList.map (·, part)) :
      fault = .overflow ∨ fault = .divisionByZero := by
    obtain ⟨_, listed, ⟨⟩⟩ := List.mem_map.1 among
    exact h _ (Option.mem_toList.1 listed)
  induction f with
  | number => exact nofun
  | signed sign gap operand ih =>
    intro p among
    exact (List.mem_append.1 among).elim ih (own fun _ found => .inl (outOfRange?_eq found))
  | group gap inner gap' ih => exact ih
  | product single ih | sum single ih => exact ih
  | operation left gap op gap' right ihl ihr =>
    intro p among
    rcases List.mem_append.1 among with among | among
    · exact ihl among
    refine (List.mem_append.1 among).elim ihr (own fun fault found => ?_)
    cases op with
    | add | subtract | multiply => exact .inl (outOfRange?_eq found)
    | divide =>
      simp only [Operation.fault?] at found
      split at found
      · exact .inr (Option.some.inj found).symm
      · exact .inl (outOfRange?_eq found)

end Formula

/-! ### Operations on integers -/

namespace Integer

lemma checked_cases (x : Int) :
    (outOfRange? x = none ∧ ∃ n : Integer, n.toInt = x ∧ checked (ofInt? x) = .ok (.integer n)) ∨
      ∃ fault, outOfRange? x = some fault ∧ checked (ofInt? x) = .error fault := by
  rcases found : ofInt? x with _ | n
  · have out := ofInt?_eq_none_iff.1 found
    exact .inr ⟨.overflow, if_neg (by omega), rfl⟩
  · have exact := ofInt?_eq_some_iff.1 found
    have low := least_le_toInt n
    have high := toInt_le_greatest n
    rw [exact] at low high
    exact .inl ⟨if_pos ⟨low, high⟩, n, exact, rfl⟩

lemma floorDiv?_eq_ofInt? {a b : Integer} (nonzero : b ≠ 0) :
    floorDiv? a b = ofInt? (a.toInt.fdiv b.toInt) := by
  refine Option.ext fun q => ?_
  rw [floorDiv?_eq_some_iff, ofInt?_eq_some_iff, and_iff_right nonzero]

end Integer

def Sign.op : Sign → UnaryOp
  | .plus => .plus
  | .minus => .negate

lemma Sign.apply_cases (sign : Sign) (n : Integer) :
    (outOfRange? (sign.exact n.toInt) = none ∧ ∃ k : Integer, k.toInt = sign.exact n.toInt ∧
      sign.op.apply (.integer n) = .ok (.integer k)) ∨
    ∃ fault, outOfRange? (sign.exact n.toInt) = some fault ∧
      sign.op.apply (.integer n) = .error fault := by
  cases sign with
  | plus => exact .inl ⟨if_pos ⟨Integer.least_le_toInt n, Integer.toInt_le_greatest n⟩, n, rfl, rfl⟩
  | minus => exact Integer.checked_cases _

def Operation.op : Operation operand chain → BinaryOp
  | .add => .add
  | .subtract => .sub
  | .multiply => .mul
  | .divide => .intDiv

lemma Operation.apply_cases (op : Operation operand chain) (m n : Integer) :
    (op.fault? m.toInt n.toInt = none ∧ ∃ k : Integer, k.toInt = op.exact m.toInt n.toInt ∧
      op.op.apply (.integer m) (.integer n) = .ok (.integer k)) ∨
    ∃ fault, op.fault? m.toInt n.toInt = some fault ∧
      op.op.apply (.integer m) (.integer n) = .error fault := by
  cases op with
  | add | subtract | multiply => exact Integer.checked_cases _
  | divide =>
    by_cases zero : n = 0
    · subst zero
      exact .inr ⟨.divisionByZero, rfl, rfl⟩
    · have quotient : BinaryOp.intDiv.apply (.integer m) (.integer n) =
          Integer.checked (Integer.ofInt? (m.toInt.fdiv n.toInt)) := by
        rw [← Integer.floorDiv?_eq_ofInt? zero]
        exact if_neg zero
      have nonzero := Integer.toInt_ne_zero zero
      simp only [Operation.op, quotient, Operation.fault?, if_neg nonzero]
      exact Integer.checked_cases _

/-! ### What expressions come to -/

lemma Eval.fail_bind {α β : Type} (fault : RuntimeFault) (span : Span) (f : α → Eval β) :
    Eval.fail fault span >>= f = Eval.fail fault span := rfl

/-- The expression is an integer. It has the value, wherever it is evaluated, or it fails with the
first of the faults. -/
structure Expr.Computes (e : Expr) (value : Int) (span : Span)
    (faults : List (RuntimeFault × Span)) : Prop where
  type : e.type = .integer
  span : e.span = span
  outcome :
    (faults = [] ∧ ∃ n : Integer, n.toInt = value ∧
      ∀ context store, e.eval context store = pure (.integer n)) ∨
    ∃ fault place rest, faults = (fault, place) :: rest ∧
      ∀ context store, e.eval context store = .fail fault place

namespace Expr.Computes

variable {e left right : Expr} {x y : Int} {s t : Span} {before behind : List (RuntimeFault × Span)}

lemma folded (h : e.Computes x s before) : e.folded.Computes x s before where
  type := (type_folded e).trans h.type
  span := (span_folded e).trans h.span
  outcome := by simpa only [eval_folded] using h.outcome

/-- Operands are evaluated from left to right, and their faults are those of the operation. -/
lemma operation (h : left.Computes x s before) (h' : right.Computes y t behind)
    (op : Operation operand chain) : ∃ e, Expr.operation? op.op left right = some e ∧
      e.Computes (op.exact x y) (s.through t)
        (before ++ (behind ++ (op.fault? x y).toList.map (·, s.through t))) := by
  have type : op.op.resultType? left.type right.type = some .integer := by
    rw [h.type, h'.type]
    cases op <;> rfl
  refine ⟨_, by rw [operation?, type]; rfl, folded ⟨rfl, by rw [← h.span, ← h'.span]; rfl, ?_⟩⟩
  simp only [eval]
  -- the left operand fails, or the right one, or the operation itself, or nothing does
  obtain ⟨rfl, m, rfl, first⟩ | ⟨fault, place, rest, rfl, fails⟩ := h.outcome
  · obtain ⟨rfl, n, rfl, second⟩ | ⟨fault, place, rest, rfl, fails⟩ := h'.outcome
    · obtain ⟨none, k, exact, applied⟩ | ⟨fault, found, applied⟩ := op.apply_cases m n
      · refine .inl ⟨by rw [none]; rfl, k, exact, fun context store => ?_⟩
        rw [first, pure_bind, second, pure_bind, applied]
        rfl
      · refine .inr ⟨fault, s.through t, [], by rw [found]; rfl, fun context store => ?_⟩
        rw [first, pure_bind, second, pure_bind, applied, h.span, h'.span]
        rfl
    · refine .inr ⟨fault, place, _, rfl, fun context store => ?_⟩
      rw [first, pure_bind, fails, Eval.fail_bind]
  · refine .inr ⟨fault, place, _, rfl, fun context store => ?_⟩
    rw [fails, Eval.fail_bind]

lemma signed (h : e.Computes x s before) (sign : Sign) (mark : Token) :
    ∃ e', e.signed? sign.op mark = some e' ∧
      e'.Computes (sign.exact x) (mark.span.through s)
        (before ++ (outOfRange? (sign.exact x)).toList.map (·, mark.span.through s)) := by
  have type : sign.op.resultType? e.type = some .integer := by
    rw [h.type]
    cases sign <;> rfl
  refine ⟨_, by rw [signed?, type]; rfl, folded ⟨rfl, by rw [← h.span]; rfl, ?_⟩⟩
  simp only [eval]
  obtain ⟨rfl, n, rfl, first⟩ | ⟨fault, place, rest, rfl, fails⟩ := h.outcome
  · obtain ⟨none, k, exact, applied⟩ | ⟨fault, found, applied⟩ := sign.apply_cases n
    · refine .inl ⟨by rw [none]; rfl, k, exact, fun context store => ?_⟩
      rw [first, pure_bind, applied]
      rfl
    · refine .inr ⟨fault, mark.span.through s, [], by rw [found]; rfl, fun context store => ?_⟩
      rw [first, pure_bind, applied, h.span]
      rfl
  · refine .inr ⟨fault, place, _, rfl, fun context store => ?_⟩
    rw [fails, Eval.fail_bind]

end Expr.Computes

/-! ### How formulas are read -/

def Tier.writing : Tier → Writing Phrase
  | .term => Term
  | .product => Chain products Term
  | .sum => Expression

def Sign.kind : Sign → Kind
  | .plus => .plus
  | .minus => .minus

def Operation.kind : Operation operand chain → Kind
  | .add => .plus
  | .subtract => .minus
  | .multiply => .star
  | .divide => .divWord

lemma Sign.lexes (sign : Sign) (p : Position) :
    Lexes p [sign.mark]
      [⟨sign.kind, String.ofList [sign.mark], .between p (p.after [sign.mark])⟩] := by
  cases sign <;> exact .letters (by decide) (by decide) p

lemma Operation.lexes (op : Operation operand chain) (p : Position) :
    Lexes p op.word [⟨op.kind, String.ofList op.word, .between p (p.after op.word)⟩] := by
  cases op <;> exact .letters (by decide) (by decide) p

lemma Operation.writing (op : Operation operand chain) {left right : Phrase}
    {front behind : List Token}
    {operator next : Token} (h : chain.writing left front operator) (is : operator.kind = op.kind)
    (h' : operand.writing right behind next) :
    chain.writing (.binary op.op left right) (front ++ operator :: behind) next := by
  cases op <;> exact .more h (by rw [is]; decide) h'

lemma Token.exists_literal {token : Token} {n : Nat} (kind : token.kind = .integerLiteral)
    (value : Nat.ofDigitChars 10 token.lexeme.toList 0 = n) (range : n ≤ Integer.greatest) :
    ∃ e, token.literal? = some e ∧ e.Computes n token.span [] := by
  rcases found : Integer.ofNat? n with _ | m
  · exact absurd range (Int.not_le.2 (Item.ofNat?_eq_none_iff.1 found))
  · refine ⟨.literal (.integer m) .integer token.span, ?_, rfl, rfl, ?_⟩
    · simp [Token.literal?, Token.integer?, kind, value, found]
    · exact .inl ⟨rfl, m, Integer.ofInt?_eq_some_iff.1 found, fun _ _ => rfl⟩

/-- The formula at the place is read as the tokens and the tree, which means an expression that
computes the formula's value. -/
structure Formula.ReadAs {tier : Tier} (f : Formula tier) (p : Position) (tokens : List Token)
    (phrase : Phrase) : Prop where
  lexes : Lexes p f.chars tokens
  written : ∀ next, tier.writing phrase tokens next
  means : ∀ setting, ∃ e, phrase.elaborate setting = some e ∧
    e.Computes f.value (f.span p) (f.offences p)

namespace Formula.ReadAs

variable {p : Position} {tokens tokens' : List Token} {phrase phrase' : Phrase}

lemma number (numeral : Numeral) (p : Position) :
    ∃ token, (Formula.number numeral).ReadAs p [token] (.literal token) := by
  have spells : Kind.Spells .integerLiteral numeral.digits :=
    .integer numeral.some (List.all_eq_true.1 numeral.decimal)
  obtain ⟨written, fits⟩ := Kind.fits_ofList (by decide) spells fun _ => numeral.range
  have lexes := Lexes.word fits p
  rw [written] at lexes
  have literal : Kind.integerLiteral ∈ Kind.literals := by decide
  refine ⟨_, lexes, fun next => .literal literal, fun setting => ?_⟩
  rw [Phrase.elaborate]
  exact Token.exists_literal rfl (by rw [String.toList_ofList]) numeral.range

lemma signed {sign : Sign} {gap : Gap} {operand : Formula .term}
    (h : operand.ReadAs (p.after ([sign.mark] ++ gap.chars)) tokens phrase) :
    ∃ mark, (Formula.signed sign gap operand).ReadAs p (mark :: tokens)
      (.unary sign.op mark phrase) := by
  refine ⟨_, (sign.lexes p).append h.lexes, fun next =>
    .sign (by cases sign <;> rfl) (h.written next),
    fun setting => ?_⟩
  obtain ⟨e, meant, computes⟩ := h.means setting
  obtain ⟨e', signed, computes'⟩ := computes.signed sign
    ⟨sign.kind, String.ofList [sign.mark], .between p (p.after [sign.mark])⟩
  exact ⟨e', by rw [Phrase.elaborate, meant]; exact signed, computes'⟩

lemma group {gap gap' : Gap} {inner : Formula .sum}
    (h : inner.ReadAs (p.after (['('] ++ gap.chars)) tokens phrase) : ∃ opening closing,
      (Formula.group gap inner gap').ReadAs p (opening :: (tokens ++ [closing])) phrase := by
  have opens := Lexes.letters (by decide) (by decide : Kind.letters .leftParen = ['(']) p
  have closes := Lexes.letters (by decide) (by decide : Kind.letters .rightParen = [')'])
    ((p.after (['('] ++ gap.chars)).after (inner.chars ++ gap'.chars))
  exact ⟨_, _, opens.append (h.lexes.append closes), fun next =>
    .group rfl (h.written _) rfl, h.means⟩

lemma operation {left : Formula chain} {gap gap' : Gap} {op : Operation operand chain}
    {right : Formula operand} (h : left.ReadAs p tokens phrase)
    (h' : right.ReadAs (p.after (left.chars ++ (gap.chars ++ (op.word ++ gap'.chars))))
      tokens' phrase') :
    ∃ operator, (Formula.operation left gap op gap' right).ReadAs p (tokens ++ operator :: tokens')
      (.binary op.op phrase phrase') := by
  have behind := h'.lexes
  rw [← List.append_assoc, Position.after_append] at behind
  refine ⟨_, h.lexes.append ((op.lexes _).append behind),
    fun next => op.writing (h.written _) rfl (h'.written next), fun setting => ?_⟩
  obtain ⟨e, meant, computes⟩ := h.means setting
  obtain ⟨e', meant', computes'⟩ := h'.means setting
  obtain ⟨result, operated, computed⟩ := computes.operation computes' op
  exact ⟨result, by rw [Phrase.elaborate, meant, meant']; exact operated, computed⟩

end Formula.ReadAs

lemma Formula.readAs {tier : Tier} (f : Formula tier) :
    ∀ p, ∃ tokens phrase, f.ReadAs p tokens phrase := by
  induction f with
  | number numeral =>
    intro p
    obtain ⟨token, h⟩ := ReadAs.number numeral p
    exact ⟨_, _, h⟩
  | signed sign gap operand ih =>
    intro p
    obtain ⟨_, _, h⟩ := ih (p.after ([sign.mark] ++ gap.chars))
    obtain ⟨_, h⟩ := h.signed
    exact ⟨_, _, h⟩
  | group gap inner gap' ih =>
    intro p
    obtain ⟨_, _, h⟩ := ih (p.after (['('] ++ gap.chars))
    obtain ⟨_, _, h⟩ := h.group
    exact ⟨_, _, h⟩
  | product single ih | sum single ih =>
    intro p
    obtain ⟨_, _, lexes, written, means⟩ := ih p
    exact ⟨_, _, lexes, fun next => .first (written next), means⟩
  | operation left gap op gap' right ihl ihr =>
    intro p
    obtain ⟨_, _, h⟩ := ihl p
    obtain ⟨_, _, h'⟩ := ihr (p.after (left.chars ++ (gap.chars ++ (op.word ++ gap'.chars))))
    obtain ⟨_, h⟩ := h.operation h'
    exact ⟨_, _, h⟩

/-! ### Exact arithmetic -/

namespace Formula

lemma exists_wholeExpression (f : Formula .sum) {leading trailing : List Char}
    (front : IsLayout leading) (behind : IsLayout trailing) : ∃ e s,
      Parse.wholeExpression (.ofText (String.ofList (leading ++ (f.chars ++ trailing))) true) =
      (.ok e, s) ∧
      e.Computes f.value (f.span (.after .start leading)) (f.offences (.after .start leading)) := by
  obtain ⟨tokens, phrase, lexes, written, means⟩ := f.readAs (.after .start leading)
  obtain ⟨e, meant, computes⟩ := means .start
  obtain ⟨last, is, whole⟩ := lexes.exists_atEnd front behind true
  have read :
    Parse.expression (ParseState.put (.atEnd last true) tokens) = (.ok e, .atEnd last true) :=
    Parse.complete_expression tokens.length rfl rfl (Token.ends is (by decide)) (written last) meant
      (Nat.le_refl _)
  refine ⟨e, .atEnd last true, ?_, computes⟩
  rw [Parse.wholeExpression, whole, bind_of_ok read, bind_of_ok (Parse.expect_atEnd is true)]
  rfl

/-- **Arithmetic on integers is exact.** A formula with layout around it is read as an expression of
the type of integers. If no divisor in it is zero and all values on the way are in range, its value
is the exact one; otherwise it fails with what is wrong first, from the left to the right and from
the inside out, and with the part of the text that this is about. -/
theorem computed_exactly (f : Formula .sum) {leading trailing : List Char}
    (front : IsLayout leading) (behind : IsLayout trailing) : ∃ e s,
      Parse.wholeExpression (.ofText (String.ofList (leading ++ (f.chars ++ trailing))) true) =
      (.ok e, s) ∧
      e.type = .integer ∧ e.span = f.span (.after .start leading) ∧
      ((f.offences (.after .start leading) = [] ∧ ∃ n : Integer, n.toInt = f.value ∧
        ∀ context store output, e.eval context store output = (.ok (.integer n), output)) ∨
      ∃ fault place rest, f.offences (.after .start leading) = (fault, place) :: rest ∧
        (fault, fault.message) ∈
          [(.overflow, "Integer overflow"), (.divisionByZero, "Division by zero")] ∧
        ∀ context store output,
          e.eval context store output = (.error (.fault fault place), output)) := by
  obtain ⟨e, s, read, computes⟩ := f.exists_wholeExpression front behind
  refine ⟨e, s, read, computes.type, computes.span, computes.outcome.imp ?_ ?_⟩
  · rintro ⟨none, n, exact, evaluates⟩
    exact ⟨none, n, exact, fun context store output => by rw [evaluates]; rfl⟩
  · rintro ⟨fault, place, rest, first, fails⟩
    refine ⟨fault, place, rest, first, ?_, fun context store output => by rw [fails]; rfl⟩
    rcases fault_of_mem_offences (first ▸ List.mem_cons_self) with rfl | rfl
    · exact List.mem_cons_self
    · exact List.mem_cons_of_mem _ List.mem_cons_self

/-- The sum is out of range although the number with its sign would not be, and before the divisor
is zero. -/
theorem computed_exactly_overflow :
    let space : Gap := ⟨[' '], .blank (by decide) .none, by decide⟩
    let great : Numeral := ⟨"9223372036854775807".toList, by decide, by decide, by decide⟩
    let one : Numeral := ⟨['1'], by decide, by decide, by decide⟩
    let zero : Numeral := ⟨['0'], by decide, by decide, by decide⟩
    let sum : Formula .sum :=
      .operation (.sum (.product (.number great))) space .add space (.product (.number one))
    let f : Formula .sum :=
      .sum (.operation (.product (.signed .minus space (.group space sum space)))
      space .divide space (.number zero))
    let text := String.ofList (['\n'] ++ (f.chars ++ ['{', 'c', '}']))
    IsLayout ['\n'] ∧ IsLayout ['{', 'c', '}'] ∧ text = "\n- ( 9223372036854775807 + 1 ) div 0{c}" ∧
    ∃ e s, Parse.wholeExpression (.ofText text true) = (.ok e, s) ∧ e.type = .integer ∧
      ∀ context store output, e.eval context store output =
        (.error (.fault .overflow ⟨5, 28, 2, 5⟩), output) := by
  intro space great one zero sum f text
  have front : IsLayout ['\n'] := .blank (by decide) .none
  have behind : IsLayout ['{', 'c', '}'] := .comment (by decide : '}' ∉ ['c']) .none
  obtain ⟨e, s, read, type, -, outcome⟩ := f.computed_exactly front behind
  refine ⟨front, behind, by decide +kernel, e, s, read, type, ?_⟩
  have faults : f.offences (.after .start ['\n']) =
      [(.overflow, ⟨5, 28, 2, 5⟩), (.divisionByZero, ⟨1, 36, 2, 1⟩)] := by decide +kernel
  rw [faults] at outcome
  obtain ⟨none, -⟩ | ⟨fault, place, rest, first, -, fails⟩ := outcome
  · cases none
  · cases first
    exact fails

end Formula

end SmallPascal
