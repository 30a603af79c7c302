import SmallPascal.Proofs.Acceptance
import SmallPascal.Proofs.Arithmetic
import SmallPascal.Proofs.Segments

/-! Types are read back from their texts. The text of a type falls into the words of a type in a
declaration, though there is no layout between most of them; and whatever tokens these words are,
they mean the type again, with its bounds, which are computed from numerals and signs. -/

namespace SmallPascal

open Kind Grammar Steps

/-- The types that can be declared: arrays of integers, reals or booleans, nested to any depth, with
bounds in order. The least integer is no bound, since it has no numeral. -/
inductive Ty.Declarable : Ty → Prop
  | integer : Declarable .integer
  | real : Declarable .real
  | boolean : Declarable .boolean
  | array {low high : Integer} {item : Ty} : Integer.least < low.toInt → low.toInt ≤ high.toInt →
    item.Declarable → Declarable (.array low high item)

def Integer.words (n : Integer) : List (Kind × String) :=
  if n.toInt < 0 then [Kind.minus.asWord, (.integerLiteral, digits n.toInt.natAbs)]
  else [(.integerLiteral, digits n.toInt.natAbs)]

/-- The words of the text of a type that can be declared. -/
def Ty.words : Ty → List (Kind × String)
  | .integer => [Kind.integerType.asWord]
  | .real => [Kind.realType.asWord]
  | .boolean => [Kind.booleanType.asWord]
  | .array low high item =>
    Kind.arrayType.asWord :: Kind.leftBracket.asWord :: (low.words ++ Kind.range.asWord ::
      (high.words ++ Kind.rightBracket.asWord :: Kind.ofWord.asWord :: item.words))
  | _ => []

variable {cs : List Char} {words : List (Kind × String)} {n : Integer} {t : Ty}
    {tokens : List Token}

/-! ### Texts as words -/

lemma Integer.natAbs_le_greatest (above : Integer.least < n.toInt) :
    n.toInt.natAbs ≤ Integer.greatest := by
  have high := Integer.toInt_le_greatest n
  unfold Integer.least Integer.greatest at *
  omega

/-- The text of an integer falls into its words in front of the points of a range or of a
bracket. -/
lemma Integer.segmented (h : Segmented cs words) (above : Integer.least < n.toInt)
    (ends : ∀ c ∈ cs.head?, ¬ c.isDigit) (point : ∀ d more, cs = '.' :: d :: more → ¬ d.isDigit) :
    Segmented (n.text.toList ++ cs) (Integer.words n ++ words) := by
  have numeral := Segmented.digits (natAbs_le_greatest above) ends point h
  unfold Integer.text Integer.words
  split
  · have sign : "-".toList = Kind.minus.letters := rfl
    rw [String.toList_append, sign, List.append_assoc]
    exact .mark rfl numeral
  · exact numeral

lemma Ty.toList_text_array (low high : Integer) (item : Ty) (cs : List Char) :
    (Ty.array low high item).text.toList ++ cs =
      Kind.arrayType.letters ++ (Kind.leftBracket.letters ++ (low.text.toList ++
        (Kind.range.letters ++ (high.text.toList ++ (Kind.rightBracket.letters ++ (' ' ::
          (Kind.ofWord.letters ++ (' ' :: (item.text.toList ++ cs))))))))) := by
  have front : "Array[".toList = Kind.arrayType.letters ++ Kind.leftBracket.letters := rfl
  have middle : "..".toList = Kind.range.letters := rfl
  have behind :
    "] of ".toList = Kind.rightBracket.letters ++ (' ' :: (Kind.ofWord.letters ++ [' '])) := rfl
  rw [Ty.text]
  simp only [String.toList_append, front, middle, behind, List.append_assoc, List.cons_append,
    List.nil_append]

/-- The text of a type falls into its words in front of what no name goes on with. -/
lemma Ty.Declarable.segmented (h : t.Declarable) (ends : ∀ c ∈ cs.head?, ¬ isNamePart c)
    (rest : Segmented cs words) : Segmented (t.text.toList ++ cs) (t.words ++ words) := by
  induction h generalizing cs words with
  | integer =>
    rw [Ty.text]
    exact .reserved (by decide : Kind.integerType ∈ Kind.reserved) ends rest
  | real =>
    rw [Ty.text]
    exact .reserved (by decide : Kind.realType ∈ Kind.reserved) ends rest
  | boolean =>
    rw [Ty.text]
    exact .reserved (by decide : Kind.booleanType ∈ Kind.reserved) ends rest
  | @array low high item above order _ ih =>
    -- from the last word to the first, as each ends in front of the next
    have keyword : Segmented (Kind.ofWord.letters ++ _) (Kind.ofWord.asWord :: _) :=
      .reserved (by decide) (by rintro _ ⟨⟩; decide) (ih ends rest).space
    have closing : Segmented (Kind.rightBracket.letters ++ _) (Kind.rightBracket.asWord :: _) :=
      .mark rfl keyword.space
    have upper :=
      Integer.segmented closing (Int.lt_of_lt_of_le above order) (by rintro _ ⟨⟩; decide)
      fun _ _ point => absurd (List.cons.inj point).1 (by decide)
    have range : Segmented (Kind.range.letters ++ _) (Kind.range.asWord :: _) := .mark rfl upper
    -- a number does not go on at the first of two points
    have lower := Integer.segmented range above (by rintro _ ⟨⟩; decide) (by rintro _ _ ⟨⟩; decide)
    have opening : Segmented (Kind.leftBracket.letters ++ _) (Kind.leftBracket.asWord :: _) :=
      .mark rfl lower
    have array : Segmented (Kind.arrayType.letters ++ _) (Kind.arrayType.asWord :: _) :=
      .reserved (by decide) (by rintro _ ⟨⟩; decide) opening
    rw [toList_text_array]
    unfold Ty.words
    simpa only [List.append_assoc, List.cons_append] using array

/-! ### Words as types -/

lemma Expr.Computes.bound {e : Expr} {span : Span} (h : e.Computes n.toInt span [])
    {phrase : Phrase} {setting : Setting} (means : phrase.elaborate setting.constant = some e) :
    phrase.bound? setting = some n := by
  obtain ⟨-, m, exact, evaluates⟩ | ⟨_, _, _, none, -⟩ := h.outcome
  · obtain rfl := Int64.toInt_inj.1 exact
    have constant : e.constant? = .ok (.integer m) := by
      unfold Expr.constant?
      rw [evaluates]
      rfl
    unfold Phrase.bound?
    simp [means, Expr.typed?, h.type, constant]
  · cases none

lemma Token.exists_of_words {kind : Kind} {lexeme : String}
    (same : tokens.map Token.bare = (kind, lexeme) :: words) :
    ∃ token rest, tokens = token :: rest ∧ token.kind = kind ∧ token.lexeme = lexeme ∧
      rest.map Token.bare = words := by
  obtain ⟨token, rest, rfl, bare, same⟩ := List.map_eq_cons_iff.1 same
  exact ⟨token, rest, rfl, (Prod.mk.inj bare).1, (Prod.mk.inj bare).2, same⟩

lemma ofDigitChars_digits (k : Nat) : Nat.ofDigitChars 10 (digits k).toList 0 = k := by
  rw [digits, String.toList_ofList, Nat.ofDigitChars_ten_toDigits]

lemma Integer.exists_bound (above : Integer.least < n.toInt)
    (same : tokens.map Token.bare = Integer.words n) :
    ∃ phrase, (∀ next, Expression phrase tokens next) ∧
      ∀ setting, phrase.bound? setting = some n := by
  have size := Integer.natAbs_le_greatest above
  have literal : Kind.integerLiteral ∈ Kind.literals := by decide
  unfold Integer.words at same
  split at same
  next negative =>
    obtain ⟨mark, _, rfl, sign, -, same⟩ := Token.exists_of_words same
    obtain ⟨token, _, rfl, kind, lexeme, nil⟩ := Token.exists_of_words same
    obtain rfl := List.map_eq_nil_iff.1 nil
    have minus : mark.kind.sign? = some .negate := by
      rw [sign]
      rfl
    obtain ⟨e, operand, computes⟩ := Token.exists_literal kind (lexeme ▸ ofDigitChars_digits _) size
    obtain ⟨e', signed, computes⟩ := computes.signed .minus mark
    have exact : Sign.minus.exact n.toInt.natAbs = n.toInt := by
      change -(n.toInt.natAbs : Int) = n.toInt
      omega
    have inRange : outOfRange? n.toInt = none :=
      if_pos ⟨Int.le_of_lt above, Integer.toInt_le_greatest n⟩
    rw [exact, inRange] at computes
    refine ⟨.unary .negate mark (.literal token), fun _ => ?_, fun setting => computes.bound ?_⟩
    · exact .first (.first (.sign minus (.literal (kind ▸ literal))))
    · rw [Phrase.elaborate, Phrase.elaborate, operand]
      exact signed
  next positive =>
    obtain ⟨token, _, rfl, kind, lexeme, nil⟩ := Token.exists_of_words same
    obtain rfl := List.map_eq_nil_iff.1 nil
    have exact : (n.toInt.natAbs : Int) = n.toInt := by omega
    obtain ⟨e, operand, computes⟩ := Token.exists_literal kind (lexeme ▸ ofDigitChars_digits _) size
    rw [exact] at computes
    refine ⟨.literal token, fun _ => ?_, fun setting => computes.bound ?_⟩
    · exact .first (.first (.literal (kind ▸ literal)))
    · rwa [Phrase.elaborate]

lemma Ty.Declarable.exists_typing (h : t.Declarable) (same : tokens.map Token.bare = t.words) :
    ∃ phrase, Typing phrase tokens ∧ ∀ setting, phrase.elaborate setting = some t := by
  induction h generalizing tokens with
  | integer | real | boolean =>
    obtain ⟨word, _, rfl, kind, -, nil⟩ := Token.exists_of_words same
    obtain rfl := List.map_eq_nil_iff.1 nil
    refine ⟨.simple word, .simple ?_, fun setting => ?_⟩
    · rw [kind]
      decide
    · rw [TypePhrase.elaborate, kind]
  | @array low high item above order _ ih =>
    obtain ⟨word, _, rfl, isArray, -, same⟩ := Token.exists_of_words same
    obtain ⟨opening, _, rfl, opens, -, same⟩ := Token.exists_of_words same
    obtain ⟨front, _, rfl, lower, same⟩ := List.map_eq_append_iff.1 same
    obtain ⟨range, _, rfl, isRange, -, same⟩ := Token.exists_of_words same
    obtain ⟨middle, _, rfl, upper, same⟩ := List.map_eq_append_iff.1 same
    obtain ⟨closing, _, rfl, closes, -, same⟩ := Token.exists_of_words same
    obtain ⟨ofWord, toks, rfl, isOf, -, inner⟩ := Token.exists_of_words same
    obtain ⟨first, written, bound⟩ := Integer.exists_bound above lower
    obtain ⟨last, written', bound'⟩ := Integer.exists_bound (Int.lt_of_lt_of_le above order) upper
    obtain ⟨phrase, typing, means⟩ := ih inner
    refine ⟨.array first last phrase, .array isArray opens (written range) isRange
      (written' closing)
      closes isOf typing, fun setting => ?_⟩
    have ordered : ¬ high.toInt < low.toInt := Int.not_lt.2 order
    simp [TypePhrase.elaborate, bound, bound', means, ordered]

/-! ### Declarations -/

/-- The words of a program that declares one variable and does nothing. -/
def Ty.declaring (t : Ty) : List (Kind × String) :=
  Kind.programWord.asWord :: (.identifier, "P") :: Kind.semicolon.asWord :: Kind.varWord.asWord ::
    (.identifier, "x") :: Kind.colon.asWord :: (t.words ++ Kind.semicolon.asWord ::
      Kind.beginWord.asWord :: Kind.endWord.asWord :: [Kind.dot.asWord])

lemma Ty.Declarable.segmented_declaring (h : t.Declarable) :
    Segmented ("program P; var x: " ++ t.text ++ "; begin end.").toList t.declaring := by
  have front : "program P; var x: ".toList = Kind.programWord.letters ++ (' ' :: (['P'] ++
    (Kind.semicolon.letters ++ (' ' :: (Kind.varWord.letters ++ (' ' :: (['x'] ++
      (Kind.colon.letters ++ [' '])))))))) := rfl
  have behind : "; begin end.".toList = Kind.semicolon.letters ++ (' ' :: (Kind.beginWord.letters ++
    (' ' :: (Kind.endWord.letters ++ (Kind.dot.letters ++ []))))) := rfl
  -- from the last word to the first, as in a type
  have dot : Segmented (Kind.dot.letters ++ []) [Kind.dot.asWord] := .mark rfl .none
  have last : Segmented (Kind.endWord.letters ++ _) (Kind.endWord.asWord :: _) :=
    .reserved (by decide) (by rintro _ ⟨⟩; decide) dot
  have first : Segmented (Kind.beginWord.letters ++ _) (Kind.beginWord.asWord :: _) :=
    .reserved (by decide) (by rintro _ ⟨⟩; decide) last.space
  have semicolon : Segmented (Kind.semicolon.letters ++ _) (Kind.semicolon.asWord :: _) :=
    .mark rfl first.space
  have type := h.segmented (by rintro _ ⟨⟩; decide) semicolon
  have colon : Segmented (Kind.colon.letters ++ _) (Kind.colon.asWord :: _) := .mark rfl type.space
  have place : Segmented (['x'] ++ _) ((.identifier, "x") :: _) :=
    .letters ⟨_, rfl, rfl⟩ (List.forall_mem_singleton.2 rfl) (by rintro _ ⟨⟩; decide) colon
  have keyword : Segmented (Kind.varWord.letters ++ _) (Kind.varWord.asWord :: _) :=
    .reserved (by decide) (by rintro _ ⟨⟩; decide) place.space
  have semicolon' : Segmented (Kind.semicolon.letters ++ _) (Kind.semicolon.asWord :: _) :=
    .mark rfl keyword.space
  have name : Segmented (['P'] ++ _) ((.identifier, "P") :: _) :=
    .letters ⟨_, rfl, rfl⟩ (List.forall_mem_singleton.2 rfl) (by rintro _ ⟨⟩; decide) semicolon'
  have word : Segmented (Kind.programWord.letters ++ _) (Kind.programWord.asWord :: _) :=
    .reserved (by decide) (by rintro _ ⟨⟩; decide) name.space
  unfold Ty.declaring
  rw [String.toList_append, String.toList_append, front, behind]
  simpa only [List.append_assoc, List.cons_append, List.nil_append] using word

/-- A program of one variable and of nothing else has a meaning if the type of the variable has
one. -/
lemma Script.elaborate_one {phrase : TypePhrase} (means : phrase.elaborate .start = some t)
    (name place first last : Token) :
    Script.elaborate ⟨name, [.vars [⟨[place], phrase⟩]], .block first [.empty last] last⟩ =
      some ⟨name.lexeme, [], [(place.lexeme, t)], [],
        .block [.skip last.span] (first.span.through last.span)⟩ := by
  have places : VariablePhrase.places? .start ⟨[place], phrase⟩ = some [(place, t)] := by
    unfold VariablePhrase.places?
    rw [means]
    rfl
  obtain ⟨setting, declared⟩ : ∃ setting,
      Setting.start.declareAll? (storages [(place, t)]) = some setting := ⟨_, rfl⟩
  have vars : VariablePhrase.elaborate .start ⟨[place], phrase⟩ =
      some (setting, ⟨[], [(place.lexeme, t)]⟩) := by
    unfold VariablePhrase.elaborate
    rw [places]
    refine Option.bind_eq_some_iff.2 ⟨_, rfl, ?_⟩
    rw [declared]
    rfl
  unfold Script.elaborate
  rw [Section.elaborateAll, Section.elaborate, elaborateGroups, vars]
  rfl

lemma Ty.Declarable.exists_program (h : t.Declarable) (same : tokens.map Token.bare = t.declaring)
    {ending : Token} (isEnding : ending.kind = .endOfText) :
    ∃ script body, Grammar.Program script (tokens ++ [ending]) ∧
      script.elaborate = some ⟨"P", [], [("x", t)], [], body⟩ := by
  obtain ⟨word, _, rfl, isWord, -, same⟩ := Token.exists_of_words same
  obtain ⟨name, _, rfl, isName, named, same⟩ := Token.exists_of_words same
  obtain ⟨semicolon, _, rfl, isSemicolon, -, same⟩ := Token.exists_of_words same
  obtain ⟨keyword, _, rfl, isKeyword, -, same⟩ := Token.exists_of_words same
  obtain ⟨place, _, rfl, isPlace, placed, same⟩ := Token.exists_of_words same
  obtain ⟨colon, _, rfl, isColon, -, same⟩ := Token.exists_of_words same
  obtain ⟨toks, _, rfl, type, same⟩ := List.map_eq_append_iff.1 same
  obtain ⟨closing, _, rfl, closes, -, same⟩ := Token.exists_of_words same
  obtain ⟨first, _, rfl, isFirst, -, same⟩ := Token.exists_of_words same
  obtain ⟨last, _, rfl, isLast, -, same⟩ := Token.exists_of_words same
  obtain ⟨dot, _, rfl, isDot, -, nil⟩ := Token.exists_of_words same
  obtain rfl := List.map_eq_nil_iff.1 nil
  obtain ⟨phrase, typing, means⟩ := h.exists_typing type
  have names : Names [place] [place] := ⟨colon, .one ⟨isPlace, rfl⟩⟩
  have group : Declared ⟨[place], phrase⟩ (place :: colon :: (toks ++ [closing])) :=
    ⟨_, closing, .mk names isColon typing, closes, by simp⟩
  have vars : Declaration (.vars [⟨[place], phrase⟩])
      (keyword :: place :: colon :: (toks ++ [closing])) := by
    simpa using Declaration.vars isKeyword (.more group .none) (by simp)
  have block : Statement (.block first [.empty last] last) [first, last] dot :=
    .block isFirst (.one .empty) isLast
  have written :=
    Grammar.Program.mk isWord isName isSemicolon (.more vars .none) block isDot isEnding
  have elaborated := Script.elaborate_one (means .start) name place first last
  rw [named, placed] at elaborated
  exact ⟨_, _, by simpa using written, elaborated⟩

/-- **Types are read back from their texts.** A program that declares a variable of a type by the
text of the type is read, and declares this variable with that type, and nothing else. -/
theorem Program.types_read_back (h : t.Declarable) : ∃ body,
    Program.ofText ("program P; var x: " ++ t.text ++ "; begin end.") =
      .ok ⟨"P", [], [("x", t)], [], body⟩ := by
  obtain ⟨tokens, last, read, same, ending⟩ := h.segmented_declaring.ofCursor .start
  obtain ⟨script, body, written, means⟩ := h.exists_program same ending
  generalize "program P; var x: " ++ t.text ++ "; begin end." = text at read
  have items : (ParseState.ofText text true).tokens = ⟨tokens.map .ok, last⟩ := read
  obtain ⟨s, done⟩ := Parse.complete_program rfl rfl rfl (congrArg Tokens.items items)
    (by rwa [items]) means
  exact ⟨body, congrArg Prod.fst done⟩

/-- The widest bounds are read back, with bounds of which both are negative inside them. -/
theorem Program.types_read_back_widest :
    let t : Ty := .array (-9223372036854775807) 9223372036854775807 (.array (-5) (-3) .boolean)
    t.text = "Array[-9223372036854775807..9223372036854775807] of Array[-5..-3] of Boolean" ∧
      t.Declarable ∧ ∃ body, Program.ofText ("program P; var x: " ++ t.text ++ "; begin end.") =
        .ok ⟨"P", [], [("x", t)], [], body⟩ :=
  have declarable : Ty.Declarable _ :=
    .array (by decide) (by decide) (.array (by decide) (by decide) .boolean)
  ⟨by decide +kernel, declarable, types_read_back declarable⟩

end SmallPascal
