import Mathlib.Data.List.TakeWhile
import SmallPascal.Proofs.Spelling

/-! A scanner takes the longest token. It skips the longest layout and then takes the longest
spelling that the rest begins with, and it fails on exactly four things: a comment or a string that
is never closed, an integer that is too great, and a character that no token begins with. -/

namespace SmallPascal

open Kind

def Kind.written (kind : Kind) (lexeme : String) : List Char :=
  match kind with
  | .stringLiteral => '\'' :: (lexeme.toList ++ ['\''])
  | _ => lexeme.toList

def Token.written (token : Token) : List Char := token.kind.written token.lexeme

inductive LexicalFault.Spoils : LexicalFault → List Char → Prop
  | comment {cs : List Char} : '}' ∉ cs → Spoils .unterminatedComment ('{' :: cs)
  | string {cs : List Char} : '\'' ∉ cs → Spoils .unterminatedString ('\'' :: cs)
  | number {whole cs : List Char} : Longest .integerLiteral whole cs →
    Integer.greatest < Nat.ofDigitChars 10 whole 0 →
    Spoils (.invalidNumber (String.ofList whole)) cs
  | character {c : Char} {cs : List Char} : c ≠ '{' → (∀ kind more, ¬ Spells kind (c :: more)) →
    Spoils (.unexpectedCharacter c) (c :: cs)

/-! ### The longest spelling -/

lemma prefix_takeWhile {p : Char → Bool} {front cs : List Char} (all : ∀ c ∈ front, p c)
    (begins : front <+: cs) : front <+: cs.takeWhile p := by
  obtain ⟨rest, rfl⟩ := begins
  rw [List.takeWhile_append_of_pos all]
  exact List.prefix_append _ _

namespace Kind

variable {kind other : Kind} {taken longer cs : List Char} {c : Char}

lemma Spells.head (h : kind.Spells taken) (begins : taken <+: c :: cs) :
    ∃ more, taken = c :: more ∧ more <+: cs :=
  (List.prefix_cons_iff.1 begins).resolve_left h.ne_nil

lemma Longest.unique (h : kind.Longest taken cs) (h' : other.Longest longer cs) :
    kind = other ∧ taken = longer := by
  have length :=
    Nat.le_antisymm (h'.longest _ _ h.spells h.begins) (h.longest _ _ h'.spells h'.begins)
  obtain rfl := (List.prefix_of_prefix_length_le h.begins h'.begins length.le).eq_of_length length
  exact ⟨h.spells.unique h'.spells, rfl⟩

lemma longest_name (alpha : c.isAlpha) :
    (ofName (String.ofList ((c :: cs).takeWhile isNamePart))).Longest
      ((c :: cs).takeWhile isNamePart) (c :: cs) where
  spells := by
    have part : isNamePart c := isNamePart_iff.2 (.inl alpha)
    rw [List.takeWhile_cons_of_pos part]
    by_cases word : ∃ kind ∈ reserved, kind.letters = c :: cs.takeWhile isNamePart
    · obtain ⟨kind, listed, letters⟩ := word
      rw [← letters, ofName_of_mem_reserved kind listed]
      exact .word listed
    · have other : ∀ kind ∈ reserved, kind.letters ≠ c :: cs.takeWhile isNamePart :=
        fun kind listed letters => word ⟨kind, listed, letters⟩
      rw [ofName_of_forall_ne other]
      exact .name alpha (fun d among => isNamePart_iff.1 (List.mem_takeWhile_imp among)) other
  begins := List.takeWhile_prefix _
  longest other longer spells begins := by
    obtain ⟨more, rfl, -⟩ := spells.head begins
    exact (prefix_takeWhile (spells.of_isAlpha alpha).2 begins).length_le

lemma split_at_end {p : Char → Bool} {front rest : List Char} (all : ∀ c ∈ front, p c)
    (ends : ∀ c ∈ rest.head?, ¬ p c) :
    (front ++ rest).takeWhile p = front ∧ (front ++ rest).dropWhile p = rest := by
  rw [List.takeWhile_append_of_pos all, List.dropWhile_append_of_pos all]
  cases rest with
  | nil => simp
  | cons c rest =>
    have first := ends c rfl
    rw [List.takeWhile_cons_of_neg first, List.dropWhile_cons_of_neg first, List.append_nil]
    exact ⟨rfl, rfl⟩

lemma Spells.number_cases (h : other.Spells longer) (begins : longer <+: c :: cs)
    (digit : c.isDigit) :
    longer <+: (c :: cs).takeWhile Char.isDigit ∨
    ∃ fraction more, longer = (c :: cs).takeWhile Char.isDigit ++ '.' :: fraction ∧ fraction ≠ [] ∧
      (∀ d ∈ fraction, d.isDigit) ∧
      (c :: cs).dropWhile Char.isDigit = '.' :: (fraction ++ more) := by
  obtain ⟨tail, rfl, -⟩ := h.head begins
  rcases h.of_isDigit digit with ⟨-, digits⟩ | ⟨-, whole, fraction, e, some, digits, digits'⟩
  · exact .inl (prefix_takeWhile digits begins)
  · obtain ⟨more, whole'⟩ := begins
    rw [e, List.append_assoc, List.cons_append] at whole'
    have point : ∀ c ∈ ('.' :: (fraction ++ more)).head?, ¬ c.isDigit := by
      rintro _ ⟨⟩
      decide
    obtain ⟨front, behind⟩ := split_at_end digits point
    rw [← whole', front, behind]
    exact .inr ⟨fraction, more, e, some, digits', rfl⟩

lemma longest_integer (digit : c.isDigit)
    (point : ∀ d more, (c :: cs).dropWhile Char.isDigit = '.' :: d :: more → ¬ d.isDigit) :
    Longest .integerLiteral ((c :: cs).takeWhile Char.isDigit) (c :: cs) where
  spells := .integer (by simp [digit]) fun d among => List.mem_takeWhile_imp among
  begins := List.takeWhile_prefix _
  longest other longer spells begins := by
    rcases spells.number_cases begins digit with shorter | ⟨fraction, more, -, some, digits, behind⟩
    · exact shorter.length_le
    · obtain ⟨d, rest, rfl⟩ := List.exists_cons_of_ne_nil some
      exact absurd (digits d List.mem_cons_self) (point d _ behind)

lemma longest_real {d : Char} {more : List Char} (digit : c.isDigit) (digit' : d.isDigit)
    (behind : (c :: cs).dropWhile Char.isDigit = '.' :: d :: more) :
    Longest .realLiteral
      ((c :: cs).takeWhile Char.isDigit ++ '.' :: (d :: more).takeWhile Char.isDigit)
      (c :: cs) where
  spells := .real (by simp [digit]) (fun d among => List.mem_takeWhile_imp among) (by simp [digit'])
    fun d among => List.mem_takeWhile_imp among
  begins := by
    refine ⟨(d :: more).dropWhile Char.isDigit, ?_⟩
    rw [List.append_assoc, List.cons_append, List.takeWhile_append_dropWhile, ← behind,
      List.takeWhile_append_dropWhile]
  longest other longer spells begins := by
    rw [List.length_append, List.length_cons]
    rcases spells.number_cases begins digit with shorter | ⟨fraction, rest, rfl, -, digits, behind'⟩
    · have := shorter.length_le
      omega
    · rw [behind] at behind'
      have fraction' : fraction <+: d :: more := ⟨rest, (List.cons.inj behind').2.symm⟩
      have := (prefix_takeWhile digits fraction').length_le
      rw [List.length_append, List.length_cons]
      omega

lemma longest_string {content : List Char} (inside : '\'' ∉ content) (rest : List Char) :
    Longest .stringLiteral ('\'' :: (content ++ ['\''])) ('\'' :: (content ++ '\'' :: rest)) where
  spells := .string inside
  begins := ⟨rest, by simp⟩
  longest other longer spells begins := by
    obtain ⟨more, rfl, within⟩ := spells.head begins
    obtain ⟨-, content', inside', rfl⟩ := spells.of_quote
    -- a longer string would have the quote inside that ends the shorter one
    obtain ⟨rest', whole⟩ := within
    have same : content' = content := by
      have cut := congrArg (List.takeWhile (· != '\'')) whole
      have plain {list : List Char} (inside : '\'' ∉ list) : ∀ c ∈ list, (c != '\'') = true :=
        fun c among => bne_iff_ne.2 fun quote => inside (quote ▸ among)
      rw [List.append_assoc, List.takeWhile_append_of_pos (plain inside'),
        List.takeWhile_append_of_pos (plain inside)] at cut
      simpa using cut
    rw [same]

lemma pairwise_marks : marks.Pairwise fun kind other => ¬ kind.letters <+: other.letters := by
  decide

lemma longest_mark (found : markOf? (c :: cs) = some kind) (alpha : ¬ c.isAlpha)
    (digit : ¬ c.isDigit) (quote : c ≠ '\'') : kind.Longest kind.letters (c :: cs) where
  spells := .mark (List.mem_of_find?_eq_some found)
  begins := List.isPrefixOf_iff_prefix.1 (by simpa using List.find?_some found)
  longest other longer spells begins := by
    obtain ⟨more, rfl, -⟩ := spells.head begins
    obtain ⟨listed, letters⟩ := spells.of_other alpha digit quote
    have begins' : kind.letters <+: c :: cs :=
      List.isPrefixOf_iff_prefix.1 (by simpa using List.find?_some found)
    -- marks that come before the one that was found are no beginnings of the text
    obtain ⟨-, before, behind, order, refused⟩ := List.find?_eq_some_iff_append.1 found
    rw [← letters] at begins ⊢
    by_contra longer
    have starts := List.prefix_of_prefix_length_le begins' begins (by omega)
    have pairs := pairwise_marks
    rw [order] at listed pairs
    rcases List.mem_append.1 listed with earlier | later
    · have := refused other earlier
      simp [List.isPrefixOf_iff_prefix.2 begins] at this
    · rcases List.mem_cons.1 later with rfl | later
      · exact longer (Nat.le_refl _)
      · have apart := (List.pairwise_append.1 pairs).2.1
        exact (List.pairwise_cons.1 apart).1 other later starts

lemma single_of_mem_marks :
    ∀ kind ∈ marks, ∃ single ∈ marks, single.letters = kind.letters.take 1 := by
  decide

lemma written_eq (noString : kind ≠ .stringLiteral) (lexeme : String) :
    kind.written lexeme = lexeme.toList := by
  unfold written
  split
  · exact absurd rfl noString
  · rfl

end Kind

/-! ### What is read -/

namespace Item

variable {c : Char} {cs : List Char}

/-- The item is the longest token that the text begins with, or what the text begins with instead of
one. -/
def Takes (cs : List Char) (item : Item) : Prop :=
  match item.outcome with
  | .ok (kind, lexeme) => kind.Longest item.taken cs ∧ kind.written lexeme = item.taken
  | .error fault => fault.Spoils cs

lemma ofNat?_eq_none_iff {n : Nat} : Integer.ofNat? n = none ↔ Integer.greatest < n := by
  rw [Integer.ofNat?, Integer.ofInt?_eq_none_iff]
  unfold Integer.least
  omega

lemma takes_integer {whole rest : List Char} (longest : Longest .integerLiteral whole cs) :
    (number.integer whole rest).Takes cs := by
  unfold Takes number.integer
  rcases range : Integer.ofNat? (Nat.ofDigitChars 10 whole 0) with _ | n
  · exact .number longest (ofNat?_eq_none_iff.1 range)
  · exact ⟨longest, String.toList_ofList⟩

lemma number_cases (digit : c.isDigit) (cs : List Char) :
    (∃ taken rest, number (c :: cs) = ⟨.ok (.realLiteral, String.ofList taken), taken, rest⟩ ∧
      Longest .realLiteral taken (c :: cs)) ∨
    ∃ whole rest, number (c :: cs) = number.integer whole rest ∧
      Longest .integerLiteral whole (c :: cs) := by
  unfold number
  dsimp only
  split
  next point d more behind =>
    split
    next fraction =>
      obtain ⟨rfl, digit'⟩ := fraction
      exact .inl ⟨_, _, rfl, longest_real digit digit' behind⟩
    next other =>
      refine .inr ⟨_, _, rfl, longest_integer digit fun d' more' behind' digit' => other ?_⟩
      rw [behind'] at behind
      cases behind
      exact ⟨rfl, digit'⟩
  next other =>
    exact .inr ⟨_, _, rfl, longest_integer digit fun d more behind _ => other '.' d more behind⟩

lemma takes_number (digit : c.isDigit) : (number (c :: cs)).Takes (c :: cs) := by
  obtain ⟨taken, rest, read, longest⟩ | ⟨whole, rest, read, longest⟩ := number_cases digit cs
  · rw [read]
    exact ⟨longest, String.toList_ofList⟩
  · rw [read]
    exact takes_integer longest

lemma takes_string (cs : List Char) : (string cs).Takes ('\'' :: cs) := by
  have whole := List.takeWhile_append_dropWhile (p := (· != '\'')) (l := cs)
  have inside : '\'' ∉ cs.takeWhile (· != '\'') := fun among =>
    bne_iff_ne.1 (List.mem_takeWhile_imp (p := (· != '\'')) among) rfl
  unfold string
  dsimp only
  split
  next none =>
    rw [none, List.append_nil] at whole
    exact .string (whole ▸ inside)
  next quote rest behind =>
    have stop := List.head_dropWhile_not (l := cs) (· != '\'') (by simp [behind])
    simp only [behind, List.head_cons] at stop
    obtain rfl : quote = '\'' := by simpa using stop
    rw [behind] at whole
    have longest := longest_string inside rest
    rw [whole] at longest
    exact ⟨longest, by simp [Kind.written]⟩

/-- **The item at the beginning of a text** is the longest token, or what stands there instead. -/
theorem takes_read (bare : Bare cs) (some : cs ≠ []) : (read cs).Takes cs := by
  obtain ⟨c, cs, rfl⟩ := List.exists_cons_of_ne_nil some
  rw [read]
  split
  next alpha =>
    have noString : ofName (String.ofList ((c :: cs).takeWhile isNamePart)) ≠ .stringLiteral :=
      ofName_ne (by decide) _
    exact ⟨longest_name alpha, (written_eq noString _).trans String.toList_ofList⟩
  next alpha =>
  split
  next digit => exact takes_number digit
  next digit =>
  split
  next quote =>
    subst quote
    exact takes_string cs
  next quote =>
  split
  next opens =>
    subst opens
    exact .comment (bare.head.2 rfl)
  next opens =>
  split
  next kind found =>
    have listed := List.mem_of_find?_eq_some found
    have noString : kind ≠ .stringLiteral := by rintro rfl; revert listed; decide
    exact ⟨longest_mark found alpha digit quote, (written_eq noString _).trans String.toList_ofList⟩
  next none =>
    refine .character opens fun kind more spells => ?_
    obtain ⟨listed, letters⟩ := spells.of_other alpha digit quote
    obtain ⟨single, listed', letters'⟩ := single_of_mem_marks kind listed
    have begins : single.letters.isPrefixOf (c :: cs) = true := by simp [letters', letters]
    exact absurd begins (List.find?_eq_none.1 none single listed')

lemma outcome_of_spoils {fault : LexicalFault} (h : fault.Spoils cs) :
    (read cs).outcome = .error fault := by
  cases h with
  | comment =>
    have brace : Char.isAlpha '{' = false ∧ Char.isDigit '{' = false := by decide
    simp [read, brace]
  | @string cs inside =>
    have quote : Char.isAlpha '\'' = false ∧ Char.isDigit '\'' = false := by decide
    have none : cs.dropWhile (· != '\'') = [] := by
      refine List.dropWhile_eq_nil_iff.2 fun c among => bne_iff_ne.2 ?_
      rintro rfl
      exact inside among
    simp [read, quote, string, none]
  | @number whole cs longest great =>
    obtain ⟨d, more, rfl⟩ := List.exists_cons_of_ne_nil longest.spells.ne_nil
    obtain ⟨tail, rfl⟩ := longest.begins
    have digit := longest.spells.digits d List.mem_cons_self
    have alpha : ¬ d.isAlpha := fun alpha => not_isDigit_of_isAlpha alpha digit
    rw [List.cons_append] at longest ⊢
    rw [read, if_neg alpha, if_pos digit]
    obtain ⟨_, _, -, other⟩ | ⟨whole, rest, item, same⟩ := number_cases digit (more ++ tail)
    · cases (longest.unique other).1
    · obtain ⟨-, rfl⟩ := longest.unique same
      rw [item, number.integer, ofNat?_eq_none_iff.2 great]
  | @character c cs opens begins =>
    have none {kind : Kind} {taken : List Char} (longest : kind.Longest taken (c :: cs)) :
      False := by
      obtain ⟨more, rfl, -⟩ := longest.spells.head longest.begins
      exact begins kind more longest.spells
    have alpha : ¬ c.isAlpha := fun alpha => none (longest_name alpha)
    have digit : ¬ c.isDigit := by
      intro digit
      obtain ⟨_, _, -, longest⟩ | ⟨_, _, -, longest⟩ := number_cases digit cs <;>
        exact none longest
    have quote : c ≠ '\'' := by
      rintro rfl
      exact begins .stringLiteral ['\''] (.string List.not_mem_nil)
    have mark : markOf? (c :: cs) = Option.none := by
      rcases found : markOf? (c :: cs) with _ | kind
      · rfl
      · exact (none (longest_mark found alpha digit quote)).elim
    rw [read, if_neg alpha, if_neg digit, if_neg quote, if_neg opens, mark]

/-- No token begins a text that begins with what is none, an integer that is too great apart. -/
lemma great_of_spoils {fault : LexicalFault} {kind : Kind} {taken : List Char} (h : fault.Spoils cs)
    (longest : kind.Longest taken cs) :
    kind = .integerLiteral ∧ Integer.greatest < Nat.ofDigitChars 10 taken 0 := by
  cases h with
  | comment =>
    obtain ⟨more, rfl, -⟩ := longest.spells.head longest.begins
    obtain ⟨listed, letters⟩ := longest.spells.of_other (by decide) (by decide) (by decide)
    have plain := (plain_of_mem_marks kind listed).2 '{' (by simp [letters])
    exact absurd rfl plain.2.2.2
  | string inside =>
    obtain ⟨more, rfl, within⟩ := longest.spells.head longest.begins
    obtain ⟨-, content, -, rfl⟩ := longest.spells.of_quote
    exact absurd (within.subset (by simp)) inside
  | number longest' great =>
    obtain ⟨rfl, rfl⟩ := longest.unique longest'
    exact ⟨rfl, great⟩
  | character _ none =>
    obtain ⟨more, rfl, -⟩ := longest.spells.head longest.begins
    exact absurd longest.spells (none kind more)

end Item

/-! ### Cursors -/

inductive Request where
  | next | peek | expect (kind : Kind) | scan

/-- The cursor behind what it was asked for, whatever came of that. -/
def Request.behind (cursor : Cursor) : Request → Cursor
  | .next => cursor.next.2
  | .peek => cursor
  | .expect kind => (cursor.expect kind).2
  | .scan => cursor.scan.2

namespace Cursor

/-- The cursors that requests lead to, from the beginning of a text. -/
inductive Reached (text : String) : Cursor → Prop
  | start : Reached text (ofText text)
  | behind {cursor : Cursor} (request : Request) :
    Reached text cursor → Reached text (request.behind cursor)

variable {text : String} {cursor : Cursor} {cs : List Char}

lemma expect_snd (kind : Kind) (cursor : Cursor) : (cursor.expect kind).2 = cursor.next.2 := by
  unfold expect
  rcases cursor.next with ⟨_ | token, behind⟩ <;> dsimp only
  split <;> rfl

lemma Within.scan (h : cursor.Within cs) : cursor.scan.2.Within cs := by
  fun_induction Cursor.scan cursor with
  | case1 cursor d behind read | case2 cursor token behind read =>
    have within := h.next.2.2.2
    rwa [read] at within
  | case3 cursor token behind read _ tokens last found ih =>
    have within := h.next.2.2.2
    rw [read] at within
    have ended := ih within
    rwa [found] at ended

lemma Reached.within (h : cursor.Reached text) : cursor.Within text.toList := by
  induction h with
  | start => exact within_ofText text
  | behind request _ ih =>
    cases request with
    | next => exact ih.next.2.2.2
    | peek => exact ih
    | expect kind =>
      rw [Request.behind, expect_snd]
      exact ih.next.2.2.2
    | scan => exact ih.scan

/-- What the next reading comes to if `rest` is left behind layout, and `before` stands before
it. -/
structure ReadsLongest (before rest : List Char) (answer : Except Diagnostic Token)
    (left : List Char) : Prop where
  ending : rest = [] → ∃ token, answer = .ok token ∧ token.kind = .endOfText ∧ token.lexeme = "" ∧
    token.span.start = before.length ∧ token.span.stop = before.length
  token : ∀ token, answer = .ok token → rest ≠ [] → token.kind.Longest token.written rest ∧
    rest = token.written ++ left ∧ token.span.start = before.length ∧
    token.span.stop = before.length + token.written.length
  word : ∀ token, answer = .ok token →
    ∀ kind ∈ Kind.reserved, token.kind = kind ↔ token.written = kind.letters
  fault : ∀ fault, (∃ span, answer = .error ⟨fault, span⟩) ↔
    ∃ lexical : LexicalFault, fault = .lexical lexical ∧ lexical.Spoils rest
  place : ∀ d, answer = .error d → d.span.start = before.length

lemma readsLongest_nil {before : List Char} {span : Span} (start : span.start = before.length)
    (stop : span.stop = before.length) :
    ReadsLongest before [] (.ok ⟨.endOfText, "", span⟩) [] where
  ending _ := ⟨_, rfl, rfl, rfl, start, stop⟩
  token _ _ some := absurd rfl some
  word := by
    rintro _ ⟨⟩ kind listed
    have nothing :
      (Token.mk .endOfText "" span).written = [] := by simp [Token.written, Kind.written]
    rw [nothing]
    have apart : Kind.endOfText ∉ reserved := by decide
    refine iff_of_false ?_ (isAlpha_of_mem_reserved kind listed).1.symm
    rintro rfl
    exact apart listed
  fault fault := by
    refine iff_of_false nofun ?_
    rintro ⟨lexical, -, spoils⟩
    cases spoils with
    | number longest => exact longest.spells.ne_nil (List.prefix_nil.1 longest.begins)
  place _ failed := nomatch failed

lemma readsLongest_item {before rest : List Char} {item : Item} {span : Span}
    (takes : item.Takes rest) (append : item.taken ++ item.rest = rest) (some : rest ≠ [])
    (reported : ∀ fault : LexicalFault, fault.Spoils rest → item.outcome = .error fault)
    (start : span.start = before.length) (stop : span.stop = before.length + item.taken.length) :
    ReadsLongest before rest
      (match item.outcome with
      | .ok (kind, lexeme) => .ok ⟨kind, lexeme, span⟩
      | .error fault => .error ⟨.lexical fault, span⟩) item.rest := by
  unfold Item.Takes at takes
  rcases outcome : item.outcome with fault | ⟨kind, lexeme⟩ <;> rw [outcome] at takes reported <;>
    dsimp only at takes ⊢
  · refine ⟨fun none => absurd none some, nofun, nofun, fun fault' => ⟨?_, ?_⟩, ?_⟩
    · rintro ⟨_, ⟨⟩⟩
      exact ⟨fault, rfl, takes⟩
    · rintro ⟨lexical, rfl, spoils⟩
      obtain rfl := Except.error.inj (reported lexical spoils)
      exact ⟨span, rfl⟩
    · rintro _ ⟨⟩
      exact start
  · obtain ⟨longest, written⟩ := takes
    have taken : (Token.mk kind lexeme span).written = item.taken := written
    refine ⟨fun none => absurd none some, ?_, ?_, fun fault => ?_, fun _ failed => nomatch failed⟩
    · rintro _ ⟨⟩ -
      rw [taken]
      exact ⟨longest, append.symm, start, stop⟩
    · rintro _ ⟨⟩ word listed
      rw [taken]
      constructor
      · rintro rfl
        exact longest.spells.letters listed
      · intro letters
        have spells : word.Spells item.taken := by
          rw [letters]
          exact .word listed
        exact longest.spells.unique spells
    · refine iff_of_false nofun ?_
      rintro ⟨lexical, -, spoils⟩
      cases reported lexical spoils

lemma Within.reads (h : cursor.Within cs) :
    ∃ before skipped rest, cs = before ++ (skipped ++ rest) ∧
      cursor.place.offset = before.length ∧ cursor.rest = skipped ++ rest ∧
      IsLayout skipped ∧
      (∀ layout, IsLayout layout → layout <+: cursor.rest → layout.length ≤ skipped.length) ∧
      ReadsLongest (before ++ skipped) rest cursor.next.1 cursor.next.2.rest := by
  obtain ⟨before, whole, place⟩ := h
  have layout := splitLayout_append cursor.rest
  have offset : cursor.place.offset = before.length := by rw [place, Position.after_start]
  have offset' : (cursor.place.after (splitLayout cursor.rest).1).offset =
      (before ++ (splitLayout cursor.rest).1).length := by
    rw [Position.offset_after, offset, List.length_append]
  refine ⟨before, (splitLayout cursor.rest).1, (splitLayout cursor.rest).2, ?_, offset, layout.symm,
    isLayout_splitLayout _, fun other is begins => is.length_le begins, ?_⟩
  · rw [layout, whole]
  · by_cases none : (splitLayout cursor.rest).2 = []
    · have answer : cursor.next.1 = .ok ⟨.endOfText, "",
            .between (cursor.place.after (splitLayout cursor.rest).1)
              (cursor.place.after (splitLayout cursor.rest).1)⟩ ∧ cursor.next.2.rest = [] := by
        simp [Cursor.next, none, Item.read]
      rw [answer.1, answer.2, none]
      exact readsLongest_nil offset' offset'
    · refine readsLongest_item (Item.takes_read (bare_splitLayout _) none) (Item.read_append _) none
        (fun fault spoils => Item.outcome_of_spoils spoils) offset' ?_
      rw [← offset']
      exact Position.offset_after _ _

/-- **The next token is the longest.** Wherever a cursor of a text has come to, it skips the longest
layout behind it. Then it reads the end of the text if nothing is left, or the longest spelling of a
token that the rest begins with; or it fails at the first character of the rest, and this exactly if
the rest begins with a comment or a string that is never closed, with an integer that is too great,
or with a character that no token begins with. -/
theorem next_takes_longest (reached : cursor.Reached text) :
    ∃ before skipped rest, text.toList = before ++ (skipped ++ rest) ∧
      cursor.place.offset = before.length ∧ cursor.rest = skipped ++ rest ∧
      IsLayout skipped ∧
      (∀ layout, IsLayout layout → layout <+: cursor.rest → layout.length ≤ skipped.length) ∧
      ReadsLongest (before ++ skipped) rest cursor.next.1 cursor.next.2.rest :=
  reached.within.reads

/-- Behind a character that begins no token there is layout, and the point of a range is no part of
the number before it. -/
theorem next_takes_longest_resumed :
    let text := "# {c} 1..5"
    let cursor := (ofText text).next.2
    cursor.Reached text ∧ cursor.next.1 = .ok ⟨.integerLiteral, "1", ⟨6, 7, 1, 7⟩⟩ ∧
    ∃ before skipped rest, text.toList = before ++ (skipped ++ rest) ∧
      cursor.place.offset = before.length ∧ cursor.rest = skipped ++ rest ∧
      IsLayout skipped ∧
      (∀ layout, IsLayout layout → layout <+: cursor.rest → layout.length ≤ skipped.length) ∧
      ReadsLongest (before ++ skipped) rest cursor.next.1 cursor.next.2.rest := by
  intro text cursor
  have reached : cursor.Reached text := .behind .next .start
  exact ⟨reached, by decide +kernel, next_takes_longest reached⟩

end Cursor

end SmallPascal
