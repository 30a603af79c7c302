import SmallPascal.Proofs.LayoutFree
import SmallPascal.Proofs.Printing

/-! Texts that fall into words. Where every word is the longest at its place, no layout is needed
between two of them: a mark ends with its last character, a name in front of anything but a letter,
a digit or an underscore, and a number in front of the two points of a range. -/

namespace SmallPascal

open Kind

/-- The text falls into words, with any layout between them, and no longer word begins where one of
them does. -/
inductive Segmented : List Char → List (Kind × String) → Prop
  | none : Segmented [] []
  | layout {layout cs : List Char} {words : List (Kind × String)} :
    IsLayout layout → Segmented cs words →
    Segmented (layout ++ cs) words
  | word {kind : Kind} {lexeme : String} {cs : List Char} {words : List (Kind × String)} :
    kind.Fits lexeme → kind.Longest (kind.written lexeme) (kind.written lexeme ++ cs) →
    Segmented cs words → Segmented (kind.written lexeme ++ cs) ((kind, lexeme) :: words)

def Kind.asWord (kind : Kind) : Kind × String := (kind, String.ofList kind.letters)

/-! ### Where a word ends -/

namespace Kind

variable {kind : Kind} {word rest : List Char}

lemma longest_letters (letter : ∃ c ∈ word.head?, c.isAlpha) (parts : ∀ c ∈ word, isNamePart c)
    (ends : ∀ c ∈ rest.head?, ¬ isNamePart c) :
    (ofName (String.ofList word)).Longest word (word ++ rest) := by
  obtain ⟨c, first, alpha⟩ := letter
  obtain ⟨more, rfl⟩ := List.head?_eq_some_iff.1 first
  have longest := @longest_name (more ++ rest) c alpha
  rwa [← List.cons_append, (split_at_end parts ends).1] at longest

lemma longest_letters_mark (found : markOf? (kind.letters ++ rest) = some kind) :
    kind.Longest kind.letters (kind.letters ++ rest) := by
  obtain ⟨some, plain⟩ := plain_of_mem_marks kind (List.mem_of_find?_eq_some found)
  obtain ⟨c, more, letters⟩ := List.exists_cons_of_ne_nil some
  obtain ⟨part, quote, -, -⟩ := plain c (letters ▸ List.mem_cons_self)
  rw [isNamePart_iff, not_or, not_or] at part
  have shape : kind.letters ++ rest = c :: (more ++ rest) := by rw [letters, List.cons_append]
  rw [shape] at found ⊢
  exact longest_mark found part.1 part.2.1 quote

/-- A numeral ends in front of anything but a digit and a point with a digit behind it. -/
lemma longest_digits (some : word ≠ []) (digits : ∀ c ∈ word, c.isDigit)
    (ends : ∀ c ∈ rest.head?, ¬ c.isDigit)
    (point : ∀ d more, rest = '.' :: d :: more → ¬ d.isDigit) :
    Longest .integerLiteral word (word ++ rest) := by
  obtain ⟨c, more, rfl⟩ := List.exists_cons_of_ne_nil some
  obtain ⟨front, behind⟩ := split_at_end digits ends
  have longest := @longest_integer (more ++ rest) c (digits c List.mem_cons_self)
  rw [← List.cons_append, front, behind] at longest
  exact longest point

end Kind

/-! ### Words of a text -/

namespace Segmented

variable {cs : List Char} {words : List (Kind × String)}

/-- A word that is no literal, one of an integer apart, is spelled by its lexeme. -/
lemma spelled {kind : Kind} {word : List Char} (longest : kind.Longest word (word ++ cs))
    (noString : kind ≠ .stringLiteral)
    (range : kind = .integerLiteral → Nat.ofDigitChars 10 word 0 ≤ Integer.greatest)
    (h : Segmented cs words) : Segmented (word ++ cs) ((kind, String.ofList word) :: words) := by
  obtain ⟨written, fits⟩ := kind.fits_ofList noString longest.spells range
  have longest :
    kind.Longest (kind.written (String.ofList word)) (kind.written (String.ofList word) ++ cs) := by
    rwa [written]
  have segmented := Segmented.word fits longest h
  rwa [written] at segmented

lemma space (h : Segmented cs words) : Segmented (' ' :: cs) words :=
  .layout (.blank (by decide) .none) h

lemma mark {kind : Kind} (found : markOf? (kind.letters ++ cs) = some kind)
    (h : Segmented cs words) :
    Segmented (kind.letters ++ cs) (kind.asWord :: words) := by
  have apart : ∀ kind ∈ marks, kind ≠ .stringLiteral ∧ kind ≠ .integerLiteral := by decide
  obtain ⟨noString, noInteger⟩ := apart kind (List.mem_of_find?_eq_some found)
  exact spelled (longest_letters_mark found) noString (fun integer => absurd integer noInteger) h

lemma letters {word : List Char} (letter : ∃ c ∈ word.head?, c.isAlpha)
    (parts : ∀ c ∈ word, isNamePart c)
    (ends : ∀ c ∈ cs.head?, ¬ isNamePart c) (h : Segmented cs words) :
    Segmented (word ++ cs) ((ofName (String.ofList word), String.ofList word) :: words) :=
  spelled (longest_letters letter parts ends) (ofName_ne (by decide) _)
    (fun integer => absurd integer (ofName_ne (by decide) _)) h

lemma reserved {kind : Kind} (listed : kind ∈ Kind.reserved) (ends : ∀ c ∈ cs.head?, ¬ isNamePart c)
    (h : Segmented cs words) : Segmented (kind.letters ++ cs) (kind.asWord :: words) := by
  obtain ⟨some, alpha⟩ := isAlpha_of_mem_reserved kind listed
  obtain ⟨c, more, word⟩ := List.exists_cons_of_ne_nil some
  have letter : ∃ c ∈ kind.letters.head?, c.isAlpha :=
    ⟨c, by rw [word]; rfl, alpha c (word ▸ List.mem_cons_self)⟩
  have segmented := letters letter (fun c among => isNamePart_iff.2 (.inl (alpha c among))) ends h
  rwa [ofName_of_mem_reserved kind listed] at segmented

lemma digits {n : Nat} (range : n ≤ Integer.greatest) (ends : ∀ c ∈ cs.head?, ¬ c.isDigit)
    (point : ∀ d more, cs = '.' :: d :: more → ¬ d.isDigit) (h : Segmented cs words) :
    Segmented ((SmallPascal.digits n).toList ++ cs)
      ((.integerLiteral, SmallPascal.digits n) :: words) := by
  have all : ∀ c ∈ Nat.toDigits 10 n, c.isDigit :=
    fun c => Nat.isDigit_of_mem_toDigits (by decide) (by decide)
  have longest := longest_digits Nat.toDigits_ne_nil all ends point
  rw [SmallPascal.digits, String.toList_ofList]
  exact spelled longest (by decide) (fun _ => by rwa [Nat.ofDigitChars_ten_toDigits]) h

lemma ofCursor (h : Segmented cs words) : ∀ p, ∃ (tokens : List Token) (last : Token),
    Tokens.ofCursor ⟨cs, p⟩ = ⟨tokens.map .ok, last⟩ ∧ tokens.map Token.bare = words ∧
      last.kind = .endOfText := by
  induction h with
  | none => exact fun p => ⟨[], _, Tokens.ofCursor_of_layout .none p, rfl, rfl⟩
  | @layout layout cs words is _ ih =>
    intro p
    rw [Tokens.ofCursor_layout is]
    exact ih _
  | @word kind lexeme cs words fits longest _ ih =>
    intro p
    obtain ⟨tokens, last, read, bare, ending⟩ := ih (p.after (kind.written lexeme))
    refine ⟨⟨kind, lexeme, .between p (p.after (kind.written lexeme))⟩ :: tokens, last,
      ?_, ?_, ending⟩
    · rw [Tokens.ofCursor_written fits longest, read]
      rfl
    · rw [List.map_cons, bare]
      rfl

end Segmented

end SmallPascal
