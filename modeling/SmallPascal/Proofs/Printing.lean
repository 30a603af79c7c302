import SmallPascal.Proofs.LongestMatch
import SmallPascal.Proofs.Recognition

/-! Words that are written one behind the other, with layout between them, are read back as they
were written: layout ends every word, and what stands in front of it is the longest token there. -/

namespace SmallPascal

open Kind

/-- The text is at its end, or goes on with layout, if only with a comment that is never closed. -/
def Delimited (cs : List Char) : Prop := ∀ c ∈ cs.head?, isBlank c ∨ c = '{'

structure Gap where
  chars : List Char
  layout : IsLayout chars
  some : chars ≠ []

lemma IsLayout.delimited {cs : List Char} (h : IsLayout cs) : Delimited cs := by
  cases h with
  | none => exact nofun
  | blank blank =>
    rintro _ ⟨⟩
    exact .inl (isBlank_iff.2 blank)
  | comment =>
    rintro _ ⟨⟩
    exact .inr rfl

lemma Gap.delimited (gap : Gap) (cs : List Char) : Delimited (gap.chars ++ cs) := by
  obtain ⟨c, more, e⟩ := List.exists_cons_of_ne_nil gap.some
  have first := gap.layout.delimited
  rw [e] at first ⊢
  exact first

/-! ### Where a word ends -/

lemma not_part_of_delimiter {c : Char} (h : isBlank c ∨ c = '{') : ¬ isNamePart c ∧ c ≠ '.' := by
  rw [isBlank_iff] at h
  simp only [List.mem_cons, List.not_mem_nil, or_false] at h
  rcases h with (rfl | rfl | rfl | rfl) | rfl <;> decide

namespace Kind

variable {kind : Kind} {word rest : List Char}

lemma Spells.plain (h : kind.Spells word) (noString : kind ≠ .stringLiteral) :
    ∀ c ∈ word, ¬ (isBlank c ∨ c = '{') := by
  have name {c : Char} (part : c.isAlpha ∨ c.isDigit ∨ c = '_') : ¬ (isBlank c ∨ c = '{') :=
    fun h => (not_part_of_delimiter h).1 (isNamePart_iff.2 part)
  intro c among
  cases h with
  | mark listed =>
    obtain ⟨-, -, blank, brace⟩ := (plain_of_mem_marks _ listed).2 c among
    exact not_or.2 ⟨blank, brace⟩
  | string => exact absurd rfl noString
  | integer _ digits => exact name (.inr (.inl (digits c among)))
  | real _ whole _ fraction =>
    rcases List.mem_append.1 among with among | among
    · exact name (.inr (.inl (whole c among)))
    rcases List.mem_cons.1 among with rfl | among
    · exact fun h => (not_part_of_delimiter h).2 rfl
    · exact name (.inr (.inl (fraction c among)))
  | word listed => exact name (.inl ((isAlpha_of_mem_reserved _ listed).2 c among))
  | name first parts =>
    rcases List.mem_cons.1 among with rfl | among
    · exact name (.inl first)
    · exact name (parts c among)

lemma Spells.quotes (h : Spells .stringLiteral word) :
    ∃ content, '\'' ∉ content ∧ word = '\'' :: (content ++ ['\'']) := by
  generalize e : Kind.stringLiteral = kind at h
  cases h with
  | string inside => exact ⟨_, inside, rfl⟩
  | mark listed => exact absurd (e ▸ listed) (by decide)
  | word listed => exact absurd (e ▸ listed) (by decide)
  | _ => cases e

lemma Spells.longest (h : kind.Spells word) (ends : Delimited rest) :
    kind.Longest word (word ++ rest) where
  spells := h
  begins := List.prefix_append _ _
  longest other longer spells begins := by
    -- what is longer goes on with a character of layout, and so is a string
    by_contra short
    obtain ⟨tail, rfl⟩ :=
      List.prefix_of_prefix_length_le (List.prefix_append word rest) begins (by omega)
    obtain ⟨c, tail, rfl⟩ := List.exists_cons_of_ne_nil (l := tail) (by rintro rfl; simp at short)
    obtain ⟨more, rfl⟩ := (List.prefix_append_right_inj word).1 begins
    have delimiter := ends c rfl
    have string : other = .stringLiteral := by
      by_contra noString
      exact spells.plain noString c (by simp) delimiter
    subst string
    obtain ⟨content, inside, e⟩ := spells.quotes
    obtain ⟨d, word, rfl⟩ := List.exists_cons_of_ne_nil h.ne_nil
    obtain rfl := (List.cons.inj e).1
    obtain ⟨-, content', -, rfl⟩ := h.of_quote
    have front : content' ++ ['\''] <+: content ++ ['\''] := ⟨c :: tail, (List.cons.inj e).2⟩
    rcases List.prefix_concat_iff.1 front with same | front
    · rw [← same] at e
      simp at e
    · exact inside (front.subset (by simp))

lemma Spells.splitLayout_append (h : kind.Spells word) (rest : List Char) :
    splitLayout (word ++ rest) = ([], word ++ rest) := by
  obtain ⟨c, word, rfl⟩ := List.exists_cons_of_ne_nil h.ne_nil
  have first : ¬ (isBlank c ∨ c = '{') := by
    by_cases string : kind = .stringLiteral
    · subst string
      obtain ⟨content, -, e⟩ := h.quotes
      obtain rfl := (List.cons.inj e).1
      decide
    · exact h.plain string c List.mem_cons_self
  rw [not_or] at first
  rw [List.cons_append, splitLayout, if_neg first.1, if_neg first.2]

lemma written_injective (kind : Kind) : Function.Injective kind.written := by
  intro lexeme other same
  unfold written at same
  split at same
  · exact String.toList_inj.1 (List.append_cancel_right (List.cons.inj same).2)
  · exact String.toList_inj.1 same

end Kind

/-! ### What is read back -/

/-- The lexeme is that of a token of the kind, which for an integer is not too great. -/
structure Kind.Fits (kind : Kind) (lexeme : String) : Prop where
  spells : kind.Spells (kind.written lexeme)
  range : kind = .integerLiteral → Nat.ofDigitChars 10 lexeme.toList 0 ≤ Integer.greatest

variable {kind : Kind} {lexeme : String} {rest : List Char}

lemma Kind.fits_ofList {word : List Char} (noString : kind ≠ .stringLiteral)
    (spells : kind.Spells word)
    (range : kind = .integerLiteral → Nat.ofDigitChars 10 word 0 ≤ Integer.greatest) :
    kind.written (String.ofList word) = word ∧ kind.Fits (String.ofList word) := by
  have written : kind.written (String.ofList word) = word := by
    rw [written_eq noString, String.toList_ofList]
  exact ⟨written, by rwa [written], by rwa [String.toList_ofList]⟩

lemma Item.read_written (h : kind.Fits lexeme)
    (longest : kind.Longest (kind.written lexeme) (kind.written lexeme ++ rest)) :
    read (kind.written lexeme ++ rest) = ⟨.ok (kind, lexeme), kind.written lexeme, rest⟩ := by
  have bare := congrArg Prod.fst (h.spells.splitLayout_append rest)
  have takes := takes_read bare (by simp [h.spells.ne_nil])
  have append := read_append (kind.written lexeme ++ rest)
  rcases found : read (kind.written lexeme ++ rest) with ⟨fault | ⟨kind', lexeme'⟩, taken, left⟩ <;>
    rw [found] at takes append
  · obtain ⟨rfl, great⟩ := great_of_spoils takes longest
    exact absurd (h.range rfl) (Int.not_le.2 great)
  · obtain ⟨longest', written⟩ := takes
    obtain ⟨rfl, rfl⟩ := longest.unique longest'
    obtain rfl := kind.written_injective written
    obtain rfl := List.append_cancel_left append
    rfl

namespace Tokens

lemma ofCursor_layout {layout : List Char} (h : IsLayout layout) (cs : List Char) (p : Position) :
    ofCursor ⟨layout ++ cs, p⟩ = ofCursor ⟨cs, p.after layout⟩ := by
  have next : Cursor.next ⟨layout ++ cs, p⟩ = Cursor.next ⟨cs, p.after layout⟩ := by
    simp only [Cursor.next, h.split, Position.after_append]
  rw [ofCursor.eq_def ⟨layout ++ cs, p⟩, ofCursor.eq_def ⟨cs, p.after layout⟩, next]
  simp only [h.split, Position.after_append]

lemma ofCursor_of_layout {layout : List Char} (h : IsLayout layout) (p : Position) :
    ofCursor ⟨layout, p⟩ = ⟨[], ⟨.endOfText, "", .between (p.after layout) (p.after layout)⟩⟩ := by
  have split := h.split []
  simp only [List.append_nil, splitLayout] at split
  rw [ofCursor, dif_pos (by rw [split])]
  simp only [split]

lemma ofCursor_written (h : kind.Fits lexeme)
    (longest : kind.Longest (kind.written lexeme) (kind.written lexeme ++ rest)) (p : Position) :
    ofCursor ⟨kind.written lexeme ++ rest, p⟩ =
      (ofCursor ⟨rest, p.after (kind.written lexeme)⟩).put
        [⟨kind, lexeme, .between p (p.after (kind.written lexeme))⟩] := by
  have split := h.spells.splitLayout_append rest
  have next : Cursor.next ⟨kind.written lexeme ++ rest, p⟩ =
      (.ok ⟨kind, lexeme, .between p (p.after (kind.written lexeme))⟩,
        ⟨rest, p.after (kind.written lexeme)⟩) := by
    simp only [Cursor.next, split, Item.read_written h longest, Position.after_nil]
  rw [ofCursor, dif_neg (by simp [split, h.spells.ne_nil]), next]
  rfl

end Tokens

/-! ### Texts -/

/-- The text at the place is read as the tokens, if layout or nothing stands behind it. -/
def Lexes (p : Position) (cs : List Char) (tokens : List Token) : Prop :=
  ∀ rest, Delimited rest →
    Tokens.ofCursor ⟨cs ++ rest, p⟩ = (Tokens.ofCursor ⟨rest, p.after cs⟩).put tokens

namespace Lexes

variable {p : Position} {cs ds : List Char} {front behind : List Token}

lemma word (h : kind.Fits lexeme) (p : Position) : Lexes p (kind.written lexeme)
    [⟨kind, lexeme, .between p (p.after (kind.written lexeme))⟩] :=
  fun _ ends => Tokens.ofCursor_written h (h.spells.longest ends) p

lemma letters {word : List Char} (listed : kind ∈ marks ++ reserved) (letters : kind.letters = word)
    (p : Position) : Lexes p word [⟨kind, String.ofList word, .between p (p.after word)⟩] := by
  have apart : ∀ kind ∈ marks ++ reserved, kind ≠ .stringLiteral ∧
    kind ≠ .integerLiteral := by decide
  obtain ⟨noString, noInteger⟩ := apart kind listed
  subst letters
  have spells : kind.Spells kind.letters := (List.mem_append.1 listed).elim .mark .word
  obtain ⟨written, fits⟩ := kind.fits_ofList noString spells fun integer => absurd integer noInteger
  have lexes := word fits p
  rwa [written] at lexes

lemma append {gap : Gap} (h : Lexes p cs front) (h' : Lexes (p.after (cs ++ gap.chars)) ds behind) :
    Lexes p (cs ++ (gap.chars ++ ds)) (front ++ behind) := by
  intro rest ends
  rw [Position.after_append] at h'
  rw [List.append_assoc, List.append_assoc, h _ (gap.delimited _),
    Tokens.ofCursor_layout gap.layout, h' rest ends]
  simp [Tokens.put, Position.after_append]

lemma ofText {leading trailing : List Char} (h : Lexes (.after .start leading) cs front)
    (before : IsLayout leading) (after : IsLayout trailing) : ∃ last, last.kind = .endOfText ∧
      Tokens.ofText (String.ofList (leading ++ (cs ++ trailing))) = Tokens.put
      ⟨[], last⟩ front := by
  let p := ((Position.after .start leading).after cs).after trailing
  refine ⟨⟨.endOfText, "", .between p p⟩, rfl, ?_⟩
  rw [Tokens.ofText, Cursor.ofText, String.toList_ofList, Tokens.ofCursor_layout before,
    h trailing after.delimited, Tokens.ofCursor_of_layout after]

end Lexes

/-- A reader with nothing before it but the end of its text. -/
def ParseState.atEnd (last : Token) (folding : Bool) : ParseState :=
  ⟨⟨[], last⟩, .empty, [], [], false, folding, ()⟩

lemma Parse.expect_atEnd {last : Token} (is : last.kind = .endOfText) (folding : Bool) :
    expect .endOfText (.atEnd last folding) = (.ok last, .atEnd last folding) := by
  have next : Parse.next (.atEnd last folding) = (.ok last, .atEnd last folding) := rfl
  rw [expect, Steps.bind_of_ok next, if_pos is]
  rfl

lemma Lexes.exists_atEnd {cs leading trailing : List Char} {tokens : List Token}
    (h : Lexes (.after .start leading) cs tokens) (before : IsLayout leading)
    (after : IsLayout trailing) (folding : Bool) : ∃ last, last.kind = .endOfText ∧
      ParseState.ofText (String.ofList (leading ++ (cs ++ trailing))) folding =
        (ParseState.atEnd last folding).put tokens := by
  obtain ⟨last, is, text⟩ := h.ofText before after
  exact ⟨last, is, by rw [ParseState.ofText, text]; rfl⟩

end SmallPascal
