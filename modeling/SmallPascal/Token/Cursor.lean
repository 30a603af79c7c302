import SmallPascal.Decimal
import SmallPascal.Fault
import SmallPascal.Token.Layout

/-!
Reading tokens off a source text. A cursor is what is left of the text, with its place; each reading
skips layout and takes the longest token, or reports what it found instead.
-/

namespace SmallPascal

/-- Whether a name may go on with this character. -/
def isNamePart (c : Char) : Bool := c.isAlphanum || c = '_'

/-- What was read at the beginning of a text: a token's kind and lexeme or a fault, the characters
that were taken, and the rest. -/
structure Item where
  outcome : Except LexicalFault (Kind × String)
  taken : List Char
  rest : List Char

namespace Item

/-- Reads a number. A point belongs to it only if a digit follows, so that `1..5` is a range. An
integer has to be a value of the language; a real always is. -/
def number (cs : List Char) : Item :=
  let whole := cs.takeWhile Char.isDigit
  let rest := cs.dropWhile Char.isDigit
  match rest with
  | point :: d :: more =>
    if point = '.' ∧ d.isDigit then
      let taken := whole ++ point :: (d :: more).takeWhile Char.isDigit
      ⟨.ok (.realLiteral, String.ofList taken), taken, (d :: more).dropWhile Char.isDigit⟩
    else integer whole rest
  | _ => integer whole rest
where
  integer (whole rest : List Char) : Item :=
    match Integer.ofNat? (Nat.ofDigitChars 10 whole 0) with
    | some _ => ⟨.ok (.integerLiteral, String.ofList whole), whole, rest⟩
    | none => ⟨.error (.invalidNumber (String.ofList whole)), whole, rest⟩

/-- Reads a string, whose quotes are not part of its lexeme. The text begins after the first one. -/
def string (cs : List Char) : Item :=
  let content := cs.takeWhile (· != '\'')
  match cs.dropWhile (· != '\'') with
  | [] => ⟨.error .unterminatedString, '\'' :: cs, []⟩
  | quote :: rest => ⟨.ok (.stringLiteral, String.ofList content), '\'' :: content ++ [quote], rest⟩

def name (cs : List Char) : Item :=
  let taken := cs.takeWhile isNamePart
  let name := String.ofList taken
  ⟨.ok (Kind.ofName name, name), taken, cs.dropWhile isNamePart⟩

/-- Reads the item at the beginning of a text that begins with no layout. A brace there opens a
comment that is never closed. -/
def read : List Char → Item
  | [] => ⟨.ok (.endOfText, ""), [], []⟩
  | c :: cs =>
    if c.isAlpha then name (c :: cs)
    else if c.isDigit then number (c :: cs)
    else if c = '\'' then string cs
    else if c = '{' then ⟨.error .unterminatedComment, c :: cs, []⟩
    else
      match Kind.markOf? (c :: cs) with
      | some kind =>
        let taken := kind.letters
        ⟨.ok (kind, String.ofList taken), taken, (c :: cs).drop taken.length⟩
      | none => ⟨.error (.unexpectedCharacter c), [c], cs⟩

end Item

structure Cursor where
  rest : List Char
  place : Position

namespace Cursor

def ofText (text : String) : Cursor := ⟨text.toList, .start⟩

/-- Reads the next token. A reading that fails leaves the cursor behind what it took. -/
def next (cursor : Cursor) : Except Diagnostic Token × Cursor :=
  let (layout, rest) := splitLayout cursor.rest
  let place := cursor.place.after layout
  let item := Item.read rest
  let behind := place.after item.taken
  let span := Span.between place behind
  let answer :=
    match item.outcome with
    | .ok (kind, lexeme) => .ok ⟨kind, lexeme, span⟩
    | .error fault => .error ⟨.lexical fault, span⟩
  (answer, ⟨item.rest, behind⟩)

/-- The next token, which stays to be read. -/
def peek (cursor : Cursor) : Except Diagnostic Token := cursor.next.1

/-- Reads a token of the given kind. Another one is read as well, and is a fault. -/
def expect (kind : Kind) (cursor : Cursor) : Except Diagnostic Token × Cursor :=
  match cursor.next with
  | (.ok token, behind) =>
    if token.kind = kind then (.ok token, behind)
    else (.error ⟨.syntactic ⟨.token kind, token⟩, token.span⟩, behind)
  | (.error diagnostic, behind) => (.error diagnostic, behind)

end Cursor

namespace Item

theorem number_append (cs : List Char) : (number cs).taken ++ (number cs).rest = cs := by
  have whole := List.takeWhile_append_dropWhile (p := Char.isDigit) (l := cs)
  unfold number
  simp only
  split
  next point d more e =>
    split
    · conv => rhs; rw [← whole, e]
      simp only [List.append_assoc, List.cons_append]
      rw [List.takeWhile_append_dropWhile]
    · unfold number.integer; split <;> exact whole
  next => unfold number.integer; split <;> exact whole

theorem string_append (cs : List Char) : (string cs).taken ++ (string cs).rest = '\'' :: cs := by
  have whole := List.takeWhile_append_dropWhile (p := (· != '\'')) (l := cs)
  unfold string
  simp only
  split
  · simp
  next quote rest e => rw [e] at whole; simp [whole]

theorem name_append (cs : List Char) : (name cs).taken ++ (name cs).rest = cs :=
  List.takeWhile_append_dropWhile

/-- Nothing is lost between the item and the rest. -/
theorem read_append (cs : List Char) : (read cs).taken ++ (read cs).rest = cs := by
  cases cs with
  | nil => rfl
  | cons c cs =>
    rw [read]
    split
    · exact name_append _
    split
    · exact number_append _
    split
    next h => rw [h]; exact string_append cs
    split
    · simp
    split
    next h => exact Kind.append_of_markOf? h
    next => simp

theorem number_taken_ne_nil {c : Char} {cs : List Char} (h : c.isDigit) :
    (number (c :: cs)).taken ≠ [] := by
  unfold number
  simp only
  split
  · split
    · simp
    · unfold number.integer; split <;> simp [h]
  · unfold number.integer; split <;> simp [h]

theorem string_taken_ne_nil (cs : List Char) : (string cs).taken ≠ [] := by
  unfold string; simp only; split <;> simp

/-- Every item but the end of the text takes at least one character. -/
theorem taken_ne_nil {cs : List Char} (h : cs ≠ []) : (read cs).taken ≠ [] := by
  cases cs with
  | nil => exact absurd rfl h
  | cons c cs =>
    rw [read]
    split
    next alpha => simp [name, isNamePart, Char.isAlphanum, alpha]
    split
    next digit => exact number_taken_ne_nil digit
    split
    · exact string_taken_ne_nil cs
    split
    · simp
    split
    next mark => exact Kind.letters_ne_nil_of_markOf? mark
    next => simp

end Item

namespace Cursor

/-- Reading past anything but the end of the text leaves less to read. -/
theorem next_rest_length_lt {cursor : Cursor} (h : (splitLayout cursor.rest).2 ≠ []) :
    cursor.next.2.rest.length < cursor.rest.length := by
  have layout := congrArg List.length (splitLayout_append cursor.rest)
  have item := congrArg List.length (Item.read_append (splitLayout cursor.rest).2)
  have taken := List.length_pos_iff.2 (Item.taken_ne_nil h)
  simp only [List.length_append] at layout item
  simp only [next]
  omega

end Cursor

end SmallPascal
