/-!
Layout: the blanks and comments between tokens. A comment runs from `{` to the next `}`; one that is
never closed is no layout.
-/

namespace SmallPascal

/-- A space, a tab, a carriage return or a line feed. -/
def isBlank (c : Char) : Bool := c = ' ' || c = '\t' || c = '\r' || c = '\n'

mutual

/-- Cuts a text after the longest run of blanks and closed comments that it begins with. -/
def splitLayout : List Char → List Char × List Char
  | [] => ([], [])
  | c :: cs =>
    if isBlank c then
      let (layout, rest) := splitLayout cs
      (c :: layout, rest)
    else if c = '{' then
      match splitComment cs with
      | some (layout, rest) => (c :: layout, rest)
      | none => ([], c :: cs)
    else ([], c :: cs)

/-- Does the same inside a comment, if the comment is closed. -/
def splitComment : List Char → Option (List Char × List Char)
  | [] => none
  | c :: cs =>
    if c = '}' then
      let (layout, rest) := splitLayout cs
      some (c :: layout, rest)
    else
      match splitComment cs with
      | some (layout, rest) => some (c :: layout, rest)
      | none => none

end

mutual

/-- Nothing is lost between the layout and the rest. -/
theorem splitLayout_append (cs : List Char) :
    (splitLayout cs).1 ++ (splitLayout cs).2 = cs := by
  match cs with
  | [] => simp [splitLayout]
  | c :: cs =>
    rw [splitLayout]
    split
    · simp [splitLayout_append cs]
    split
    · split
      next h => simp [splitComment_append cs h]
      next => simp
    · simp

/-- Nothing is lost inside a comment. -/
theorem splitComment_append (cs : List Char) {layout rest : List Char}
    (h : splitComment cs = some (layout, rest)) : layout ++ rest = cs := by
  match cs with
  | [] => simp [splitComment] at h
  | c :: cs =>
    rw [splitComment] at h
    split at h
    · obtain ⟨rfl, rfl⟩ := by simpa using h
      simp [splitLayout_append cs]
    · split at h
      next e =>
        obtain ⟨rfl, rfl⟩ := by simpa using h
        simp [splitComment_append cs e]
      next => simp at h

end

end SmallPascal
