import SmallPascal.Token.Cursor

/-!
The tokens of a text as a whole: scanned at once up to the end, or as the sequence that a reader
takes them from one at a time.
-/

namespace SmallPascal

namespace Cursor

theorem kind_of_no_rest {cursor behind : Cursor} {token : Token}
    (h : (splitLayout cursor.rest).2 = []) (e : cursor.next = (.ok token, behind)) :
    token.kind = .endOfText := by
  simp only [next, h, Item.read, Prod.mk.injEq, Except.ok.injEq] at e
  rw [← e.1]

theorem rest_length_lt {cursor behind : Cursor} {token : Token}
    (e : cursor.next = (.ok token, behind)) (h : token.kind ≠ .endOfText) :
    behind.rest.length < cursor.rest.length := by
  have := @next_rest_length_lt cursor (fun none => h (kind_of_no_rest none e))
  rwa [e] at this

/-- Reads all tokens up to the end of the text, that one included, or up to the first fault. -/
def scan (cursor : Cursor) : Except Diagnostic (List Token) × Cursor :=
  match _e : cursor.next with
  | (.error diagnostic, behind) => (.error diagnostic, behind)
  | (.ok token, behind) =>
    if _h : token.kind = .endOfText then (.ok [token], behind)
    else
      let (tokens, last) := behind.scan
      (tokens.map (token :: ·), last)
termination_by cursor.rest.length
decreasing_by exact rest_length_lt _e _h

end Cursor

/-- What a reader still has before it: tokens and faults in the order of the text, and after all of
them the end of the text, as often as it is asked for. -/
structure Tokens where
  items : List (Except Diagnostic Token)
  last : Token

namespace Tokens

def ofCursor (cursor : Cursor) : Tokens :=
  if _h : (splitLayout cursor.rest).2 = [] then
    let place := cursor.place.after (splitLayout cursor.rest).1
    ⟨[], ⟨.endOfText, "", .between place place⟩⟩
  else
    let more := ofCursor cursor.next.2
    { more with items := cursor.next.1 :: more.items }
termination_by cursor.rest.length
decreasing_by exact Cursor.next_rest_length_lt _h

def ofText (text : String) : Tokens := ofCursor (.ofText text)

/-- The next token, which stays to be read. -/
def peek (tokens : Tokens) : Except Diagnostic Token :=
  match tokens.items with
  | [] => .ok tokens.last
  | item :: _ => item

def tail (tokens : Tokens) : Tokens := { tokens with items := tokens.items.tail }

end Tokens

end SmallPascal
