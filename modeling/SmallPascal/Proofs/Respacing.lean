import SmallPascal.Proofs.LayoutFree
import SmallPascal.Proofs.Printing

/-! The tokens of a text can be written down again with any layout between them, and are scanned as
before. What a scan answers are the lexemes of their kinds, and layout ends each of them where it
ended before. -/

namespace SmallPascal

open Kind

/-- The tokens one behind the other, with layout between any two of them. -/
inductive Spread : List Token → List Char → Prop
  | none : Spread [] []
  | last (token : Token) : Spread [token] token.written
  | more {token next : Token} {rest : List Token} {cs : List Char} (gap : Gap) :
    Spread (next :: rest) cs → Spread (token :: next :: rest) (token.written ++ (gap.chars ++ cs))

/-! ### What is scanned -/

namespace Item

variable {cs : List Char} {kind : Kind} {lexeme : String}

lemma fits_of_read (bare : Bare cs) (some : cs ≠ []) (h : (read cs).outcome = .ok (kind, lexeme)) :
    kind.Fits lexeme := by
  have takes := takes_read bare some
  rw [Takes, h] at takes
  obtain ⟨longest, written⟩ := takes
  refine ⟨written ▸ longest.spells, ?_⟩
  rintro rfl
  -- an integer that is too great would have been reported
  by_contra great
  have digits : (read cs).taken = lexeme.toList := written.symm
  rw [digits] at longest
  have refused := outcome_of_spoils (.number longest (Int.not_le.1 great))
  rw [h] at refused
  cases refused

end Item

lemma Cursor.fits_of_next {cursor : Cursor} {token : Token} (read : .ok token = cursor.next.1)
    (some : (splitLayout cursor.rest).2 ≠ []) : token.kind.Fits token.lexeme :=
  Item.fits_of_read (bare_splitLayout _) some (Cursor.next_eq_ok read).2

namespace Tokens

lemma fits_of_mem_ofCursor {cursor : Cursor} {token : Token}
    (h : .ok token ∈ (ofCursor cursor).items) :
    token.kind.Fits token.lexeme := by
  fun_induction ofCursor cursor with
  | case1 => simp at h
  | case2 cursor some more ih =>
    rcases List.mem_cons.1 h with first | later
    · exact Cursor.fits_of_next first some
    · exact ih later

lemma bare_last_ofCursor (cursor : Cursor) : (ofCursor cursor).last.bare = (.endOfText, "") := by
  fun_induction ofCursor cursor with
  | case1 => rfl
  | case2 cursor some more ih => exact ih

end Tokens

/-! ### What is scanned again -/

lemma Spread.lexes {tokens : List Token} {cs : List Char} (h : Spread tokens cs)
    (fits : ∀ token ∈ tokens, token.kind.Fits token.lexeme) :
    ∀ p, ∃ again, Lexes p cs again ∧ again.map Token.bare = tokens.map Token.bare := by
  induction h with
  | none => exact fun p => ⟨[], fun _ _ => rfl, rfl⟩
  | last token => exact fun p => ⟨_, .word (fits token List.mem_cons_self) p, rfl⟩
  | @more token next rest cs gap _ ih =>
    intro p
    obtain ⟨first, others⟩ := List.forall_mem_cons.1 fits
    obtain ⟨again, lexes, same⟩ := ih others (p.after (token.written ++ gap.chars))
    exact ⟨_, (Lexes.word first p).append lexes, congrArg (token.bare :: ·) same⟩

namespace Cursor

/-- **Scanning undoes printing.** The tokens of a scan, without the end of the text, can be written
down with any layout between them and around them all. They are scanned again with the same kinds
and lexemes, and behind them is the end of the text. -/
theorem scan_spread {cursor : Cursor} {tokens : List Token} {last : Token}
    {leading cs trailing : List Char} (scanned : cursor.scan.1 = .ok (tokens ++ [last]))
    (front : IsLayout leading) (spread : Spread tokens cs) (behind : IsLayout trailing) :
    last.bare = (.endOfText, "") ∧ ∃ again last',
      (ofText (String.ofList (leading ++ (cs ++ trailing)))).scan.1 = .ok (again ++ [last']) ∧
      again.map Token.bare = tokens.map Token.bare ∧ last'.bare = (.endOfText, "") := by
  obtain ⟨items, read, whole⟩ := Tokens.scan_eq_ok_iff.1 scanned
  obtain ⟨rfl, same⟩ := List.append_inj' whole rfl
  obtain rfl := List.singleton_inj.1 same
  have fits : ∀ token ∈ tokens, token.kind.Fits token.lexeme := by
    intro token among
    have listed : .ok token ∈ (Tokens.ofCursor cursor).items := read ▸ List.mem_map_of_mem among
    exact Tokens.fits_of_mem_ofCursor listed
  obtain ⟨again, lexes, bare⟩ := spread.lexes fits (.after .start leading)
  obtain ⟨last', -, text⟩ := lexes.ofText front behind
  rw [Tokens.ofText] at text
  have ending := Tokens.bare_last_ofCursor (ofText (String.ofList (leading ++ (cs ++ trailing))))
  rw [text] at ending
  refine ⟨Tokens.bare_last_ofCursor cursor, again, last', ?_, bare, ending⟩
  rw [Tokens.scan_eq_ok_iff, text]
  exact ⟨again, List.append_nil _, rfl⟩

/-- A comment stands directly behind a name, and a string looks like one. -/
theorem scan_spread_comments :
    let name : Token := ⟨.identifier, "x", ⟨0, 1, 1, 1⟩⟩
    let sign : Token := ⟨.assign, ":=", ⟨1, 3, 1, 2⟩⟩
    let string : Token := ⟨.stringLiteral, "\x7ba\x7d", ⟨3, 8, 1, 4⟩⟩
    let text := "\x7bb\x7d x\x7bc\x7d:=\n'\x7ba\x7d'"
    (ofText "x:='\x7ba\x7d'").scan.1 = .ok
      ([name, sign, string] ++ [⟨.endOfText, "", ⟨8, 8, 1, 9⟩⟩]) ∧
    ∃ again last, (ofText text).scan.1 = .ok (again ++ [last]) ∧
      again.map Token.bare = [name, sign, string].map Token.bare ∧
      last.bare = (.endOfText, "") := by
  intro name sign string text
  have scanned : (ofText "x:='\x7ba\x7d'").scan.1 =
      .ok ([name, sign, string] ++ [⟨.endOfText, "", ⟨8, 8, 1, 9⟩⟩]) := by decide +kernel
  let comment : Gap := ⟨['{', 'c', '}'], .comment (by decide : '}' ∉ ['c']) .none, by decide⟩
  let line : Gap := ⟨['\n'], .blank (by decide) .none, by decide⟩
  have front : IsLayout ['{', 'b', '}', ' '] :=
    .comment (by decide : '}' ∉ ['b']) (.blank (by decide) .none)
  have spread : Spread [name, sign, string]
      (name.written ++ (comment.chars ++ (sign.written ++ (line.chars ++ string.written)))) :=
    .more comment (.more line (.last string))
  have written : text = String.ofList (['{', 'b', '}', ' '] ++
      ((name.written ++ (comment.chars ++ (sign.written ++ (line.chars ++ string.written)))) ++
        [])) := by
    decide +kernel
  refine ⟨scanned, ?_⟩
  rw [written]
  exact (scan_spread scanned front spread .none).2

end Cursor

end SmallPascal
