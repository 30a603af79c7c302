import SmallPascal.Proofs.LongestMatch

/-! The tokens of a text tile it: each covers its own characters, and what stands between two of
them is layout. A cursor is at the line and the column that the text has there. -/

namespace SmallPascal

/-- The tokens `items` and the end of the text `last` stand one behind the other in the text from
the character `front` on, and only layout is left outside them. -/
structure Tiling (cs : List Char) (front : Nat) (items : List Token) (last : Token) : Prop where
  order : (items ++ [last]).Pairwise fun a b =>
    a.span.start < b.span.start ∧ a.span.stop ≤ b.span.start
  places : ∀ token ∈ items ++ [last], token.span.Faithful cs
  slices : ∀ token ∈ items ++ [last], token.written = cs.extract token.span.start token.span.stop
  some : ∀ token ∈ items, token.kind ≠ .endOfText ∧ token.span.start < token.span.stop
  ending : last.kind = .endOfText ∧ last.lexeme = "" ∧ last.span.start = cs.length ∧
    last.span.stop = cs.length
  gaps : ∀ gap ∈ (front :: items.map (·.span.stop)).zip ((items ++ [last]).map (·.span.start)),
    IsLayout (cs.extract gap.1 gap.2)

lemma extract_middle (before middle after : List Char) :
    (before ++ (middle ++ after)).extract before.length (before ++ middle).length = middle := by
  simp [List.extract_eq_take_drop]

lemma Tokens.mem_spans {tokens : Tokens} {items : List Token} {token : Token}
    (all : tokens.items = items.map .ok) (among : token ∈ items ++ [tokens.last]) :
    token.span ∈ tokens.spans := by
  have spans : tokens.spans = (items ++ [tokens.last]).map (·.span) := by
    simp [Tokens.spans, all, placeOf]
  rw [spans]
  exact List.mem_map_of_mem among

namespace Cursor

variable {text : String} {cs : List Char} {cursor : Cursor}

lemma Within.tile (h : cursor.Within cs) {token : Token} (read : cursor.next.1 = .ok token)
    (inner : token.kind ≠ .endOfText) :
    IsLayout (cs.extract cursor.place.offset token.span.start) ∧
      token.written = cs.extract token.span.start token.span.stop ∧
      token.span.start < token.span.stop := by
  obtain ⟨before, skipped, rest, rfl, offset, -, layout, -, reads⟩ := h.reads
  have more : rest ≠ [] := by
    intro none
    obtain ⟨last, read', ending, -⟩ := reads.ending none
    rw [read] at read'
    cases read'
    exact inner ending
  obtain ⟨longest, rfl, start, stop⟩ := reads.token token read more
  have taken := List.length_pos_iff.2 longest.spells.ne_nil
  refine ⟨?_, ?_, by omega⟩
  · rwa [offset, start, extract_middle]
  · rw [start, stop, ← List.append_assoc, ← List.length_append, extract_middle]

lemma Within.layout_of_last (h : cursor.Within cs) (none : (splitLayout cursor.rest).2 = []) :
    IsLayout (cs.extract cursor.place.offset cs.length) := by
  obtain ⟨before, rfl, place⟩ := h
  have skipped := splitLayout_append cursor.rest
  rw [none, List.append_nil] at skipped
  have layout := isLayout_splitLayout cursor.rest
  rw [skipped] at layout
  rw [place, Position.after_start]
  simpa [List.extract_eq_take_drop] using layout

lemma tiling_ofCursor (h : cursor.Within cs) {items : List Token}
    (all : (Tokens.ofCursor cursor).items = items.map .ok) :
    Tiling cs cursor.place.offset items (Tokens.ofCursor cursor).last := by
  have whole := (Tokens.faithful_ofCursor cursor h).1
  fun_induction Tokens.ofCursor cursor generalizing items with
  | case1 cursor none place =>
    obtain rfl := List.map_eq_nil_iff.1 all.symm
    have layout := h.layout_of_last none
    have start : place.offset = cs.length := whole.start
    refine ⟨List.pairwise_singleton _ _, ?_, ?_, by simp, ⟨rfl, rfl, whole.start, whole.stop⟩, ?_⟩
    · exact List.forall_mem_singleton.2 (List.forall_mem_singleton.1 whole.spans)
    · refine List.forall_mem_singleton.2 ?_
      simp [Token.written, Kind.written, Span.between, List.extract_eq_take_drop]
    · simpa [Span.between, start] using layout
  | case2 cursor some more ih =>
    obtain ⟨token, others, rfl, read, left⟩ := List.map_eq_cons_iff.1 all.symm
    have inner := whole.inner token (read ▸ List.mem_cons_self)
    have within := h.next.2.2.2
    obtain ⟨layout, slice, wide⟩ := h.tile read.symm inner
    obtain ⟨faithful, -, stop, -⟩ := h.next
    rw [← read] at faithful stop
    have rest := ih within left.symm (Tokens.faithful_ofCursor _ within).1
    have behind : ∀ later ∈ others ++ [more.last], token.span.stop ≤ later.span.start := by
      intro later among
      have order := (List.pairwise_cons.1 whole.order).1 later.span
      rw [← read] at order
      exact order (Tokens.mem_spans left.symm among)
    refine ⟨?_, ?_, ?_, ?_, rest.ending, ?_⟩
    · refine List.pairwise_cons.2 ⟨fun later among => ?_, rest.order⟩
      exact ⟨Nat.lt_of_lt_of_le wide (behind later among), behind later among⟩
    · exact List.forall_mem_cons.2 ⟨faithful, rest.places⟩
    · exact List.forall_mem_cons.2 ⟨slice, rest.slices⟩
    · exact List.forall_mem_cons.2 ⟨⟨inner, wide⟩, rest.some⟩
    · -- the tiling of the rest begins where this token stops
      rw [← stop] at rest
      exact List.forall_mem_cons.2 ⟨layout, rest.gaps⟩

/-- **The tokens of a text tile it.** They are not empty and stand one behind the other up to the
end of the text, each is written where its span says, and only blanks and closed comments are left
between them. And wherever requests to a cursor lead, failed ones included, what is left of the text
stands at the cursor's offset, and the cursor's line and column are those of the text there. -/
theorem tokens_tile (text : String) :
    (∀ tokens, (ofText text).scan.1 = .ok tokens →
      ∃ items last, tokens = items ++ [last] ∧ Tiling text.toList 0 items last) ∧
    ∀ cursor : Cursor, cursor.Reached text →
      cursor.place.offset ≤ text.toList.length ∧
      cursor.rest = text.toList.drop cursor.place.offset ∧
      cursor.place.line = lineAt text.toList cursor.place.offset ∧
      cursor.place.column = columnAt text.toList cursor.place.offset := by
  constructor
  · intro tokens scanned
    obtain ⟨items, all, rfl⟩ := Tokens.scan_eq_ok_iff.1 scanned
    exact ⟨items, _, rfl, tiling_ofCursor (within_ofText text) all⟩
  · intro cursor reached
    obtain ⟨before, whole, place⟩ := reached.within
    rw [place, Position.after_start, ← whole]
    simp [lineAt, columnAt]

/-- A comment and a string run over lines, and the string is not what was expected. -/
theorem tokens_tile_lines :
    let text := "\x7ba\nb\x7d 'c\nd'x"
    let cursor := ((ofText text).expect .comma).2
    (∃ items last, (ofText text).scan.1 = .ok (items ++ [last]) ∧ Tiling text.toList 0 items last) ∧
    cursor.Reached text ∧ cursor.place = ⟨11, 3, 3⟩ ∧ cursor.rest = text.toList.drop 11 ∧
    3 = lineAt text.toList 11 ∧ 3 = columnAt text.toList 11 := by
  intro text cursor
  have reached : cursor.Reached text := .behind (.expect .comma) .start
  have place : cursor.place = ⟨11, 3, 3⟩ := by decide +kernel
  obtain ⟨tiled, placed⟩ := tokens_tile text
  obtain ⟨-, rest, line, column⟩ := placed cursor reached
  rw [place] at rest line column
  refine ⟨?_, reached, place, rest, line, column⟩
  have scanned : (ofText text).scan.1.toOption.isSome := by decide +kernel
  rcases found : (ofText text).scan.1 with d | tokens <;> rw [found] at scanned
  · cases scanned
  · obtain ⟨items, last, rfl, tiling⟩ := tiled tokens found
    exact ⟨items, last, rfl, tiling⟩

end Cursor

end SmallPascal
