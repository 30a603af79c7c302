import Mathlib.Data.List.Induction
import SmallPascal.Proofs.Scanning

/-! Lines and columns, and spans that are true to a text. The tokens of a text stand one behind the
other, each at the place that its span says, and the last one at the end of the text. -/

namespace SmallPascal

/-! ### Lines and columns -/

/-- The line of a character: one more than the line feeds before it. -/
def lineAt (cs : List Char) (offset : Nat) : Nat := (cs.take offset).count '\n' + 1

/-- The column of a character: one more than the characters before it on its line. -/
def columnAt (cs : List Char) (offset : Nat) : Nat :=
  ((cs.take offset).reverse.takeWhile (· != '\n')).length + 1

lemma Position.after_start (cs : List Char) :
    start.after cs = ⟨cs.length, lineAt cs cs.length, columnAt cs cs.length⟩ := by
  unfold lineAt columnAt
  rw [List.take_length]
  induction cs using List.reverseRecOn with
  | nil => rfl
  | append_singleton cs c ih =>
    rw [after_append, ih, after_cons, after_nil, step]
    split
    next feed => subst feed; simp
    next other => simp [other]

/-! ### Spans -/

namespace Span

/-- The span lies in the text, and its line and column are those of its first character. -/
structure Faithful (cs : List Char) (span : Span) : Prop where
  order : span.start ≤ span.stop
  bound : span.stop ≤ cs.length
  line : span.line = lineAt cs span.start
  column : span.column = columnAt cs span.start

structure Covers (outer inner : Span) : Prop where
  start : outer.start ≤ inner.start
  stop : inner.stop ≤ outer.stop

variable {cs : List Char} {s t : Span}

lemma faithful_between (before taken rest : List Char) :
    (between (.after .start before) (.after .start (before ++ taken))).Faithful
      (before ++ taken ++ rest) := by
  have take : (before ++ taken ++ rest).take before.length = before := by simp
  simp only [Position.after_start, between]
  refine ⟨by simp, by simp, ?_, ?_⟩
  · unfold lineAt
    rw [take, List.take_length]
  · unfold columnAt
    rw [take, List.take_length]

lemma Faithful.through (h : s.Faithful cs) (h' : t.Faithful cs) : (s.through t).Faithful cs :=
  ⟨Nat.le_trans h.order (stop_le_stop_through s t), Nat.max_le.2 ⟨h'.bound, h.bound⟩,
    h.line, h.column⟩

end Span

/-! ### Tokens -/

/-- The place of a token or of what was found instead of one. -/
def placeOf : Except Diagnostic Token → Span
  | .ok token => token.span
  | .error d => d.span

namespace Cursor

/-- The cursor stands in the text where its place says. -/
def Within (cs : List Char) (cursor : Cursor) : Prop :=
  ∃ before, before ++ cursor.rest = cs ∧ cursor.place = .after .start before

variable {cs : List Char} {cursor : Cursor}

lemma within_ofText (text : String) : (ofText text).Within text.toList := ⟨[], rfl, rfl⟩

/-- A reading is placed where its characters are, and leaves the cursor behind them. -/
lemma Within.next (h : cursor.Within cs) : (placeOf cursor.next.1).Faithful cs ∧
    cursor.place.offset ≤ (placeOf cursor.next.1).start ∧
    (placeOf cursor.next.1).stop = cursor.next.2.place.offset ∧ cursor.next.2.Within cs := by
  obtain ⟨before, whole, place⟩ := h
  have layout := splitLayout_append cursor.rest
  have item := Item.read_append (splitLayout cursor.rest).2
  generalize e : splitLayout cursor.rest = parts at layout item
  obtain ⟨skipped, rest⟩ := parts
  have begins : cursor.place.after skipped = .after .start (before ++ skipped) := by
    rw [place, Position.after_append]
  have ends : (cursor.place.after skipped).after (Item.read rest).taken =
      .after .start (before ++ skipped ++ (Item.read rest).taken) := by
    rw [begins, ← Position.after_append]
  have text : before ++ skipped ++ (Item.read rest).taken ++ (Item.read rest).rest = cs := by
    rw [← whole, ← layout, List.append_assoc, item]
    simp
  have placed : placeOf cursor.next.1 = .between (.after .start (before ++ skipped))
      (.after .start (before ++ skipped ++ (Item.read rest).taken)) := by
    unfold Cursor.next
    rw [e, ← ends, ← begins]
    dsimp only
    split <;> rfl
  have behind : cursor.next.2 = ⟨(Item.read rest).rest,
      .after .start (before ++ skipped ++ (Item.read rest).taken)⟩ := by
    unfold Cursor.next
    rw [e, ← ends]
  rw [placed, behind]
  refine ⟨?_, ?_, rfl, _, text, rfl⟩
  · rw [← text]
    exact Span.faithful_between _ _ _
  · rw [place]
    simp [Span.between]

end Cursor

namespace Tokens

/-- The places of all that is left to read, the end of the text included. -/
def spans (tokens : Tokens) : List Span := tokens.items.map placeOf ++ [tokens.last.span]

def ahead (tokens : Tokens) : Span := placeOf tokens.peek

/-- The tokens are placed in the text one behind the other, and the end of the text comes last. -/
structure Faithful (cs : List Char) (tokens : Tokens) : Prop where
  spans : ∀ span ∈ tokens.spans, span.Faithful cs
  order : tokens.spans.Pairwise fun a b => a.stop ≤ b.start
  inner : ∀ token, .ok token ∈ tokens.items → token.kind ≠ .endOfText
  last : tokens.last.kind = .endOfText
  start : tokens.last.span.start = cs.length
  stop : tokens.last.span.stop = cs.length

variable {cs : List Char} {tokens : Tokens}

lemma spans_eq (tokens : Tokens) :
    tokens.items = [] ∧ tokens.spans = [tokens.ahead] ∧ tokens.ahead = tokens.last.span ∨
      tokens.spans = tokens.ahead :: tokens.tail.spans := by
  rcases tokens with ⟨_ | ⟨item, items⟩, last⟩
  · exact .inl ⟨rfl, rfl, rfl⟩
  · exact .inr rfl

lemma faithful_ofCursor (cursor : Cursor) (h : cursor.Within cs) :
    (ofCursor cursor).Faithful cs ∧ ∀ span ∈ (ofCursor cursor).spans,
      cursor.place.offset ≤ span.start := by
  fun_induction ofCursor cursor with
  | case1 cursor blank place =>
    obtain ⟨before, whole, start⟩ := h
    have layout := splitLayout_append cursor.rest
    rw [blank, List.append_nil] at layout
    have text : before ++ (splitLayout cursor.rest).1 = cs := by rw [layout, whole]
    have ending : place = .after .start cs := by
      rw [← text, Position.after_append, ← start]
    have length : place.offset = cs.length := by rw [ending, Position.after_start]
    have faithful : (Span.between place place).Faithful cs := by
      rw [ending]
      simpa using Span.faithful_between cs [] []
    refine ⟨⟨?_, List.pairwise_singleton _ _, by simp, rfl, length, length⟩, ?_⟩
    · exact List.forall_mem_singleton.2 faithful
    · refine List.forall_mem_singleton.2 ?_
      change cursor.place.offset ≤ place.offset
      rw [length, start, Position.after_start, ← whole]
      simp
  | case2 cursor some more ih =>
    obtain ⟨faithful, start, stop, within⟩ := h.next
    obtain ⟨others, behind⟩ := ih within
    have spans : Tokens.spans { more with items := cursor.next.1 :: more.items } =
        placeOf cursor.next.1 :: more.spans := rfl
    have order : (placeOf cursor.next.1).start ≤ cursor.next.2.place.offset := by
      rw [← stop]
      exact faithful.order
    refine ⟨⟨?_, ?_, ?_, others.last, others.start, others.stop⟩, ?_⟩
    · rw [spans]
      exact List.forall_mem_cons.2 ⟨faithful, others.spans⟩
    · rw [spans]
      exact List.pairwise_cons.2 ⟨fun span among => stop ▸ behind span among, others.order⟩
    · intro token among
      rcases List.mem_cons.1 among with first | later
      · exact Item.kind_ne_endOfText some (Cursor.next_eq_ok first).2
      · exact others.inner token later
    · rw [spans]
      refine List.forall_mem_cons.2 ⟨start, fun span among => ?_⟩
      exact Nat.le_trans start (Nat.le_trans order (behind span among))

theorem faithful_ofText (text : String) : (ofText text).Faithful text.toList :=
  (faithful_ofCursor _ (Cursor.within_ofText text)).1

end Tokens

end SmallPascal
