import SmallPascal.Proofs.Reading
import SmallPascal.Syntax

/-!
The tokens of a text, one after the other: each begins behind the one before it, no identifier is
spelled like the slot of a result, and only the last one is the end of the text.
-/

namespace SmallPascal

/-! ### Spelling -/

lemma Item.kind_of_number {cs : List Char} {kind : Kind} {lexeme : String}
    (h : (Item.number cs).outcome = .ok (kind, lexeme)) :
    kind = .integerLiteral ∨ kind = .realLiteral := by
  unfold Item.number Item.number.integer at h
  dsimp only at h
  split at h
  · split at h
    · cases h
      exact .inr rfl
    · split at h <;> cases h
      exact .inl rfl
  · split at h <;> cases h
    exact .inl rfl

lemma Item.kind_of_string {cs : List Char} {kind : Kind} {lexeme : String}
    (h : (Item.string cs).outcome = .ok (kind, lexeme)) : kind = .stringLiteral := by
  unfold Item.string at h
  dsimp only at h
  split at h <;> cases h
  rfl

lemma Item.lexeme_ne_resultSlot {cs : List Char} {lexeme : String}
    (h : (Item.read cs).outcome = .ok (.identifier, lexeme)) : lexeme ≠ resultSlot := by
  cases cs with
  | nil => simp [Item.read] at h
  | cons c cs =>
    rw [Item.read] at h
    split at h
    next alpha =>
      -- the slot of a result begins with a dollar sign
      intro e
      have spelled : (c :: cs).takeWhile isNamePart = resultSlot.toList := by
        rw [← e, ← (Prod.mk.inj (Except.ok.inj h)).2, String.toList_ofList]
      have part : isNamePart c := by simp [isNamePart, Char.isAlphanum, alpha]
      rw [List.takeWhile_cons_of_pos part] at spelled
      obtain rfl : c = '$' := (List.cons.inj spelled).1
      exact absurd alpha (by decide)
    split at h
    · exact absurd (Item.kind_of_number h) (by decide)
    split at h
    · exact absurd (Item.kind_of_string h) (by decide)
    split at h
    · cases h
    split at h
    next kind found =>
      have marks : Kind.identifier ∉ Kind.marks := by decide
      obtain ⟨rfl, -⟩ := by simpa using h
      exact absurd (List.mem_of_find?_eq_some found) marks
    · cases h

/-! ### Places -/

namespace Cursor

lemma next_eq_ok {cursor : Cursor} {token : Token} (h : .ok token = cursor.next.1) :
    token.span.start = cursor.place.offset + (splitLayout cursor.rest).1.length ∧
      (Item.read (splitLayout cursor.rest).2).outcome = .ok (token.kind, token.lexeme) := by
  simp only [next] at h
  split at h
  next kind lexeme e =>
    cases h
    exact ⟨Position.offset_after _ _, e⟩
  next => cases h

lemma offset_next (cursor : Cursor) :
    cursor.next.2.place.offset = cursor.place.offset + (splitLayout cursor.rest).1.length +
      (Item.read (splitLayout cursor.rest).2).taken.length := by
  simp only [next, Position.offset_after]

end Cursor

namespace Tokens

/-- Tokens stand in the order of the text, and none of them is spelled like the slot of a result. -/
structure Orderly (tokens : Tokens) : Prop where
  order : tokens.items.Pairwise fun a b => ∀ x y, a = .ok x → b = .ok y →
    x.span.start < y.span.start
  names : ∀ token, .ok token ∈ tokens.items → token.kind = .identifier → token.lexeme ≠ resultSlot
  last : tokens.last.kind = .endOfText

lemma place_le_of_mem_ofCursor {cursor : Cursor} {token : Token}
    (h : .ok token ∈ (ofCursor cursor).items) : cursor.place.offset ≤ token.span.start := by
  fun_induction ofCursor cursor with
  | case1 => simp at h
  | case2 cursor some more ih =>
    rcases List.mem_cons.1 h with first | later
    · have := (Cursor.next_eq_ok first).1
      omega
    · have := ih later
      have := cursor.offset_next
      omega

lemma orderly_ofCursor (cursor : Cursor) : (ofCursor cursor).Orderly := by
  fun_induction ofCursor cursor with
  | case1 => exact ⟨.nil, by simp, rfl⟩
  | case2 cursor some more ih =>
    refine ⟨.cons ?_ ih.order, ?_, ih.last⟩
    · rintro item later x y first rfl
      have start := (Cursor.next_eq_ok first.symm).1
      have taken := List.length_pos_iff.2 (Item.taken_ne_nil some)
      have := place_le_of_mem_ofCursor later
      have := cursor.offset_next
      omega
    · intro token among identifier
      rcases List.mem_cons.1 among with first | later
      · have spelled := (Cursor.next_eq_ok first).2
        rw [identifier] at spelled
        exact Item.lexeme_ne_resultSlot spelled
      · exact ih.names token later identifier

/-- **The tokens of a text are in order.** -/
theorem orderly_ofText (text : String) : (ofText text).Orderly := orderly_ofCursor _

end Tokens

/-! ### Reading them -/

namespace Parse

variable {s t u : ParseState}

def orderly : Knowledge where
  holds s := s.tokens.Orderly
  stays h on := ⟨h.order.sublist on.items.sublist, fun token among => h.names token (on.mem among),
    on.last ▸ h.last⟩

/-- All tokens that are left begin behind the place. -/
def Ahead (place : Nat) (s : ParseState) : Prop :=
  ∀ token, .ok token ∈ s.tokens.items → place < token.span.start

lemma Ahead.stays {place : Nat} (h : Ahead place s) (on : ReadsOn s t) : Ahead place t :=
  fun token among => h token (on.mem among)

lemma ahead_of_items {token : Token} (h : s.tokens.Orderly)
    (items : s.tokens.items = .ok token :: t.tokens.items) :
    .ok token ∈ s.tokens.items ∧ Ahead token.span.start t := by
  have order := h.order
  rw [items] at order ⊢
  have first := (List.pairwise_cons.1 order).1
  exact ⟨List.mem_cons_self, fun later among => first _ among _ _ rfl rfl⟩

lemma next_ahead {token : Token} (h : s.tokens.Orderly) (more : t.tokens.items ≠ [])
    (e : next s = (.ok token, t)) : .ok token ∈ s.tokens.items ∧ Ahead token.span.start t := by
  obtain ⟨on, ⟨-, none⟩ | items⟩ := next_eq_ok e
  · exact absurd (List.suffix_nil.1 (none ▸ on.items)) more
  · exact ahead_of_items h items

/-- A token that is read, and is not the end of the text, stands before all that are left. -/
lemma expect_ahead {kind : Kind} {token : Token} (h : s.tokens.Orderly) (notEnd : kind ≠ .endOfText)
    (e : expect kind s = (.ok token, t)) :
    .ok token ∈ s.tokens.items ∧ Ahead token.span.start t := by
  obtain ⟨is, e⟩ := expect_eq_ok e
  rcases (next_eq_ok e).2 with ⟨rfl, -⟩ | items
  · exact absurd (is.symm.trans h.last) notEnd
  · exact ahead_of_items h items

lemma reads_identifier :
    Reads orderly (fun token => token.lexeme ≠ resultSlot) (expect .identifier) := by
  intro s token t h e
  have among := (expect_ahead h (by decide) e).1
  have identifier := (expect_eq_ok e).1
  exact ⟨readsOn_expect e, h.names token among identifier⟩

end Parse

end SmallPascal
