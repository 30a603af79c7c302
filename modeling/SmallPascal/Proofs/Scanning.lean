import SmallPascal.Proofs.TokenOrder

/-!
Scanning a text at once, and reading its tokens one at a time, come to the same: the scan succeeds
if no item of the text is a fault, and then has all of them and the end of the text.
-/

namespace SmallPascal

/-! ### The end of the text -/

lemma Kind.ofName_ne {kind : Kind} (h : kind ∉ .identifier :: reserved) (name : String) :
    Kind.ofName name ≠ kind := by
  rintro rfl
  unfold Kind.ofName at h
  rcases found : reserved.find? _ with _ | word <;> rw [found] at h
  · exact h List.mem_cons_self
  · exact h (List.mem_cons_of_mem _ (List.mem_of_find?_eq_some found))

lemma Item.kind_ne_endOfText {cs : List Char} (some : cs ≠ []) {kind : Kind} {lexeme : String}
    (h : (Item.read cs).outcome = .ok (kind, lexeme)) : kind ≠ .endOfText := by
  rintro rfl
  cases cs with
  | nil => exact some rfl
  | cons c cs =>
    rw [Item.read] at h
    split at h
    · exact Kind.ofName_ne (by decide) _ (Prod.mk.inj (Except.ok.inj h)).1
    split at h
    · exact absurd (Item.kind_of_number h) (by decide)
    split at h
    · exact absurd (Item.kind_of_string h) (by decide)
    split at h
    · cases h
    split at h
    next kind found =>
      have marks : Kind.endOfText ∉ Kind.marks := by decide
      obtain ⟨rfl, -⟩ := by simpa using h
      exact marks (List.mem_of_find?_eq_some found)
    · cases h

namespace Tokens

lemma kind_ne_of_mem_ofCursor {cursor : Cursor} {token : Token}
    (h : .ok token ∈ (ofCursor cursor).items) : token.kind ≠ .endOfText := by
  fun_induction ofCursor cursor with
  | case1 => simp at h
  | case2 cursor some more ih =>
    rcases List.mem_cons.1 h with first | later
    · exact Item.kind_ne_endOfText some (Cursor.next_eq_ok first).2
    · exact ih later

/-! ### All tokens -/

lemma scan_fst (cursor : Cursor) : cursor.scan.1 =
    match cursor.next with
    | (.error diagnostic, _) => .error diagnostic
    | (.ok token, behind) =>
      if token.kind = .endOfText then .ok [token] else behind.scan.1.map (token :: ·) := by
  rw [Cursor.scan]
  split
  next e => rw [e]
  next e =>
    rw [e]
    dsimp only
    split <;> rfl

/-- **What a scan of all tokens finds**, if it finds no fault, is what can be read one at a time. -/
theorem scan_eq_ok_iff {cursor : Cursor} {tokens : List Token} :
    cursor.scan.1 = .ok tokens ↔ ∃ items, (ofCursor cursor).items = items.map .ok ∧
      tokens = items ++ [(ofCursor cursor).last] := by
  fun_induction ofCursor cursor generalizing tokens with
  | case1 cursor none =>
    -- the only item is the end of the text
    have read : cursor.next = (.ok (ofCursor cursor).last, cursor.next.2) := by
      rw [ofCursor, dif_pos none]
      simp only [Cursor.next, none]
      rfl
    have last := (orderly_ofCursor cursor).last
    rw [ofCursor, dif_pos none] at read last
    rw [scan_fst, read]
    dsimp only
    rw [if_pos last]
    constructor
    · rintro ⟨⟩
      exact ⟨[], rfl, rfl⟩
    · rintro ⟨items, none, rfl⟩
      obtain rfl := List.map_eq_nil_iff.1 none.symm
      rfl
  | case2 cursor some more =>
    rename_i ih
    rw [scan_fst]
    change _ ↔ ∃ items, cursor.next.1 :: (ofCursor cursor.next.2).items = items.map .ok ∧
      tokens = items ++ [(ofCursor cursor.next.2).last]
    have token := @Cursor.next_eq_ok cursor
    rcases read : cursor.next with ⟨diagnostic | first, behind⟩ <;>
      rw [read] at ih token <;> dsimp only
    · constructor
      · intro scanned
        cases scanned
      · rintro ⟨items, found, -⟩
        cases items <;> cases found
    · rw [if_neg (Item.kind_ne_endOfText some (token rfl).2)]
      constructor
      · intro scanned
        rcases rest : behind.scan.1 with _ | found <;> rw [rest] at scanned <;> cases scanned
        obtain ⟨items, left, rfl⟩ := ih.1 rest
        exact ⟨first :: items, congrArg _ left, rfl⟩
      · rintro ⟨_ | ⟨token, items⟩, found, rfl⟩
        · cases found
        · obtain ⟨same, left⟩ := List.cons.inj found
          obtain rfl := Except.ok.inj same
          rw [ih.2 ⟨items, left, rfl⟩]
          rfl

end Tokens

end SmallPascal
