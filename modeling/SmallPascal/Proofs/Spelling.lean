import Mathlib.Data.List.Infix
import SmallPascal.Proofs.Places

/-! Layout and the spellings of tokens, described without a scanner. A text may begin with more than
one word of either; what a scanner cuts off as layout is the longest. -/

namespace SmallPascal

/-! ### Layout -/

inductive IsLayout : List Char → Prop
  | none : IsLayout []
  | blank {c : Char} {cs : List Char} : c ∈ [' ', '\t', '\r', '\n'] → IsLayout cs →
    IsLayout (c :: cs)
  | comment {content cs : List Char} : '}' ∉ content → IsLayout cs →
    IsLayout ('{' :: (content ++ '}' :: cs))

lemma isBlank_iff {c : Char} : isBlank c ↔ c ∈ [' ', '\t', '\r', '\n'] := by
  simp [isBlank, or_assoc]

lemma splitComment_of_closed {content : List Char} (inside : '}' ∉ content) (cs : List Char) :
    splitComment (content ++ '}' :: cs) =
      some (content ++ '}' :: (splitLayout cs).1, (splitLayout cs).2) := by
  induction content with
  | nil => simp [splitComment]
  | cons c content ih =>
    simp only [List.mem_cons, not_or] at inside
    rw [List.cons_append, splitComment, if_neg (Ne.symm inside.1), ih inside.2]
    rfl

lemma splitComment_of_open {cs : List Char} (inside : '}' ∉ cs) : splitComment cs = none := by
  induction cs with
  | nil => simp [splitComment]
  | cons c cs ih =>
    simp only [List.mem_cons, not_or] at inside
    rw [splitComment, if_neg (Ne.symm inside.1), ih inside.2]

/-- Layout in front of a text is cut off together with what the text begins with. -/
lemma IsLayout.split {layout : List Char} (h : IsLayout layout) (cs : List Char) :
    splitLayout (layout ++ cs) = (layout ++ (splitLayout cs).1, (splitLayout cs).2) := by
  induction h with
  | none => rfl
  | blank blank _ ih => simp [splitLayout, isBlank_iff.2 blank, ih]
  | comment inside _ ih =>
    have brace : isBlank '{' = false := by decide
    simp [splitLayout, brace, splitComment_of_closed inside, ih]

lemma isLayout_splitLayout (cs : List Char) : IsLayout (splitLayout cs).1 := by
  -- a comment is skipped at once, so that the induction is on the length
  induction length : cs.length using Nat.strongRecOn generalizing cs with
  | ind n ih =>
    subst length
    cases cs with
    | nil =>
      rw [splitLayout]
      exact .none
    | cons c cs =>
      rw [splitLayout]
      split
      next blank => exact .blank (isBlank_iff.1 blank) (ih cs.length (by simp) cs rfl)
      split
      next opens =>
        subst opens
        by_cases closes : '}' ∈ cs
        · obtain ⟨content, more, rfl, inside⟩ := List.eq_append_cons_of_mem closes
          have rest := ih more.length (by simp; omega) more rfl
          rw [splitComment_of_closed inside]
          exact .comment inside rest
        · rw [splitComment_of_open closes]
          exact .none
      · exact .none

lemma IsLayout.length_le {layout cs : List Char} (h : IsLayout layout) (begins : layout <+: cs) :
    layout.length ≤ (splitLayout cs).1.length := by
  obtain ⟨rest, rfl⟩ := begins
  simp [h.split]

def Bare (cs : List Char) : Prop := (splitLayout cs).1 = []

lemma bare_splitLayout (cs : List Char) : Bare (splitLayout cs).2 := by
  have again := (isLayout_splitLayout cs).split (splitLayout cs).2
  rw [splitLayout_append] at again
  have parts := congrArg Prod.fst again
  simpa [Bare] using parts

lemma Bare.head {c : Char} {cs : List Char} (h : Bare (c :: cs)) :
    ¬ isBlank c ∧ (c = '{' → '}' ∉ cs) := by
  constructor
  · intro blank
    simp [Bare, splitLayout, blank] at h
  · rintro rfl closes
    obtain ⟨content, more, rfl, inside⟩ := List.eq_append_cons_of_mem closes
    have brace : isBlank '{' = false := by decide
    simp [Bare, splitLayout, brace, splitComment_of_closed inside] at h

/-! ### Spellings -/

namespace Kind

inductive Spells : Kind → List Char → Prop
  | mark {kind : Kind} : kind ∈ marks → Spells kind kind.letters
  | string {content : List Char} :
    '\'' ∉ content → Spells .stringLiteral ('\'' :: (content ++ ['\'']))
  | integer {whole : List Char} : whole ≠ [] →
    (∀ d ∈ whole, d.isDigit) → Spells .integerLiteral whole
  | real {whole fraction : List Char} : whole ≠ [] → (∀ d ∈ whole, d.isDigit) → fraction ≠ [] →
    (∀ d ∈ fraction, d.isDigit) → Spells .realLiteral (whole ++ '.' :: fraction)
  | word {kind : Kind} : kind ∈ reserved → Spells kind kind.letters
  | name {c : Char} {cs : List Char} : c.isAlpha → (∀ d ∈ cs, d.isAlpha ∨ d.isDigit ∨ d = '_') →
    (∀ kind ∈ reserved, kind.letters ≠ c :: cs) → Spells .identifier (c :: cs)

/-- The text begins with a spelling of the kind, and with no longer spelling of any kind. -/
structure Longest (kind : Kind) (taken cs : List Char) : Prop where
  spells : kind.Spells taken
  begins : taken <+: cs
  longest : ∀ other longer, Spells other longer → longer <+: cs → longer.length ≤ taken.length

lemma isNamePart_iff {c : Char} : isNamePart c ↔ c.isAlpha ∨ c.isDigit ∨ c = '_' := by
  simp [isNamePart, Char.isAlphanum, or_assoc]

lemma plain_of_mem_marks : ∀ kind ∈ marks, kind.letters ≠ [] ∧ ∀ c ∈ kind.letters,
    ¬ isNamePart c ∧ c ≠ '\'' ∧ ¬ isBlank c ∧ c ≠ '{' := by
  have all : ∀ kind ∈ marks, kind.letters ≠ [] ∧ kind.letters.all fun c =>
      !isNamePart c && c != '\'' && !isBlank c && c != '{' := by decide
  intro kind listed
  obtain ⟨some, plain⟩ := all kind listed
  refine ⟨some, fun c among => ?_⟩
  simpa [and_assoc] using List.all_eq_true.1 plain c among

lemma isAlpha_of_mem_reserved : ∀ kind ∈ reserved, kind.letters ≠ [] ∧
    ∀ c ∈ kind.letters, c.isAlpha := by
  have all : ∀ kind ∈ reserved, kind.letters ≠ [] ∧ kind.letters.all Char.isAlpha := by decide
  exact fun kind listed => (all kind listed).imp_right List.all_eq_true.1

lemma eq_of_letters_eq :
    ∀ kind ∈ marks, ∀ other ∈ marks, kind.letters = other.letters → kind = other := by decide

lemma not_isDigit_of_isAlpha {c : Char} (alpha : c.isAlpha) : ¬ c.isDigit := by
  change (decide ('A'.val ≤ c.val ∧ c.val ≤ 'Z'.val) ||
    (decide ('a'.val ≤ c.val) && decide (c.val ≤ 'z'.val))) = true at alpha
  change ¬ (decide ('0'.val ≤ c.val) && decide (c.val ≤ '9'.val)) = true
  simp only [Bool.or_eq_true, Bool.and_eq_true, decide_eq_true_eq, UInt32.le_iff_toNat_le]
    at alpha ⊢
  have : 'A'.val.toNat = 65 := rfl
  have : 'a'.val.toNat = 97 := rfl
  have : '9'.val.toNat = 57 := rfl
  omega

lemma ofName_of_mem_reserved :
    ∀ kind ∈ reserved, ofName (String.ofList kind.letters) = kind := by decide

lemma letters_eq_of_spelling {kind : Kind} {cs : List Char}
    (h : kind.spelling? = some (String.ofList cs)) : kind.letters = cs := by
  simp [letters, h]

lemma ofName_of_forall_ne {cs : List Char} (other : ∀ kind ∈ reserved, kind.letters ≠ cs) :
    ofName (String.ofList cs) = .identifier := by
  have none : reserved.find? (·.spelling? == some (String.ofList cs)) = none := by
    refine List.find?_eq_none.2 fun kind listed spelled => other kind listed ?_
    exact letters_eq_of_spelling (eq_of_beq spelled)
  rw [ofName, none]
  rfl

namespace Spells

variable {kind other : Kind} {c : Char} {cs : List Char}

lemma ne_nil (h : kind.Spells cs) : cs ≠ [] := by
  cases h with
  | mark listed => exact (plain_of_mem_marks _ listed).1
  | word listed => exact (isAlpha_of_mem_reserved _ listed).1
  | integer some => exact some
  | real some => simp
  | string | name => simp

lemma digits (h : Spells .integerLiteral cs) : ∀ d ∈ cs, d.isDigit := by
  generalize e : Kind.integerLiteral = kind at h
  cases h with
  | integer _ digits => exact digits
  | mark listed => exact absurd (e ▸ listed) (by decide)
  | word listed => exact absurd (e ▸ listed) (by decide)
  | _ => cases e

lemma letters (h : kind.Spells cs) (listed : kind ∈ reserved) : cs = kind.letters := by
  cases h with
  | mark | word => rfl
  | _ => exact absurd listed (by decide)

lemma of_isAlpha (h : kind.Spells (c :: cs)) (alpha : c.isAlpha) :
    kind = ofName (String.ofList (c :: cs)) ∧ ∀ d ∈ c :: cs, isNamePart d := by
  generalize e : c :: cs = word at h
  cases h with
  | mark listed =>
    have first := (plain_of_mem_marks _ listed).2 c (e ▸ List.mem_cons_self)
    exact absurd (isNamePart_iff.2 (.inl alpha)) first.1
  | string =>
    obtain rfl := (List.cons.inj e).1
    exact absurd alpha (by decide)
  | integer _ digits =>
    exact absurd (digits c (e ▸ List.mem_cons_self)) (not_isDigit_of_isAlpha alpha)
  | real some digits =>
    obtain ⟨d, more, rfl⟩ := List.exists_cons_of_ne_nil some
    obtain rfl := (List.cons.inj e).1
    exact absurd (digits c List.mem_cons_self) (not_isDigit_of_isAlpha alpha)
  | word listed =>
    have letters := (isAlpha_of_mem_reserved _ listed).2
    exact ⟨(ofName_of_mem_reserved _ listed).symm, fun d among =>
      isNamePart_iff.2 (.inl (letters d among))⟩
  | name first parts other =>
    refine ⟨(ofName_of_forall_ne other).symm, List.forall_mem_cons.2 ⟨?_, fun d among => ?_⟩⟩
    · exact isNamePart_iff.2 (.inl first)
    · exact isNamePart_iff.2 (parts d among)

lemma of_isDigit (h : kind.Spells (c :: cs)) (digit : c.isDigit) :
    (kind = .integerLiteral ∧ ∀ d ∈ c :: cs, d.isDigit) ∨
    kind = .realLiteral ∧ ∃ whole fraction, c :: cs = whole ++ '.' :: fraction ∧ fraction ≠ [] ∧
      (∀ d ∈ whole, d.isDigit) ∧ ∀ d ∈ fraction, d.isDigit := by
  generalize e : c :: cs = word at h
  cases h with
  | mark listed =>
    have first := (plain_of_mem_marks _ listed).2 c (e ▸ List.mem_cons_self)
    exact absurd (isNamePart_iff.2 (.inr (.inl digit))) first.1
  | string =>
    obtain rfl := (List.cons.inj e).1
    exact absurd digit (by decide)
  | integer _ digits => exact .inl ⟨rfl, digits⟩
  | real _ whole some fraction => exact .inr ⟨rfl, _, _, rfl, some, whole, fraction⟩
  | word listed =>
    have first := (isAlpha_of_mem_reserved _ listed).2 c (e ▸ List.mem_cons_self)
    exact absurd digit (not_isDigit_of_isAlpha first)
  | name first =>
    obtain rfl := (List.cons.inj e).1
    exact absurd digit (not_isDigit_of_isAlpha first)

lemma of_quote (h : kind.Spells ('\'' :: cs)) :
    kind = .stringLiteral ∧ ∃ content, '\'' ∉ content ∧ cs = content ++ ['\''] := by
  generalize e : '\'' :: cs = word at h
  cases h with
  | mark listed =>
    have first := (plain_of_mem_marks _ listed).2 '\'' (e ▸ List.mem_cons_self)
    exact absurd rfl first.2.1
  | string inside => exact ⟨rfl, _, inside, (List.cons.inj e).2⟩
  | integer _ digits =>
    have first := digits '\'' (e ▸ List.mem_cons_self)
    exact absurd first (by decide)
  | real some digits =>
    obtain ⟨d, more, rfl⟩ := List.exists_cons_of_ne_nil some
    obtain rfl := (List.cons.inj e).1
    exact absurd (digits _ List.mem_cons_self) (by decide)
  | word listed =>
    have first := (isAlpha_of_mem_reserved _ listed).2 '\'' (e ▸ List.mem_cons_self)
    exact absurd first (by decide)
  | name first =>
    obtain rfl := (List.cons.inj e).1
    exact absurd first (by decide)

lemma of_other (h : kind.Spells (c :: cs)) (alpha : ¬ c.isAlpha) (digit : ¬ c.isDigit)
    (quote : c ≠ '\'') : kind ∈ marks ∧ kind.letters = c :: cs := by
  generalize e : c :: cs = word at h
  cases h with
  | mark listed => exact ⟨listed, rfl⟩
  | string => exact absurd (List.cons.inj e).1 quote
  | integer _ digits => exact absurd (digits c (e ▸ List.mem_cons_self)) digit
  | real some digits =>
    obtain ⟨d, more, rfl⟩ := List.exists_cons_of_ne_nil some
    obtain rfl := (List.cons.inj e).1
    exact absurd (digits c List.mem_cons_self) digit
  | word listed =>
    exact absurd ((isAlpha_of_mem_reserved _ listed).2 c (e ▸ List.mem_cons_self)) alpha
  | name first =>
    obtain rfl := (List.cons.inj e).1
    exact absurd first alpha

lemma unique (h : kind.Spells cs) (h' : other.Spells cs) : kind = other := by
  obtain ⟨c, cs, rfl⟩ := List.exists_cons_of_ne_nil h.ne_nil
  by_cases alpha : c.isAlpha
  · exact (h.of_isAlpha alpha).1.trans (h'.of_isAlpha alpha).1.symm
  by_cases digit : c.isDigit
  · have point {whole fraction : List Char} (e : c :: cs = whole ++ '.' :: fraction) :
        ¬ ∀ d ∈ c :: cs, d.isDigit := fun digits => absurd (digits '.' (by simp [e])) (by decide)
    rcases h.of_isDigit digit with ⟨rfl, digits⟩ | ⟨rfl, _, _, e, -⟩ <;>
      rcases h'.of_isDigit digit with ⟨rfl, digits'⟩ | ⟨rfl, _, _, e', -⟩
    · rfl
    · exact absurd digits (point e')
    · exact absurd digits' (point e)
    · rfl
  by_cases quote : c = '\''
  · subst quote
    exact h.of_quote.1.trans h'.of_quote.1.symm
  · obtain ⟨listed, letters⟩ := h.of_other alpha digit quote
    obtain ⟨listed', letters'⟩ := h'.of_other alpha digit quote
    exact eq_of_letters_eq _ listed _ listed' (letters.trans letters'.symm)

end Spells

end Kind

end SmallPascal
