import Mathlib.Tactic.Lemma
import SmallPascal.Parse.Expression
import SmallPascal.Proofs.Steps

/-!
What a reader computes: the value of one operation on literals, which is the same wherever it is
evaluated. A reader that keeps no record computes without taking a step.
-/

namespace SmallPascal

open Steps

namespace Expr

/-! ### Operations on literals -/

/-- An operation whose operands are literals. -/
inductive OnLiterals : Expr → Prop where
  | binary {op v w t u p q type span} :
    OnLiterals (.binary op (.literal v t p) (.literal w u q) type span)
  | unary {op v t p type span} : OnLiterals (.unary op (.literal v t p) type span)
  | widen {v t p type span} : OnLiterals (.widen (.literal v t p) type span)

lemma isLiteral_iff {e : Expr} : e.isLiteral ↔ ∃ v t p, e = .literal v t p := by
  cases e with
  | literal v t p => exact ⟨fun _ => ⟨v, t, p, rfl⟩, fun _ => rfl⟩
  | _ =>
    constructor
    · intro h
      cases h
    · rintro ⟨_, _, _, ⟨⟩⟩

lemma isFoldable_iff {e : Expr} : e.isFoldable ↔ e.OnLiterals := by
  constructor
  · intro h
    cases e with
    | binary op left right =>
      obtain ⟨hl, hr⟩ := Bool.and_eq_true_iff.1 h
      obtain ⟨_, _, _, rfl⟩ := isLiteral_iff.1 hl
      obtain ⟨_, _, _, rfl⟩ := isLiteral_iff.1 hr
      exact .binary
    | unary op operand =>
      obtain ⟨_, _, _, rfl⟩ := isLiteral_iff.1 h
      exact .unary
    | widen operand =>
      obtain ⟨_, _, _, rfl⟩ := isLiteral_iff.1 h
      exact .widen
    | _ => cases h
  · rintro (_ | _ | _) <;> rfl

lemma OnLiterals.eval_eq {e : Expr} (h : e.OnLiterals) : ∃ step : Except RuntimeFault Value,
    ∀ context store, e.eval context store = Eval.ofExcept e.span step := by
  cases h with
  | @binary op v w => exact ⟨op.apply v w, fun _ _ => rfl⟩
  | @unary op v => exact ⟨op.apply v, fun _ _ => rfl⟩
  | @widen v => exact ⟨.ok v.widen, fun _ _ => rfl⟩

lemma OnLiterals.eval_eq_constant? {e : Expr} (h : e.OnLiterals) (context : Context) (store : Store)
    (output : Output) : e.eval context store output = (e.constant?, output) := by
  obtain ⟨step, same⟩ := h.eval_eq
  unfold constant?
  rw [same, same]
  cases step <;> rfl

lemma OnLiterals.constant?_cases {e : Expr} (h : e.OnLiterals) :
    (∃ value, e.constant? = .ok value) ∨ ∃ fault, e.constant? = .error (.fault fault e.span) := by
  obtain ⟨step, same⟩ := h.eval_eq
  unfold constant?
  rw [same]
  cases step with
  | ok value => exact .inl ⟨value, rfl⟩
  | error fault => exact .inr ⟨fault, rfl⟩

/-- Replaces an operation on literals by its value. One without a value stays. -/
def folded (e : Expr) : Expr :=
  if e.isFoldable then
    match e.constant? with
    | .ok value => .literal value e.type e.span
    | .error _ => e
  else e

lemma folded_cases (e : Expr) :
    (∃ value, e.OnLiterals ∧ e.constant? = .ok value ∧ e.folded = .literal value e.type e.span) ∨
    (e.folded = e ∧ (e.OnLiterals → ∃ fault, e.constant? = .error (.fault fault e.span))) := by
  unfold folded
  by_cases h : e.isFoldable
  · rw [if_pos h]
    have onLiterals := isFoldable_iff.1 h
    obtain ⟨value, found⟩ | ⟨fault, found⟩ := onLiterals.constant?_cases <;> rw [found]
    · exact .inl ⟨value, onLiterals, rfl, rfl⟩
    · exact .inr ⟨rfl, fun _ => ⟨fault, rfl⟩⟩
  · rw [if_neg h]
    exact .inr ⟨rfl, fun onLiterals => absurd (isFoldable_iff.2 onLiterals) h⟩

lemma eval_folded (e : Expr) (context : Context) (store : Store) :
    e.folded.eval context store = e.eval context store := by
  obtain ⟨value, onLiterals, found, folded⟩ | ⟨folded, -⟩ := e.folded_cases
  · funext output
    rw [folded, onLiterals.eval_eq_constant?, found]
    rfl
  · rw [folded]

lemma type_folded (e : Expr) : e.folded.type = e.type := by
  obtain ⟨_, -, -, folded⟩ | ⟨folded, -⟩ := e.folded_cases <;> (rw [folded]; try rfl)

lemma span_folded (e : Expr) : e.folded.span = e.span := by
  obtain ⟨_, -, -, folded⟩ | ⟨folded, -⟩ := e.folded_cases <;> (rw [folded]; try rfl)

end Expr

/-! ### What a reader does with the values -/

namespace Parse

variable {ρ : Type} [Record ρ]

lemma compute_apply (e : Expr) (s : ParseState ρ) :
    compute e s = (.ok e.constant?, { s with record := Record.note e s.record }) := rfl

lemma fold_apply (e : Expr) (s : ParseState ρ) :
    ∃ record, fold e s = (.ok (if s.folding then e.folded else e), { s with record }) := by
  unfold fold
  rw [bind_of_ok get_self]
  by_cases folds : s.folding ∧ e.isFoldable
  · refine ⟨Record.note e s.record, ?_⟩
    rw [if_pos folds, if_pos folds.1, bind_of_ok (compute_apply e s)]
    unfold Expr.folded
    rw [if_pos folds.2]
    cases e.constant? <;> rfl
  · have same : (if s.folding then e.folded else e) = e := by
      unfold Expr.folded
      split
      next on => exact if_neg fun foldable => folds ⟨on, foldable⟩
      next => rfl
    rw [if_neg folds, same]
    exact ⟨s.record, rfl⟩

/-! ### Without a record -/

lemma compute_eq (e : Expr) : (compute e : Parse _) = pure e.constant? := rfl

lemma fold_eq (e : Expr) : (fold e : Parse _) =
    get >>= fun s => pure (if s.folding then e.folded else e) := by
  funext s
  exact (fold_apply e s).choose_spec

lemma constantValue_eq (e : Expr) : (constantValue e : Parse _) =
    match e.constant? with
    | .ok value => pure (.ok value)
    | .error (.fault fault span) => pure (.error (fault, span))
    | .error .outOfSteps => exhausted :=
  (congrArg (· >>= _) (compute_eq e)).trans (pure_bind _ _)

end Parse

end SmallPascal
