import Mathlib.Data.Rat.Floor
import SmallPascal.Proofs.FloorDivision

/-! Where division that rounds down has a quotient: everywhere but at a divisor of zero and at the
one quotient that is out of range. Both are found by the check of the first step, and behind it
nothing can go wrong. -/

namespace SmallPascal.Integer

abbrev Undivided (a b : Integer) : Prop := b = 0 ∨ a = Int64.minValue ∧ b = -1

variable {a b : Integer}

/-! ### Quotients in range -/

/-- Only the least integer has quotients as great as itself, and only by numbers of the size of
1. -/
lemma eq_least_of_tdiv (great : 9223372036854775808 ≤ (a.toInt.tdiv b.toInt).natAbs) :
    a = Int64.minValue ∧ b.toInt.natAbs = 1 := by
  have low := least_le_toInt a
  have high := toInt_le_greatest a
  unfold least greatest at *
  have quotient : (a.toInt.tdiv b.toInt).natAbs = a.toInt.natAbs / b.toInt.natAbs :=
    Int.natAbs_tdiv _ _
  have small := Nat.div_le_self a.toInt.natAbs b.toInt.natAbs
  have least : a.toInt = -9223372036854775808 := by omega
  have whole : a.toInt.natAbs / b.toInt.natAbs = a.toInt.natAbs := by omega
  exact ⟨Int64.toInt_inj.1 least, (Nat.div_eq_self.1 whole).resolve_left (by omega)⟩

lemma truncDiv?_eq_none_iff : truncDiv? a b = none ↔ Undivided a b := by
  unfold truncDiv?
  split
  next zero => exact iff_of_true rfl (.inl zero)
  next nonzero =>
    rw [ofInt?_eq_none_iff]
    constructor
    · intro out
      unfold least greatest at out
      obtain ⟨rfl, one⟩ := eq_least_of_tdiv (a := a) (b := b) (by omega)
      refine .inr ⟨rfl, Int64.toInt_inj.1 ?_⟩
      -- by 1 the quotient would be in range
      rcases Int.natAbs_eq_iff.1 one with positive | negative
      · rw [positive, Int64.toInt_minValue] at out
        simp at out
      · exact negative
    · rintro (zero | ⟨rfl, rfl⟩)
      · exact absurd zero nonzero
      · right
        decide

/-- A quotient toward zero of which something is left over is not the least integer. -/
lemma least_lt_tdiv (leaves : a.toInt.tmod b.toInt ≠ 0) : least < a.toInt.tdiv b.toInt := by
  by_contra small
  unfold least at small
  obtain ⟨-, one⟩ := eq_least_of_tdiv (a := a) (b := b) (by omega)
  have left : (a.toInt.tmod b.toInt).natAbs = a.toInt.natAbs % b.toInt.natAbs := Int.natAbs_tmod _ _
  rw [one, Nat.mod_one] at left
  exact leaves (Int.natAbs_eq_zero.1 left)

/-- The step down from a quotient of which something is left over stays in range. -/
lemma exists_sub?_one {quotient : Integer} (truncated : truncDiv? a b = some quotient)
    (leaves : a.toInt.tmod b.toInt ≠ 0) : ∃ lower, sub? quotient 1 = some lower := by
  have above := least_lt_tdiv leaves
  have below := toInt_le_greatest quotient
  rw [← (truncDiv?_eq_some_iff.1 truncated).2] at above
  refine Option.ne_none_iff_exists'.1 fun out => ?_
  have out := ofInt?_eq_none_iff.1 out
  have one : (1 : Integer).toInt = 1 := rfl
  omega

lemma floorDiv?_eq_none_iff : floorDiv? a b = none ↔ Undivided a b := by
  rw [← truncDiv?_eq_none_iff]
  rcases truncated : truncDiv? a b with _ | quotient
  · refine iff_of_true ?_ rfl
    unfold floorDiv?
    rw [truncated]
    rfl
  · refine iff_of_false ?_ nofun
    unfold floorDiv?
    rw [truncated, Option.bind_eq_bind, Option.bind_some]
    split
    next down =>
      obtain ⟨lower, stepped⟩ := exists_sub?_one truncated down.1
      rw [stepped]
      nofun
    next => nofun

lemma floor_div_eq_fdiv (x y : Int) : ⌊(x / y : ℚ)⌋ = x.fdiv y := by
  have natural (x : Int) (n : Nat) : ⌊(x / (n : Int) : ℚ)⌋ = x.fdiv n := by
    rw [Int.fdiv_eq_ediv_of_nonneg x (Int.natCast_nonneg n), Int.cast_natCast,
      Rat.floor_intCast_div_natCast]
  rcases Int.natAbs_eq y with positive | negative
  · rw [positive]
    exact natural x y.natAbs
  · rw [negative, Int.cast_neg, div_neg, ← neg_div, ← Int.cast_neg, natural, ← Int.neg_fdiv_neg,
      Int.neg_neg]

/-! ### Instruction by instruction -/

/-- An instruction that has been reached with operands for which it has no result. -/
inductive Trap where
  | remainder (a b : Integer)
  | difference (a b : Integer)

/-- The remainder of words. It stops the machine wherever their quotient is not in range. -/
def remainder (a b : Integer) : Except Trap Integer :=
  if Undivided a b then throw (.remainder a b) else return a % b

/-- The difference of words, which has to be in range. -/
def difference (a b : Integer) : Except Trap Integer :=
  match sub? a b with
  | some d => return d
  | none => throw (.difference a b)

/-- Division that rounds down, by instructions on words of which only the first is checked. -/
def divide (a b : Integer) : Except Trap (Option Integer) := do
  match truncDiv? a b with
  | none => return none
  | some quotient =>
    let left ← remainder a b
    if left ≠ 0 ∧ (a < 0 ↔ ¬ b < 0) then some <$> difference quotient 1
    else return some quotient

lemma divide_eq (a b : Integer) : divide a b = .ok (floorDiv? a b) := by
  unfold divide floorDiv?
  rcases truncated : truncDiv? a b with _ | quotient
  · rfl
  · have divided : ¬ Undivided a b := by
      rw [← truncDiv?_eq_none_iff, truncated]
      nofun
    have zero : a % b = 0 ↔ a.toInt.tmod b.toInt = 0 := by
      rw [← Int64.toInt_inj, Int64.toInt_mod]
      rfl
    have signs : (a < 0 ↔ ¬ b < 0) ↔ (a.toInt < 0 ↔ ¬ b.toInt < 0) := by
      simp only [Int64.lt_iff_toInt_lt, Int64.toInt_zero]
    simp only [remainder, if_neg divided, pure_bind, Option.bind_eq_bind, Option.bind_some,
      ne_eq, zero, signs]
    split
    next down =>
      obtain ⟨lower, stepped⟩ := exists_sub?_one truncated down.1
      unfold difference
      rw [stepped]
      rfl
    next => rfl

/-- **Division that rounds down is exact.** It has a quotient just if the divisor is not zero and
the quotient is not the opposite of the least integer; and this is the floor of the exact one.
Carried out by instructions on words it comes to the same, and the remainder and the last difference
are reached only where they have a result. -/
theorem quotient_exact (a b : Integer) :
    (floorDiv? a b).map Int64.toInt =
      (if b = 0 ∨ a = Int64.minValue ∧ b = -1 then none else some ⌊(a.toInt / b.toInt : ℚ)⌋) ∧
    divide a b = .ok (floorDiv? a b) := by
  refine ⟨?_, divide_eq a b⟩
  rcases rounded : floorDiv? a b with _ | quotient
  · rw [if_pos (floorDiv?_eq_none_iff.1 rounded)]
    rfl
  · have divided : ¬ Undivided a b := by
      rw [← floorDiv?_eq_none_iff, rounded]
      nofun
    rw [if_neg divided, floor_div_eq_fdiv, ← (floorDiv?_eq_some_iff.1 rounded).2]
    rfl

end SmallPascal.Integer
