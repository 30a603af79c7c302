import Mathlib.Tactic.Lemma
import SmallPascal.Integer

/-! Division that rounds toward negative infinity. The quotient is exact wherever it is in range.
What is left over is computed through the product of quotient and divisor, and is missing where that
product is out of range, although it would itself be in range. -/

namespace SmallPascal.Integer

/-- The floor of a quotient, from the quotient and the remainder of the division toward zero. -/
lemma fdiv_eq_ite (x : Int) {y : Int} (nonzero : y ≠ 0) :
    x.fdiv y = if x.tmod y ≠ 0 ∧ (x < 0 ↔ ¬ y < 0) then x.tdiv y - 1 else x.tdiv y := by
  rw [Int.fdiv_eq_tdiv]
  simp only [Int.dvd_iff_tmod_eq_zero]
  rcases Int.lt_or_gt_of_ne nonzero with negative | positive
  · rw [Int.sign_eq_neg_one_of_neg negative]
    grind
  · rw [Int.sign_eq_one_of_pos positive]
    grind

lemma tdiv_nonpos {x y : Int} (signs : x < 0 ↔ ¬ y < 0) : x.tdiv y ≤ 0 := by
  by_cases negative : x < 0
  · have flip := Int.neg_tdiv (-x) y
    have := Int.tdiv_nonneg (show 0 ≤ -x by omega) (show 0 ≤ y by omega)
    rw [Int.neg_neg] at flip
    omega
  · exact Int.tdiv_nonpos_of_nonneg_of_nonpos (by omega) (by omega)

lemma toInt_ne_zero {b : Integer} (nonzero : b ≠ 0) : b.toInt ≠ 0 :=
  fun h => nonzero (Int64.toInt_inj.1 h)

lemma truncDiv?_eq_some_iff {a b q : Integer} :
    truncDiv? a b = some q ↔ b ≠ 0 ∧ q.toInt = a.toInt.tdiv b.toInt := by
  unfold truncDiv?
  split
  next zero => exact iff_of_false nofun fun h => h.1 zero
  next nonzero => rw [ofInt?_eq_some_iff, and_iff_right nonzero]

/-- **The quotient is the floor of the exact one**, wherever that is in range. -/
theorem floorDiv?_eq_some_iff {a b q : Integer} :
    floorDiv? a b = some q ↔ b ≠ 0 ∧ q.toInt = a.toInt.fdiv b.toInt := by
  change (truncDiv? a b).bind _ = some q ↔ _
  rw [Option.bind_eq_some_iff]
  constructor
  · rintro ⟨t, truncated, rounded⟩
    obtain ⟨nonzero, exact⟩ := truncDiv?_eq_some_iff.1 truncated
    refine ⟨nonzero, ?_⟩
    rw [fdiv_eq_ite _ (toInt_ne_zero nonzero), ← exact]
    split at rounded
    next down => rw [if_pos down, sub?_eq_some_iff.1 rounded]; rfl
    next stays => rw [if_neg stays, Option.some.inj rounded]
  · rintro ⟨nonzero, floor⟩
    rw [fdiv_eq_ite _ (toInt_ne_zero nonzero)] at floor
    have low := least_le_toInt q
    have high := toInt_le_greatest q
    split at floor
    next down =>
      -- the quotient toward zero is one more, and still not positive
      have nonpos := tdiv_nonpos down.2
      have inRange : ¬ (a.toInt.tdiv b.toInt < least ∨ greatest < a.toInt.tdiv b.toInt) := by
        unfold greatest
        omega
      rcases e : ofInt? (a.toInt.tdiv b.toInt) with _ | t
      · exact absurd (ofInt?_eq_none_iff.1 e) inRange
      · have exact := ofInt?_eq_some_iff.1 e
        refine ⟨t, truncDiv?_eq_some_iff.2 ⟨nonzero, exact⟩, ?_⟩
        rw [if_pos down, sub?_eq_some_iff, exact, floor]
        rfl
    next stays =>
      exact ⟨q, truncDiv?_eq_some_iff.2 ⟨nonzero, floor⟩, by rw [if_neg stays]; rfl⟩

/-- The remainder of a division that rounds down is smaller than the divisor and has its sign. -/
lemma fmod_bounds (x : Int) {y : Int} (nonzero : y ≠ 0) :
    (x.fmod y).natAbs < y.natAbs ∧ (x.fmod y = 0 ∨ (x.fmod y).sign = y.sign) := by
  rcases Int.lt_or_gt_of_ne nonzero with negative | positive
  · have flip := Int.neg_fmod_neg (-x) (-y)
    rw [Int.neg_neg, Int.neg_neg] at flip
    have low := Int.fmod_nonneg_of_pos (-x) (show 0 < -y by omega)
    have high := Int.fmod_lt_of_pos (-x) (show 0 < -y by omega)
    refine ⟨by omega, ?_⟩
    rcases Int.lt_or_eq_of_le low with nonzero | zero
    · right
      rw [Int.sign_eq_neg_one_of_neg negative, Int.sign_eq_neg_one_of_neg (by omega)]
    · left; omega
  · have low := Int.fmod_nonneg_of_pos x positive
    have high := Int.fmod_lt_of_pos x positive
    refine ⟨by omega, ?_⟩
    rcases Int.lt_or_eq_of_le low with nonzero | zero
    · right
      rw [Int.sign_eq_one_of_pos positive, Int.sign_eq_one_of_pos nonzero]
    · left; exact zero.symm

/-- **What is left over.** Where there is a quotient, the remainder that goes with it is there
exactly if the product of quotient and divisor is in range. It is then smaller than the divisor and
of its sign. -/
theorem floorMod?_of_floorDiv? {a b q : Integer} (divided : floorDiv? a b = some q) :
    (∀ m, floorMod? a b = some m → a.toInt = q.toInt * b.toInt + m.toInt ∧
      m.toInt.natAbs < b.toInt.natAbs ∧ (m.toInt = 0 ∨ m.toInt.sign = b.toInt.sign)) ∧
    ((floorMod? a b).isSome ↔ least ≤ q.toInt * b.toInt ∧ q.toInt * b.toInt ≤ greatest) := by
  obtain ⟨nonzero, floor⟩ := floorDiv?_eq_some_iff.1 divided
  obtain ⟨small, sign⟩ := fmod_bounds a.toInt (toInt_ne_zero nonzero)
  have parts := Int.fdiv_mul_add_fmod a.toInt b.toInt
  rw [← floor] at parts
  have computed : floorMod? a b = (mul? q b).bind fun p => sub? a p := by
    unfold floorMod?
    rw [divided]
    rfl
  rw [computed]
  constructor
  · intro m left
    obtain ⟨p, product, difference⟩ := Option.bind_eq_some_iff.1 left
    rw [sub?_eq_some_iff, mul?_eq_some_iff.1 product] at difference
    have remainder : m.toInt = a.toInt.fmod b.toInt := by omega
    rw [remainder]
    exact ⟨parts.symm, small, sign⟩
  · rcases product : mul? q b with _ | p
    · refine iff_of_false (by simp) fun inRange => ?_
      have := ofInt?_eq_none_iff.1 product
      omega
    · have exact := mul?_eq_some_iff.1 product
      have low := least_le_toInt p
      have high := toInt_le_greatest p
      refine iff_of_true ?_ (by omega)
      rcases difference : sub? a p with _ | m
      · -- the remainder itself is smaller than a divisor in range
        have out := ofInt?_eq_none_iff.1 difference
        have := least_le_toInt b
        have := toInt_le_greatest b
        unfold least greatest at *
        omega
      · simp [difference]

/-- The remainder that would be 1 is missing, as three times the quotient is out of range. -/
theorem floorMod?_least_three : floorDiv? Int64.minValue 3 = some (-3074457345618258603) ∧
    floorMod? Int64.minValue 3 = none := by
  decide

end SmallPascal.Integer
