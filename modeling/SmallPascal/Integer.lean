/-!
Integers of the language: 64-bit words whose arithmetic answers nothing instead of wrapping, and
division that rounds toward negative infinity.
-/

namespace SmallPascal

/-- The decimal digits of a natural number. -/
def digits (n : Nat) : String := String.ofList (Nat.toDigits 10 n)

abbrev Integer := Int64

namespace Integer

/-- The least integer of the language, `-2^63`. -/
def least : Int := -9223372036854775808

/-- The greatest integer of the language, `2^63 - 1`. -/
def greatest : Int := 9223372036854775807

/-- The word that stands for `n`, if `n` is in range. -/
def ofInt? (n : Int) : Option Integer :=
  if least ≤ n ∧ n ≤ greatest then some (Int64.ofInt n) else none

/-- The word that stands for the natural number `n`, if `n` is in range. -/
def ofNat? (n : Nat) : Option Integer := ofInt? n

def add? (a b : Integer) : Option Integer := ofInt? (a.toInt + b.toInt)

/-- The exact difference, if it is in range. -/
def sub? (a b : Integer) : Option Integer := ofInt? (a.toInt - b.toInt)

def mul? (a b : Integer) : Option Integer := ofInt? (a.toInt * b.toInt)

/-- The opposite number, if it is in range. -/
def neg? (a : Integer) : Option Integer := ofInt? (-a.toInt)

/-- The quotient rounded toward zero, if `b` is not zero and the quotient is in range. -/
def truncDiv? (a b : Integer) : Option Integer :=
  if b = 0 then none else ofInt? (a.toInt.tdiv b.toInt)

/-- The quotient rounded toward negative infinity: one less than the quotient rounded toward zero
where the division leaves a remainder and the signs differ. -/
def floorDiv? (a b : Integer) : Option Integer := do
  let quotient ← truncDiv? a b
  if a.toInt.tmod b.toInt ≠ 0 ∧ (a.toInt < 0 ↔ ¬ b.toInt < 0) then sub? quotient 1
  else return quotient

/-- What `floorDiv?` leaves over. The product of quotient and divisor is itself a checked product,
so a remainder that would be in range is missing where that product is not. -/
def floorMod? (a b : Integer) : Option Integer := do
  let quotient ← floorDiv? a b
  sub? a (← mul? quotient b)

/-- The decimal digits of `n`, after a minus sign where `n` is negative. -/
def text (n : Integer) : String :=
  if n.toInt < 0 then "-" ++ digits n.toInt.natAbs else digits n.toInt.natAbs

/-- The nearest real, of two equally near ones the even one. -/
def toReal (n : Integer) : Float := Float.ofInt n.toInt

theorem least_le_toInt (a : Integer) : least ≤ a.toInt := Int64.le_toInt a

theorem toInt_le_greatest (a : Integer) : a.toInt ≤ greatest := by
  have := Int64.toInt_lt a
  unfold greatest; omega

theorem ofInt?_eq_some_iff {n : Int} {a : Integer} : ofInt? n = some a ↔ a.toInt = n := by
  unfold ofInt?
  split
  next h =>
    rw [Option.some_inj]
    constructor
    · rintro rfl
      exact Int64.toInt_ofInt_of_le h.1 (by have := h.2; unfold greatest at this; omega)
    · intro e; rw [← e]; exact Int64.ofInt_toInt a
  next h =>
    refine ⟨nofun, fun e => ?_⟩
    subst e
    exact absurd ⟨least_le_toInt a, toInt_le_greatest a⟩ h

theorem ofInt?_eq_none_iff {n : Int} : ofInt? n = none ↔ n < least ∨ greatest < n := by
  unfold ofInt?; split <;> simp <;> omega

theorem ofInt?_toInt (a : Integer) : ofInt? a.toInt = some a := ofInt?_eq_some_iff.2 rfl

theorem add?_eq_some_iff {a b c : Integer} : add? a b = some c ↔ c.toInt = a.toInt + b.toInt :=
  ofInt?_eq_some_iff

theorem sub?_eq_some_iff {a b c : Integer} : sub? a b = some c ↔ c.toInt = a.toInt - b.toInt :=
  ofInt?_eq_some_iff

theorem mul?_eq_some_iff {a b c : Integer} : mul? a b = some c ↔ c.toInt = a.toInt * b.toInt :=
  ofInt?_eq_some_iff

theorem neg?_eq_some_iff {a b : Integer} : neg? a = some b ↔ b.toInt = -a.toInt :=
  ofInt?_eq_some_iff

end Integer

end SmallPascal
