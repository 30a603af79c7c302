/-!
Decimal texts of reals. A whole number is written with all its digits and one zero after the
point; any other number with the fewest digits after the point that still round to it.
-/

namespace SmallPascal.Decimal

/-- The real with the digits `whole` before its point and `fraction` after it, rounded to
nearest. -/
def read (whole fraction : List Char) : Float :=
  Float.ofScientific (Nat.ofDigitChars 10 (whole ++ fraction) 0) true fraction.length

structure Binary where
  negative : Bool
  mantissa : Nat
  exponent : Int
deriving DecidableEq

/-- The parts of a real; nothing for an infinity or a number that is none. -/
def Binary.ofReal? (x : Float) : Option Binary :=
  let bits := x.toBits.toNat
  let negative := decide (Nat.pow 2 63 ≤ bits)
  let biased : Nat := bits / Nat.pow 2 52 % Nat.pow 2 11
  let fraction := bits % Nat.pow 2 52
  if biased = Nat.pow 2 11 - 1 then none
  else if biased = 0 then some ⟨negative, fraction, -1074⟩
  else some ⟨negative, Nat.pow 2 52 + fraction, (biased : Int) - 1075⟩

/-- The magnitude, if it has no part after the point. -/
def Binary.whole? (x : Binary) : Option Nat :=
  let unit := Nat.pow 2 x.exponent.natAbs
  if 0 ≤ x.exponent then some (x.mantissa * unit)
  else if x.mantissa % unit = 0 then some (x.mantissa / unit)
  else none

/-- Whether `digits / 10 ^ places` rounds to `mantissa / 2 ^ scale`, that is, lies no further from
it than half-way to its neighbours. Half-way itself rounds to an even mantissa; the neighbour below
a power of two stands at half the distance. -/
def roundsTo (mantissa scale places digits : Nat) : Bool :=
  let point := digits * Nat.pow 2 (scale + 2)
  let below := if mantissa = Nat.pow 2 52 ∧ scale < 1074 then 1 else 2
  let low := (4 * mantissa - below) * Nat.pow 10 places
  let high := (4 * mantissa + 2) * Nat.pow 10 places
  if mantissa % 2 = 0 then decide (low ≤ point ∧ point ≤ high)
  else decide (low < point ∧ point < high)

/-- The number of that many places nearest to `mantissa / 2 ^ scale` among those that round to it;
of two equally near ones the greater. -/
def nearest? (mantissa scale places : Nat) : Option Nat :=
  let unit := Nat.pow 2 scale
  let down := mantissa * Nat.pow 10 places / unit
  let left := mantissa * Nat.pow 10 places % unit
  let up := down + 1
  match roundsTo mantissa scale places down, roundsTo mantissa scale places up with
  | true, true => some (if 2 * left < unit then down else up)
  | true, false => some down
  | false, true => some up
  | false, false => none

/-- The least number of places, from `places` on, at which some number rounds to
`mantissa / 2 ^ scale`, with that number's digits. At `scale` places the value itself is one. -/
def fewest (mantissa scale : Nat) (places : Nat) : Nat × Nat :=
  search (scale - places) places
where
  search : Nat → Nat → Nat × Nat
    | 0, places => (places, mantissa * Nat.pow 10 places / Nat.pow 2 scale)
    | more + 1, places =>
      match nearest? mantissa scale places with
      | some digits => (places, digits)
      | none => search more (places + 1)

/-- The text of `digits / 10 ^ places`, with at least one digit before the point. -/
def positional (places digits : Nat) : String :=
  let written := Nat.toDigits 10 digits
  let padded := List.replicate (places + 1 - written.length) '0' ++ written
  let cut := padded.length - places
  String.ofList (padded.take cut ++ '.' :: padded.drop cut)

/-- The text of a real. Zero keeps its sign. -/
def text (x : Float) : String :=
  match Binary.ofReal? x with
  | none => if x.isNaN then "NaN" else if x < 0 then "-inf" else "inf"
  | some parts =>
    let magnitude :=
      match parts.whole? with
      | some n => positional 1 (10 * n)
      | none =>
        let (places, digits) := fewest parts.mantissa parts.exponent.natAbs 1
        positional places digits
    if parts.negative then "-" ++ magnitude else magnitude

end SmallPascal.Decimal
