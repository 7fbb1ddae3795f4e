/-! # Shortest decimal text of binary numbers

A finite binary floating-point number stands for an interval of reals, those that round to it. Its
text is the number in that interval with the fewest digits: a multiple of the largest power of ten
that has a multiple there, and of those the nearest to the number itself. The text is positional at
every magnitude. -/

namespace ExprText.Decimal

/-- The field widths of a binary interchange format. -/
structure Format where
  exponentBits : Nat
  fractionBits : Nat

def binary32 : Format := ⟨8, 23⟩
def binary64 : Format := ⟨11, 52⟩

/-- What a bit pattern stands for; a finite number is `(-1) ^ negative * significand * 2 ^ exponent`. -/
inductive Value where
  | nan
  | infinite (negative : Bool)
  | finite (negative : Bool) (significand : Nat) (exponent : Int) (atBinade : Bool)
deriving DecidableEq, Repr

namespace Format

/-- Reads a bit pattern. `atBinade` marks the least significand of a binade above the lowest, whose
neighbour below is only half as far away as the one above. -/
def decode (f : Format) (bits : Nat) : Value :=
  let fraction := bits % Nat.pow 2 f.fractionBits
  let biased := bits / Nat.pow 2 f.fractionBits % Nat.pow 2 f.exponentBits
  let negative := bits / Nat.pow 2 (f.fractionBits + f.exponentBits) % 2 == 1
  let bias : Int := (Nat.pow 2 (f.exponentBits - 1) : Nat) - 1
  let lowest : Int := 1 - bias - f.fractionBits
  if biased = Nat.pow 2 f.exponentBits - 1 then
    if fraction = 0 then .infinite negative else .nan
  else if biased = 0 then .finite negative fraction lowest false
  else
    .finite negative (fraction + Nat.pow 2 f.fractionBits) (biased + lowest - 1)
      (fraction == 0 && biased > 1)

end Format

/-- A closed or open interval of positive reals around a number, as numerators over one denominator. -/
structure Interval where
  low : Nat
  mid : Nat
  high : Nat
  den : Nat
  closed : Bool

namespace Interval

/-- The reals that round to `significand * 2 ^ exponent`. The ends belong to it when the significand
is even. -/
def around (significand : Nat) (exponent : Int) (atBinade : Bool) : Interval :=
  let scale := Nat.pow 2 (exponent - 2).toNat
  { low := (4 * significand - if atBinade then 1 else 2) * scale
    mid := 4 * significand * scale
    high := (4 * significand + 2) * scale
    den := Nat.pow 2 (2 - exponent).toNat
    closed := significand % 2 == 0 }

/-- Whether `n * 10 ^ power` lies in the interval. -/
def holds (i : Interval) (power : Int) (n : Nat) : Bool :=
  let x := n * Nat.pow 10 power.toNat * i.den
  let unit := Nat.pow 10 (-power).toNat
  if i.closed then i.low * unit ≤ x && x ≤ i.high * unit else i.low * unit < x && x < i.high * unit

/-- The multiple of `10 ^ power` nearest to the middle among those in the interval; of two that are
equally near it is the upper one. -/
def multiple? (i : Interval) (power : Int) : Option Nat :=
  let num := i.mid * Nat.pow 10 (-power).toNat
  let den := i.den * Nat.pow 10 power.toNat
  let below := num / den
  let nearer := if num - below * den < (below + 1) * den - num then below else below + 1
  let farther := if nearer = below then below + 1 else below
  if 0 < nearer && i.holds power nearer then some nearer
  else if 0 < farther && i.holds power farther then some farther
  else none

/-- The coarsest power of ten, from `power` on in `fuel` steps down, with a multiple in the interval. -/
def coarsest (i : Interval) : Nat → Int → Nat × Int
  | 0, power => (0, power)
  | fuel + 1, power =>
    match i.multiple? power with
    | some n => (n, power)
    | none => i.coarsest fuel (power - 1)

end Interval

/-- The digits and the power of ten of the shortest decimal that rounds to
`significand * 2 ^ exponent`. The search starts above the number and passes at most as many powers of
ten as the number and its last binary place have digits. -/
def shortest (significand : Nat) (exponent : Int) (atBinade : Bool) : Nat × Int :=
  let i := Interval.around significand exponent atBinade
  let start := (Nat.toDigits 10 (i.mid / i.den)).length
  i.coarsest (start + i.den.log2 + 2) start

/-- `n * 10 ^ power` in positional notation. -/
def positional (n : Nat) (power : Int) : String :=
  let digits := Nat.toDigits 10 n
  if 0 ≤ power then String.ofList (digits ++ List.replicate power.toNat '0')
  else
    let places := (-power).toNat
    let padded := List.replicate (places + 1 - digits.length) '0' ++ digits
    String.ofList (padded.take (padded.length - places) ++ '.' :: padded.drop (padded.length - places))

def finiteText (negative : Bool) (significand : Nat) (exponent : Int) (atBinade : Bool) : String :=
  let magnitude :=
    if significand = 0 then "0"
    else
      let (n, power) := shortest significand exponent atBinade
      positional n power
  if negative then "-" ++ magnitude else magnitude

end ExprText.Decimal
