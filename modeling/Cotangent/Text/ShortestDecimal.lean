/-!
The fewest decimal digits that read back as a given binary64 number. A finite nonzero magnitude is
`m * 2 ^ q`; the reals that round to it form an interval, with its ends exactly when `m` is even.
For one digit, two, and so on, the two neighbours of the value on that decimal grid are tried: the
first grid with a neighbour inside the interval wins, the nearer of two hits is taken, and an exact
tie goes up.
-/
namespace Cotangent.ShortestDecimal

/-- `mantissa * 2 ^ exponent`. -/
structure Magnitude where
  mantissa : Nat
  exponent : Int
  deriving DecidableEq, Repr

/-- `digits * 10 ^ exponent`, without trailing zeros in `digits`. -/
structure Decimal where
  digits : Nat
  exponent : Int
  deriving DecidableEq, Repr

/-- The magnitude in the low 63 bits of a binary64 number that is not infinite and not NaN. -/
def Magnitude.ofBits (bits : Nat) : Magnitude :=
  let fraction : Nat := bits % Nat.pow 2 52
  let biased : Nat := bits / Nat.pow 2 52 % Nat.pow 2 11
  if biased = 0 then ⟨fraction, -1074⟩ else ⟨fraction + Nat.pow 2 52, (biased : Int) - 1075⟩

/-- The interval that rounds to a magnitude, in quarters of its last binary place. Below a power of
    two the numbers lie twice as dense, so the lower end is half as far away. -/
structure Interval where
  low : Nat
  value : Nat
  high : Nat
  closed : Bool
  deriving DecidableEq, Repr

def Magnitude.interval (v : Magnitude) : Interval :=
  let below := if v.mantissa = Nat.pow 2 52 ∧ v.exponent ≠ -1074 then 1 else 2
  ⟨4 * v.mantissa - below, 4 * v.mantissa, 4 * v.mantissa + 2, v.mantissa % 2 == 0⟩

/-- Whether `p / q` lies in the interval, whose unit is `1 / q`. -/
def Interval.contains (i : Interval) (p q : Nat) : Bool :=
  if i.closed then i.low * q ≤ p && p ≤ i.high * q else i.low * q < p && p < i.high * q

/-- The number of decimal digits; zero has none. -/
def digitCount (n : Nat) : Nat := if n = 0 then 0 else (Nat.toDigits 10 n).length

/-- The `k` with `10 ^ (k - 1) ≤ num / den < 10 ^ k`. -/
def magnitudeOrder (num den : Nat) : Int :=
  if num < den then 1 - digitCount ((den - 1) / num) else digitCount (num / den)

/-- `base ^ e` as a fraction. -/
def power (base : Nat) (e : Int) : Nat × Nat :=
  if e < 0 then (1, base.pow e.natAbs) else (base.pow e.natAbs, 1)

def dropTrailingZeros (fuel : Nat) (d : Decimal) : Decimal :=
  match fuel with
  | 0 => d
  | fuel + 1 =>
    if d.digits % 10 = 0 then dropTrailingZeros fuel ⟨d.digits / 10, d.exponent + 1⟩ else d

/-- The neighbour of the value on the grid of step `10 ^ step` that rounds back, if there is one. -/
def neighbour (i : Interval) (unit : Nat × Nat) (step : Int) : Option Nat :=
  let (s, t) := power 10 step
  -- one step is `den / num` units
  let num := unit.1 * t
  let den := unit.2 * s
  let down := i.value * num / den
  let up := down + 1
  match i.contains (down * den) num, i.contains (up * den) num with
  | true, true => if 2 * (i.value * num) < (down + up) * den then some down else some up
  | true, false => some down
  | false, true => some up
  | false, false => none

/-- Tries `count` digits, then one more, and so on for `fuel` rounds. -/
def search (i : Interval) (unit : Nat × Nat) (order : Int) : Nat → Nat → Option Decimal
  | 0, _ => none
  | fuel + 1, count =>
    let step := order - count
    match neighbour i unit step with
    | some d => some ⟨d, step⟩
    | none => search i unit order fuel (count + 1)

/-- Seventeen digits always tell two binary64 numbers apart, so the search ends within them. -/
def shortest (v : Magnitude) : Decimal :=
  let unit := power 2 (v.exponent - 2)
  let i := v.interval
  let found := search i unit (magnitudeOrder (i.value * unit.1) unit.2) 17 1
  dropTrailingZeros 20 (found.getD ⟨v.mantissa, 0⟩)

/-- How a float is written: the powers of ten of the leading digit that are written positionally,
    and the words for the values that are no numbers. -/
structure Style where
  lowestPositional : Int
  highestPositional : Int
  exponentMark : String
  infinity : String
  nan : String
  deriving DecidableEq, Repr

def zeros (n : Nat) : String := String.ofList (List.replicate n '0')

/-- Positional text always has a point with a digit on either side. -/
def positional (digits : List Char) (point : Int) : String :=
  if point ≤ 0 then "0." ++ zeros point.natAbs ++ String.ofList digits
  else
    let whole := digits.take point.toNat
    let fraction := digits.drop point.toNat
    String.ofList whole ++ zeros (point.toNat - digits.length) ++ "." ++
      (if fraction.isEmpty then "0" else String.ofList fraction)

def scientific (mark : String) (digits : List Char) (leading : Int) : String :=
  let fraction := digits.drop 1
  let tail := if fraction.isEmpty then "" else "." ++ String.ofList fraction
  String.ofList (digits.take 1) ++ tail ++ mark ++ toString leading

def Style.writeDecimal (style : Style) (d : Decimal) : String :=
  let digits := Nat.toDigits 10 d.digits
  let leading := d.exponent + digits.length - 1
  if d.digits = 0 then positional ['0'] 1
  else if style.lowestPositional ≤ leading && leading ≤ style.highestPositional then
    positional digits (leading + 1)
  else scientific style.exponentMark digits leading

def Style.write (style : Style) (x : Float) : String :=
  let bits := x.toBits.toNat
  let sign := if bits / Nat.pow 2 63 = 1 then "-" else ""
  if x.isNaN then style.nan
  else if x.isInf then sign ++ style.infinity
  else
    let v := Magnitude.ofBits bits
    sign ++ style.writeDecimal (if v.mantissa = 0 then ⟨0, 0⟩ else shortest v)

end Cotangent.ShortestDecimal
