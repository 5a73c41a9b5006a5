/-!
# Binary floating-point numbers

A `Double` is a finite binary64 number, written as a sign, a whole significand and a power of
two. Arithmetic is exact up to the one rounding that the format asks for: `Double.ofRatio?` goes
to the nearest number of the format, a tie to the even significand, and answers `none` beyond
the largest one. Reading a decimal, converting an integer, multiplying and dividing are all that
rounding applied to an exact ratio.

`Double.shortest` gives the fewest decimal digits that read back as the same number, and of
those the ones nearest to it, a tie to the even last digit. The decimals that read back are those
in the interval of values that round to the number; the coarsest power of ten with a multiple in
that interval gives the digits. How the digits are laid out is another matter, and a `Layout`
says it.
-/

namespace Crosswalk

/-- The number `± mantissa * 2 ^ exponent`. The numbers of the format have a mantissa below
`2 ^ 53` and an exponent from `-1074` to `971`, and the mantissa is at least `2 ^ 52` unless the
exponent is the least. -/
structure Double where
  negative : Bool
  mantissa : Nat
  exponent : Int
  deriving DecidableEq, Repr

namespace Double

/-- Zero with a sign. -/
def zero (negative : Bool) : Double := ⟨negative, 0, -1074⟩

def isZero (x : Double) : Bool := x.mantissa == 0

/-- The numerator and the denominator of the magnitude. -/
def magnitude (x : Double) : Nat × Nat :=
  (x.mantissa * Nat.pow 2 x.exponent.toNat, Nat.pow 2 (-x.exponent).toNat)

/-- The numerator with its sign, over the denominator of `magnitude`. -/
def signedNumerator (x : Double) : Int :=
  if x.negative then -(x.magnitude.1 : Int) else x.magnitude.1

/-- The quotient rounded to the nearest whole number, a half to the even neighbour. -/
def roundQuotient (num den : Nat) : Nat :=
  let q := num / den
  let twice := 2 * (num % den)
  if twice < den then q
  else if den < twice then q + 1
  else q + q % 2

/-- The ratio measured in units of `2 ^ exponent`, as numerator and denominator. -/
def inUnits (num den : Nat) (exponent : Int) : Nat × Nat :=
  (num * Nat.pow 2 (-exponent).toNat, den * Nat.pow 2 exponent.toNat)

/-- The unit in the last place for a positive ratio: the quotient in these units lies below
`2 ^ 53`, and reaches `2 ^ 52` unless the unit is the least of the format. -/
def unitOf (num den : Nat) : Int :=
  let least : Int := (Nat.log2 num : Int) - (Nat.log2 den : Int) - 53
  let scaled := inUnits num den least
  let unit := if scaled.1 < Nat.pow 2 53 * scaled.2 then least else least + 1
  max unit (-1074)

/-- The number of the format nearest to `± num / den`; there is none beyond the largest. -/
def ofRatio? (negative : Bool) (num den : Nat) : Option Double :=
  if num = 0 then some (zero negative)
  else
    let unit := unitOf num den
    let scaled := inUnits num den unit
    let rounded := roundQuotient scaled.1 scaled.2
    let (mantissa, exponent) :=
      if rounded = Nat.pow 2 53 then (Nat.pow 2 52, unit + 1) else (rounded, unit)
    if exponent > 971 then none else some ⟨negative, mantissa, exponent⟩

@[simp] theorem ofRatio?_zero (negative : Bool) (den : Nat) :
    ofRatio? negative 0 den = some (zero negative) := by
  simp [ofRatio?]

/-- The number nearest to an integer. -/
def ofInt? (n : Int) : Option Double := ofRatio? (n < 0) n.natAbs 1

/-- The number nearest to `± digits * 10 ^ exponent`. An exponent beyond what any number of the
format needs is answered without computing the power. -/
def ofDecimal? (negative : Bool) (digits : Nat) (exponent : Int) : Option Double :=
  if digits = 0 then some (zero negative)
  else if exponent > 310 then none
  else if exponent + (Nat.log2 digits / 3 + 1 : Nat) < -330 then some (zero negative)
  else ofRatio? negative (digits * Nat.pow 10 exponent.toNat)
    (Nat.pow 10 (-exponent).toNat)

/-- The rounded product. -/
def mul? (x y : Double) : Option Double :=
  let (a, b) := x.magnitude
  let (c, d) := y.magnitude
  ofRatio? (x.negative != y.negative) (a * c) (b * d)

/-- The rounded quotient by a number other than zero. -/
def div? (x y : Double) : Option Double :=
  let (a, b) := x.magnitude
  let (c, d) := y.magnitude
  ofRatio? (x.negative != y.negative) (a * d) (b * c)

/-- The order of the exact values; the two zeros are equal. -/
def compare (x y : Double) : Ordering :=
  Ord.compare (x.signedNumerator * y.magnitude.2) (y.signedNumerator * x.magnitude.2)

/-- The order of an exact value and an integer. -/
def compareInt (x : Double) (n : Int) : Ordering :=
  Ord.compare x.signedNumerator (n * x.magnitude.2)

/-- Whether the value is a whole number. -/
def isWhole (x : Double) : Bool := x.magnitude.1 % x.magnitude.2 == 0

end Double

/-! ### Shortest digits -/

namespace Double

/-- The values that round to a positive number, as whole multiples of a quarter of its unit in
the last place: below, the number itself, and above. The gap below is half as wide at the foot of
a range of equal spacing. -/
def neighbourhood (x : Double) : Nat × Nat × Nat :=
  let below := if x.mantissa = Nat.pow 2 52 ∧ x.exponent > -1074 then 1 else 2
  (4 * x.mantissa - below, 4 * x.mantissa, 4 * x.mantissa + 2)

/-- A multiple of `10 ^ k` among the values that round to `x`: of the two neighbours of `x` on
that grid the one that lies there, and the nearer one if both do. -/
def gridPoint? (x : Double) (k : Int) : Option Nat :=
  let (low, mid, high) := x.neighbourhood
  let quarter := x.exponent - 2
  let unit := Nat.pow 2 (-quarter).toNat * Nat.pow 10 k.toNat
  let scale := Nat.pow 2 quarter.toNat * Nat.pow 10 (-k).toNat
  let lowEnd := low * scale
  let value := mid * scale
  let highEnd := high * scale
  let inside (n : Nat) : Bool :=
    if x.mantissa % 2 = 0 then lowEnd ≤ n * unit && n * unit ≤ highEnd
    else lowEnd < n * unit && n * unit < highEnd
  let under := value / unit
  let gapUnder := value - under * unit
  let gapOver := (under + 1) * unit - value
  match inside under, inside (under + 1) with
  | true, true =>
    some (if gapUnder < gapOver then under
      else if gapOver < gapUnder then under + 1
      else under + under % 2)
  | true, false => some under
  | false, true => some (under + 1)
  | false, false => none

/-- Tries the grids of `10 ^ k` from coarse to fine. -/
def firstGridPoint : Nat → Double → Int → Nat × Int
  | 0, x, k => (x.mantissa, k)
  | fuel + 1, x, k =>
    match x.gridPoint? k with
    | some n => (n, k)
    | none => firstGridPoint fuel x (k - 1)

/-- An exponent whose power of ten exceeds a positive number. -/
def decimalCeiling (x : Double) : Int :=
  let bits : Int := (Nat.log2 x.mantissa : Int) + 1 + x.exponent
  if bits ≥ 0 then bits / 3 + 1 else bits / 4 + 1

/-- Whole number and power of ten of the shortest decimal of a positive magnitude. The least
spacing of the format is above `10 ^ -326`, and the coarsest grid tried is below `10 ^ 360`. -/
def shortest (x : Double) : Nat × Int := firstGridPoint 700 x x.decimalCeiling

end Double

/-- How the digits of a number are written. -/
structure Layout where
  /-- The least place of the decimal point, counted from the first digit, that is written without
  an exponent. -/
  leastPoint : Int
  /-- The greatest such place. -/
  greatestPoint : Int
  /-- Whether a whole number ends in `.0`. -/
  keepsPoint : Bool
  /-- Whether zero keeps its sign. -/
  keepsZeroSign : Bool

namespace Layout

/-- Display: without exponent from `1e-5` up to, but not at, `1e16`, and always recognisable as a
floating-point number. -/
def display : Layout := ⟨-4, 16, true, true⟩

/-- The canonical form: without exponent from `1e-6` up to, but not at, `1e21`, and zero has no
sign. -/
def canonical : Layout := ⟨-5, 21, false, false⟩

private def zeros (n : Nat) : List Char := List.replicate n '0'

/-- The digits with the point at a place within the positional range. -/
def positional (layout : Layout) (digits : List Char) (point : Int) : List Char :=
  if point ≤ 0 then '0' :: '.' :: (zeros (-point).toNat ++ digits)
  else if digits.length ≤ point.toNat then
    digits ++ zeros (point.toNat - digits.length) ++ if layout.keepsPoint then ['.', '0'] else []
  else digits.take point.toNat ++ '.' :: digits.drop point.toNat

/-- One digit before the point, and an exponent with its sign. -/
def scientific (digits : List Char) (point : Int) : List Char :=
  let exponent := point - 1
  let fraction := match digits.drop 1 with
    | [] => []
    | rest => '.' :: rest
  let sign := if exponent < 0 then '-' else '+'
  digits.take 1 ++ fraction ++ 'e' :: sign :: Nat.toDigits 10 exponent.natAbs

/-- Writes a number in a layout. -/
def write (layout : Layout) (x : Double) : List Char :=
  let sign := if x.negative then ['-'] else []
  if x.isZero then
    (if layout.keepsZeroSign then sign else []) ++
      if layout.keepsPoint then ['0', '.', '0'] else ['0']
  else
    let (number, power) := x.shortest
    let all := Nat.toDigits 10 number
    let digits := (all.reverse.dropWhile (· == '0')).reverse
    let point : Int := all.length + power
    sign ++
      if layout.leastPoint ≤ point ∧ point ≤ layout.greatestPoint then
        layout.positional digits point
      else scientific digits point

end Layout

end Crosswalk
