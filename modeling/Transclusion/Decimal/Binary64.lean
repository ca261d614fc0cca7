/-!
# Double-precision numbers in decimal

A finite double held exactly as sign, significand and exponent, so that reading and writing
decimal text is arithmetic on natural numbers.

* `Binary64` — the number `± significand · 2 ^ exponent`;
* `Binary64.nearest?` — the double nearest to a fraction, none when it is too large;
* `Binary64.ofText?` — the double a decimal numeral denotes;
* `Binary64.digits` — the fewest decimal digits that read back as the same double;
* `Binary64.text` — those digits written positionally or with an exponent, as a `Layout` says.

## Why the digits are the fewest

A decimal reads back as the double exactly when it lies in the interval of reals that round to
it: half a unit to either side, a quarter unit below a power of two, the ends included when the
significand is even. If a grid of decimals has a point in that interval, one of the two points
next to the double has it too, so it is enough to try those two for one digit, two digits, and
so on; seventeen digits always suffice.
-/

namespace Transclusion

/-- The finite double `± significand · 2 ^ exponent`. The functions below build the one with the
standard's own exponent: at least `-1074`, and the significand below `2 ^ 53`. -/
structure Binary64 where
  negative : Bool
  significand : Nat
  exponent : Int
  deriving DecidableEq, Repr

namespace Binary64

/-- Zero of the given sign. -/
def zero (negative : Bool) : Binary64 := ⟨negative, 0, -1074⟩

/-- The integer nearest to `num / den`; a half goes to the even neighbour. -/
def roundHalfEven (num den : Nat) : Nat :=
  let whole := num / den
  let twice := 2 * (num % den)
  if twice < den then whole
  else if den < twice then whole + 1
  else if whole % 2 = 0 then whole else whole + 1

/-- `2 ^ k` as a fraction. -/
def powerOfTwo (k : Int) : Nat × Nat :=
  (Nat.pow 2 k.toNat, Nat.pow 2 (-k).toNat)

/-- The binary order of magnitude of `num / den`: the `e` with `2 ^ e ≤ num / den < 2 ^ (e + 1)`. -/
def order (num den : Nat) : Int :=
  let guess : Int := (num.log2 : Int) - (den.log2 : Int)
  let (up, down) := powerOfTwo guess
  if den * up ≤ num * down then guess else guess - 1

/-- The double nearest to the positive fraction `num / den`, ties to an even significand. None
when it is beyond the largest double. -/
def nearest? (negative : Bool) (num den : Nat) : Option Binary64 :=
  if num = 0 then some (zero negative)
  else
    let exponent := max (order num den - 52) (-1074)
    let (up, down) := powerOfTwo exponent
    let rounded := roundHalfEven (num * down) (den * up)
    let (significand, exponent) :=
      if rounded = Nat.pow 2 53 then (Nat.pow 2 52, exponent + 1) else (rounded, exponent)
    if 971 < exponent then none else some ⟨negative, significand, exponent⟩

/-- How many decimal digits a number has; zero has none. -/
def digitCount (n : Nat) : Nat :=
  if n = 0 then 0 else (Nat.toDigits 10 n).length

/-- The double nearest to `coefficient · 10 ^ scale`. Decimals far outside the range of doubles
are settled without computing the power. -/
def ofDecimal? (negative : Bool) (coefficient : Nat) (scale : Int) : Option Binary64 :=
  if coefficient = 0 then some (zero negative)
  else if 310 < scale + digitCount coefficient then none
  else if scale + digitCount coefficient < -330 then some (zero negative)
  else nearest? negative (coefficient * Nat.pow 10 scale.toNat) (Nat.pow 10 (-scale).toNat)

/-- The number that a run of decimal digits denotes. -/
def natOfDigits (cs : List Char) : Nat :=
  cs.foldl (fun n c => 10 * n + (c.toNat - '0'.toNat)) 0

/-- The sign in front of a numeral, and what follows it. -/
def splitSign : List Char → Bool × List Char
  | '-' :: cs => (true, cs)
  | '+' :: cs => (false, cs)
  | cs => (false, cs)

/-- The exponent that ends a numeral: none is zero, and a mark without digits is an error. -/
def readExponent? : List Char → Option Int
  | [] => some 0
  | c :: cs =>
      if c = 'e' ∨ c = 'E' then
        let (negative, digits) := splitSign cs
        if digits ≠ [] ∧ digits.all Char.isDigit then
          let n := natOfDigits digits
          some (if negative then -(n : Int) else n)
        else none
      else none

/-- The double nearest to a decimal numeral: an optional sign, digits with an optional point
among them or at either end, and an optional exponent. None for any other text and for
numbers beyond the largest double. -/
def ofText? (cs : List Char) : Option Binary64 :=
  let (negative, cs) := splitSign cs
  let whole := cs.takeWhile Char.isDigit
  let (fraction, rest) :=
    match cs.dropWhile Char.isDigit with
    | '.' :: tail => (tail.takeWhile Char.isDigit, tail.dropWhile Char.isDigit)
    | tail => ([], tail)
  if whole = [] ∧ fraction = [] then none
  else do
    let exponent ← readExponent? rest
    ofDecimal? negative (natOfDigits (whole ++ fraction)) (exponent - fraction.length)

/-! ## Writing -/

/-- `a · 2 ^ x ≤ d · 10 ^ k`, over the integers. -/
def binaryLeDecimal (a : Nat) (x : Int) (d : Nat) (k : Int) : Bool :=
  a * Nat.pow 2 x.toNat * Nat.pow 10 (-k).toNat ≤ d * Nat.pow 10 k.toNat * Nat.pow 2 (-x).toNat

/-- `d · 10 ^ k ≤ a · 2 ^ x`, over the integers. -/
def decimalLeBinary (d : Nat) (k : Int) (a : Nat) (x : Int) : Bool :=
  d * Nat.pow 10 k.toNat * Nat.pow 2 (-x).toNat ≤ a * Nat.pow 2 x.toNat * Nat.pow 10 (-k).toNat

/-- The decimal order of magnitude of a positive fraction: the `e` with
`10 ^ e ≤ num / den < 10 ^ (e + 1)`. -/
def decimalOrder (num den : Nat) : Int :=
  if den ≤ num then (digitCount (num / den) : Int) - 1
  else -(digitCount ((den + num - 1) / num - 1) : Int)

/-- The interval of reals that round to `x`, in quarters of its last place. -/
def interval (x : Binary64) : Nat × Nat :=
  let m := x.significand
  (if m = Nat.pow 2 52 ∧ x.exponent ≠ -1074 then 4 * m - 1 else 4 * m - 2, 4 * m + 2)

/-- Whether the positive decimal `d · 10 ^ k` reads back as the magnitude of `x`. -/
def readsBack (x : Binary64) (d : Nat) (k : Int) : Bool :=
  let (low, high) := x.interval
  let q := x.exponent - 2
  if x.significand % 2 = 0 then binaryLeDecimal low q d k && decimalLeBinary d k high q
  else !decimalLeBinary d k low q && !binaryLeDecimal high q d k

/-- The point of the decimal grid `10 ^ k` that reads back as `x` and is nearest to it; of two
equally near the even one. -/
def nearestOnGrid? (x : Binary64) (k : Int) : Option Nat :=
  let (up, down) := powerOfTwo x.exponent
  let num := x.significand * up * Nat.pow 10 (-k).toNat
  let den := down * Nat.pow 10 k.toNat
  let below := num / den
  let nearer := roundHalfEven num den
  let farther := if nearer = below then below + 1 else below
  if x.readsBack nearer k then some nearer
  else if x.readsBack farther k then some farther
  else none

/-- The coarsest grid with a point that reads back, from `order` digits downwards. -/
def coarsest (x : Binary64) (grid : Int) : Nat → Nat × Int
  | 0 => ((x.nearestOnGrid? grid).getD 0, grid)
  | tries + 1 =>
      match x.nearestOnGrid? grid with
      | some d => (d, grid)
      | none => coarsest x (grid - 1) tries

/-- Moves the zeros at the end of a coefficient into the scale. -/
def stripZeros : Nat → Nat → Int → Nat × Int
  | 0, d, k => (d, k)
  | steps + 1, d, k => if d % 10 = 0 ∧ d ≠ 0 then stripZeros steps (d / 10) (k + 1) else (d, k)

/-- The fewest digits that read back as the magnitude of `x`, with their scale:
`d · 10 ^ k`, where `d` does not end in zero unless it is zero. -/
def digits (x : Binary64) : Nat × Int :=
  if x.significand = 0 then (0, 0)
  else
    let (up, down) := powerOfTwo x.exponent
    let (d, k) := coarsest x (decimalOrder (x.significand * up) down) 17
    stripZeros 20 d k

/-- Which numbers are written positionally: those whose first digit stands at a place of at
least `least`, place one being the last before the point, and at most `most`. -/
structure Layout where
  least : Int
  most : Int

/-- The number with the fewest digits that read back. Positional numbers have a digit on either
side of the point; others one digit before it, none after it if there is no more, and an
exponent without padding. -/
def text (layout : Layout) (x : Binary64) : List Char :=
  let (d, k) := x.digits
  let ds := Nat.toDigits 10 d
  let place : Int := ds.length + k
  let sign := if x.negative then ['-'] else []
  sign ++
    if d = 0 then ['0', '.', '0']
    else if layout.least ≤ place ∧ place ≤ layout.most then
      if place ≤ 0 then ['0', '.'] ++ List.replicate (-place).toNat '0' ++ ds
      else if 0 ≤ k then ds ++ List.replicate k.toNat '0' ++ ['.', '0']
      else ds.take place.toNat ++ ['.'] ++ ds.drop place.toNat
    else
      let fraction := if ds.length ≤ 1 then [] else '.' :: ds.drop 1
      ds.take 1 ++ fraction ++ ['e'] ++ (toString (place - 1)).toList

end Binary64

end Transclusion
