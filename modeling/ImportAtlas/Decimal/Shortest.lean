/-!
# The shortest decimal text of a binary number

A finite double stands for the interval of reals that round to it. Its text has the fewest
digits for which some decimal lies in the interval, and among those the one nearest to the
number, the even one on a tie. All arithmetic is exact.
-/

namespace ImportAtlas.Decimal

/-- The decimal `digits * 10 ^ exponent`. -/
structure Scaled where
  digits : Nat
  exponent : Int
deriving DecidableEq, Repr

/-- The positive binary number `mantissa * 2 ^ exponent` and the spacing below it. -/
structure Binary where
  mantissa : Nat
  exponent : Int
  /-- Whether the neighbour below is half as far away as the one above. -/
  closeBelow : Bool
deriving DecidableEq, Repr

/-- A positive fraction and the ends of the interval that rounds to it, over one denominator. -/
structure Interval where
  low : Nat
  value : Nat
  high : Nat
  denominator : Nat
  /-- Whether the ends belong to the interval. -/
  closed : Bool
deriving DecidableEq, Repr

/-- The reals that round to a binary number: half the spacing on either side, the ends included
exactly when the mantissa is even. -/
def Binary.interval (b : Binary) : Interval :=
  let unit := Nat.pow 2 (b.exponent - 2).toNat
  { low := (4 * b.mantissa - if b.closeBelow then 1 else 2) * unit
    value := 4 * b.mantissa * unit
    high := (4 * b.mantissa + 2) * unit
    denominator := Nat.pow 2 (2 - b.exponent).toNat
    closed := b.mantissa % 2 == 0 }

/-- Whether a decimal lies in an interval. -/
def Interval.contains (i : Interval) (d : Scaled) : Bool :=
  let point := d.digits * Nat.pow 10 d.exponent.toNat * i.denominator
  let scale := Nat.pow 10 (-d.exponent).toNat
  if i.closed then i.low * scale ≤ point && point ≤ i.high * scale
  else i.low * scale < point && point < i.high * scale

/-- The number of digits before the point, or minus the number of zeros after it. -/
def Interval.magnitude (i : Interval) : Int :=
  if i.denominator ≤ i.value then (Nat.toDigits 10 (i.value / i.denominator)).length
  else
    -(((List.range 400).takeWhile fun j => i.value * Nat.pow 10 (j + 1) < i.denominator).length : Int)

/-- The decimal with a given exponent that is nearest to the middle among the two next to it
that lie in the interval. -/
def Interval.onGrid? (i : Interval) (exponent : Int) : Option Scaled :=
  let top := i.value * Nat.pow 10 (-exponent).toNat
  let step := i.denominator * Nat.pow 10 exponent.toNat
  let below : Scaled := ⟨top / step, exponent⟩
  let above : Scaled := ⟨top / step + 1, exponent⟩
  match i.contains below, i.contains above with
  | false, false => none
  | true, false => some below
  | false, true => some above
  | true, true =>
    let twice := 2 * (top % step)
    if twice < step || (twice == step && below.digits % 2 == 0) then some below else some above

/-- The shortest decimal in an interval; seventeen digits are always enough. -/
def Interval.shortest (i : Interval) : Scaled :=
  ((List.range 17).findSome? fun n => i.onGrid? (i.magnitude - (n + 1 : Nat))).getD ⟨0, 0⟩

/-- The parts of a finite double without its sign, from its bits. -/
def Binary.ofBits (bits : UInt64) : Binary :=
  let fraction := (bits % 0x10000000000000).toNat
  let power := (bits / 0x10000000000000 % 0x800).toNat
  if power = 0 then ⟨fraction, -1074, false⟩
  else ⟨fraction + 0x10000000000000, (power : Int) - 1075, fraction == 0 && power != 1⟩

/-- Digits without the zeros at their end, which move into the exponent. -/
def Scaled.trim (fuel : Nat) (d : Scaled) : Scaled :=
  match fuel with
  | 0 => d
  | fuel + 1 => if d.digits % 10 = 0 && d.digits ≠ 0 then trim fuel ⟨d.digits / 10, d.exponent + 1⟩
    else d

/-- Where the positional notation ends: the exponents of the leading digit for which it is used,
and the least number of digits of a written exponent. -/
structure Layout where
  lowest : Int
  highest : Int
  exponentDigits : Nat

/-- Positional from a ten thousandth up to ten to the sixteenth, otherwise with an exponent of
two digits at least. -/
def Layout.standard : Layout := ⟨-4, 15, 2⟩

/-- The text of a positive decimal: `12.0`, `0.02`, `1e+16`, `1.5e-07`. -/
def Layout.write (layout : Layout) (d : Scaled) : String :=
  let d := d.trim 400
  let digits := Nat.toDigits 10 d.digits
  let leading : Int := digits.length - 1 + d.exponent
  if layout.lowest ≤ leading && leading ≤ layout.highest then
    if 0 ≤ d.exponent then
      String.ofList (digits ++ List.replicate d.exponent.toNat '0' ++ ['.', '0'])
    else if 0 ≤ leading then
      String.ofList (digits.take (leading.toNat + 1) ++ '.' :: digits.drop (leading.toNat + 1))
    else
      String.ofList ('0' :: '.' :: List.replicate (-leading - 1).toNat '0' ++ digits)
  else
    let power := Nat.toDigits 10 leading.natAbs
    let fill := List.replicate (layout.exponentDigits - power.length) '0'
    let mantissa := match digits with
      | [] => []
      | [only] => [only]
      | first :: others => first :: '.' :: others
    String.ofList (mantissa ++ 'e' :: (if leading < 0 then '-' else '+') :: fill ++ power)

/-- The text of a double: the shortest decimal that reads back, `inf` and `nan`. -/
def text (x : Float) : String :=
  if x.isNaN then "nan"
  else
    let bits := x.toBits
    let sign := if bits / 0x8000000000000000 = 1 then "-" else ""
    if x.isInf then sign ++ "inf"
    else
      let b := Binary.ofBits (bits % 0x8000000000000000)
      if b.mantissa = 0 then sign ++ "0.0"
      else sign ++ Layout.standard.write b.interval.shortest

end ImportAtlas.Decimal
