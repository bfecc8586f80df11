import ImportAtlas.Json.Value

/-!
# JSON numbers

A number is the longest beginning of a text that the grammar of numbers allows. One without a
fraction and an exponent is a whole number of any size; any other is the nearest double.
-/

namespace ImportAtlas.Json

/-- The value of a decimal digit. -/
def digitValue (c : Char) : Nat := c.toNat - '0'.toNat

/-- The number that a run of decimal digits writes. -/
def digitsValue (digits : List Char) : Nat :=
  digits.foldl (fun n c => n * 10 + digitValue c) 0

/-- The digits of a whole number without a sign, and the rest: zero stands alone, any other
number begins with another digit. -/
def takeWhole (s : List Char) : Option (List Char × List Char) :=
  match s with
  | [] => none
  | c :: rest =>
    if c = '0' then some (['0'], rest)
    else if c.isDigit then some (c :: rest.takeWhile Char.isDigit, rest.dropWhile Char.isDigit)
    else none

/-- The digits of a fraction, empty where no point with a digit after it follows. -/
def takeFraction (s : List Char) : List Char × List Char :=
  match s with
  | '.' :: rest =>
    if rest.head?.any Char.isDigit then (rest.takeWhile Char.isDigit, rest.dropWhile Char.isDigit)
    else ([], s)
  | _ => ([], s)

/-- An exponent, none where no mark with a digit after it follows. -/
def takeExponent (s : List Char) : Option Int × List Char :=
  match s with
  | mark :: rest =>
    if mark = 'e' ∨ mark = 'E' then
      let (negative, digits) := match rest with
        | '-' :: digits => (true, digits)
        | '+' :: digits => (false, digits)
        | _ => (false, rest)
      if digits.head?.any Char.isDigit then
        let n : Int := digitsValue (digits.takeWhile Char.isDigit)
        (some (if negative then -n else n), digits.dropWhile Char.isDigit)
      else (none, s)
    else (none, s)
  | [] => (none, s)

/-- The double nearest to `digits * 10 ^ exponent`. Exponents far outside the range of doubles
are cut off before they are computed with. -/
def nearestFloat (digits : List Char) (exponent : Int) : Float :=
  let n := digitsValue digits
  let size : Int := digits.length + exponent
  if n = 0 then 0.0
  else if 400 < size then 1.0 / 0.0
  else if size - (digits.length - (Nat.toDigits 10 n).length : Int) < -400 then 0.0
  else if exponent < 0 then Float.ofScientific n true exponent.natAbs
  else Float.ofScientific n false exponent.toNat

/-- The number at the start of a text, and the rest. -/
def takeNumber (s : List Char) : Option (Json × List Char) :=
  let (negative, unsigned) := match s with
    | '-' :: rest => (true, rest)
    | _ => (false, s)
  match takeWhole unsigned with
  | none => none
  | some (whole, afterWhole) =>
    let (fraction, afterFraction) := takeFraction afterWhole
    let (exponent, rest) := takeExponent afterFraction
    if fraction = [] ∧ exponent = none then
      let n : Int := digitsValue whole
      some (.int (if negative then -n else n), rest)
    else
      let x := nearestFloat (whole ++ fraction) (exponent.getD 0 - fraction.length)
      some (.float (if negative then -x else x), rest)

end ImportAtlas.Json
