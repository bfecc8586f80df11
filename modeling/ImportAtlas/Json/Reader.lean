import ImportAtlas.Json.Number

/-!
# Reading JSON

The strict grammar, with three additions: the literals for the doubles that have no decimal
digits. Blanks are the four of the grammar alone. A text that is no value as a whole is refused.
-/

namespace ImportAtlas.Json

/-- Whether a character is one of the four blanks of the grammar. -/
def isGap (c : Char) : Bool := c == ' ' || c == '\t' || c == '\n' || c == '\r'

/-- The text from its first character that is no blank. -/
def skipGap (s : List Char) : List Char := s.dropWhile isGap

/-- The value of a hexadecimal digit. -/
def hexValue (c : Char) : Option Nat :=
  if c.isDigit then some (c.toNat - '0'.toNat)
  else if 'a' ≤ c && c ≤ 'f' then some (c.toNat - 'a'.toNat + 10)
  else if 'A' ≤ c && c ≤ 'F' then some (c.toNat - 'A'.toNat + 10)
  else none

/-- The number that four hexadecimal digits write, and the rest. -/
def takeUnit : List Char → Option (Nat × List Char)
  | a :: b :: c :: d :: rest => do
    let a ← hexValue a
    let b ← hexValue b
    let c ← hexValue c
    let d ← hexValue d
    some (((a * 16 + b) * 16 + c) * 16 + d, rest)
  | _ => none

/-- Whether a unit of UTF-16 is the first of a pair. -/
def isHighUnit (n : Nat) : Bool := 0xD800 ≤ n && n < 0xDC00

/-- Whether a unit of UTF-16 is the second of a pair. -/
def isLowUnit (n : Nat) : Bool := 0xDC00 ≤ n && n < 0xE000

/-- The character of a unit; a half of a pair stands for the replacement character. -/
def unitChar (n : Nat) : Char :=
  if isHighUnit n || isLowUnit n then '\uFFFD' else Char.ofNat n

/-- The character of a pair of units. -/
def pairChar (high low : Nat) : Char := Char.ofNat (0x10000 + (high - 0xD800) * 0x400 + (low - 0xDC00))

/-- The character of an escape, from after its backslash, and the rest. -/
def takeEscape : List Char → Option (Char × List Char)
  | 'u' :: rest =>
    match takeUnit rest with
    | none => none
    | some (high, afterHigh) =>
      match isHighUnit high, afterHigh with
      | true, '\\' :: 'u' :: second =>
        match takeUnit second with
        | none => none
        | some (low, rest) =>
          if isLowUnit low then some (pairChar high low, rest) else some (unitChar high, afterHigh)
      | _, _ => some (unitChar high, afterHigh)
  | '\x22' :: rest => some ('\x22', rest)
  | '\\' :: rest => some ('\\', rest)
  | '/' :: rest => some ('/', rest)
  | 'b' :: rest => some ('\x08', rest)
  | 'f' :: rest => some ('\x0c', rest)
  | 'n' :: rest => some ('\n', rest)
  | 'r' :: rest => some ('\r', rest)
  | 't' :: rest => some ('\t', rest)
  | _ => none

/-- The characters of a string, from after its opening quote, and the rest after its closing
one. A control character must be escaped. -/
def takeString : Nat → List Char → Option (List Char × List Char)
  | 0, _ => none
  | _ + 1, [] => none
  | fuel + 1, c :: rest =>
    if c = '\x22' then some ([], rest)
    else if c = '\\' then
      match takeEscape rest with
      | none => none
      | some (e, rest) => (takeString fuel rest).map fun (s, rest) => (e :: s, rest)
    else if c.toNat < 32 then none
    else (takeString fuel rest).map fun (s, rest) => (c :: s, rest)

/-- The string at the start of a text, from after its opening quote. -/
def takeText (s : List Char) : Option (String × List Char) :=
  (takeString (s.length + 1) s).map fun (text, rest) => (String.ofList text, rest)

/-- Drop a fixed beginning. -/
def dropWord (word : String) (s : List Char) : Option (List Char) :=
  if word.toList.isPrefixOf s then some (s.drop word.toList.length) else none

/-- A literal or a number at the start of a text. -/
def takeScalar (s : List Char) : Option (Json × List Char) :=
  if let some rest := dropWord "null" s then some (.null, rest)
  else if let some rest := dropWord "true" s then some (.bool true, rest)
  else if let some rest := dropWord "false" s then some (.bool false, rest)
  else if let some rest := dropWord "NaN" s then some (.float (0.0 / 0.0), rest)
  else if let some rest := dropWord "Infinity" s then some (.float (1.0 / 0.0), rest)
  else if let some rest := dropWord "-Infinity" s then some (.float (-1.0 / 0.0), rest)
  else takeNumber s

mutual

/-- The value at the start of a text, which is no blank, and the rest. -/
def takeValue : Nat → List Char → Option (Json × List Char)
  | 0, _ => none
  | fuel + 1, s =>
    match s with
    | '\x22' :: rest => (takeText rest).map fun (text, rest) => (.str text, rest)
    | '[' :: rest =>
      match skipGap rest with
      | ']' :: rest => some (.arr [], rest)
      | rest => (takeItems fuel rest).map fun (items, rest) => (.arr items, rest)
    | '\x7b' :: rest =>
      match skipGap rest with
      | '\x7d' :: rest => some (.obj [], rest)
      | rest => (takeFields fuel rest).map fun (fields, rest) => (.obj (mergeFields fields), rest)
    | _ => takeScalar s

/-- The items of an array up to its closing bracket, at least one. -/
def takeItems : Nat → List Char → Option (List Json × List Char)
  | 0, _ => none
  | fuel + 1, s =>
    match takeValue fuel s with
    | none => none
    | some (item, rest) =>
      match skipGap rest with
      | ']' :: rest => some ([item], rest)
      | ',' :: rest => (takeItems fuel (skipGap rest)).map fun (items, rest) => (item :: items, rest)
      | _ => none

/-- The fields of an object up to its closing brace, at least one, with repeated keys. -/
def takeFields : Nat → List Char → Option (List (String × Json) × List Char)
  | 0, _ => none
  | fuel + 1, s =>
    match s with
    | '\x22' :: rest =>
      match takeText rest with
      | none => none
      | some (key, rest) =>
        match skipGap rest with
        | ':' :: rest =>
          match takeValue fuel (skipGap rest) with
          | none => none
          | some (value, rest) =>
            match skipGap rest with
            | '\x7d' :: rest => some ([(key, value)], rest)
            | ',' :: rest =>
              (takeFields fuel (skipGap rest)).map fun (fields, rest) => ((key, value) :: fields, rest)
            | _ => none
        | _ => none
    | _ => none

end

/-- The value that a whole text writes, none for any other text. Each nested call but one in two
consumes a character, so that twice the length bounds the depth. -/
def read? (s : List Char) : Option Json :=
  match takeValue (2 * s.length + 2) (skipGap s) with
  | some (value, rest) => if skipGap rest = [] then some value else none
  | none => none

end ImportAtlas.Json
