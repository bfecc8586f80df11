/-!
# UTF-8

Encoding characters, and decoding bytes one at a time. A character in the making is given by the
ranges that its next bytes must lie in. Bytes that begin a character and do not finish it, and
any byte that begins none, are ill formed; each longest beginning of a character that breaks off
is one ill-formed piece.
-/

namespace ImportAtlas.Text

/-- The bytes of a character. -/
def encodeChar (c : Char) : List UInt8 :=
  let n := c.toNat
  if n < 0x80 then [UInt8.ofNat n]
  else if n < 0x800 then [UInt8.ofNat (0xC0 + n / 0x40), UInt8.ofNat (0x80 + n % 0x40)]
  else if n < 0x10000 then
    [UInt8.ofNat (0xE0 + n / 0x1000), UInt8.ofNat (0x80 + n / 0x40 % 0x40),
      UInt8.ofNat (0x80 + n % 0x40)]
  else
    [UInt8.ofNat (0xF0 + n / 0x40000), UInt8.ofNat (0x80 + n / 0x1000 % 0x40),
      UInt8.ofNat (0x80 + n / 0x40 % 0x40), UInt8.ofNat (0x80 + n % 0x40)]

/-- The bytes of a text. -/
def encode (s : List Char) : List UInt8 := s.flatMap encodeChar

/-- A character of which some bytes were read. -/
structure Unfinished where
  /-- What the bytes read so far add up to. -/
  value : Nat
  /-- The least and the greatest value of the next byte. -/
  least : Nat
  greatest : Nat
  /-- The number of bytes that follow the next one. -/
  more : Nat
deriving DecidableEq, Repr

/-- What a byte means where a character begins. -/
inductive FirstByte where
  /-- A whole character. -/
  | whole (c : Char)
  /-- The beginning of a longer one. -/
  | start (u : Unfinished)
  /-- Neither. -/
  | bad
deriving DecidableEq, Repr

/-- Read the first byte of a character. The ranges rule out overlong forms, surrogates and
numbers above the last character. -/
def firstByte (b : UInt8) : FirstByte :=
  let n := b.toNat
  if n < 0x80 then .whole (Char.ofNat n)
  else if n < 0xC2 then .bad
  else if n < 0xE0 then .start ⟨n - 0xC0, 0x80, 0xBF, 0⟩
  else if n < 0xF0 then
    .start ⟨n - 0xE0, if n = 0xE0 then 0xA0 else 0x80, if n = 0xED then 0x9F else 0xBF, 1⟩
  else if n < 0xF5 then
    .start ⟨n - 0xF0, if n = 0xF0 then 0x90 else 0x80, if n = 0xF4 then 0x8F else 0xBF, 2⟩
  else .bad

/-- Whether a byte continues a character. -/
def Unfinished.accepts (u : Unfinished) (b : UInt8) : Bool :=
  u.least ≤ b.toNat && b.toNat ≤ u.greatest

/-- Read a byte where a character begins: the characters that are complete then, with none for an
ill-formed piece, and the one that is begun. -/
def decodeFirst (b : UInt8) : List (Option Char) × Option Unfinished :=
  match firstByte b with
  | .whole c => ([some c], none)
  | .start u => ([], some u)
  | .bad => ([none], none)

/-- Read a byte after the beginning of a character. A byte that does not continue it makes that
beginning ill formed, and is read anew. -/
def decodeNext (u : Unfinished) (b : UInt8) : List (Option Char) × Option Unfinished :=
  if u.accepts b then
    let value := u.value * 0x40 + (b.toNat - 0x80)
    match u.more with
    | 0 => ([some (Char.ofNat value)], none)
    | more + 1 => ([], some ⟨value, 0x80, 0xBF, more⟩)
  else
    let (chars, begun) := decodeFirst b
    (none :: chars, begun)

/-- Read a byte, given the character that was begun before. -/
def decodeByte : Option Unfinished → UInt8 → List (Option Char) × Option Unfinished
  | none, b => decodeFirst b
  | some u, b => decodeNext u b

/-- Read some bytes of a longer sequence, given the character that was begun before. -/
def decodeChunk : Option Unfinished → List UInt8 → List (Option Char) × Option Unfinished
  | begun, [] => ([], begun)
  | begun, b :: rest =>
    let (chars, begun) := decodeByte begun b
    let (more, begun) := decodeChunk begun rest
    (chars ++ more, begun)

/-- What the end of a sequence adds: a character that was begun stays ill formed. -/
def decodeEnd : Option Unfinished → List (Option Char)
  | none => []
  | some _ => [none]

/-- The characters of a whole sequence of bytes, with none for each ill-formed piece. -/
def decodePieces (bytes : List UInt8) : List (Option Char) :=
  let (chars, begun) := decodeChunk none bytes
  chars ++ decodeEnd begun

/-- A text with the replacement character for each ill-formed piece. -/
def replaceIllFormed (pieces : List (Option Char)) : List Char :=
  pieces.map fun c => c.getD '\uFFFD'

/-- The characters of a sequence of bytes, with the replacement character for each ill-formed
piece. -/
def decodeLossy (bytes : List UInt8) : List Char := replaceIllFormed (decodePieces bytes)

/-- The characters of a sequence of bytes, none if a piece is ill formed. -/
def decode? (bytes : List UInt8) : Option (List Char) := (decodePieces bytes).mapM id

end ImportAtlas.Text
