/-!
# Base64

Lenient decoding: characters outside the alphabet are skipped. Padding counts only where at
least two characters of a group of four are there, and ends the text once the group is full. A
group that is left incomplete makes the whole text invalid.
-/

namespace ImportAtlas.Text

/-- The six bits of a character of the alphabet. -/
def sextet? (c : Char) : Option Nat :=
  if 'A' ≤ c && c ≤ 'Z' then some (c.toNat - 'A'.toNat)
  else if 'a' ≤ c && c ≤ 'z' then some (c.toNat - 'a'.toNat + 26)
  else if '0' ≤ c && c ≤ '9' then some (c.toNat - '0'.toNat + 52)
  else if c = '+' then some 62
  else if c = '/' then some 63
  else none

/-- The whole bytes of a group of at most four sextets. -/
def groupBytes : List Nat → List UInt8
  | [a, b] => [UInt8.ofNat (a * 4 + b / 16)]
  | [a, b, c] => [UInt8.ofNat (a * 4 + b / 16), UInt8.ofNat (b % 16 * 16 + c / 4)]
  | [a, b, c, d] =>
    [UInt8.ofNat (a * 4 + b / 16), UInt8.ofNat (b % 16 * 16 + c / 4), UInt8.ofNat (c % 4 * 64 + d)]
  | _ => []

/-- Decode from inside a group, given its sextets and the pads that follow them directly. -/
def base64From : (group : List Nat) → (pads : Nat) → List Char → Option (List UInt8)
  | group, _, [] => if group.isEmpty then some [] else none
  | group, pads, c :: rest =>
    if c = '=' then
      if 2 ≤ group.length then
        if 4 ≤ group.length + (pads + 1) then some (groupBytes group)
        else base64From group (pads + 1) rest
      else base64From group pads rest
    else
      match sextet? c with
      | none => base64From group pads rest
      | some n =>
        if group.length = 3 then (base64From [] 0 rest).map (groupBytes (group ++ [n]) ++ ·)
        else base64From (group ++ [n]) 0 rest

/-- The bytes that a text writes, none if it is not ASCII or its last group is incomplete. -/
def base64? (s : List Char) : Option (List UInt8) :=
  if s.all fun c => c.toNat < 128 then base64From [] 0 s else none

end ImportAtlas.Text
