import SourceIndex.Decimal.Shortest
import SourceIndex.Json.Value
import SourceIndex.Text.Offset

/-! Writes values without any white space. In strings only quotes, backslashes and control
characters are escaped. Every writer puts its text in front of a given rest. -/

namespace SourceIndex.Json

def hexDigit (n : Nat) : Char := "0123456789abcdef".toList[n]?.getD '0'

def escapeChar (c : Char) : Text :=
  if c = '"' then ['\\', '"']
  else if c = '\\' then ['\\', '\\']
  else if c = '\x08' then ['\\', 'b']
  else if c = '\x0c' then ['\\', 'f']
  else if c = '\n' then ['\\', 'n']
  else if c = '\r' then ['\\', 'r']
  else if c = '\t' then ['\\', 't']
  else if c.toNat < 0x20 then
    ['\\', 'u', '0', '0', hexDigit (c.toNat / 16), hexDigit (c.toNat % 16)]
  else [c]

def writeString (s : String) (rest : Text) : Text :=
  '"' :: (s.toList.flatMap escapeChar ++ '"' :: rest)

def digits (n : Nat) : Text := Nat.toDigits 10 n

def integer (n : Int) : Text := if n < 0 then '-' :: digits n.natAbs else digits n.natAbs

/-- Positional from `1e-5` up to below `1e16`, always with a point; otherwise one digit before the
point and an exponent. -/
def layoutDecimal (d : Decimal.Shortest) : Text :=
  let ds := digits d.digits
  let point := Int.ofNat ds.length + d.exponent
  if 0 ≤ d.exponent ∧ point ≤ 16 then ds ++ List.replicate d.exponent.toNat '0' ++ ['.', '0']
  else if 0 < point ∧ point ≤ 16 then ds.take point.toNat ++ '.' :: ds.drop point.toNat
  else if -5 < point ∧ point ≤ 0 then '0' :: '.' :: (List.replicate (-point).toNat '0' ++ ds)
  else if ds.length = 1 then ds ++ 'e' :: integer (point - 1)
  else ds.take 1 ++ '.' :: (ds.drop 1 ++ 'e' :: integer (point - 1))

/-- The fewest digits that read back. What is not finite is written as null. -/
def floatText (x : Float) : Text :=
  let bits := x.toBits
  let magnitude := bits.toNat % 0x8000000000000000
  let sign : Text := if 0x8000000000000000 ≤ bits.toNat then ['-'] else []
  if 0x7FF0000000000000 ≤ magnitude then "null".toList
  else if magnitude = 0 then sign ++ ['0', '.', '0']
  else sign ++ layoutDecimal (Decimal.Binary.ofBits magnitude.toUInt64).shortest

mutual

def write : Json → Text → Text
  | null, rest => "null".toList ++ rest
  | bool b, rest => (if b then "true" else "false").toList ++ rest
  | number n, rest => digits n ++ rest
  | float x, rest => floatText x ++ rest
  | string s, rest => writeString s rest
  | array [], rest => '[' :: ']' :: rest
  | array (v :: vs), rest => '[' :: write v (writeItems vs rest)
  | object [], rest => '\x7b' :: '\x7d' :: rest
  | object ((k, v) :: ms), rest =>
    '\x7b' :: writeString k (':' :: write v (writeMembers ms rest))

def writeItems : List Json → Text → Text
  | [], rest => ']' :: rest
  | v :: vs, rest => ',' :: write v (writeItems vs rest)

def writeMembers : List (String × Json) → Text → Text
  | [], rest => '\x7d' :: rest
  | (k, v) :: ms, rest => ',' :: writeString k (':' :: write v (writeMembers ms rest))

end

def render (v : Json) : Text := v.write []

end SourceIndex.Json
