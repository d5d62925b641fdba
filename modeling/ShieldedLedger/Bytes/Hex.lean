import ShieldedLedger.Bytes

/-!
# Hexadecimal text

`hexEncode` writes two lowercase digits a byte. `hexDecode` reads exactly the bytes it is asked
for and says what is wrong otherwise (`HexError`). A hash is displayed with its bytes reversed
(`Bytes.display`, `Bytes.parse`).
-/

namespace ShieldedLedger

/-- The lowercase digit of a value below sixteen. -/
def hexDigit (value : UInt8) : Char :=
  if value < 10 then Char.ofNat (48 + value.toNat) else Char.ofNat (87 + value.toNat)

/-- The characters of `bytes` in hexadecimal. -/
def hexChars (bytes : List UInt8) : List Char :=
  bytes.flatMap fun (byte : UInt8) => [hexDigit (byte >>> 4), hexDigit (byte &&& 15)]

/-- Two lowercase digits for each byte. -/
def hexEncode (bytes : List UInt8) : String := String.ofList (hexChars bytes)

/-- The value of a hexadecimal digit of either case, given as an ASCII byte. -/
def hexValue? (digit : UInt8) : Option UInt8 :=
  if 48 ≤ digit ∧ digit ≤ 57 then some (digit - 48)
  else if 97 ≤ digit ∧ digit ≤ 102 then some (digit - 87)
  else if 65 ≤ digit ∧ digit ≤ 70 then some (digit - 55)
  else none

/-- Why a text is not the hexadecimal form of a value. -/
inductive HexError
  /-- The text has an odd number of digits. -/
  | oddLength
  /-- The text has the wrong number of digits for the value. -/
  | wrongLength
  /-- The byte at `position` is not a digit. -/
  | badDigit (byte : UInt8) (position : Nat)
deriving DecidableEq

/-- A byte as the character of that code, quoted: control characters, the quote, the backslash and
the two invisible characters above them are escaped. -/
def quotedByte (byte : UInt8) : String :=
  let body : List Char :=
    if byte = 0 then ['\\', '0']
    else if byte = 9 then ['\\', 't']
    else if byte = 10 then ['\\', 'n']
    else if byte = 13 then ['\\', 'r']
    else if byte = 39 then ['\\', '\'']
    else if byte = 92 then ['\\', '\\']
    else if byte < 32 ∨ (127 ≤ byte ∧ byte ≤ 160) ∨ byte = 173 then
      ['\\', 'u', '\x7b'] ++ (if byte < 16 then [] else [hexDigit (byte >>> 4)])
        ++ [hexDigit (byte &&& 15), '\x7d']
    else [Char.ofNat byte.toNat]
  String.ofList (['\''] ++ body ++ ['\''])

/-- What is wrong, in words. -/
def HexError.message : HexError → String
  | .oddLength => "Odd number of digits"
  | .wrongLength => "Invalid string length"
  | .badDigit byte position =>
    "Invalid character " ++ quotedByte byte ++ " at position " ++ toString position

/-- Reads pairs of digits, the first of them at `position`. -/
def hexPairs (position : Nat) : List UInt8 → Except HexError (List UInt8)
  | high :: low :: rest =>
    match hexValue? high, hexValue? low with
    | none, _ => .error (.badDigit high position)
    | some _, none => .error (.badDigit low (position + 1))
    | some h, some l => (hexPairs (position + 2) rest).map ((h <<< 4 ||| l) :: ·)
  | _ => .ok []

/-- The `n` bytes that `text` spells. The number of digits is checked before any of them. -/
def hexDecode (n : Nat) (text : List UInt8) : Except HexError (Bytes n) :=
  if text.length % 2 = 1 then .error .oddLength
  else if text.length ≠ 2 * n then .error .wrongLength
  else
    match hexPairs 0 text with
    | .error e => .error e
    | .ok bytes =>
      match Bytes.ofList? n bytes with
      | some value => .ok value
      | none => .error .wrongLength

namespace Bytes

variable {n : Nat}

/-- The bytes in storage order, in hexadecimal. -/
def hex (b : Bytes n) : String := hexEncode b.toList

/-- The displayed form of a hash: its bytes last to first, in hexadecimal. -/
def display (b : Bytes n) : String := b.reverse.hex

/-- The first `count` digits of the displayed form. -/
def shortDisplay (count : Nat) (b : Bytes n) : String := String.ofList (b.display.toList.take count)

/-- Reads a displayed form. -/
def parse (n : Nat) (text : List UInt8) : Except HexError (Bytes n) :=
  (hexDecode n text).map reverse

end Bytes

end ShieldedLedger
