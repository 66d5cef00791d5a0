/-
Bytes written as characters.

A byte-level vocabulary stores every byte as a printable character: the visible
bytes of Latin-1 as themselves, the others as the characters from U+0100 on.
Going back means cutting a string into UTF-8 units and looking each one up.  These
are the helpers at the top of `models/tokenizer.cpp`.
-/
import DenseCore.Lib.Strings

namespace DenseCore.Models

open DenseCore.Lib

/-! ### UTF-8 units -/

/-- The length of a character by its first byte. -/
def utf8CharLen (c : UInt8) : Nat :=
  if c &&& 0x80 = 0 then 1
  else if c &&& 0xE0 = 0xC0 then 2
  else if c &&& 0xF0 = 0xE0 then 3
  else if c &&& 0xF8 = 0xF0 then 4
  else 1

/-- The loop of `SplitUtf8Units`.  A unit that would run past the end is cut off
there.  Every round takes at least one byte. -/
def splitUtf8Loop : Nat → Bytes → List Bytes
  | 0, _ => []
  | _, [] => []
  | fuel + 1, c :: rest =>
    let len := utf8CharLen c
    (c :: rest).take len :: splitUtf8Loop fuel ((c :: rest).drop len)

/-- The characters of a text, each as its bytes. -/
def splitUtf8Units (text : Bytes) : List Bytes := splitUtf8Loop text.length text

/-- `EncodeUtf8`, for code points below U+110000. -/
def encodeUtf8 (cp : Nat) : Bytes :=
  if cp ≤ 0x7F then [UInt8.ofNat cp]
  else if cp ≤ 0x7FF then [UInt8.ofNat (0xC0 ||| cp >>> 6), UInt8.ofNat (0x80 ||| cp &&& 0x3F)]
  else if cp ≤ 0xFFFF then
    [UInt8.ofNat (0xE0 ||| cp >>> 12), UInt8.ofNat (0x80 ||| cp >>> 6 &&& 0x3F),
      UInt8.ofNat (0x80 ||| cp &&& 0x3F)]
  else
    [UInt8.ofNat (0xF0 ||| cp >>> 18), UInt8.ofNat (0x80 ||| cp >>> 12 &&& 0x3F),
      UInt8.ofNat (0x80 ||| cp >>> 6 &&& 0x3F), UInt8.ofNat (0x80 ||| cp &&& 0x3F)]

/-! ### The byte table -/

/-- The bytes that are written as themselves. -/
def printable (b : Nat) : Bool :=
  33 ≤ b && b ≤ 126 || 161 ≤ b && b ≤ 172 || 174 ≤ b && b ≤ 255

/-- The other bytes are numbered from 256 on, in their order. -/
def byteCodepoint (b : Nat) : Nat :=
  if printable b then b
  else 256 + ((List.range b).filter fun b => !printable b).length

/-- `ByteToUnicode()[b]`. -/
def byteToUnicode (b : UInt8) : Bytes := encodeUtf8 (byteCodepoint b.toNat)

/-- `UnicodeToByte().find(unit)`: the byte whose symbol it is. -/
def unicodeToByte (unit : Bytes) : Option UInt8 :=
  ((List.range 256).map UInt8.ofNat).find? fun b => byteToUnicode b = unit

/-- The symbols of a string, one after the other. -/
def byteImage (text : Bytes) : Bytes := text.flatMap byteToUnicode

/-! ### Hexadecimal bytes -/

/-- The value of a hexadecimal digit. -/
def hexDigit (c : UInt8) : Option Nat :=
  if 48 ≤ c && c ≤ 57 then some (c.toNat - 48)
  else if 65 ≤ c && c ≤ 70 then some (c.toNat - 55)
  else if 97 ≤ c && c ≤ 102 then some (c.toNat - 87)
  else none

/-- `std::isspace` in the C locale. -/
def isSpace (c : UInt8) : Bool := c = 32 || 9 ≤ c && c ≤ 13

/-- The digits `sscanf` reads, and their value. -/
def scanDigits (s : Bytes) : Option Nat :=
  let digits := (s.takeWhile fun c => (hexDigit c).isSome).filterMap hexDigit
  if digits.isEmpty then none else some (digits.foldl (fun n d => 16 * n + d) 0)

/-- `sscanf(hex, "%x", &byte_val)`, and the value as a `char`: white space, a sign,
a prefix `0x`, digits. -/
def scanHexByte (s : Bytes) : Option UInt8 :=
  let s := s.dropWhile isSpace
  let negative := s.head? = some 45
  let s := if negative || s.head? = some 43 then s.tail else s
  let s := if s.take 2 = literal "0x" || s.take 2 = literal "0X" then s.drop 2 else s
  (scanDigits s).map fun n => if negative then -UInt8.ofNat n else UInt8.ofNat n

/-- A hexadecimal digit in upper case. -/
def upperHexDigit (n : Nat) : UInt8 := UInt8.ofNat (if n < 10 then 48 + n else 55 + n)

/-- `snprintf(buf, sizeof(buf), "<0x%02X>", b)`. -/
def hexTokenLiteral (b : UInt8) : Bytes :=
  literal "<0x" ++ [upperHexDigit (b.toNat / 16), upperHexDigit (b.toNat % 16)] ++ literal ">"

/-- The byte that a token of the form `<0xNN>` stands for. -/
def hexTokenByte (token : Bytes) : Option UInt8 :=
  if token.length = 6 && token.take 3 = literal "<0x" && token.drop 5 = literal ">" then
    scanHexByte ((token.drop 3).take 2)
  else none

end DenseCore.Models
