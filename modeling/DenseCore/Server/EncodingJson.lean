/-
Go's `encoding/json`, as far as the tool parser uses it.

`Unmarshal` into an `interface{}` reads numbers as doubles and objects as maps, and a
number that is too large for a double is an error.  `Marshal` writes the keys of a
map in order and escapes what is special in HTML.  A key of an object finds the field
of a struct without regard to case.  The limit on the depth of nesting is left out.
-/
import DenseCore.Lib.Float64

namespace DenseCore.Server

open Lib (Bytes literal Utf8.decodeRune)
open Lib.Json (Value parse)
open Lib.Float64 (Finite parseFloat formatFloat)

/-- What an `interface{}` holds after `Unmarshal`. -/
abbrev Any := Value Finite

/-- A parsed value with its numbers read as float64. -/
def decodeAny (v : Value Bytes) : Option Any := v.read parseFloat

/-- `json.Unmarshal` into an `any`. -/
def unmarshalAny (src : Bytes) : Option Any := (parse src).bind decodeAny

/-! ### Marshal -/

/-- A hexadecimal digit in lower case. -/
def hexByte (n : Nat) : UInt8 := UInt8.ofNat (if n < 10 then 0x30 + n else 0x57 + n)

/-- A byte below `utf8.RuneSelf` in a string. -/
def quoteByte (b : UInt8) : Bytes :=
  if b = 0x5C ∨ b = 0x22 then [0x5C, b]
  else if b = 0x08 then literal "\\b"
  else if b = 0x0C then literal "\\f"
  else if b = 0x0A then literal "\\n"
  else if b = 0x0D then literal "\\r"
  else if b = 0x09 then literal "\\t"
  else if b < 0x20 ∨ b = 0x26 ∨ b = 0x3C ∨ b = 0x3E then
    literal "\\u00" ++ [hexByte (b.toNat / 16), hexByte (b.toNat % 16)]
  else [b]

/-- A character of several bytes, `width` of them; one byte alone is not valid. -/
def quoteRune (c : Char) (bytes : Bytes) : Bytes :=
  if bytes.length = 1 then literal "\\ufffd"
  else if c.toNat = 0x2028 ∨ c.toNat = 0x2029 then literal "\\u202" ++ [hexByte (c.toNat % 16)]
  else bytes

/-- The escapes of a string, rune by rune. -/
def quoteFrom : Nat → Bytes → Bytes
  | 0, _ => []
  | _ + 1, [] => []
  | fuel + 1, b :: rest =>
    if b < 0x80 then quoteByte b ++ quoteFrom fuel rest
    else
      let (c, after) := Utf8.decodeRune (b :: rest)
      quoteRune c ((b :: rest).take (rest.length + 1 - after.length)) ++ quoteFrom fuel after

/-- A string as `json.Marshal` writes it. -/
def quoteString (s : Bytes) : Bytes := 0x22 :: quoteFrom s.length s ++ [0x22]

mutual

/-- `json.Marshal`, with sorted keys. -/
def marshal : Any → Bytes
  | .null => literal "null"
  | .bool true => literal "true"
  | .bool false => literal "false"
  | .number x => formatFloat x
  | .string s => quoteString s
  | .array items => 0x5B :: marshalItems items ++ [0x5D]
  | .object members => 0x7B :: marshalMembers members ++ [0x7D]

/-- The items of an array, with commas between them. -/
def marshalItems : List Any → Bytes
  | [] => []
  | [v] => marshal v
  | v :: rest => marshal v ++ 0x2C :: marshalItems rest

/-- The members of an object, with commas between them. -/
def marshalMembers : List (Bytes × Any) → Bytes
  | [] => []
  | [(key, v)] => quoteString key ++ 0x3A :: marshal v
  | (key, v) :: rest => quoteString key ++ 0x3A :: marshal v ++ 0x2C :: marshalMembers rest

end

/-! ### Fields -/

/-- `foldName`: upper case, with the two letters outside ASCII that fold into it. -/
def foldName : Bytes → Bytes
  | 0xC5 :: 0xBF :: rest => 0x53 :: foldName rest
  | 0xE2 :: 0x84 :: 0xAA :: rest => 0x4B :: foldName rest
  | c :: rest => (if 0x61 ≤ c ∧ c ≤ 0x7A then c - 0x20 else c) :: foldName rest
  | [] => []

/-- A `string` field takes a string, and keeps its value at `null`. -/
def setString (old : Bytes) : Value Bytes → Option Bytes
  | .string s => some s
  | .null => some old
  | _ => none

/-- A `json.RawMessage`: the value as it is written, `none` if there was no such
field. -/
abbrev RawMessage := Option (Value Bytes)

/-- An `Unmarshal` into a struct with the fields that `set` knows: unknown keys are
passed over. -/
def setFields {α : Type} (set : Bytes → Value Bytes → α → Option α) :
    List (Bytes × Value Bytes) → α → Option α
  | [], s => some s
  | (key, v) :: rest, s => (set (foldName key) v s).bind (setFields set rest)

/-- A struct takes an object, and keeps its value at `null`. -/
def setStruct {α : Type} (set : Bytes → Value Bytes → α → Option α) (old : α) :
    Value Bytes → Option α
  | .object members => setFields set members old
  | .null => some old
  | _ => none

end DenseCore.Server
