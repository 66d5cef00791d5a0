/-
Values of JSON texts.

`parse` reads a text by the grammar of RFC 8259 into a tree that keeps numbers as
they are written and the members of an object in their order.  What a text means is
a second step: `Value.read` reads the numbers and makes a map of every object, its
keys sorted, the last of equal keys counting.  Strings are read into valid UTF-8: a
byte or an escape that stands for no character gives the replacement character.
Recursion is bounded by fuel, and the length of the text is enough of it.
-/
import DenseCore.Lib.JsonText

namespace DenseCore.Lib.Json

/-- A JSON value with numbers in `N`. -/
inductive Value (N : Type) where
  | null
  | bool (b : Bool)
  | number (n : N)
  | string (s : Bytes)
  | array (items : List (Value N))
  | object (members : List (Bytes × Value N))

/-! ### Reading strings -/

def hexDigit (c : UInt8) : Option Nat :=
  if 0x30 ≤ c ∧ c ≤ 0x39 then some (c.toNat - 0x30)
  else if 0x41 ≤ c ∧ c ≤ 0x46 then some (c.toNat - 0x37)
  else if 0x61 ≤ c ∧ c ≤ 0x66 then some (c.toNat - 0x57)
  else none

/-- The code unit of four hexadecimal digits. -/
def hex4 (a b c d : UInt8) : Option Nat := do
  return ((← hexDigit a) * 16 + (← hexDigit b)) * 256 + (← hexDigit c) * 16 + (← hexDigit d)

/-- The byte that a two-character escape stands for. -/
def simpleEscape (e : UInt8) : Option UInt8 :=
  if e = 0x22 ∨ e = 0x5C ∨ e = 0x2F then some e
  else if e = 0x62 then some 0x08
  else if e = 0x66 then some 0x0C
  else if e = 0x6E then some 0x0A
  else if e = 0x72 then some 0x0D
  else if e = 0x74 then some 0x09
  else none

/-- The first half of a surrogate pair. -/
def isHigh (u : Nat) : Bool := 0xD800 ≤ u && u < 0xDC00

/-- The second half of a surrogate pair. -/
def isLow (u : Nat) : Bool := 0xDC00 ≤ u && u < 0xE000

/-- What stands for a half without its other half. -/
def replacement : Char := Char.ofNat 0xFFFD

/-- The character of a code unit, if it is not half of a pair. -/
def unitChar (u : Nat) : Char := if isHigh u || isLow u then replacement else Char.ofNat u

/-- The character of a surrogate pair. -/
def pairChar (high low : Nat) : Char :=
  Char.ofNat ((high - 0xD800) * 0x400 + (low - 0xDC00) + 0x10000)

/-- What stands before the closing quote of a string, and what follows it.  The byte
behind a backslash is never the closing quote. -/
def rawBody : Bool → Bytes → Option (Bytes × Bytes)
  | _, [] => none
  | true, c :: rest => (rawBody false rest).map fun x => (c :: x.1, x.2)
  | false, c :: rest =>
    if c = 0x22 then some ([], rest)
    else if c < 0x20 then none
    else (rawBody (c = 0x5C) rest).map fun x => (c :: x.1, x.2)

/-- What a string is made of: bytes, and code units that are escaped. -/
inductive Piece where
  | byte (b : UInt8)
  | unit (u : Nat)

/-- A string body taken apart, if it is one. -/
def pieces : Bytes → Option (List Piece)
  | [] => some []
  | [c] => if c = 0x5C then none else some [.byte c]
  | 0x5C :: 0x75 :: a :: b :: c :: d :: rest =>
    (hex4 a b c d).bind fun u => (pieces rest).map (.unit u :: ·)
  | 0x5C :: e :: rest => (simpleEscape e).bind fun b => (pieces rest).map (.byte b :: ·)
  | c :: rest => (pieces rest).map (.byte c :: ·)

/-- Two units that are the halves of a pair make one character. -/
def joinPieces : List Piece → Bytes
  | [] => []
  | .byte b :: rest => b :: joinPieces rest
  | .unit u :: .unit v :: rest =>
    if isHigh u && isLow v then String.utf8EncodeChar (pairChar u v) ++ joinPieces rest
    else String.utf8EncodeChar (unitChar u) ++ joinPieces (.unit v :: rest)
  | .unit u :: rest => String.utf8EncodeChar (unitChar u) ++ joinPieces rest

/-- The bytes that the body of a string stands for. -/
def unescape (body : Bytes) : Option Bytes := (pieces body).map joinPieces

variable (s : Bytes)

/-- A string, from behind its opening quote. -/
def parseString : Option (Bytes × Bytes) :=
  (rawBody false s).bind fun x => (unescape x.1).map fun b => (Utf8.sanitize b, x.2)

/-! ### Reading numbers and words -/

def isWs (c : UInt8) : Bool := c = 0x20 || c = 0x09 || c = 0x0A || c = 0x0D

def skipWs : Bytes := s.dropWhile isWs

def isDigit (c : UInt8) : Bool := 0x30 ≤ c && c ≤ 0x39

/-- The digits at the beginning, and what follows. -/
def takeDigits : Bytes × Bytes := s.span isDigit

/-- One sign, if there is one. -/
def takeSign (isSign : UInt8 → Bool) : Bytes → Bytes × Bytes
  | [] => ([], [])
  | c :: rest => if isSign c then ([c], rest) else ([], c :: rest)

/-- One or more digits. -/
def takeDigits1 : Option (Bytes × Bytes) :=
  if (takeDigits s).1 = [] then none else some (takeDigits s)

/-- An optional part of a number: a lead byte, perhaps a sign, digits. -/
def takePart (isLead : UInt8 → Bool) (isSign : UInt8 → Bool) : Bytes → Option (Bytes × Bytes)
  | [] => some ([], [])
  | c :: rest =>
    if isLead c then
      (takeDigits1 (takeSign isSign rest).2).map fun x =>
        (c :: (takeSign isSign rest).1 ++ x.1, x.2)
    else some ([], c :: rest)

/-- The integer part: digits without a leading zero. -/
def takeInt : Bytes → Option (Bytes × Bytes)
  | [] => none
  | c :: rest => if c = 0x30 then some ([c], rest) else takeDigits1 (c :: rest)

/-- The sign of a number. -/
def takeMinus : Bytes × Bytes := takeSign (· == 0x2D) s

/-- The fraction of a number. -/
def takeFrac : Option (Bytes × Bytes) := takePart (· == 0x2E) (fun _ => false) s

/-- The exponent of a number. -/
def takeExp : Option (Bytes × Bytes) :=
  takePart (fun c => c == 0x65 || c == 0x45) (fun c => c == 0x2B || c == 0x2D) s

/-- A number as it is written. -/
def takeNumber : Option (Bytes × Bytes) := do
  let (minus, s) := takeMinus s
  let (int, s) ← takeInt s
  let (frac, s) ← takeFrac s
  let (exp, s) ← takeExp s
  return (minus ++ int ++ frac ++ exp, s)

/-- A value that is one word. -/
def takeWord : Option (Value Bytes × Bytes) :=
  if (literal "null").isPrefixOf s then some (.null, s.drop 4)
  else if (literal "true").isPrefixOf s then some (.bool true, s.drop 4)
  else if (literal "false").isPrefixOf s then some (.bool false, s.drop 5)
  else (takeNumber s).map fun x => (.number x.1, x.2)

/-! ### Reading values -/

mutual

/-- A value at the beginning of `s`. -/
def parseValue : Nat → Bytes → Option (Value Bytes × Bytes)
  | 0, _ => none
  | _ + 1, [] => none
  | fuel + 1, c :: rest =>
    if c = 0x22 then (parseString rest).map fun x => (.string x.1, x.2)
    else if c = 0x7B then
      match skipWs rest with
      | [] => none
      | d :: after =>
        if d = 0x7D then some (.object [], after)
        else (parseMembers fuel (d :: after)).map fun x => (.object x.1, x.2)
    else if c = 0x5B then
      match skipWs rest with
      | [] => none
      | d :: after =>
        if d = 0x5D then some (.array [], after)
        else (parseItems fuel (d :: after)).map fun x => (.array x.1, x.2)
    else takeWord (c :: rest)

/-- The members of an object and its closing brace. -/
def parseMembers : Nat → Bytes → Option (List (Bytes × Value Bytes) × Bytes)
  | 0, _ => none
  | _ + 1, [] => none
  | fuel + 1, c :: rest =>
    if c = 0x22 then
      match parseString rest with
      | none => none
      | some (key, s) =>
        match skipWs s with
        | [] => none
        | d :: after =>
          if d = 0x3A then
            match parseValue fuel (skipWs after) with
            | none => none
            | some (v, s) =>
              match skipWs s with
              | [] => none
              | e :: after =>
                if e = 0x7D then some ([(key, v)], after)
                else if e = 0x2C then
                  (parseMembers fuel (skipWs after)).map fun x => ((key, v) :: x.1, x.2)
                else none
          else none
    else none

/-- The items of an array and its closing bracket. -/
def parseItems : Nat → Bytes → Option (List (Value Bytes) × Bytes)
  | 0, _ => none
  | fuel + 1, s =>
    match parseValue fuel s with
    | none => none
    | some (v, s) =>
      match skipWs s with
      | [] => none
      | e :: after =>
        if e = 0x5D then some ([v], after)
        else if e = 0x2C then
          (parseItems fuel (skipWs after)).map fun x => (v :: x.1, x.2)
        else none

end

/-- A whole text. -/
def parse : Option (Value Bytes) :=
  (parseValue (s.length + 1) (skipWs s)).bind fun x => if skipWs x.2 = [] then some x.1 else none

/-! ### Maps -/

/-- Set a key of a map whose keys are sorted. -/
def insertKey {α : Type} (key : Bytes) (v : α) : List (Bytes × α) → List (Bytes × α)
  | [] => [(key, v)]
  | (k, w) :: rest =>
    if key = k then (key, v) :: rest
    else if key < k then (key, v) :: (k, w) :: rest
    else (k, w) :: insertKey key v rest

mutual

/-- The value with its numbers read and its objects made maps. -/
def Value.read {N M : Type} (number : N → Option M) : Value N → Option (Value M)
  | .null => some .null
  | .bool b => some (.bool b)
  | .number n => (number n).map .number
  | .string s => some (.string s)
  | .array items => (readItems number items).map .array
  | .object members => (readMembers number members []).map .object

/-- The numbers inside the items are read. -/
def readItems {N M : Type} (number : N → Option M) : List (Value N) → Option (List (Value M))
  | [] => some []
  | v :: rest => (v.read number).bind fun w => (readItems number rest).map (w :: ·)

/-- Later members overwrite earlier ones. -/
def readMembers {N M : Type} (number : N → Option M) :
    List (Bytes × Value N) → List (Bytes × Value M) → Option (List (Bytes × Value M))
  | [], map => some map
  | (key, v) :: rest, map =>
    (v.read number).bind fun w => readMembers number rest (insertKey key w map)

end

end DenseCore.Lib.Json
