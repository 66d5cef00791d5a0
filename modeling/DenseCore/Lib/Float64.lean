/-
Decimal literals in double precision.

A literal has an exact value.  `nearest` is the double next to a rational number,
ties to even, and `shortest` the decimal with the fewest digits that reads back as
the same double, the closer one if there are two.  `parseFloat` and `formatFloat` go
through these, with the layout that JSON encoders use: plain digits for sizes from
`1e-6` to `1e21` and an exponent outside.  Infinities and NaN have no literal, and a
literal that is too large for a double is refused.
-/
import DenseCore.Lib.JsonValue
import Mathlib.Data.Int.Log
import Mathlib.Data.Nat.Digits.Defs
import Mathlib.Data.Rat.Floor

namespace DenseCore.Lib.Float64

open List

open Json (takeMinus takeInt takeFrac takeExp)

/-- A finite double, the zeros told apart by their sign. -/
structure Finite where
  neg : Bool
  magnitude : ℚ
deriving DecidableEq

/-! ### Exact values -/

/-- The number that decimal digits spell. -/
def digitsValue (ds : Bytes) : Nat := ds.foldl (fun n d => 10 * n + (d.toNat - 0x30)) 0

/-- The exponent of an exponent part. -/
def expValue (exp : Bytes) : Int :=
  match exp with
  | _ :: s :: ds =>
    if s = 0x2D then -digitsValue ds
    else if s = 0x2B then digitsValue ds
    else digitsValue (s :: ds)
  | _ => 0

/-- Sign and size of a literal. -/
def signed (lit : Bytes) : Option (Bool × ℚ) := do
  let (minus, s) := takeMinus lit
  let (int, s) ← takeInt s
  let (frac, s) ← takeFrac s
  let (exp, _) ← takeExp s
  let digits := frac.drop 1
  return (!minus.isEmpty, (digitsValue (int ++ digits) : ℚ) * 10 ^ (expValue exp - digits.length))

/-- The exact value of a literal. -/
def exact (lit : Bytes) : Option ℚ := (signed lit).map fun x => if x.1 then -x.2 else x.2

/-! ### Rounding -/

/-- Rounding to the nearest integer, ties to even. -/
def roundEven (q : ℚ) : ℤ :=
  let rest := q - ⌊q⌋
  if rest < 1 / 2 ∨ rest = 1 / 2 ∧ ⌊q⌋ % 2 = 0 then ⌊q⌋ else ⌊q⌋ + 1

/-- The double next to a number that is not negative, unless it is too large. -/
def nearest (q : ℚ) : Option ℚ :=
  if q = 0 then some 0
  else
    let unit : ℚ := 2 ^ max (-1074) (Int.log 2 q - 52)
    let x := roundEven (q / unit) * unit
    if x < 2 ^ 1024 then some x else none

/-- `strconv.ParseFloat` of a literal. -/
def parseFloat (lit : Bytes) : Option Finite :=
  (signed lit).bind fun x => (nearest x.2).map fun m => ⟨x.1, m⟩

/-! ### Printing -/

/-- The decimal digits of a number. -/
def decimal (n : Nat) : Bytes :=
  if n = 0 then [0x30] else (Nat.digits 10 n).reverse.map fun d => UInt8.ofNat (0x30 + d)

/-- A decimal of `n` digits that reads back as the double `x`: its digits and its
exponent. -/
def shortestOf (x : ℚ) (n : Nat) : Option (Nat × ℤ) :=
  let k := Int.log 10 x - (n - 1)
  let below := ⌊x / 10 ^ k⌋.toNat
  let fits (d : Nat) : Bool := nearest (d * 10 ^ k) = some x
  if fits below && (!fits (below + 1) || x / 10 ^ k - below ≤ 1 / 2) then some (below, k)
  else if fits (below + 1) then some (if below + 1 = 10 ^ n then (1, k + n) else (below + 1, k))
  else none

/-- Seventeen digits are always enough. -/
def shortest (x : ℚ) : Nat × ℤ :=
  ((range' 1 17).findSome? (shortestOf x)).getD (0, 0)

def zeros (n : Nat) : Bytes := replicate n 0x30

/-- Digits with a decimal point: the value is `d * 10 ^ k`. -/
def plain (d : Nat) (k : ℤ) : Bytes :=
  let ds := decimal d
  let point := ds.length + k
  if 0 ≤ k then ds ++ zeros k.toNat
  else if 0 < point then ds.take point.toNat ++ 0x2E :: ds.drop point.toNat
  else 0x30 :: 0x2E :: zeros (-point).toNat ++ ds

/-- Digits with an exponent. -/
def scientific (d : Nat) (k : ℤ) : Bytes :=
  let ds := decimal d
  let exp := ds.length + k - 1
  ds.take 1 ++ (if ds.length ≤ 1 then [] else 0x2E :: ds.drop 1) ++
    0x65 :: (if 0 ≤ exp then 0x2B else 0x2D) :: decimal exp.natAbs

/-- `strconv.AppendFloat` with the layout of `encoding/json`. -/
def formatFloat (x : Finite) : Bytes :=
  let sign : Bytes := if x.neg then [0x2D] else []
  if x.magnitude = 0 then sign ++ [0x30]
  else
    let (d, k) := shortest x.magnitude
    if x.magnitude < (nearest (1 / 10 ^ 6)).getD 0 ∨ 10 ^ 21 ≤ x.magnitude then sign ++ scientific d k
    else sign ++ plain d k

/-! ### Decimals of natural numbers -/

theorem digitsValue_snoc (ds : Bytes) (d : UInt8) :
    digitsValue (ds ++ [d]) = 10 * digitsValue ds + (d.toNat - 0x30) := by
  unfold digitsValue
  rw [foldl_append]
  rfl

theorem digitsValue_reverse {ds : List Nat} (h : ∀ d ∈ ds, d < 10) :
    digitsValue (ds.reverse.map fun d => UInt8.ofNat (0x30 + d)) = Nat.ofDigits 10 ds := by
  induction ds with
  | nil => rfl
  | cons d rest ih =>
    have hd := h d mem_cons_self
    have hbyte : (UInt8.ofNat (0x30 + d)).toNat = 0x30 + d := by
      rw [UInt8.toNat_ofNat']
      exact Nat.mod_eq_of_lt (by omega)
    rw [reverse_cons, map_append, map_singleton, digitsValue_snoc, hbyte,
      ih fun e he => h e (mem_cons_of_mem d he), Nat.ofDigits_cons]
    omega

theorem digitsValue_decimal (n : Nat) : digitsValue (decimal n) = n := by
  unfold decimal
  split
  · rename_i hzero
    rw [hzero]
    rfl
  rw [digitsValue_reverse fun d hd => Nat.digits_lt_base (by omega) hd]
  exact Nat.ofDigits_digits 10 n

theorem decimal_injective : Function.Injective decimal := by
  intro m n h
  rw [← digitsValue_decimal m, ← digitsValue_decimal n, h]

end DenseCore.Lib.Float64
