/-!
# Numerals

Decimal numerals as people write them in annotations and in the environment: an optional sign and
one or more ASCII digits, nothing else, with a value inside a given range.
-/

set_option autoImplicit false

namespace Workflow.Numeral

def digit? (c : Char) : Option Nat :=
  if '0' ≤ c ∧ c ≤ '9' then some (c.toNat - '0'.toNat) else none

/-- Continues the value `acc` with the digits of the text; `none` at any other character. -/
def extend? (acc : Nat) : List Char → Option Nat
  | [] => some acc
  | c :: rest => (digit? c).bind fun d => extend? (10 * acc + d) rest

/-- The value of one or more digits. -/
def digits? : List Char → Option Nat
  | [] => none
  | cs => extend? 0 cs

/-- A natural number below `bound`, with an optional plus sign. -/
def natural? (bound : Nat) (cs : List Char) : Option Nat :=
  let value := match cs with
    | '+' :: rest => digits? rest
    | cs => digits? cs
  value.filter (· < bound)

/-- The sign and value of an optionally signed numeral. -/
def signed? : List Char → Option Int
  | '+' :: rest => (digits? rest).map Int.ofNat
  | '-' :: rest => (digits? rest).map fun n => -(Int.ofNat n)
  | cs => (digits? cs).map Int.ofNat

/-- Whether a signed 64-bit word holds the number. -/
def fitsInt64 (n : Int) : Bool := Int64.minValue.toInt ≤ n && n ≤ Int64.maxValue.toInt

/-- A number of a signed 64-bit word, with an optional sign. -/
def int64? (cs : List Char) : Option Int := (signed? cs).filter fitsInt64

def word32? (cs : List Char) : Option Nat := natural? UInt32.size cs

def word64? (cs : List Char) : Option Nat := natural? UInt64.size cs

end Workflow.Numeral
