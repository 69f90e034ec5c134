import Workflow.Json

/-!
# Reading JSON

A reader for documents in bytes. Each function takes the bytes that are left and gives its value
with the bytes after it. Recursion is bounded by a number of steps, of which `read?` grants two for
each byte of the document: of any two nested steps one takes a byte.
-/

set_option autoImplicit false

namespace Workflow.Json

/-- The bytes after leading blanks: space, tab, line feed and carriage return. -/
def skipBlanks (bs : List UInt8) : List UInt8 :=
  bs.dropWhile fun b => b == 0x20 || b == 0x09 || b == 0x0A || b == 0x0D

def isDigit (b : UInt8) : Bool := 0x30 ≤ b && b ≤ 0x39

def hexValue? (b : UInt8) : Option Nat :=
  if isDigit b then some (b.toNat - 0x30)
  else if 0x61 ≤ b ∧ b ≤ 0x66 then some (b.toNat - 0x61 + 10)
  else if 0x41 ≤ b ∧ b ≤ 0x46 then some (b.toNat - 0x41 + 10)
  else none

/-! ### Text -/

/-- A piece of a text: a byte of its own or an escaped 16-bit unit. -/
inductive Piece where
  | byte (b : UInt8)
  | unit (n : Nat)

def unescape? (b : UInt8) : Option UInt8 :=
  if b = 0x22 ∨ b = 0x5C ∨ b = 0x2F then some b
  else if b = 0x62 then some 0x08
  else if b = 0x66 then some 0x0C
  else if b = 0x6E then some 0x0A
  else if b = 0x72 then some 0x0D
  else if b = 0x74 then some 0x09
  else none

/-- The pieces of a text up to its closing quote. -/
def pieces : List UInt8 → Option (List Piece × List UInt8)
  | [] => none
  | 0x22 :: rest => some ([], rest)
  | 0x5C :: 0x75 :: p :: q :: r :: s :: rest => do
    let n := (← hexValue? p) * 4096 + (← hexValue? q) * 256 + (← hexValue? r) * 16 + (← hexValue? s)
    let (tail, rest) ← pieces rest
    some (.unit n :: tail, rest)
  | 0x5C :: b :: rest => do
    let b ← unescape? b
    let (tail, rest) ← pieces rest
    some (.byte b :: tail, rest)
  | b :: rest =>
    if b < 0x20 then none
    else do
      let (tail, rest) ← pieces rest
      some (.byte b :: tail, rest)

/-- The bytes that pieces spell; units beyond the basic plane come in pairs. -/
def spell? : List Piece → Option (List UInt8)
  | [] => some []
  | .byte b :: rest => (spell? rest).map (b :: ·)
  | .unit n :: .unit m :: rest =>
    if 0xD800 ≤ n ∧ n < 0xDC00 then
      if 0xDC00 ≤ m ∧ m < 0xE000 then
        let code := 0x10000 + (n - 0xD800) * 0x400 + (m - 0xDC00)
        (spell? rest).map (String.utf8EncodeChar (Char.ofNat code) ++ ·)
      else none
    else if 0xDC00 ≤ n ∧ n < 0xE000 then none
    else (spell? (.unit m :: rest)).map (String.utf8EncodeChar (Char.ofNat n) ++ ·)
  | .unit n :: rest =>
    if 0xD800 ≤ n ∧ n < 0xE000 then none
    else (spell? rest).map (String.utf8EncodeChar (Char.ofNat n) ++ ·)

/-- A text after its opening quote; the inner `none` stands for pieces that spell no characters. -/
def string? (bs : List UInt8) : Option (Option String × List UInt8) := do
  let (ps, rest) ← pieces bs
  some ((spell? ps).bind fun bytes => String.fromUTF8? bytes.toByteArray, rest)

/-! ### Numbers -/

/-- A run of digits, at least one, and the bytes after it. -/
def digitRun? (bs : List UInt8) : Option (List UInt8 × List UInt8) :=
  let run := bs.takeWhile isDigit
  if run.isEmpty then none else some (run, bs.drop run.length)

/-- The whole part of a number: a zero alone or digits that do not start with one. -/
def wholePart? (bs : List UInt8) : Option (List UInt8 × List UInt8) := do
  let (run, rest) ← digitRun? bs
  if run.head? = some 0x30 ∧ run.length ≠ 1 then none else some (run, rest)

/-- The bytes after an optional fraction, and whether there was one. -/
def fraction? : List UInt8 → Option (Bool × List UInt8)
  | 0x2E :: rest => (digitRun? rest).map fun (_, rest) => (true, rest)
  | bs => some (false, bs)

/-- The bytes after an optional exponent, and whether there was one. -/
def exponent? : List UInt8 → Option (Bool × List UInt8)
  | b :: rest =>
    if b = 0x65 ∨ b = 0x45 then
      let rest := match rest with
        | s :: rest' => if s = 0x2B ∨ s = 0x2D then rest' else rest
        | [] => []
      (digitRun? rest).map fun (_, rest) => (true, rest)
    else some (false, b :: rest)
  | [] => some (false, [])

def digitsValue (run : List UInt8) : Nat := run.foldl (fun n b => 10 * n + (b.toNat - 0x30)) 0

/-- A number. One with a fraction or an exponent, and the negative zero, are no whole numbers. -/
def number? (bs : List UInt8) : Option (Json × List UInt8) := do
  let (negative, bs) := match bs with
    | 0x2D :: rest => (true, rest)
    | bs => (false, bs)
  let (run, rest) ← wholePart? bs
  let (fractional, rest) ← fraction? rest
  let (exponential, rest) ← exponent? rest
  let n := digitsValue run
  if fractional || exponential || (negative && n == 0) then some (.other, rest)
  else some (.int (if negative then -(n : Int) else n), rest)

/-! ### Values -/

def after? (literal : List UInt8) (bs : List UInt8) : Option (List UInt8) :=
  if literal.isPrefixOf bs then some (bs.drop literal.length) else none

/-- The value of an object's members. One name that spells no characters makes it unreadable. -/
def ofMembers (members : List (Option String × Json)) : Json :=
  match members.mapM fun (name, value) => name.map fun name => (name, value) with
  | some members => .obj members
  | none => .other

mutual

/-- The value that the bytes start with, after blanks. -/
def value? (steps : Nat) (bs : List UInt8) : Option (Json × List UInt8) :=
  match steps with
  | 0 => none
  | steps + 1 =>
    match skipBlanks bs with
    | [] => none
    | 0x6E :: rest => (after? [0x75, 0x6C, 0x6C] rest).map fun rest => (.null, rest)
    | 0x74 :: rest => (after? [0x72, 0x75, 0x65] rest).map fun rest => (.bool true, rest)
    | 0x66 :: rest => (after? [0x61, 0x6C, 0x73, 0x65] rest).map fun rest => (.bool false, rest)
    | 0x22 :: rest => (string? rest).map fun (s, rest) => (s.elim .other .str, rest)
    | 0x5B :: rest =>
      match skipBlanks rest with
      | 0x5D :: rest => some (.arr [], rest)
      | rest => (items? steps rest).map fun (items, rest) => (.arr items, rest)
    | 0x7B :: rest =>
      match skipBlanks rest with
      | 0x7D :: rest => some (.obj [], rest)
      | rest => (members? steps rest).map fun (members, rest) => (ofMembers members, rest)
    | bs => number? bs

def items? (steps : Nat) (bs : List UInt8) : Option (List Json × List UInt8) :=
  match steps with
  | 0 => none
  | steps + 1 => do
    let (item, rest) ← value? steps bs
    match skipBlanks rest with
    | 0x2C :: rest => do
      let (items, rest) ← items? steps rest
      some (item :: items, rest)
    | 0x5D :: rest => some ([item], rest)
    | _ => none

def members? (steps : Nat) (bs : List UInt8) : Option (List (Option String × Json) × List UInt8) :=
  match steps with
  | 0 => none
  | steps + 1 =>
    match skipBlanks bs with
    | 0x22 :: rest => do
      let (name, rest) ← string? rest
      match skipBlanks rest with
      | 0x3A :: rest => do
        let (value, rest) ← value? steps rest
        match skipBlanks rest with
        | 0x2C :: rest => do
          let (members, rest) ← members? steps rest
          some ((name, value) :: members, rest)
        | 0x7D :: rest => some ([(name, value)], rest)
        | _ => none
      | _ => none
    | _ => none

end

theorem value?_members (steps : Nat) (bs : List UInt8) :
    value? (steps + 1) (0x7B :: 0x22 :: bs) =
      (members? steps (0x22 :: bs)).map fun p => (ofMembers p.1, p.2) := by
  rw [value?]
  rfl

/-- The value of a whole document. -/
def read? (bs : List UInt8) : Option Json := do
  let (value, rest) ← value? (2 * bs.length + 2) bs
  if (skipBlanks rest).isEmpty then some value else none

end Workflow.Json
