/-!
# Lossy UTF-8

Text from bytes that need not be UTF-8. Where no character can be read, the longest start of one
that the bytes hold gives a single replacement character.
-/

set_option autoImplicit false

namespace Workflow.Text

def replacement : Char := '\uFFFD'

/-- Whether a byte continues a character. -/
def isTail (b : UInt8) : Bool := 0x80 ≤ b && b ≤ 0xBF

/-- Whether a byte may be the second of a character of three or four bytes. -/
def isSecond (lead b : UInt8) : Bool :=
  if lead = 0xE0 then 0xA0 ≤ b && b ≤ 0xBF
  else if lead = 0xED then 0x80 ≤ b && b ≤ 0x9F
  else if lead = 0xF0 then 0x90 ≤ b && b ≤ 0xBF
  else if lead = 0xF4 then 0x80 ≤ b && b ≤ 0x8F
  else isTail b

/-- The six bits that a continuing byte carries. -/
def payload (b : UInt8) : Nat := b.toNat % 64

/-- The first character of the bytes after its lead byte, and how many of them belong to it. -/
def decodeTail (lead : UInt8) (bs : List UInt8) : Char × Nat :=
  if lead < 0x80 then (Char.ofNat lead.toNat, 0)
  else if 0xC2 ≤ lead && lead ≤ 0xDF then
    match bs with
    | b :: _ =>
      if isTail b then (Char.ofNat (lead.toNat % 32 * 64 + payload b), 1) else (replacement, 0)
    | [] => (replacement, 0)
  else if 0xE0 ≤ lead && lead ≤ 0xEF then
    match bs with
    | b :: rest =>
      if isSecond lead b then
        match rest with
        | c :: _ =>
          if isTail c then
            (Char.ofNat (lead.toNat % 16 * 4096 + payload b * 64 + payload c), 2)
          else (replacement, 1)
        | [] => (replacement, 1)
      else (replacement, 0)
    | [] => (replacement, 0)
  else if 0xF0 ≤ lead && lead ≤ 0xF4 then
    match bs with
    | b :: rest =>
      if isSecond lead b then
        match rest with
        | c :: rest =>
          if isTail c then
            match rest with
            | d :: _ =>
              if isTail d then
                (Char.ofNat (lead.toNat % 8 * 262144 + payload b * 4096 + payload c * 64 +
                  payload d), 3)
              else (replacement, 2)
            | [] => (replacement, 2)
          else (replacement, 1)
        | [] => (replacement, 1)
      else (replacement, 0)
    | [] => (replacement, 0)
  else (replacement, 0)

/-- The characters of the bytes, with replacements where there are none. -/
def lossy : List UInt8 → List Char
  | [] => []
  | lead :: bs =>
    let (c, n) := decodeTail lead bs
    c :: lossy (bs.drop n)
termination_by bs => bs.length
decreasing_by
  simp only [List.length_drop, List.length_cons]
  omega

end Workflow.Text
