import Workflow.Json

/-!
# Writing JSON

Values are written without blanks, as bytes of UTF-8. In text only quotes, backslashes and the
control characters below `0x20` are escaped.
-/

set_option autoImplicit false

namespace Workflow.Json

def bytesOf (s : String) : List UInt8 := s.toUTF8.data.toList

def hexDigit (n : Nat) : UInt8 := UInt8.ofNat (if n < 10 then 0x30 + n else 0x61 + (n - 10))

/-- A byte of a text as it stands between the quotes. -/
def escape (b : UInt8) : List UInt8 :=
  if b = 0x22 then [0x5C, 0x22]
  else if b = 0x5C then [0x5C, 0x5C]
  else if b = 0x08 then [0x5C, 0x62]
  else if b = 0x09 then [0x5C, 0x74]
  else if b = 0x0A then [0x5C, 0x6E]
  else if b = 0x0C then [0x5C, 0x66]
  else if b = 0x0D then [0x5C, 0x72]
  else if b < 0x20 then [0x5C, 0x75, 0x30, 0x30, hexDigit (b.toNat / 16), hexDigit (b.toNat % 16)]
  else [b]

def quote (s : String) : List UInt8 := 0x22 :: (bytesOf s).flatMap escape ++ [0x22]

mutual

/-- The bytes of a value. What nothing can be read from is written as `null`. -/
def write : Json → List UInt8
  | null => bytesOf "null"
  | bool true => bytesOf "true"
  | bool false => bytesOf "false"
  | int n => bytesOf (toString n)
  | str s => quote s
  | arr [] => [0x5B, 0x5D]
  | arr (item :: items) => 0x5B :: write item ++ writeItems items
  | obj [] => [0x7B, 0x7D]
  | obj ((name, value) :: members) =>
    0x7B :: quote name ++ 0x3A :: write value ++ writeMembers members
  | other => bytesOf "null"

def writeItems : List Json → List UInt8
  | [] => [0x5D]
  | item :: items => 0x2C :: write item ++ writeItems items

def writeMembers : List (String × Json) → List UInt8
  | [] => [0x7D]
  | (name, value) :: members =>
    0x2C :: quote name ++ 0x3A :: write value ++ writeMembers members

end

theorem writeItems_cons (item : Json) (items : List Json) :
    writeItems (item :: items) = 0x2C :: (item.write ++ writeItems items) := by
  rw [writeItems]
  rfl

theorem writeMembers_cons (name : String) (value : Json) (members : List (String × Json)) :
    writeMembers ((name, value) :: members) =
      0x2C :: (quote name ++ 0x3A :: (value.write ++ writeMembers members)) := by
  rw [writeMembers]
  simp

theorem write_arr_cons (item : Json) (items : List Json) :
    write (.arr (item :: items)) = 0x5B :: (item.write ++ writeItems items) := by
  rw [write]
  rfl

theorem write_obj_cons (name : String) (value : Json) (members : List (String × Json)) :
    write (.obj ((name, value) :: members)) =
      0x7B :: (quote name ++ 0x3A :: (value.write ++ writeMembers members)) := by
  rw [write]
  simp

end Workflow.Json
