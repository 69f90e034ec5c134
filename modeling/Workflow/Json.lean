/-!
# JSON values

The values of a JSON document as far as documents of states need them. Numbers are whole; a number
with a fraction or an exponent, and text whose escapes or bytes spell no characters, are kept only
as `other`: they may stand where a document is skipped, and nothing is read from them.
-/

set_option autoImplicit false

namespace Workflow

inductive Json where
  /-- The literal `null`. -/
  | null
  | bool (b : Bool)
  | int (n : Int)
  | str (s : String)
  | arr (items : List Json)
  /-- Named members, in the order of the document. -/
  | obj (members : List (String × Json))
  | other
  deriving Inhabited

namespace Json

def text? : Json → Option String
  | str s => some s
  | _ => none

def bool? : Json → Option Bool
  | bool b => some b
  | _ => none

/-- The whole number of a value, if it is one between `low` and `high`. -/
def int? (low high : Int) : Json → Option Int
  | int n => if low ≤ n ∧ n ≤ high then some n else none
  | _ => none

def int64? (j : Json) : Option Int := j.int? Int64.minValue.toInt Int64.maxValue.toInt

def list? {α : Type} (read : Json → Option α) : Json → Option (List α)
  | arr items => items.mapM read
  | _ => none

/-- The member of a name, if exactly one has it; `some none` if none has it. -/
def member? (members : List (String × Json)) (name : String) : Option (Option Json) :=
  match members.filter (fun m => m.1 = name) with
  | [] => some none
  | [m] => some (some m.2)
  | _ => none

/-- The values of the named fields of a record. A record is written as an object, whose unknown
members are skipped and whose known ones occur once at most, or as a list of the fields' values in
order, from which last fields may be missing. -/
def fields? (names : List String) : Json → Option (List (Option Json))
  | obj members => names.mapM (member? members)
  | arr items =>
    if items.length ≤ names.length then
      some (items.map some ++ List.replicate (names.length - items.length) none)
    else none
  | _ => none

end Json

end Workflow
