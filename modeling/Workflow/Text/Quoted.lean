import Workflow.Text.Unprinted

/-!
# Quoted text

The form in which messages quote texts: between double quotes, with escapes for what does not print.
-/

set_option autoImplicit false

namespace Workflow.Text

/-- A character as it stands between double quotes. -/
def quotedChar (c : Char) : List Char :=
  if c = '"' then ['\\', '"']
  else if c = '\\' then ['\\', '\\']
  else if c = '\n' then ['\\', 'n']
  else if c = '\r' then ['\\', 'r']
  else if c = '\t' then ['\\', 't']
  else if c = '\x00' then ['\\', '0']
  else if isUnprinted c then
    ['\\', 'u', '\x7b'] ++ Nat.toDigits 16 c.toNat ++ ['\x7d']
  else [c]

def quoted (s : String) : List Char := '"' :: s.toList.flatMap quotedChar ++ ['"']

/-- Named texts between braces, each as quoted name, colon and quoted text. -/
def quotedMap (entries : List (String × String)) : String :=
  let item (e : String × String) : List Char := quoted e.1 ++ ':' :: ' ' :: quoted e.2
  String.ofList ('\x7b' :: [',', ' '].intercalate (entries.map item) ++ ['\x7d'])

end Workflow.Text
