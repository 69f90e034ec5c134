import Workflow.Span
import Workflow.Text.Blank
import Workflow.Text.Numeral

/-!
# Written spans

A span is written as its whole seconds with the suffix `s`. It is read from a number of seconds,
minutes or hours, by the suffixes `s`, `m` and `h`; without a suffix the number counts seconds.
-/

set_option autoImplicit false

namespace Workflow.Span

/-- The whole seconds, with the suffix `s`. -/
def toText (d : Span) : String := toString d.secs ++ "s"

/-- Splits a trimmed text into its number and the seconds that its unit stands for. -/
def splitUnit (cs : List Char) : List Char × Nat :=
  match cs.getLast? with
  | some 's' => (cs.dropLast, 1)
  | some 'm' => (cs.dropLast, 60)
  | some 'h' => (cs.dropLast, 3600)
  | _ => (cs, 1)

/-- Reads a number with an optional unit, blanks allowed around both. The seconds are those of an
unsigned 64-bit word: a product beyond it wraps around. -/
def parse? (raw : String) : Option Span :=
  let (number, unit) := splitUnit (Text.trim raw.toList)
  (Numeral.word64? (Text.trim number)).map fun n => ofSecs (n * unit % UInt64.size)

end Workflow.Span
