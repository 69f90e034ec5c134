/-!
# Spans of time

A span is a whole number of nanoseconds. Settings and deadlines keep to whole seconds below `2 ^ 64`
plus a fraction; a sum that leaves this range has no value (`Span.add?`).
-/

set_option autoImplicit false

namespace Workflow

structure Span where
  nanos : Nat
  deriving DecidableEq, Repr

namespace Span

def perSecond : Nat := 1000000000

def ofSecs (n : Nat) : Span := ⟨n * perSecond⟩

def ofMillis (n : Nat) : Span := ⟨n * 1000000⟩

def ofParts (secs nanos : Nat) : Span := ⟨secs * perSecond + nanos⟩

def secs (d : Span) : Nat := d.nanos / perSecond

/-- The nanoseconds beyond the whole seconds. -/
def subsec (d : Span) : Nat := d.nanos % perSecond

def zero : Span := ⟨0⟩

def isZero (d : Span) : Bool := d.nanos == 0

/-- Half the span, rounded down to a nanosecond. -/
def half (d : Span) : Span := ⟨d.nanos / 2⟩

instance : LE Span := ⟨fun a b => a.nanos ≤ b.nanos⟩

instance : LT Span := ⟨fun a b => a.nanos < b.nanos⟩

instance (a b : Span) : Decidable (a ≤ b) := inferInstanceAs (Decidable (a.nanos ≤ b.nanos))

instance (a b : Span) : Decidable (a < b) := inferInstanceAs (Decidable (a.nanos < b.nanos))

/-- Whether the whole seconds fit an unsigned 64-bit word. -/
def fits (d : Span) : Bool := d.nanos < UInt64.size * perSecond

/-- The sum of two spans, if its whole seconds fit an unsigned 64-bit word. -/
def add? (a b : Span) : Option Span :=
  let sum : Span := ⟨a.nanos + b.nanos⟩
  if sum.fits then some sum else none

/-- The span brought between `low` and `high`; there is none if these are the wrong way round. -/
def clamp? (d low high : Span) : Option Span :=
  if high < low then none else some (if d < low then low else if high < d then high else d)

end Span

end Workflow
