import Workflow.Span

/-!
# Instants

Points in Coordinated Universal Time, to the nanosecond, in the years -262143 to 262142. An instant
may lie inside a leap second, the one that follows second 59 of a minute. Adding and subtracting a
span saturates at the first and the last instant.
-/

set_option autoImplicit false

namespace Workflow

namespace Instant

/-- The first second of the year -262143, counted from 1970. -/
def firstSecond : Int := -8334601228800

/-- The last second of the year 262142, counted from 1970. -/
def lastSecond : Int := 8210266876799

/-- Whether seconds since 1970 and nanoseconds name an instant: nanoseconds beyond a full second
count through the leap second that follows second 59. -/
def InRange (secs : Int) (nanos : Nat) : Prop :=
  firstSecond ≤ secs ∧ secs ≤ lastSecond ∧
    (nanos < 1000000000 ∨ nanos < 2000000000 ∧ secs % 60 = 59)

instance (secs : Int) (nanos : Nat) : Decidable (InRange secs nanos) :=
  inferInstanceAs (Decidable (_ ∧ _ ∧ _))

end Instant

structure Instant where
  secs : Int
  /-- Nanoseconds after that second; at least `10 ^ 9` inside a leap second. -/
  nanos : Nat
  inRange : Instant.InRange secs nanos
  deriving DecidableEq

namespace Instant

def epoch : Instant := ⟨0, 0, by decide⟩

def earliest : Instant := ⟨firstSecond, 0, by decide⟩

/-- The last instant outside a leap second. -/
def latest : Instant := ⟨lastSecond, 999999999, by decide⟩

instance : Inhabited Instant := ⟨epoch⟩

/-- The instant of the given seconds and nanoseconds, if there is one. -/
def ofParts? (secs : Int) (nanos : Nat) : Option Instant :=
  if h : InRange secs nanos then some ⟨secs, nanos, h⟩ else none

instance : LE Instant := ⟨fun a b => a.secs < b.secs ∨ a.secs = b.secs ∧ a.nanos ≤ b.nanos⟩

instance : LT Instant := ⟨fun a b => a.secs < b.secs ∨ a.secs = b.secs ∧ a.nanos < b.nanos⟩

instance (a b : Instant) : Decidable (a ≤ b) := inferInstanceAs (Decidable (_ ∨ _))

instance (a b : Instant) : Decidable (a < b) := inferInstanceAs (Decidable (_ ∨ _))

def min (a b : Instant) : Instant := if a ≤ b then a else b

def isLeap (t : Instant) : Bool := 1000000000 ≤ t.nanos

def count (t : Instant) : Int := t.secs * 1000000000 + t.nanos

theorem inRange_of_count {n : Int} (h₁ : earliest.count ≤ n) (h₂ : n ≤ latest.count) :
    InRange (n / 1000000000) (n % 1000000000).toNat := by
  simp only [count, earliest, latest, firstSecond, lastSecond] at h₁ h₂
  simp only [InRange, firstSecond, lastSecond]
  omega

/-- The instant at a count of nanoseconds since 1970, saturating at the first and the last. -/
def ofCount (n : Int) : Instant :=
  if h₁ : n < earliest.count then earliest
  else if h₂ : latest.count < n then latest
  else ⟨n / 1000000000, (n % 1000000000).toNat,
    inRange_of_count (Int.not_lt.1 h₁) (Int.not_lt.1 h₂)⟩

/-- The instant a span later. Inside a leap second a sum that stays in it only adds nanoseconds; one
that leaves it counts on from second 59. -/
def add (t : Instant) (d : Span) : Instant :=
  if h : 1000000000 ≤ t.nanos ∧ t.nanos + d.nanos < 2000000000 then
    ⟨t.secs, t.nanos + d.nanos, by
      obtain ⟨h₁, h₂, h₃⟩ := t.inRange
      refine ⟨h₁, h₂, .inr ⟨h.2, ?_⟩⟩
      rcases h₃ with h₃ | h₃
      · omega
      · exact h₃.2⟩
  else ofCount (t.count - (if t.isLeap then 1000000000 else 0) + d.nanos)

/-- The instant a span earlier. Inside a leap second a fraction of a second is taken from its
nanoseconds; a longer span counts back from the following second. -/
def sub (t : Instant) (d : Span) : Instant :=
  if h : 1000000000 ≤ t.nanos ∧ d.nanos < 1000000000 then
    ⟨t.secs, t.nanos - d.nanos, by
      obtain ⟨h₁, h₂, h₃⟩ := t.inRange
      refine ⟨h₁, h₂, ?_⟩
      rcases h₃ with h₃ | h₃
      · omega
      · by_cases hn : t.nanos - d.nanos < 1000000000
        · exact .inl hn
        · exact .inr ⟨by omega, h₃.2⟩⟩
  else ofCount (t.count - d.nanos)

instance : HAdd Instant Span Instant := ⟨add⟩

instance : HSub Instant Span Instant := ⟨sub⟩

end Instant

end Workflow
