import Workflow.Proofs.Clock

/-!
# Sums of instants and spans

A sum of an instant and a span can fail in two ways: the span may be too long for signed arithmetic
on time, and the result may lie beyond the first or the last instant. Adding and subtracting take
the last and the first instant in both cases. Outside leap seconds this is exact arithmetic on
counts of nanoseconds, cut off at both ends, so it keeps the order.
-/

set_option autoImplicit false

namespace Workflow

namespace Span

/-- The longest span of signed arithmetic on time: its milliseconds fit a signed 64-bit word. -/
def longest : Span := .ofMillis (UInt64.size / 2 - 1)

/-- The span as a signed number of nanoseconds, if it is not too long for that. -/
def signed? (d : Span) : Option Int := if d ≤ longest then some d.nanos else none

theorem longest_lt_of_signed?_eq_none {d : Span} (h : d.signed? = none) :
    longest.nanos < d.nanos := by
  unfold signed? at h
  split at h
  · cases h
  next hlong => exact Nat.lt_of_not_le hlong

theorem eq_of_signed?_eq_some {d : Span} {n : Int} (h : d.signed? = some n) : n = d.nanos := by
  unfold signed? at h
  split at h
  · exact (Option.some.inj h).symm
  · cases h

end Span

namespace Instant

variable {t t' : Instant} {d d' : Span}

/-! ### Sums that may fail -/

/-- The instant at a count of nanoseconds since 1970, if there is one. -/
def ofCount? (n : Int) : Option Instant :=
  if earliest.count ≤ n ∧ n ≤ latest.count then some (ofCount n) else none

/-- The instant a span later, if the span and the sum are in range. -/
def later? (t : Instant) (d : Span) : Option Instant :=
  d.signed?.bind fun n => ofCount? (t.count + n)

/-- The instant a span earlier, if the span and the difference are in range. -/
def earlier? (t : Instant) (d : Span) : Option Instant :=
  d.signed?.bind fun n => ofCount? (t.count - n)

theorem latest_sub_earliest_lt_longest : latest.count - earliest.count < Span.longest.nanos := by
  decide +kernel

theorem count_le_latest (h : t.isLeap = false) : t.count ≤ latest.count := by
  have hsecs := t.inRange.2.1
  have hnanos := of_decide_eq_false h
  simp only [count, latest] at *
  omega

/-- Whatever makes a later instant fail, its count would be beyond the last one. -/
theorem ofCount_eq_getD_later? (t : Instant) (d : Span) :
    ofCount (t.count + d.nanos) = (t.later? d).getD latest := by
  have hfirst := earliest_le_count t
  have hbeyond (h : latest.count < t.count + d.nanos) : ofCount (t.count + d.nanos) = latest := by
    unfold ofCount
    rw [dif_neg (by omega), dif_pos h]
  unfold later?
  cases hsigned : d.signed? with
  | none =>
    have hlong := Span.longest_lt_of_signed?_eq_none hsigned
    have hall := latest_sub_earliest_lt_longest
    exact hbeyond (by omega)
  | some n =>
    rw [Option.bind_some, Span.eq_of_signed?_eq_some hsigned, ofCount?]
    split
    · rfl
    next hout => exact hbeyond (by omega)

theorem ofCount_eq_getD_earlier? (h : t.isLeap = false) (d : Span) :
    ofCount (t.count - d.nanos) = (t.earlier? d).getD earliest := by
  have hlast := count_le_latest h
  have hbefore (h : t.count - d.nanos < earliest.count) :
      ofCount (t.count - d.nanos) = earliest := by
    unfold ofCount
    rw [dif_pos h]
  unfold earlier?
  cases hsigned : d.signed? with
  | none =>
    have hlong := Span.longest_lt_of_signed?_eq_none hsigned
    have hall := latest_sub_earliest_lt_longest
    exact hbefore (by omega)
  | some n =>
    rw [Option.bind_some, Span.eq_of_signed?_eq_some hsigned, ofCount?]
    split
    · rfl
    next hout => exact hbefore (by omega)

/-! ### Sums that are cut off -/

theorem add_eq_ofCount (h : t.isLeap = false) (d : Span) : t + d = ofCount (t.count + d.nanos) := by
  have hnanos := Nat.lt_of_not_le (of_decide_eq_false h)
  rw [add_of_not_leap (.inl hnanos), base_of_lt hnanos]

theorem sub_eq_ofCount (h : t.isLeap = false) (d : Span) : t - d = ofCount (t.count - d.nanos) :=
  dif_neg fun hleap => of_decide_eq_false h hleap.1

theorem isLeap_ofCount (n : Int) : (ofCount n).isLeap = false :=
  decide_eq_false (Nat.not_le.2 (nanos_ofCount n))

theorem count_add (h : t.isLeap = false) (d : Span) :
    (t + d).count = Min.min (t.count + d.nanos) latest.count := by
  have hfirst := earliest_le_count t
  have hlast := earliest_le_count latest
  rw [add_eq_ofCount h, count_ofCount]
  omega

theorem count_sub (h : t.isLeap = false) (d : Span) :
    (t - d).count = max (t.count - d.nanos) earliest.count := by
  have hlast := count_le_latest h
  rw [sub_eq_ofCount h, count_ofCount]
  omega

theorem count_le_count (h : t.isLeap = false) (h' : t'.isLeap = false) (hle : t ≤ t') :
    t.count ≤ t'.count :=
  (le_iff_count (Nat.lt_of_not_le (of_decide_eq_false h))
    (Nat.lt_of_not_le (of_decide_eq_false h'))).1 hle

theorem add_sub_cancel (h : t.isLeap = false) (hrange : t.count + d.nanos ≤ latest.count) :
    t + d - d = t := by
  have hleap : (t + d).isLeap = false := by
    rw [add_eq_ofCount h]
    exact isLeap_ofCount _
  have hfirst := earliest_le_count t
  have hlow := nanos_ofCount ((t + d).count - d.nanos)
  rw [← sub_eq_ofCount hleap] at hlow
  refine eq_of_count_eq hlow (Nat.lt_of_not_le (of_decide_eq_false h)) ?_
  rw [count_sub hleap, count_add h]
  omega

theorem add_eq_of_add? (t : Instant) {both : Span} (h : d.add? d' = some both) :
    t + d + d' = t + both := by
  unfold Span.add? at h
  simp only at h
  split at h
  · cases h
    exact add_add t d d'
  · cases h

/-- Outside leap seconds adding a span to an instant and taking it away count nanoseconds exactly,
up to the last and down to the first instant, which also stand for sums that fail. So both keep the
order of instants, longer spans lead further, a span that was added in range is taken away again,
and spans that are added one after the other are added at once. -/
theorem sums_are_exact_and_saturate (h : t.isLeap = false) (d : Span) :
    (t + d = (t.later? d).getD latest ∧ (t + d).isLeap = false ∧
      (t + d).count = Min.min (t.count + d.nanos) latest.count) ∧
    (t - d = (t.earlier? d).getD earliest ∧ (t - d).isLeap = false ∧
      (t - d).count = max (t.count - d.nanos) earliest.count) ∧
    (∀ t' : Instant, t'.isLeap = false → t ≤ t' → t + d ≤ t' + d ∧ t - d ≤ t' - d) ∧
    (∀ d' : Span, d ≤ d' → t + d ≤ t + d' ∧ t - d' ≤ t - d) ∧
    (t.count + d.nanos ≤ latest.count → t + d - d = t) ∧
    ∀ d' both : Span, d.add? d' = some both → t + d + d' = t + both := by
  have hadd := add_eq_ofCount h d
  have hsub := sub_eq_ofCount h d
  refine ⟨⟨?_, ?_, count_add h d⟩, ⟨?_, ?_, count_sub h d⟩, fun t' h' hle => ?_, fun d' hle => ?_,
    add_sub_cancel h, fun d' both => add_eq_of_add? t⟩
  · exact hadd.trans (ofCount_eq_getD_later? t d)
  · rw [hadd]
    exact isLeap_ofCount _
  · exact hsub.trans (ofCount_eq_getD_earlier? h d)
  · rw [hsub]
    exact isLeap_ofCount _
  · have hcount := count_le_count h h' hle
    rw [hadd, hsub, add_eq_ofCount h', sub_eq_ofCount h']
    exact ⟨ofCount_mono (by omega), ofCount_mono (by omega)⟩
  · have hnanos : d.nanos ≤ d'.nanos := hle
    rw [hadd, hsub, add_eq_ofCount h, sub_eq_ofCount h]
    exact ⟨ofCount_mono (by omega), ofCount_mono (by omega)⟩

/-- The last nanosecond before 1970, and a span that is too long for signed arithmetic. -/
theorem sums_are_exact_and_saturate_of_longest :
    let t : Instant := ⟨-1, 999999999, by decide⟩
    let second := Span.ofSecs 1
    let whole := Span.mk (UInt64.size * Span.perSecond - 1)
    t.isLeap = false ∧ whole.fits = true ∧ whole.signed? = none ∧ t + whole = latest ∧
      t - whole = earliest ∧ (t + second).count = 999999999 ∧ t + second - second = t ∧
      second.add? whole = none ∧ t + second + second = t + Span.ofSecs 2 := by
  intro t second whole
  have hwhole : whole.signed? = none := by decide +kernel
  obtain ⟨⟨hlast, -, -⟩, ⟨hfirst, -, -⟩, -⟩ := sums_are_exact_and_saturate (t := t) rfl whole
  obtain ⟨⟨-, -, hcount⟩, -, -, -, hback, hboth⟩ :=
    sums_are_exact_and_saturate (t := t) rfl second
  refine ⟨rfl, by decide +kernel, hwhole, ?_, ?_, ?_, hback (by decide +kernel),
    by decide +kernel, hboth second (.ofSecs 2) (by decide +kernel)⟩
  · rw [hlast, later?, hwhole]
    rfl
  · rw [hfirst, earlier?, hwhole]
    rfl
  · rw [hcount]
    decide +kernel

end Instant

end Workflow
