import Workflow.Instant

/-!
# Clocks

Instants are ordered in line, leap seconds included. A clock adds the time that went by to the
instant that it was set to; what it shows never goes back, nor what is a fixed span ahead of it.
-/

set_option autoImplicit false

namespace Workflow

namespace Instant

variable {s t u : Instant}

/-! ### The order -/

theorem le_iff : s ≤ t ↔ s.secs < t.secs ∨ s.secs = t.secs ∧ s.nanos ≤ t.nanos := Iff.rfl

theorem lt_iff : s < t ↔ s.secs < t.secs ∨ s.secs = t.secs ∧ s.nanos < t.nanos := Iff.rfl

@[ext] theorem ext (hsecs : s.secs = t.secs) (hnanos : s.nanos = t.nanos) : s = t := by
  obtain ⟨a, m, _⟩ := s
  obtain ⟨b, n, _⟩ := t
  obtain ⟨rfl, rfl⟩ : a = b ∧ m = n := ⟨hsecs, hnanos⟩
  rfl

theorem le_refl (t : Instant) : t ≤ t := .inr ⟨rfl, Nat.le_refl _⟩

theorem le_trans (h : s ≤ t) (h' : t ≤ u) : s ≤ u := by
  rw [le_iff] at *
  omega

theorem not_lt_iff : ¬ s < t ↔ t ≤ s := by
  rw [lt_iff, le_iff]
  omega

theorem not_le_iff : ¬ s ≤ t ↔ t < s := by
  rw [lt_iff, le_iff]
  omega

theorem lt_or_lt_of_ne (h : s ≠ t) : s < t ∨ t < s := by
  have hparts : ¬ (s.secs = t.secs ∧ s.nanos = t.nanos) := fun heq => h (ext heq.1 heq.2)
  rw [lt_iff, lt_iff]
  omega

theorem min_le (s t : Instant) : min s t ≤ s ∧ min s t ≤ t := by
  unfold min
  split
  next h => exact ⟨le_refl s, h⟩
  next h =>
    refine ⟨?_, le_refl t⟩
    rw [le_iff] at *
    omega

theorem foldl_min_le (s : Instant) (l : List Instant) :
    l.foldl min s ≤ s ∧ ∀ t ∈ l, l.foldl min s ≤ t := by
  induction l generalizing s with
  | nil => exact ⟨le_refl s, fun _ ht => nomatch ht⟩
  | cons u rest ih =>
    obtain ⟨hstart, hrest⟩ := ih (min s u)
    obtain ⟨hs, hu⟩ := min_le s u
    refine ⟨le_trans hstart hs, fun t ht => ?_⟩
    rcases List.mem_cons.1 ht with rfl | ht
    · exact le_trans hstart hu
    · exact hrest t ht

/-! ### Counts of nanoseconds -/

theorem earliest_le_count (t : Instant) : earliest.count ≤ t.count := by
  have hsecs := t.inRange.1
  simp only [count, earliest] at *
  omega

theorem count_ofCount (n : Int) :
    (ofCount n).count = max earliest.count (Min.min n latest.count) := by
  have hrange : earliest.count ≤ latest.count := by decide
  unfold ofCount
  split
  · omega
  · split
    · omega
    · have hsplit : (n / 1000000000) * 1000000000 + ((n % 1000000000).toNat : Int) = n := by omega
      rw [count, hsplit]
      omega

theorem nanos_ofCount (n : Int) : (ofCount n).nanos < 1000000000 := by
  unfold ofCount
  split
  · decide
  · split
    · decide
    · simp only
      omega

theorem le_iff_count (hs : s.nanos < 1000000000) (ht : t.nanos < 1000000000) :
    s ≤ t ↔ s.count ≤ t.count := by
  rw [le_iff, count, count]
  omega

theorem eq_of_count_eq (hs : s.nanos < 1000000000) (ht : t.nanos < 1000000000)
    (h : s.count = t.count) : s = t := by
  rw [count, count] at h
  exact ext (by omega) (by omega)

theorem ofCount_mono {m n : Int} (h : m ≤ n) : ofCount m ≤ ofCount n := by
  rw [le_iff_count (nanos_ofCount m) (nanos_ofCount n), count_ofCount, count_ofCount]
  omega

/-! ### Adding spans -/

theorem add_of_leap {d : Span} (h : 1000000000 ≤ t.nanos) (hd : t.nanos + d.nanos < 2000000000) :
    (t + d).secs = t.secs ∧ (t + d).nanos = t.nanos + d.nanos := by
  have hadd : (t + d) = t.add d := rfl
  rw [hadd, add, dif_pos ⟨h, hd⟩]
  exact ⟨rfl, rfl⟩

/-- Where the time goes on that leaves a leap second: at second 59. -/
def base (t : Instant) : Int := t.count - if t.isLeap then 1000000000 else 0

theorem base_eq (t : Instant) :
    t.base = t.count - if 1000000000 ≤ t.nanos then 1000000000 else 0 := by
  rw [base, isLeap]
  simp only [decide_eq_true_eq]

theorem base_of_lt (h : t.nanos < 1000000000) : t.base = t.count := by
  rw [base_eq, if_neg (by omega), Int.sub_zero]

theorem earliest_le_base (t : Instant) : earliest.count ≤ t.base := by
  have hearliest := earliest_le_count t
  have hsecs := t.inRange.1
  rw [base_eq]
  split
  · simp only [count, earliest] at *
    omega
  · omega

theorem add_of_not_leap {d : Span} (h : t.nanos < 1000000000 ∨ 2000000000 ≤ t.nanos + d.nanos) :
    t + d = ofCount (t.base + d.nanos) :=
  dif_neg (by omega)

theorem add_add (t : Instant) (d d' : Span) : t + d + d' = t + Span.mk (d.nanos + d'.nanos) := by
  obtain ⟨both, hboth⟩ : ∃ both : Span, both = Span.mk (d.nanos + d'.nanos) := ⟨_, rfl⟩
  have hsum : both.nanos = d.nanos + d'.nanos := by rw [hboth]
  rw [← hboth]
  -- a sum stays in a leap second while it fits; once it has left, only the count matters
  by_cases hstay : 1000000000 ≤ t.nanos ∧ t.nanos + d.nanos < 2000000000
  · obtain ⟨hleap, hfits⟩ := hstay
    obtain ⟨hsecs, hnanos⟩ := add_of_leap hleap hfits
    by_cases hstay' : t.nanos + both.nanos < 2000000000
    · obtain ⟨hsecs', hnanos'⟩ := add_of_leap (t := t + d) (d := d') (by omega) (by omega)
      obtain ⟨hsecs'', hnanos''⟩ := add_of_leap hleap hstay'
      exact ext (by omega) (by omega)
    · have hbase : (t + d).base = t.base + d.nanos := by
        rw [base_eq, base_eq, if_pos (by omega), if_pos hleap, count, count]
        omega
      rw [add_of_not_leap (t := t + d) (d := d') (.inr (by omega)),
        add_of_not_leap (d := both) (.inr (by omega)), hbase]
      congr 1
      omega
  · have hstart := earliest_le_base t
    have hnanos := nanos_ofCount (t.base + d.nanos)
    rw [add_of_not_leap (d := d) (by omega), add_of_not_leap (.inl hnanos), base_of_lt hnanos,
      count_ofCount, add_of_not_leap (d := both) (by omega)]
    refine eq_of_count_eq (nanos_ofCount _) (nanos_ofCount _) ?_
    rw [count_ofCount, count_ofCount]
    omega

theorem add_mono (ht : t < latest) {d d' : Span} (h : d ≤ d') : t + d ≤ t + d' := by
  have hnanos : d.nanos ≤ d'.nanos := h
  by_cases hstay : 1000000000 ≤ t.nanos ∧ t.nanos + d.nanos < 2000000000
  · obtain ⟨hleap, hfits⟩ := hstay
    obtain ⟨hsecs, hsum⟩ := add_of_leap hleap hfits
    by_cases hstay' : t.nanos + d'.nanos < 2000000000
    · obtain ⟨hsecs', hsum'⟩ := add_of_leap hleap hstay'
      rw [le_iff]
      omega
    · have hcount := count_ofCount (t.base + d'.nanos)
      have hlow := nanos_ofCount (t.base + d'.nanos)
      have hbase := base_eq t
      rw [if_pos hleap, count] at hbase
      rw [count] at hcount
      simp only [lt_iff, latest, count, lastSecond] at ht hcount
      rw [le_iff, add_of_not_leap (d := d') (.inr (by omega)), hsecs]
      omega
  · rw [add_of_not_leap (d := d) (by omega), add_of_not_leap (d := d') (by omega)]
    exact ofCount_mono (by omega)

theorem lt_add (ht : t < latest) {d : Span} (hd : 0 < d.nanos) : t < t + d := by
  by_cases hstay : 1000000000 ≤ t.nanos ∧ t.nanos + d.nanos < 2000000000
  · obtain ⟨hsecs, hnanos⟩ := add_of_leap hstay.1 hstay.2
    rw [lt_iff]
    omega
  · have hcount := count_ofCount (t.base + d.nanos)
    have hlow := nanos_ofCount (t.base + d.nanos)
    have hearliest := earliest_le_count t
    have hbase := base_eq t
    simp only [lt_iff, latest, lastSecond] at ht
    simp only [count, latest, earliest, lastSecond, firstSecond] at hcount hbase hearliest
    rw [lt_iff, add_of_not_leap (by omega)]
    split at hbase
    · omega
    · omega

theorem add_lt_add {d d' : Span} (h : d < d') (hlate : t + d < latest) : t + d < t + d' := by
  have hnanos : d.nanos < d'.nanos := h
  have hsum : d.nanos + (d'.nanos - d.nanos) = d'.nanos := by omega
  have hsplit : t + d' = t + d + Span.mk (d'.nanos - d.nanos) := by
    rw [add_add, hsum]
  rw [hsplit]
  exact lt_add hlate (Nat.sub_pos_of_lt hnanos)

end Instant

end Workflow
