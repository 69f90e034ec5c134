import Mathlib.Tactic.Common
import Workflow.Text.Numeral

/-!
# Reading what was written

Exactly the numerals of an optional sign and one or more digits are read, as the number that these
stand for. So a number that was written is read again, if a signed 64-bit word holds it.
-/

set_option autoImplicit false

namespace Workflow.Numeral

theorem digit?_of_isDigit {c : Char} (h : c.isDigit = true) :
    digit? c = some (c.toNat - '0'.toNat) := by
  rw [Char.isDigit, Bool.and_eq_true, decide_eq_true_iff, decide_eq_true_iff] at h
  exact if_pos h

theorem extend?_of_isDigit {cs : List Char} (h : ∀ c ∈ cs, c.isDigit = true) (acc : Nat) :
    extend? acc cs = some (Nat.ofDigitChars 10 cs acc) := by
  induction cs generalizing acc with
  | nil => rfl
  | cons c rest ih =>
    rw [extend?, digit?_of_isDigit (h c List.mem_cons_self), Option.bind_some,
      ih fun d hd => h d (List.mem_cons_of_mem c hd)]
    rfl

theorem digits?_of_isDigit {cs : List Char} (hne : cs ≠ []) (h : ∀ c ∈ cs, c.isDigit = true) :
    digits? cs = some (Nat.ofDigitChars 10 cs 0) := by
  cases cs with
  | nil => exact absurd rfl hne
  | cons c rest => exact extend?_of_isDigit h 0

theorem digits?_toDigits (n : Nat) : digits? (Nat.toDigits 10 n) = some n := by
  rw [digits?_of_isDigit Nat.toDigits_ne_nil
    fun c hc => Nat.isDigit_of_mem_toDigits (by decide) (by decide) hc,
    Nat.ofDigitChars_toDigits (by decide) (by decide)]

theorem signed?_of_isDigit {cs : List Char} (h : ∀ c ∈ cs, c.isDigit = true) :
    signed? cs = (digits? cs).map Int.ofNat := by
  unfold signed?
  split
  next rest => exact absurd (h '+' List.mem_cons_self) (by decide)
  next rest => exact absurd (h '-' List.mem_cons_self) (by decide)
  next => rfl

theorem int64?_toString (n : Nat) :
    int64? (toString (n : Int)).toList =
      if (n : Int) ≤ Int64.maxValue.toInt then some (n : Int) else none := by
  have htext : (toString (n : Int)).toList = Nat.toDigits 10 n := Nat.toList_repr
  have hmin : Int64.minValue.toInt ≤ (n : Int) := by
    have hneg : Int64.minValue.toInt ≤ 0 := by decide
    omega
  rw [int64?, htext,
    signed?_of_isDigit fun c hc => Nat.isDigit_of_mem_toDigits (by decide) (by decide) hc,
    digits?_toDigits, Option.map_some, Option.filter_some]
  simp only [fitsInt64, hmin, decide_true, Bool.true_and, decide_eq_true_iff, Int.ofNat_eq_natCast]

/-! ### What is read -/

/-- The text consists of one or more digits, which stand for the number. -/
structure Digits (cs : List Char) (n : Nat) : Prop where
  nonempty : cs ≠ []
  digits : ∀ c ∈ cs, c.isDigit = true
  value : Nat.ofDigitChars 10 cs 0 = n

/-- The text consists of an optional sign and digits, and stands for the number. -/
inductive Signed : List Char → Int → Prop
  | bare {cs : List Char} {n : Nat} (h : Digits cs n) : Signed cs n
  | plus {cs : List Char} {n : Nat} (h : Digits cs n) : Signed ('+' :: cs) n
  | minus {cs : List Char} {n : Nat} (h : Digits cs n) : Signed ('-' :: cs) (-n)

/-- The text consists of an optional plus sign and digits, and stands for the number. -/
inductive Unsigned : List Char → Nat → Prop
  | bare {cs : List Char} {n : Nat} (h : Digits cs n) : Unsigned cs n
  | plus {cs : List Char} {n : Nat} (h : Digits cs n) : Unsigned ('+' :: cs) n

theorem isDigit_of_digit? {c : Char} {d : Nat} (h : digit? c = some d) : c.isDigit = true := by
  unfold digit? at h
  split at h
  next hin =>
    rw [Char.isDigit, Bool.and_eq_true, decide_eq_true_iff, decide_eq_true_iff]
    exact hin
  next => cases h

theorem isDigit_of_extend? {acc n : Nat} {cs : List Char} (h : extend? acc cs = some n) :
    ∀ c ∈ cs, c.isDigit = true := by
  induction cs generalizing acc with
  | nil => exact fun c hc => absurd hc List.not_mem_nil
  | cons c rest ih =>
    obtain ⟨d, hd, hrest⟩ := Option.bind_eq_some_iff.1 h
    exact List.forall_mem_cons.2 ⟨isDigit_of_digit? hd, ih hrest⟩

theorem digits?_eq_some_iff {cs : List Char} {n : Nat} : digits? cs = some n ↔ Digits cs n := by
  constructor
  · intro h
    have hne : cs ≠ [] := by
      rintro rfl
      cases h
    have hdigits : ∀ c ∈ cs, c.isDigit = true := by
      cases cs with
      | nil => exact absurd rfl hne
      | cons c rest => exact isDigit_of_extend? h
    rw [digits?_of_isDigit hne hdigits] at h
    exact ⟨hne, hdigits, Option.some.inj h⟩
  · rintro ⟨hne, hdigits, rfl⟩
    exact digits?_of_isDigit hne hdigits

theorem digits_toDigits (n : Nat) : Digits (Nat.toDigits 10 n) n :=
  digits?_eq_some_iff.1 (digits?_toDigits n)

theorem natural?_eq_some_iff {bound : Nat} {cs : List Char} {n : Nat} :
    natural? bound cs = some n ↔ Unsigned cs n ∧ n < bound := by
  unfold natural?
  rw [Option.filter_eq_some_iff, decide_eq_true_iff]
  refine and_congr_left fun _ => ⟨fun h => ?_, fun h => ?_⟩
  · split at h
    next rest => exact .plus (digits?_eq_some_iff.1 h)
    next => exact .bare (digits?_eq_some_iff.1 h)
  · cases h with
    | bare h =>
      split
      next rest => exact absurd (h.digits '+' List.mem_cons_self) (by decide)
      next => exact digits?_eq_some_iff.2 h
    | plus h => exact digits?_eq_some_iff.2 h

theorem unsigned_toString (n : Nat) : Unsigned (toString n).toList n := by
  have htext : (toString n).toList = Nat.toDigits 10 n := Nat.toList_repr
  rw [htext]
  exact .bare (digits_toDigits n)

theorem word32?_toString {n : Nat} (h : n < UInt32.size) :
    word32? (toString n).toList = some n :=
  natural?_eq_some_iff.2 ⟨unsigned_toString n, h⟩

theorem word32?_lt {cs : List Char} {n : Nat} (h : word32? cs = some n) : n < UInt32.size :=
  (natural?_eq_some_iff.1 h).2

theorem signed?_eq_some_iff {cs : List Char} {n : Int} : signed? cs = some n ↔ Signed cs n := by
  constructor
  · intro h
    unfold signed? at h
    split at h
    next rest =>
      obtain ⟨m, hm, rfl⟩ := Option.map_eq_some_iff.1 h
      exact .plus (digits?_eq_some_iff.1 hm)
    next rest =>
      obtain ⟨m, hm, rfl⟩ := Option.map_eq_some_iff.1 h
      exact .minus (digits?_eq_some_iff.1 hm)
    next =>
      obtain ⟨m, hm, rfl⟩ := Option.map_eq_some_iff.1 h
      exact .bare (digits?_eq_some_iff.1 hm)
  · intro h
    cases h with
    | bare h => rw [signed?_of_isDigit h.digits, digits?_eq_some_iff.2 h]; rfl
    | plus h => rw [signed?, digits?_eq_some_iff.2 h]; rfl
    | minus h => rw [signed?, digits?_eq_some_iff.2 h]; rfl

theorem int64?_eq_some_iff {cs : List Char} {n : Int} :
    int64? cs = some n ↔ Signed cs n ∧ fitsInt64 n = true := by
  rw [int64?, Option.filter_eq_some_iff, signed?_eq_some_iff]

theorem fitsInt64_toInt (n : Int64) : fitsInt64 n.toInt = true := by
  rw [fitsInt64, Bool.and_eq_true, decide_eq_true_iff, decide_eq_true_iff]
  exact ⟨n.minValue_le_toInt, n.toInt_le⟩

theorem Signed.unique {cs : List Char} {m n : Int} (hm : Signed cs m) (hn : Signed cs n) :
    m = n := by
  have hsame := (signed?_eq_some_iff.2 hm).symm.trans (signed?_eq_some_iff.2 hn)
  exact Option.some.inj hsame

theorem signed_toString (n : Int) : Signed (toString n).toList n := by
  cases n with
  | ofNat n =>
    have htext : (toString (Int.ofNat n)).toList = Nat.toDigits 10 n := Nat.toList_repr
    rw [htext]
    exact .bare (digits_toDigits n)
  | negSucc n =>
    have htext : (toString (Int.negSucc n)).toList = '-' :: Nat.toDigits 10 (n + 1) := by
      change ("-" ++ (n + 1).repr).toList = _
      rw [String.toList_append, Nat.toList_repr]
      rfl
    rw [htext]
    exact .minus (digits_toDigits (n + 1))

theorem Signed.isDigit_or {cs : List Char} {n : Int} (h : Signed cs n) {c : Char} (hc : c ∈ cs) :
    c.isDigit = true ∨ c = '+' ∨ c = '-' := by
  cases h with
  | bare h => exact .inl (h.digits c hc)
  | plus h =>
    rcases List.mem_cons.1 hc with rfl | hc
    · exact .inr (.inl rfl)
    · exact .inl (h.digits c hc)
  | minus h =>
    rcases List.mem_cons.1 hc with rfl | hc
    · exact .inr (.inr rfl)
    · exact .inl (h.digits c hc)

end Workflow.Numeral
