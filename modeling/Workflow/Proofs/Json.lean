import Workflow.Json.Reader
import Workflow.Json.Writer
import Workflow.Proofs.Numeral

/-!
# JSON is read as it was written

Reading a written value gives that value back, whatever its texts hold and however deep it is
nested. What nothing can be read from (`Json.other`) is no value to be written, and is left out.
-/

set_option autoImplicit false

namespace Workflow.Json

/-! ### Bytes of a text -/

theorem bytesOf_eq (s : String) : bytesOf s = s.toList.flatMap String.utf8EncodeChar := by
  have hbytes : s.toUTF8 = s.toList.utf8Encode := by
    rw [← String.toByteArray_ofList, String.ofList_toList]
    rfl
  rw [bytesOf, hbytes, List.utf8Encode, List.toList_data_toByteArray]

theorem bytesOf_ofList (cs : List Char) :
    bytesOf (String.ofList cs) = cs.flatMap String.utf8EncodeChar := by
  rw [bytesOf_eq, String.toList_ofList]

theorem fromUTF8?_bytesOf (s : String) : String.fromUTF8? (bytesOf s).toByteArray = some s := by
  have hbytes : (bytesOf s).toByteArray = s.toByteArray := by
    apply ByteArray.ext
    rw [List.data_toByteArray, bytesOf]
    exact Array.toArray_toList
  rw [hbytes, String.fromUTF8?, dif_pos s.isValidUTF8]
  rfl

/-! ### Text -/

/-- The piece as which a byte of a text is written. -/
def pieceOf (b : UInt8) : Piece :=
  if b < 0x20 ∧ b ≠ 0x08 ∧ b ≠ 0x09 ∧ b ≠ 0x0A ∧ b ≠ 0x0C ∧ b ≠ 0x0D then .unit b.toNat else .byte b

theorem hexValue?_hexDigit : ∀ n, n < 16 → hexValue? (hexDigit n) = some n := by
  decide

theorem pieces_escape (b : UInt8) (rest : List UInt8) :
    pieces (escape b ++ rest) = (pieces rest).map fun p => (pieceOf b :: p.1, p.2) := by
  have hshort (c d : UInt8) (hc : c ≠ 0x75) (hd : unescape? c = some d) :
      pieces (0x5C :: c :: rest) = (pieces rest).map fun p => (.byte d :: p.1, p.2) := by
    rw [pieces, hd]
    · cases pieces rest <;> rfl
    · exact fun _ _ _ _ _ heq _ => hc heq
  unfold escape
  split_ifs with h22 h5C h08 h09 h0A h0C h0D hlow
  · subst h22
    exact hshort 0x22 0x22 (by decide) (by decide)
  · subst h5C
    exact hshort 0x5C 0x5C (by decide) (by decide)
  · subst h08
    exact hshort 0x62 0x08 (by decide) (by decide)
  · subst h09
    exact hshort 0x74 0x09 (by decide) (by decide)
  · subst h0A
    exact hshort 0x6E 0x0A (by decide) (by decide)
  · subst h0C
    exact hshort 0x66 0x0C (by decide) (by decide)
  · subst h0D
    exact hshort 0x72 0x0D (by decide) (by decide)
  · have hlt : b.toNat < 32 := UInt8.lt_iff_toNat_lt.1 hlow
    have hzero : hexValue? 0x30 = some 0 := by decide
    have hsum : 0 * 4096 + 0 * 256 + b.toNat / 16 * 16 + b.toNat % 16 = b.toNat := by omega
    have hpiece : pieceOf b = .unit b.toNat := if_pos ⟨hlow, h08, h09, h0A, h0C, h0D⟩
    simp only [List.cons_append, List.nil_append]
    rw [pieces, hzero, hexValue?_hexDigit _ (by omega), hexValue?_hexDigit _ (by omega), hpiece]
    simp only [Option.bind_eq_bind, Option.bind_some, hsum]
    cases pieces rest <;> rfl
  · have hpiece : pieceOf b = .byte b := if_neg fun h => hlow h.1
    rw [List.singleton_append, pieces, if_neg hlow, hpiece]
    · cases pieces rest <;> rfl
    · exact h22
    · exact fun _ _ _ _ _ heq _ => h5C heq
    · exact fun _ _ heq _ => h5C heq

theorem pieces_quote (bs rest : List UInt8) :
    pieces (bs.flatMap escape ++ 0x22 :: rest) = some (bs.map pieceOf, rest) := by
  induction bs with
  | nil => rfl
  | cons b bs ih => rw [List.flatMap_cons, List.append_assoc, pieces_escape, ih]; rfl

theorem encode_control : ∀ n, n < 32 → String.utf8EncodeChar (Char.ofNat n) = [UInt8.ofNat n] := by
  decide

theorem spell?_control {n : Nat} (h : n < 32) (ps : List Piece) :
    spell? (.unit n :: ps) = (spell? ps).map (UInt8.ofNat n :: ·) := by
  have hencode := encode_control n h
  have halone (hnext : ∀ m rest, ps = .unit m :: rest → False) :
      spell? (.unit n :: ps) = (spell? ps).map (UInt8.ofNat n :: ·) := by
    rw [spell?, if_neg (by omega), hencode]
    · rfl
    · exact hnext
  cases ps with
  | nil => exact halone fun _ _ heq => nomatch heq
  | cons p ps =>
    cases p with
    | byte b => exact halone fun _ _ heq => nomatch heq
    | unit m =>
      rw [spell?, if_neg (by omega), if_neg (by omega), hencode]
      rfl

theorem spell?_map_pieceOf (bs : List UInt8) : spell? (bs.map pieceOf) = some bs := by
  induction bs with
  | nil => rfl
  | cons b bs ih =>
    rw [List.map_cons, pieceOf]
    split
    next h =>
      rw [spell?_control (UInt8.lt_iff_toNat_lt.1 h.1), ih, Option.map_some, UInt8.ofNat_toNat]
    next => rw [spell?, ih, Option.map_some]

theorem quote_append (s : String) (rest : List UInt8) :
    quote s ++ rest = 0x22 :: ((bytesOf s).flatMap escape ++ 0x22 :: rest) := by
  simp [quote]

theorem string?_quote (s : String) (rest : List UInt8) :
    string? ((bytesOf s).flatMap escape ++ 0x22 :: rest) = some (some s, rest) := by
  rw [string?, pieces_quote]
  simp only [Option.bind_eq_bind, Option.bind_some, spell?_map_pieceOf, fromUTF8?_bytesOf]

/-! ### Numbers -/

/-- What may follow a value: nothing, a comma or the end of a list or an object. -/
def Closes (rest : List UInt8) : Prop :=
  rest = [] ∨ ∃ b tail, rest = b :: tail ∧ (b = 0x2C ∨ b = 0x5D ∨ b = 0x7D)

theorem closes_nil : Closes [] := .inl rfl

/-- The bytes of a number in digits. -/
def digitsOf (n : Nat) : List UInt8 := (Nat.toDigits 10 n).flatMap String.utf8EncodeChar

theorem encode_digitChar : ∀ d, d < 10 →
    String.utf8EncodeChar d.digitChar = [UInt8.ofNat (0x30 + d)] := by
  decide

theorem isDigit_ofNat : ∀ d, d < 10 → isDigit (UInt8.ofNat (0x30 + d)) = true := by
  decide

theorem digits_induction {P : Nat → List UInt8 → Prop}
    (one : ∀ d, d < 10 → P d [UInt8.ofNat (0x30 + d)])
    (more : ∀ n d bs, 0 < n → d < 10 → P n bs → P (10 * n + d) (bs ++ [UInt8.ofNat (0x30 + d)]))
    (n : Nat) : P n (digitsOf n) := by
  induction n using Nat.strongRecOn with
  | _ n ih =>
    unfold digitsOf at *
    by_cases hlt : n < 10
    · rw [Nat.toDigits_of_lt_base hlt, List.flatMap_singleton, encode_digitChar n hlt]
      exact one n hlt
    · have hdigit : n % 10 < 10 := Nat.mod_lt n (by decide)
      have hnext := more (n / 10) (n % 10) _ (by omega) hdigit (ih (n / 10) (by omega))
      rw [Nat.toDigits_of_base_le (by decide) (by omega), List.flatMap_append,
        List.flatMap_singleton, encode_digitChar _ hdigit]
      rwa [Nat.div_add_mod] at hnext

theorem isDigit_digitsOf (n : Nat) : ∀ b ∈ digitsOf n, isDigit b = true := by
  refine digits_induction (P := fun _ bs => ∀ b ∈ bs, isDigit b = true) (fun d hd b hb => ?_)
    (fun n d bs _ hd ih b hb => ?_) n
  · rw [List.mem_singleton.1 hb]
    exact isDigit_ofNat d hd
  · rcases List.mem_append.1 hb with hb | hb
    · exact ih b hb
    · rw [List.mem_singleton.1 hb]
      exact isDigit_ofNat d hd

theorem digitsValue_digitsOf (n : Nat) : digitsValue (digitsOf n) = n := by
  have htoNat {d : Nat} (hd : d < 10) : (UInt8.ofNat (0x30 + d)).toNat = 0x30 + d :=
    UInt8.toNat_ofNat_of_lt' (by simp [UInt8.size]; omega)
  refine digits_induction (P := fun n bs => digitsValue bs = n) (fun d hd => ?_)
    (fun n d bs _ hd ih => ?_) n
  · simp only [digitsValue, List.foldl_cons, List.foldl_nil, htoNat hd]
    omega
  · unfold digitsValue at ih ⊢
    rw [List.foldl_append, ih, List.foldl_cons, List.foldl_nil, htoNat hd]
    omega

theorem digitsOf_cases (n : Nat) :
    ∃ b bs, digitsOf n = b :: bs ∧ (b = 0x30 → n = 0 ∧ bs = []) := by
  have hzero : ∀ d, d < 10 → UInt8.ofNat (0x30 + d) = 0x30 → d = 0 := by decide
  refine digits_induction (P := fun n bs => ∃ c cs, bs = c :: cs ∧ (c = 0x30 → n = 0 ∧ cs = []))
    (fun d hd => ?_) (fun n d bs hn hd ih => ?_) n
  · exact ⟨_, [], rfl, fun h => ⟨hzero d hd h, rfl⟩⟩
  · obtain ⟨c, cs, rfl, hc⟩ := ih
    refine ⟨c, _, rfl, fun h => ?_⟩
    have := (hc h).1
    omega

theorem bytesOf_toString_natCast (n : Nat) : bytesOf (toString n) = digitsOf n := by
  rw [Nat.toString_eq_ofList_toDigits, bytesOf_ofList]
  rfl

theorem Closes.isDigit_head {rest : List UInt8} (h : Closes rest) :
    ∀ b tail, rest = b :: tail → isDigit b = false := by
  rintro b tail rfl
  rcases h with h | ⟨_, _, heq, h⟩
  · cases h
  · cases heq
    rcases h with rfl | rfl | rfl <;> rfl

theorem digitRun?_digitsOf (n : Nat) {rest : List UInt8} (h : Closes rest) :
    digitRun? (digitsOf n ++ rest) = some (digitsOf n, rest) := by
  have hstop : rest.takeWhile isDigit = [] := by
    cases rest with
    | nil => rfl
    | cons b tail => rw [List.takeWhile_cons_of_neg (by simp [h.isDigit_head b tail rfl])]
  have hrun : (digitsOf n ++ rest).takeWhile isDigit = digitsOf n := by
    rw [List.takeWhile_append_of_pos (isDigit_digitsOf n), hstop, List.append_nil]
  obtain ⟨b, bs, hcons, -⟩ := digitsOf_cases n
  unfold digitRun?
  simp only [hrun]
  rw [if_neg (by simp [hcons]), List.drop_left]

theorem wholePart?_digitsOf (n : Nat) {rest : List UInt8} (h : Closes rest) :
    wholePart? (digitsOf n ++ rest) = some (digitsOf n, rest) := by
  obtain ⟨b, bs, hcons, hzero⟩ := digitsOf_cases n
  have hlead : ¬ ((digitsOf n).head? = some 0x30 ∧ (digitsOf n).length ≠ 1) := by
    rintro ⟨hhead, hlen⟩
    rw [hcons] at hhead hlen
    exact hlen (by rw [(hzero (Option.some.inj hhead)).2]; rfl)
  rw [wholePart?, digitRun?_digitsOf n h]
  exact if_neg hlead

theorem fraction?_of_closes {rest : List UInt8} (h : Closes rest) :
    fraction? rest = some (false, rest) := by
  rcases h with rfl | ⟨b, tail, rfl, rfl | rfl | rfl⟩ <;> rfl

theorem exponent?_of_closes {rest : List UInt8} (h : Closes rest) :
    exponent? rest = some (false, rest) := by
  rcases h with rfl | ⟨b, tail, rfl, rfl | rfl | rfl⟩ <;> rfl

theorem bytesOf_toString_negSucc (n : Nat) :
    bytesOf (toString (Int.negSucc n)) = 0x2D :: digitsOf (n + 1) := by
  change bytesOf ("-" ++ Nat.repr (n + 1)) = _
  have hsign : bytesOf "-" = [0x2D] := by decide
  have happend (s t : String) : bytesOf (s ++ t) = bytesOf s ++ bytesOf t := by
    rw [bytesOf_eq, bytesOf_eq, bytesOf_eq, String.toList_append, List.flatMap_append]
  rw [happend, hsign, Nat.repr_eq_ofList_toDigits, bytesOf_ofList]
  rfl

theorem number?_digitsOf (n : Nat) {rest : List UInt8} (h : Closes rest) :
    number? (digitsOf n ++ rest) = some (.int n, rest) := by
  have hsign (tail : List UInt8) : digitsOf n ++ rest ≠ 0x2D :: tail := by
    obtain ⟨b, bs, hcons, -⟩ := digitsOf_cases n
    intro heq
    rw [hcons, List.cons_append] at heq
    have hdigit := isDigit_digitsOf n b (hcons ▸ List.mem_cons_self)
    rw [(List.cons.inj heq).1] at hdigit
    cases hdigit
  unfold number?
  split
  next heq =>
    split at heq
    next tail hminus => exact absurd hminus (hsign tail)
    next =>
      cases heq
      simp [wholePart?_digitsOf n h, fraction?_of_closes h, exponent?_of_closes h,
        digitsValue_digitsOf]

theorem number?_int (n : Int) {rest : List UInt8} (h : Closes rest) :
    number? (bytesOf (toString n) ++ rest) = some (.int n, rest) := by
  cases n with
  | ofNat n =>
    change number? (bytesOf (toString n) ++ rest) = _
    rw [bytesOf_toString_natCast, number?_digitsOf n h]
    rfl
  | negSucc n =>
    rw [bytesOf_toString_negSucc, List.cons_append, number?]
    simp [wholePart?_digitsOf (n + 1) h, fraction?_of_closes h, exponent?_of_closes h,
      digitsValue_digitsOf]
    omega

/-! ### Values -/

/-- A value of which nothing is left out when it is written. -/
inductive Plain : Json → Prop
  | null : Plain .null
  | bool (b : Bool) : Plain (.bool b)
  | int (n : Int) : Plain (.int n)
  | str (s : String) : Plain (.str s)
  | arr {items : List Json} (h : ∀ j ∈ items, Plain j) : Plain (.arr items)
  | obj {members : List (String × Json)} (h : ∀ m ∈ members, Plain m.2) : Plain (.obj members)

/-- The value is read back where another one may follow, by two steps for each of its bytes. -/
def ReadsBack (j : Json) : Prop :=
  ∀ steps rest, 2 * j.write.length ≤ steps → Closes rest →
    value? steps (j.write ++ rest) = some (j, rest)

theorem skipBlanks_cons {b : UInt8}
    (hb : (b == 0x20 || b == 0x09 || b == 0x0A || b == 0x0D) = false) (rest : List UInt8) :
    skipBlanks (b :: rest) = b :: rest :=
  List.dropWhile_cons_of_neg (by simp [hb])

theorem bytesOf_toString_cons (n : Int) :
    ∃ b bs, bytesOf (toString n) = b :: bs ∧ (isDigit b = true ∨ b = 0x2D) := by
  cases n with
  | ofNat n =>
    obtain ⟨b, bs, hcons, -⟩ := digitsOf_cases n
    exact ⟨b, bs, (bytesOf_toString_natCast n).trans hcons,
      .inl (isDigit_digitsOf n b (hcons ▸ List.mem_cons_self))⟩
  | negSucc n => exact ⟨_, _, bytesOf_toString_negSucc n, .inr rfl⟩

theorem ne_of_digit {b c : UInt8} (hb : isDigit b = true ∨ b = 0x2D) (hc : isDigit c = false)
    (hminus : c ≠ 0x2D) : b ≠ c := by
  rintro rfl
  rcases hb with hb | hb
  · exact Bool.noConfusion (hb.symm.trans hc)
  · exact hminus hb

theorem write_cons (j : Json) :
    ∃ b bs, j.write = b :: bs ∧ (b == 0x20 || b == 0x09 || b == 0x0A || b == 0x0D) = false ∧
      b ≠ 0x5D := by
  cases j with
  | null => exact ⟨_, _, by rw [write]; rfl, by decide⟩
  | bool b => cases b <;> exact ⟨_, _, by rw [write]; rfl, by decide⟩
  | int n =>
    obtain ⟨b, bs, hcons, hb⟩ := bytesOf_toString_cons n
    have hne {c : UInt8} (hc : isDigit c = false) (hminus : c ≠ 0x2D) : (b == c) = false :=
      beq_false_of_ne (ne_of_digit hb hc hminus)
    refine ⟨b, bs, by rw [write, hcons], ?_, ne_of_digit hb (by decide) (by decide)⟩
    rw [hne (by decide) (by decide), hne (by decide) (by decide), hne (by decide) (by decide),
      hne (by decide) (by decide)]
    rfl
  | str s => exact ⟨_, _, by rw [write]; rfl, by decide⟩
  | arr items =>
    cases items with
    | nil => exact ⟨_, _, by rw [write], by decide⟩
    | cons item items => exact ⟨_, _, by rw [write]; rfl, by decide⟩
  | obj members =>
    rcases members with - | ⟨⟨name, value⟩, members⟩
    · exact ⟨_, _, by rw [write], by decide⟩
    · exact ⟨_, _, by rw [write]; rfl, by decide⟩
  | other => exact ⟨_, _, by rw [write]; rfl, by decide⟩

theorem exists_steps {steps : Nat} {j : Json} (h : 2 * j.write.length ≤ steps) :
    ∃ n, steps = n + 1 ∧ 2 * j.write.length ≤ n + 1 := by
  obtain ⟨b, bs, hwrite, -⟩ := write_cons j
  rw [hwrite, List.length_cons] at h ⊢
  exact ⟨steps - 1, by omega, by omega⟩

theorem readsBack_null : ReadsBack .null := by
  intro steps rest hsteps _
  obtain ⟨steps, rfl, -⟩ := exists_steps hsteps
  have hwrite : write .null = [0x6E, 0x75, 0x6C, 0x6C] := by
    rw [write]
    decide
  rw [hwrite, value?]
  rfl

theorem readsBack_bool (b : Bool) : ReadsBack (.bool b) := by
  intro steps rest hsteps _
  obtain ⟨steps, rfl, -⟩ := exists_steps hsteps
  cases b with
  | true =>
    have hwrite : write (.bool true) = [0x74, 0x72, 0x75, 0x65] := by
      rw [write]
      decide
    rw [hwrite, value?]
    rfl
  | false =>
    have hwrite : write (.bool false) = [0x66, 0x61, 0x6C, 0x73, 0x65] := by
      rw [write]
      decide
    rw [hwrite, value?]
    rfl

theorem readsBack_int (n : Int) : ReadsBack (.int n) := by
  intro steps rest hsteps hrest
  obtain ⟨steps, rfl, -⟩ := exists_steps hsteps
  obtain ⟨b, bs, hwrite, hblank, -⟩ := write_cons (.int n)
  obtain ⟨b', bs', hcons, hb⟩ := bytesOf_toString_cons n
  have hnumber := number?_int n hrest
  rw [write, hcons] at hwrite
  obtain ⟨rfl, rfl⟩ := List.cons.inj hwrite
  rw [hcons, List.cons_append] at hnumber
  rw [write, hcons, List.cons_append, value?, skipBlanks_cons hblank]
  split
  next heq => cases heq
  next heq => exact absurd (List.cons.inj heq).1 (ne_of_digit hb (by decide) (by decide))
  next heq => exact absurd (List.cons.inj heq).1 (ne_of_digit hb (by decide) (by decide))
  next heq => exact absurd (List.cons.inj heq).1 (ne_of_digit hb (by decide) (by decide))
  next heq => exact absurd (List.cons.inj heq).1 (ne_of_digit hb (by decide) (by decide))
  next heq => exact absurd (List.cons.inj heq).1 (ne_of_digit hb (by decide) (by decide))
  next heq => exact absurd (List.cons.inj heq).1 (ne_of_digit hb (by decide) (by decide))
  next => exact hnumber

theorem readsBack_str (s : String) : ReadsBack (.str s) := by
  intro steps rest hsteps hrest
  obtain ⟨steps, rfl, -⟩ := exists_steps hsteps
  rw [write, quote_append, value?, skipBlanks_cons (by decide)]
  simp only [string?_quote, Option.map_some, Option.elim_some]

/-! ### Lists and objects -/

theorem closes_writeItems (items : List Json) (rest : List UInt8) :
    Closes (writeItems items ++ rest) := by
  cases items with
  | nil => exact .inr ⟨0x5D, rest, by rw [writeItems]; rfl, by decide⟩
  | cons item items => exact .inr ⟨0x2C, _, by rw [writeItems]; rfl, by decide⟩

theorem closes_writeMembers (members : List (String × Json)) (rest : List UInt8) :
    Closes (writeMembers members ++ rest) := by
  rcases members with - | ⟨⟨name, value⟩, members⟩
  · exact .inr ⟨0x7D, rest, by rw [writeMembers]; rfl, by decide⟩
  · exact .inr ⟨0x2C, _, by rw [writeMembers]; rfl, by decide⟩

theorem items?_write (items : List Json) {item : Json} (hall : ∀ j ∈ item :: items, ReadsBack j)
    (steps : Nat) (rest : List UInt8)
    (hsteps : 2 * (item.write.length + (writeItems items).length) < steps) :
    items? steps (item.write ++ (writeItems items ++ rest)) = some (item :: items, rest) := by
  induction items generalizing item steps with
  | nil =>
    obtain ⟨steps, rfl⟩ : ∃ n, steps = n + 1 := ⟨steps - 1, by omega⟩
    rw [items?, hall item List.mem_cons_self steps _ (by omega) (closes_writeItems [] rest)]
    rfl
  | cons next items ih =>
    obtain ⟨steps, rfl⟩ : ∃ n, steps = n + 1 := ⟨steps - 1, by omega⟩
    have hread := hall item List.mem_cons_self steps _ (by omega)
      (closes_writeItems (next :: items) rest)
    rw [writeItems_cons, List.length_cons, List.length_append] at hsteps
    have hrest := ih (fun j hj => hall j (List.mem_cons_of_mem _ hj)) steps (by omega)
    rw [items?, hread, writeItems_cons, List.cons_append, List.append_assoc]
    simp only [Option.bind_eq_bind, Option.bind_some, skipBlanks_cons (b := 0x2C) (by decide),
      hrest]

theorem readsBack_arr {items : List Json} (hall : ∀ j ∈ items, ReadsBack j) :
    ReadsBack (.arr items) := by
  intro steps rest hsteps _
  obtain ⟨steps, rfl, hle⟩ := exists_steps hsteps
  cases items with
  | nil =>
    rw [write, value?]
    rfl
  | cons item items =>
    rw [write_arr_cons, List.length_cons, List.length_append] at hsteps
    have hitems := items?_write items hall steps rest (by omega)
    obtain ⟨b, bs, hfirst, hblank, hend⟩ := write_cons item
    rw [write_arr_cons, List.cons_append, List.append_assoc, value?, skipBlanks_cons (by decide)]
    simp only
    rw [hfirst, List.cons_append] at hitems ⊢
    rw [skipBlanks_cons hblank]
    split
    next heq => exact absurd (List.cons.inj heq).1 hend
    next => rw [hitems, Option.map_some]

theorem mapM_map_eq_some {α β : Type} {f : α → β} {g : β → Option α} {l : List α}
    (h : ∀ a ∈ l, g (f a) = some a) : (l.map f).mapM g = some l := by
  induction l with
  | nil => rfl
  | cons a l ih =>
    rw [List.map_cons, List.mapM_cons, h a List.mem_cons_self,
      ih fun b hb => h b (List.mem_cons_of_mem _ hb)]
    rfl

/-- The members of an object as they are read. -/
def named (members : List (String × Json)) : List (Option String × Json) :=
  members.map fun m => (some m.1, m.2)

theorem ofMembers_named (members : List (String × Json)) :
    ofMembers (named members) = .obj members := by
  rw [ofMembers, named, mapM_map_eq_some]
  exact fun _ _ => rfl

theorem members?_write (members : List (String × Json)) {name : String} {value : Json}
    (hall : ∀ m ∈ (name, value) :: members, ReadsBack m.2) (steps : Nat) (rest : List UInt8)
    (hsteps : 2 * (value.write.length + (writeMembers members).length) < steps) :
    members? steps (quote name ++ 0x3A :: (value.write ++ (writeMembers members ++ rest))) =
      some (named ((name, value) :: members), rest) := by
  induction members generalizing name value steps with
  | nil =>
    obtain ⟨steps, rfl⟩ : ∃ n, steps = n + 1 := ⟨steps - 1, by omega⟩
    have hvalue : ReadsBack value := hall (name, value) List.mem_cons_self
    have hread := hvalue steps _ (by omega)
      (closes_writeMembers [] rest)
    rw [members?, quote_append, skipBlanks_cons (by decide)]
    simp only [string?_quote, Option.bind_eq_bind, Option.bind_some,
      skipBlanks_cons (b := 0x3A) (by decide), hread]
    rfl
  | cons next members ih =>
    obtain ⟨steps, rfl⟩ : ∃ n, steps = n + 1 := ⟨steps - 1, by omega⟩
    obtain ⟨name', value'⟩ := next
    have hvalue : ReadsBack value := hall (name, value) List.mem_cons_self
    have hread := hvalue steps _ (by omega)
      (closes_writeMembers ((name', value') :: members) rest)
    rw [writeMembers_cons, List.length_cons, List.length_append, List.length_cons,
      List.length_append] at hsteps
    have hrest := ih (fun m hm => hall m (List.mem_cons_of_mem _ hm)) steps (by omega)
    rw [members?, quote_append, skipBlanks_cons (by decide)]
    simp only [string?_quote, Option.bind_eq_bind, Option.bind_some,
      skipBlanks_cons (b := 0x3A) (by decide), hread]
    rw [writeMembers_cons, List.cons_append, skipBlanks_cons (by decide)]
    simp only [List.append_assoc, List.cons_append, hrest]
    rfl

theorem readsBack_obj {members : List (String × Json)} (hall : ∀ m ∈ members, ReadsBack m.2) :
    ReadsBack (.obj members) := by
  intro steps rest hsteps _
  obtain ⟨steps, rfl, hle⟩ := exists_steps hsteps
  cases members with
  | nil =>
    rw [write, value?]
    rfl
  | cons m members =>
    obtain ⟨name, value⟩ := m
    rw [write_obj_cons, List.length_cons, List.length_append, List.length_cons,
      List.length_append] at hsteps
    have hmembers := members?_write members hall steps rest (by omega)
    rw [quote_append] at hmembers
    rw [write_obj_cons, List.cons_append, List.append_assoc, List.cons_append, List.append_assoc,
      quote_append, value?_members, hmembers, Option.map_some, ofMembers_named]

theorem Plain.readsBack {j : Json} (h : j.Plain) : ReadsBack j := by
  induction h with
  | null => exact readsBack_null
  | bool b => exact readsBack_bool b
  | int n => exact readsBack_int n
  | str s => exact readsBack_str s
  | arr _ ih => exact readsBack_arr ih
  | obj _ ih => exact readsBack_obj ih

/-- A document is read as the value that it was written from. -/
theorem read?_write {j : Json} (h : j.Plain) : read? j.write = some j := by
  have hread := h.readsBack (2 * j.write.length + 2) [] (by omega) closes_nil
  rw [List.append_nil] at hread
  rw [read?, hread]
  rfl

end Workflow.Json
