import Mathlib.Tactic.Common
import Workflow.Site
import Workflow.Proofs.Document
import Workflow.Proofs.Effect

/-!
# Stacking and taking out again

A draft stacked in a free note of a carrier is written as a document and the document as Base64;
both are read back as they were written. Taking the draft out therefore yields it as it was and
leaves the carrier as it was before. Where a note holds no readable draft, nothing changes.
-/

set_option autoImplicit false

namespace Workflow

namespace Base64

/-! ### Base64 is read back -/

private theorem digit_all : ∀ n, n < 64 → value? (digit n) = some n ∧ digit n ≠ '=' := by
  decide

theorem value?_digit {n : Nat} (h : n < 64) : value? (digit n) = some n := (digit_all n h).1

theorem digit_ne {n : Nat} (h : n < 64) : digit n ≠ '=' := (digit_all n h).2

theorem decode?_encode (bs : List UInt8) : decode? (encode bs) = some bs := by
  induction bs using encode.induct with
  | case1 a b c rest ih =>
    have ha := a.toNat_lt
    have hb := b.toNat_lt
    have hc := c.toNat_lt
    obtain ⟨n, hn⟩ : ∃ n, n = a.toNat * 65536 + b.toNat * 256 + c.toNat := ⟨_, rfl⟩
    have hback : n / 262144 * 262144 + n / 4096 % 64 * 4096 + n / 64 % 64 * 64 + n % 64 = n := by
      omega
    have hfirst : n / 65536 = a.toNat := by omega
    have hsecond : n / 256 % 256 = b.toNat := by omega
    have hthird : n % 256 = c.toNat := by omega
    simp only [encode, ← hn]
    rw [decode?]
    · simp only [value?_digit (n := n / 262144) (by omega),
        value?_digit (n := n / 4096 % 64) (by omega), value?_digit (n := n / 64 % 64) (by omega),
        value?_digit (n := n % 64) (by omega), ih, Option.bind_eq_bind, Option.bind_some, hback,
        hfirst, hsecond, hthird, UInt8.ofNat_toNat]
    · intro hpad _ _
      exact digit_ne (n := n / 64 % 64) (by omega) hpad
    · intro hpad _
      exact digit_ne (n := n % 64) (by omega) hpad
  | case2 a b =>
    have ha := a.toNat_lt
    have hb := b.toNat_lt
    obtain ⟨n, hn⟩ : ∃ n, n = a.toNat * 1024 + b.toNat * 4 := ⟨_, rfl⟩
    have hback : n / 4096 * 4096 + n / 64 % 64 * 64 + n % 64 = n := by omega
    have hrest : n % 4 = 0 := by omega
    have hfirst : n / 1024 = a.toNat := by omega
    have hsecond : n / 4 % 256 = b.toNat := by omega
    simp only [encode, ← hn]
    rw [decode?]
    · simp only [value?_digit (n := n / 4096) (by omega),
        value?_digit (n := n / 64 % 64) (by omega), value?_digit (n := n % 64) (by omega),
        Option.bind_eq_bind, Option.bind_some, hback, hrest, if_true, hfirst, hsecond,
        UInt8.ofNat_toNat]
    · intro hpad
      exact digit_ne (n := n % 64) (by omega) hpad
  | case3 a =>
    have ha := a.toNat_lt
    obtain ⟨n, hn⟩ : ∃ n, n = a.toNat * 16 := ⟨_, rfl⟩
    have hback : n / 64 * 64 + n % 64 = n := by omega
    have hrest : n % 16 = 0 := by omega
    have hfirst : n / 16 = a.toNat := by omega
    simp only [encode, ← hn]
    rw [decode?]
    simp only [value?_digit (n := n / 64) (by omega), value?_digit (n := n % 64) (by omega),
      Option.bind_eq_bind, Option.bind_some, hback, hrest, if_true, hfirst, UInt8.ofNat_toNat]
  | case4 => rfl

end Base64

/-! ### The note of a carrier -/

/-- A document is never empty, so that its text is none of the empty notes that hold nothing. -/
theorem Draft.text_toDocument_ne (d : Draft) :
    String.ofList (Base64.encode d.toDocument) ≠ "" := by
  intro hempty
  have hchars := congrArg String.toList hempty
  rw [String.toList_ofList] at hchars
  have hdecoded := Base64.decode?_encode d.toDocument
  rw [hchars] at hdecoded
  have hdocument : d.toDocument = [] := (Option.some.inj hdecoded).symm
  obtain ⟨b, bs, hwrite, -⟩ := Json.write_cons d.toJson
  exact List.cons_ne_nil _ _ (hwrite.symm.trans hdocument)

theorem Draft.erase_annotate {d : Draft} {note : String}
    (h : d.current.annotations.get? note = none) (text : String) :
    ((d.annotate note text).update fun s => { s with annotations := s.annotations.erase note }) =
      d := by
  change { d with current := { d.current with
      annotations := (d.current.annotations.insert note text).erase note } } = d
  rw [SortedMap.erase_insert h]

namespace Command

/-- Why a note of the carrier yields no stacked draft. -/
inductive Unreadable (carrier : Draft) (note : String) : Fault → Prop
  | missing (h : carrier.current.annotations.get? note = none) :
    Unreadable carrier note (.notFound (.stacked note))
  | empty (h : carrier.current.annotations.get? note = some "") :
    Unreadable carrier note (.notFound (.stacked note))
  /-- The text is no Base64. -/
  | corrupt {text : String} (h : carrier.current.annotations.get? note = some text)
    (hne : text ≠ "") (hdecode : Base64.decode? text.toList = none) :
    Unreadable carrier note (.invalid .corrupt)
  /-- The text encodes something else than the document of a draft. -/
  | malformed {text : String} {bytes : List UInt8}
    (h : carrier.current.annotations.get? note = some text) (hne : text ≠ "")
    (hdecode : Base64.decode? text.toList = some bytes) (hread : Draft.ofDocument? bytes = none) :
    Unreadable carrier note .malformed

theorem apply_stack {carrier : Draft} {note : String}
    (hfree : carrier.current.annotations.get? note = none) (stacked : Draft) :
    (stack carrier stacked note).apply =
      .ok (stack (carrier.annotate note (String.ofList (Base64.encode stacked.toDocument))) stacked
        note) := by
  rw [apply, applyStack, hfree]
  rfl

theorem apply_unstack {carrier stacked : Draft} {note text : String} {bytes : List UInt8}
    (hnote : carrier.current.annotations.get? note = some text) (hne : text ≠ "")
    (hdecode : Base64.decode? text.toList = some bytes)
    (hread : Draft.ofDocument? bytes = some stacked) (result : Option Draft) :
    (unstack carrier note result).apply =
      .ok (unstack
        (carrier.update fun s => { s with annotations := s.annotations.erase note }) note
        (some stacked)) := by
  have hheld : (carrier.current.annotations.get? note).filter (· ≠ "") = some text := by
    rw [hnote]
    exact if_pos (decide_eq_true hne)
  rw [apply, applyUnstack, hheld]
  simp only [hdecode, hread]

theorem apply_unstack_eq_error_iff {carrier : Draft} {note : String} {result : Option Draft}
    {fault : Fault} :
    (unstack carrier note result).apply = .error fault ↔ Unreadable carrier note fault := by
  constructor
  · intro h
    rw [apply, applyUnstack] at h
    cases hnote : carrier.current.annotations.get? note with
    | none =>
      rw [hnote] at h
      cases h
      exact .missing hnote
    | some text =>
      by_cases hne : text = ""
      · subst hne
        rw [hnote] at h
        cases h
        exact .empty hnote
      · rw [hnote, Option.filter_some, if_pos (decide_eq_true hne)] at h
        cases hdecode : Base64.decode? text.toList with
        | none =>
          simp only [hdecode] at h
          cases h
          exact .corrupt hnote hne hdecode
        | some bytes =>
          cases hread : Draft.ofDocument? bytes with
          | none =>
            simp only [hdecode, hread] at h
            cases h
            exact .malformed hnote hne hdecode hread
          | some stacked =>
            simp only [hdecode, hread] at h
            cases h
  · intro h
    rw [apply, applyUnstack]
    cases h with
    | missing h => rw [h]; rfl
    | empty h => rw [h]; rfl
    | corrupt h hne hdecode =>
      rw [h, Option.filter_some, if_pos (decide_eq_true hne)]
      simp only [hdecode]
    | malformed h hne hdecode hread =>
      rw [h, Option.filter_some, if_pos (decide_eq_true hne)]
      simp only [hdecode, hread]

/-! ### Dispatching -/

theorem perform_settle (c : Command) (site : Site) :
    Work.perform (do
        let c ← Fault.settle c.apply
        Work.change fun _ => c) c site =
      match c.apply with
      | .ok applied => (.ok (), applied, site)
      | .error fault => (.error fault, c, site) := by
  unfold Work.perform
  rw [Effect.run_bind, Effect.run_settle]
  cases c.apply with
  | ok applied => rfl
  | error fault => rfl

/-- A draft stacked in a free note is taken out as it was, and the carrier is then as it was before.
A command that takes nothing out stays as it is, and so does everything else. -/
theorem unstack_undoes_stack (carrier : Draft) (note : String) :
    (carrier.current.annotations.get? note = none → ∀ stacked : Draft, stacked.HasWords →
      ∃ filled, (stack carrier stacked note).apply = .ok (stack filled stacked note) ∧
        ∀ result,
          (unstack filled note result).apply = .ok (unstack carrier note (some stacked))) ∧
    ∀ result fault,
      ((unstack carrier note result).apply = .error fault ↔ Unreadable carrier note fault) ∧
      (Unreadable carrier note fault → ∀ site,
        dispatch.perform (unstack carrier note result) site =
          (.error fault, unstack carrier note result, site)) := by
  refine ⟨fun hfree stacked hwords => ?_, fun result fault => ⟨apply_unstack_eq_error_iff, ?_⟩⟩
  · refine ⟨_, apply_stack hfree stacked, fun result => ?_⟩
    have hdecode : Base64.decode?
        (String.ofList (Base64.encode stacked.toDocument)).toList = some stacked.toDocument := by
      rw [String.toList_ofList, Base64.decode?_encode]
    have hread := Draft.ofDocument?_toDocument hwords
    rw [apply_unstack (SortedMap.get?_insert_self ..) stacked.text_toDocument_ne hdecode hread,
      Draft.erase_annotate hfree]
  · intro hunreadable site
    have hfails : (unstack carrier note result).apply = .error fault :=
      apply_unstack_eq_error_iff.2 hunreadable
    change Work.perform _ _ _ = _
    exact (perform_settle (unstack carrier note result) site).trans (by rw [hfails])

/-- A suspended draft with escapes, a negative revision and a stacked draft of its own comes back.
An empty note holds nothing. -/
theorem unstack_undoes_stack_of_suspended :
    let carrier := Draft.ofState ((State.new ⟨"carrier"⟩).label "kind" "mail")
    let inner : Draft := ⟨State.new ⟨"inner"⟩, default, [.between default ⟨"start"⟩]⟩
    let suspended : Draft :=
      ⟨{ (State.new ⟨"\"\\\n\x01ñ→"⟩).annotate "inner"
            (String.ofList (Base64.encode inner.toDocument)) with
          rev := -9223372036854775808, committedAt := some Instant.epoch },
        { State.new ⟨"inner"⟩ with rev := 9223372036854775807 }, [default, default]⟩
    let bare := carrier.annotate "stacked" ""
    carrier.current.annotations.get? "stacked" = none ∧ suspended.HasWords ∧
      (∃ filled,
        (stack carrier suspended "stacked").apply = .ok (stack filled suspended "stacked") ∧
        (unstack filled "stacked" none).apply =
          .ok (unstack carrier "stacked" (some suspended))) ∧
      Unreadable bare "stacked" (.notFound (.stacked "stacked")) ∧
      dispatch.perform (unstack bare "stacked" none) default =
        (.error (.notFound (.stacked "stacked")), unstack bare "stacked" none, default) := by
  intro carrier inner suspended bare
  have hfree : carrier.current.annotations.get? "stacked" = none := rfl
  have hwords : suspended.HasWords := ⟨rfl, rfl⟩
  have hempty : Unreadable bare "stacked" (.notFound (.stacked "stacked")) :=
    .empty (SortedMap.get?_insert_self ..)
  obtain ⟨filled, hstack, hunstack⟩ :=
    (unstack_undoes_stack carrier "stacked").1 hfree suspended hwords
  exact ⟨hfree, hwords, ⟨filled, hstack, hunstack none⟩, hempty,
    ((unstack_undoes_stack bare "stacked").2 none _).2 hempty default⟩

end Command

end Workflow
