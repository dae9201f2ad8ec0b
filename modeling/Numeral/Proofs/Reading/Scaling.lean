import Numeral.Proofs.Binary64.Negation
import Numeral.Proofs.Decimal.Display
import Numeral.Proofs.Literal.SingleRounding
import Numeral.Proofs.Reading.Dispatch
import Numeral.Proofs.Reading.Faults

/-! Scaling a number by the exponent at the cursor. Whether there is an exponent, where it ends and
whether it is malformed is decided by the text, and then one function scales every number: it takes
opposite numbers to opposite numbers, and leaves what is not finite.
-/

namespace Numeral

open Decimal (exponentText)

variable {α : Type}

/-- The outcome without its value. -/
def Outcome.shape (outcome : Outcome α) : Outcome Unit :=
  outcome.map fun _ => ()

namespace Binary64

/-- The number scaled by the exponent `k` with the marker. -/
def scale (x : Binary64) (marker : Marker) (k : ℤ) : Binary64 :=
  match marker with
  | .decimal => x.scaleByTen k
  | .binary => x.scaleByTwo k

/-- The function scales by some exponent, or leaves every number. -/
inductive IsScaling : (Binary64 → Binary64) → Prop
  | nothing : IsScaling id
  | exponent (marker : Marker) (k : ℤ) : IsScaling fun x => x.scale marker k

theorem scale_neg (x : Binary64) (marker : Marker) (k : ℤ)
    : x.neg.scale marker k = (x.scale marker k).neg := by
  cases marker with
  | decimal => exact x.scaleByTen_neg k
  | binary => exact x.scaleByTwo_neg k

theorem scale_of_infinite {x : Binary64} (infinite : x.isFinite = false) (marker : Marker) (k : ℤ)
    : x.scale marker k = x := by
  cases marker with
  | decimal => exact scaleByTen_of_infinite infinite k
  | binary => exact scaleByTwo_of_finished (.inr (.inr (Bool.eq_false_iff.mp infinite)))

theorem IsScaling.neg {f : Binary64 → Binary64} (scaling : IsScaling f) (x : Binary64)
    : f x.neg = (f x).neg := by
  cases scaling with
  | nothing => rfl
  | exponent marker k => exact x.scale_neg marker k

theorem IsScaling.infinite {f : Binary64 → Binary64} (scaling : IsScaling f) {x : Binary64}
    (infinite : x.isFinite = false)
    : f x = x := by
  cases scaling with
  | nothing => rfl
  | exponent marker k => exact scale_of_infinite infinite marker k

/-- What is put behind a number that is displayed scales it, and a minus sign before it changes the
sign of what is parsed.
-/
theorem parse?_display_neg {x : Binary64} (finite : x.isFinite = true) (k : ℤ)
    : parse? (x.neg.display ++ exponentText k)
      = (parse? (x.display ++ exponentText k)).map neg := by
  rw [(parse?_display finite k).2, (parse?_display (x := x.neg) finite k).2, scaleByTen_neg]
  rfl

theorem applyExponent_of_suffix? {text : List Char} {suffix : Lexeme (Marker × Int)}
    (found : Marker.suffix? text = some suffix) (x : Binary64)
    : x.applyExponent text
      = { length := suffix.length
          value := if suffix.fault.isSome then x else x.scale suffix.value.1 suffix.value.2
          fault := suffix.fault } := by
  rcases suffix with ⟨length, ⟨_ | _, k⟩, fault⟩ <;>
    simp [applyExponent, scaleBy, found, Lexeme.map, scale]

/-- One function scales all numbers. If the exponent is malformed it leaves them. -/
theorem exists_scaling (text : List Char)
    : ∃ length f fault,
        (∀ x : Binary64, x.applyExponent text = ⟨length, f x, fault⟩)
        ∧ IsScaling f
        ∧ (fault.isSome = true → f = id) := by
  cases found : Marker.suffix? text with
  | none =>
      refine ⟨0, id, none, fun x => ?_, .nothing, fun _ => rfl⟩
      rw [applyExponent, scaleBy, found]
      rfl
  | some suffix =>
      cases faulty : suffix.fault with
      | none =>
          refine ⟨suffix.length, _, none, fun x => ?_, .exponent suffix.value.1 suffix.value.2,
            by simp⟩
          rw [applyExponent_of_suffix? found, faulty]
          rfl
      | some fault =>
          refine ⟨suffix.length, id, some fault, fun x => ?_, .nothing, fun _ => rfl⟩
          rw [applyExponent_of_suffix? found, faulty]
          rfl

end Binary64

namespace Cursor

/-- Scaling a number by the exponent at the cursor, told from what is read as an exponent there. It
always gives something that begins at the cursor, and for all numbers of the same shape.
-/
structure AppliesExponent (cursor : Cursor) : Prop where
  shape
    : ∀ x y,
        (cursor.applyExponent y).outcome.map Outcome.shape
            = (cursor.applyExponent x).outcome.map Outcome.shape
          ∧ (cursor.applyExponent y).cursor = (cursor.applyExponent x).cursor
  found
    : ∀ x,
        ∃ outcome,
          (cursor.applyExponent x).outcome = .ok outcome
          ∧ outcome.isAbsent = false
          ∧ outcome.start = cursor.offset
  unscaled
    : (∀ marker, (cursor.readExponent marker).outcome = .ok cursor.absent)
      → ∀ x,
          (cursor.applyExponent x).outcome = .ok (cursor.complete cursor.offset x)
          ∧ (cursor.applyExponent x).cursor = cursor
  scaled
    : ∀ marker stop k,
        (cursor.readExponent marker).outcome = .ok (cursor.complete stop k)
        → ∀ x, (cursor.applyExponent x).outcome = .ok (cursor.complete stop (x.scale marker k))
  malformed
    : ∀ marker stop k fault,
        (cursor.readExponent marker).outcome = .ok (cursor.malformed stop k fault)
        → ∀ x, (cursor.applyExponent x).outcome = .ok (cursor.malformed stop x fault)
  partialValue
    : ∀ x start stop value fault,
        (cursor.applyExponent x).outcome = .ok (.malformed start stop value fault) → value = x
  negated : ∀ x : Binary64, cursor.applyExponent x.neg = (cursor.applyExponent x).map Binary64.neg
  displayed
    : ∀ (x : Binary64) k,
        x.isFinite = true
        → Binary64.parse? (x.display ++ exponentText k) = some (x.scale .decimal k)
          ∧ Binary64.parse? (x.neg.display ++ exponentText k)
            = (Binary64.parse? (x.display ++ exponentText k)).map Binary64.neg
  infinite
    : ∀ x : Binary64,
        x.isFinite = false
        → ∃ outcome, (cursor.applyExponent x).outcome = .ok outcome ∧ outcome.value? = some x

variable {cursor : Cursor} {marker : Marker} {k : ℤ} {stop : Nat} {fault : Fault}

theorem outcome_applyExponent {x : Binary64} {lexeme : Lexeme Binary64}
    (applied : x.applyExponent cursor.unread = lexeme)
    : (cursor.applyExponent x).outcome = .ok (.ofLexeme cursor.offset (some lexeme)) := by
  rw [applyExponent, read, applied]

/-- Without an exponent nothing is taken and nothing is changed. -/
theorem applyExponent_of_absent
    (absent : ∀ marker, (cursor.readExponent marker).outcome = .ok cursor.absent) (x : Binary64)
    : (cursor.applyExponent x).outcome = .ok (cursor.complete cursor.offset x)
      ∧ (cursor.applyExponent x).cursor = cursor := by
  have nothing : Marker.suffix? cursor.unread = none :=
    Marker.suffix?_eq_none_iff.mpr fun marker =>
      Outcome.ofLexeme_eq_absent_iff.mp (Except.ok.inj (absent marker))
  have applied : x.applyExponent cursor.unread = ⟨0, x, none⟩ := by
    rw [Binary64.applyExponent, Binary64.scaleBy, nothing]
  refine ⟨outcome_applyExponent applied, ?_⟩
  rw [applyExponent, read, applied]
  exact cursor.seek_offset rfl

/-- An exponent that is read, with whichever marker, is the one that scales. -/
theorem applyExponent_of_found {length : Nat} {fault? : Option Fault}
    (found : marker.exponent? cursor.unread = some ⟨length, k, fault?⟩) (x : Binary64)
    : (cursor.applyExponent x).outcome
      = .ok (.ofLexeme cursor.offset
          (some ⟨length, if fault?.isSome then x else x.scale marker k, fault?⟩)) := by
  have suffix := Marker.suffix?_of_isSome (Option.isSome_of_eq_some found)
  rw [found] at suffix
  exact outcome_applyExponent (Binary64.applyExponent_of_suffix? suffix x)

/-- What an exponent at the cursor does to a number, and that it is the same for all numbers. -/
theorem applyExponent_applies (cursor : Cursor)
    : cursor.AppliesExponent where
  shape := by
    intro x y
    obtain ⟨length, f, fault, applied, -, -⟩ := Binary64.exists_scaling cursor.unread
    constructor
    · rw [outcome_applyExponent (applied x), outcome_applyExponent (applied y)]
      cases fault <;> rfl
    · simp only [applyExponent, read, applied, behind]
  found := by
    intro x
    refine ⟨_, outcome_applyExponent rfl, ?_, ?_⟩
    · rcases x.applyExponent cursor.unread with ⟨_, _, _ | _⟩ <;> rfl
    · rcases x.applyExponent cursor.unread with ⟨_, _, _ | _⟩ <;> rfl
  unscaled := applyExponent_of_absent
  scaled := by
    intro marker stop k complete x
    obtain ⟨length, found, -, rfl⟩ := Outcome.ofLexeme_eq_complete (Except.ok.inj complete)
    exact applyExponent_of_found found x
  malformed := by
    intro marker stop k fault malformed x
    obtain ⟨length, found, -, rfl⟩ := Outcome.ofLexeme_eq_malformed (Except.ok.inj malformed)
    exact applyExponent_of_found found x
  partialValue := by
    intro x start stop value fault malformed
    obtain ⟨length, f, fault?, applied, -, unscaled⟩ := Binary64.exists_scaling cursor.unread
    rw [outcome_applyExponent (applied x)] at malformed
    obtain ⟨_, same, -, -⟩ := Outcome.ofLexeme_eq_malformed (Except.ok.inj malformed)
    cases same
    rw [unscaled rfl]
    rfl
  negated := by
    intro x
    obtain ⟨length, f, fault, applied, scaling, -⟩ := Binary64.exists_scaling cursor.unread
    simp only [applyExponent, read, applied, scaling.neg]
    cases fault <;> rfl
  displayed _ k finite :=
    ⟨(Binary64.parse?_display finite k).2, Binary64.parse?_display_neg finite k⟩
  infinite := by
    intro x infinite
    obtain ⟨length, f, fault, applied, scaling, -⟩ := Binary64.exists_scaling cursor.unread
    refine ⟨_, outcome_applyExponent (applied x), ?_⟩
    rw [Outcome.value?_ofLexeme, scaling.infinite infinite]
    rfl

end Cursor

end Numeral
