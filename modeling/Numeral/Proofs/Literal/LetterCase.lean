import Numeral.Proofs.Literal.Extent

/-! Letters in either case. Digits and markers are told apart from what ends them without regard to
the case of ASCII letters, so the readers find the same in two texts that differ in nothing else.
Only the letters of a lead have to be small.
-/

namespace Numeral

/-- The texts are equal up to the case of ASCII letters. -/
def EqualUpToCase (text other : List Char) : Prop :=
  other.map Char.toLower = text.map Char.toLower

-----------------------------------------------------------------------------------------
-- Characters
-----------------------------------------------------------------------------------------

section Characters

variable (c : Char)

theorem toNat_toLower
    : c.toLower.toNat = if 65 ≤ c.toNat ∧ c.toNat ≤ 90 then c.toNat + 32 else c.toNat := by
  have range : (c.val ≥ 'A'.val ∧ c.val ≤ 'Z'.val) ↔ 65 ≤ c.toNat ∧ c.toNat ≤ 90 := by
    rw [ge_iff_le, UInt32.le_iff_toNat_le, UInt32.le_iff_toNat_le]
    rfl
  unfold Char.toLower
  split
  next capital =>
    have small := range.mp capital
    have sum : (c.val + ('a'.val - 'A'.val)).toNat = (c.val.toNat + 32) % 2 ^ 32 :=
      UInt32.toNat_add c.val 32
    rw [if_pos small]
    exact sum.trans (Nat.mod_eq_of_lt (by rw [Char.toNat_val]; omega))
  next other => rw [if_neg (mt range.mpr other)]

/-- What is no letter has no other case. -/
theorem toLower_eq_iff (special : Char)
    (caseless : special.toNat < 65 ∨ (90 < special.toNat ∧ special.toNat < 97))
    : c.toLower = special ↔ c = special := by
  rw [← Char.toNat_inj, ← Char.toNat_inj, toNat_toLower]
  split <;> omega

theorem Digit.hexadecimal?_toLower
    : hexadecimal? c.toLower = hexadecimal? c := by
  simp only [hexadecimal?, le_iff_toNat_le, toNat_toLower, Char.reduceToNat]
  split_ifs <;> first | omega | rfl

theorem Digit.value?_toLower (base : Nat)
    : value? base c.toLower = value? base c := by
  rw [value?, hexadecimal?_toLower, value?]

theorem Digit.isDigit_toLower (base : Nat)
    : isDigit base c.toLower = isDigit base c := by
  rw [isDigit, value?_toLower, isDigit]

theorem Radix.continues_toLower (radix : Radix) (separators : Bool)
    : radix.continues separators c.toLower = radix.continues separators c := by
  have separator : (c.toLower == '_') = (c == '_') :=
    Bool.eq_iff_iff.mpr (by simpa using toLower_eq_iff c '_' (by decide))
  rw [continues, Digit.isDigit_toLower, separator, continues]

theorem Marker.hasLetter_toLower (marker : Marker)
    : marker.hasLetter c.toLower = marker.hasLetter c := by
  rw [Bool.eq_iff_iff]
  cases marker <;> simp only [hasLetter, Bool.or_eq_true, beq_iff_eq, ← Char.toNat_inj,
    toNat_toLower, Char.reduceToNat] <;> split <;> omega

theorem Sign.ofChar?_toLower
    : ofChar? c.toLower = ofChar? c := by
  have plus := toLower_eq_iff c '+' (by decide)
  have minus := toLower_eq_iff c '-' (by decide)
  unfold ofChar?
  split <;> split <;> simp_all

end Characters

-----------------------------------------------------------------------------------------
-- Texts
-----------------------------------------------------------------------------------------

section Texts

variable (text : List Char)

theorem head?_map_toLower_iff (special : Char)
    (caseless : special.toNat < 65 ∨ (90 < special.toNat ∧ special.toNat < 97))
    : (text.map Char.toLower).head? = some special ↔ text.head? = some special := by
  cases text with
  | nil => rfl
  | cons c rest => simpa using toLower_eq_iff c special caseless

theorem takeWhile_map_toLower {passes : Char → Bool}
    (lowered : ∀ c, passes c.toLower = passes c)
    : (text.map Char.toLower).takeWhile passes = (text.takeWhile passes).map Char.toLower := by
  have same : passes ∘ Char.toLower = passes := funext lowered
  rw [List.takeWhile_map, same]

theorem Digit.values_map_toLower (base : Nat)
    : values base (text.map Char.toLower) = values base text := by
  have same : value? base ∘ Char.toLower = value? base :=
    funext fun c => value?_toLower c base
  rw [values, List.filterMap_map, same, values]

namespace Radix

theorem run_map_toLower (radix : Radix) (separators : Bool)
    : radix.run separators (text.map Char.toLower)
      = (radix.run separators text).map Char.toLower :=
  takeWhile_map_toLower text fun c => continues_toLower c radix separators

theorem wholeDigits?_map_toLower (radix : Radix)
    : radix.wholeDigits? (text.map Char.toLower) = radix.wholeDigits? text := by
  simp only [wholeDigits?, Digit.values_map_toLower,
    head?_map_toLower_iff text '_' (by decide)]

theorem fraction_map_toLower (radix : Radix) (separators : Bool)
    : radix.fraction separators (text.map Char.toLower) = radix.fraction separators text := by
  cases text with
  | nil => rfl
  | cons c rest =>
      rw [List.map_cons]
      by_cases point : c = '.'
      · have small : c.toLower = '.' := (toLower_eq_iff c '.' (by decide)).mpr point
        subst point
        simp only [small, fraction, run_map_toLower, Digit.values_map_toLower, List.length_map,
          ← List.map_drop, head?_map_toLower_iff _ '_' (by decide)]
      · have other : c.toLower ≠ '.' := mt (toLower_eq_iff c '.' (by decide)).mp point
        simp [fraction, point, other]

end Radix

namespace Marker

theorem signedDigits?_map_toLower
    : signedDigits? (text.map Char.toLower) = signedDigits? text := by
  have sign : Sign.leading? (text.map Char.toLower) = Sign.leading? text := by
    cases text with
    | nil => rfl
    | cons c rest => exact Sign.ofChar?_toLower c
  simp only [signedDigits?, sign, ← List.map_drop,
    takeWhile_map_toLower _ fun c => Digit.isDigit_toLower c 10, List.map_eq_nil_iff,
    List.length_map, Digit.values_map_toLower]

theorem exponent?_map_toLower (marker : Marker)
    : marker.exponent? (text.map Char.toLower) = marker.exponent? text := by
  cases text with
  | nil => rfl
  | cons c rest =>
      simp only [List.map_cons, exponent?, hasLetter_toLower, signedDigits?_map_toLower]

end Marker

theorem Binary64.scaleBy_map_toLower (x : Binary64) (scaleByTen : ℤ → Binary64)
    : x.scaleBy scaleByTen (text.map Char.toLower) = x.scaleBy scaleByTen text := by
  simp only [scaleBy, Marker.suffix?, Marker.exponent?_map_toLower]

end Texts

-----------------------------------------------------------------------------------------
-- Literals
-----------------------------------------------------------------------------------------

variable {text other : List Char} {radix : Radix}

namespace EqualUpToCase

theorem drop (equal : EqualUpToCase text other) (count : Nat)
    : EqualUpToCase (text.drop count) (other.drop count) := by
  rw [EqualUpToCase, List.map_drop, List.map_drop, equal]

/-- A reader that does not change with the case of a text finds the same in both. -/
theorem read_eq {α : Type} (equal : EqualUpToCase text other) {read : List Char → α}
    (lowered : ∀ text, read (text.map Char.toLower) = read text)
    : read other = read text := by
  rw [← lowered other, equal, lowered]

theorem length_eq (equal : EqualUpToCase text other)
    : other.length = text.length :=
  equal.read_eq fun _ => List.length_map _

theorem run (equal : EqualUpToCase text other) (radix : Radix) (separators : Bool)
    : EqualUpToCase (radix.run separators text) (radix.run separators other) := by
  rw [EqualUpToCase, ← Radix.run_map_toLower, ← Radix.run_map_toLower, equal]

/-- Behind the lead the case does not matter. -/
theorem significand?_eq (equal : EqualUpToCase text other)
    (lead : radix.lead.isPrefixOf other = radix.lead.isPrefixOf text) (separators : Bool)
    : radix.significand? separators other = radix.significand? separators text := by
  have body := equal.drop radix.lead.length
  have run := body.run radix separators
  have whole := run.read_eq (Radix.wholeDigits?_map_toLower · radix)
  have fraction (count : Nat) := (body.drop count).read_eq
    (Radix.fraction_map_toLower · radix separators)
  simp only [Radix.significand?, lead, whole, run.length_eq, fraction]

/-- So a literal is the same where the lead is. -/
theorem radix_literal?_eq (equal : EqualUpToCase text other)
    (lead : radix.lead.isPrefixOf other = radix.lead.isPrefixOf text) (options : Options)
    : radix.literal? options other = radix.literal? options text := by
  have behind (count : Nat) (x : Binary64) (scaleByTen : ℤ → Binary64) :=
    (equal.drop count).read_eq (Binary64.scaleBy_map_toLower · x scaleByTen)
  simp only [Radix.literal?, equal.significand?_eq lead, behind]

end EqualUpToCase

-----------------------------------------------------------------------------------------
-- Leads
-----------------------------------------------------------------------------------------

/-- Behind a zero the letters of leads, capital or small, stand as they are. -/
def KeepsLeads (text other : List Char) : Prop :=
  text[0]? = some '0' → ∀ letter ∈ text[1]?, letter ∈ ['b', 'B', 'x', 'X'] → other[1]? = some letter

theorem isPrefixOf_pair_iff (first second : Char) (text : List Char)
    : [first, second].isPrefixOf text = true ↔ text[0]? = some first ∧ text[1]? = some second := by
  rw [List.isPrefixOf_iff_prefix]
  rcases text with _ | ⟨c, _ | ⟨d, rest⟩⟩
  · simp
  · simp [List.cons_prefix_cons]
  · simp [List.cons_prefix_cons, eq_comm]

/-- A letter that is the small one of a lead in either case is one of those that are kept. -/
theorem mem_leads_of_toLower {letter c : Char} (ofLead : letter = 'b' ∨ letter = 'x')
    (same : c.toLower = letter.toLower)
    : c ∈ ['b', 'B', 'x', 'X'] := by
  have number : c.toLower.toNat = letter.toNat := by
    rw [same]
    rcases ofLead with rfl | rfl <;> rfl
  rw [toNat_toLower] at number
  simp only [List.mem_cons, List.not_mem_nil, or_false, ← Char.toNat_inj, Char.reduceToNat]
  rcases ofLead with rfl | rfl <;> simp only [Char.reduceToNat] at number <;>
    split at number <;> omega

namespace EqualUpToCase

theorem zero_iff (equal : EqualUpToCase text other)
    : other[0]? = some '0' ↔ text[0]? = some '0' := by
  rw [← List.head?_eq_getElem?, ← List.head?_eq_getElem?,
    ← head?_map_toLower_iff other '0' (by decide), equal,
    head?_map_toLower_iff text '0' (by decide)]

theorem leadLetter_iff (equal : EqualUpToCase text other) (kept : KeepsLeads text other)
    (zero : text[0]? = some '0') {letter : Char} (ofLead : letter = 'b' ∨ letter = 'x')
    : other[1]? = some letter ↔ text[1]? = some letter := by
  constructor
  · intro there
    have second := congrArg (·[1]?) equal
    simp only [List.getElem?_map, there, Option.map_some] at second
    obtain ⟨own, here, same⟩ := Option.map_eq_some_iff.mp second.symm
    have stays := kept zero own here (mem_leads_of_toLower ofLead same)
    rw [here, ← stays, there]
  · intro here
    exact kept zero letter here (mem_leads_of_toLower ofLead rfl)

theorem isPrefixOf_lead (equal : EqualUpToCase text other) (kept : KeepsLeads text other)
    (radix : Radix)
    : radix.lead.isPrefixOf other = radix.lead.isPrefixOf text := by
  have pair {letter : Char} (ofLead : letter = 'b' ∨ letter = 'x')
      : ['0', letter].isPrefixOf other = ['0', letter].isPrefixOf text := by
    rw [Bool.eq_iff_iff, isPrefixOf_pair_iff, isPrefixOf_pair_iff, equal.zero_iff]
    exact and_congr_right fun zero => equal.leadLetter_iff kept zero ofLead
  cases radix with
  | binary => exact pair (.inl rfl)
  | hexadecimal => exact pair (.inr rfl)
  | decimal => simp [Radix.lead]

/-- The literals of a text do not depend on the case of its letters but for those of leads. -/
theorem literal?_eq (equal : EqualUpToCase text other) (kept : KeepsLeads text other)
    (options : Options)
    : options.literal? other = options.literal? text := by
  have each (radix : Radix) :=
    equal.radix_literal?_eq (equal.isPrefixOf_lead kept radix) options
  simp only [Options.literal?, each]

end EqualUpToCase

end Numeral
