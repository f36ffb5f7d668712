import Foundry.Base.Numerals
import Mathlib.Algebra.Field.Rat
import Mathlib.Data.List.DropRight
import Mathlib.Tactic.FieldSimp

/-!
# Decimal texts

The rational numbers that texts with a sign, a decimal point or an exponent stand for, and texts
that are put together from a whole number and a number of units of the last place.
-/

namespace Foundry.Numerals

open List

/-! ## Reading -/

def readNat (text : List Char) : Option Nat :=
  if text ≠ [] ∧ text.all Char.isDigit then some (value text) else none

/-- A number in digits with at most one decimal point, which has digits in front of it. -/
def readFixed (text : List Char) : Option ℚ :=
  let whole := text.takeWhile (· ≠ '.')
  let fraction := (text.dropWhile (· ≠ '.')).tail
  if whole ≠ [] ∧ whole.all Char.isDigit ∧ fraction.all Char.isDigit then
    some ((value (whole ++ fraction) : ℚ) / 10 ^ fraction.length)
  else none

def readSigned (text : List Char) : Option ℚ :=
  if text.head? = some '-' then (readFixed text.tail).map (-·) else readFixed text

def readScientific (text : List Char) : Option ℚ :=
  (readSigned (text.takeWhile (· ≠ 'e'))).bind fun mantissa =>
    (readNat (text.dropWhile (· ≠ 'e')).tail).map fun exponent => mantissa * 10 ^ exponent

section

variable {text : List Char} {c : Char} {width : Nat}

theorem IsDecimal.all (h : IsDecimal text) : text.all Char.isDigit = true := all_eq_true.mpr h

theorem IsDecimal.of_all (h : text.all Char.isDigit = true) : IsDecimal text :=
  all_eq_true.mp h

theorem forall_ne (h : c ∉ text) : ∀ c' ∈ text, decide (c' ≠ c) = true := by
  intro c' hc'
  simp only [decide_eq_true_eq]
  rintro rfl
  exact h hc'

theorem span_append (h : c ∉ text) (rest : List Char) :
    (text ++ c :: rest).takeWhile (· ≠ c) = text ∧
      (text ++ c :: rest).dropWhile (· ≠ c) = c :: rest := by
  rw [takeWhile_append_of_pos (forall_ne h), dropWhile_append_of_pos (forall_ne h)]
  simp

theorem IsDecimal.notMem (h : IsDecimal text) {c : Char} (hc : c.isDigit = false) : c ∉ text := by
  intro hmem
  rw [h c hmem] at hc
  cases hc

theorem readFixed_point {whole fraction : List Char} (hne : whole ≠ []) (hwhole : IsDecimal whole)
    (hfraction : IsDecimal fraction) : readFixed (whole ++ '.' :: fraction) =
      some ((value (whole ++ fraction) : ℚ) / 10 ^ fraction.length) := by
  obtain ⟨htake, hdrop⟩ := span_append (hwhole.notMem (c := '.') rfl) fraction
  simp only [readFixed, htake, hdrop, tail_cons]
  rw [if_pos ⟨hne, hwhole.all, hfraction.all⟩]

theorem readFixed_whole {whole : List Char} (hne : whole ≠ []) (hwhole : IsDecimal whole) :
    readFixed whole = some (value whole : ℚ) := by
  have hdot := forall_ne (hwhole.notMem (c := '.') rfl)
  simp only [readFixed, takeWhile_eq_self_iff.mpr hdot, dropWhile_eq_nil_iff.mpr hdot, tail_nil]
  rw [if_pos ⟨hne, hwhole.all, rfl⟩, append_nil, length_nil, pow_zero, div_one]

/-! ## Printing -/

def intText (z : Int) : List Char := (if z < 0 then ['-'] else []) ++ Nat.toDigits 10 z.natAbs

/-- `{text:0>width$}`. -/
def padStart (width : Nat) (text : List Char) : List Char :=
  List.replicate (width - text.length) '0' ++ text

/-- The digits behind the point, for a number of units of the last place. -/
def fractionText (width part : Nat) : List Char :=
  (padStart width (Nat.toDigits 10 part)).rdropWhile (· = '0')

/-- A whole number with a fraction, if there is one. -/
def fixedText (whole part width : Nat) : List Char :=
  Nat.toDigits 10 whole ++
    if fractionText width part = [] then [] else '.' :: fractionText width part

theorem value_padStart (width : Nat) (text : List Char) :
    value (padStart width text) = value text := by
  rw [padStart, value_append, value_replicate_zero, Nat.mul_zero, Nat.zero_add]

theorem IsDecimal.padStart {text : List Char} (h : IsDecimal text) (width : Nat) :
    IsDecimal (padStart width text) :=
  (isDecimal_replicate_zero _).append h

theorem length_padStart {text : List Char} (h : text.length ≤ width) :
    (padStart width text).length = width := by
  rw [Numerals.padStart, length_append, length_replicate]
  omega

/-- Zeros at the end say nothing. -/
theorem value_rdropWhile (text : List Char) :
    (value (text.rdropWhile (· = '0')) : ℚ) / 10 ^ (text.rdropWhile (· = '0')).length =
      (value text : ℚ) / 10 ^ text.length := by
  induction text using List.reverseRecOn with
  | nil => rfl
  | append_singleton text c ih =>
    by_cases hc : c = '0'
    · subst hc
      rw [rdropWhile_concat_pos _ _ _ (by simp), ih, value_append, value_singleton,
        length_append, length_singleton, pow_one, Nat.sub_self, Nat.add_zero]
      rw [Nat.cast_mul, Nat.cast_ofNat, pow_succ, mul_comm, mul_div_mul_right _ _ (by decide)]
    · rw [rdropWhile_concat_neg _ _ _ (by simpa using hc)]

theorem isDecimal_fractionText (width part : Nat) : IsDecimal (fractionText width part) := by
  intro c hc
  have hmem := (List.rdropWhile_prefix _ _).subset hc
  exact (isDecimal_toDigits part).padStart width c hmem

theorem value_fractionText {part : Nat} (h : part < 10 ^ width) :
    (value (fractionText width part) : ℚ) / 10 ^ (fractionText width part).length =
      (part : ℚ) / 10 ^ width := by
  rw [fractionText, value_rdropWhile, value_padStart, value_toDigits]
  cases width with
  | zero =>
    have hzero : part = 0 := by simpa using h
    simp [hzero]
  | succ width =>
    have hlength := (Nat.length_toDigits_le_iff (by decide) (Nat.succ_pos width)).mpr h
    rw [length_padStart hlength]

theorem readFixed_fixedText {part : Nat} (whole : Nat) (h : part < 10 ^ width) :
    readFixed (fixedText whole part width) = some (whole + (part : ℚ) / 10 ^ width) := by
  have hwhole := isDecimal_toDigits whole
  have hpart := value_fractionText h
  rw [fixedText]
  split
  · next hnil =>
    rw [hnil, value_nil, Nat.cast_zero, zero_div] at hpart
    rw [append_nil, readFixed_whole Nat.toDigits_ne_nil hwhole, value_toDigits, ← hpart, add_zero]
  · rw [readFixed_point Nat.toDigits_ne_nil hwhole (isDecimal_fractionText width part), ← hpart,
      value_append, value_toDigits]
    push_cast
    field_simp

/-! ## Signs and exponents -/

theorem readSigned_neg (text : List Char) :
    readSigned ('-' :: text) = (readFixed text).map (-·) := by
  rw [readSigned, head?_cons, if_pos rfl, tail_cons]

theorem readSigned_of_readFixed {q : ℚ} (h : readFixed text = some q) :
    readSigned text = some q := by
  rw [readSigned, if_neg, h]
  intro hhead
  cases text with
  | nil => cases hhead
  | cons c text =>
    cases hhead
    rw [readFixed, if_neg] at h
    · cases h
    · intro hdigits
      have hfirst := IsDecimal.of_all hdigits.2.1 '-' mem_cons_self
      cases hfirst

end

theorem readSigned_toDigits_append (n : Nat) (rest : List Char) :
    readSigned (Nat.toDigits 10 n ++ rest) = readFixed (Nat.toDigits 10 n ++ rest) := by
  cases hdigits : Nat.toDigits 10 n with
  | nil => exact absurd hdigits Nat.toDigits_ne_nil
  | cons c digits =>
    have hc : c.isDigit = true := isDecimal_toDigits n c (hdigits ▸ mem_cons_self)
    have hne : c ≠ '-' := by
      rintro rfl
      cases hc
    rw [readSigned, if_neg (by simpa using hne)]

theorem readSigned_intText (z : Int) : readSigned (intText z) = some (z : ℚ) := by
  have hread : readFixed (Nat.toDigits 10 z.natAbs) = some (z.natAbs : ℚ) := by
    rw [readFixed_whole Nat.toDigits_ne_nil (isDecimal_toDigits _), value_toDigits]
  rw [intText]
  split
  · next hneg =>
    rw [singleton_append, readSigned_neg, hread, Option.map_some]
    have habs : (z.natAbs : Int) = -z := by omega
    rw [← Int.cast_natCast, habs, Int.cast_neg, neg_neg]
  · next hpos =>
    have happend := readSigned_toDigits_append z.natAbs []
    rw [append_nil] at happend
    have habs : (z.natAbs : Int) = z := by omega
    rw [nil_append, happend, hread, ← Int.cast_natCast, habs]

theorem readScientific_append {mantissa : List Char} (h : 'e' ∉ mantissa) (exponent : Nat) :
    readScientific (mantissa ++ 'e' :: Nat.toDigits 10 exponent) =
      (readSigned mantissa).map (· * 10 ^ exponent) := by
  obtain ⟨htake, hdrop⟩ := span_append h (Nat.toDigits 10 exponent)
  rw [readScientific, htake, hdrop, tail_cons, readNat,
    if_pos ⟨Nat.toDigits_ne_nil, (isDecimal_toDigits exponent).all⟩, value_toDigits]
  cases readSigned mantissa <;> rfl

end Foundry.Numerals
