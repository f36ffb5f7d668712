import Foundry.Cast.NumberBase
import Mathlib.Data.Nat.Cast.Order.Field
import Mathlib.Tactic.Positivity

/-!
# Numbers with decimals

`to_fixed_point`, `format_units` and `from_wei` print an integer as a number of units.  All of them
read the integer with `parse_int`; the first prints what that displays, and the other two its word.
-/

namespace Foundry.Cast

open Numerals Fuzz List

/-! ## The conversions -/

inductive CastError where
  | parse (error : ParseError)
  | invalidUnit
  | panicked
deriving DecidableEq

/-- What the conversions take from elsewhere: `U256::from_str_radix`, `Unit::new`, `Unit::from_str`
and `ParseUnits::format_units` of an unsigned value.  A unit is its number of decimals. -/
structure UnitOps where
  fromStrRadix : List Char → Nat → Option U256
  newUnit : Nat → Option Nat
  parseUnit : List Char → Option Nat
  parseUnitsFormat : U256 → Nat → List Char

namespace UnitOps

/-- Numbers are read by their digits, units have up to 77 decimals, and a formatted value stands for
the number of units. -/
structure Documented (ops : UnitOps) : Prop where
  reads : ReadsDigits ops.fromStrRadix
  newUnit_of_le : ∀ d ≤ 77, ops.newUnit d = some d
  parseUnitsFormat_eq : ∀ (value : U256) (d : Nat), d ≤ 77 →
    readFixed (ops.parseUnitsFormat value d) = some ((value.toNat : ℚ) / 10 ^ d)

variable (ops : UnitOps)

def parseInt (value : List Char) : Except CastError NumberWithBase :=
  (NumberWithBase.parseInt ops.fromStrRadix value none).mapError .parse

def parseUint (value : List Char) : Except CastError NumberWithBase :=
  (NumberWithBase.parseUint ops.fromStrRadix value none).mapError .parse

def insertPoint (value : List Char) (decimals : Nat) : List Char :=
  if value.length ≤ decimals then '0' :: '.' :: padStart decimals value
  else value.take (value.length - decimals) ++ '.' :: value.drop (value.length - decimals)

def toFixedPoint (value decimals : List Char) : Except CastError (List Char) := do
  let number ← ops.parseInt value
  let sign := if number.isNonnegative then [] else ['-']
  let value := number.display true
  let value := if value.head? = some '-' then value.tail else value
  let decimals ← ops.parseUint decimals
  if 2 ^ 64 ≤ decimals.number.toNat then .error .panicked
  else .ok (sign ++ insertPoint value decimals.number.toNat)

/-- `format_unit_as_string`: an empty fractional part is trimmed. -/
def formatUnitAsString (value : U256) (unit : Nat) : List Char :=
  let formatted := ops.parseUnitsFormat value unit
  if '.' ∈ formatted ∧ (formatted.dropWhile (· ≠ '.')).tail.all (· = '0') then
    formatted.takeWhile (· ≠ '.')
  else formatted

def formatUnits (value : List Char) (unit : Nat) : Except CastError (List Char) := do
  let number ← ops.parseInt value
  match ops.newUnit unit with
  | none => .error .invalidUnit
  | some unit => .ok (ops.formatUnitAsString number.number unit)

def fromWei (value unit : List Char) : Except CastError (List Char) := do
  let number ← ops.parseInt value
  match ops.parseUnit unit with
  | none => .error .invalidUnit
  | some unit => .ok (ops.parseUnitsFormat number.number unit)

end UnitOps

/-! ## Decimal strings -/

inductive DecimalSign where
  | absent
  | plus
  | minus
deriving DecidableEq

structure DecimalString where
  sign : DecimalSign
  digits : List Char
  digits_ne_nil : digits ≠ []
  isDecimal : IsDecimal digits

namespace DecimalString

section

variable (s : DecimalString)

def text : List Char :=
  match s.sign with
  | .absent => s.digits
  | .plus => '+' :: s.digits
  | .minus => '-' :: s.digits

def magnitude : Nat := value s.digits

def denoted : Int :=
  match s.sign with
  | .minus => -(s.magnitude : Int)
  | _ => s.magnitude

theorem head?_digits_ne {c : Char} (hc : c.isDigit = false) :
    s.digits.head? ≠ some c := fun hhead =>
  s.isDecimal.notMem hc (mem_of_mem_head? hhead)

theorem take_two_digits_ne {c : Char} (hc : c.isDigit = false) : s.digits.take 2 ≠ ['0', c] := by
  intro htake
  have hmem : c ∈ s.digits.take 2 := htake ▸ mem_cons_of_mem _ mem_cons_self
  exact s.isDecimal.notMem hc (mem_of_mem_take hmem)

private theorem getSign_text : getSign s.text = (s.digits, decide (s.sign = .minus)) := by
  cases hsign : s.sign with
  | absent =>
    rw [text, hsign]
    exact getSign_of_head? ⟨s.head?_digits_ne rfl, s.head?_digits_ne rfl⟩
  | plus =>
    rw [text, hsign]
    rfl
  | minus =>
    rw [text, hsign]
    rfl

end

variable {s : DecimalString}

theorem natAbs_denoted (s : DecimalString) : s.denoted.natAbs = s.magnitude := by
  unfold denoted
  cases s.sign <;> simp

theorem denoted_of_minus (h : s.sign = .minus) : s.denoted = -(s.magnitude : Int) := by
  rw [denoted, h]

theorem denoted_of_ne_minus (h : s.sign ≠ .minus) : s.denoted = s.magnitude := by
  unfold denoted
  cases hsign : s.sign with
  | minus => exact absurd hsign h
  | absent => rfl
  | plus => rfl

end DecimalString

open NumberWithBase DecimalString

/-! ## Reading decimal strings -/

section

variable {fromStrRadix : List Char → Nat → Option U256} (hreads : ReadsDigits fromStrRadix)
  (s : DecimalString)

theorem detect_text :
    Base.detect fromStrRadix s.text = Base.detectUnsigned fromStrRadix s.digits := by
  have hdigits : Base.detect fromStrRadix s.digits = Base.detectUnsigned fromStrRadix s.digits :=
    detect_of_head? ⟨s.head?_digits_ne rfl, s.head?_digits_ne rfl⟩
  cases hsign : s.sign with
  | absent =>
    rw [text, hsign]
    exact hdigits
  | plus =>
    rw [text, hsign]
    exact hdigits
  | minus =>
    rw [text, hsign]
    exact hdigits

include hreads

theorem fromStrRadix_digits : fromStrRadix s.digits 10 =
    if s.magnitude < 2 ^ 256 then some (BitVec.ofNat 256 s.magnitude) else none :=
  hreads s.digits 10 _ s.digits_ne_nil (by decide) (readDigits_of_isDecimal s.isDecimal (by decide))

theorem detectUnsigned_digits : Base.detectUnsigned fromStrRadix s.digits =
    if s.magnitude < 2 ^ 256 then .ok .decimal else .error .neither := by
  have htake {c : Char} (hc : c.isDigit = false) := s.take_two_digits_ne hc
  rw [Base.detectUnsigned, if_neg (htake rfl), if_neg (htake rfl), if_neg (htake rfl),
    fromStrRadix_digits hreads]
  split
  · rfl
  · next hge =>
    have hle : s.magnitude ≤ Nat.ofDigitChars 16 s.digits 0 :=
      ofDigitChars_le s.digits (by decide) (Nat.le_refl 0)
    have hhex := hreads s.digits 16 _ s.digits_ne_nil (by decide)
      (readDigits_of_isDecimal s.isDecimal (by decide))
    rw [if_neg (by omega)] at hhex
    rw [hhex]
    rfl

theorem parseUintIn_digits :
    parseUintIn fromStrRadix s.digits .decimal =
      if s.magnitude < 2 ^ 256 then .ok (BitVec.ofNat 256 s.magnitude) else .error .number := by
  have htake {c : Char} (hc : c.isDigit = false) := s.take_two_digits_ne hc
  have hread : fromStrRadix s.digits Base.decimal.radix =
    if s.magnitude < 2 ^ 256 then some (BitVec.ofNat 256 s.magnitude) else none :=
      fromStrRadix_digits hreads s
  simp only [parseUintIn, htake (c := 'x') rfl, htake (c := 'X') rfl,
    htake (c := 'o') rfl, htake (c := 'O') rfl, htake (c := 'b') rfl, htake (c := 'B') rfl,
    or_self, if_false]
  rw [hread]
  by_cases hlt : s.magnitude < 2 ^ 256
  · simp only [if_pos hlt]
  · simp only [if_neg hlt]

end

/-- Numbers are read as decimal, by name or because that is detected. -/
def DecimalBase (base : Option (List Char)) : Prop :=
  base = none ∨ ∃ name, base = some name ∧ Base.fromStr name = .ok .decimal

def DecimalString.number (s : DecimalString) : NumberWithBase where
  number := if s.sign = .minus then ~~~BitVec.ofNat 256 s.magnitude + 1
    else BitVec.ofNat 256 s.magnitude
  isNonnegative := !decide (s.sign = .minus)
  base := .decimal

section

variable {fromStrRadix : List Char → Nat → Option U256} (hreads : ReadsDigits fromStrRadix)
  {base : Option (List Char)} (hbase : DecimalBase base) (s : DecimalString)

include hreads

theorem unwrapOrDetect_text (hbase : DecimalBase base) (h : s.magnitude < 2 ^ 256) :
    Base.unwrapOrDetect fromStrRadix base s.text = .ok .decimal := by
  rcases hbase with rfl | ⟨name, rfl, hname⟩
  · rw [Base.unwrapOrDetect, detect_text, detectUnsigned_digits hreads, if_pos h]
  · exact hname

theorem parseIntIn_text : parseIntIn fromStrRadix s.text .decimal =
    if s.magnitude < 2 ^ 256 then .ok (s.number.number, s.number.isNonnegative)
    else .error .number := by
  rw [parseIntIn, s.getSign_text]
  change (parseUintIn fromStrRadix s.digits .decimal).bind _ = _
  rw [parseUintIn_digits hreads]
  by_cases hlt : s.magnitude < 2 ^ 256
  · rw [if_pos hlt, if_pos hlt]
    simp only [DecimalString.number, Except.bind, decide_eq_true_eq]
  · rw [if_neg hlt, if_neg hlt]
    rfl

include hbase

theorem parseInt_text_of_lt (h : s.magnitude < 2 ^ 256) :
    parseInt fromStrRadix s.text base = .ok s.number := by
  have hint := parseIntIn_text hreads s
  rw [if_pos h] at hint
  simp only [parseInt, unwrapOrDetect_text hreads s hbase h]
  change (parseIntIn fromStrRadix s.text .decimal).bind _ = _
  rw [hint]
  rfl

private theorem parseInt_text_of_le (h : 2 ^ 256 ≤ s.magnitude) :
    ∃ error, parseInt fromStrRadix s.text base = .error error := by
  rcases hbase with rfl | ⟨name, rfl, hname⟩
  · refine ⟨.neither, ?_⟩
    simp only [parseInt, Base.unwrapOrDetect, detect_text,
      detectUnsigned_digits hreads, if_neg (Nat.not_lt.mpr h)]
    rfl
  have hint := parseIntIn_text hreads s
  rw [if_neg (Nat.not_lt.mpr h)] at hint
  refine ⟨.number, ?_⟩
  simp only [parseInt, Base.unwrapOrDetect, hname]
  change (parseIntIn fromStrRadix s.text .decimal).bind _ = _
  rw [hint]
  rfl

end

/-! ## What is displayed -/

def Representable (z : Int) : Prop := -(2 ^ 255) ≤ z ∧ z < 2 ^ 256

theorem magnitude_lt_of_representable {s : DecimalString} (h : Representable s.denoted) :
    s.magnitude < 2 ^ 256 := by
  have habs := s.natAbs_denoted
  unfold Representable at h
  omega

/-- A representable number is displayed as its integer. -/
theorem display_number {s : DecimalString} (h : Representable s.denoted) (alternate : Bool) :
    s.number.display alternate = intText s.denoted := by
  have hlt := magnitude_lt_of_representable h
  have halternate : (if alternate then Base.decimal.prefixText else []) = [] := by
    cases alternate <;> rfl
  have hdebug := debug_eq s.number alternate
  change s.number.debug alternate = _
  rw [hdebug]
  change _ ++ ((if alternate then Base.decimal.prefixText else []) ++
    Nat.toDigits 10 s.number.magnitude) = _
  rw [halternate, nil_append]
  by_cases hsign : s.sign = .minus
  · have hz := denoted_of_minus hsign
    have hmin : -(2 ^ 255) ≤ s.denoted := h.1
    let n : I256 := ⟨s.denoted, hmin, by omega⟩
    have hword : s.number.number = n.intoRaw := by
      have hraw := intoRaw_of_neg (n := n) (show s.denoted ≤ 0 by omega)
      rw [hraw, DecimalString.number, if_pos hsign]
      exact congrArg (fun m => ~~~BitVec.ofNat 256 m + 1) s.natAbs_denoted.symm
    have hflag : s.number.isNonnegative = false := by simp [DecimalString.number, hsign]
    have hmagnitude : s.number.magnitude = s.magnitude := by
      rw [NumberWithBase.magnitude, if_pos ⟨rfl, hflag⟩, toI256, hword, I256.val_fromRaw_intoRaw]
      exact s.natAbs_denoted
    have hsigned : s.number.isSigned = decide (s.denoted < 0) := by
      apply Bool.eq_iff_iff.mpr
      rw [isSigned, decide_eq_true_eq, decide_eq_true_eq, hword, ne_eq, intoRaw_eq_zero_iff]
      change (¬ s.denoted = 0 ∧ _) ↔ _
      constructor
      · intro hne
        omega
      · intro hneg
        exact ⟨by omega, rfl, hflag⟩
    rw [hmagnitude, hsigned, intText, s.natAbs_denoted]
    simp only [decide_eq_true_eq]
  · have hz := denoted_of_ne_minus hsign
    have hflag : s.number.isNonnegative = true := by simp [DecimalString.number, hsign]
    have hmagnitude : s.number.magnitude = s.magnitude := by
      rw [NumberWithBase.magnitude, if_neg fun hneg => by simp [hflag] at hneg,
        DecimalString.number, if_neg hsign, BitVec.toNat_ofNat, Nat.mod_eq_of_lt hlt]
    have hsigned : s.number.isSigned = false := decide_eq_false fun hneg => by simp [hflag] at hneg
    rw [hmagnitude, hsigned, intText, s.natAbs_denoted, if_neg (show ¬ s.denoted < 0 by omega)]
    rfl

/-! ## The numbers that are printed -/

/-- A conversion succeeds with a text that stands for a number. -/
def Denotes (result : Except CastError (List Char)) (q : ℚ) : Prop :=
  ∃ text, result = .ok text ∧ readSigned text = some q

theorem readFixed_insertPoint {digits : List Char} (hne : digits ≠ []) (h : IsDecimal digits)
    (d : Nat) : readFixed (UnitOps.insertPoint digits d) = some ((value digits : ℚ) / 10 ^ d) := by
  rw [UnitOps.insertPoint]
  split
  · next hle =>
    have hpad := readFixed_point (cons_ne_nil '0' []) (isDecimal_replicate_zero 1)
      (h.padStart d)
    have hzero : value ['0'] = 0 := rfl
    rw [value_append, value_padStart, length_padStart hle, hzero, Nat.mul_zero,
      Nat.zero_add] at hpad
    exact hpad
  · next hgt =>
    have htake : digits.take (digits.length - d) ≠ [] := by
      rw [ne_eq, take_eq_nil_iff, not_or]
      exact ⟨by omega, hne⟩
    have hsplit := readFixed_point htake (fun c hc => h c (mem_of_mem_take hc))
      (fun c hc => h c (mem_of_mem_drop hc) : IsDecimal (digits.drop (digits.length - d)))
    rw [take_append_drop, length_drop] at hsplit
    rw [hsplit, show digits.length - (digits.length - d) = d by omega]

private theorem readFixed_trim {text : List Char} {q : ℚ} (h : readFixed text = some q)
    (hzeros : (text.dropWhile (· ≠ '.')).tail.all (· = '0') = true) :
    readFixed (text.takeWhile (· ≠ '.')) = some q := by
  rw [readFixed] at h
  split at h
  · next hdigits =>
    rw [readFixed_whole hdigits.1 (.of_all hdigits.2.1), ← h, value_append]
    have hfraction : (text.dropWhile (· ≠ '.')).tail =
        List.replicate (text.dropWhile (· ≠ '.')).tail.length '0' :=
      eq_replicate_iff.mpr ⟨rfl, fun c hc => by
        simpa using all_eq_true.mp hzeros c hc⟩
    have hvalue : value (text.dropWhile (· ≠ '.')).tail = 0 := by
      rw [hfraction, value_replicate_zero]
    rw [hvalue, Nat.add_zero, Nat.cast_mul, Nat.cast_pow, Nat.cast_ofNat,
      mul_div_cancel_left₀ _ (pow_ne_zero _ (by decide))]
  · cases h

section

variable {ops : UnitOps} (hops : ops.Documented) (s : DecimalString) {d : Nat}

include hops

theorem ops_parseInt_text (h : s.magnitude < 2 ^ 256) : ops.parseInt s.text = .ok s.number := by
  rw [UnitOps.parseInt, parseInt_text_of_lt hops.reads (.inl rfl) s h]
  rfl

private theorem ops_parseUint_toDigits (h : d < 2 ^ 256) :
    ops.parseUint (Nat.toDigits 10 d) = .ok ⟨BitVec.ofNat 256 d, true, .decimal⟩ := by
  let s : DecimalString := ⟨.absent, Nat.toDigits 10 d, Nat.toDigits_ne_nil, isDecimal_toDigits d⟩
  have hmagnitude : s.magnitude = d := value_toDigits d
  have hdetect := unwrapOrDetect_text hops.reads s (.inl rfl) (hmagnitude ▸ h)
  have hparse := parseUintIn_digits hops.reads s
  rw [hmagnitude, if_pos h] at hparse
  rw [UnitOps.parseUint, parseUint, show Nat.toDigits 10 d = s.text from rfl, hdetect]
  change ((parseUintIn ops.fromStrRadix s.digits .decimal).bind _).mapError _ = _
  rw [hparse]
  rfl

theorem toFixedPoint_denotes (h : Representable s.denoted) (hd : d ≤ 77) :
    Denotes (ops.toFixedPoint s.text (Nat.toDigits 10 d)) ((s.denoted : ℚ) / 10 ^ d) := by
  have hlt := magnitude_lt_of_representable h
  have hnumber := ops_parseInt_text hops s hlt
  have hdecimals := ops_parseUint_toDigits hops (d := d) (by omega)
  have hread := readFixed_insertPoint Nat.toDigits_ne_nil (isDecimal_toDigits s.magnitude) d
  rw [value_toDigits] at hread
  have htoNat : (BitVec.ofNat 256 d).toNat = d := by
    rw [BitVec.toNat_ofNat, Nat.mod_eq_of_lt (by omega)]
  have hresult : ops.toFixedPoint s.text (Nat.toDigits 10 d) =
      .ok ((if s.number.isNonnegative then [] else ['-']) ++
        UnitOps.insertPoint (Nat.toDigits 10 s.magnitude) d) := by
    rw [UnitOps.toFixedPoint, hnumber]
    change (ops.parseUint (Nat.toDigits 10 d)).bind _ = _
    rw [hdecimals, display_number h, strip_intText, s.natAbs_denoted]
    simp only [Except.bind, htoNat]
    rw [if_neg (by omega)]
  refine ⟨_, hresult, ?_⟩
  by_cases hsign : s.sign = .minus
  · have hflag : s.number.isNonnegative = false := by simp [DecimalString.number, hsign]
    rw [hflag, if_neg Bool.false_ne_true, singleton_append, readSigned_neg, hread,
      Option.map_some, denoted_of_minus hsign, Int.cast_neg, Int.cast_natCast, neg_div]
  · have hflag : s.number.isNonnegative = true := by simp [DecimalString.number, hsign]
    rw [hflag, if_pos rfl, nil_append, readSigned_of_readFixed hread,
      denoted_of_ne_minus hsign, Int.cast_natCast]

theorem formatUnits_denotes (h : s.magnitude < 2 ^ 256) (hd : d ≤ 77) :
    Denotes (ops.formatUnits s.text d) ((s.number.number.toNat : ℚ) / 10 ^ d) := by
  have hread := hops.parseUnitsFormat_eq s.number.number d hd
  refine ⟨ops.formatUnitAsString s.number.number d, ?_, readSigned_of_readFixed ?_⟩
  · rw [UnitOps.formatUnits, ops_parseInt_text hops s h]
    simp only [hops.newUnit_of_le d hd]
    rfl
  · rw [UnitOps.formatUnitAsString]
    split
    · next htrim => exact readFixed_trim hread htrim.2
    · exact hread

theorem fromWei_denotes (h : s.magnitude < 2 ^ 256) (hd : d ≤ 77) {unit : List Char}
    (hunit : ops.parseUnit unit = some d) :
    Denotes (ops.fromWei s.text unit) ((s.number.number.toNat : ℚ) / 10 ^ d) := by
  refine ⟨ops.parseUnitsFormat s.number.number d, ?_,
    readSigned_of_readFixed (hops.parseUnitsFormat_eq s.number.number d hd)⟩
  rw [UnitOps.fromWei, ops_parseInt_text hops s h]
  simp only [hunit]
  rfl

end

/-! ## The number that was given -/

/-- A string is accepted if its integer is representable, and if it is accepted the integer is
displayed and printed with decimals. -/
def PrintsTheNumber (ops : UnitOps) (s : DecimalString) (base : Option (List Char)) : Prop :=
  ((∃ n, parseInt ops.fromStrRadix s.text base = .ok n) ↔ Representable s.denoted) ∧
  ∀ n, parseInt ops.fromStrRadix s.text base = .ok n →
    n.display false = intText s.denoted ∧
    ∀ d ≤ 77, Denotes (ops.toFixedPoint s.text (Nat.toDigits 10 d)) ((s.denoted : ℚ) / 10 ^ d) ∧
      Denotes (ops.formatUnits s.text d) ((s.denoted : ℚ) / 10 ^ d) ∧
      ∀ unit, ops.parseUnit unit = some d →
        Denotes (ops.fromWei s.text unit) ((s.denoted : ℚ) / 10 ^ d)

section

variable {ops : UnitOps} (hops : ops.Documented) {base : Option (List Char)}
  (hbase : DecimalBase base) {s : DecimalString}

include hops hbase

theorem printsTheNumber_of_le (h : 2 ^ 256 ≤ s.magnitude) : PrintsTheNumber ops s base := by
  obtain ⟨error, herror⟩ := parseInt_text_of_le hops.reads hbase s h
  have habs := s.natAbs_denoted
  rw [PrintsTheNumber, herror]
  refine ⟨iff_of_false nofun ?_, nofun⟩
  unfold Representable
  omega

theorem printsTheNumber_of_nonneg (h : 0 ≤ s.denoted) (hlt : s.magnitude < 2 ^ 256) :
    PrintsTheNumber ops s base := by
  have habs := s.natAbs_denoted
  have hrepresentable : Representable s.denoted := by
    unfold Representable
    omega
  have hparse := parseInt_text_of_lt hops.reads hbase s hlt
  have hword : (s.number.number.toNat : ℚ) = s.denoted := by
    have hnat : (s.number.number.toNat : Int) = s.denoted := by
      by_cases hsign : s.sign = .minus
      · have hz := denoted_of_minus hsign
        have hzero : s.magnitude = 0 := by omega
        have hneg : (~~~BitVec.ofNat 256 0 + 1 : U256).toNat = 0 := by decide
        simp only [DecimalString.number, hsign, hzero, if_true]
        omega
      · simp only [DecimalString.number, hsign, if_false, BitVec.toNat_ofNat]
        omega
    rw [← hnat, Int.cast_natCast]
  rw [PrintsTheNumber, hparse]
  refine ⟨iff_of_true ⟨_, rfl⟩ hrepresentable, ?_⟩
  rintro n ⟨⟩
  refine ⟨display_number hrepresentable false, fun d hd => ⟨?_, ?_, fun unit hunit => ?_⟩⟩
  · exact toFixedPoint_denotes hops s hrepresentable hd
  · exact hword ▸ formatUnits_denotes hops s hlt hd
  · exact hword ▸ fromWei_denotes hops s hlt hd hunit

theorem not_printsTheNumber_of_neg (h : s.denoted < 0) (hlt : s.magnitude < 2 ^ 256) :
    ¬ PrintsTheNumber ops s base := by
  intro hprints
  have hparse := parseInt_text_of_lt hops.reads hbase s hlt
  obtain ⟨-, hunits, -⟩ := (hprints.2 _ hparse).2 0 (Nat.zero_le 77)
  obtain ⟨text, htext, hread⟩ := hunits
  obtain ⟨text', htext', hread'⟩ := formatUnits_denotes hops s hlt (Nat.zero_le 77)
  rw [htext] at htext'
  cases htext'
  rw [hread, Option.some.injEq, pow_zero, div_one, div_one] at hread'
  have hneg : (s.denoted : ℚ) < 0 := Int.cast_lt_zero.mpr h
  have hnonneg : (0 : ℚ) ≤ s.number.number.toNat := Nat.cast_nonneg _
  rw [hread'] at hneg
  exact absurd hneg (not_lt.mpr hnonneg)

end

/-- A decimal string is printed as the number it denotes if that is not negative, or is too small
even for its magnitude to be a word. -/
theorem printsTheNumber_iff {ops : UnitOps} (hops : ops.Documented) {base : Option (List Char)}
    (hbase : DecimalBase base) (s : DecimalString) :
    PrintsTheNumber ops s base ↔ 0 ≤ s.denoted ∨ s.denoted ≤ -(2 ^ 256) := by
  have habs := s.natAbs_denoted
  by_cases hlt : s.magnitude < 2 ^ 256
  · by_cases hneg : s.denoted < 0
    · exact iff_of_false (not_printsTheNumber_of_neg hops hbase hneg hlt) (by omega)
    · exact iff_of_true (printsTheNumber_of_nonneg hops hbase (by omega) hlt) (by omega)
  · exact iff_of_true (printsTheNumber_of_le hops hbase (by omega)) (by omega)

/-! ## Units as documented -/

/-- Units by name, with the fraction in all its digits. -/
def standardUnits : UnitOps where
  fromStrRadix := standardFromStrRadix
  newUnit d := if d ≤ 77 then some d else none
  parseUnit unit :=
    if unit = "wei".toList then some 0
    else if unit = "gwei".toList then some 9
    else if unit = "ether".toList then some 18
    else none
  parseUnitsFormat value d := Nat.toDigits 10 (value.toNat / 10 ^ d) ++
    '.' :: padStart d (Nat.toDigits 10 (value.toNat % 10 ^ d))

theorem standardUnits_documented : standardUnits.Documented where
  reads := standard_readsDigits
  newUnit_of_le _ hd := if_pos hd
  parseUnitsFormat_eq value d _ := by
    have hpoint := readFixed_point Nat.toDigits_ne_nil (isDecimal_toDigits (value.toNat / 10 ^ d))
      ((isDecimal_toDigits (value.toNat % 10 ^ d)).padStart d)
    refine hpoint.trans ?_
    rw [value_append, value_padStart, value_toDigits, value_toDigits]
    cases d with
    | zero => simp [Nat.mod_one]
    | succ d =>
      have hlength := (Nat.length_toDigits_le_iff (by decide) (Nat.succ_pos d)).mpr
        (Nat.mod_lt value.toNat (Nat.pow_pos (show 0 < 10 by decide)))
      rw [length_padStart hlength, Nat.div_add_mod]

/-- One and a half gwei. -/
theorem printsTheNumber_gwei :
    PrintsTheNumber standardUnits ⟨.absent, "1500000000".toList, by decide, by decide⟩ none :=
  (printsTheNumber_iff standardUnits_documented (.inl rfl) _).mpr (.inl (by decide))

/-- Minus one is printed by `format_units` as the largest word. -/
theorem not_printsTheNumber_minus_one :
    ¬ ∀ s : DecimalString, PrintsTheNumber standardUnits s none := by
  intro hall
  have hprints := hall ⟨.minus, ['1'], by decide, by decide⟩
  exact absurd hprints (not_printsTheNumber_of_neg standardUnits_documented (.inl rfl)
    (by decide) (by decide))

end Foundry.Cast
