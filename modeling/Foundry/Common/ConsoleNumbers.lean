import Foundry.Base.DecimalTexts
import Foundry.Common.ConsoleFormat
import Foundry.Fuzz.ValueTrees
import Mathlib.Data.Nat.Cast.Order.Field
import Mathlib.Tactic.NormNum

/-!
# Numbers on the console

How `U256` and `I256` values are printed by each specifier, and the numbers that the texts stand
for.  A text of `none` is a panic.
-/

namespace Foundry.Common.Console

open Numerals Fuzz Option

/-! ## The formats -/

/-- `UIfmt for U256`. -/
def prettyU256 (self : U256) : List Char := Nat.toDigits 10 self.toNat

/-- `UIfmt for I256`. -/
def prettyI256 (self : I256) : List Char := intText self.val

/-- `U256::pow` of ten, which wraps around. -/
def powTen (exp : Nat) : U256 := BitVec.ofNat 256 (10 ^ exp)

/-- Quotient and remainder, which panic for a divisor of zero. -/
def divRem (x y : U256) : Option (U256 × U256) := if y = 0 then none else some (x / y, x % y)

/-- `impl ConsoleFmt for U256`. -/
def formatU256 (self : U256) : FormatSpec → Option (List Char)
  | .string | .object | .number | .integer => some (prettyU256 self)
  | .hexadecimal =>
    some (['0', 'x'] ++ (Nat.toDigits 16 self.toNat).dropWhile (· = '0'))
  | .exponential none =>
    let log := (prettyU256 self).length - 1
    (divRem self (powTen log)).map fun (integer, decimal) =>
      fixedText integer.toNat decimal.toNat log ++ 'e' :: Nat.toDigits 10 log
  | .exponential (some precision) =>
    (divRem self (powTen precision)).map fun (integer, decimal) =>
      fixedText integer.toNat decimal.toNat precision

/-- The functions of the signed type that the format uses. -/
structure SignedOps where
  exp10 : Nat → Option I256
  twosComplement : I256 → U256
  lowerHex : I256 → List Char

/-- `exp10` is the power of ten where that is in range, and panics or gives some number that is not
negative where it is not.  The two's complement of a negative number is its magnitude, and a number
is printed in hexadecimal by its raw word. -/
structure SignedOps.Documented (ops : SignedOps) : Prop where
  exp10_of_le : ∀ n ≤ 76, ∃ power, ops.exp10 n = some power ∧ power.val = 10 ^ n
  exp10_nonneg : ∀ n power, ops.exp10 n = some power → 0 ≤ power.val
  twosComplement_eq : ∀ x, (ops.twosComplement x).toNat = x.val.natAbs
  lowerHex_eq : ∀ x, ops.lowerHex x = Nat.toDigits 16 x.intoRaw.toNat

/-- `impl ConsoleFmt for I256`. -/
def formatI256 (ops : SignedOps) (self : I256) : FormatSpec → Option (List Char)
  | .string | .object | .number | .integer => some (prettyI256 self)
  | .hexadecimal => some (['0', 'x'] ++ (ops.lowerHex self).dropWhile (· = '0'))
  | .exponential none =>
    let sign := if self.isNegative then ['-'] else []
    let log := if self.isNegative then (prettyI256 self).length - 2
      else (prettyI256 self).length - 1
    (ops.exp10 log).bind fun exp10 =>
      (self.div exp10).bind fun integer =>
        (self.rem exp10).map fun decimal =>
          sign ++ fixedText (ops.twosComplement integer).toNat
            (ops.twosComplement decimal).toNat log ++ 'e' :: Nat.toDigits 10 log
  | .exponential (some precision) =>
    let sign := if self.isNegative then ['-'] else []
    (ops.exp10 precision).bind fun exp10 =>
      (self.div exp10).bind fun integer =>
        (self.rem exp10).map fun decimal =>
          sign ++ fixedText (ops.twosComplement integer).toNat
            (ops.twosComplement decimal).toNat precision

/-! ## Reading the texts -/

def readHex (text : List Char) : Option Nat :=
  if text.take 2 = ['0', 'x'] ∧ text.drop 2 ≠ [] then readDigits 16 (text.drop 2) else none

/-- The number that a text stands for in the notation of a specifier, where `word` is the number of
a hexadecimal word.  With a precision the text counts units of that many decimals. -/
def readAs (word : Nat → ℚ) (spec : FormatSpec) (text : List Char) : Option ℚ :=
  match spec with
  | .hexadecimal => (readHex text).map word
  | .exponential none => readScientific text
  | .exponential (some precision) => (readSigned text).map (· * 10 ^ precision)
  | _ => readSigned text

/-- The text stands for the value, and there is one. -/
def ExactU256 (v : U256) (spec : FormatSpec) : Prop :=
  (formatU256 v spec).bind (readAs (fun n => (n : ℚ)) spec) = some (v.toNat : ℚ)

def ExactI256 (ops : SignedOps) (v : I256) (spec : FormatSpec) : Prop :=
  (formatI256 ops v spec).bind
    (readAs (fun n => ((BitVec.ofNat 256 n).toInt : ℚ)) spec) = some (v.val : ℚ)

/-! ## Hexadecimal -/

theorem readHex_of_ne {n : Nat} (hn : n ≠ 0) :
    readHex (['0', 'x'] ++ (Nat.toDigits 16 n).dropWhile (· = '0')) = some n := by
  rw [dropWhile_zero_toDigits (by decide) hn]
  exact (if_pos ⟨rfl, Nat.toDigits_ne_nil⟩).trans (readDigits_toDigits (by decide) (by decide) n)

/-! ## Powers of ten -/

theorem pow_lt_of_le {p : Nat} (h : p ≤ 77) : 10 ^ p < 2 ^ 256 :=
  Nat.lt_of_le_of_lt (Nat.pow_le_pow_right (by decide) h) (by decide)

theorem lt_pow_of_le {n p : Nat} (hn : n < 2 ^ 256) (hp : 78 ≤ p) : n < 10 ^ p :=
  Nat.lt_of_lt_of_le (Nat.lt_trans hn (by decide)) (Nat.pow_le_pow_right (by decide) hp)

private theorem signed_lt_pow {p : Nat} (h : ¬ p ≤ 76) : 2 ^ 255 < 10 ^ p :=
  Nat.lt_of_lt_of_le (show 2 ^ 255 < 10 ^ 77 by decide)
    (Nat.pow_le_pow_right (by decide) (Nat.not_le.mp h))

theorem toNat_powTen (p : Nat) : (powTen p).toNat = 10 ^ p % 2 ^ 256 := BitVec.toNat_ofNat ..

theorem toNat_powTen_of_le {p : Nat} (h : p ≤ 77) : (powTen p).toNat = 10 ^ p := by
  rw [toNat_powTen, Nat.mod_eq_of_lt (pow_lt_of_le h)]

/-- A number is put together from a quotient and a remainder by a power of ten if the divisor is
that power, or is not reached. -/
theorem whole_add_part_iff {n power p : Nat} : ((n / power : Nat) +
    ((n % power : Nat) : ℚ) / 10 ^ p) * 10 ^ p = n ↔ power = 10 ^ p ∨ n / power = 0 := by
  have hpos : (10 : ℚ) ^ p ≠ 0 := pow_ne_zero _ (by decide)
  have hsplit := Nat.div_add_mod n power
  rw [add_mul, div_mul_cancel₀ _ hpos]
  constructor
  · intro heq
    have hnat : n / power * 10 ^ p + n % power = n := by exact_mod_cast heq
    have hmul : n / power * 10 ^ p = n / power * power := by
      rw [Nat.mul_comm _ power]
      omega
    by_cases hzero : n / power = 0
    · exact .inr hzero
    · exact .inl (Nat.eq_of_mul_eq_mul_left (Nat.pos_of_ne_zero hzero) hmul).symm
  · intro hcase
    have hnat : n / power * 10 ^ p + n % power = n := by
      cases hcase with
      | inl hpower => rw [← hpower, Nat.mul_comm, hsplit]
      | inr hzero => rw [hzero, Nat.zero_mul, Nat.zero_add, ← Nat.div_add_mod n power, hzero,
          Nat.mul_zero, Nat.zero_add, Nat.mod_mod]
    exact_mod_cast hnat

theorem log_le {n k : Nat} (h : n < 10 ^ (k + 1)) : (Nat.toDigits 10 n).length - 1 ≤ k := by
  have hlength := (Nat.length_toDigits_le_iff (by decide) (Nat.succ_pos k)).mpr h
  omega

theorem notMem_fixedText (whole part width : Nat) : 'e' ∉ fixedText whole part width := by
  rw [fixedText, List.mem_append, not_or]
  refine ⟨(isDecimal_toDigits whole).notMem rfl, ?_⟩
  split
  · exact List.not_mem_nil
  · rw [List.mem_cons, not_or]
    exact ⟨by decide, (isDecimal_fractionText width part).notMem rfl⟩

theorem readSigned_fixedText {part width : Nat} (whole : Nat) (h : part < 10 ^ width) :
    readSigned (fixedText whole part width) = some (whole + (part : ℚ) / 10 ^ width) :=
  (readSigned_toDigits_append whole _).trans (readFixed_fixedText whole h)

/-! ## Unsigned values -/

def PrintsU256 (v : U256) : FormatSpec → Prop
  | .hexadecimal => v ≠ 0
  | .exponential (some precision) => precision ≤ 77 ∨ v.toNat < 10 ^ precision % 2 ^ 256
  | _ => True

theorem readSigned_prettyU256 (v : U256) : readSigned (prettyU256 v) = some (v.toNat : ℚ) := by
  have hread := readSigned_intText v.toNat
  exact hread

theorem exactU256_hexadecimal (v : U256) : ExactU256 v .hexadecimal ↔ v ≠ 0 := by
  simp only [ExactU256, formatU256, readAs, bind_some]
  by_cases hv : v = 0
  · subst hv
    exact iff_of_false nofun (not_not_intro rfl)
  · rw [readHex_of_ne fun hzero => hv (BitVec.eq_of_toNat_eq hzero)]
    exact iff_of_true rfl hv

theorem exactU256_scientific (v : U256) : ExactU256 v (.exponential none) := by
  have hlt : v.toNat < 10 ^ (77 + 1) := lt_pow_of_le v.isLt (Nat.le_refl 78)
  have hlog : (prettyU256 v).length - 1 ≤ 77 := log_le hlt
  have hpower : powTen ((prettyU256 v).length - 1) ≠ 0 := by
    intro hzero
    have hnat := toNat_powTen_of_le hlog
    rw [hzero] at hnat
    exact absurd hnat.symm (Nat.ne_of_gt (Nat.pow_pos (by decide)))
  simp only [ExactU256, formatU256, divRem, if_neg hpower, map_some, bind_some,
    readAs, BitVec.toNat_udiv, BitVec.toNat_umod]
  rw [toNat_powTen_of_le hlog, readScientific_append (notMem_fixedText _ _ _),
    readSigned_fixedText _ (Nat.mod_lt _ (Nat.pow_pos (by decide))), map_some,
    whole_add_part_iff.mpr (.inl rfl)]

theorem exactU256_precision (v : U256) (p : Nat) : ExactU256 v (.exponential (some p)) ↔
    p ≤ 77 ∨ v.toNat < 10 ^ p % 2 ^ 256 := by
  simp only [ExactU256, formatU256, divRem]
  by_cases hpower : powTen p = 0
  · have hzero : 10 ^ p % 2 ^ 256 = 0 := by
      rw [← toNat_powTen, hpower]
      rfl
    have hle : ¬ p ≤ 77 := by
      intro hle
      rw [Nat.mod_eq_of_lt (pow_lt_of_le hle)] at hzero
      exact absurd hzero (Nat.ne_of_gt (Nat.pow_pos (by decide)))
    rw [if_pos hpower]
    exact iff_of_false nofun (by omega)
  · have hpos : 0 < (powTen p).toNat := Nat.pos_of_ne_zero fun hzero =>
      hpower (BitVec.eq_of_toNat_eq hzero)
    have hpart : v.toNat % (powTen p).toNat < 10 ^ p := by
      have hmod := Nat.mod_lt v.toNat hpos
      by_cases hle : p ≤ 77
      · rwa [toNat_powTen_of_le hle] at hmod ⊢
      · exact Nat.lt_trans hmod (lt_pow_of_le (powTen p).isLt (by omega))
    simp only [if_neg hpower, map_some, bind_some, readAs, BitVec.toNat_udiv, BitVec.toNat_umod]
    rw [readSigned_fixedText _ hpart, map_some, Option.some.injEq, whole_add_part_iff,
      Nat.div_eq_zero_iff_lt hpos]
    refine or_congr_left ⟨fun heq => ?_, toNat_powTen_of_le⟩
    by_contra hle
    have hlt := lt_pow_of_le (powTen p).isLt (show 78 ≤ p by omega)
    omega

theorem exactU256_iff (v : U256) (spec : FormatSpec) : ExactU256 v spec ↔ PrintsU256 v spec := by
  cases spec with
  | string => exact iff_of_true (readSigned_prettyU256 v) trivial
  | number => exact iff_of_true (readSigned_prettyU256 v) trivial
  | integer => exact iff_of_true (readSigned_prettyU256 v) trivial
  | object => exact iff_of_true (readSigned_prettyU256 v) trivial
  | hexadecimal => exact exactU256_hexadecimal v
  | exponential precision =>
    cases precision with
    | none => exact iff_of_true (exactU256_scientific v) trivial
    | some p => exact exactU256_precision v p

/-! ## Signed values -/

def PrintsI256 (ops : SignedOps) (v : I256) : FormatSpec → Prop
  | .hexadecimal => v.val ≠ 0
  | .exponential (some precision) => precision ≤ 76 ∨
      ∃ power, ops.exp10 precision = some power ∧ (v.val.natAbs : Int) < power.val
  | _ => True

private theorem ofInt?_of_natAbs_le {v : I256} {z : Int} (hle : z.natAbs ≤ v.val.natAbs)
    (hpos : 0 ≤ v.val → 0 ≤ z) (hneg : v.val ≤ 0 → z ≤ 0) :
    ∃ x, I256.ofInt? z = some x ∧ x.val = z := by
  have hmin := v.min_le
  have hbound := v.lt_bound
  exact ⟨_, I256.ofInt?_eq (by omega) (by omega), rfl⟩

theorem div_rem_of_pos {v power : I256} (h : 0 < power.val) : ∃ integer decimal,
    v.div power = some integer ∧ v.rem power = some decimal ∧
      integer.val.natAbs = v.val.natAbs / power.val.natAbs ∧
      decimal.val.natAbs = v.val.natAbs % power.val.natAbs := by
  have hne : power ≠ .zero := by
    rintro rfl
    exact absurd h (by decide)
  have hquot : (v.val.tdiv power.val).natAbs = v.val.natAbs / power.val.natAbs := Int.natAbs_tdiv ..
  have hrem : (v.val.tmod power.val).natAbs = v.val.natAbs % power.val.natAbs := Int.natAbs_tmod ..
  have hdivNeg := Int.neg_tdiv v.val power.val
  have hmodNeg := Int.neg_tmod v.val power.val
  obtain ⟨integer, hinteger, hival⟩ := ofInt?_of_natAbs_le (v := v)
    (hquot ▸ Nat.div_le_self _ _) (fun hpos => Int.tdiv_nonneg hpos h.le) fun hneg => by
      have hnonneg := Int.tdiv_nonneg (show 0 ≤ -v.val by omega) h.le
      omega
  obtain ⟨decimal, hdecimal, hdval⟩ := ofInt?_of_natAbs_le (v := v)
    (hrem ▸ Nat.mod_le _ _) (fun hpos => Int.tmod_nonneg _ hpos) fun hneg => by
      have hnonneg := Int.tmod_nonneg power.val (show 0 ≤ -v.val by omega)
      omega
  refine ⟨integer, decimal, ?_, ?_, hival ▸ hquot, hdval ▸ hrem⟩
  · rw [I256.div, if_neg hne, hinteger]
  · rw [I256.rem, if_neg hne, hdecimal]

theorem readSigned_sign {part width : Nat} (v : I256) (whole : Nat) (h : part < 10 ^ width) :
    readSigned ((if v.isNegative then ['-'] else []) ++ fixedText whole part width) =
      some ((if v.val < 0 then -1 else 1) * (whole + (part : ℚ) / 10 ^ width)) := by
  by_cases hneg : v.val < 0
  · rw [I256.isNegative, decide_eq_true hneg, if_pos rfl, if_pos hneg, List.singleton_append,
      readSigned_neg, readFixed_fixedText whole h, map_some, neg_one_mul]
  · rw [I256.isNegative, decide_eq_false hneg, if_neg Bool.false_ne_true, if_neg hneg,
      List.nil_append, readSigned_fixedText whole h, one_mul]

theorem val_eq_sign (v : I256) :
    (v.val : ℚ) = (if v.val < 0 then -1 else 1) * (v.val.natAbs : ℚ) := by
  rw [← Int.cast_natCast]
  split
  · next hneg =>
    have habs : (v.val.natAbs : Int) = -v.val := by omega
    rw [habs, Int.cast_neg, neg_one_mul, neg_neg]
  · next hpos =>
    have habs : (v.val.natAbs : Int) = v.val := by omega
    rw [habs, one_mul]

private theorem sign_mul_cancel (v : I256) (x y : ℚ) :
    (if v.val < 0 then -1 else 1) * x = (if v.val < 0 then -1 else 1) * y ↔ x = y := by
  split
  · rw [neg_one_mul, neg_one_mul, neg_inj]
  · rw [one_mul, one_mul]

section

variable {ops : SignedOps} (hops : ops.Documented) (v : I256)

include hops

theorem exactI256_hexadecimal : ExactI256 ops v .hexadecimal ↔ v.val ≠ 0 := by
  simp only [ExactI256, formatI256, readAs, bind_some, hops.lowerHex_eq]
  have hraw := I256.val_fromRaw_intoRaw v
  by_cases hv : v.val = 0
  · have hzero : v.intoRaw = 0 := by
      rw [I256.intoRaw, hv]
      rfl
    rw [hzero]
    exact iff_of_false nofun (not_not_intro hv)
  have hne : v.intoRaw.toNat ≠ 0 := by
    intro hzero
    rw [BitVec.eq_of_toNat_eq (y := 0#256) hzero] at hraw
    exact hv hraw.symm
  rw [readHex_of_ne hne, map_some, BitVec.ofNat_toNat]
  exact iff_of_true (congrArg (fun z : Int => some (z : ℚ)) hraw) hv

theorem exactI256_scientific : ExactI256 ops v (.exponential none) := by
  have hmin := v.min_le
  have hbound := v.lt_bound
  have hlt : v.val.natAbs < 10 ^ (76 + 1) :=
    Nat.lt_of_le_of_lt (show v.val.natAbs ≤ 2 ^ 255 by omega) (by decide)
  have hlogEq : (if v.isNegative then (prettyI256 v).length - 2 else (prettyI256 v).length - 1) =
      (Nat.toDigits 10 v.val.natAbs).length - 1 := by
    by_cases hneg : v.val < 0
    · rw [I256.isNegative, decide_eq_true hneg, prettyI256, intText, if_pos hneg]
      rfl
    · rw [I256.isNegative, decide_eq_false hneg, prettyI256, intText, if_neg hneg]
      rfl
  obtain ⟨power, hexp, hval⟩ := hops.exp10_of_le _ (log_le hlt)
  have hpos : 0 < power.val := by
    rw [hval]
    exact Int.pow_pos (by decide)
  obtain ⟨integer, decimal, hdiv, hrem, hinteger, hdecimal⟩ := div_rem_of_pos (v := v) hpos
  have habs : power.val.natAbs = 10 ^ ((Nat.toDigits 10 v.val.natAbs).length - 1) := by
    rw [hval]
    rfl
  simp only [ExactI256, formatI256, hlogEq, hexp, hdiv, hrem, bind_some, map_some,
    readAs, hops.twosComplement_eq, hinteger, hdecimal, habs]
  have hmantissa : 'e' ∉ (if v.isNegative then ['-'] else []) ++
      fixedText (v.val.natAbs / 10 ^ ((Nat.toDigits 10 v.val.natAbs).length - 1))
        (v.val.natAbs % 10 ^ ((Nat.toDigits 10 v.val.natAbs).length - 1))
        ((Nat.toDigits 10 v.val.natAbs).length - 1) := by
    rw [List.mem_append, not_or]
    refine ⟨?_, notMem_fixedText _ _ _⟩
    split <;> decide
  rw [readScientific_append hmantissa,
    readSigned_sign _ _ (Nat.mod_lt _ (Nat.pow_pos (by decide))), map_some, mul_assoc,
    whole_add_part_iff.mpr (.inl rfl), ← val_eq_sign]

theorem exactI256_precision (p : Nat) : ExactI256 ops v (.exponential (some p)) ↔
    p ≤ 76 ∨ ∃ power, ops.exp10 p = some power ∧ (v.val.natAbs : Int) < power.val := by
  simp only [ExactI256, formatI256]
  cases hexp : ops.exp10 p with
  | none =>
    have hle : ¬ p ≤ 76 := by
      intro hle
      obtain ⟨power, hsome, -⟩ := hops.exp10_of_le p hle
      rw [hexp] at hsome
      cases hsome
    refine iff_of_false nofun ?_
    rintro (hsmall | ⟨power, hsome, -⟩)
    · exact hle hsmall
    · cases hsome
  | some power =>
    have hnonneg := hops.exp10_nonneg p power hexp
    have hiff : (∃ power', some power = some power' ∧ (v.val.natAbs : Int) < power'.val) ↔
        v.val.natAbs < power.val.natAbs := by
      simp only [Option.some.injEq, exists_eq_left']
      omega
    have hpower : power.val.natAbs = 10 ^ p ↔ p ≤ 76 := by
      constructor
      · intro heq
        by_contra hle
        have hbound := power.lt_bound
        have hlt := signed_lt_pow hle
        omega
      · intro hle
        obtain ⟨power', hsome, hval⟩ := hops.exp10_of_le p hle
        rw [hexp] at hsome
        cases hsome
        rw [hval]
        rfl
    rw [hiff]
    by_cases hzero : power.val = 0
    · have hdiv : v.div power = none := if_pos (I256.ext hzero)
      have hne : power.val.natAbs ≠ 10 ^ p := by
        rw [hzero]
        exact Nat.ne_of_lt (Nat.pow_pos (by decide))
      simp only [bind_some, hdiv]
      refine iff_of_false nofun ?_
      omega
    · have hpos : 0 < power.val := by omega
      obtain ⟨integer, decimal, hdiv, hrem, hinteger, hdecimal⟩ := div_rem_of_pos (v := v) hpos
      have hpart : v.val.natAbs % power.val.natAbs < 10 ^ p := by
        have hmod := Nat.mod_lt v.val.natAbs (show 0 < power.val.natAbs by omega)
        by_cases hle : p ≤ 76
        · rwa [hpower.mpr hle] at hmod ⊢
        · have hbound := power.lt_bound
          have hlt := signed_lt_pow hle
          omega
      simp only [bind_some, hdiv, hrem, map_some, readAs, hops.twosComplement_eq,
        hinteger, hdecimal]
      rw [readSigned_sign _ _ hpart, map_some, Option.some.injEq, val_eq_sign v, mul_assoc,
        sign_mul_cancel, whole_add_part_iff, Nat.div_eq_zero_iff_lt (by omega), hpower]

theorem exactI256_iff (spec : FormatSpec) : ExactI256 ops v spec ↔ PrintsI256 ops v spec := by
  cases spec with
  | string => exact iff_of_true (readSigned_intText v.val) trivial
  | number => exact iff_of_true (readSigned_intText v.val) trivial
  | integer => exact iff_of_true (readSigned_intText v.val) trivial
  | object => exact iff_of_true (readSigned_intText v.val) trivial
  | hexadecimal => exact exactI256_hexadecimal hops v
  | exponential precision =>
    cases precision with
    | none => exact iff_of_true (exactI256_scientific hops v) trivial
    | some p => exact exactI256_precision hops v p

end

/-! ## All numbers -/

/-- A number is printed exactly where the power of ten of the precision is in range, or is not
reached by the value, and where a number in hexadecimal is not zero. -/
theorem exact_iff {ops : SignedOps} (hops : ops.Documented) :
    (∀ (v : U256) (spec : FormatSpec), ExactU256 v spec ↔ PrintsU256 v spec) ∧
      ∀ (v : I256) (spec : FormatSpec), ExactI256 ops v spec ↔ PrintsI256 ops v spec :=
  ⟨exactU256_iff, exactI256_iff hops⟩

/-- `exp10` that panics where the power is not in range. -/
def checkedOps : SignedOps where
  exp10 n := if n ≤ 76 then I256.ofInt? (10 ^ n) else none
  twosComplement x := BitVec.ofNat 256 x.val.natAbs
  lowerHex x := Nat.toDigits 16 x.intoRaw.toNat

theorem checkedOps_documented : checkedOps.Documented where
  exp10_of_le n hn := by
    have hlt : (10 : Int) ^ n < 2 ^ 255 :=
      Int.lt_of_le_of_lt (pow_le_pow_right₀ (by decide) hn) (by decide)
    have hpos : (0 : Int) < 10 ^ n := Int.pow_pos (by decide)
    exact ⟨_, (if_pos hn).trans (I256.ofInt?_eq (by omega) hlt), rfl⟩
  exp10_nonneg n power h := by
    have hif : (if n ≤ 76 then I256.ofInt? (10 ^ n) else none) = some power := h
    by_cases hn : n ≤ 76
    · rw [if_pos hn, I256.ofInt?] at hif
      split at hif
      · cases hif
        exact Int.le_of_lt (Int.pow_pos (by decide))
      · cases hif
    · rw [if_neg hn] at hif
      cases hif
  twosComplement_eq x := by
    have hmin := x.min_le
    have hbound := x.lt_bound
    exact (BitVec.toNat_ofNat ..).trans (Nat.mod_eq_of_lt (by omega))
  lowerHex_eq _ := rfl

/-- Minus one and a half, with one decimal. -/
theorem exact_minus_fifteen :
    ExactI256 checkedOps ⟨-15, by decide, by decide⟩ (.exponential (some 1)) :=
  ((exact_iff checkedOps_documented).2 _ _).mpr (.inl (by decide))

/-- With 256 decimals the divisor wraps to zero, and zero has no digits in hexadecimal. -/
theorem not_exact_at_256_decimals : ¬ ∀ (v : U256) (spec : FormatSpec), ExactU256 v spec := by
  intro hall
  have hexact := hall 1 (.exponential (some 256))
  cases hexact

end Foundry.Common.Console
