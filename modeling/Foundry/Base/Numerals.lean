import Mathlib.Algebra.Group.Nat.Defs
import Mathlib.Data.List.Induction

/-!
# Numerals

Texts of digits and the numbers they stand for, over the digits of `Nat.toDigits`.
-/

namespace Foundry.Numerals

open List

/-! ## Decimal texts -/

def IsDecimal (text : List Char) : Prop := ∀ c ∈ text, c.isDigit = true

instance (text : List Char) : Decidable (IsDecimal text) :=
  decidable_of_iff (text.all Char.isDigit = true) all_eq_true

def value (text : List Char) : Nat := Nat.ofDigitChars 10 text 0

theorem isDecimal_toDigits (n : Nat) : IsDecimal (Nat.toDigits 10 n) := fun _ hc =>
  Nat.isDigit_of_mem_toDigits (by decide) (by decide) hc

@[simp] theorem value_nil : value [] = 0 := rfl

@[simp] theorem value_toDigits (n : Nat) : value (Nat.toDigits 10 n) = n :=
  Nat.ofDigitChars_ten_toDigits

theorem value_append (text text' : List Char) :
    value (text ++ text') = 10 ^ text'.length * value text + value text' := by
  unfold value
  rw [Nat.ofDigitChars_append, Nat.ofDigitChars_eq_ofDigitChars_zero]

theorem value_singleton (c : Char) : value [c] = c.toNat - '0'.toNat := by
  simp [value, Nat.ofDigitChars_cons]

theorem value_replicate_zero (n : Nat) : value (List.replicate n '0') = 0 := by
  simp [value]

theorem isDigit_iff {c : Char} : c.isDigit = true ↔ '0'.toNat ≤ c.toNat ∧ c.toNat ≤ '9'.toNat := by
  unfold Char.isDigit
  simp [UInt32.le_iff_toNat_le]

theorem IsDecimal.tail {c : Char} {text : List Char} (h : IsDecimal (c :: text)) :
    IsDecimal text := fun c' hc' => h c' (mem_cons_of_mem c hc')

theorem IsDecimal.append {text text' : List Char} (h : IsDecimal text) (h' : IsDecimal text') :
    IsDecimal (text ++ text') := by
  intro c hc
  rw [mem_append] at hc
  cases hc with
  | inl hmem => exact h c hmem
  | inr hmem => exact h' c hmem

theorem isDecimal_replicate_zero (n : Nat) : IsDecimal (List.replicate n '0') := by
  intro c hc
  rw [eq_of_mem_replicate hc]
  rfl

section

variable {text : List Char} {base : Nat}

theorem value_lt (h : IsDecimal text) : value text < 10 ^ text.length := by
  induction text with
  | nil => exact Nat.one_pos
  | cons c text ih =>
    have htail := ih h.tail
    have hdigit := isDigit_iff.mp (h c mem_cons_self)
    have hle : c.toNat - '0'.toNat ≤ 9 := by
      have hzero : '0'.toNat = 48 := rfl
      have hnine : '9'.toNat = 57 := rfl
      omega
    have hmul := Nat.mul_le_mul_left (10 ^ text.length) hle
    rw [show c :: text = [c] ++ text from rfl, value_append, value_singleton, length_append,
      Nat.add_comm [c].length]
    simp only [length_singleton]
    omega

private theorem digitChar_of_isDigit {c : Char} (h : c.isDigit = true) :
    Nat.digitChar (c.toNat - '0'.toNat) = c := by
  have hdigit := isDigit_iff.mp h
  have hzero : '0'.toNat = 48 := rfl
  have hnine : '9'.toNat = 57 := rfl
  apply Char.toNat_inj.mp
  rw [Nat.toNat_digitChar_of_lt_ten (by omega)]
  omega

/-- A text without leading zeros: it does not start with one, unless it is a single digit. -/
def NoLeadingZero (text : List Char) : Prop := text.head? = some '0' → text.length = 1

theorem value_pos (h : IsDecimal text) (hne : text ≠ [])
    (hhead : text.head? ≠ some '0') : 0 < value text := by
  cases text with
  | nil => exact absurd rfl hne
  | cons c text =>
    have hdigit := isDigit_iff.mp (h c mem_cons_self)
    have hzero : '0'.toNat = 48 := rfl
    have hc : c.toNat ≠ 48 := by
      intro heq
      apply hhead
      have hsame : c = '0' := Char.toNat_inj.mp heq
      rw [hsame]
      rfl
    rw [show c :: text = [c] ++ text from rfl, value_append, value_singleton]
    have hpos := Nat.mul_le_mul_left (10 ^ text.length) (show 1 ≤ c.toNat - '0'.toNat by omega)
    have hpow := Nat.pow_pos (n := text.length) (show 0 < 10 by decide)
    omega

/-- A text without leading zeros is the one that its number is printed as. -/
theorem toDigits_value (h : IsDecimal text) (hne : text ≠ [])
    (hzero : NoLeadingZero text) : Nat.toDigits 10 (value text) = text := by
  induction text using List.reverseRecOn with
  | nil => exact absurd rfl hne
  | append_singleton text c ih =>
    have hc : c.isDigit = true := h c (by simp)
    have hdigit := isDigit_iff.mp hc
    have h48 : '0'.toNat = 48 := rfl
    have h57 : '9'.toNat = 57 := rfl
    have htext : IsDecimal text := fun c' hc' => h c' (by simp [hc'])
    rw [value_append, value_singleton]
    simp only [length_singleton, Nat.pow_one]
    by_cases hnil : text = []
    · subst hnil
      simp only [value_nil, Nat.mul_zero, Nat.zero_add, nil_append]
      rw [Nat.toDigits_of_lt_base (by omega), digitChar_of_isDigit hc]
    have hhead : text.head? ≠ some '0' := by
      intro heq
      have hone := hzero (by rw [head?_append, heq, Option.some_or])
      rw [length_append, length_singleton] at hone
      exact hnil (eq_nil_of_length_eq_zero (by omega))
    have hpos := value_pos htext hnil hhead
    rw [Nat.toDigits_of_base_le (by decide) (by omega),
      show (10 * value text + (c.toNat - '0'.toNat)) / 10 = value text by omega,
      show (10 * value text + (c.toNat - '0'.toNat)) % 10 = c.toNat - '0'.toNat by omega,
      digitChar_of_isDigit hc, ih htext hnil (fun heq => absurd heq hhead)]

theorem length_toDigits_value_lt (h : IsDecimal text)
    (hzero : ¬ NoLeadingZero text) : (Nat.toDigits 10 (value text)).length < text.length := by
  unfold NoLeadingZero at hzero
  rw [Classical.not_imp] at hzero
  obtain ⟨hhead, hlength⟩ := hzero
  cases text with
  | nil => cases hhead
  | cons c text =>
    have hc : c = '0' := by simpa using hhead
    subst hc
    have hpos : 0 < text.length := by
      simp only [length_cons] at hlength
      omega
    rw [length_cons, Nat.lt_succ_iff, Nat.length_toDigits_le_iff (by decide) hpos]
    exact value_lt h.tail

/-! ## Texts in a base -/

/-- The number of a digit in bases up to 36, in either case. -/
def digitValue (c : Char) : Option Nat :=
  if c.isDigit then some (c.toNat - '0'.toNat)
  else if 'a' ≤ c ∧ c ≤ 'z' then some (c.toNat - 'a'.toNat + 10)
  else if 'A' ≤ c ∧ c ≤ 'Z' then some (c.toNat - 'A'.toNat + 10)
  else none

def pushDigit (base n : Nat) (c : Char) : Option Nat :=
  (digitValue c).bind fun d => if d < base then some (base * n + d) else none

/-- The number that a text of digits in a base stands for. -/
def readDigits (base : Nat) (text : List Char) : Option Nat := text.foldlM (pushDigit base) 0

theorem digitValue_digitChar {d : Nat} (h : d < 16) : digitValue (Nat.digitChar d) = some d := by
  revert d
  decide

theorem pushDigit_digitChar {d : Nat} (hbase : base ≤ 16) (h : d < base) (n : Nat) :
    pushDigit base n (Nat.digitChar d) = some (base * n + d) := by
  rw [pushDigit, digitValue_digitChar (Nat.lt_of_lt_of_le h hbase), Option.bind_some, if_pos h]

theorem readDigits_toDigits (hone : 1 < base) (hbase : base ≤ 16) (n : Nat) :
    readDigits base (Nat.toDigits base n) = some n := by
  induction n using Nat.strongRecOn with
  | ind n ih =>
    rw [Nat.toDigits_eq_if hone]
    split
    · next hlt =>
      have hpush := pushDigit_digitChar hbase hlt 0
      rw [Nat.mul_zero, Nat.zero_add] at hpush
      simp only [readDigits, foldlM_cons, hpush]
      rfl
    · next hle =>
      have hpos : 0 < n := by omega
      have hdiv := ih (n / base) (Nat.div_lt_self hpos hone)
      have hmod : n % base < base := Nat.mod_lt n (by omega)
      unfold readDigits at hdiv ⊢
      rw [foldlM_append, hdiv]
      simp only [Option.bind_eq_bind, Option.bind_some, foldlM_cons,
        pushDigit_digitChar hbase hmod, Nat.div_add_mod]
      rfl

private theorem digitValue_of_isDigit {c : Char} (h : c.isDigit = true) :
    digitValue c = some (c.toNat - '0'.toNat) ∧ c.toNat - '0'.toNat < 10 := by
  have hdigit := isDigit_iff.mp h
  have hzero : '0'.toNat = 48 := rfl
  have hnine : '9'.toNat = 57 := rfl
  exact ⟨if_pos h, by omega⟩

theorem readDigits_of_isDecimal (h : IsDecimal text)
    (hbase : 10 ≤ base) : readDigits base text = some (Nat.ofDigitChars base text 0) := by
  unfold readDigits
  generalize 0 = start
  induction text generalizing start with
  | nil => rfl
  | cons c text ih =>
    obtain ⟨hvalue, hlt⟩ := digitValue_of_isDigit (h c mem_cons_self)
    rw [foldlM_cons, pushDigit, hvalue, Option.bind_some, if_pos (by omega)]
    exact ih h.tail _

end

theorem ofDigitChars_le (text : List Char) {base base' : Nat} (hbase : base ≤ base')
    {start start' : Nat} (hstart : start ≤ start') :
    Nat.ofDigitChars base text start ≤ Nat.ofDigitChars base' text start' := by
  induction text generalizing start start' with
  | nil => exact hstart
  | cons c text ih =>
    exact ih (Nat.add_le_add_right (Nat.mul_le_mul hbase hstart) _)

theorem head?_toDigits_ne {base : Nat} (hone : 1 < base) {n : Nat} (hn : n ≠ 0) :
    (Nat.toDigits base n).head? ≠ some '0' := by
  induction n using Nat.strongRecOn with
  | ind n ih =>
    rw [Nat.toDigits_eq_if hone]
    split
    · simpa using hn
    · next hle =>
      have hdiv : n / base ≠ 0 := by
        rw [Nat.div_ne_zero_iff]
        omega
      have hlt := Nat.div_lt_self (Nat.pos_of_ne_zero hn) hone
      cases hdigits : Nat.toDigits base (n / base) with
      | nil => exact absurd hdigits Nat.toDigits_ne_nil
      | cons c digits =>
        have hhead := ih (n / base) hlt hdiv
        rw [hdigits] at hhead
        exact hhead

theorem dropWhile_zero_toDigits {base : Nat} (hone : 1 < base) {n : Nat} (hn : n ≠ 0) :
    (Nat.toDigits base n).dropWhile (· = '0') = Nat.toDigits base n := by
  have hhead := head?_toDigits_ne hone hn
  cases hdigits : Nat.toDigits base n with
  | nil => rfl
  | cons c digits =>
    rw [hdigits] at hhead
    rw [dropWhile_cons_of_neg (by simpa using hhead)]

end Foundry.Numerals
