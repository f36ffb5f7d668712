import Foundry.Base.DecimalTexts
import Foundry.Fuzz.ValueTrees

/-!
# Numbers in a base

`cast` reads numbers from texts in one of four bases and prints them back.  A number is a raw word
with a flag for its sign.  `U256::from_str_radix` is a parameter.
-/

namespace Foundry.Cast

open Numerals Fuzz List

inductive Base where
  | binary
  | octal
  | decimal
  | hexadecimal
deriving DecidableEq

/-- The error kinds of the integer parsers of the standard library for unsigned numbers. -/
inductive IntErrorKind where
  | empty
  | invalidDigit
  | posOverflow
deriving DecidableEq

inductive ParseError where
  /-- Invalid base. -/
  | invalidBase (s : List Char)
  /-- Could not parse the value behind the characters of a base. -/
  | prefixed (base : Base) (kind : IntErrorKind)
  /-- Could not autodetect base as neither decimal or hexadecimal. -/
  | neither
  /-- An error of `U256::from_str_radix`. -/
  | number
deriving DecidableEq

/-- `u64::from_str_radix`, one digit. -/
def pushDigitU64 (radix n : Nat) (c : Char) : Except IntErrorKind Nat :=
  match digitValue c with
  | none => .error .invalidDigit
  | some d =>
    if radix ≤ d then .error .invalidDigit
    else if 2 ^ 64 ≤ radix * n + d then .error .posOverflow
    else .ok (radix * n + d)

def fromStrRadixU64 (s : List Char) (radix : Nat) : Except IntErrorKind Nat :=
  if s = [] then .error .empty
  else (if s.head? = some '+' ∧ s.tail ≠ [] then s.tail else s).foldlM (pushDigitU64 radix) 0

namespace Base

def radix : Base → Nat
  | .binary => 2
  | .octal => 8
  | .decimal => 10
  | .hexadecimal => 16

def fromStr (s : List Char) : Except ParseError Base :=
  let s := s.map Char.toLower
  if ["2", "b", "bin", "binary"].any (·.toList = s) then .ok .binary
  else if ["8", "o", "oct", "octal"].any (·.toList = s) then .ok .octal
  else if ["10", "d", "dec", "decimal"].any (·.toList = s) then .ok .decimal
  else if ["16", "h", "hex", "hexadecimal"].any (·.toList = s) then .ok .hexadecimal
  else .error (.invalidBase s)

/-- The Rust standard characters in front of a number. -/
def prefixText : Base → List Char
  | .binary => ['0', 'b']
  | .octal => ['0', 'o']
  | .decimal => []
  | .hexadecimal => ['0', 'x']

/-- The branches of `detect` for a number with the characters of a base in front: only whether there
are digits of the base is checked, not how large the number is. -/
def detectPrefixed (base : Base) (s : List Char) : Except ParseError Base :=
  match fromStrRadixU64 (s.drop 2) base.radix with
  | .ok _ => .ok base
  | .error .posOverflow => .ok base
  | .error kind => .error (.prefixed base kind)

section

variable (fromStrRadix : List Char → Nat → Option U256)

/-- `detect`, of a text without a sign. -/
def detectUnsigned (s : List Char) : Except ParseError Base :=
  if s.take 2 = ['0', 'b'] then detectPrefixed .binary s
  else if s.take 2 = ['0', 'o'] then detectPrefixed .octal s
  else if s.take 2 = ['0', 'x'] then detectPrefixed .hexadecimal s
  else if (fromStrRadix s 10).isSome then .ok .decimal
  else if (fromStrRadix s 16).isSome then .ok .hexadecimal
  else .error .neither

def detect : List Char → Except ParseError Base
  | [] => detectUnsigned fromStrRadix []
  | c :: s => if c = '+' ∨ c = '-' then detect s else detectUnsigned fromStrRadix (c :: s)

def unwrapOrDetect (base : Option (List Char)) (s : List Char) : Except ParseError Base :=
  match base with
  | some base => fromStr base
  | none => detect fromStrRadix s

end

end Base

/-! ## Numbers -/

structure NumberWithBase where
  number : U256
  /-- Whether the number is positive or zero. -/
  isNonnegative : Bool
  /-- The base to format to. -/
  base : Base
deriving DecidableEq

/-- `Formatter::pad_integral`, without a width. -/
def padIntegral (alternate isNonnegative : Bool) (before digits : List Char) : List Char :=
  (if isNonnegative then [] else ['-']) ++ (if alternate then before else []) ++ digits

/-- `get_sign`: the text without its sign, and whether that is negative. -/
def getSign (s : List Char) : List Char × Bool :=
  if s.head? = some '+' then (s.tail, false)
  else if s.head? = some '-' then (s.tail, true)
  else (s, false)

namespace NumberWithBase

def ofU256 (number : U256) : NumberWithBase := ⟨number, true, .decimal⟩

def ofI256 (number : I256) : NumberWithBase := ⟨number.intoRaw, !number.isNegative, .decimal⟩

def toI256 (n : NumberWithBase) : I256 := .fromRaw n.number

section

variable (self : NumberWithBase)

def withBase (base : Base) : NumberWithBase := { self with base := base }

/-- `format`: without what stands in front, signs or padding. -/
def format : List Char :=
  let s :=
    match self.base with
    | .decimal =>
      if self.isNonnegative then Nat.toDigits 10 self.number.toNat
      else
        let s := intText self.toI256.val
        if s.head? = some '-' then s.tail else s
    | base => Nat.toDigits base.radix self.number.toNat
  if s.head? = some '0' then s.dropWhile (· = '0') else s

def debug (alternate : Bool) : List Char :=
  if self.number = 0 then padIntegral alternate true self.base.prefixText ['0']
  else
    let isNonnegative :=
      match self.base with
      | .decimal => self.isNonnegative
      | _ => true
    padIntegral alternate isNonnegative self.base.prefixText self.format

def display (alternate : Bool) : List Char := (self.withBase .decimal).debug alternate

/-- `ToBase`, for all number types. -/
def toBase (base : Base) (addPrefix : Bool) : List Char := (self.withBase base).debug addPrefix

end

section

variable (fromStrRadix : List Char → Nat → Option U256) (s : List Char)

def parseUintIn (base : Base) : Except ParseError U256 :=
  let s :=
    if s.take 2 = ['0', 'x'] ∨ s.take 2 = ['0', 'X'] ∨ s.take 2 = ['0', 'o'] ∨
        s.take 2 = ['0', 'O'] ∨ s.take 2 = ['0', 'b'] ∨ s.take 2 = ['0', 'B'] then s.drop 2
    else s
  match fromStrRadix s base.radix with
  | some n => .ok n
  | none => .error .number

/-- `_parse_int`: the word is negated with overflow. -/
def parseIntIn (base : Base) : Except ParseError (U256 × Bool) := do
  let (s, isNeg) := getSign s
  let n ← parseUintIn fromStrRadix s base
  .ok (if isNeg then ~~~n + 1 else n, !isNeg)

def parseInt (base : Option (List Char)) : Except ParseError NumberWithBase := do
  let base ← Base.unwrapOrDetect fromStrRadix base s
  let (number, isNonnegative) ← parseIntIn fromStrRadix s base
  .ok ⟨number, isNonnegative, base⟩

def parseUint (base : Option (List Char)) : Except ParseError NumberWithBase := do
  let base ← Base.unwrapOrDetect fromStrRadix base s
  let number ← parseUintIn fromStrRadix s base
  .ok ⟨number, true, base⟩

end

end NumberWithBase

open NumberWithBase

/-! ## Texts of digits -/

/-- `U256::from_str_radix` reads digits, where the number is in range. -/
def ReadsDigits (fromStrRadix : List Char → Nat → Option U256) : Prop :=
  ∀ (text : List Char) (radix n : Nat), text ≠ [] → radix ≤ 16 → readDigits radix text = some n →
    fromStrRadix text radix = if n < 2 ^ 256 then some (BitVec.ofNat 256 n) else none

/-- `U256::from_str_radix` as it is documented for bases up to 36, which skips underscores. -/
def standardFromStrRadix (text : List Char) (radix : Nat) : Option U256 :=
  (readDigits radix (text.filter (· ≠ '_'))).bind fun n =>
    if n < 2 ^ 256 then some (BitVec.ofNat 256 n) else none

theorem digitValue_of_readDigits {radix n : Nat} {text : List Char}
    (h : readDigits radix text = some n) : ∀ c ∈ text, ∃ d < radix, digitValue c = some d := by
  unfold readDigits at h
  generalize 0 = start at h
  induction text generalizing start with
  | nil => exact forall_mem_nil _
  | cons c text ih =>
    rw [foldlM_cons, Option.bind_eq_bind, Option.bind_eq_some_iff] at h
    obtain ⟨next, hpush, hrest⟩ := h
    rw [pushDigit, Option.bind_eq_some_iff] at hpush
    obtain ⟨d, hd, hif⟩ := hpush
    rw [forall_mem_cons]
    refine ⟨⟨d, ?_, hd⟩, ih next hrest⟩
    by_contra hge
    rw [if_neg hge] at hif
    cases hif

theorem standard_readsDigits : ReadsDigits standardFromStrRadix := by
  intro text radix n _ _ hread
  have hfilter : text.filter (· ≠ '_') = text := by
    rw [filter_eq_self]
    intro c hc
    obtain ⟨d, -, hd⟩ := digitValue_of_readDigits hread c hc
    rw [decide_eq_true_eq]
    rintro rfl
    cases hd
  rw [standardFromStrRadix, hfilter, hread, Option.bind_some]

private theorem foldlM_pushDigitU64 {radix : Nat} {text : List Char}
    (h : ∀ c ∈ text, ∃ d < radix, digitValue c = some d) (start : Nat) :
    (∃ n, text.foldlM (pushDigitU64 radix) start = .ok n) ∨
      text.foldlM (pushDigitU64 radix) start = .error .posOverflow := by
  induction text generalizing start with
  | nil => exact .inl ⟨start, rfl⟩
  | cons c text ih =>
    rw [forall_mem_cons] at h
    obtain ⟨⟨d, hlt, hd⟩, hrest⟩ := h
    rw [foldlM_cons, pushDigitU64, hd]
    simp only [if_neg (Nat.not_le.mpr hlt)]
    split
    · exact .inr rfl
    · exact ih hrest _

theorem Base.one_lt_radix (base : Base) : 1 < base.radix := by cases base <;> decide

theorem Base.radix_le (base : Base) : base.radix ≤ 16 := by cases base <;> decide

theorem Base.readDigits_toDigits (base : Base) (n : Nat) :
    readDigits base.radix (Nat.toDigits base.radix n) = some n :=
  Numerals.readDigits_toDigits base.one_lt_radix base.radix_le n

theorem Base.head?_toDigits (base : Base) (n : Nat) :
    (Nat.toDigits base.radix n).head? ≠ some '+' ∧
      (Nat.toDigits base.radix n).head? ≠ some '-' := by
  have hdigits := digitValue_of_readDigits (base.readDigits_toDigits n)
  constructor
  · intro hhead
    obtain ⟨d, -, hd⟩ := hdigits '+' (mem_of_mem_head? hhead)
    cases hd
  · intro hhead
    obtain ⟨d, -, hd⟩ := hdigits '-' (mem_of_mem_head? hhead)
    cases hd

theorem take_two_toDigits {radix : Nat} (hone : 1 < radix) (n : Nat) (c : Char) :
    (Nat.toDigits radix n).take 2 ≠ ['0', c] := by
  intro htake
  by_cases hn : n = 0
  · subst hn
    rw [Nat.toDigits_of_lt_base (Nat.lt_trans Nat.zero_lt_one hone)] at htake
    cases htake
  have hhead := head?_toDigits_ne hone hn
  cases hdigits : Nat.toDigits radix n with
  | nil => exact absurd hdigits Nat.toDigits_ne_nil
  | cons c' digits =>
    rw [hdigits] at htake hhead
    rw [take_succ_cons, List.cons.injEq] at htake
    exact hhead (congrArg some htake.1)

theorem strip_intText (z : Int) :
    (if (intText z).head? = some '-' then (intText z).tail else intText z) =
      Nat.toDigits 10 z.natAbs := by
  rw [intText]
  by_cases hneg : z < 0
  · rw [if_pos hneg]
    rfl
  · rw [if_neg hneg]
    exact if_neg (Base.head?_toDigits .decimal _).2

/-! ## What is printed -/

namespace NumberWithBase

def magnitude (self : NumberWithBase) : Nat :=
  if self.base = .decimal ∧ self.isNonnegative = false then self.toI256.val.natAbs
  else self.number.toNat

def isSigned (self : NumberWithBase) : Bool :=
  self.number ≠ 0 ∧ self.base = .decimal ∧ self.isNonnegative = false

section

variable (self : NumberWithBase)

theorem magnitude_lt : self.magnitude < 2 ^ 256 := by
  have hmin := self.toI256.min_le
  have hbound := self.toI256.lt_bound
  rw [magnitude]
  split <;> omega

theorem magnitude_eq_zero_iff : self.magnitude = 0 ↔ self.number = 0 := by
  rw [magnitude]
  split
  · rw [Int.natAbs_eq_zero]
    exact BitVec.toInt_inj (y := 0#256)
  · exact BitVec.toNat_inj (y := 0#256)

private theorem format_eq :
    self.format = (Nat.toDigits self.base.radix self.magnitude).dropWhile (· = '0') := by
  have hif (digits : List Char) :
      (if digits.head? = some '0' then digits.dropWhile (· = '0') else digits) =
        digits.dropWhile (· = '0') := by
    split
    · rfl
    · next hhead => exact (dropWhile_beq_eq_self_of_head?_ne hhead).symm
  unfold format magnitude
  cases self.base with
  | decimal =>
    cases self.isNonnegative with
    | true => exact hif _
    | false =>
      simp only [strip_intText]
      exact hif _
  | binary => exact hif _
  | octal => exact hif _
  | hexadecimal => exact hif _

theorem format_of_ne {self : NumberWithBase} (h : self.number ≠ 0) :
    self.format = Nat.toDigits self.base.radix self.magnitude := by
  rw [format_eq, dropWhile_zero_toDigits self.base.one_lt_radix]
  exact mt self.magnitude_eq_zero_iff.mp h

theorem debug_eq (alternate : Bool) : self.debug alternate =
    (if self.isSigned then ['-'] else []) ++ ((if alternate then self.base.prefixText else []) ++
      Nat.toDigits self.base.radix self.magnitude) := by
  unfold debug
  by_cases hzero : self.number = 0
  · have hsigned : self.isSigned = false := by simp [isSigned, hzero]
    have hdigits : Nat.toDigits self.base.radix self.magnitude = ['0'] := by
      rw [self.magnitude_eq_zero_iff.mpr hzero,
        Nat.toDigits_of_lt_base (Nat.lt_trans Nat.zero_lt_one self.base.one_lt_radix)]
      rfl
    rw [if_pos hzero, hsigned, hdigits]
    rfl
  · rw [if_neg hzero, format_of_ne hzero]
    have hsign : (match self.base with
        | .decimal => self.isNonnegative
        | _ => true) = !self.isSigned := by
      have hne : ¬ self.number = 0#256 := hzero
      unfold isSigned
      cases self.base <;> simp [hne]
    rw [padIntegral, hsign]
    cases self.isSigned <;> simp

end

end NumberWithBase

theorem head?_digits (base : Base) (n : Nat) (alternate : Bool) :
    ((if alternate then base.prefixText else []) ++ Nat.toDigits base.radix n).head? ≠ some '+' ∧
      ((if alternate then base.prefixText else []) ++
        Nat.toDigits base.radix n).head? ≠ some '-' := by
  have hdigits := base.head?_toDigits n
  cases alternate with
  | false => exact hdigits
  | true =>
    cases base with
    | decimal => exact hdigits
    | binary => exact ⟨nofun, nofun⟩
    | octal => exact ⟨nofun, nofun⟩
    | hexadecimal => exact ⟨nofun, nofun⟩

theorem getSign_of_head? {s : List Char} (h : s.head? ≠ some '+' ∧ s.head? ≠ some '-') :
    getSign s = (s, false) := by
  rw [getSign, if_neg h.1, if_neg h.2]

/-! ## Reading what is printed -/

section

variable {fromStrRadix : List Char → Nat → Option U256} (hreads : ReadsDigits fromStrRadix)
  (base : Base) (self : NumberWithBase)

theorem detect_of_head? {s : List Char} (h : s.head? ≠ some '+' ∧ s.head? ≠ some '-') :
    Base.detect fromStrRadix s = Base.detectUnsigned fromStrRadix s := by
  cases s with
  | nil => rfl
  | cons c s =>
    simp only [head?_cons, ne_eq, Option.some.injEq] at h
    rw [Base.detect, if_neg (not_or.mpr h)]

private theorem detectPrefixed_toDigits (n : Nat) (c c' : Char) :
    Base.detectPrefixed base (c :: c' :: Nat.toDigits base.radix n) = .ok base := by
  have hdigits := digitValue_of_readDigits (base.readDigits_toDigits n)
  have hread : fromStrRadixU64 (Nat.toDigits base.radix n) base.radix =
      (Nat.toDigits base.radix n).foldlM (pushDigitU64 base.radix) 0 := by
    rw [fromStrRadixU64, if_neg Nat.toDigits_ne_nil,
      if_neg fun hhead => (base.head?_toDigits n).1 hhead.1]
  have hdrop : (c :: c' :: Nat.toDigits base.radix n).drop 2 = Nat.toDigits base.radix n := rfl
  rw [Base.detectPrefixed, hdrop, hread]
  cases foldlM_pushDigitU64 hdigits 0 with
  | inl hok =>
    obtain ⟨m, hm⟩ := hok
    rw [hm]
  | inr hoverflow => rw [hoverflow]

include hreads

theorem fromStrRadix_toDigits {n : Nat} (hn : n < 2 ^ 256) :
    fromStrRadix (Nat.toDigits base.radix n) base.radix = some (BitVec.ofNat 256 n) :=
  (hreads _ _ n Nat.toDigits_ne_nil base.radix_le (base.readDigits_toDigits n)).trans (if_pos hn)

theorem parseUintIn_toDigits {n : Nat} (hn : n < 2 ^ 256) (alternate : Bool) :
    parseUintIn fromStrRadix
      ((if alternate then base.prefixText else []) ++ Nat.toDigits base.radix n) base =
        .ok (BitVec.ofNat 256 n) := by
  have hread := fromStrRadix_toDigits hreads base hn
  have hplain : parseUintIn fromStrRadix (Nat.toDigits base.radix n) base =
      .ok (BitVec.ofNat 256 n) := by
    have htake := take_two_toDigits base.one_lt_radix n
    simp only [parseUintIn, htake, or_self, if_false, hread]
  cases alternate with
  | false => exact hplain
  | true =>
    cases base with
    | decimal => exact hplain
    | binary => simp [parseUintIn, Base.prefixText, hread]
    | octal => simp [parseUintIn, Base.prefixText, hread]
    | hexadecimal => simp [parseUintIn, Base.prefixText, hread]

/-- What is printed of a number is read back in its base. -/
theorem parseIntIn_debug (alternate : Bool) :
    parseIntIn fromStrRadix (self.debug alternate) self.base =
      .ok (if self.isSigned then ~~~BitVec.ofNat 256 self.magnitude + 1
        else BitVec.ofNat 256 self.magnitude, !self.isSigned) := by
  have huint := parseUintIn_toDigits hreads self.base self.magnitude_lt alternate
  rw [debug_eq]
  cases self.isSigned with
  | false =>
    simp only [Bool.false_eq_true, if_false, nil_append, parseIntIn,
      getSign_of_head? (head?_digits self.base self.magnitude alternate), huint]
    rfl
  | true =>
    have hsign (s : List Char) : getSign ('-' :: s) = (s, true) := rfl
    simp only [if_true, singleton_append, parseIntIn, hsign, huint]
    rfl

private theorem detect_debug : Base.detect fromStrRadix (self.debug true) = .ok self.base := by
  have hhead := head?_digits self.base self.magnitude true
  have hunsigned : Base.detectUnsigned fromStrRadix
      (self.base.prefixText ++ Nat.toDigits self.base.radix self.magnitude) = .ok self.base := by
    cases hbase : self.base with
    | decimal =>
      have htake (c : Char) : (Nat.toDigits 10 self.magnitude).take 2 ≠ ['0', c] :=
        take_two_toDigits (by decide) _ c
      have hread : (fromStrRadix (Nat.toDigits 10 self.magnitude) 10).isSome = true := by
        have hsome := fromStrRadix_toDigits hreads .decimal self.magnitude_lt
        exact Option.isSome_iff_exists.mpr ⟨_, hsome⟩
      change Base.detectUnsigned fromStrRadix (Nat.toDigits 10 self.magnitude) = _
      rw [Base.detectUnsigned, if_neg (htake _), if_neg (htake _), if_neg (htake _), if_pos hread]
    | binary => exact detectPrefixed_toDigits .binary self.magnitude '0' 'b'
    | octal => exact detectPrefixed_toDigits .octal self.magnitude '0' 'o'
    | hexadecimal => exact detectPrefixed_toDigits .hexadecimal self.magnitude '0' 'x'
  rw [debug_eq]
  cases self.isSigned with
  | false => exact (detect_of_head? hhead).trans hunsigned
  | true => exact (detect_of_head? hhead).trans hunsigned

end

/-! ## Round trips -/

theorem magnitude_ofU256 (n : U256) (base : Base) :
    ((ofU256 n).withBase base).magnitude = n.toNat :=
  if_neg fun h => Bool.noConfusion h.2

theorem isSigned_ofU256 (n : U256) (base : Base) : ((ofU256 n).withBase base).isSigned = false :=
  decide_eq_false fun h => Bool.noConfusion h.2.2

theorem intoRaw_eq_zero_iff (n : I256) : n.intoRaw = 0 ↔ n.val = 0 := by
  have hraw := n.val_fromRaw_intoRaw
  constructor
  · intro hzero
    rw [hzero] at hraw
    exact hraw.symm
  · intro hzero
    rw [I256.intoRaw, hzero]
    rfl

theorem isNegative_iff (n : I256) : (!n.isNegative) = false ↔ n.val < 0 := by
  simp [I256.isNegative]

theorem isSigned_ofI256 (n : I256) (base : Base) :
    ((ofI256 n).withBase base).isSigned = true ↔ base = .decimal ∧ n.val < 0 := by
  change decide (n.intoRaw ≠ 0 ∧ base = .decimal ∧ (!n.isNegative) = false) = true ↔ _
  rw [decide_eq_true_eq, isNegative_iff, ne_eq, intoRaw_eq_zero_iff]
  constructor
  · exact And.right
  · exact fun h => ⟨by omega, h⟩

theorem magnitude_ofI256 (n : I256) (base : Base) :
    ((ofI256 n).withBase base).magnitude =
      if base = .decimal ∧ n.val < 0 then n.val.natAbs else n.intoRaw.toNat := by
  change (if base = .decimal ∧ (!n.isNegative) = false then (I256.fromRaw n.intoRaw).val.natAbs
    else n.intoRaw.toNat) = _
  simp only [isNegative_iff, I256.val_fromRaw_intoRaw]

theorem intoRaw_of_neg {n : I256} (h : n.val ≤ 0) :
    n.intoRaw = ~~~BitVec.ofNat 256 n.val.natAbs + 1 := by
  have habs : n.val = -(n.val.natAbs : Int) := by omega
  rw [I256.intoRaw, habs, BitVec.ofInt_neg, Int.natAbs_neg]
  exact BitVec.neg_eq_not_add _

theorem word_ofI256 (n : I256) (base : Base) :
    (if ((ofI256 n).withBase base).isSigned then
      ~~~BitVec.ofNat 256 ((ofI256 n).withBase base).magnitude + 1
    else BitVec.ofNat 256 ((ofI256 n).withBase base).magnitude) = n.intoRaw := by
  rw [magnitude_ofI256]
  by_cases hneg : base = .decimal ∧ n.val < 0
  · rw [if_pos ((isSigned_ofI256 n base).mpr hneg), if_pos hneg,
      intoRaw_of_neg (Int.le_of_lt hneg.2)]
  · rw [if_neg (mt (isSigned_ofI256 n base).mp hneg), if_neg hneg, BitVec.ofNat_toNat,
      BitVec.setWidth_eq]

/-- What is printed of numbers is read back by name of the base, and with the characters of the base
in front without it. -/
structure RoundTrips (fromStrRadix : List Char → Nat → Option U256) (base : Base)
    (name : List Char) : Prop where
  toBase_uint : ∀ (n : U256) (addPrefix : Bool),
    parseUint fromStrRadix ((ofU256 n).toBase base addPrefix) (some name) = .ok ⟨n, true, base⟩ ∧
      parseInt fromStrRadix ((ofU256 n).toBase base addPrefix) (some name) = .ok ⟨n, true, base⟩
  toBase_int : ∀ (n : I256) (addPrefix : Bool), ∃ r,
    parseInt fromStrRadix ((ofI256 n).toBase base addPrefix)
        (some name) = .ok r ∧ r.toI256 = n ∧ r.base = base ∧
      (base = .decimal → r.isNonnegative = !n.isNegative)
  detect_uint : ∀ n : U256, Base.detect fromStrRadix ((ofU256 n).toBase base true) = .ok base
  detect_int : ∀ n : I256, Base.detect fromStrRadix ((ofI256 n).toBase base true) = .ok base

/-- What `format` yields is not empty and is read back as a number with a word. -/
def FormatReads (fromStrRadix : List Char → Nat → Option U256) (n : NumberWithBase)
    (name : List Char) (word : U256) : Prop :=
  n.format ≠ [] ∧
    parseUint fromStrRadix n.format (some name) = .ok ⟨word, true, n.base⟩ ∧
    parseInt fromStrRadix n.format (some name) = .ok ⟨word, true, n.base⟩

section

variable {fromStrRadix : List Char → Nat → Option U256} (hreads : ReadsDigits fromStrRadix)
  {name : List Char} {base : Base} (hname : Base.fromStr name = .ok base)

include hreads hname

theorem parse_digits {n : Nat} (hn : n < 2 ^ 256) (alternate : Bool) :
    parseUint fromStrRadix ((if alternate then base.prefixText else []) ++
        Nat.toDigits base.radix n) (some name) = .ok ⟨BitVec.ofNat 256 n, true, base⟩ ∧
      parseInt fromStrRadix ((if alternate then base.prefixText else []) ++
        Nat.toDigits base.radix n) (some name) = .ok ⟨BitVec.ofNat 256 n, true, base⟩ := by
  have huint := parseUintIn_toDigits hreads base hn alternate
  constructor
  · simp only [parseUint, Base.unwrapOrDetect, hname]
    change (parseUintIn fromStrRadix _ base).bind _ = _
    rw [huint]
    rfl
  · simp only [parseInt, Base.unwrapOrDetect, hname]
    change (parseIntIn fromStrRadix _ base).bind _ = _
    rw [parseIntIn, getSign_of_head? (head?_digits base n alternate)]
    change ((parseUintIn fromStrRadix _ base).bind _).bind _ = _
    rw [huint]
    rfl

theorem formatReads_magnitude {n : NumberWithBase} (hbase : n.base = base) (hne : n.number ≠ 0) :
    FormatReads fromStrRadix n name (BitVec.ofNat 256 n.magnitude) := by
  subst hbase
  have hparse := parse_digits hreads hname n.magnitude_lt false
  rw [FormatReads, format_of_ne hne]
  exact ⟨Nat.toDigits_ne_nil, hparse⟩

theorem roundTrips : RoundTrips fromStrRadix base name where
  toBase_uint n addPrefix := by
    have hparse := parse_digits hreads hname n.isLt addPrefix
    rw [BitVec.ofNat_toNat] at hparse
    rw [toBase, debug_eq, isSigned_ofU256, magnitude_ofU256]
    exact hparse
  toBase_int n addPrefix := by
    have hparse := parseIntIn_debug hreads ((ofI256 n).withBase base) addPrefix
    rw [word_ofI256] at hparse
    refine ⟨⟨n.intoRaw, !((ofI256 n).withBase base).isSigned, base⟩, ?_,
      I256.ext n.val_fromRaw_intoRaw, rfl, ?_⟩
    · simp only [parseInt, Base.unwrapOrDetect, hname]
      change (parseIntIn fromStrRadix (((ofI256 n).withBase base).debug addPrefix)
        ((ofI256 n).withBase base).base).bind _ = _
      rw [hparse]
      rfl
    intro hdecimal
    have hsigned := isSigned_ofI256 n base
    rw [I256.isNegative]
    by_cases hneg : n.val < 0
    · rw [hsigned.mpr ⟨hdecimal, hneg⟩, decide_eq_true hneg]
    · rw [Bool.eq_false_iff.mpr (mt hsigned.mp fun h => hneg h.2), decide_eq_false hneg]
  detect_uint n := detect_debug hreads ((ofU256 n).withBase base)
  detect_int n := detect_debug hreads ((ofI256 n).withBase base)

end

/-- Round trips of all numbers, where the formatted text of a number other than zero is read back as
the number, or as its magnitude where a negative number is formatted in decimal, without its
sign. -/
theorem base_conversion_round_trips {fromStrRadix : List Char → Nat → Option U256}
    (hreads : ReadsDigits fromStrRadix) {name : List Char} {base : Base}
    (hname : Base.fromStr name = .ok base) :
    RoundTrips fromStrRadix base name ∧
      (∀ n : U256, n ≠ 0 → FormatReads fromStrRadix ((ofU256 n).withBase base) name n) ∧
      ∀ n : I256, n.val ≠ 0 →
        FormatReads fromStrRadix ((ofI256 n).withBase base) name
          (if base = .decimal ∧ n.val < 0 then BitVec.ofNat 256 n.val.natAbs else n.intoRaw) := by
  refine ⟨roundTrips hreads hname, fun n hn => ?_, fun n hn => ?_⟩
  · have hformat := formatReads_magnitude hreads hname (n := (ofU256 n).withBase base) rfl hn
    rw [magnitude_ofU256, BitVec.ofNat_toNat] at hformat
    exact hformat
  have hformat := formatReads_magnitude hreads hname
    (n := (ofI256 n).withBase base) rfl (mt (intoRaw_eq_zero_iff n).mp hn)
  rw [magnitude_ofI256] at hformat
  split at hformat
  · next hneg => rwa [if_pos hneg]
  · next hpos =>
    rw [BitVec.ofNat_toNat] at hformat
    rwa [if_neg hpos]

/-- The number 255 in hexadecimal. -/
theorem base_conversion_round_trips_hex :
    Base.fromStr ['h', 'e', 'x'] = .ok .hexadecimal ∧
      FormatReads standardFromStrRadix ((ofU256 255).withBase .hexadecimal) ['h', 'e', 'x'] 255 :=
  have hname : Base.fromStr ['h', 'e', 'x'] = .ok .hexadecimal := by decide +kernel
  ⟨hname, (base_conversion_round_trips standard_readsDigits hname).2.1 255 (by decide)⟩

/-- Minus five is formatted in decimal as the number five is. -/
theorem format_drops_the_sign : ¬ ∀ n : I256, (ofI256 n).format ≠ [] ∧ ∃ r,
    parseInt standardFromStrRadix (ofI256 n).format (some ['1', '0']) = .ok r ∧ r.toI256 = n := by
  intro hall
  obtain ⟨-, r, hparse, hword⟩ := hall ⟨-5, by decide, by decide⟩
  cases hparse
  exact absurd (congrArg I256.val hword) (by decide)

end Foundry.Cast
