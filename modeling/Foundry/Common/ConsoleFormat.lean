import Foundry.Base.Numerals

/-!
# Format strings of the console

A format string is read from left to right into pieces, which are literal text or specifiers for the
next value.  What the string says is a list of segments: characters, escaped percent signs and
specifiers.
-/

namespace Foundry.Common.Console

open Numerals List

/-! ## The parser -/

inductive FormatSpec where
  | string
  | number
  | integer
  | object
  | exponential (precision : Option Nat)
  | hexadecimal
deriving DecidableEq

def FormatSpec.display : FormatSpec → List Char
  | .string => ['%', 's']
  | .number => ['%', 'd']
  | .integer => ['%', 'i']
  | .object => ['%', 'o']
  | .exponential (some n) => '%' :: (Nat.toDigits 10 n ++ ['e'])
  | .exponential none => ['%', 'e']
  | .hexadecimal => ['%', 'x']

inductive Piece where
  | string (text : List Char)
  | nextArgument (spec : FormatSpec)

inductive ParseArgError where
  | err
  | skip

def parseUsize (text : List Char) : Option Nat :=
  if text = [] then none else if value text < 2 ^ 64 then some (value text) else none

/-- `integer`, with the characters left: the digits up to the next other character, and nothing
where the digits go on to the end of the input. -/
def integer (chars : List Char) : Option Nat × List Char :=
  let rest := chars.dropWhile Char.isDigit
  (parseUsize (if rest = [] then [] else chars.takeWhile Char.isDigit), rest)

def simpleSpec : Char → Option FormatSpec
  | 's' => some .string
  | 'd' => some .number
  | 'i' => some .integer
  | 'o' => some .object
  | 'e' => some (.exponential none)
  | 'x' => some .hexadecimal
  | _ => none

/-- `argument`, with the characters left. -/
def argument : List Char → Except ParseArgError (FormatSpec × List Char)
  | [] => .error .err
  | ch :: chars =>
    if ch = '%' then .error .skip
    else
      match simpleSpec ch with
      | some spec => .ok (spec, chars)
      | none =>
        if ch.isDigit then
          let (n, rest) := integer (ch :: chars)
          if rest.head? = some 'e' then .ok (.exponential n, rest.tail) else .error .err
        else .error .err

/-- `string`, with the characters left. -/
def takeString : Nat → List Char → List Char × List Char
  | _, [] => ([], [])
  | skip, c :: chars =>
    if c = '%' then
      match skip with
      | 0 => ([], c :: chars)
      | skip + 1 =>
        let (text, rest) := takeString skip chars
        (c :: text, rest)
    else
      let (text, rest) := takeString skip chars
      (c :: text, rest)

/-- `next`, with the characters left. -/
def next : List Char → Option (Piece × List Char)
  | [] => none
  | ch :: chars =>
    let literal (skip : Nat) (chars : List Char) :=
      let (text, rest) := takeString skip chars
      some (.string text, rest)
    if ch = '%' then
      match argument chars with
      | .ok (arg, rest) => some (.nextArgument arg, rest)
      | .error .skip => literal 1 chars
      | .error .err => literal 1 (ch :: chars)
    else literal 0 (ch :: chars)

/-! ## Formatting -/

/-- A value is what it is formatted as by each specifier. -/
abbrev ConsoleFmt := FormatSpec → List Char

/-- `format_spec`, for a number of pieces: the text and the values left. -/
def formatSpec : Nat → List Char → List ConsoleFmt → List Char × List ConsoleFmt
  | 0, _, values => ([], values)
  | pieces + 1, chars, values =>
    match next chars with
    | none => ([], values)
    | some (.string text, rest) =>
      let (result, left) := formatSpec pieces rest values
      (text ++ result, left)
    | some (.nextArgument spec, rest) =>
      match values with
      | value :: values =>
        let (result, left) := formatSpec pieces rest values
        (value spec ++ result, left)
      | [] =>
        let (result, left) := formatSpec pieces rest []
        (spec.display ++ result, left)

/-- The values left over, each with a space in front, but for the first if there is no text. -/
def appendValues : Bool → List ConsoleFmt → List Char
  | _, [] => []
  | writeSpace, value :: values =>
    (if writeSpace then [' '] else []) ++ value .string ++ appendValues true values

/-- `console_format`.  Every piece takes at least a character. -/
def consoleFormat (spec : List Char) (values : List ConsoleFmt) : List Char :=
  if spec = [] then appendValues false values
  else
    let (result, left) := formatSpec spec.length spec values
    result ++ appendValues true left

/-! ## What a format string says -/

inductive Segment where
  | char (c : Char)
  | percent
  /-- A specifier of a letter, with digits in front of it. -/
  | specifier (digits : List Char) (letter : Char)
deriving DecidableEq

/-- The digits and the letter of the specifier behind a percent sign. -/
def specifierAt (chars : List Char) : Option (List Char × Char) :=
  match chars with
  | [] => none
  | c :: _ =>
    if (simpleSpec c).isSome then some ([], c)
    else if c.isDigit ∧ (chars.dropWhile Char.isDigit).head? = some 'e' then
      some (chars.takeWhile Char.isDigit, 'e')
    else none

/-- The segments of a text, of which the first `skip` characters are read. -/
def segmentsFrom : Nat → List Char → List Segment
  | _, [] => []
  | skip + 1, _ :: chars => segmentsFrom skip chars
  | 0, c :: chars =>
    if c = '%' then
      if chars.head? = some '%' then .percent :: segmentsFrom 1 chars
      else
        match specifierAt chars with
        | some (digits, letter) =>
          .specifier digits letter :: segmentsFrom (digits.length + 1) chars
        | none => .char c :: segmentsFrom 0 chars
    else .char c :: segmentsFrom 0 chars

def segments (spec : List Char) : List Segment := segmentsFrom 0 spec

def specOf (digits : List Char) (letter : Char) : FormatSpec :=
  if digits = [] then (simpleSpec letter).getD .string else .exponential (parseUsize digits)

/-- A text that has the literal text of the segments in order, and each value in the place of its
specifier, with the values left over behind.  In the place of a specifier without a value stands one
that asks for the same. -/
inductive Renders (writeSpace : Bool) : List Segment → List ConsoleFmt → List Char → Prop
  | done (values : List ConsoleFmt) : Renders writeSpace [] values (appendValues writeSpace values)
  | char (c : Char) {segments : List Segment} {values : List ConsoleFmt} {text : List Char} :
      Renders writeSpace segments values text →
      Renders writeSpace (.char c :: segments) values (c :: text)
  | percent {segments : List Segment} {values : List ConsoleFmt} {text : List Char} :
      Renders writeSpace segments values text →
      Renders writeSpace (.percent :: segments) values ('%' :: text)
  | filled (digits : List Char) (letter : Char) (value : ConsoleFmt) {segments : List Segment}
      {values : List ConsoleFmt} {text : List Char} : Renders writeSpace segments values text →
      Renders writeSpace (.specifier digits letter :: segments) (value :: values)
        (value (specOf digits letter) ++ text)
  | unfilled (digits : List Char) (letter : Char) {segments : List Segment} {text : List Char} :
      Renders writeSpace segments [] text →
      Renders writeSpace (.specifier digits letter :: segments) []
        ((specOf digits letter).display ++ text)

/-- Every two percent signs are replaced by one, from left to right. -/
def unescape : List Char → List Char
  | '%' :: '%' :: chars => '%' :: unescape chars
  | c :: chars => c :: unescape chars
  | [] => []

/-! ## Segments of plain text -/

variable {digits chars spec : List Char} {letter : Char} {text : List Char}

theorem segmentsFrom_eq (skip : Nat) (chars : List Char) :
    segmentsFrom skip chars = segments (chars.drop skip) := by
  induction chars generalizing skip with
  | nil => cases skip <;> rfl
  | cons c chars ih =>
    cases skip with
    | zero => rfl
    | succ skip => exact ih skip

theorem segments_cons_of_ne {c : Char} (h : c ≠ '%') (chars : List Char) :
    segments (c :: chars) = .char c :: segments chars := by
  unfold segments
  rw [segmentsFrom, if_neg h]

private theorem segments_plain (h : '%' ∉ text) (rest : List Char) :
    segments (text ++ rest) = text.map .char ++ segments rest := by
  induction text with
  | nil => rfl
  | cons c text ih =>
    rw [mem_cons, not_or] at h
    rw [cons_append, segments_cons_of_ne (Ne.symm h.1), ih h.2]
    rfl

private theorem unescape_plain (h : '%' ∉ text) (rest : List Char) :
    unescape (text ++ rest) = text ++ unescape rest := by
  induction text with
  | nil => rfl
  | cons c text ih =>
    rw [mem_cons, not_or] at h
    rw [cons_append, unescape, ih h.2, cons_append]
    intro chars hc
    exact absurd hc.symm h.1

/-! ## Specifiers -/

theorem eq_takeWhile_append (h : (chars.dropWhile Char.isDigit).head? = some 'e') :
    chars = chars.takeWhile Char.isDigit ++ 'e' :: (chars.dropWhile Char.isDigit).tail := by
  have hsplit := takeWhile_append_dropWhile (p := Char.isDigit) (l := chars)
  cases hrest : chars.dropWhile Char.isDigit with
  | nil =>
    rw [hrest] at h
    cases h
  | cons c rest =>
    rw [hrest] at h hsplit
    cases h
    exact hsplit.symm

theorem specifierAt_eq_some (h : specifierAt chars = some (digits, letter)) :
    IsDecimal digits ∧ (∃ rest, chars = digits ++ letter :: rest) ∧
      (digits = [] → (simpleSpec letter).isSome = true) ∧ (digits ≠ [] → letter = 'e') := by
  unfold specifierAt at h
  split at h
  · cases h
  · next c chars =>
    split at h
    · next hsimple =>
      cases h
      exact ⟨forall_mem_nil _, ⟨chars, rfl⟩, fun _ => hsimple, fun hne => absurd rfl hne⟩
    split at h
    · next hdigits =>
      cases h
      refine ⟨all_eq_true.mp all_takeWhile, ⟨_, eq_takeWhile_append hdigits.2⟩, ?_,
        fun _ => rfl⟩
      intro hnil
      rw [takeWhile_cons, if_pos hdigits.1] at hnil
      cases hnil
    · cases h

private theorem percent_notMem_specifier (h : IsDecimal digits)
    (hletter : (digits = [] → (simpleSpec letter).isSome = true) ∧ (digits ≠ [] → letter = 'e')) :
    '%' ∉ digits ++ [letter] := by
  rw [mem_append, mem_singleton, not_or]
  constructor
  · intro hmem
    have hdigit := h '%' hmem
    cases hdigit
  · rintro rfl
    by_cases hnil : digits = []
    · have hsimple := hletter.1 hnil
      cases hsimple
    · have heq := hletter.2 hnil
      cases heq

/-- The specifier that the parser reads is that of the segment. -/
theorem argument_eq (chars : List Char) : argument chars =
    if chars.head? = some '%' then .error .skip
    else
      match specifierAt chars with
      | some (digits, letter) => .ok (specOf digits letter, chars.drop (digits.length + 1))
      | none => .error .err := by
  cases chars with
  | nil => rfl
  | cons ch chars =>
    simp only [argument, head?_cons, Option.some.injEq]
    split
    · rfl
    cases hsimple : simpleSpec ch with
    | some spec => simp [specifierAt, specOf, hsimple]
    | none =>
      by_cases hdigits : ch.isDigit = true ∧
          ((ch :: chars).dropWhile Char.isDigit).head? = some 'e'
      · have htake : (ch :: chars).takeWhile Char.isDigit ≠ [] := by
          rw [takeWhile_cons, if_pos hdigits.1]
          simp
        have hne : (ch :: chars).dropWhile Char.isDigit ≠ [] := by
          intro hnil
          rw [hnil] at hdigits
          cases hdigits.2
        have hdrop : (ch :: chars).drop (((ch :: chars).takeWhile Char.isDigit).length + 1) =
              ((ch :: chars).dropWhile Char.isDigit).tail := by
          conv_lhs => rw [eq_takeWhile_append hdigits.2]
          rw [← drop_drop, drop_left']
          · rfl
          · rw [← eq_takeWhile_append hdigits.2]
        simp only [specifierAt, hsimple, hdigits.1, integer, hdigits.2, and_self,
          if_neg hne, Option.isSome_none, Bool.false_eq_true, if_false, if_true]
        rw [hdrop, specOf, if_neg htake]
      · simp only [specifierAt, hsimple, if_neg hdigits, integer, Option.isSome_none,
          Bool.false_eq_true, if_false]
        by_cases hdigit : ch.isDigit = true
        · have hhead : ¬ ((ch :: chars).dropWhile Char.isDigit).head? = some 'e' :=
            fun hhead => hdigits ⟨hdigit, hhead⟩
          simp only [hdigit, hhead, if_true, if_false]
        · rw [if_neg hdigit]

/-! ## Reading a format string by its segments -/

theorem segments_percent_percent (chars : List Char) :
    segments ('%' :: '%' :: chars) = .percent :: segments chars := rfl

theorem segments_specifier (h : specifierAt chars = some (digits, letter)) :
    segments ('%' :: chars) =
      .specifier digits letter :: segments (chars.drop (digits.length + 1)) := by
  have hhead : chars.head? ≠ some '%' := by
    intro hhead
    cases chars with
    | nil => cases hhead
    | cons c chars =>
      cases hhead
      cases h
  rw [segments, segmentsFrom, if_pos rfl, if_neg hhead, h, ← segmentsFrom_eq]

theorem segments_loose (hhead : chars.head? ≠ some '%') (h : specifierAt chars = none) :
    segments ('%' :: chars) = .char '%' :: segments chars := by
  rw [segments, segmentsFrom, if_neg hhead, h]
  rfl

/-- Induction on a format string by its segments: a character, an escaped percent sign, a specifier
or a percent sign that is neither. -/
theorem segments_induction {motive : List Char → Prop} (nil : motive [])
    (char : ∀ c chars, c ≠ '%' → motive chars → motive (c :: chars))
    (percent : ∀ chars, motive chars → motive ('%' :: '%' :: chars))
    (specifier : ∀ chars digits letter, specifierAt chars = some (digits, letter) →
      motive (chars.drop (digits.length + 1)) → motive ('%' :: chars))
    (loose : ∀ chars, chars.head? ≠ some '%' → specifierAt chars = none → motive chars →
      motive ('%' :: chars)) (spec : List Char) : motive spec := by
  induction hn : spec.length using Nat.strongRecOn generalizing spec with
  | ind n ih =>
    cases spec with
    | nil => exact nil
    | cons c chars =>
      have hlt : chars.length < n := by
        rw [← hn]
        exact Nat.lt_succ_self _
      by_cases hc : c = '%'
      · subst hc
        by_cases hhead : chars.head? = some '%'
        · cases chars with
          | nil => cases hhead
          | cons c chars =>
            cases hhead
            refine percent chars (ih chars.length ?_ chars rfl)
            simp only [length_cons] at hlt
            omega
        · cases hat : specifierAt chars with
          | none => exact loose chars hhead hat (ih chars.length hlt chars rfl)
          | some found =>
            refine specifier chars found.1 found.2 hat (ih _ ?_ _ rfl)
            rw [length_drop]
            omega
      · exact char c chars hc (ih chars.length hlt chars rfl)

theorem isDecimal_of_specifier_mem (h : .specifier digits letter ∈ segments spec) :
    IsDecimal digits ∧
      (digits = [] → (simpleSpec letter).isSome = true) ∧ (digits ≠ [] → letter = 'e') := by
  induction spec using segments_induction with
  | nil => cases h
  | char c chars hc ih =>
    rw [segments_cons_of_ne hc, mem_cons] at h
    exact ih (h.resolve_left nofun)
  | percent chars ih =>
    rw [segments_percent_percent, mem_cons] at h
    exact ih (h.resolve_left nofun)
  | specifier chars digits' letter' hat ih =>
    rw [segments_specifier hat, mem_cons] at h
    cases h with
    | inl heq =>
      cases heq
      obtain ⟨hdecimal, -, hletter⟩ := specifierAt_eq_some hat
      exact ⟨hdecimal, hletter⟩
    | inr hmem => exact ih hmem
  | loose chars hhead hat ih =>
    rw [segments_loose hhead hat, mem_cons] at h
    exact ih (h.resolve_left nofun)

/-! ## The formatted text -/

/-- The text of the segments and the values left over. -/
def render : List Segment → List ConsoleFmt → List Char × List ConsoleFmt
  | [], values => ([], values)
  | .char c :: segments, values => ((render segments values).map (c :: ·) id)
  | .percent :: segments, values => ((render segments values).map ('%' :: ·) id)
  | .specifier digits letter :: segments, value :: values =>
    (render segments values).map (value (specOf digits letter) ++ ·) id
  | .specifier digits letter :: segments, [] =>
    (render segments []).map ((specOf digits letter).display ++ ·) id

theorem render_plain (text : List Char) (segments : List Segment) (values : List ConsoleFmt) :
    render (text.map .char ++ segments) values =
      (text ++ (render segments values).1, (render segments values).2) := by
  induction text with
  | nil => rfl
  | cons c text ih =>
    rw [map_cons, cons_append, render, ih]
    rfl

theorem takeString_zero (chars : List Char) :
    takeString 0 chars = (chars.takeWhile (· ≠ '%'), chars.dropWhile (· ≠ '%')) := by
  induction chars with
  | nil => rfl
  | cons c chars ih =>
    by_cases hc : c = '%'
    · simp [takeString, hc]
    · simp [takeString, hc, ih]

private theorem takeString_one (chars : List Char) : takeString 1 ('%' :: chars) =
    ('%' :: chars.takeWhile (· ≠ '%'), chars.dropWhile (· ≠ '%')) := by
  rw [takeString, if_pos rfl, takeString_zero]

theorem segments_eq_takeWhile (chars : List Char) : segments chars =
    (chars.takeWhile (· ≠ '%')).map .char ++ segments (chars.dropWhile (· ≠ '%')) := by
  have hplain : '%' ∉ chars.takeWhile (· ≠ '%') := by
    intro hmem
    have hne := all_eq_true.mp all_takeWhile _ hmem
    simp at hne
  rw [← segments_plain hplain, takeWhile_append_dropWhile]

/-- The pieces of a format string print its segments. -/
theorem formatSpec_eq_render {pieces : Nat} (h : spec.length ≤ pieces) (values : List ConsoleFmt) :
    formatSpec pieces spec values = render (segments spec) values := by
  induction pieces generalizing spec values with
  | zero =>
    rw [eq_nil_of_length_eq_zero (Nat.le_zero.mp h)]
    rfl
  | succ pieces ih =>
    cases spec with
    | nil => rfl
    | cons c chars =>
      rw [length_cons, Nat.add_le_add_iff_right] at h
      have hdrop (rest : List Char) :
          (rest.dropWhile (fun c => decide (c ≠ '%'))).length ≤ rest.length :=
        (dropWhile_sublist _).length_le
      by_cases hc : c = '%'
      · subst hc
        simp only [formatSpec, next, if_pos, argument_eq]
        by_cases hhead : chars.head? = some '%'
        · cases chars with
          | nil => cases hhead
          | cons c chars =>
            cases hhead
            rw [length_cons] at h
            have hrest := hdrop chars
            rw [segments_percent_percent, segments_eq_takeWhile chars, render, render_plain]
            simp only [head?_cons, if_true, takeString_one]
            rw [ih (by omega)]
            rfl
        · rw [if_neg hhead]
          cases hat : specifierAt chars with
          | none =>
            rw [segments_loose hhead hat, segments_eq_takeWhile chars, render, render_plain]
            simp only [takeString_one]
            rw [ih (Nat.le_trans (hdrop chars) h)]
            rfl
          | some found =>
            have hlength : (chars.drop (found.1.length + 1)).length ≤ pieces := by
              rw [length_drop]
              omega
            rw [segments_specifier hat]
            cases values with
            | nil =>
              simp only [ih hlength]
              rfl
            | cons value values =>
              simp only [ih hlength]
              rfl
      · rw [segments_eq_takeWhile, render_plain]
        have hrest : ((c :: chars).dropWhile (fun c => decide (c ≠ '%'))).length ≤ pieces := by
          rw [dropWhile_cons_of_pos (by simpa using hc)]
          exact Nat.le_trans (hdrop chars) h
        simp only [formatSpec, next, if_neg hc, takeString_zero]
        rw [ih hrest]

theorem renders_render (writeSpace : Bool) (segments : List Segment) (values : List ConsoleFmt) :
    Renders writeSpace segments values
      ((render segments values).1 ++ appendValues writeSpace (render segments values).2) := by
  induction segments generalizing values with
  | nil => exact .done values
  | cons segment segments ih =>
    cases segment with
    | char c => exact .char c (ih values)
    | percent => exact .percent (ih values)
    | specifier digits letter =>
      cases values with
      | nil =>
        rw [render, Prod.map_fst, append_assoc]
        exact .unfilled digits letter (ih [])
      | cons value values =>
        rw [render, Prod.map_fst, append_assoc]
        exact .filled digits letter value (ih values)

/-- The literal text, the values in the place of the specifiers and the values left over, for every
format string. -/
theorem renders_consoleFormat (spec : List Char) (values : List ConsoleFmt) :
    Renders (decide (spec ≠ [])) (segments spec) values (consoleFormat spec values) := by
  by_cases hnil : spec = []
  · subst hnil
    exact .done values
  · have hrenders := renders_render true (segments spec) values
    rw [consoleFormat, if_neg hnil, formatSpec_eq_render (Nat.le_refl _), decide_eq_true hnil]
    exact hrenders

/-! ## Format strings without values -/

/-- A segment as it stands in the format string, with an escaped percent sign unescaped. -/
def Segment.asIs : Segment → List Char
  | .char c => [c]
  | .percent => ['%']
  | .specifier digits letter => '%' :: (digits ++ [letter])

def Segment.shown : Segment → List Char
  | .char c => [c]
  | .percent => ['%']
  | .specifier digits letter => (specOf digits letter).display

private theorem unescape_percent (h : chars.head? ≠ some '%') :
    unescape ('%' :: chars) = '%' :: unescape chars := by
  rw [unescape]
  rintro rest - rfl
  exact h rfl

theorem unescape_eq_asIs (spec : List Char) :
    unescape spec = (segments spec).flatMap Segment.asIs := by
  induction spec using segments_induction with
  | nil => rfl
  | char c chars hc ih =>
    rw [segments_cons_of_ne hc, flatMap_cons, ← ih]
    exact unescape_plain (mt mem_singleton.mp (Ne.symm hc)) chars
  | percent chars ih =>
    rw [segments_percent_percent, flatMap_cons, ← ih]
    exact unescape.eq_1 chars
  | specifier chars digits letter hat ih =>
    obtain ⟨hdecimal, ⟨rest, rfl⟩, hletter⟩ := specifierAt_eq_some hat
    have hplain := percent_notMem_specifier hdecimal hletter
    have hdrop : (digits ++ letter :: rest).drop (digits.length + 1) = rest := by
      simp
    rw [hdrop] at ih
    rw [segments_specifier hat, hdrop, flatMap_cons, ← ih]
    have happend : digits ++ letter :: rest = (digits ++ [letter]) ++ rest := by simp
    have hhead : ((digits ++ [letter]) ++ rest).head? ≠ some '%' := by
      intro hhead
      cases hdigits : digits ++ [letter] with
      | nil => simp at hdigits
      | cons c text =>
        rw [hdigits] at hhead hplain
        cases hhead
        exact hplain mem_cons_self
    rw [happend, unescape_percent hhead, unescape_plain hplain]
    rfl
  | loose chars hhead hat ih =>
    rw [segments_loose hhead hat, flatMap_cons, ← ih]
    exact unescape_percent hhead

private theorem render_nil (segments : List Segment) :
    render segments [] = (segments.flatMap Segment.shown, []) := by
  induction segments with
  | nil => rfl
  | cons segment segments ih =>
    cases segment <;> rw [render, ih] <;> rfl

theorem consoleFormat_nil (spec : List Char) :
    consoleFormat spec [] = (segments spec).flatMap Segment.shown := by
  by_cases hnil : spec = []
  · subst hnil
    rfl
  · rw [consoleFormat, if_neg hnil, formatSpec_eq_render (Nat.le_refl _), render_nil]
    exact append_nil _

private theorem display_simpleSpec {spec : FormatSpec} (h : simpleSpec letter = some spec) :
    spec.display = ['%', letter] := by
  unfold simpleSpec at h
  split at h <;> cases h <;> rfl

theorem shown_of_digits_nil (h : (simpleSpec letter).isSome = true) :
    (Segment.specifier [] letter).shown = (Segment.specifier [] letter).asIs := by
  obtain ⟨spec, hspec⟩ := Option.isSome_iff_exists.mp h
  simp only [Segment.shown, Segment.asIs, specOf, hspec, if_true, Option.getD_some,
    display_simpleSpec hspec, nil_append]

/-- The number of a specifier is one that is read and printed as the same text. -/
def Readable (digits : List Char) : Prop := NoLeadingZero digits ∧ value digits < 2 ^ 64

theorem shown_of_digits (hdecimal : IsDecimal digits) (hne : digits ≠ []) :
    (Readable digits → (Segment.specifier digits 'e').shown = (Segment.specifier digits 'e').asIs) ∧
    (¬ Readable digits →
      (Segment.specifier digits 'e').shown.length <
        (Segment.specifier digits 'e').asIs.length) := by
  have hpos := length_pos_iff.mpr hne
  simp only [Segment.shown, Segment.asIs, specOf, parseUsize, if_neg hne]
  by_cases hlt : value digits < 2 ^ 64
  · rw [if_pos hlt]
    constructor
    · intro hreadable
      rw [FormatSpec.display, toDigits_value hdecimal hne hreadable.1]
    · intro hnot
      have hlength := length_toDigits_value_lt hdecimal fun hzero => hnot ⟨hzero, hlt⟩
      simp only [FormatSpec.display, length_cons, length_append]
      omega
  · rw [if_neg hlt]
    constructor
    · exact fun hreadable => absurd hreadable.2 hlt
    · intro _
      simp only [FormatSpec.display, length_cons, length_append]
      omega

theorem shown_eq_asIs_iff (h : .specifier digits letter ∈ segments spec) :
    (Segment.specifier digits letter).shown = (Segment.specifier digits letter).asIs ↔
      (digits ≠ [] → Readable digits) := by
  obtain ⟨hdecimal, hnil, hcons⟩ := isDecimal_of_specifier_mem h
  by_cases hne : digits = []
  · subst hne
    exact iff_of_true (shown_of_digits_nil (hnil rfl)) fun hne => absurd rfl hne
  rw [hcons hne]
  obtain ⟨hsame, hshorter⟩ := shown_of_digits hdecimal hne
  constructor
  · intro heq _
    by_contra hnot
    exact absurd (congrArg List.length heq) (Nat.ne_of_lt (hshorter hnot))
  · exact fun hreadable => hsame (hreadable hne)

private theorem length_shown_le {segment : Segment} (h : segment ∈ segments spec) :
    segment.shown.length ≤ segment.asIs.length := by
  cases segment with
  | char c => exact Nat.le_refl _
  | percent => exact Nat.le_refl _
  | specifier digits letter =>
    obtain ⟨hdecimal, hnil, hcons⟩ := isDecimal_of_specifier_mem h
    by_cases hne : digits = []
    · subst hne
      exact Nat.le_of_eq (congrArg List.length (shown_of_digits_nil (hnil rfl)))
    · rw [hcons hne]
      obtain ⟨hsame, hshorter⟩ := shown_of_digits hdecimal hne
      by_cases hreadable : Readable digits
      · exact Nat.le_of_eq (congrArg List.length (hsame hreadable))
      · exact Nat.le_of_lt (hshorter hreadable)

/-- Texts put together from parts that are no longer than the others are the same only part by
part. -/
theorem flatMap_eq_flatMap_iff {α β : Type*} {f g : α → List β} {parts : List α}
    (h : ∀ part ∈ parts, (f part).length ≤ (g part).length) :
    (parts.flatMap f).length ≤ (parts.flatMap g).length ∧
      (parts.flatMap f = parts.flatMap g ↔ ∀ part ∈ parts, f part = g part) := by
  induction parts with
  | nil => simp
  | cons part parts ih =>
    rw [forall_mem_cons] at h
    obtain ⟨hle, hiff⟩ := ih h.2
    rw [flatMap_cons, flatMap_cons, forall_mem_cons, ← hiff, length_append, length_append]
    refine ⟨Nat.add_le_add h.1 hle, ?_⟩
    constructor
    · intro heq
      have hlength := congrArg List.length heq
      rw [length_append, length_append] at hlength
      exact append_inj heq (by omega)
    · rintro ⟨hpart, hparts⟩
      rw [hpart, hparts]

theorem consoleFormat_nil_eq_unescape_iff (spec : List Char) :
    consoleFormat spec [] = unescape spec ↔ ∀ digits letter,
      .specifier digits letter ∈ segments spec → digits ≠ [] → Readable digits := by
  rw [consoleFormat_nil, unescape_eq_asIs, (flatMap_eq_flatMap_iff fun _ => length_shown_le).2]
  constructor
  · intro hsame digits letter hmem
    exact (shown_eq_asIs_iff hmem).mp (hsame _ hmem)
  · intro hreadable segment hmem
    cases segment with
    | char c => rfl
    | percent => rfl
    | specifier digits letter => exact (shown_eq_asIs_iff hmem).mpr (hreadable digits letter hmem)

/-- A format string is printed faithfully: without values as it stands, and with values as its
segments say. -/
def Faithful (spec : List Char) : Prop :=
  consoleFormat spec [] = unescape spec ∧
    ∀ values, Renders (decide (spec ≠ [])) (segments spec) values (consoleFormat spec values)

/-- A format string is printed faithfully where every number in it is one that the parser prints
back: without leading zeros and less than `2 ^ 64`. -/
theorem printedFaithfully_iff (spec : List Char) : Faithful spec ↔ ∀ digits letter,
    .specifier digits letter ∈ segments spec → digits ≠ [] →
      NoLeadingZero digits ∧ value digits < 2 ^ 64 :=
  (and_iff_left (renders_consoleFormat spec)).trans (consoleFormat_nil_eq_unescape_iff spec)

/-- `%007e` is printed as `%7e`. -/
theorem not_faithful_leading_zeros : ¬ ∀ spec, Faithful spec := by
  intro hall
  have hsame := (hall ['%', '0', '0', '7', 'e']).1
  revert hsame
  decide +kernel

end Foundry.Common.Console
