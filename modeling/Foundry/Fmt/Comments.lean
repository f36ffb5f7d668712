import Mathlib.Data.List.Basic

/-!
# Comments in a source text

The iterator of the formatter over the characters of a text, with the place that each has in a
comment, against the lexical rules of Solidity for texts without quotes.
-/

namespace Foundry.Fmt

inductive CommentState where
  /-- Character not in a comment. -/
  | none
  /-- First `/` in line comment start. -/
  | lineStart1
  /-- Second `/` in line comment start. -/
  | lineStart2
  /-- Character in a line comment. -/
  | line
  /-- `/` in block comment start. -/
  | blockStart1
  /-- `*` in block comment start. -/
  | blockStart2
  /-- Character in a block comment. -/
  | block
  /-- `*` in block comment end. -/
  | blockEnd1
  /-- `/` in block comment end. -/
  | blockEnd2
deriving DecidableEq

/-! ## The iterator -/

def CommentState.next (state : CommentState) (ch : Char) (peek : Option Char) : CommentState :=
  match state with
  | .none =>
    if ch = '/' then
      match peek with
      | some '/' => .lineStart1
      | some '*' => .blockStart1
      | _ => .none
    else .none
  | .lineStart1 => .lineStart2
  | .lineStart2 => .line
  | .line => if ch = '\n' then .none else .line
  | .blockStart1 => .blockStart2
  | .blockStart2 => .block
  | .block => if ch = '*' ∧ peek = some '/' then .blockEnd1 else .block
  | .blockEnd1 => .blockEnd2
  | .blockEnd2 => .none

def charStates (state : CommentState) : List Char → List (CommentState × Char)
  | [] => []
  | ch :: rest =>
    (state.next ch rest.head?, ch) :: charStates (state.next ch rest.head?) rest

/-- `comment_state_char_indices`; the indices are the places in the list. -/
def commentStateCharIndices (string : List Char) : List (CommentState × Char) :=
  charStates .none string

/-- `non_comment_chars`, and the text `trim_comments` collects from it. -/
def trimComments (string : List Char) : List Char :=
  ((commentStateCharIndices string).filter fun entry => entry.1 = .none).map Prod.snd

/-! ## The lexical rules -/

inductive Lexing where
  | code
  | lineComment
  | blockComment

/-- The characters that end a line comment: the newline, and others if there are any. -/
def EndsLine (others : Char → Bool) (ch : Char) : Prop := ch = '\n' ∨ others ch = true

instance (others : Char → Bool) (ch : Char) : Decidable (EndsLine others ch) :=
  inferInstanceAs (Decidable (_ ∨ _))

/-- The characters of a text by the lexical rules, each with its place in a comment. -/
def lex (others : Char → Bool) : Lexing → List Char → List (CommentState × Char)
  | _, [] => []
  | .code, '/' :: '/' :: rest =>
    (.lineStart1, '/') :: (.lineStart2, '/') :: lex others .lineComment rest
  | .code, '/' :: '*' :: rest =>
    (.blockStart1, '/') :: (.blockStart2, '*') :: lex others .blockComment rest
  | .code, ch :: rest => (.none, ch) :: lex others .code rest
  | .lineComment, ch :: rest =>
    if EndsLine others ch then (.none, ch) :: lex others .code rest
    else (.line, ch) :: lex others .lineComment rest
  | .blockComment, '*' :: '/' :: rest =>
    (.blockEnd1, '*') :: (.blockEnd2, '/') :: lex others .code rest
  | .blockComment, ch :: rest => (.block, ch) :: lex others .blockComment rest

def StartsComment : List Char → Prop
  | '/' :: '/' :: _ | '/' :: '*' :: _ => True
  | _ => False

/-- No line comment is empty or ends with another character than a newline, no block comment is
empty, and no comment follows a block comment directly. -/
def Spaced (others : Char → Bool) : Lexing → List Char → Prop
  | _, [] => True
  | .code, '/' :: '/' :: rest =>
    (∀ ch tail, rest = ch :: tail → ¬ EndsLine others ch) ∧ Spaced others .lineComment rest
  | .code, '/' :: '*' :: rest =>
    (∀ tail, rest ≠ '*' :: '/' :: tail) ∧ Spaced others .blockComment rest
  | .code, _ :: rest => Spaced others .code rest
  | .lineComment, ch :: rest =>
    if EndsLine others ch then ch = '\n' ∧ Spaced others .code rest
    else Spaced others .lineComment rest
  | .blockComment, '*' :: '/' :: rest => ¬ StartsComment rest ∧ Spaced others .code rest
  | .blockComment, _ :: rest => Spaced others .blockComment rest

def Lexing.state : Lexing → CommentState
  | .code => .none
  | .lineComment => .line
  | .blockComment => .block

variable (others : Char → Bool) (rest : List Char)

/-- After the start of a line comment the next character is taken for a part of it. -/
theorem charStates_lineStart2_iff :
    charStates .lineStart2 rest = lex others .lineComment rest ↔
      (∀ ch tail, rest = ch :: tail → ¬ EndsLine others ch) ∧
        charStates .line rest = lex others .lineComment rest := by
  cases rest with
  | nil => simp [charStates]
  | cons ch tail =>
    by_cases hends : EndsLine others ch
    · constructor
      · intro h
        simp [charStates, CommentState.next, lex, hends] at h
      · intro h
        exact absurd hends (h.1 ch tail rfl)
    have hline : ch ≠ '\n' := fun heq => hends (.inl heq)
    have hsame : charStates .lineStart2 (ch :: tail) = charStates .line (ch :: tail) := by
      simp [charStates, CommentState.next, hline]
    rw [hsame]
    refine ⟨fun h => ⟨?_, h⟩, fun h => h.2⟩
    rintro _ _ ⟨⟩
    exact hends

private theorem charStates_blockStart2_iff :
    charStates .blockStart2 rest = lex others .blockComment rest ↔
      (∀ tail, rest ≠ '*' :: '/' :: tail) ∧
        charStates .block rest = lex others .blockComment rest := by
  by_cases hends : ∃ tail, rest = '*' :: '/' :: tail
  · obtain ⟨tail, rfl⟩ := hends
    constructor
    · intro h
      simp [charStates, CommentState.next, lex] at h
    · intro h
      exact absurd rfl (h.1 tail)
  have hsame : charStates .blockStart2 rest = charStates .block rest := by
    cases rest with
    | nil => rfl
    | cons ch tail =>
      have hnot : ¬ (ch = '*' ∧ tail.head? = some '/') := by
        rintro ⟨rfl, hhead⟩
        obtain ⟨more, rfl⟩ := List.head?_eq_some_iff.mp hhead
        exact hends ⟨more, rfl⟩
      simp [charStates, CommentState.next, hnot]
  rw [hsame]
  exact ⟨fun h => ⟨fun tail htail => hends ⟨tail, htail⟩, h⟩, fun h => h.2⟩

theorem next_none_of_not_starts {ch : Char} {tail : List Char}
    (h : ¬ StartsComment (ch :: tail)) : CommentState.next .none ch tail.head? = .none := by
  unfold CommentState.next
  dsimp only
  split
  · next heq =>
    subst heq
    split
    · next hhead =>
      obtain ⟨more, rfl⟩ := List.head?_eq_some_iff.mp hhead
      exact absurd trivial h
    · next hhead =>
      obtain ⟨more, rfl⟩ := List.head?_eq_some_iff.mp hhead
      exact absurd trivial h
    · rfl
  · rfl

private theorem charStates_blockEnd2_iff :
    charStates .blockEnd2 rest = lex others .code rest ↔
      ¬ StartsComment rest ∧ charStates .none rest = lex others .code rest := by
  by_cases hstarts : StartsComment rest
  · constructor
    · intro h
      unfold StartsComment at hstarts
      split at hstarts
      · simp [charStates, CommentState.next, lex] at h
      · simp [charStates, CommentState.next, lex] at h
      · exact absurd hstarts id
    · intro h
      exact absurd hstarts h.1
  · have hsame : charStates .blockEnd2 rest = charStates .none rest := by
      cases rest with
      | nil => rfl
      | cons ch tail =>
        rw [charStates, charStates, next_none_of_not_starts hstarts]
        rfl
    rw [hsame]
    exact ⟨fun h => ⟨hstarts, h⟩, fun h => h.2⟩

/-- The iterator gives the characters their places by the rules just if the text is spaced. -/
theorem charStates_eq_lex_iff (others : Char → Bool) (mode : Lexing) (text : List Char) :
    charStates mode.state text = lex others mode text ↔ Spaced others mode text := by
  fun_induction lex others mode text with
  | case1 mode => simp [charStates, Spaced]
  | case2 rest ih =>
    rw [Spaced, ← ih]
    refine Iff.trans ?_ (charStates_lineStart2_iff others rest)
    simp [charStates, CommentState.next, Lexing.state]
  | case3 rest ih =>
    rw [Spaced, ← ih]
    refine Iff.trans ?_ (charStates_blockStart2_iff others rest)
    simp [charStates, CommentState.next, Lexing.state]
  | case4 ch rest hline hblock ih =>
    have hstarts : ¬ StartsComment (ch :: rest) := by
      unfold StartsComment
      split
      · next tail heq =>
        cases heq
        exact fun _ => hline tail rfl rfl
      · next tail heq =>
        cases heq
        exact fun _ => hblock tail rfl rfl
      · exact id
    rw [Spaced.eq_4 others ch rest hline hblock, ← ih, Lexing.state, charStates,
      next_none_of_not_starts hstarts, List.cons.injEq]
    exact and_iff_right rfl
  | case5 ch rest hends ih =>
    rw [Spaced, if_pos hends, ← ih, charStates]
    by_cases hnewline : ch = '\n'
    · simp [CommentState.next, hnewline, Lexing.state]
    · simp [CommentState.next, hnewline, Lexing.state]
  | case6 ch rest hends ih =>
    have hnewline : ch ≠ '\n' := fun heq => hends (.inl heq)
    rw [Spaced, if_neg hends, ← ih]
    simp [charStates, CommentState.next, Lexing.state, hnewline]
  | case7 rest ih =>
    rw [Spaced, ← ih]
    refine Iff.trans ?_ (charStates_blockEnd2_iff others rest)
    simp [charStates, CommentState.next, Lexing.state]
  | case8 ch rest hends ih =>
    have hnot : ¬ (ch = '*' ∧ rest.head? = some '/') := by
      rintro ⟨rfl, hhead⟩
      obtain ⟨tail, rfl⟩ := List.head?_eq_some_iff.mp hhead
      exact hends tail rfl rfl
    rw [Spaced.eq_7 others ch rest hends, ← ih]
    simp [charStates, CommentState.next, Lexing.state, hnot]

/-- The iterator reports the comments of a text, the text without comments is what remains, and each
comment begins and ends where it does. -/
structure FindsComments (others : Char → Bool) (text : List Char) : Prop where
  reports : (commentStateCharIndices text).map (fun entry => decide (entry.1 ≠ .none)) =
    (lex others .code text).map fun entry => decide (entry.1 ≠ .none)
  trims : trimComments text =
    ((lex others .code text).filter fun entry => entry.1 = .none).map Prod.snd
  delimits : commentStateCharIndices text = lex others .code text

/-- Comments are found just in the texts without empty comments (a line comment at the end of the
text apart) and comments directly after block comments. -/
theorem findsComments_iff (others : Char → Bool) (text : List Char) :
    FindsComments others text ↔ Spaced others .code text := by
  rw [← charStates_eq_lex_iff]
  constructor
  · exact fun h => h.delimits
  · intro h
    have hstates : commentStateCharIndices text = lex others .code text := h
    exact ⟨by rw [hstates], by rw [trimComments, hstates], hstates⟩

/-- A line after an empty line comment is taken for a comment. -/
theorem not_findsComments_empty :
    ¬ ∀ text, '\x22' ∉ text → '\x27' ∉ text → FindsComments (fun _ => false) text := by
  intro h
  have hreports := (h ['/', '/', '\n', 'x'] (by decide) (by decide)).reports
  exact absurd hreports (by decide)

end Foundry.Fmt
