import Foundry.Evm.InstructionMaps

/-!
# Unlinked bytecode as text

The code of a contract with open library addresses is a text: two hex digits for a byte, and a
placeholder of forty characters for the twenty bytes of an address.  Stripping the placeholders is
meant to put zeros in their place without moving the bytes behind them, so that the positions of
the instructions are those of the linked code.
-/

namespace Foundry.Common

open List

/-! ## Hex -/

def hexDigit? (c : Char) : Option Nat :=
  if '0' ≤ c ∧ c ≤ '9' then some (c.toNat - '0'.toNat)
  else if 'a' ≤ c ∧ c ≤ 'f' then some (c.toNat - 'a'.toNat + 10)
  else if 'A' ≤ c ∧ c ≤ 'F' then some (c.toNat - 'A'.toNat + 10)
  else none

def hexByte? (high low : Char) : Option (BitVec 8) :=
  (hexDigit? high).bind fun h => (hexDigit? low).map fun l => BitVec.ofNat 8 (16 * h + l)

def hexPairs : List Char → Option Bytes
  | [] => some []
  | [_] => none
  | high :: low :: text =>
    (hexByte? high low).bind fun byte => (hexPairs text).map (byte :: ·)

/-- `hex::decode`, which also takes a text that starts with `0x`. -/
def hexDecode : List Char → Option Bytes
  | '0' :: 'x' :: text => hexPairs text
  | text => hexPairs text

/-! ## Placeholders -/

inductive BytecodeObject where
  | bytecode (bytes : Bytes)
  | unlinked (text : List Char)
deriving DecidableEq

def opening : List Char := ['_', '_', '$']
def closing : List Char := ['$', '_', '_']

/-- Whether the pattern of `BYTECODE_PLACEHOLDER_RE`, which is `__\$.{34}\$__`, matches at the start
of a text.  The dot stands for every character but a line break. -/
def placeholderAt (text : List Char) : Bool :=
  let inner := (text.drop 3).take 34
  text.take 3 == opening && inner.length == 34 && !inner.contains '\n' &&
    (text.drop 37).take 3 == closing

/-- `"00".repeat(40)`. -/
def replacement : List Char := (List.replicate 40 ['0', '0']).flatten

/-- `replace_all`, from left to right; the first `skip` characters belong to a match. -/
def replaceAllFrom : Nat → List Char → List Char
  | _, [] => []
  | 0, c :: text =>
    if placeholderAt (c :: text) then replacement ++ replaceAllFrom 39 text
    else c :: replaceAllFrom 0 text
  | skip + 1, _ :: text => replaceAllFrom skip text

def stripBytecodePlaceholders : BytecodeObject → Option Bytes
  | .bytecode bytes => some bytes
  | .unlinked text => hexDecode (replaceAllFrom 0 text)

/-! ## What the text stands for -/

variable {layout : List (Option (BitVec 8))} {text : List Char}

/-- The bytes of a text of digits and placeholders; the twenty bytes of an address are open. -/
inductive Layout : List Char → List (Option (BitVec 8)) → Prop
  | nil : Layout [] []
  | byte {high low : Char} {byte : BitVec 8} {text : List Char}
      {layout : List (Option (BitVec 8))} :
      hexByte? high low = some byte → Layout text layout →
      Layout (high :: low :: text) (some byte :: layout)
  | placeholder {inner text : List Char} {layout : List (Option (BitVec 8))} :
      inner.length = 34 → '\n' ∉ inner → Layout text layout →
      Layout (opening ++ inner ++ closing ++ text) (List.replicate 20 none ++ layout)

/-- A code that the text becomes when addresses are put in. -/
def LinkedAs (layout : List (Option (BitVec 8))) (linked : Bytes) : Prop :=
  List.Forall₂ (fun slot byte => ∀ value, slot = some value → byte = value) layout linked

theorem Layout.length_eq (h : Layout text layout) : text.length = 2 * layout.length := by
  induction h with
  | nil => rfl
  | byte _ _ ih =>
    simp only [length_cons]
    omega
  | placeholder hlength _ _ ih =>
    simp only [length_append, length_replicate]
    simp only [opening, closing, length_cons, length_nil]
    omega

/-! ## The replacement -/

theorem placeholderAt_of_digit {c : Char} (h : (hexDigit? c).isSome) (text : List Char) :
    placeholderAt (c :: text) = false := by
  have hne : c ≠ '_' := by
    rintro rfl
    exact absurd h (by decide)
  simp [placeholderAt, opening, hne]

theorem placeholderAt_placeholder {inner : List Char} (hlength : inner.length = 34)
    (hbreak : '\n' ∉ inner) (text : List Char) :
    placeholderAt (opening ++ inner ++ closing ++ text) = true := by
  have hclosing : ((opening ++ inner ++ closing ++ text).drop 37).take 3 = closing := by
    simp [opening, closing, hlength]
  rw [placeholderAt, hclosing]
  simp [opening, hlength, hbreak]

private theorem replaceAllFrom_skip (front text : List Char) :
    replaceAllFrom front.length (front ++ text) = replaceAllFrom 0 text := by
  induction front with
  | nil => rfl
  | cons c front ih => rw [length_cons, cons_append, replaceAllFrom, ih]

private theorem isSome_hexDigit?_of_hexByte? {high low : Char} {byte : BitVec 8}
    (h : hexByte? high low = some byte) :
    (hexDigit? high).isSome ∧ (hexDigit? low).isSome := by
  unfold hexByte? at h
  cases hhigh : hexDigit? high with
  | none => simp [hhigh] at h
  | some _ =>
    cases hlow : hexDigit? low with
    | none => simp [hlow] at h
    | some _ => exact ⟨rfl, rfl⟩

/-- What stands for the bytes of a text in the stripped code: two zeros for every open byte. -/
def stripped (layout : List (Option (BitVec 8))) : Bytes :=
  layout.flatMap fun slot =>
    match slot with
    | some value => [value]
    | none => [0, 0]

private theorem hexPairs_zeros (n : Nat) {bytes : Bytes} (h : hexPairs text = some bytes) :
    hexPairs ((List.replicate n ['0', '0']).flatten ++ text) =
      some (List.replicate n 0 ++ bytes) := by
  induction n with
  | zero => exact h
  | succ n ih =>
    rw [replicate_succ, flatten_cons, append_assoc, cons_append,
      cons_append, hexPairs, nil_append, ih]
    rfl

theorem stripped_open (n : Nat) (layout : List (Option (BitVec 8))) :
    stripped (List.replicate n none ++ layout) = List.replicate (2 * n) 0 ++ stripped layout := by
  induction n with
  | zero => simp
  | succ n ih =>
    rw [Nat.mul_succ, replicate_succ, replicate_succ, replicate_succ,
      cons_append, cons_append, cons_append, ← ih]
    rfl

theorem hexPairs_replaceAllFrom (h : Layout text layout) :
    hexPairs (replaceAllFrom 0 text) = some (stripped layout) := by
  induction h with
  | nil => rfl
  | byte hbyte _ ih =>
    obtain ⟨hhigh, hlow⟩ := isSome_hexDigit?_of_hexByte? hbyte
    rw [replaceAllFrom, placeholderAt_of_digit hhigh, if_neg Bool.false_ne_true, replaceAllFrom,
      placeholderAt_of_digit hlow, if_neg Bool.false_ne_true, hexPairs, hbyte, ih]
    rfl
  | @placeholder inner text layout hlength hbreak _ ih =>
    have hfront : opening ++ inner ++ closing ++ text =
        '_' :: (('_' :: '$' :: inner ++ closing) ++ text) := by
      simp [opening]
    have hlen : ('_' :: '$' :: inner ++ closing).length = 39 := by
      simp [closing, hlength]
    have hskip := replaceAllFrom_skip ('_' :: '$' :: inner ++ closing) text
    have hmatch := placeholderAt_placeholder hlength hbreak text
    rw [hlen] at hskip
    rw [hfront] at hmatch ⊢
    rw [replaceAllFrom, hmatch, if_pos rfl, hskip, replacement, hexPairs_zeros 40 ih, stripped_open]

theorem stripBytecodePlaceholders_eq (h : Layout text layout) :
    stripBytecodePlaceholders (.unlinked text) = some (stripped layout) := by
  have hpairs := hexPairs_replaceAllFrom h
  unfold stripBytecodePlaceholders hexDecode
  dsimp only
  split
  · next heq =>
    rw [heq] at hpairs
    cases hpairs
  · exact hpairs

theorem length_stripped (layout : List (Option (BitVec 8))) :
    (stripped layout).length = layout.length + layout.count none := by
  induction layout with
  | nil => rfl
  | cons slot layout ih =>
    cases slot with
    | none =>
      rw [count_cons_self, length_cons]
      change (stripped layout).length + 2 = _
      omega
    | some value =>
      rw [count_cons_of_ne (by simp), length_cons]
      change (stripped layout).length + 1 = _
      omega

theorem stripped_of_closed (h : none ∉ layout) : stripped layout = layout.map (·.getD 0) := by
  induction layout with
  | nil => rfl
  | cons slot layout ih =>
    rw [mem_cons, not_or] at h
    cases slot with
    | none => exact absurd rfl h.1
    | some value =>
      rw [map_cons, ← ih h.2]
      rfl

theorem linkedAs_of_closed (h : none ∉ layout) {linked : Bytes} (hlinked : LinkedAs layout linked) :
    linked = layout.map (·.getD 0) := by
  induction hlinked with
  | nil => rfl
  | @cons slot byte layout linked hslot _ ih =>
    rw [mem_cons, not_or] at h
    cases slot with
    | none => exact absurd rfl h.1
    | some value => rw [map_cons, ← ih h.2, hslot value rfl, Option.getD_some]

/-- A placeholder becomes forty zeros instead of twenty, so that the code has the length of the
text and the instructions of the linked code only if there is no placeholder. -/
theorem strip_keeps_offsets_iff (text : List Char) (layout : List (Option (BitVec 8)))
    (h : Layout text layout) :
    (∃ bytes, stripBytecodePlaceholders (.unlinked text) = some bytes ∧
        bytes.length = text.length / 2 ∧ bytes = layout.map (·.getD 0) ∧
        ∀ linked, LinkedAs layout linked →
          Evm.InstructionMaps.pcIcMap bytes = Evm.InstructionMaps.pcIcMap linked ∧
          Evm.InstructionMaps.icPcMap bytes = Evm.InstructionMaps.icPcMap linked) ↔
      none ∉ layout := by
  have hlength := h.length_eq
  constructor
  · intro ⟨bytes, hbytes, hhalf, _⟩ hopen
    rw [stripBytecodePlaceholders_eq h] at hbytes
    cases hbytes
    have hcount := count_pos_iff.mpr hopen
    rw [length_stripped] at hhalf
    omega
  · intro hclosed
    have hstripped := stripped_of_closed hclosed
    refine ⟨stripped layout, stripBytecodePlaceholders_eq h, ?_, hstripped,
      fun linked hlinked => ?_⟩
    · rw [hstripped, length_map]
      omega
    · rw [linkedAs_of_closed hclosed hlinked, hstripped]
      exact ⟨rfl, rfl⟩

def pushLibrary : List Char :=
  ['7', '3'] ++ (opening ++ List.replicate 34 'a' ++ closing ++ ['0', '0'])

private theorem layout_pushLibrary :
    Layout pushLibrary (some 0x73 :: (List.replicate 20 none ++ [some 0])) :=
  .byte (by decide) (.placeholder (by decide) (by decide) (.byte (by decide) .nil))

/-- `PUSH1` with its operand, then `STOP`. -/
theorem strip_keeps_offsets_push :
    ∃ bytes, stripBytecodePlaceholders (.unlinked ['6', '0', '8', '0', '0', '0']) = some bytes ∧
      bytes.length = 3 ∧ bytes = [0x60, 0x80, 0x00] ∧
      ∀ linked, LinkedAs [some 0x60, some 0x80, some 0x00] linked →
        Evm.InstructionMaps.pcIcMap bytes = Evm.InstructionMaps.pcIcMap linked ∧
        Evm.InstructionMaps.icPcMap bytes = Evm.InstructionMaps.icPcMap linked :=
  (strip_keeps_offsets_iff ['6', '0', '8', '0', '0', '0'] [some 0x60, some 0x80, some 0x00]
    (.byte (by decide) (.byte (by decide) (.byte (by decide) .nil)))).mpr (by decide)

/-- The code after a placeholder moves by twenty bytes. -/
theorem strip_moves_offsets :
    ¬ ∀ (text : List Char) (layout : List (Option (BitVec 8))), Layout text layout →
      ∃ bytes, stripBytecodePlaceholders (.unlinked text) = some bytes ∧
        bytes.length = text.length / 2 ∧ bytes = layout.map (·.getD 0) ∧
        ∀ linked, LinkedAs layout linked →
          Evm.InstructionMaps.pcIcMap bytes = Evm.InstructionMaps.pcIcMap linked ∧
          Evm.InstructionMaps.icPcMap bytes = Evm.InstructionMaps.icPcMap linked := by
  intro h
  obtain ⟨bytes, hbytes, hlength, _⟩ := h _ _ layout_pushLibrary
  cases hbytes
  exact absurd hlength (by decide)

end Foundry.Common
