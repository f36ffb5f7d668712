import Foundry.Fuzz.Dictionary

/-!
# Matching bytecodes

`forge verify-bytecode` compares a local code with the one on chain.  Constructor arguments are cut
off the ends of both by their length, and metadata is located from the two bytes at the end.
-/

namespace Foundry.Verify

open Common Fuzz.FuzzDictionary List

inductive VerificationType where
  | full
  | partialMatch
deriving DecidableEq

inductive BytecodeHash where
  | ipfs
  | none
  | bzzr1
deriving DecidableEq

section Match

variable (isCbor : Bytes → Bool)

def tryExtractAndCompareBytecode (localBytecode bytecode : Bytes) : Bool :=
  ignoreMetadataHash isCbor localBytecode == ignoreMetadataHash isCbor bytecode

def front (args code : Bytes) : Bytes := code.take (code.length - args.length)

/-- A difference of lengths below zero panics, which is `none`. -/
def isPartialMatch (localBytecode bytecode constructorArgs : Bytes) (isRuntime : Bool) :
    Option Bool :=
  if constructorArgs.isEmpty || isRuntime then
    some (tryExtractAndCompareBytecode isCbor localBytecode bytecode)
  else if constructorArgs.length ≤ bytecode.length ∧
      constructorArgs.length ≤ localBytecode.length then
    some (tryExtractAndCompareBytecode isCbor (front constructorArgs localBytecode)
      (front constructorArgs bytecode))
  else none

def matchBytecodes (localBytecode bytecode constructorArgs : Bytes) (isRuntime : Bool)
    (bytecodeHash : BytecodeHash) : Option (Option VerificationType) :=
  if localBytecode = bytecode then
    if bytecodeHash = .none then some (some .partialMatch) else some (some .full)
  else
    (isPartialMatch isCbor localBytecode bytecode constructorArgs isRuntime).map fun matched =>
      if matched then some .partialMatch else none

/-! ## What a match should mean -/

/-- After `rest` come metadata and, in two bytes, their length. -/
def EndsInMetadata (code rest : Bytes) : Prop :=
  ∃ metadata high low, isCbor metadata = true ∧
    metadata.length = 256 * high.toNat + low.toNat ∧ code = rest ++ metadata ++ [high, low]

/-- What is left of the code without metadata at its end. -/
def Drops (code rest : Bytes) : Prop :=
  EndsInMetadata isCbor code rest ∨ rest = code ∧ ∀ rest, ¬ EndsInMetadata isCbor code rest

def Agree (code code' : Bytes) : Prop := ∃ rest, Drops isCbor code rest ∧ Drops isCbor code' rest

/-- Codes that match agree up to their metadata, in front of the arguments that both end with. -/
def Justified (code code' args : Bytes) (isRuntime : Bool) : Prop :=
  if isRuntime ∨ args = [] then Agree isCbor code code'
  else ∃ front front', code = front ++ args ∧ code' = front' ++ args ∧ Agree isCbor front front'

/-- There is an answer, a full match is one of identical codes, and every match is justified. -/
def Sound (code code' args : Bytes) (isRuntime : Bool) (bytecodeHash : BytecodeHash) : Prop :=
  ∃ answer, matchBytecodes isCbor code code' args isRuntime bytecodeHash = some answer ∧
    (answer = some .full → code = code') ∧
    (answer.isSome → Justified isCbor code code' args isRuntime)

end Match

variable {isCbor : Bytes → Bool} {code code' rest args : Bytes} {isRuntime : Bool}

/-! ## Metadata -/

theorem findMetadataStart_append (body : Bytes) (high low : BitVec 8) :
    findMetadataStart isCbor (body ++ [high, low]) =
      let length := 256 * high.toNat + low.toNat
      if body.length < length then none
      else if isCbor (body.drop (body.length - length)) then some (body.length - length)
      else none := by
  simp [findMetadataStart]

theorem findMetadataStart_of_ends (h : EndsInMetadata isCbor code rest) :
    findMetadataStart isCbor code = some rest.length := by
  obtain ⟨metadata, high, low, hcbor, hlength, rfl⟩ := h
  rw [findMetadataStart_append, ← hlength]
  simp [hcbor]

theorem ends_of_findMetadataStart {start : Nat} (h : findMetadataStart isCbor code = some start) :
    EndsInMetadata isCbor code (code.take start) := by
  have hlong : 2 ≤ code.length := by
    by_contra hshort
    simp [findMetadataStart, hshort] at h
  obtain ⟨body, last, rfl, hlast⟩ : ∃ body last, code = body ++ last ∧ last.length = 2 :=
    ⟨code.take (code.length - 2), code.drop (code.length - 2), by simp, by simp; omega⟩
  obtain ⟨high, low, rfl⟩ := length_eq_two.mp hlast
  simp [findMetadataStart_append] at h
  obtain ⟨hle, hcbor, rfl⟩ := h
  refine ⟨_, high, low, hcbor, by simp; omega, ?_⟩
  rw [take_append_of_le_length (by omega), take_append_drop]

theorem drops_iff : Drops isCbor code rest ↔ ignoreMetadataHash isCbor code = rest := by
  cases hstart : findMetadataStart isCbor code with
  | none =>
    have hnone : ∀ rest, ¬ EndsInMetadata isCbor code rest := by
      intro rest h
      simp [findMetadataStart_of_ends h] at hstart
    simp [Drops, hnone, ignoreMetadataHash, hstart, eq_comm]
  | some start =>
    have hends := ends_of_findMetadataStart hstart
    simp only [ignoreMetadataHash, hstart]
    constructor
    · rintro (h | ⟨-, hnone⟩)
      · rw [findMetadataStart_of_ends h] at hstart
        obtain ⟨metadata, high, low, -, -, rfl⟩ := h
        simp [← Option.some.inj hstart]
      · exact absurd hends (hnone _)
    · rintro rfl
      exact .inl hends

theorem agree_iff :
    Agree isCbor code code' ↔ tryExtractAndCompareBytecode isCbor code code' = true := by
  simp only [Agree, drops_iff, tryExtractAndCompareBytecode, beq_iff_eq]
  exact ⟨fun ⟨_, hrest, hrest'⟩ => hrest.trans hrest'.symm, fun heq => ⟨_, rfl, heq.symm⟩⟩

theorem agree_refl : Agree isCbor code code := by
  simp [agree_iff, tryExtractAndCompareBytecode]

/-! ## Matches -/

theorem justified_iff (hplain : ¬ (isRuntime ∨ args = [])) :
    Justified isCbor code code' args isRuntime ↔
      args <:+ code ∧ args <:+ code' ∧ Agree isCbor (front args code) (front args code') := by
  rw [Justified, if_neg hplain]
  constructor
  · rintro ⟨code, code', rfl, rfl, hagree⟩
    simpa [front] using hagree
  · rintro ⟨⟨code, rfl⟩, ⟨code', rfl⟩, hagree⟩
    exact ⟨code, code', rfl, rfl, by simpa [front] using hagree⟩

/-- Whatever the settings, codes match if they are identical or match in part. -/
theorem sound_iff_matched (bytecodeHash : BytecodeHash) :
    Sound isCbor code code' args isRuntime bytecodeHash ↔
      if code = code' then Justified isCbor code code' args isRuntime
      else ∃ matched, isPartialMatch isCbor code code' args isRuntime = some matched ∧
        (matched = true → Justified isCbor code code' args isRuntime) := by
  unfold Sound matchBytecodes
  split
  · next heq => cases bytecodeHash <;> simp [heq]
  · cases isPartialMatch isCbor code code' args isRuntime with
    | none => simp
    | some matched => cases matched <;> simp

/-- A match is sound for code without arguments, for codes that both end with the arguments, and
where the codes differ even without as many bytes at the end. -/
theorem sound_iff (isCbor : Bytes → Bool) (code code' args : Bytes) (isRuntime : Bool)
    (bytecodeHash : BytecodeHash) :
    Sound isCbor code code' args isRuntime bytecodeHash ↔
      isRuntime ∨ args = [] ∨ args <:+ code ∧ args <:+ code' ∨
      args.length ≤ code.length ∧ args.length ≤ code'.length ∧
        ¬ Agree isCbor (front args code) (front args code') := by
  rw [sound_iff_matched, ← or_assoc]
  by_cases hplain : isRuntime ∨ args = []
  · have hmatch : (args.isEmpty || isRuntime) = true := by simpa using hplain.symm
    rw [isPartialMatch, if_pos hmatch, Justified, if_pos hplain, agree_iff]
    split
    · next heq => simp [hplain, heq, ← agree_iff, agree_refl]
    · simp [hplain]
  · have hmatch : ¬ (args.isEmpty || isRuntime) = true := by simpa [or_comm] using hplain
    have hle : args <:+ code → args.length ≤ code.length := IsSuffix.length_le
    have hle' : args <:+ code' → args.length ≤ code'.length := IsSuffix.length_le
    rw [isPartialMatch, if_neg hmatch, justified_iff hplain, or_iff_right hplain]
    split
    · next heq => simp [heq, agree_refl]
    · split
      · simp only [Option.some.injEq, exists_eq_left', ← agree_iff]
        tauto
      · simp only [reduceCtorEq, false_and, exists_false, false_iff]
        tauto

/-- The arguments are cut off by their length and never compared. -/
theorem not_sound_other_args : ¬ Sound (fun _ => false) [7, 1] [7, 2] [1] false .ipfs := by
  intro hsound
  rw [sound_iff_matched, if_neg (by decide), justified_iff (by decide)] at hsound
  obtain ⟨matched, hmatched, hjustified⟩ := hsound
  have hargs := (hjustified (Option.some.inj hmatched).symm).2.1
  exact absurd hargs (by decide)

/-- Codes in front of the same arguments match just if they agree up to their metadata. -/
theorem matchBytecodes_append_iff (isCbor : Bytes → Bool) (code code' args : Bytes)
    (bytecodeHash : BytecodeHash) :
    (∃ type, matchBytecodes isCbor (code ++ args) (code' ++ args) args false bytecodeHash =
      some (some type)) ↔ Agree isCbor code code' := by
  unfold matchBytecodes
  split
  · next heq =>
    rw [append_cancel_right heq]
    cases bytecodeHash <;> simp [agree_refl]
  · have hmatch : isPartialMatch isCbor (code ++ args) (code' ++ args) args false =
        some (tryExtractAndCompareBytecode isCbor code code') := by
      cases args <;> simp [isPartialMatch, front]
    simp [hmatch, agree_iff]

end Foundry.Verify
