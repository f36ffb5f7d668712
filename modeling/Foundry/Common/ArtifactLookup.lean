import Foundry.Base.Ranges
import Foundry.Common.BytecodeText
import Mathlib.Data.List.Sort

/-!
# Looking up an artifact by its deployed code

`find_by_deployed_code_exact` compares a code with the deployed code of every artifact, except for
ranges that are only known at deployment: immutables, library addresses, the address in the call
protection of a library, and the metadata at the end.  The ranges are sorted, and the code between
them is compared with slices from the end of one range to the start of the next.  A slice with its
ends in the wrong order panics, which is `none`.

The parser of the metadata is a parameter.  The text of unlinked code is of ASCII characters, so
that a character is a byte of it.
-/

namespace Foundry.Common

open Ranges List Option

/-! ## The lookup -/

/-- The `u32` fields `start` and `length`. -/
abbrev Offsets := Range

/-- The references are those of all immutables, and of all libraries of all files. -/
structure BytecodeData where
  object : Option BytecodeObject
  linkReferences : List (List (List Offsets))
  immutableReferences : List (List Offsets)
deriving DecidableEq

structure ContractData where
  deployedBytecode : Option BytecodeData
deriving DecidableEq

def ContractData.deployed? (contract : ContractData) : Option (BytecodeData × BytecodeObject) :=
  contract.deployedBytecode.bind fun bytecode =>
    bytecode.object.map fun object => (bytecode, object)

/-- `CALL_PROTECTION_BYTECODE_PREFIX`. -/
def callProtectionBytecode : Bytes := 0x73 :: List.replicate 20 0

/-- `list[left..right]`. -/
def slice {α : Type} (list : List α) (left right : Nat) : Option (List α) :=
  if left ≤ right ∧ right ≤ list.length then some ((list.drop left).take (right - left)) else none

def BytecodeObject.byteLength : BytecodeObject → Nat
  | .bytecode bytes => bytes.length
  | .unlinked text => text.length / 2

/-- A test of the bytes of a text; false if it is not hex. -/
def decodesTo (text : List Char) (test : Bytes → Option Bool) : Option Bool :=
  match hexDecode text with
  | some bytes => test bytes
  | none => some false

def hasCallProtection : BytecodeObject → Option Bool
  | .bytecode bytes => some (callProtectionBytecode.isPrefixOf bytes)
  | .unlinked text =>
    (slice text 0 (callProtectionBytecode.length * 2)).bind fun text =>
      decodesTo text fun bytes => some (callProtectionBytecode.isPrefixOf bytes)

def segmentMatches (object : BytecodeObject) (code : Bytes) (left right : Nat) : Option Bool :=
  match object with
  | .bytecode bytes =>
    (slice bytes left right).bind fun bytes =>
      (slice code left right).map fun part => bytes == part
  | .unlinked text =>
    (slice text (left * 2) (right * 2)).bind fun text =>
      decodesTo text fun bytes => (slice code left right).map fun part => bytes == part

def tailMatches (object : BytecodeObject) (code : Bytes) (left : Nat) : Option Bool :=
  match object with
  | .bytecode bytes =>
    (slice bytes left bytes.length).bind fun bytes =>
      (slice code left code.length).map fun part => bytes == part
  | .unlinked text =>
    (slice text (left * 2) text.length).bind fun text =>
      decodesTo text fun bytes => (slice code left code.length).map fun part => bytes == part

section Lookup

variable (isCbor : Bytes → Bool)

/-- The last two bytes are the length of the metadata in front of them. -/
def findMetadataStart (bytecode : Bytes) : Option Nat :=
  if 2 ≤ bytecode.length then
    let rest := bytecode.take (bytecode.length - 2)
    let metadataLen :=
      (bytecode.drop (bytecode.length - 2)).foldl (fun n byte => 256 * n + byte.toNat) 0
    if rest.length < metadataLen then none
    else if isCbor (rest.drop (rest.length - metadataLen)) then some (rest.length - metadataLen)
    else none
  else none

/-- The references of immutables, then those of libraries. -/
def BytecodeData.references (bytecode : BytecodeData) : List Offsets :=
  bytecode.immutableReferences.flatten ++ bytecode.linkReferences.flatten.flatten

def ignoredOffsets (bytecode : BytecodeData) (callProtection : Bool) (code : Bytes) :
    List Offsets :=
  let protection : List Offsets := if callProtection then [⟨1, 20⟩] else []
  let metadata : List Offsets :=
    match findMetadataStart isCbor code with
    | some metadata => [⟨metadata % 2 ^ 32, (code.length - metadata) % 2 ^ 32⟩]
    | none => []
  (bytecode.references ++ protection ++ metadata).insertionSort fun r r' => r.start ≤ r'.start

/-- The loop over the ignored ranges: where it ends, or `none` inside if a part differs. -/
def walkIgnored (object : BytecodeObject) (code : Bytes) : Nat → List Offsets → Option (Option Nat)
  | left, [] => some (some left)
  | left, offset :: ignored =>
    (segmentMatches object code left offset.start).bind fun matched =>
      if matched then walkIgnored object code (offset.start + offset.length) ignored
      else some none

inductive Verdict where
  | differs
  | partialMatch
  | exactMatch
deriving DecidableEq

def conclude (object : BytecodeObject) (code : Bytes) (left : Nat) : Option Verdict :=
  (if left < code.length then tailMatches object code left else some true).bind fun isPartial =>
    if isPartial then
      match findMetadataStart isCbor code with
      | none => some .exactMatch
      | some metadata =>
        (tailMatches object code metadata).map fun exactMatch =>
          if exactMatch then .exactMatch else .partialMatch
    else some .differs

/-- What the closure of `find` says of a contract. -/
def examine (code : Bytes) (contract : ContractData) : Option Verdict :=
  match contract.deployed? with
  | none => some .differs
  | some (bytecode, object) =>
    if object.byteLength = code.length then
      (hasCallProtection object).bind fun callProtection =>
        (walkIgnored object code 0 (ignoredOffsets isCbor bytecode callProtection code)).bind
          fun stopped =>
            match stopped with
            | some left => conclude isCbor object code left
            | none => some .differs
    else some .differs

variable {Id : Type}

/-- `find`, with the variable `partial_match`. -/
def findFrom (code : Bytes) :
    List (Id × ContractData) → Option (Id × ContractData) → Option (Option (Id × ContractData))
  | [], partialMatch => some partialMatch
  | artifact :: artifacts, partialMatch =>
    (examine isCbor code artifact.2).bind fun verdict =>
      match verdict with
      | .exactMatch => some (some artifact)
      | .partialMatch => findFrom code artifacts (some artifact)
      | .differs => findFrom code artifacts partialMatch

def findByDeployedCodeExact (artifacts : List (Id × ContractData)) (code : Bytes) :
    Option (Option (Id × ContractData)) :=
  if code.isEmpty then some none else findFrom isCbor code artifacts none

end Lookup

/-! ## The bytes of a code, as far as they are known -/

variable {text : List Char} {bytes : Bytes} {left right : Nat} {object : BytecodeObject} {α : Type}

def pairs : List Char → List (Option (BitVec 8))
  | high :: low :: text => hexByte? high low :: pairs text
  | _ => []

def BytecodeObject.slots : BytecodeObject → List (Option (BitVec 8))
  | .bytecode bytes => bytes.map some
  | .unlinked text => pairs text

theorem length_pairs (text : List Char) : (pairs text).length = text.length / 2 := by
  fun_induction pairs text with
  | case1 high low text ih =>
    simp only [length_cons]
    omega
  | case2 text h =>
    match text, h with
    | [], _ => rfl
    | [_], _ => simp
    | high :: low :: text, h => exact absurd rfl (h high low text)

private theorem pairs_drop (text : List Char) (k : Nat) :
    pairs (text.drop (k * 2)) = (pairs text).drop k := by
  induction k generalizing text with
  | zero => simp
  | succ k ih =>
    match text with
    | [] => simp [pairs]
    | [_] => simp [pairs, Nat.succ_mul]
    | high :: low :: text =>
      rw [Nat.succ_mul, pairs, drop_succ_cons, drop_succ_cons, drop_succ_cons, ih]

theorem pairs_take (text : List Char) (k : Nat) :
    pairs (text.take (k * 2)) = (pairs text).take k := by
  induction k generalizing text with
  | zero => simp [pairs]
  | succ k ih =>
    match text with
    | [] => simp [pairs]
    | [_] => simp [pairs, Nat.succ_mul]
    | high :: low :: text =>
      rw [Nat.succ_mul, pairs, take_succ_cons, take_succ_cons, take_succ_cons, pairs, ih]

private theorem hexPairs_eq_some (heven : text.length % 2 = 0) :
    hexPairs text = some bytes ↔ pairs text = bytes.map some := by
  fun_induction hexPairs text generalizing bytes with
  | case1 => cases bytes <;> simp [pairs]
  | case2 => simp at heven
  | case3 high low text ih =>
    have heven' : text.length % 2 = 0 := by
      simp only [length_cons] at heven
      omega
    rw [pairs]
    cases bytes with
    | nil => cases hexByte? high low <;> simp
    | cons byte bytes =>
      rw [map_cons, List.cons.injEq, ← ih heven']
      cases hexByte? high low <;> simp [and_comm]

theorem hexDecode_eq_some (heven : text.length % 2 = 0) (hlength : bytes.length = text.length / 2) :
    hexDecode text = some bytes ↔ pairs text = bytes.map some := by
  rw [← hexPairs_eq_some heven]
  unfold hexDecode
  split
  · next rest =>
    have hnone : hexPairs ('0' :: 'x' :: rest) = none := by
      rfl
    rw [hnone]
    refine ⟨fun h => ?_, fun h => absurd h (by simp)⟩
    simp only [length_cons] at heven hlength
    have hrest := congrArg List.length ((hexPairs_eq_some (by omega)).mp h)
    rw [length_pairs, length_map] at hrest
    omega
  · rfl

/-! ## Agreement -/

/-- A byte of the object is known, and is that of the code. -/
def Agrees (object : BytecodeObject) (code : Bytes) (p : Nat) : Prop :=
  object.slots[p]? = (code.map some)[p]?

/-- Unlinked code has two characters for each byte. -/
def BytecodeObject.Even : BytecodeObject → Prop
  | .bytecode _ => True
  | .unlinked text => text.length % 2 = 0

theorem length_slots (object : BytecodeObject) : object.slots.length = object.byteLength := by
  cases object with
  | bytecode bytes => simp [BytecodeObject.slots, BytecodeObject.byteLength]
  | unlinked text => simp [BytecodeObject.slots, BytecodeObject.byteLength, length_pairs]

private theorem part_eq_iff {a b : List α} (left right : Nat) :
    (a.drop left).take (right - left) = (b.drop left).take (right - left) ↔
      ∀ p, left ≤ p → p < right → a[p]? = b[p]? := by
  constructor
  · intro h p hleft hright
    have hp := congrArg (·[p - left]?) h
    simp only [getElem?_take, getElem?_drop] at hp
    rwa [if_pos (by omega), if_pos (by omega), Nat.add_sub_cancel' hleft] at hp
  · intro h
    apply ext_getElem?
    intro i
    rw [getElem?_take, getElem?_take]
    split
    · rw [getElem?_drop, getElem?_drop, h (left + i) (by omega) (by omega)]
    · rfl

theorem slice_of_le {list : List α} (hle : left ≤ right) (hright : right ≤ list.length) :
    slice list left right = some ((list.drop left).take (right - left)) :=
  if_pos ⟨hle, hright⟩

private theorem slice_of_lt {list : List α} (h : right < left) : slice list left right = none :=
  if_neg fun hle => absurd hle.1 (Nat.not_le_of_lt h)

private theorem decodesTo_part (heven : text.length % 2 = 0) (part : Bytes)
    (hlength : part.length = text.length / 2) :
    ∃ matched, decodesTo text (fun bytes => some (bytes == part)) = some matched ∧
      (matched = true ↔ pairs text = part.map some) := by
  unfold decodesTo
  rw [← hexDecode_eq_some heven hlength]
  cases hexDecode text with
  | none => exact ⟨false, rfl, by simp⟩
  | some bytes => exact ⟨bytes == part, rfl, by simp⟩

section Compare

variable {object : BytecodeObject} {code : Bytes} (heven : object.Even)
  (hlength : object.byteLength = code.length)

include heven hlength

theorem segmentMatches_of_le (hle : left ≤ right) (hright : right ≤ code.length) :
    ∃ matched, segmentMatches object code left right = some matched ∧
      (matched = true ↔ ∀ p, left ≤ p → p < right → Agrees object code p) := by
  unfold Agrees
  rw [← part_eq_iff, ← map_drop, ← map_take]
  cases object with
  | bytecode bytes =>
    have hbytes : bytes.length = code.length := hlength
    simp only [segmentMatches, slice_of_le hle hright,
      slice_of_le hle (hright.trans_eq hbytes.symm), BytecodeObject.slots]
    refine ⟨_, rfl, ?_⟩
    rw [← map_drop, ← map_take, beq_iff_eq]
    exact ⟨fun h => by rw [h], fun h => map_injective_iff.mpr (some_injective _) h⟩
  | unlinked text =>
    have htext : text.length / 2 = code.length := hlength
    have hwidth := (Nat.sub_mul right left 2).symm
    have hpart : ((text.drop (left * 2)).take ((right - left) * 2)).length =
        (right - left) * 2 := by
      rw [length_take, length_drop]
      omega
    have hcode : ((code.drop left).take (right - left)).length = right - left := by
      rw [length_take, length_drop]
      omega
    have hpartEven : ((text.drop (left * 2)).take ((right - left) * 2)).length % 2 = 0 := by
      omega
    obtain ⟨matched, hmatched, hiff⟩ :=
      decodesTo_part hpartEven ((code.drop left).take (right - left)) (by omega)
    simp only [segmentMatches, slice_of_le hle hright,
      slice_of_le (Nat.mul_le_mul_right 2 hle) (show right * 2 ≤ text.length by omega),
      hwidth]
    refine ⟨matched, hmatched, ?_⟩
    rw [hiff, pairs_take, pairs_drop]
    rfl

theorem tailMatches_eq (left : Nat) :
    tailMatches object code left = segmentMatches object code left code.length := by
  cases object with
  | bytecode bytes =>
    have hbytes : bytes.length = code.length := hlength
    rw [tailMatches, segmentMatches, hbytes]
  | unlinked text =>
    have htext : text.length = code.length * 2 := by
      have hhalf : text.length / 2 = code.length := hlength
      have heven' : text.length % 2 = 0 := heven
      omega
    rw [tailMatches, segmentMatches, htext]

omit heven hlength in
theorem segmentMatches_of_lt (h : right < left) : segmentMatches object code left right = none := by
  cases object with
  | bytecode bytes => simp [segmentMatches, slice_of_lt h]
  | unlinked text => simp [segmentMatches, slice_of_lt (show right * 2 < left * 2 by omega)]

/-! ## The loop over the ranges -/

/-- The loop panics unless the ranges are clear.  Then it compares all of the code outside them, up
to where it ends. -/
theorem walkIgnored_spec {ranges : List Offsets} (hsorted : Sorted ranges)
    (hbounds : ∀ r ∈ ranges, r.start ≤ code.length) :
    (¬ Clear (Agrees object code) left ranges → walkIgnored object code left ranges = none) ∧
      (Clear (Agrees object code) left ranges →
        ∃ stopped, walkIgnored object code left ranges = some stopped ∧
          ((∃ last, stopped = some last ∧
              ∀ p, last ≤ p → p < code.length → Agrees object code p) ↔
            ∀ p, left ≤ p → p < code.length → ¬ Covered ranges p → Agrees object code p)) := by
  induction ranges generalizing left with
  | nil => exact ⟨fun h => absurd trivial h, fun _ => ⟨some left, rfl, by simp⟩⟩
  | cons r ranges ih =>
    rw [forall_mem_cons] at hbounds
    rw [walkIgnored]
    by_cases hle : left ≤ r.start
    · obtain ⟨matched, hmatched, hiff⟩ := segmentMatches_of_le heven hlength hle hbounds.1
      rw [hmatched]
      cases matched with
      | false =>
        have hdiffers : ¬ ∀ p, left ≤ p → p < r.start → Agrees object code p :=
          fun h => Bool.false_ne_true (hiff.mpr h)
        refine ⟨fun h => absurd ⟨hle, fun h => absurd h hdiffers⟩ h, fun _ => ⟨none, rfl, ?_⟩⟩
        refine ⟨fun ⟨last, hlast, _⟩ => absurd hlast (by simp), fun h => absurd ?_ hdiffers⟩
        exact fun p hp hlt =>
          h p hp (Nat.lt_of_lt_of_le hlt hbounds.1) (not_covered_of_lt hsorted hlt)
      | true =>
        have hagrees := hiff.mp rfl
        obtain ⟨hpanics, hstops⟩ := ih (List.Pairwise.of_cons hsorted) hbounds.2
        refine ⟨fun h => hpanics fun hclear => h ⟨hle, fun _ => hclear⟩, fun h => ?_⟩
        obtain ⟨stopped, hstopped, hout⟩ := hstops (h.2 hagrees)
        refine ⟨stopped, hstopped, hout.trans ⟨fun h p hp hlt hcovered => ?_,
          fun h p hp hlt hcovered => ?_⟩⟩
        · rw [covered_cons, not_or] at hcovered
          by_cases hbefore : p < r.start
          · exact hagrees p hp hbefore
          · refine h p ?_ hlt hcovered.2
            by_contra hin
            exact hcovered.1 ⟨Nat.le_of_not_lt hbefore, Nat.lt_of_not_le hin⟩
        have hstop : r.start ≤ r.stop := Nat.le_add_right _ _
        refine h p (Nat.le_trans hle (Nat.le_trans hstop hp)) hlt ?_
        rw [covered_cons]
        rintro (hhas | hlater)
        · exact absurd hhas.2 (Nat.not_lt_of_le hp)
        · exact hcovered hlater
    · rw [segmentMatches_of_lt (Nat.lt_of_not_le hle)]
      exact ⟨fun _ => rfl, fun h => absurd h.1 hle⟩

end Compare

/-! ## The call protection and the metadata -/

theorem hexPairs_length (h : hexPairs text = some bytes) : text.length = 2 * bytes.length := by
  fun_induction hexPairs text generalizing bytes with
  | case1 =>
    cases h
    rfl
  | case2 => cases h
  | case3 high low text ih =>
    obtain ⟨byte, _, hmap⟩ := bind_eq_some_iff.mp h
    obtain ⟨rest, hrest, rfl⟩ := map_eq_some_iff.mp hmap
    have hlength := ih hrest
    simp only [length_cons]
    omega

theorem hexDecode_length_le (h : hexDecode text = some bytes) : 2 * bytes.length ≤ text.length := by
  unfold hexDecode at h
  split at h
  · have hlength := hexPairs_length h
    simp only [length_cons]
    omega
  · exact Nat.le_of_eq (hexPairs_length h).symm

/-- The code starts with the call protection of a library. -/
def BytecodeObject.callProtected (object : BytecodeObject) : Bool :=
  decide (object.slots.take 21 = callProtectionBytecode.map some)

def BytecodeObject.LongEnough (object : BytecodeObject) : Prop :=
  ∀ text, object = .unlinked text → 42 ≤ text.length

private theorem isPrefixOf_iff_take :
    callProtectionBytecode.isPrefixOf bytes = true ↔ bytes.take 21 = callProtectionBytecode := by
  rw [List.isPrefixOf_iff_prefix, prefix_iff_eq_take]
  exact eq_comm

theorem hasCallProtection_eq (h : object.LongEnough) :
    hasCallProtection object = some object.callProtected := by
  cases object with
  | bytecode bytes =>
    rw [hasCallProtection, Option.some.injEq, Bool.eq_iff_iff, isPrefixOf_iff_take,
      BytecodeObject.callProtected, decide_eq_true_eq, BytecodeObject.slots, ← map_take]
    exact (map_injective_iff.mpr (some_injective _)).eq_iff.symm
  | unlinked text =>
    have hlong : 42 ≤ text.length := h text rfl
    have htake := length_take_of_le hlong
    have hpairs : (BytecodeObject.unlinked text).slots.take 21 = pairs (text.take (21 * 2)) :=
      (pairs_take text 21).symm
    have hslice : slice text 0 (callProtectionBytecode.length * 2) = some (text.take 42) := by
      exact slice_of_le (Nat.zero_le _) hlong
    have hdecode : hexDecode (text.take 42) = some callProtectionBytecode ↔
        pairs (text.take 42) = callProtectionBytecode.map some :=
      hexDecode_eq_some (by omega) (by rw [htake]; rfl)
    rw [hasCallProtection, hslice, bind_some, BytecodeObject.callProtected, hpairs, decodesTo]
    cases hbytes : hexDecode (text.take 42) with
    | none => simp [← hdecode, hbytes]
    | some bytes =>
      have hlength := hexDecode_length_le hbytes
      simp only [Option.some.injEq]
      rw [Bool.eq_iff_iff, isPrefixOf_iff_take, decide_eq_true_eq, ← hdecode, hbytes,
        take_of_length_le (by omega), Option.some.injEq]

theorem hasCallProtection_eq_none (h : ¬ object.LongEnough) : hasCallProtection object = none := by
  unfold BytecodeObject.LongEnough at h
  push Not at h
  obtain ⟨text, rfl, hshort⟩ := h
  rw [hasCallProtection, slice, if_neg (fun hle => absurd hle.2 (Nat.not_le_of_lt hshort))]
  rfl

theorem findMetadataStart_bounds {isCbor : Bytes → Bool} {code : Bytes} {metadata : Nat}
    (h : findMetadataStart isCbor code = some metadata) :
    metadata ≤ code.length ∧ code.length - metadata < 2 ^ 32 := by
  unfold findMetadataStart at h
  split at h
  · next hlong =>
    have hlast : (code.drop (code.length - 2)).length = 2 := by
      rw [length_drop]
      omega
    obtain ⟨high, low, hbytes⟩ := length_eq_two.mp hlast
    simp only [hbytes, foldl_cons, foldl_nil, length_take] at h
    split at h
    · cases h
    · split at h
      · cases h
        omega
      · cases h
  · cases h

/-! ## What a contract is compared on -/

section Contracts

variable (isCbor : Bytes → Bool) (code : Bytes)

/-- The positions at which a code may differ from the artifact: references, the address of the
call protection, and the metadata. -/
def Exempt (bytecode : BytecodeData) (object : BytecodeObject) (p : Nat) : Prop :=
  Covered bytecode.references p ∨ (object.callProtected = true ∧ 1 ≤ p ∧ p < 21) ∨
    ∃ metadata, findMetadataStart isCbor code = some metadata ∧ metadata ≤ p

/-- The deployed code has the same length and agrees with the code wherever it has to. -/
def ContractData.Matches (contract : ContractData) : Prop :=
  ∃ bytecode object, contract.deployed? = some (bytecode, object) ∧
    object.byteLength = code.length ∧
    ∀ p < code.length, ¬ Exempt isCbor code bytecode object p → Agrees object code p

def ContractData.MetadataMatches (contract : ContractData) : Prop :=
  ∀ metadata, findMetadataStart isCbor code = some metadata →
    ∃ bytecode object, contract.deployed? = some (bytecode, object) ∧
      ∀ p, metadata ≤ p → p < code.length → Agrees object code p

structure ContractData.WellFormed (contract : ContractData) : Prop where
  even : ∀ bytecode object, contract.deployed? = some (bytecode, object) → object.Even
  inBounds : ∀ bytecode object, contract.deployed? = some (bytecode, object) →
    ∀ r ∈ bytecode.references, r.stop ≤ object.byteLength
  disjoint : ∀ bytecode object, contract.deployed? = some (bytecode, object) →
    bytecode.references.Pairwise fun r r' => ∀ p, ¬ (r.Has p ∧ r'.Has p)

/-- The ranges the comparison leaves out, for the code of a contract. -/
def ignoredBy (bytecode : BytecodeData) (object : BytecodeObject) : List Offsets :=
  ignoredOffsets isCbor bytecode object.callProtected code

/-- The comparison of a contract does not panic: it is for another length, or its text is long
enough and no range starts before the end of the one in front of it, unless the code differs
before that one. -/
def ContractData.Comparable (contract : ContractData) : Prop :=
  ∀ bytecode object, contract.deployed? = some (bytecode, object) →
    object.byteLength = code.length →
    object.LongEnough ∧ Apart (Agrees object code) 0 (ignoredBy isCbor code bytecode object)

/-- The code agrees outside the ranges that are left out. -/
def ContractData.Accepted (contract : ContractData) : Prop :=
  ∃ bytecode object, contract.deployed? = some (bytecode, object) ∧
    object.byteLength = code.length ∧
    ∀ p < code.length, ¬ Covered (ignoredBy isCbor code bytecode object) p → Agrees object code p

/-- The code agrees on the range that is left out if the start of the metadata does not fit a
`u32`. -/
def ContractData.WrappedMatches (contract : ContractData) : Prop :=
  ∀ metadata, findMetadataStart isCbor code = some metadata → 2 ^ 32 ≤ metadata →
    ∀ bytecode object, contract.deployed? = some (bytecode, object) →
      ∀ p < code.length, metadata % 2 ^ 32 ≤ p →
        p < metadata % 2 ^ 32 + (code.length - metadata) →
        ¬ Exempt isCbor code bytecode object p → Agrees object code p

variable {contract : ContractData}

variable {isCbor code} {bytecode : BytecodeData} {object : BytecodeObject}

theorem sorted_ignoredBy : Sorted (ignoredBy isCbor code bytecode object) := by
  exact pairwise_insertionSort _ _

theorem mem_ignoredBy {r : Offsets} :
    r ∈ ignoredBy isCbor code bytecode object ↔
      r ∈ bytecode.references ∨ (object.callProtected = true ∧ r = ⟨1, 20⟩) ∨
        ∃ metadata, findMetadataStart isCbor code = some metadata ∧
          r = ⟨metadata % 2 ^ 32, (code.length - metadata) % 2 ^ 32⟩ := by
  unfold ignoredBy ignoredOffsets
  cases object.callProtected <;> cases findMetadataStart isCbor code <;> simp

theorem covered_ignoredBy {p : Nat} :
    Covered (ignoredBy isCbor code bytecode object) p ↔
      Covered bytecode.references p ∨ (object.callProtected = true ∧ 1 ≤ p ∧ p < 21) ∨
        ∃ metadata, findMetadataStart isCbor code = some metadata ∧
          metadata % 2 ^ 32 ≤ p ∧ p < metadata % 2 ^ 32 + (code.length - metadata) := by
  simp only [Covered, mem_ignoredBy, or_and_right, exists_or, and_assoc, exists_and_left,
    exists_eq_left]
  refine or_congr_right (or_congr_right ?_)
  simp only [← exists_and_right, and_assoc]
  rw [exists_comm]
  refine exists_congr fun metadata => ?_
  simp only [exists_and_left, exists_eq_left]
  refine and_congr_right fun hmetadata => ?_
  rw [Range.Has, Range.stop, Nat.mod_eq_of_lt (findMetadataStart_bounds hmetadata).2]

theorem start_le_of_mem_ignoredBy (isCbor : Bytes → Bool)
    (hlength : object.byteLength = code.length)
    (hbounds : ∀ r ∈ bytecode.references, r.stop ≤ object.byteLength) :
    ∀ r ∈ ignoredBy isCbor code bytecode object, r.start ≤ code.length := by
  intro r hmem
  rcases mem_ignoredBy.mp hmem with hreference | ⟨hprotected, rfl⟩ | ⟨metadata, hmetadata, rfl⟩
  · have hstop := hbounds r hreference
    unfold Range.stop at hstop
    omega
  · have htaken := congrArg List.length (of_decide_eq_true hprotected)
    rw [length_take, length_slots, hlength] at htaken
    change min 21 code.length = 21 at htaken
    change 1 ≤ code.length
    omega
  · have hbound := (findMetadataStart_bounds hmetadata).1
    exact Nat.le_trans (Nat.mod_le _ _) hbound

theorem matches_of_accepted (h : contract.Accepted isCbor code) :
    contract.Matches isCbor code ↔ contract.WrappedMatches isCbor code := by
  obtain ⟨bytecode, object, hdeployed, hlength, haccepted⟩ := h
  constructor
  · intro ⟨bytecode', object', hdeployed', _, hmatches⟩ metadata _ _ bytecode'' object'' hdeployed''
    cases hdeployed'.symm.trans hdeployed''
    exact fun p hp _ _ => hmatches p hp
  · intro hwrapped
    refine ⟨bytecode, object, hdeployed, hlength, fun p hp hexempt => ?_⟩
    by_cases hcovered : Covered (ignoredBy isCbor code bytecode object) p
    · rcases covered_ignoredBy.mp hcovered with hreference | hprotected | ⟨metadata, hmetadata, hin⟩
      · exact absurd (.inl hreference) hexempt
      · exact absurd (.inr (.inl hprotected)) hexempt
      · by_cases hfits : metadata < 2 ^ 32
        · rw [Nat.mod_eq_of_lt hfits] at hin
          exact absurd (.inr (.inr ⟨metadata, hmetadata, hin.1⟩)) hexempt
        · exact hwrapped metadata hmetadata (Nat.le_of_not_lt hfits) bytecode object hdeployed p hp
            hin.1 hin.2 hexempt
    · exact haccepted p hp hcovered

theorem accepted_of_matches (h : contract.Matches isCbor code)
    (hmetadata : contract.MetadataMatches isCbor code) : contract.Accepted isCbor code := by
  obtain ⟨bytecode, object, hdeployed, hlength, hmatches⟩ := h
  refine ⟨bytecode, object, hdeployed, hlength, fun p hp hcovered => ?_⟩
  by_cases hexempt : Exempt isCbor code bytecode object p
  · rcases hexempt with hreference | hprotected | ⟨metadata, hfound, hle⟩
    · exact absurd (covered_ignoredBy.mpr (.inl hreference)) hcovered
    · exact absurd (covered_ignoredBy.mpr (.inr (.inl hprotected))) hcovered
    · obtain ⟨_, _, hdeployed', hagrees⟩ := hmetadata metadata hfound
      cases hdeployed.symm.trans hdeployed'
      exact hagrees p hle hp
  · exact hmatches p hp hexempt

/-! ## The verdict -/

theorem conclude_spec (heven : object.Even) (hlength : object.byteLength = code.length)
    (left : Nat) :
    ∃ verdict, conclude isCbor object code left = some verdict ∧
      (verdict ≠ .differs ↔ ∀ p, left ≤ p → p < code.length → Agrees object code p) ∧
      (verdict = .exactMatch ↔ (∀ p, left ≤ p → p < code.length → Agrees object code p) ∧
        ∀ metadata, findMetadataStart isCbor code = some metadata →
          ∀ p, metadata ≤ p → p < code.length → Agrees object code p) := by
  have hpartial : ∃ isPartial,
      (if left < code.length then tailMatches object code left else some true) = some isPartial ∧
        (isPartial = true ↔ ∀ p, left ≤ p → p < code.length → Agrees object code p) := by
    split
    · next hleft =>
      rw [tailMatches_eq heven hlength]
      exact segmentMatches_of_le heven hlength (Nat.le_of_lt hleft) (Nat.le_refl _)
    · next hleft => exact ⟨true, rfl, by simp; omega⟩
  obtain ⟨isPartial, hsome, hiff⟩ := hpartial
  rw [conclude, hsome]
  cases isPartial with
  | false =>
    have hdiffers : ¬ ∀ p, left ≤ p → p < code.length → Agrees object code p :=
      fun h => Bool.false_ne_true (hiff.mpr h)
    exact ⟨.differs, rfl, by simp [hdiffers], by simp [hdiffers]⟩
  | true =>
    have hagrees := hiff.mp rfl
    cases hmetadata : findMetadataStart isCbor code with
    | none => exact ⟨.exactMatch, rfl, by simpa using hagrees, by simpa using hagrees⟩
    | some metadata =>
      obtain ⟨exactMatch, hexact, hexactIff⟩ := segmentMatches_of_le heven hlength
        (findMetadataStart_bounds hmetadata).1 (Nat.le_refl _)
      simp only [tailMatches_eq heven hlength, hexact]
      refine ⟨_, rfl, ?_, ?_⟩
      · cases exactMatch <;> simpa using hagrees
      · rw [and_iff_right hagrees]
        simp only [Option.some.injEq, forall_eq', ← hexactIff]
        cases exactMatch <;> simp

theorem examine_deployed (hdeployed : contract.deployed? = some (bytecode, object))
    (hlength : object.byteLength = code.length) (hlong : object.LongEnough) :
    examine isCbor code contract =
      (walkIgnored object code 0 (ignoredBy isCbor code bytecode object)).bind fun stopped =>
        match stopped with
        | some left => conclude isCbor object code left
        | none => some .differs := by
  rw [examine, hdeployed]
  simp only [hlength, hasCallProtection_eq hlong]
  rfl

/-- A contract whose comparison does not panic gets its verdict. -/
theorem examine_of_comparable (h : contract.WellFormed)
    (hcomparable : contract.Comparable isCbor code) :
    ∃ verdict, examine isCbor code contract = some verdict ∧
      (verdict ≠ .differs ↔ contract.Accepted isCbor code) ∧
      (verdict = .exactMatch ↔
        contract.Accepted isCbor code ∧ contract.MetadataMatches isCbor code) := by
  cases hdeployed : contract.deployed? with
  | none =>
    refine ⟨.differs, by rw [examine, hdeployed], ?_, ?_⟩ <;>
      simp [ContractData.Accepted, hdeployed]
  | some deployed =>
    obtain ⟨bytecode, object⟩ := deployed
    by_cases hlength : object.byteLength = code.length
    · obtain ⟨hlong, hapart⟩ := hcomparable bytecode object hdeployed hlength
      have heven := h.even bytecode object hdeployed
      have hbounds := start_le_of_mem_ignoredBy isCbor hlength
        (h.inBounds bytecode object hdeployed)
      obtain ⟨stopped, hstopped, hout⟩ := (walkIgnored_spec heven hlength sorted_ignoredBy
        hbounds).2 ((clear_zero_iff sorted_ignoredBy).mpr hapart)
      have haccepted : contract.Accepted isCbor code ↔
          ∀ p < code.length, ¬ Covered (ignoredBy isCbor code bytecode object) p →
            Agrees object code p := by
        simp [ContractData.Accepted, hdeployed, hlength]
      have hmetadata : contract.MetadataMatches isCbor code ↔
          ∀ metadata, findMetadataStart isCbor code = some metadata →
            ∀ p, metadata ≤ p → p < code.length → Agrees object code p := by
        simp [ContractData.MetadataMatches, hdeployed]
      simp only [Nat.zero_le, true_implies] at hout
      rw [examine_deployed hdeployed hlength hlong, hstopped, haccepted, hmetadata, ← hout]
      cases stopped with
      | none => exact ⟨.differs, rfl, by simp, by simp⟩
      | some left => simpa using conclude_spec heven hlength left
    · refine ⟨.differs, ?_, ?_, ?_⟩
      · rw [examine, hdeployed]
        exact if_neg hlength
      · simp [ContractData.Accepted, hdeployed, hlength]
      · simp [ContractData.Accepted, hdeployed, hlength]

theorem examine_of_not_comparable (h : contract.WellFormed)
    (hcomparable : ¬ contract.Comparable isCbor code) : examine isCbor code contract = none := by
  unfold ContractData.Comparable at hcomparable
  push Not at hcomparable
  obtain ⟨bytecode, object, hdeployed, hlength, hpanics⟩ := hcomparable
  have heven := h.even bytecode object hdeployed
  have hbounds := start_le_of_mem_ignoredBy isCbor hlength (h.inBounds bytecode object hdeployed)
  by_cases hlong : object.LongEnough
  · have hwalk := (walkIgnored_spec heven hlength sorted_ignoredBy hbounds).1 fun hclear =>
      hpanics hlong ((clear_zero_iff sorted_ignoredBy).mp hclear)
    rw [examine_deployed hdeployed hlength hlong, hwalk]
    rfl
  · rw [examine, hdeployed]
    simp only [hlength, if_true, hasCallProtection_eq_none hlong, bind_none]

end Contracts

/-! ## The search -/

section Search

variable (isCbor : Bytes → Bool) (code : Bytes) {Id : Type}

/-- The code agrees outside the ranges left out, and on the metadata. -/
def ContractData.AcceptedExactly (contract : ContractData) : Prop :=
  contract.Accepted isCbor code ∧ contract.MetadataMatches isCbor code

/-- No contract is compared with a panic, up to the first one that is accepted exactly. -/
def AllComparable (artifacts : List (Id × ContractData)) : Prop :=
  ∀ before artifact after, artifacts = before ++ artifact :: after →
    (∀ earlier ∈ before, ¬ earlier.2.AcceptedExactly isCbor code) →
    artifact.2.Comparable isCbor code

open Classical in
/-- The first artifact that is accepted exactly, or else the last one that is accepted. -/
noncomputable def chosen (artifacts : List (Id × ContractData)) : Option (Id × ContractData) :=
  (artifacts.find? fun artifact => decide (artifact.2.AcceptedExactly isCbor code)).or
    (artifacts.filter fun artifact => decide (artifact.2.Accepted isCbor code)).getLast?

variable {isCbor code} {artifacts : List (Id × ContractData)} {artifact : Id × ContractData}

theorem allComparable_cons {artifacts : List (Id × ContractData)} :
    AllComparable isCbor code (artifact :: artifacts) ↔
      artifact.2.Comparable isCbor code ∧
        (¬ artifact.2.AcceptedExactly isCbor code → AllComparable isCbor code artifacts) := by
  constructor
  · intro h
    refine ⟨h [] artifact artifacts rfl (by simp), fun hfirst before later after heq hbefore => ?_⟩
    refine h (artifact :: before) later after (by rw [heq]; rfl) ?_
    rw [forall_mem_cons]
    exact ⟨hfirst, hbefore⟩
  · intro ⟨hfirst, hrest⟩ before later after heq hbefore
    cases before with
    | nil =>
      cases heq
      exact hfirst
    | cons head before =>
      cases heq
      rw [forall_mem_cons] at hbefore
      exact hrest hbefore.1 before later after rfl hbefore.2

/-- The search panics at an artifact that cannot be compared, or finds the one to choose. -/
theorem findFrom_spec (hformed : ∀ artifact ∈ artifacts, artifact.2.WellFormed)
    (partialMatch : Option (Id × ContractData)) :
    (¬ AllComparable isCbor code artifacts → findFrom isCbor code artifacts partialMatch = none) ∧
      (AllComparable isCbor code artifacts → findFrom isCbor code artifacts partialMatch =
        some ((chosen isCbor code artifacts).or partialMatch)) := by
  classical
  induction artifacts generalizing partialMatch with
  | nil =>
    exact ⟨fun h => absurd (fun before artifact after heq _ => by simp at heq) h,
      fun _ => by simp [findFrom, chosen]⟩
  | cons artifact artifacts ih =>
    rw [forall_mem_cons] at hformed
    rw [allComparable_cons, findFrom]
    by_cases hcomparable : artifact.2.Comparable isCbor code
    · obtain ⟨verdict, hverdict, haccepted, hexact⟩ := examine_of_comparable hformed.1 hcomparable
      rw [hverdict, and_iff_right hcomparable]
      cases verdict with
      | exactMatch =>
        have hfirst : artifact.2.AcceptedExactly isCbor code := hexact.mp rfl
        simp [chosen, hfirst]
      | partialMatch =>
        have hfirst : ¬ artifact.2.AcceptedExactly isCbor code := fun h => by
          simpa using hexact.mpr h
        have haccepted' : artifact.2.Accepted isCbor code := haccepted.mp (by simp)
        obtain ⟨hnone, hsome⟩ := ih hformed.2 (some artifact)
        rw [forall_prop_of_true hfirst]
        refine ⟨hnone, fun h => ?_⟩
        simp only [hsome h, chosen, find?_cons, hfirst, filter_cons,
          haccepted', decide_true, if_true, getLast?_cons]
        cases (artifacts.filter fun artifact =>
          decide (artifact.2.Accepted isCbor code)).getLast? <;> simp
      | differs =>
        have haccepted' : ¬ artifact.2.Accepted isCbor code := fun h => by
          simpa using haccepted.mpr h
        have hfirst : ¬ artifact.2.AcceptedExactly isCbor code := fun h => haccepted' h.1
        obtain ⟨hnone, hsome⟩ := ih hformed.2 partialMatch
        rw [forall_prop_of_true hfirst]
        exact ⟨hnone, fun h => by simp [hsome h, chosen, hfirst, haccepted']⟩
    · rw [examine_of_not_comparable hformed.1 hcomparable]
      exact ⟨fun _ => rfl, fun h => absurd h.1 hcomparable⟩

theorem accepted_of_chosen (h : chosen isCbor code artifacts = some artifact) :
    artifact ∈ artifacts ∧ artifact.2.Accepted isCbor code := by
  classical
  rcases or_eq_some_iff.mp h with hexact | ⟨_, hlast⟩
  · have haccepted := find?_some hexact
    rw [decide_eq_true_eq] at haccepted
    exact ⟨mem_of_find?_eq_some hexact, haccepted.1⟩
  · simpa using mem_of_getLast? hlast

theorem chosen_of_acceptedExactly (hmem : artifact ∈ artifacts)
    (h : artifact.2.AcceptedExactly isCbor code) :
    ∃ first, chosen isCbor code artifacts = some first ∧ first.2.AcceptedExactly isCbor code := by
  classical
  have hsome : (artifacts.find? fun artifact =>
      decide (artifact.2.AcceptedExactly isCbor code)).isSome := by
    rw [find?_isSome]
    exact ⟨artifact, hmem, decide_eq_true h⟩
  obtain ⟨first, hfirst⟩ := isSome_iff_exists.mp hsome
  refine ⟨first, by rw [chosen, hfirst]; rfl, ?_⟩
  simpa using find?_some hfirst

end Search

/-- The lookup does not panic, returns only a contract that matches, and prefers one that matches
on the metadata, exactly if no two ranges of a contract it compares overlap while the code agrees
in front of them, and the range of the metadata is not moved by a start that does not fit. -/
theorem find_by_deployed_code_exact_iff {Id : Type} (isCbor : Bytes → Bool)
    (artifacts : List (Id × ContractData)) (code : Bytes) (hcode : code ≠ [])
    (hformed : ∀ artifact ∈ artifacts, artifact.2.WellFormed) :
    (∃ found, findByDeployedCodeExact isCbor artifacts code = some found ∧
        (∀ artifact, found = some artifact →
          artifact ∈ artifacts ∧ artifact.2.Matches isCbor code) ∧
        ((∃ artifact ∈ artifacts, artifact.2.Matches isCbor code ∧
            artifact.2.MetadataMatches isCbor code) →
          ∃ artifact, found = some artifact ∧ artifact.2.MetadataMatches isCbor code)) ↔
      AllComparable isCbor code artifacts ∧
        ∀ artifact, chosen isCbor code artifacts = some artifact →
          artifact.2.WrappedMatches isCbor code := by
  have hsearch : findByDeployedCodeExact isCbor artifacts code =
      findFrom isCbor code artifacts none :=
    if_neg (by simpa using hcode)
  rw [hsearch]
  by_cases hcomparable : AllComparable isCbor code artifacts
  · rw [(findFrom_spec hformed none).2 hcomparable, or_none]
    constructor
    · rintro ⟨found, hfound, hmatches, _⟩
      cases hfound
      refine ⟨hcomparable, fun artifact hchosen => ?_⟩
      exact (matches_of_accepted (accepted_of_chosen hchosen).2).mp (hmatches artifact hchosen).2
    · intro ⟨_, hwrapped⟩
      refine ⟨_, rfl, fun artifact hchosen => ?_, fun ⟨artifact, hmem, hmatches, hmetadata⟩ => ?_⟩
      · obtain ⟨hmem, haccepted⟩ := accepted_of_chosen hchosen
        exact ⟨hmem, (matches_of_accepted haccepted).mpr (hwrapped artifact hchosen)⟩
      · obtain ⟨first, hfirst, hexact⟩ := chosen_of_acceptedExactly hmem
          ⟨accepted_of_matches hmatches hmetadata, hmetadata⟩
        exact ⟨first, hfirst, hexact.2⟩
  · rw [(findFrom_spec hformed none).1 hcomparable]
    simp [hcomparable]

theorem wellFormed_of_deployed {contract : ContractData} {bytecode : BytecodeData}
    {object : BytecodeObject} (h : contract.deployed? = some (bytecode, object))
    (heven : object.Even) (hbounds : ∀ r ∈ bytecode.references, r.stop ≤ object.byteLength)
    (hdisjoint : bytecode.references.Pairwise fun r r' => ∀ p, ¬ (r.Has p ∧ r'.Has p)) :
    contract.WellFormed := by
  constructor <;> rintro _ _ h' <;> cases h.symm.trans h' <;> assumption

/-- An immutable in the second byte, and metadata of one byte; `0xa0` is an empty map. -/
def immutableContract : ContractData :=
  ⟨some ⟨some (.bytecode [0x60, 0x00, 0xa0, 0x00, 0x01]), [], [[⟨1, 1⟩]]⟩⟩

theorem find_by_deployed_code_exact_immutable :
    findByDeployedCodeExact (· == [0xa0]) [((), immutableContract)]
        [0x60, 0x05, 0xa0, 0x00, 0x01] = some (some ((), immutableContract)) ∧
      immutableContract.Matches (· == [0xa0]) [0x60, 0x05, 0xa0, 0x00, 0x01] := by
  have hformed : immutableContract.WellFormed :=
    wellFormed_of_deployed rfl trivial
      (by simp [BytecodeData.references, Range.stop, BytecodeObject.byteLength])
      (by simp [BytecodeData.references])
  have hcomparable : AllComparable (· == [0xa0]) [0x60, 0x05, 0xa0, 0x00, 0x01]
      [((), immutableContract)] := by
    refine allComparable_cons.mpr ⟨?_, fun _ before artifact after hnil => ?_⟩
    · intro bytecode object hdeployed _
      cases hdeployed
      refine ⟨nofun, apart_of_clear sorted_ignoredBy ?_⟩
      show Clear _ 0 [⟨1, 1⟩, ⟨2, 3⟩]
      exact ⟨by decide, fun _ => ⟨by decide, fun _ => trivial⟩⟩
    · simp at hnil
  have hfound : findByDeployedCodeExact (· == [0xa0]) [((), immutableContract)]
      [0x60, 0x05, 0xa0, 0x00, 0x01] = some (some ((), immutableContract)) := by
    decide
  obtain ⟨found, heq, hmatches, -⟩ := (find_by_deployed_code_exact_iff (· == [0xa0])
    [((), immutableContract)] [0x60, 0x05, 0xa0, 0x00, 0x01] (by simp)
      (by simpa using hformed)).mpr ⟨hcomparable, fun _ _ metadata hmetadata hlarge => by
        cases hmetadata
        exact absurd hlarge (by decide)⟩
  rw [hfound] at heq
  exact ⟨hfound, (hmatches ((), immutableContract) (Option.some.inj heq).symm).2⟩

/-- A contract whose immutable reaches into what is read as metadata: the last two bytes of its
code say that the byte in front of them is some. -/
def overlappedContract : ContractData :=
  ⟨some ⟨some (.bytecode [0x00, 0xa0, 0x00, 0x01]), [], [[⟨0, 2⟩]]⟩⟩

theorem wellFormed_overlappedContract : overlappedContract.WellFormed :=
  wellFormed_of_deployed rfl trivial
    (by simp [BytecodeData.references, Range.stop, BytecodeObject.byteLength])
    (by simp [BytecodeData.references])

/-- Even the code of the contract itself makes the lookup panic; `0xa0` is an empty map. -/
theorem find_by_deployed_code_exact_panics :
    ¬ ∀ (Id : Type) (isCbor : Bytes → Bool) (artifacts : List (Id × ContractData)) (code : Bytes),
      code ≠ [] → (∀ artifact ∈ artifacts, artifact.2.WellFormed) →
      ∃ found, findByDeployedCodeExact isCbor artifacts code = some found ∧
        (∀ artifact, found = some artifact →
          artifact ∈ artifacts ∧ artifact.2.Matches isCbor code) ∧
        ((∃ artifact ∈ artifacts, artifact.2.Matches isCbor code ∧
            artifact.2.MetadataMatches isCbor code) →
          ∃ artifact, found = some artifact ∧ artifact.2.MetadataMatches isCbor code) := by
  intro h
  obtain ⟨found, hfound, _⟩ := h Unit (fun bytes => bytes == [0xa0]) [((), overlappedContract)]
    [0x00, 0xa0, 0x00, 0x01] (by simp) (by simpa using wellFormed_overlappedContract)
  cases hfound

end Foundry.Common
