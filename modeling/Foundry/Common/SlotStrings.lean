import Foundry.Common.SlotInfo

/-!
# Bytes and strings read back from storage

The encoding of a byte string in storage, and what `decode_bytes_or_string_values` makes of it from
a map that may lack some of the slots.  Slots that are not in the map are passed over, so that a
value without them is a shorter one.
-/

namespace Foundry.Common

open List

/-! ## The encoding -/

def dataWords (b : Bytes) : Nat := (b.length + 31) / 32

def dataWord (b : Bytes) (i : Nat) : Bytes :=
  let chunk := (b.drop (32 * i)).take 32
  chunk ++ List.replicate (32 - chunk.length) 0

/-- The word at the slot of a byte string: the bytes and twice their number, or twice their number
plus one. -/
def IsHeader (b : Bytes) (word : B256) : Prop :=
  if b.length ≤ 31 then
    wordBytes word = b ++ List.replicate (31 - b.length) 0 ++ [BitVec.ofNat 8 (2 * b.length)]
  else word.toNat = 2 * b.length + 1

section Storage

variable (keccak256 : Bytes → B256) (baseSlot : B256)
  (storageAccesses : B256 → Option (B256 × B256))

def dataSlot (i : Nat) : B256 := keccak256 (wordBytes baseSlot) + BitVec.ofNat 256 i

/-- One side of the accesses holds a byte string: its slot is there, and the slots of its data are
there with the right words, or not at all. -/
structure Holds (side : B256 × B256 → B256) (b : Bytes) : Prop where
  header : ∃ base, storageAccesses baseSlot = some base ∧ IsHeader b (side base)
  data : 31 < b.length → ∀ i < dataWords b, ∀ words,
    storageAccesses (dataSlot keccak256 baseSlot i) = some words →
      wordBytes (side words) = dataWord b i

def Complete (b : Bytes) : Prop :=
  31 < b.length → ∀ i < dataWords b, (storageAccesses (dataSlot keccak256 baseSlot i)).isSome = true

/-- A byte string that is read back as it is: it is short, or all of its slots are there and within
the cap, and it is valid if it is read as a string. -/
def ReadBack (type : DynSolType) (b : Bytes) : Prop :=
  (31 < b.length → b.length ≤ 8192 ∧ Complete keccak256 baseSlot storageAccesses b) ∧
    (type = .string → isUtf8 b = true)

end Storage

def storedValue {V : Type} (type : DynSolType) (b : Bytes) : DynSolValue V :=
  match type with
  | .string => .string b
  | _ => .bytes b

/-! ## The length of a value -/

private theorem lengthByte_toNat (value : B256) : (lengthByte value).toNat = value.toNat % 256 := by
  rfl

theorem lengthByte_of_short {b : Bytes} (hshort : b.length ≤ 31) {word : B256}
    (h : IsHeader b word) : (lengthByte word).toNat = 2 * b.length := by
  rw [IsHeader, if_pos hshort] at h
  have hlast : lengthByte word = BitVec.ofNat 8 (2 * b.length) := by
    rw [lengthByte, h, getD_eq_getElem?_getD, getElem?_append_right (by simp; omega)]
    have hindex : 31 - (b ++ List.replicate (31 - b.length) 0).length = 0 := by
      simp
      omega
    rw [hindex]
    rfl
  rw [hlast, BitVec.toNat_ofNat]
  omega

theorem isLong_of_header {b : Bytes} {word : B256} (h : IsHeader b word) :
    isLong word = decide (31 < b.length) := by
  have hbit : ∀ b : BitVec 8, (b &&& 1 == 1) = decide (b.toNat % 2 = 1) := by decide
  refine (hbit _).trans (decide_eq_decide.mpr ?_)
  by_cases hshort : b.length ≤ 31
  · rw [lengthByte_of_short hshort h]
    omega
  · rw [IsHeader, if_neg hshort] at h
    rw [lengthByte_toNat]
    omega

/-! ## The data -/

section Data

variable {keccak256 : Bytes → B256} {baseSlot : B256} {values : B256 → Option B256}

theorem collectData_succ (length n : Nat) :
    collectData values length (dataSlots keccak256 baseSlot (n + 1)) =
      let data := collectData values length (dataSlots keccak256 baseSlot n)
      match values (dataSlot keccak256 baseSlot n) with
      | some value => data ++ (wordBytes value).take (min 32 (length - data.length))
      | none => data := by
  rw [collectData, dataSlots, range_succ, map_append, foldl_append]
  rfl

theorem collectData_of_present {b : Bytes} {n : Nat} (hn : n ≤ dataWords b)
    (h : ∀ i < n, ∃ value, values (dataSlot keccak256 baseSlot i) = some value ∧
      wordBytes value = dataWord b i) :
    collectData values b.length (dataSlots keccak256 baseSlot n) = b.take (32 * n) := by
  induction n with
  | zero => rfl
  | succ n ih =>
    obtain ⟨value, hvalue, hword⟩ := h n (Nat.lt_succ_self n)
    have hbefore : 32 * n < b.length := by
      unfold dataWords at hn
      omega
    have hlength : (b.take (32 * n)).length = 32 * n := by
      rw [length_take]
      omega
    have hchunk : ((b.drop (32 * n)).take 32).length = min 32 (b.length - 32 * n) := by
      rw [length_take, length_drop]
    rw [collectData_succ, ih (by omega) fun i hi => h i (by omega), hvalue]
    simp only
    rw [hlength, hword, dataWord, ← hchunk, take_left, Nat.mul_succ, take_add]

variable (keccak256 baseSlot values) in
theorem length_collectData_le (length n : Nat) :
    (collectData values length (dataSlots keccak256 baseSlot n)).length ≤
      32 * (List.range n).countP fun i => (values (dataSlot keccak256 baseSlot i)).isSome := by
  induction n with
  | zero => exact Nat.le_refl _
  | succ n ih =>
    rw [collectData_succ, range_succ, countP_append]
    cases hvalue : values (dataSlot keccak256 baseSlot n) with
    | none =>
      simp only [countP_singleton, hvalue]
      simp
      omega
    | some value =>
      simp only [countP_singleton, hvalue, length_append, length_take]
      simp
      omega

private theorem length_collectData_lt {b : Bytes} {n i : Nat} (hn : n ≤ dataWords b) (hi : i < n)
    (hmissing : values (dataSlot keccak256 baseSlot i) = none) :
    (collectData values b.length (dataSlots keccak256 baseSlot n)).length < b.length := by
  have hbound := length_collectData_le keccak256 baseSlot values b.length n
  have hcount : ((List.range n).countP fun i =>
      (values (dataSlot keccak256 baseSlot i)).isSome) < n := by
    have hle := countP_le_length (p := fun i =>
      (values (dataSlot keccak256 baseSlot i)).isSome) (l := List.range n)
    have hne : ¬ ∀ i ∈ List.range n, (values (dataSlot keccak256 baseSlot i)).isSome = true :=
      fun h => by simpa [hmissing] using h i (mem_range.mpr hi)
    rw [← countP_eq_length] at hne
    rw [length_range] at hle hne
    omega
  unfold dataWords at hn
  omega

end Data

/-! ## One side of the accesses -/

theorem length_fromUtf8OrDefault_le (data : Bytes) :
    (fromUtf8OrDefault data).length ≤ data.length := by
  unfold fromUtf8OrDefault
  split <;> simp

theorem fromUtf8OrDefault_eq_self {data : Bytes} :
    fromUtf8OrDefault data = data ↔ isUtf8 data = true := by
  unfold fromUtf8OrDefault
  constructor
  · intro h
    by_contra hinvalid
    rw [if_neg hinvalid] at h
    subst h
    exact hinvalid (by decide +kernel)
  · intro h
    rw [if_pos h]

section Side

variable {V : Type} (abiDecode : DynSolType → Bytes → Option (DynSolValue V))
  (keccak256 : Bytes → B256) (baseSlot : B256)
  (storageAccesses : B256 → Option (B256 × B256)) (side : B256 × B256 → B256)

def readData (b : Bytes) : Bytes :=
  if b.length ≤ 31 then b
  else
    collectData (fun slot => (storageAccesses slot).map side) b.length
      (dataSlots keccak256 baseSlot (min (dataWords b) 256))

variable {keccak256 baseSlot storageAccesses side} {b : Bytes}

theorem readData_of_fits (h : Holds keccak256 baseSlot storageAccesses side b)
    (hfits : 31 < b.length → b.length ≤ 8192 ∧ Complete keccak256 baseSlot storageAccesses b) :
    readData keccak256 baseSlot storageAccesses side b = b := by
  unfold readData
  split
  · rfl
  · next hlong =>
    obtain ⟨hcap, hcomplete⟩ := hfits (by omega)
    have hwords : min (dataWords b) 256 = dataWords b := by
      unfold dataWords
      omega
    rw [hwords, collectData_of_present (Nat.le_refl _)]
    · apply take_of_length_le
      unfold dataWords
      omega
    · intro i hi
      obtain ⟨words, hwords⟩ := Option.isSome_iff_exists.mp (hcomplete (by omega) i hi)
      exact ⟨side words, by rw [hwords]; rfl, h.data (by omega) i hi words hwords⟩

variable (side) in
private theorem length_readData_lt
    (hfits : ¬ (31 < b.length → b.length ≤ 8192 ∧ Complete keccak256 baseSlot storageAccesses b)) :
    (readData keccak256 baseSlot storageAccesses side b).length < b.length := by
  have hlong : 31 < b.length := by
    by_contra hshort
    exact hfits fun h => absurd h hshort
  unfold readData
  rw [if_neg (by omega)]
  by_cases hcap : b.length ≤ 8192
  · have hwords : min (dataWords b) 256 = dataWords b := by
      unfold dataWords
      omega
    have hmissing : ∃ i < dataWords b,
        (storageAccesses (dataSlot keccak256 baseSlot i)).isSome ≠ true := by
      by_contra hall
      push Not at hall
      exact hfits fun _ => ⟨hcap, fun _ => hall⟩
    obtain ⟨i, hi, hnone⟩ := hmissing
    rw [hwords]
    refine length_collectData_lt (Nat.le_refl _) hi ?_
    rw [Option.map_eq_none_iff]
    simpa using hnone
  · have hbound := length_collectData_le keccak256 baseSlot
      (fun slot => (storageAccesses slot).map side) b.length (min (dataWords b) 256)
    have hcount := countP_le_length (p := fun i =>
      ((storageAccesses (dataSlot keccak256 baseSlot i)).map side).isSome)
      (l := List.range (min (dataWords b) 256))
    rw [length_range] at hcount
    omega

theorem readBack_iff {type : DynSolType} (htype : type.isBytesOrString = true)
    (h : Holds keccak256 baseSlot storageAccesses side b) :
    (bytesValue type (readData keccak256 baseSlot storageAccesses side b) : DynSolValue V) =
        storedValue type b ↔
      ReadBack keccak256 baseSlot storageAccesses type b := by
  by_cases hfits : 31 < b.length → b.length ≤ 8192 ∧ Complete keccak256 baseSlot storageAccesses b
  · rw [readData_of_fits h hfits, ReadBack, and_iff_right hfits]
    cases type with
    | string => simp [bytesValue, storedValue, fromUtf8OrDefault_eq_self]
    | bytes => simp [bytesValue, storedValue]
    | _ => cases htype
  have hshorter := length_readData_lt side hfits
  have hno : ¬ ReadBack keccak256 baseSlot storageAccesses type b := fun h => hfits h.1
  refine ⟨fun heq => ?_, fun h => absurd h hno⟩
  cases type with
  | string =>
    have hle := length_fromUtf8OrDefault_le (readData keccak256 baseSlot storageAccesses side b)
    simp only [bytesValue, storedValue, DynSolValue.string.injEq] at heq
    rw [heq] at hle
    omega
  | bytes =>
    simp only [bytesValue, storedValue, DynSolValue.bytes.injEq] at heq
    rw [heq] at hshorter
    omega
  | _ => cases htype

theorem decode_short {info : SlotInfo V} (htype : info.dynSolType.isBytesOrString = true)
    {word : B256} (hshort : b.length ≤ 31) (hheader : IsHeader b word) :
    info.decode abiDecode word = some (some (bytesValue info.dynSolType b)) := by
  have hlong : isLong word = false := by
    rw [isLong_of_header hheader, decide_eq_false (by omega)]
  have hlength : (lengthByte word >>> 1).toNat = b.length := by
    rw [BitVec.toNat_ushiftRight, lengthByte_of_short hshort hheader]
    omega
  have hslice : slice (wordBytes word) 0 b.length = some b := by
    rw [IsHeader, if_pos hshort] at hheader
    rw [slice_of_le (Nat.zero_le _) (by rw [length_wordBytes]; omega), hheader]
    simp
  have hdata : (if b.length = 0 then some [] else slice (wordBytes word) 0 b.length) = some b := by
    split
    · next hempty => rw [length_eq_zero_iff.mp hempty]
    · exact hslice
  unfold SlotInfo.decode
  simp only [actualType_of_isBytesOrString htype, htype, hlong, hlength, hdata]
  cases hinfo : info.dynSolType with
  | string => cases b <;> simp [bytesValue, fromUtf8OrDefault]
  | bytes => rfl
  | _ => simp [hinfo, DynSolType.isBytesOrString] at htype

variable (keccak256) in
/-- A side that holds a byte string is read, unless its length is more than can be reserved. -/
theorem decodeValue_of_holds {info : SlotInfo V} (htype : info.dynSolType.isBytesOrString = true)
    {base : B256 × B256} (hbase : storageAccesses baseSlot = some base)
    (hheader : IsHeader b (side base)) :
    (info.decodeValue abiDecode keccak256 baseSlot storageAccesses side (side base) = none ∧
        isizeMax < b.length) ∨
      ∃ decoded,
        info.decodeValue abiDecode keccak256 baseSlot storageAccesses side (side base) =
          some decoded ∧
        decoded.result.1 = some (bytesValue info.dynSolType
          (readData keccak256 baseSlot storageAccesses side b)) := by
  have hlong := isLong_of_header hheader
  unfold SlotInfo.decodeValue readData
  by_cases hshort : b.length ≤ 31
  · rw [decide_eq_false (by omega)] at hlong
    rw [hlong, if_neg Bool.false_ne_true, decode_short abiDecode htype hshort hheader,
      if_pos hshort]
    exact .inr ⟨_, rfl, rfl⟩
  rw [decide_eq_true (by omega)] at hlong
  have hlength : (side base >>> 1).toNat = b.length := by
    rw [IsHeader, if_neg hshort] at hheader
    rw [BitVec.toNat_ushiftRight, Nat.shiftRight_eq_div_pow, hheader]
    omega
  rw [hlong, if_pos rfl, if_neg hshort]
  simp only [SlotInfo.decodeBytesOrString, SlotInfo.aggregateBytesOrStrings, htype, if_true,
    hbase, Option.map_some, hlong, hlength]
  split
  · exact .inr ⟨_, rfl, rfl⟩
  · next hbound =>
    refine .inl ⟨rfl, ?_⟩
    unfold isizeMax at hbound ⊢
    omega

variable (keccak256) in
theorem decoded_of_holds {info : SlotInfo V} (htype : info.dynSolType.isBytesOrString = true)
    {previous new : Bytes} (hprevious : Holds keccak256 baseSlot storageAccesses Prod.fst previous)
    (hnew : Holds keccak256 baseSlot storageAccesses Prod.snd new) :
    (info.decodeBytesOrStringValues abiDecode keccak256 baseSlot storageAccesses = none ∧
        (isizeMax < previous.length ∨ isizeMax < new.length)) ∨
      ∃ decoded, info.decodeBytesOrStringValues abiDecode keccak256 baseSlot storageAccesses =
          some decoded ∧
        decoded.result.decoded = some ⟨bytesValue info.dynSolType
              (readData keccak256 baseSlot storageAccesses Prod.fst previous),
            bytesValue info.dynSolType
              (readData keccak256 baseSlot storageAccesses Prod.snd new)⟩ := by
  obtain ⟨base, hbase, hpreviousHeader⟩ := hprevious.header
  obtain ⟨base', hbase', hnewHeader⟩ := hnew.header
  cases hbase.symm.trans hbase'
  simp only [SlotInfo.decodeBytesOrStringValues, htype, if_true, hbase]
  rcases decodeValue_of_holds abiDecode keccak256 htype hbase hpreviousHeader with
    ⟨hnone, hbig⟩ | ⟨first, hfirst, hfirstValue⟩
  · exact .inl ⟨by rw [hnone]; rfl, .inl hbig⟩
  have hsame := dynSolType_decodeValue hfirst
  rcases decodeValue_of_holds abiDecode keccak256 (hsame.symm ▸ htype) hbase hnewHeader with
    ⟨hnone, hbig⟩ | ⟨second, hsecond, hsecondValue⟩
  · exact .inl ⟨by rw [hfirst, Option.bind_some, hnone]; rfl, .inr hbig⟩
  · rw [hsame] at hsecondValue
    refine .inr ⟨_, by rw [hfirst, Option.bind_some, hsecond, Option.map_some], ?_⟩
    simp only [hfirstValue, hsecondValue]

theorem not_readBack_of_lt {type : DynSolType} (h : isizeMax < b.length) :
    ¬ ReadBack keccak256 baseSlot storageAccesses type b := by
  intro hback
  unfold isizeMax at h
  have hcap := (hback.1 (by omega)).1
  omega

end Side

/-- Both values are decoded as they were stored, or not at all, exactly if each of them is short or
complete and within the cap, and valid if it is a string. -/
theorem decode_bytes_or_string_values_iff {V : Type}
    (abiDecode : DynSolType → Bytes → Option (DynSolValue V)) (keccak256 : Bytes → B256)
    (info : SlotInfo V) (baseSlot : B256) (storageAccesses : B256 → Option (B256 × B256))
    (previous new : Bytes) (htype : info.dynSolType.isBytesOrString = true)
    (hprevious : Holds keccak256 baseSlot storageAccesses Prod.fst previous)
    (hnew : Holds keccak256 baseSlot storageAccesses Prod.snd new) :
    (∃ decoded, info.decodeBytesOrStringValues abiDecode keccak256 baseSlot storageAccesses =
        some decoded ∧
        (Complete keccak256 baseSlot storageAccesses previous →
          Complete keccak256 baseSlot storageAccesses new →
          decoded.result.decoded =
            some ⟨storedValue info.dynSolType previous, storedValue info.dynSolType new⟩) ∧
        (decoded.result.decoded = none ∨
          decoded.result.decoded =
            some ⟨storedValue info.dynSolType previous, storedValue info.dynSolType new⟩)) ↔
      ReadBack keccak256 baseSlot storageAccesses info.dynSolType previous ∧
        ReadBack keccak256 baseSlot storageAccesses info.dynSolType new := by
  rcases decoded_of_holds abiDecode keccak256 htype hprevious hnew with
    ⟨hnone, hbig⟩ | ⟨decoded, hdecoded, hvalues⟩
  · rw [hnone]
    rcases hbig with hbig | hbig <;> simp [not_readBack_of_lt hbig]
  · rw [hdecoded, ← readBack_iff (V := V) htype hprevious, ← readBack_iff (V := V) htype hnew]
    simp only [Option.some.injEq, exists_eq_left', hvalues, DecodedSlotValues.mk.injEq,
      reduceCtorEq, false_or]
    exact ⟨fun h => h.2, fun h => ⟨fun _ _ => h, h⟩⟩

/-! ## A value with a missing slot -/

/-- A hash that puts the data of every slot at 100. -/
def fixedHash (_ : Bytes) : B256 := 100

def longBytes : Bytes := List.replicate 33 0x61

def filledWord : B256 := BitVec.ofNat 256 (0x61 * ((256 ^ 32 - 1) / 255))

/-- The slot of the bytes and the first slot of their data, on both sides. -/
def partialAccesses (slot : B256) : Option (B256 × B256) :=
  if slot = 0 then some (67, 67) else if slot = 100 then some (filledWord, filledWord) else none

theorem holds_partialAccesses {side : B256 × B256 → B256}
    (hside : ∀ word, side (word, word) = word) :
    Holds fixedHash 0 partialAccesses side longBytes where
  header := ⟨(67, 67), rfl, by rw [hside, IsHeader]; decide⟩
  data _ i hi words hwords := by
    have hi : i < 2 := hi
    obtain rfl | rfl : i = 0 ∨ i = 1 := by omega
    · cases hwords
      rw [hside]
      decide +kernel
    · cases hwords

def bytesInfo : SlotInfo Unit := ⟨"data", "bytes", .bytes, none, none⟩

/-- The theorem at a value with a missing slot. -/
theorem decode_bytes_or_string_values_iff_partial :
    bytesInfo.dynSolType.isBytesOrString = true ∧
      Holds fixedHash 0 partialAccesses Prod.fst longBytes ∧
      Holds fixedHash 0 partialAccesses Prod.snd longBytes ∧
      ((∃ decoded, bytesInfo.decodeBytesOrStringValues (fun _ _ => none) fixedHash 0
            partialAccesses = some decoded ∧
          (Complete fixedHash 0 partialAccesses longBytes →
            Complete fixedHash 0 partialAccesses longBytes →
            decoded.result.decoded =
              some ⟨storedValue bytesInfo.dynSolType longBytes,
                storedValue bytesInfo.dynSolType longBytes⟩) ∧
          (decoded.result.decoded = none ∨
            decoded.result.decoded =
              some ⟨storedValue bytesInfo.dynSolType longBytes,
                storedValue bytesInfo.dynSolType longBytes⟩)) ↔
        ReadBack fixedHash 0 partialAccesses bytesInfo.dynSolType longBytes ∧
          ReadBack fixedHash 0 partialAccesses bytesInfo.dynSolType longBytes) :=
  ⟨rfl, holds_partialAccesses fun _ => rfl, holds_partialAccesses fun _ => rfl,
    decode_bytes_or_string_values_iff _ _ _ _ _ _ _ rfl (holds_partialAccesses fun _ => rfl)
      (holds_partialAccesses fun _ => rfl)⟩

/-- Without the slot of the last byte, the value is decoded as the thirty-two bytes before it. -/
theorem decode_bytes_or_string_values_shortens :
    ¬ ∀ (V : Type) (abiDecode : DynSolType → Bytes → Option (DynSolValue V))
        (keccak256 : Bytes → B256) (info : SlotInfo V) (baseSlot : B256)
        (storageAccesses : B256 → Option (B256 × B256)) (previous new : Bytes),
      info.dynSolType.isBytesOrString = true →
      Holds keccak256 baseSlot storageAccesses Prod.fst previous →
      Holds keccak256 baseSlot storageAccesses Prod.snd new →
      ∃ decoded, info.decodeBytesOrStringValues abiDecode keccak256 baseSlot storageAccesses =
          some decoded ∧
        (Complete keccak256 baseSlot storageAccesses previous →
          Complete keccak256 baseSlot storageAccesses new →
          decoded.result.decoded =
            some ⟨storedValue info.dynSolType previous, storedValue info.dynSolType new⟩) ∧
        (decoded.result.decoded = none ∨
          decoded.result.decoded =
            some ⟨storedValue info.dynSolType previous, storedValue info.dynSolType new⟩) := by
  intro h
  have hprevious := holds_partialAccesses (fun _ => rfl : ∀ word, Prod.fst (word, word) = word)
  have hnew := holds_partialAccesses (fun _ => rfl : ∀ word, Prod.snd (word, word) = word)
  obtain ⟨decoded, hdecoded, _, hvalues⟩ :=
    h Unit (fun _ _ => none) fixedHash bytesInfo 0 partialAccesses longBytes longBytes rfl hprevious
      hnew
  rcases decoded_of_holds (fun _ _ => none) fixedHash
      (show bytesInfo.dynSolType.isBytesOrString = true from rfl) hprevious hnew with
    ⟨_, hbig⟩ | ⟨decoded', hdecoded', hvalues'⟩
  · exact absurd hbig (by decide)
  · cases hdecoded.symm.trans hdecoded'
    rw [hvalues'] at hvalues
    simp only [reduceCtorEq, false_or, Option.some.injEq, DecodedSlotValues.mk.injEq] at hvalues
    have hback := (readBack_iff rfl hprevious).mp hvalues.1
    exact absurd ((hback.1 (by decide)).2 (by decide) 1 (by decide)) (by decide)

end Foundry.Common
