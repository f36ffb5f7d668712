import Foundry.Common.ArtifactLookup

/-!
# Decoding storage slots

A slot of a contract is decoded by the type the storage layout gives it.  Bytes and strings of
fewer than 32 bytes are in the slot itself, with twice their length in the last byte; longer ones
leave twice their length plus one there, and their bytes in slots from the hash of the slot on.

A panic is `none`, in the words of a build that wraps the arithmetic of `usize`.  The decoder of
values by their type and the hash are parameters, and maps are given by their lookup.
-/

namespace Foundry.Common

open Option

/-! ## Types and values -/

inductive DynSolType where
  | bool
  | int (bits : U64)
  | uint (bits : U64)
  | fixedBytes (size : U64)
  | address
  | function
  | bytes
  | string
  | array (element : DynSolType)
  | fixedArray (element : DynSolType) (size : U64)
  | tuple (elements : List DynSolType)
  | customStruct (name : String) (propNames : List String) (tuple : List DynSolType)

namespace DynSolType

def actualType : DynSolType → DynSolType
  | fixedArray element _ => element.actualType
  | type => type

def isBytesOrString : DynSolType → Bool
  | bytes => true
  | string => true
  | _ => false

def memberSize : DynSolType → U64
  | uint bits => bits / 8
  | int bits => bits / 8
  | address => 20
  | bool => 1
  | fixedBytes size => size
  | _ => 32

end DynSolType

inductive DynSolValue (V : Type) where
  | string (utf8 : Bytes)
  | bytes (data : Bytes)
  | other (value : V)

/-- `String::from_utf8` accepts the bytes. -/
def isUtf8 (data : Bytes) : Bool := (ByteArray.mk (data.map UInt8.ofBitVec).toArray).validateUTF8

/-- `String::from_utf8(data).unwrap_or_default()`. -/
def fromUtf8OrDefault (data : Bytes) : Bytes := if isUtf8 data then data else []

structure DecodedSlotValues (V : Type) where
  previousValue : DynSolValue V
  newValue : DynSolValue V

/-- The information on a member of a struct or on a slot of data, which has no members itself. -/
structure MemberInfo (V : Type) where
  label : String
  typeLabel : String
  dynSolType : DynSolType
  offset : BitVec 64
  slot : String
  decoded : Option (DecodedSlotValues V)

structure SlotInfo (V : Type) where
  label : String
  typeLabel : String
  dynSolType : DynSolType
  members : Option (List (MemberInfo V))
  decoded : Option (DecodedSlotValues V)

def wordBytes (value : B256) : Bytes := toBeBytes 32 value

/-- `value.0[31]`. -/
def lengthByte (value : B256) : BitVec 8 := (wordBytes value).getD 31 0

/-- The test of the last bit of the length byte, which is set for a value in slots of its own. -/
def isLong (value : B256) : Bool := lengthByte value &&& 1 == 1

section Decode

variable {V : Type} (abiDecode : DynSolType → Bytes → Option (DynSolValue V))
  (keccak256 : Bytes → B256)

/-! ## One word -/

def bytesValue (type : DynSolType) (data : Bytes) : DynSolValue V :=
  match type with
  | .string => .string (fromUtf8OrDefault data)
  | _ => .bytes data

def SlotInfo.decode (info : SlotInfo V) (value : B256) : Option (Option (DynSolValue V)) :=
  let type := info.dynSolType.actualType
  if type.isBytesOrString then
    if isLong value then
      -- long values are left to `decode_bytes_or_string`
      some none
    else
      let length := (lengthByte value >>> 1).toNat
      let data := if length = 0 then some [] else slice (wordBytes value) 0 length
      data.map fun data =>
        match type with
        | .string => some (.string (if data.isEmpty then [] else fromUtf8OrDefault data))
        | _ => some (.bytes data)
  else some (abiDecode type (wordBytes value))

/-! ## Several words -/

/-- The capacity that can be reserved at most, `isize::MAX`. -/
def isizeMax : Nat := 2 ^ 63 - 1

def dataSlots (baseSlot : B256) (numSlots : Nat) : List B256 :=
  (List.range numSlots).map fun i => keccak256 (wordBytes baseSlot) + BitVec.ofNat 256 i

/-- The bytes of the words that are there, up to the length of the value. -/
def collectData (storageValues : B256 → Option B256) (length : Nat) (slots : List B256) : Bytes :=
  slots.foldl (fun fullData slot =>
      match storageValues slot with
      | some value => fullData ++ (wordBytes value).take (min 32 (length - fullData.length))
      | none => fullData)
    []

/-- The indexed members for the slots of the data. -/
def dataMembers (info : SlotInfo V) (slots : List B256) : List (MemberInfo V) :=
  slots.zipIdx.map fun (slot, i) =>
    { label := info.label ++ "[" ++ toString i ++ "]"
      typeLabel := info.typeLabel
      dynSolType := .fixedBytes 32
      offset := 0
      slot := toString slot.toNat
      decoded := none }

/-- What an operation returns, with the bytes of capacity it reserved for a stored length. -/
structure Reserving (α : Type) where
  result : α
  reserved : Nat

def SlotInfo.aggregateBytesOrStrings (info : SlotInfo V) (baseSlot : B256)
    (storageValues : B256 → Option B256) : Option (Reserving (Option Bytes × SlotInfo V)) :=
  if info.dynSolType.isBytesOrString then
    match storageValues baseSlot with
    | some baseValue =>
      if isLong baseValue then
        let length := (baseValue >>> 1).toNat
        -- `to::<usize>()`, then the capacity of the buffer
        if length < 2 ^ 64 ∧ length ≤ isizeMax then
          let numSlots := min ((length + 31) / 32) 256
          let slots := dataSlots keccak256 baseSlot numSlots
          let members := dataMembers info slots
          let info := if members.isEmpty then info else { info with members := some members }
          some ⟨(some (collectData storageValues length slots), info), length⟩
        else none
      else some ⟨(none, info), 0⟩
    | none => some ⟨(none, info), 0⟩
  else some ⟨(none, info), 0⟩

def SlotInfo.decodeBytesOrString (info : SlotInfo V) (baseSlot : B256)
    (storageValues : B256 → Option B256) :
    Option (Reserving (Option (DynSolValue V) × SlotInfo V)) :=
  if info.dynSolType.isBytesOrString then
    (info.aggregateBytesOrStrings keccak256 baseSlot storageValues).map fun aggregated =>
      ⟨(aggregated.result.1.map (bytesValue info.dynSolType), aggregated.result.2),
        aggregated.reserved⟩
  else some ⟨(none, info), 0⟩

def SlotInfo.decodeValue (info : SlotInfo V) (baseSlot : B256)
    (storageAccesses : B256 → Option (B256 × B256)) (side : B256 × B256 → B256)
    (baseValue : B256) : Option (Reserving (Option (DynSolValue V) × SlotInfo V)) :=
  if isLong baseValue then
    info.decodeBytesOrString keccak256 baseSlot fun slot => (storageAccesses slot).map side
  else (info.decode abiDecode baseValue).map fun decoded => ⟨(decoded, info), 0⟩

def SlotInfo.decodeBytesOrStringValues (info : SlotInfo V) (baseSlot : B256)
    (storageAccesses : B256 → Option (B256 × B256)) : Option (Reserving (SlotInfo V)) :=
  if info.dynSolType.isBytesOrString then
    match storageAccesses baseSlot with
    | some base =>
      (info.decodeValue abiDecode keccak256 baseSlot storageAccesses Prod.fst base.1).bind
        fun previous =>
          (previous.result.2.decodeValue abiDecode keccak256 baseSlot storageAccesses Prod.snd
            base.2).map fun new =>
            { result :=
                match previous.result.1, new.result.1 with
                | some previousValue, some newValue =>
                  { new.result.2 with decoded := some ⟨previousValue, newValue⟩ }
                | _, _ => new.result.2
              reserved := max previous.reserved new.reserved }
    | none => some ⟨info, 0⟩
  else some ⟨info, 0⟩

/-! ## Packed members -/

def memberBytes (offset size : U64) (value : B256) : Option Bytes :=
  if offset + size ≤ 32 then
    let byteStart := 32 - offset - size
    let target := 32 - size
    if target ≤ 32 then
      (slice (wordBytes value) byteStart.toNat (byteStart + size).toNat).bind fun part =>
        -- `copy_from_slice` takes slices of one length
        if part.length = 32 - target.toNat then some (List.replicate target.toNat 0 ++ part)
        else none
    else none
  else some (List.replicate 32 0)

def MemberInfo.decodeValues (previousValue newValue : B256) (info : MemberInfo V) :
    Option (MemberInfo V) :=
  (memberBytes info.offset info.dynSolType.memberSize previousValue).bind fun prevBytes =>
    (memberBytes info.offset info.dynSolType.memberSize newValue).map fun newBytes =>
      match abiDecode info.dynSolType prevBytes, abiDecode info.dynSolType newBytes with
      | some prev, some new => { info with decoded := some ⟨prev, new⟩ }
      | _, _ => info

def SlotInfo.decodeValues (info : SlotInfo V) (previousValue newValue : B256) :
    Option (SlotInfo V) :=
  match info.members with
  | some members =>
    (members.mapM (MemberInfo.decodeValues abiDecode previousValue newValue)).map fun members =>
      { info with members := some members }
  | none =>
    (info.decode abiDecode previousValue).bind fun prev =>
      (info.decode abiDecode newValue).map fun new =>
        match prev, new with
        | some prev, some new => { info with decoded := some ⟨prev, new⟩ }
        | _, _ => info

end Decode

/-! ## When nothing goes wrong -/

/-- The length in the last byte of a short value is at most 32. -/
def ShortFits (type : DynSolType) (value : B256) : Prop :=
  type.isBytesOrString = true → isLong value = false → (lengthByte value).toNat < 66

/-- The length of a long value is at most that of 256 slots. -/
def LongFits (type : DynSolType) (value : B256) : Prop :=
  type.isBytesOrString = true → isLong value = true → value.toNat / 2 ≤ 8192

/-- The end of a member does not wrap to the first word. -/
def MemberInfo.Fits {V : Type} (info : MemberInfo V) : Prop :=
  info.offset.toNat + info.dynSolType.memberSize.toNat < 2 ^ 64 ∨
    2 ^ 64 + 32 < info.offset.toNat + info.dynSolType.memberSize.toNat

@[simp] theorem length_wordBytes (value : B256) : (wordBytes value).length = 32 := by
  simp [wordBytes, toBeBytes]

section Safety

variable {V : Type} (abiDecode : DynSolType → Bytes → Option (DynSolValue V))
  (keccak256 : Bytes → B256) (info : SlotInfo V)

theorem isSome_decode (value : B256) :
    (info.decode abiDecode value).isSome = true ↔ ShortFits info.dynSolType.actualType value := by
  unfold SlotInfo.decode ShortFits
  simp only
  split
  · next htype =>
    split
    · next hlong => simp [hlong]
    · next hlong =>
      have hshort : isLong value = false := Bool.eq_false_iff.mpr hlong
      have hhalf : (lengthByte value >>> 1).toNat = (lengthByte value).toNat / 2 := by
        rw [BitVec.toNat_ushiftRight, Nat.shiftRight_eq_div_pow]
      simp only [htype, hshort, true_implies, isSome_map]
      split
      · simp only [isSome_some, true_iff]
        omega
      · simp [slice]
        omega
  · next htype => simp [htype]

theorem aggregate_within (baseSlot : B256) (storageValues : B256 → Option B256) :
    (∃ aggregated, info.aggregateBytesOrStrings keccak256 baseSlot storageValues =
        some aggregated ∧ aggregated.reserved ≤ 8192) ↔
      ∀ value, storageValues baseSlot = some value → LongFits info.dynSolType value := by
  unfold SlotInfo.aggregateBytesOrStrings LongFits
  split
  · next htype =>
    cases hvalue : storageValues baseSlot with
    | none => simp
    | some value =>
      have hlength : (value >>> 1).toNat = value.toNat / 2 := by
        rw [BitVec.toNat_ushiftRight, Nat.shiftRight_eq_div_pow]
      simp only [Option.some.injEq, forall_eq', htype, hlength]
      split
      · next hlong =>
        simp only [hlong, true_implies]
        by_cases hfits : value.toNat / 2 ≤ 8192
        · have hsmall : value.toNat / 2 < 2 ^ 64 ∧ value.toNat / 2 ≤ isizeMax := by
            unfold isizeMax
            omega
          rw [if_pos hsmall]
          exact ⟨fun _ => hfits, fun _ => ⟨_, rfl, hfits⟩⟩
        · refine ⟨fun ⟨aggregated, h, hreserved⟩ => ?_, fun h => absurd h hfits⟩
          split at h
          · cases h
            exact hreserved
          · cases h
      · next hlong => simp [hlong]
  · next htype => simp [htype]

variable {abiDecode keccak256 info} {baseSlot : B256}

private theorem dynSolType_aggregate {storageValues : B256 → Option B256}
    {aggregated : Reserving (Option Bytes × SlotInfo V)}
    (h : info.aggregateBytesOrStrings keccak256 baseSlot storageValues = some aggregated) :
    aggregated.result.2.dynSolType = info.dynSolType := by
  unfold SlotInfo.aggregateBytesOrStrings at h
  split at h
  · split at h
    · split at h
      · simp only at h
        split at h
        · cases h
          split <;> rfl
        · cases h
      · cases h
        rfl
    · cases h
      rfl
  · cases h
    rfl

theorem dynSolType_decodeValue {storageAccesses : B256 → Option (B256 × B256)}
    {side : B256 × B256 → B256} {baseValue : B256}
    {decoded : Reserving (Option (DynSolValue V) × SlotInfo V)}
    (h : info.decodeValue abiDecode keccak256 baseSlot storageAccesses side baseValue =
      some decoded) : decoded.result.2.dynSolType = info.dynSolType := by
  unfold SlotInfo.decodeValue SlotInfo.decodeBytesOrString at h
  split at h
  · split at h
    · obtain ⟨aggregated, haggregated, rfl⟩ := map_eq_some_iff.mp h
      exact dynSolType_aggregate haggregated
    · cases h
      rfl
  · obtain ⟨_, _, rfl⟩ := map_eq_some_iff.mp h
    rfl

theorem actualType_of_isBytesOrString {type : DynSolType} (h : type.isBytesOrString = true) :
    type.actualType = type := by
  cases type with
  | fixedArray element size => cases h
  | _ => rfl

variable (abiDecode keccak256) in
theorem decodeValue_within {baseSlot : B256} {storageAccesses : B256 → Option (B256 × B256)}
    (side : B256 × B256 → B256) {base : B256 × B256}
    (htype : info.dynSolType.isBytesOrString = true)
    (hbase : storageAccesses baseSlot = some base) :
    (∃ decoded, info.decodeValue abiDecode keccak256 baseSlot storageAccesses side (side base) =
        some decoded ∧ decoded.reserved ≤ 8192) ↔
      ShortFits info.dynSolType (side base) ∧ LongFits info.dynSolType (side base) := by
  unfold SlotInfo.decodeValue
  split
  · next hlong =>
    have haggregate := aggregate_within keccak256 info baseSlot
      fun slot => (storageAccesses slot).map side
    have hshort : ShortFits info.dynSolType (side base) := fun _ heven => by
      simp [hlong] at heven
    simp only [hbase, map_some, Option.some.injEq, forall_eq'] at haggregate
    rw [and_iff_right hshort, ← haggregate]
    simp only [SlotInfo.decodeBytesOrString, htype, if_true]
    cases info.aggregateBytesOrStrings keccak256 baseSlot
      (fun slot => (storageAccesses slot).map side) <;> simp
  · next hlong =>
    have hdecode := isSome_decode abiDecode info (side base)
    rw [actualType_of_isBytesOrString htype] at hdecode
    have hfits : LongFits info.dynSolType (side base) := fun _ hodd => absurd hodd hlong
    rw [and_iff_left hfits, ← hdecode]
    cases info.decode abiDecode (side base) <;> simp

theorem memberBytes_of_le {offset size : U64} (h : offset.toNat + size.toNat ≤ 32) (value : B256) :
    memberBytes offset size value = some (List.replicate (32 - size.toNat) 0 ++
      ((wordBytes value).drop (32 - offset.toNat - size.toNat)).take size.toNat) := by
  have hin : offset + size ≤ 32 := by bv_omega
  have hroom : 32 - size ≤ 32 := by bv_omega
  have htarget : (32 - size).toNat = 32 - size.toNat := by bv_omega
  have hstart : (32 - offset - size).toNat = 32 - offset.toNat - size.toNat := by bv_omega
  have hend : (32 - offset - size + size).toNat = 32 - offset.toNat - size.toNat + size.toNat := by
    bv_omega
  have hword : 32 - offset.toNat - size.toNat + size.toNat ≤ (wordBytes value).length := by
    rw [length_wordBytes]
    omega
  simp only [memberBytes, if_pos hin, if_pos hroom, htarget, hstart, hend]
  rw [slice_of_le (Nat.le_add_right _ _) hword, bind_some, Nat.add_sub_cancel_left, if_pos]
  rw [List.length_take, List.length_drop]
  omega

/-- A member is read, or is left out, unless its end wraps to the first word. -/
theorem isSome_memberBytes (offset size : U64) (value : B256) :
    (memberBytes offset size value).isSome = true ↔
      offset.toNat + size.toNat < 2 ^ 64 ∨ 2 ^ 64 + 32 < offset.toNat + size.toNat := by
  by_cases hfits : offset.toNat + size.toNat ≤ 32
  · rw [memberBytes_of_le hfits]
    exact iff_of_true rfl (.inl (by omega))
  unfold memberBytes
  split
  · simp only
    split
    · have hout : ¬ (32 - offset - size + size).toNat ≤ 32 := by bv_omega
      simp only [slice, length_wordBytes, hout, and_false, if_false, bind_none,
        isSome_none, Bool.false_eq_true, false_iff]
      bv_omega
    · simp only [isSome_none, Bool.false_eq_true, false_iff]
      bv_omega
  · simp only [isSome_some, true_iff]
    bv_omega

theorem isSome_decodeValues_member (previousValue newValue : B256) (member : MemberInfo V) :
    (member.decodeValues abiDecode previousValue newValue).isSome = true ↔ member.Fits := by
  have hprevious := isSome_memberBytes member.offset member.dynSolType.memberSize previousValue
  have hnew := isSome_memberBytes member.offset member.dynSolType.memberSize newValue
  unfold MemberInfo.decodeValues MemberInfo.Fits
  rw [← hprevious]
  rw [← hprevious] at hnew
  cases hbytes : memberBytes member.offset member.dynSolType.memberSize previousValue with
  | none => simp
  | some bytes =>
    rw [hbytes] at hnew
    simp [hnew]

private theorem isSome_mapM {α β : Type} (f : α → Option β) (l : List α) :
    (l.mapM f).isSome = true ↔ ∀ a ∈ l, (f a).isSome = true := by
  induction l with
  | nil => simp
  | cons a l ih =>
    rw [List.mapM_cons, List.forall_mem_cons, ← ih]
    cases f a <;> cases l.mapM f <;> simp

end Safety

/-- The decoders return, and reserve no more than the cap, exactly if the lengths they read are
within the word or the cap and no member wraps. -/
theorem storage_decoding_safe_iff {V : Type}
    (abiDecode : DynSolType → Bytes → Option (DynSolValue V)) (keccak256 : Bytes → B256)
    (info : SlotInfo V) (value previousValue newValue baseSlot : B256)
    (storageValues : B256 → Option B256) (storageAccesses : B256 → Option (B256 × B256)) :
    ((info.decode abiDecode value).isSome = true ↔
        ShortFits info.dynSolType.actualType value) ∧
      ((info.decodeValues abiDecode previousValue newValue).isSome = true ↔
        (∀ members, info.members = some members → ∀ member ∈ members, member.Fits) ∧
          (info.members = none →
            ShortFits info.dynSolType.actualType previousValue ∧
              ShortFits info.dynSolType.actualType newValue)) ∧
      ((∃ decoded, info.decodeBytesOrStringValues abiDecode keccak256 baseSlot storageAccesses =
            some decoded ∧ decoded.reserved ≤ 8192) ↔
        ∀ base, storageAccesses baseSlot = some base →
          (ShortFits info.dynSolType base.1 ∧ LongFits info.dynSolType base.1) ∧
            ShortFits info.dynSolType base.2 ∧ LongFits info.dynSolType base.2) ∧
      ((∃ aggregated, info.aggregateBytesOrStrings keccak256 baseSlot storageValues =
            some aggregated ∧ aggregated.reserved ≤ 8192) ↔
        ∀ base, storageValues baseSlot = some base → LongFits info.dynSolType base) := by
  refine ⟨isSome_decode abiDecode info value, ?_, ?_,
    aggregate_within keccak256 info baseSlot storageValues⟩
  · unfold SlotInfo.decodeValues
    cases info.members with
    | none =>
      rw [← isSome_decode abiDecode, ← isSome_decode abiDecode]
      cases info.decode abiDecode previousValue <;> simp
    | some members => simp [isSome_mapM, isSome_decodeValues_member]
  unfold SlotInfo.decodeBytesOrStringValues
  split
  · next htype =>
    cases hbase : storageAccesses baseSlot with
    | none => simp
    | some base =>
      simp only [Option.some.injEq, forall_eq']
      rw [← decodeValue_within abiDecode keccak256 Prod.fst htype hbase]
      cases hprevious : info.decodeValue abiDecode keccak256 baseSlot storageAccesses Prod.fst
        base.1 with
      | none => simp
      | some previous =>
        have hsame := dynSolType_decodeValue hprevious
        have hnew := decodeValue_within abiDecode keccak256 Prod.snd (hsame.symm ▸ htype) hbase
        rw [hsame] at hnew
        rw [← hnew, bind_some]
        cases previous.result.2.decodeValue abiDecode keccak256 baseSlot storageAccesses
          Prod.snd base.2 <;> simp
  · next htype => simp [ShortFits, LongFits, htype]

/-- The length byte of a short value says 33: the word has no such slice. -/
theorem storage_decoding_panics :
    ¬ ∀ (V : Type) (abiDecode : DynSolType → Bytes → Option (DynSolValue V))
        (keccak256 : Bytes → B256) (info : SlotInfo V)
        (value previousValue newValue baseSlot : B256) (storageValues : B256 → Option B256)
        (storageAccesses : B256 → Option (B256 × B256)),
      (info.decode abiDecode value).isSome = true ∧
        (info.decodeValues abiDecode previousValue newValue).isSome = true ∧
        (∃ decoded, info.decodeBytesOrStringValues abiDecode keccak256 baseSlot storageAccesses =
          some decoded ∧ decoded.reserved ≤ 8192) ∧
        ∃ aggregated, info.aggregateBytesOrStrings keccak256 baseSlot storageValues =
          some aggregated ∧ aggregated.reserved ≤ 8192 := by
  intro h
  have hdecode := (h Unit (fun _ _ => none) (fun _ => 0) ⟨"data", "bytes", .bytes, none, none⟩ 66 0
    0 0 (fun _ => none) (fun _ => none)).1
  rw [isSome_decode] at hdecode
  exact absurd (hdecode rfl (by decide)) (by decide)

end Foundry.Common
