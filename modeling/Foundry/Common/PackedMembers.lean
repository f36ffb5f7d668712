import Foundry.Common.SlotInfo

/-!
# Values of packed members

The members of a struct in one slot take the bytes of the word that their offsets and types say.
A value is given by these bytes, so that every word holds values for all of the members.
-/

namespace Foundry.Common

open List

def DynSolType.IsElementary : DynSolType → Prop
  | bool | address => True
  | int bits | uint bits => 0 < bits ∧ bits ≤ 256 ∧ bits % 8 = 0
  | fixedBytes size => 0 < size ∧ size ≤ 32
  | _ => False

def rightAligned (stored : Bytes) : Bytes := List.replicate (32 - stored.length) 0 ++ stored

def DynSolType.abiWord (type : DynSolType) (stored : Bytes) : Bytes :=
  match type with
  | int _ =>
    let sign := if stored.head?.any BitVec.msb then 0xff else 0
    List.replicate (32 - stored.length) sign ++ stored
  | fixedBytes _ => stored ++ List.replicate (32 - stored.length) 0
  | _ => rightAligned stored

/-- The value takes a whole word, or is neither a negative number nor bytes other than zeros. -/
def DynSolType.FillsWithZeros (type : DynSolType) (stored : Bytes) : Prop :=
  match type with
  | int _ => 32 ≤ stored.length ∨ stored.head?.any BitVec.msb = false
  | fixedBytes _ => 32 ≤ stored.length ∨ ∀ byte ∈ stored, byte = 0
  | _ => True

/-- A decoder that takes the word of a value to the value, and the word with the bytes of a value
at its right end only if that is the same word. -/
structure AbiDecoder (V : Type) where
  abiDecode : DynSolType → Bytes → Option (DynSolValue V)
  value : DynSolType → Bytes → DynSolValue V
  decode_abiWord : ∀ type stored, type.IsElementary → stored.length = type.memberSize.toNat →
    abiDecode type (type.abiWord stored) = some (value type stored) ∧
      (abiDecode type (rightAligned stored) = some (value type stored) →
        type.abiWord stored = rightAligned stored)

/-- A member as `handle_struct` lists it, of an elementary type and within the slot. -/
structure PackedMember (V : Type) extends MemberInfo V where
  elementary : dynSolType.IsElementary
  inSlot : offset.toNat + dynSolType.memberSize.toNat ≤ 32
  undecoded : decoded = none

namespace PackedMember

variable {V : Type}

def stored (member : PackedMember V) (word : B256) : Bytes :=
  let size := member.dynSolType.memberSize.toNat
  ((wordBytes word).drop (32 - member.offset.toNat - size)).take size

def valueIn (member : PackedMember V) (decoder : AbiDecoder V) (word : B256) : DynSolValue V :=
  decoder.value member.dynSolType (member.stored word)

/-- Each of the members gets the values that it has before and after. -/
def DecodesAll (decoder : AbiDecoder V) (info : SlotInfo V) (members : List (PackedMember V))
    (previousValue newValue : B256) : Prop :=
  { info with members := some (members.map toMemberInfo) }.decodeValues decoder.abiDecode
      previousValue newValue =
    some { info with
      members := some (members.map fun member => { member.toMemberInfo with
        decoded := some ⟨member.valueIn decoder previousValue, member.valueIn decoder newValue⟩ }) }

end PackedMember

private theorem zeros_of_append_comm {n : Nat} {stored : Bytes}
    (h : stored ++ List.replicate (n + 1) 0 = List.replicate (n + 1) 0 ++ stored) :
    ∀ byte ∈ stored, byte = 0 := by
  induction stored with
  | nil => simp
  | cons byte stored ih =>
    rw [replicate_succ, cons_append, cons_append, List.cons.injEq] at h
    obtain ⟨rfl, h⟩ := h
    rw [append_cons (List.replicate n 0), ← replicate_succ'] at h
    simpa using ih h

theorem abiWord_eq_rightAligned_iff (type : DynSolType) (stored : Bytes) :
    type.abiWord stored = rightAligned stored ↔ type.FillsWithZeros stored := by
  unfold DynSolType.abiWord DynSolType.FillsWithZeros rightAligned
  split
  · cases hsign : stored.head?.any BitVec.msb <;> simp [Nat.sub_eq_zero_iff_le]
  · cases hroom : 32 - stored.length with
    | zero =>
      simp
      omega
    | succ n =>
      rw [or_iff_right (by omega)]
      constructor
      · exact zeros_of_append_comm
      · intro h
        rw [eq_replicate_of_mem h, replicate_append_replicate,
          replicate_append_replicate, Nat.add_comm]
  · simp

private theorem mapM_map_eq_some_iff {α β γ : Type} (f : β → Option γ) (g : α → β) (k : α → γ)
    (l : List α) : (l.map g).mapM f = some (l.map k) ↔ ∀ a ∈ l, f (g a) = some (k a) := by
  induction l with
  | nil => simp
  | cons a l ih =>
    rw [forall_mem_cons, ← ih, map_cons, mapM_cons]
    cases f (g a) <;> cases (l.map g).mapM f <;> simp

namespace PackedMember

variable {V : Type} (decoder : AbiDecoder V) (member : PackedMember V)

theorem length_stored (word : B256) :
    (member.stored word).length = member.dynSolType.memberSize.toNat := by
  have hin := member.inSlot
  rw [stored, length_take, length_drop, length_wordBytes]
  omega

theorem decode_memberBytes_iff (word : B256) :
    decoder.abiDecode member.dynSolType (rightAligned (member.stored word)) =
        some (member.valueIn decoder word) ↔
      member.dynSolType.FillsWithZeros (member.stored word) := by
  have hdecode := decoder.decode_abiWord _ _ member.elementary (member.length_stored word)
  rw [← abiWord_eq_rightAligned_iff]
  constructor
  · exact hdecode.2
  · intro h
    rw [← h]
    exact hdecode.1

theorem decodeValues_iff (previousValue newValue : B256) :
    member.toMemberInfo.decodeValues decoder.abiDecode previousValue newValue =
        some { member.toMemberInfo with
          decoded :=
            some ⟨member.valueIn decoder previousValue, member.valueIn decoder newValue⟩ } ↔
      member.dynSolType.FillsWithZeros (member.stored previousValue) ∧
        member.dynSolType.FillsWithZeros (member.stored newValue) := by
  have hbytes : ∀ word, memberBytes member.offset member.dynSolType.memberSize word =
      some (rightAligned (member.stored word)) := by
    intro word
    rw [memberBytes_of_le member.inSlot, rightAligned, length_stored]
    rfl
  rw [← decode_memberBytes_iff decoder, ← decode_memberBytes_iff decoder,
    MemberInfo.decodeValues, hbytes, hbytes, Option.bind_some, Option.map_some, Option.some.injEq]
  split
  · next hprevious hnew => simp [hprevious, hnew]
  · next hundecoded =>
    refine iff_of_false (fun h => ?_) fun h => hundecoded _ _ h.1 h.2
    simpa [member.undecoded] using congrArg MemberInfo.decoded h

/-- The members are decoded to the values they have just if these are right when they are filled up
with zeros on the left. -/
theorem decodesAll_iff (info : SlotInfo V) (members : List (PackedMember V))
    (previousValue newValue : B256) :
    DecodesAll decoder info members previousValue newValue ↔
      ∀ member ∈ members, member.dynSolType.FillsWithZeros (member.stored previousValue) ∧
        member.dynSolType.FillsWithZeros (member.stored newValue) := by
  simp only [← decodeValues_iff decoder, ← mapM_map_eq_some_iff, DecodesAll, SlotInfo.decodeValues]
  cases (members.map toMemberInfo).mapM
    (MemberInfo.decodeValues decoder.abiDecode previousValue newValue) <;> simp

def wordDecoder : AbiDecoder Empty where
  abiDecode _ word := some (.bytes word)
  value type stored := .bytes (type.abiWord stored)
  decode_abiWord _ _ _ _ := ⟨rfl, fun h => by simpa using h.symm⟩

def wordOf : DynSolValue Empty → Bytes
  | .string data | .bytes data => data

/-- An `int64` goes from 0 to -1. -/
theorem decodesAll_negative : ¬ DecodesAll wordDecoder ⟨"s", "struct S", .tuple [], none, none⟩
    [⟨⟨"x", "int64", .int 64, 0, "0", none⟩, .intro (by decide) (by decide), by decide, rfl⟩]
    0 0xffffffffffffffff := by
  intro h
  have hdecoded := congrArg (fun info => (info.bind (·.members)).map fun members =>
    members.map fun member => member.decoded.map (wordOf ·.newValue)) h
  exact absurd hdecoded (by decide +kernel)

end PackedMember

end Foundry.Common
