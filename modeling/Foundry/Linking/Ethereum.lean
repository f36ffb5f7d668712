import Foundry.Base.Keccak
import Foundry.Base.RlpHeaders
import Foundry.Common.BytecodeText
import Foundry.Linking.Linker

/-!
# Addresses and links as they are

What `alloy` and `foundry-compilers` do: addresses as forty hexadecimal digits with a checksum in
the case of the letters, the addresses of created contracts, and addresses put in the place of
placeholders.
-/

namespace Foundry.Linking

open List

/-! ## Addresses -/

def hexDigits : Nat → Nat → List Nat
  | 0, _ => []
  | width + 1, n => hexDigits width (n / 16) ++ [n % 16]

def digitChar (upper : Bool) (digit : Nat) : Char :=
  Char.ofNat (if digit < 10 then 48 + digit else if upper then 55 + digit else 87 + digit)

/-- A letter is in upper case if the hash of the digits has a high digit at its place. -/
def toChecksum (address : Address) : String :=
  let digits := hexDigits 40 address.toNat
  let hash := keccak256 (digits.map fun digit => BitVec.ofNat 8 (digitChar false digit).toNat)
  String.ofList ('0' :: 'x' :: digits.zipIdx.map fun entry =>
    digitChar (hash.getLsbD (255 - 4 * entry.2)) entry.1)

def bareDigits : List Char → List Char
  | '0' :: 'x' :: digits => digits
  | digits => digits

def fromStr (text : String) : Option Address :=
  let digits := bareDigits text.toList
  if digits.length = 40 then
    (digits.mapM Common.hexDigit?).map fun digits =>
      BitVec.ofNat 160 (digits.foldl (fun n digit => 16 * n + digit) 0)
  else none

def create (sender : Address) (nonce : U64) : Address :=
  let fields := RlpHeaders.encodeString (toBeBytes 20 sender) ++
    RlpHeaders.encodeString (RlpHeaders.beBytes nonce.toNat)
  (keccak256 (RlpHeaders.headerBytes 0xc0 0xf7 fields.length ++ fields)).setWidth 160

def create2FromCode (sender : Address) (salt : B256) (code : Bytes) : Address :=
  (keccak256 ([0xff] ++ toBeBytes 20 sender ++ toBeBytes 32 salt ++
    toBeBytes 32 (keccak256 code))).setWidth 160

theorem hexDigit?_digitChar (upper : Bool) {digit : Nat} (h : digit < 16) :
    Common.hexDigit? (digitChar upper digit) = some digit := by
  revert upper digit
  decide

theorem lt_of_mem_hexDigits {width n digit : Nat} (h : digit ∈ hexDigits width n) : digit < 16 := by
  induction width generalizing n with
  | zero => cases h
  | succ width ih =>
    rcases mem_append.mp h with h | h
    · exact ih h
    · rw [mem_singleton.mp h]
      exact Nat.mod_lt n (by omega)

theorem length_hexDigits (width n : Nat) : (hexDigits width n).length = width := by
  induction width generalizing n with
  | zero => rfl
  | succ width ih => rw [hexDigits, length_append, ih, length_singleton]

theorem foldl_hexDigits (width n : Nat) :
    (hexDigits width n).foldl (fun n digit => 16 * n + digit) 0 = n % 16 ^ width := by
  induction width generalizing n with
  | zero => exact (Nat.mod_one n).symm
  | succ width ih =>
    rw [hexDigits, foldl_append, ih, Nat.pow_succ', Nat.mod_mul]
    show 16 * (n / 16 % 16 ^ width) + n % 16 = _
    omega

theorem mapM_hexDigit? (upper : Nat → Bool) {digits : List Nat} (h : ∀ digit ∈ digits, digit < 16)
    (start : Nat) :
    ((digits.zipIdx start).map fun entry => digitChar (upper entry.2) entry.1).mapM
      Common.hexDigit? = some digits := by
  induction digits generalizing start with
  | nil => rfl
  | cons digit digits ih =>
    obtain ⟨hdigit, hdigits⟩ := forall_mem_cons.mp h
    rw [zipIdx_cons, map_cons, mapM_cons, hexDigit?_digitChar _ hdigit, ih hdigits]
    rfl

theorem fromStr_toChecksum (address : Address) : fromStr (toChecksum address) = some address := by
  have hdigits : ∀ digit ∈ hexDigits 40 address.toNat, digit < 16 :=
    fun _ => lt_of_mem_hexDigits
  have hbare (digits : List Char) : bareDigits ('0' :: 'x' :: digits) = digits := rfl
  rw [toChecksum, fromStr, String.toList_ofList, hbare, length_map, length_zipIdx,
    length_hexDigits, if_pos rfl,
    mapM_hexDigit? (fun i => (keccak256 _).getLsbD (255 - 4 * i)) hdigits 0, Option.map_some,
    foldl_hexDigits]
  congr 1
  apply BitVec.eq_of_toNat_eq
  have hlt := address.isLt
  rw [BitVec.toNat_ofNat]
  omega

/-! ## Links -/

def LinkReferences.isOpen (references : LinkReferences) : Bool :=
  decide (∃ file ∈ references.keys, (references.get file).getD ∅ ≠ ∅)

theorem LinkReferences.isOpen_iff (references : LinkReferences) :
    references.isOpen = true ↔ ∃ file name, references.Has file name := by
  rw [isOpen, decide_eq_true_iff]
  refine exists_congr fun file => ?_
  rw [HashMap.mem_keys]
  unfold Has
  cases references.get file with
  | none => simp
  | some names => simp [← Finset.nonempty_iff_ne_empty, Finset.Nonempty]

/-- What is left of a piece when the address of a library is put in. -/
def linkPiece (file : Path) (name : String) (address : Address) : Piece → List Piece
  | .byte value => [.byte value]
  | .placeholder file' name' =>
    if file' = file ∧ name' = name then (toBeBytes 20 address).map .byte
    else [.placeholder file' name']

/-- Puts an address into open code, which becomes plain code if no reference is left. -/
def linkLibrary (bytecode : CompactBytecode) (file : Path) (name : String) (address : Address) :
    CompactBytecode :=
  match bytecode.object with
  | .bytecode _ => bytecode
  | .unlinked code =>
    let references : LinkReferences := bytecode.linkReferences.update file (·.erase name)
    let code := code.flatMap (linkPiece file name address)
    ⟨if references.isOpen then .unlinked code else .bytecode (code.filterMap Piece.byte?),
      references⟩

theorem has_linkLibrary {bytecode : CompactBytecode}
    (h : bytecode.object.isUnlinked = bytecode.linkReferences.isOpen) {file file' : Path}
    {name name' : String} {address : Address} :
    (linkLibrary bytecode file name address).linkReferences.Has file' name' ↔
      bytecode.linkReferences.Has file' name' ∧ ¬ (file' = file ∧ name' = name) := by
  obtain ⟨object, references⟩ := bytecode
  cases object with
  | bytecode code =>
    have hnone : ¬ references.Has file' name' := by
      intro hhas
      have hopen := references.isOpen_iff.mpr ⟨file', name', hhas⟩
      cases h.trans hopen
    exact iff_of_false hnone fun h => hnone h.1
  | unlinked code =>
    simp only [linkLibrary, LinkReferences.Has, HashMap.get_update]
    by_cases hfile : file' = file
    · subst hfile
      cases references.get file' with
      | none => simp
      | some names => simp [and_comm]
    · simp [hfile]

/-- Strips the base from every file; of two files that become one, the later stays. -/
def stripFilePrefixes (libraries : Libraries) (base : Path) : Libraries where
  libs := (Orders.sorted.files.visit libraries.libs.keys).foldl
    (fun stripped file =>
      (libraries.libs.get file).elim stripped fun libs =>
        stripped.insert (Path.stripped file base) libs)
    .empty

def ethereum : Crates where
  toChecksum := toChecksum
  fromStr := fromStr
  fromStr_toChecksum := fromStr_toChecksum
  create := create
  create2FromCode := create2FromCode
  withStrippedFilePrefixes := stripFilePrefixes
  link := linkLibrary
  Emitted bytecode := bytecode.object.isUnlinked = bytecode.linkReferences.isOpen
  emitted_bytecode _ := rfl
  emitted_link := by
    rintro ⟨object, references⟩ file name address h
    cases object with
    | bytecode code => exact h
    | unlinked code =>
      simp only [linkLibrary]
      split
      · next hopen => exact hopen.symm
      · next hopen => exact (Bool.eq_false_iff.mpr hopen).symm
  isUnlinked_iff h := by rw [h, LinkReferences.isOpen_iff]
  has_link _ _ _ h := has_linkLibrary h

instance (self : Linker) : Decidable (self.WellFormed ethereum) :=
  have (bytecode : CompactBytecode) : Decidable (ethereum.Emitted bytecode) :=
    inferInstanceAs (Decidable (_ = bytecode.linkReferences.isOpen))
  inferInstanceAs (Decidable (∀ id ∈ _, ∀ contract ∈ self.contracts.get id, _ ∧ _))

end Foundry.Linking
