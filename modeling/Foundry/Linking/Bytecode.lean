import Foundry.Base.HashMap
import Foundry.Base.Words

/-!
# Bytecode with link references

Compiled code in which the addresses of libraries are still open.  A library is named by its
file and its name; the code has a placeholder wherever its address belongs, and comes with the
list of the libraries it refers to.  How addresses are put in is up to `foundry-compilers`.
-/

namespace Foundry.Linking

open HashMap

abbrev Path := List String

/-- A byte of code, or the place of the address of a library. -/
inductive Piece where
  | byte (value : BitVec 8)
  | placeholder (file : Path) (name : String)
deriving DecidableEq

def Piece.byte? : Piece → Option (BitVec 8)
  | .byte value => some value
  | .placeholder _ _ => none

/-- The text of open code is read as its pieces. -/
inductive BytecodeObject where
  | bytecode (bytes : Bytes)
  | unlinked (code : List Piece)
deriving DecidableEq

namespace BytecodeObject

def isUnlinked : BytecodeObject → Bool
  | bytecode _ => false
  | unlinked _ => true

def asBytes : BytecodeObject → Option Bytes
  | bytecode bytes => some bytes
  | unlinked _ => none

end BytecodeObject

abbrev LinkReferences := HashMap Path (Finset String)

def LinkReferences.Has (references : LinkReferences) (file : Path) (name : String) : Prop :=
  ∃ names ∈ references.get file, name ∈ names

instance (references : LinkReferences) (file : Path) (name : String) :
    Decidable (references.Has file name) :=
  inferInstanceAs (Decidable (∃ names ∈ references.get file, name ∈ names))

structure CompactBytecode where
  object : BytecodeObject
  linkReferences : LinkReferences

structure Libraries where
  libs : HashMap Path (HashMap String String)
deriving DecidableEq

/-- What the linker has from `alloy` and `foundry-compilers`: addresses as texts, the addresses of
new contracts, and the linking of code as a compiler emits it. -/
structure Crates where
  toChecksum : Address → String
  fromStr : String → Option Address
  fromStr_toChecksum : ∀ address, fromStr (toChecksum address) = some address
  create : Address → U64 → Address
  create2FromCode : Address → B256 → Bytes → Address
  withStrippedFilePrefixes : Libraries → Path → Libraries
  link : CompactBytecode → Path → String → Address → CompactBytecode
  /-- Code as a compiler emits it, and what linking makes of it. -/
  Emitted : CompactBytecode → Prop
  emitted_bytecode : ∀ bytes, Emitted ⟨.bytecode bytes, .empty⟩
  emitted_link : ∀ {bytecode} file name address, Emitted bytecode →
    Emitted (link bytecode file name address)
  isUnlinked_iff : ∀ {bytecode}, Emitted bytecode →
    (bytecode.object.isUnlinked = true ↔ ∃ file name, bytecode.linkReferences.Has file name)
  has_link : ∀ {bytecode} file name address, Emitted bytecode → ∀ {file' name'},
    (link bytecode file name address).linkReferences.Has file' name' ↔
      bytecode.linkReferences.Has file' name' ∧ ¬ (file' = file ∧ name' = name)

namespace Crates

abbrev Entries := List (Path × String × Address)

variable {crates : Crates} {bytecode : CompactBytecode}

def linkAll (crates : Crates) (entries : Entries) (bytecode : CompactBytecode) : CompactBytecode :=
  entries.foldl (fun bytecode (file, name, address) => crates.link bytecode file name address)
    bytecode

theorem has_linkAll (h : crates.Emitted bytecode) (entries : Entries) :
    crates.Emitted (crates.linkAll entries bytecode) ∧ ∀ file name,
      (crates.linkAll entries bytecode).linkReferences.Has file name ↔
        bytecode.linkReferences.Has file name ∧ ∀ address, (file, name, address) ∉ entries := by
  induction entries generalizing bytecode with
  | nil => exact ⟨h, fun file name => ⟨fun hhas => ⟨hhas, nofun⟩, fun hhas => hhas.1⟩⟩
  | cons entry entries ih =>
    obtain ⟨file, name, address⟩ := entry
    obtain ⟨hemitted, hhas⟩ := ih (crates.emitted_link file name address h)
    refine ⟨hemitted, fun file' name' => (hhas file' name').trans ?_⟩
    rw [crates.has_link file name address h, and_assoc]
    refine and_congr_right fun _ => ?_
    constructor
    · rintro ⟨hne, hrest⟩ address' hmem
      rcases List.mem_cons.mp hmem with heq | hmem
      · cases heq
        exact hne ⟨rfl, rfl⟩
      · exact hrest address' hmem
    · intro hnone
      refine ⟨?_, fun address' hmem => hnone address' (List.mem_cons_of_mem _ hmem)⟩
      rintro ⟨rfl, rfl⟩
      exact hnone address List.mem_cons_self

theorem isUnlinked_linkAll_iff (h : crates.Emitted bytecode) (entries : Entries) :
    (crates.linkAll entries bytecode).object.isUnlinked = true ↔
      ∃ file name, bytecode.linkReferences.Has file name ∧
        ∀ address, (file, name, address) ∉ entries := by
  obtain ⟨hemitted, hhas⟩ := has_linkAll h entries
  rw [crates.isUnlinked_iff hemitted]
  exact exists_congr fun file => exists_congr fun name => hhas file name

end Crates

end Foundry.Linking
