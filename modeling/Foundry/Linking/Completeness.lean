import Foundry.Linking.Deployment

/-!
# What a link leaves open

The linker looks for libraries in the link references of both bytecodes of a contract, merged
by file.  Where both bytecodes refer to libraries of one file, only those of the deployed
bytecode are seen.
-/

namespace Foundry.Linking

open Relation HashMap Option

def CompactContractBytecode.Refers (contract : CompactContractBytecode)
    (library : Path × String) : Prop :=
  (∃ bytecode ∈ contract.bytecode, bytecode.linkReferences.Has library.1 library.2) ∨
    ∃ bytecode ∈ contract.deployed, bytecode.linkReferences.Has library.1 library.2

def LinkReferences.libraries (references : LinkReferences) : Finset (Path × String) :=
  references.keys.biUnion fun file => ((references.get file).getD ∅).image (file, ·)

theorem LinkReferences.mem_libraries {references : LinkReferences} {library : Path × String} :
    library ∈ references.libraries ↔ references.Has library.1 library.2 := by
  unfold libraries Has
  rw [Finset.mem_biUnion]
  constructor
  · rintro ⟨file, hfile, hmem⟩
    obtain ⟨names, hnames⟩ := mem_keys.mp hfile
    rw [hnames] at hmem
    obtain ⟨name, hname, rfl⟩ := Finset.mem_image.mp hmem
    exact ⟨names, hnames, hname⟩
  · rintro ⟨names, hnames, hname⟩
    refine ⟨library.1, mem_keys_of_get hnames, ?_⟩
    rw [hnames]
    exact Finset.mem_image.mpr ⟨library.2, hname, rfl⟩

def CompactContractBytecode.libraries (contract : CompactContractBytecode) :
    Finset (Path × String) :=
  contract.bytecode.elim ∅ (·.linkReferences.libraries) ∪
    contract.deployed.elim ∅ (·.linkReferences.libraries)

theorem CompactContractBytecode.mem_libraries {contract : CompactContractBytecode}
    {library : Path × String} : library ∈ contract.libraries ↔ contract.Refers library := by
  unfold libraries Refers
  rw [Finset.mem_union]
  refine or_congr ?_ ?_
  · cases contract.bytecode with
    | none => simp
    | some bytecode => simp [LinkReferences.mem_libraries]
  · cases contract.deployed with
    | none => simp
    | some bytecode => simp [LinkReferences.mem_libraries]

theorem CompactContractBytecode.refers_of_references {contract : CompactContractBytecode}
    {library : Path × String} (h : contract.references.Has library.1 library.2) :
    contract.Refers library := by
  have hget : contract.references.get library.1 =
      (contract.deployed.bind (·.linkReferences.get library.1)).or
        (contract.bytecode.bind (·.linkReferences.get library.1)) := by
    unfold references
    cases contract.bytecode <;> cases contract.deployed <;> simp [get_extend]
  obtain ⟨names, hnames, hname⟩ := h
  rw [mem_def, hget, or_eq_some_iff, bind_eq_some_iff, bind_eq_some_iff] at hnames
  rcases hnames with ⟨bytecode, hbytecode, hnames⟩ | ⟨_, bytecode, hbytecode, hnames⟩
  · exact .inr ⟨bytecode, hbytecode, names, hnames, hname⟩
  · exact .inl ⟨bytecode, hbytecode, names, hnames, hname⟩

namespace Linker

variable {crates : Crates} {orders : Orders} {self : Linker} {libraries : Libraries}
  {sender : Address} {nonce : U64} {target a b id : ArtifactId} {output : LinkOutput}

section

variable (self)

/-- An artifact of the set is the library, in the version of `a`. -/
def Finds (a : ArtifactId) (library : Path × String) (b : ArtifactId) : Prop :=
  b ∈ self.contracts.keys ∧ self.IsLibrary library (some a.version) b

instance (a : ArtifactId) (library : Path × String) (b : ArtifactId) :
    Decidable (self.Finds a library b) :=
  inferInstanceAs (Decidable (_ ∧ _))

/-- One of the two bytecodes of `a` refers to `b`. -/
def Uses (a b : ArtifactId) : Prop :=
  ∃ contract ∈ self.contracts.get a, ∃ library, contract.Refers library ∧ self.Finds a library b

/-- The merged references of `a` refer to `b`. -/
def Merges (a b : ArtifactId) : Prop :=
  ∃ contract ∈ self.contracts.get a, ∃ library : Path × String,
    contract.references.Has library.1 library.2 ∧ self.Finds a library b

/-- Every library that is referred to is one artifact. -/
def Resolves : Prop :=
  ∀ a, ∀ contract ∈ self.contracts.get a, ∀ library, contract.Refers library →
    ∃! b, self.Finds a library b

instance : Decidable self.Resolves :=
  decidable_of_iff (∀ a ∈ self.contracts.keys, ∀ contract ∈ self.contracts.get a,
      ∀ library ∈ contract.libraries,
        (self.contracts.keys.filter (self.IsLibrary library (some a.version))).card = 1) <| by
    have hunique : ∀ a library,
        (self.contracts.keys.filter (self.IsLibrary library (some a.version))).card = 1 ↔
          ∃! b, self.Finds a library b := by
      intro a library
      rw [Finset.card_eq_one, Finset.singleton_iff_unique_mem]
      simp only [Finset.mem_filter, Finds]
    constructor
    · intro h a contract hcontract library hrefers
      exact (hunique a library).mp (h a (mem_keys_of_get hcontract) contract hcontract
        library (CompactContractBytecode.mem_libraries.mpr hrefers))
    · intro h a _ contract hcontract library hmem
      exact (hunique a library).mpr (h a contract hcontract library
        (CompactContractBytecode.mem_libraries.mp hmem))

end

/-- Every library that can be reached has an address, and nothing that can be reached is open
after it was linked. -/
structure Complete (crates : Crates) (orders : Orders) (linker : Linker) (target : ArtifactId)
    (libraries : Libraries) : Prop where
  addressed : ∀ id, TransGen linker.Uses target id →
    (libraries.lookup (linker.convertArtifactIdToLibPath id)).isSome
  linked : ∀ id, ReflTransGen linker.Uses target id → ∀ contract,
    linker.link crates orders id libraries = .ok contract → ensureLinked contract id = .ok ()

/-- Every library that can be reached is still reached through the merged references, or has an
address from the user. -/
def MergeKeeps (crates : Crates) (self : Linker) (libraries : Libraries)
    (target : ArtifactId) : Prop :=
  ∀ id, TransGen self.Uses target id → TransGen self.Merges target id ∨
    ((self.given crates libraries).lookup (self.convertArtifactIdToLibPath id)).isSome

theorem child_iff_merges (hresolves : self.Resolves) :
    DepthFirst.Child (self.referenced orders) a b ↔ self.Merges a b := by
  rw [child_referenced_iff]
  constructor
  · rintro ⟨contract, hcontract, library, hhas, hfind⟩
    exact ⟨contract, hcontract, library, hhas, find_eq_some hfind⟩
  · rintro ⟨contract, hcontract, library, hhas, hfinds⟩
    refine ⟨contract, hcontract, library, hhas, ?_⟩
    have hsome : (self.findArtifactIdByLibraryPath orders library (some a.version)).isSome :=
      List.find?_isSome.mpr ⟨b, orders.ids.mem_visit.mpr hfinds.1, decide_eq_true hfinds.2⟩
    obtain ⟨b', hfind⟩ := isSome_iff_exists.mp hsome
    have hrefers := CompactContractBytecode.refers_of_references hhas
    have hsame := (hresolves a contract hcontract library hrefers).unique hfinds
      (find_eq_some hfind)
    rw [hfind, hsame]

theorem needs_iff_merges (hresolves : self.Resolves) (orders : Orders) :
    self.Needs orders target id ↔ TransGen self.Merges target id := by
  unfold Needs
  have hrel : DepthFirst.Child (self.referenced orders) = self.Merges := by
    ext a b
    exact child_iff_merges hresolves
  rw [hrel]

theorem version_of_uses (h : ReflTransGen self.Uses target id) : id.version = target.version := by
  induction h with
  | refl => rfl
  | tail _ huses ih =>
    obtain ⟨_, _, _, _, _, hversion, _⟩ := huses
    exact (hversion _ rfl).trans ih

theorem eq_of_uses (hresolves : self.Resolves) (huses : TransGen self.Uses target a)
    (hneeds : self.Needs orders target b)
    (hpath : self.convertArtifactIdToLibPath b = self.convertArtifactIdToLibPath a) : b = a := by
  obtain ⟨c, hreach, contract, hcontract, library, hrefers, hfinds⟩ := TransGen.tail'_iff.mp huses
  refine (hresolves c contract hcontract library hrefers).unique ⟨?_, ?_, ?_⟩ hfinds
  · obtain ⟨_, _, hchild⟩ := TransGen.tail'_iff.mp hneeds
    exact (child_mem hchild).1
  · rintro _ ⟨⟩
    rw [hneeds.version, version_of_uses hreach]
  · rw [hpath]
    exact hfinds.2.2

theorem isUnlinked_linkAll_of_addressed {bytecode : CompactBytecode} {entries : Crates.Entries}
    (hparse : parse crates orders libraries = some entries) (hemitted : crates.Emitted bytecode)
    (haddressed : ∀ library : Path × String, bytecode.linkReferences.Has library.1 library.2 →
      (libraries.lookup library).isSome) :
    (crates.linkAll entries bytecode).object.isUnlinked = false := by
  rw [Bool.eq_false_iff, ne_eq, Crates.isUnlinked_linkAll_iff hemitted]
  rintro ⟨file, name, hlibrary, hnone⟩
  obtain ⟨text, htext⟩ := isSome_iff_exists.mp (haddressed (file, name) hlibrary)
  obtain ⟨address, hmem⟩ := exists_mem_parse hparse htext
  exact hnone address hmem

/-- Code is fully linked if all it refers to has an address. -/
theorem ensureLinked_of_addressed (hwell : self.WellFormed crates)
    {contract : CompactContractBytecode}
    (hlink : self.link crates orders id libraries = .ok contract)
    (haddressed : ∀ contract ∈ self.contracts.get id, ∀ library, contract.Refers library →
      (libraries.lookup library).isSome) : ensureLinked contract id = .ok () := by
  obtain ⟨original, entries, hget, hparse, rfl⟩ := parse_of_link hlink
  obtain ⟨hcreation, hdeployed⟩ := hwell id (mem_keys_of_get hget) original hget
  have hrefers := haddressed original hget
  unfold ensureLinked
  rw [CompactContractBytecode.bytecode_linkAll, CompactContractBytecode.deployed_linkAll]
  rw [if_neg, if_neg]
  · cases hbytecode : original.deployed with
    | none => exact Bool.false_ne_true
    | some bytecode =>
      have hlinked := isUnlinked_linkAll_of_addressed hparse (hdeployed bytecode hbytecode)
        fun library h => hrefers library (.inr ⟨bytecode, hbytecode, h⟩)
      exact Bool.eq_false_iff.mp hlinked
  · cases hbytecode : original.bytecode with
    | none => exact Bool.false_ne_true
    | some bytecode =>
      have hlinked := isUnlinked_linkAll_of_addressed hparse (hcreation bytecode hbytecode)
        fun library h => hrefers library (.inl ⟨bytecode, hbytecode, h⟩)
      exact Bool.eq_false_iff.mp hlinked

theorem mergeKeeps_of_merged (h : ∀ a ∈ self.contracts.keys, ∀ contract ∈ self.contracts.get a,
      ∀ library ∈ contract.libraries, contract.references.Has library.1 library.2) :
    MergeKeeps crates self libraries target := by
  intro id huses
  left
  refine TransGen.mono (fun a b => ?_) _ _ huses
  rintro ⟨contract, hcontract, library, hrefers, hfinds⟩
  refine ⟨contract, hcontract, library, ?_, hfinds⟩
  exact h a (mem_keys_of_get hcontract) contract hcontract library
    (CompactContractBytecode.mem_libraries.mpr hrefers)

/-- A successful link is complete just if no library is lost when the references of two
bytecodes are merged. -/
theorem complete_iff_mergeKeeps (hwell : self.WellFormed crates) (hresolves : self.Resolves)
    (h : self.linkWithNonceOrAddress crates orders libraries sender nonce [target] =
      some (.ok output)) :
    Complete crates orders self target output.libraries ↔
      MergeKeeps crates self libraries target := by
  obtain ⟨needed, next, deployed, hneeded, hassigns, hlibraries, _⟩ := linkWithNonceOrAddress_ok h
  rw [hlibraries]
  constructor
  · intro hcomplete id huses
    by_cases hmem : self.convertArtifactIdToLibPath id ∈
        deployed.map self.convertArtifactIdToLibPath
    · obtain ⟨id', hid', hpath⟩ := List.mem_map.mp hmem
      have hneeds := (hneeded id').mp (hassigns.subset id' hid')
      left
      rw [← needs_iff_merges hresolves orders, ← eq_of_uses hresolves huses hneeds hpath]
      exact hneeds
    · right
      rw [← hassigns.others _ hmem]
      exact hcomplete.addressed id huses
  · intro hkeeps
    have haddressed : ∀ id, TransGen self.Uses target id →
        (next.libraries.lookup (self.convertArtifactIdToLibPath id)).isSome := by
      intro id huses
      rcases hkeeps id huses with hmerges | hprovided
      · exact hassigns.isSome_of_mem
          ((hneeded id).mpr ((needs_iff_merges hresolves orders).mpr hmerges))
      · obtain ⟨text, htext⟩ := isSome_iff_exists.mp hprovided
        exact isSome_iff_exists.mpr ⟨text, hassigns.lookup_of_some htext⟩
    refine ⟨haddressed, fun id hreach contract hlink => ?_⟩
    refine ensureLinked_of_addressed hwell hlink fun original hget library hrefers => ?_
    obtain ⟨b, hfinds, _⟩ := hresolves id original hget library hrefers
    have huses : self.Uses id b := ⟨original, hget, library, hrefers, hfinds⟩
    rw [← hfinds.2.2]
    exact haddressed b (TransGen.tail' hreach huses)

def pairLibraries : Libraries :=
  (Libraries.empty.insert (["L.sol"], "A") "0x716FbFb992C576598bbc6EFc1F27075ad56A68E4").insert
    (["L.sol"], "B") "0x17D545038d66f1f4D886a2FfC2569A5E41B08dd6"

theorem complete_pair :
    Complete ethereum .sorted pair (artifact "T.sol" "T") pairLibraries := by
  have hlink : pair.linkWithNonceOrAddress ethereum .sorted .empty 10 5
      [artifact "T.sol" "T"] = some (.ok ⟨pairLibraries, [[1], [2]]⟩) := by
    change @Eq (Option (Except Failure LinkOutput)) _ _
    decide +kernel
  refine (complete_iff_mergeKeeps (by decide +kernel) (by decide +kernel) hlink).mpr ?_
  exact mergeKeeps_of_merged (by decide +kernel)

/-- A contract whose constructor uses one more library of a file. -/
def constructing : Linker where
  root := ["", "project"]
  contracts := ((HashMap.empty.insert (artifact "T.sol" "T")
      ⟨some (openIn "L.sol" ["A", "B"]), some ⟨some (openIn "L.sol" ["B"])⟩⟩).insert
    (artifact "L.sol" "A") ⟨some (closed [1]), some ⟨some (closed [1])⟩⟩).insert
    (artifact "L.sol" "B") ⟨some (closed [2]), some ⟨some (closed [2])⟩⟩

/-- The library of the constructor gets no address. -/
theorem constructor_library_lost :
    constructing.WellFormed ethereum ∧ constructing.Resolves ∧
      ∃ output, constructing.linkWithNonceOrAddress ethereum .sorted .empty 10 5
        [artifact "T.sol" "T"] = some (.ok output) ∧
      ¬ Complete ethereum .sorted constructing (artifact "T.sol" "T") output.libraries := by
  refine ⟨by decide +kernel, by decide +kernel,
    ⟨Libraries.empty.insert (["L.sol"], "B") "0x716FbFb992C576598bbc6EFc1F27075ad56A68E4", [[2]]⟩,
    ?_, fun hcomplete => ?_⟩
  · change @Eq (Option (Except Failure LinkOutput)) _ _
    decide +kernel
  · have huses : constructing.Uses (artifact "T.sol" "T") (artifact "L.sol" "A") :=
      ⟨_, rfl, (["L.sol"], "A"), .inl ⟨_, rfl, by decide +kernel⟩, by decide +kernel⟩
    have hsome := hcomplete.addressed _ (TransGen.single huses)
    revert hsome
    decide +kernel

end Linker

end Foundry.Linking
