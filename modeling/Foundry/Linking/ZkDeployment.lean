import Foundry.Linking.Deployment
import Foundry.Linking.ZkLinker

/-!
# ZKsync libraries deployed by nonce

The addresses of the libraries come from one list and their bytecodes from another: the queue of
the linker takes in other contracts when `zksolc` reports factory dependencies.
-/

namespace Foundry.Linking

open List

def Orders.IdsSorted (orders : Orders) : Prop :=
  ∀ ids, (orders.ids.visit ids).Pairwise fun a b => a.key ≤ b.key

theorem Orders.IdsSorted.visit_eq {orders : Orders} (h : orders.IdsSorted)
    {ids : List ArtifactId} {needed found : Finset ArtifactId}
    (hsub : ids.Sublist (orders.ids.visit needed)) (hids : ∀ id, id ∈ found ↔ id ∈ ids) :
    orders.ids.visit found = ids := by
  have hperm : (orders.ids.visit found).Perm ids := by
    refine (List.perm_ext_iff_of_nodup (orders.ids.nodup_visit found)
      (hsub.nodup (orders.ids.nodup_visit needed))).mpr fun id => ?_
    rw [orders.ids.mem_visit]
    exact hids id
  refine hperm.eq_of_pairwise ?_ (h found) ((h needed).sublist hsub)
  intro a b _ _ hle hle'
  exact ArtifactId.key_injective (le_antisymm hle hle')

namespace ZkLinker

variable {crates : ZkCrates} {orders : ZkOrders} {self : ZkLinker} {libraries : Libraries}
  {fuel : Nat}

/-! ## The queue -/

/-- In this call, whatever it is given, `zksolc` may report that the artifact lacks nothing but
factory dependencies. -/
def Lacks (self : ZkLinker) (call : Nat) (id : ArtifactId) (unlinked : UnlinkedObject) : Prop :=
  ∃ input output, self.compiler call input = some output ∧
    output.unlinked.get ((id.withStrippedFilePrefixes self.linker.root).source, id.name) =
      some unlinked ∧
    unlinked.linkerSymbols = ∅

section Queue

variable {state : Worklist} {id : ArtifactId} {outcome : Attempt}
  {artifacts : HashMap ArtifactId CompactContractBytecode}

theorem lacks_of_zkLink {call : Nat} {contracts : HashMap ArtifactId CompactContractBytecode}
    {fdeps : Finset MissingLibrary}
    (h : self.zkLink crates orders call contracts (id.withStrippedFilePrefixes self.linker.root)
      libraries = .error (.missingFactoryDeps fdeps)) :
    ∃ unlinked, self.Lacks call id unlinked ∧ unlinked.factoryDependencies = fdeps := by
  unfold zkLink at h
  dsimp only at h
  split at h
  · cases h
  · next output houtput =>
    obtain ⟨input, _, hcall⟩ := Option.bind_eq_some_iff.mp houtput
    split at h
    · cases h
    split at h
    · next unlinked hunlinked =>
      split at h
      · cases h
      · next hsymbols =>
        cases h
        exact ⟨unlinked, ⟨input, output, hcall, hunlinked, not_not.mp hsymbols⟩, rfl⟩
    · split at h
      · cases h
      · split at h <;> cases h

/-- What can come of a target at the head of the queue. -/
theorem attempt_ok (h : self.attempt crates orders libraries state id = .ok outcome) :
    outcome = .skipped ∧ id ∈ state.linkedArtifacts.map Prod.fst ∨
      (∃ contract, outcome = .done contract) ∨
      ∃ unlinked, self.Lacks state.calls id unlinked ∧
        (outcome = .dropped ∧
            self.missingIds orders state.contracts unlinked.factoryDependencies = [] ∨
          ∃ fdeps, outcome = .requeued fdeps) := by
  unfold attempt at h
  split at h
  · next hlinked =>
    cases h
    exact .inl ⟨rfl, hlinked⟩
  right
  split at h
  · cases h
    exact .inl ⟨_, rfl⟩
  · next fdeps hmissing =>
    obtain ⟨unlinked, hlacks, rfl⟩ := lacks_of_zkLink hmissing
    refine .inr ⟨unlinked, hlacks, ?_⟩
    split at h
    · next hnone =>
      cases h
      exact .inl ⟨rfl, hnone⟩
    · split at h
      · cases h
      · cases h
        exact .inr ⟨_, rfl⟩
  · cases h

theorem linkTargets_succ_ok {result : List (ArtifactId × CompactContractBytecode)}
    (h : self.linkTargets crates orders libraries (fuel + 1) state = some (.ok result)) :
    state.targets = [] ∧ result = state.linkedArtifacts ∨
      ∃ id rest outcome, state.targets = id :: rest ∧
        self.attempt crates orders libraries state id = .ok outcome ∧
        self.linkTargets crates orders libraries fuel (state.after id rest outcome) =
          some (.ok result) := by
  unfold linkTargets at h
  split at h
  · next htargets =>
    cases h
    exact .inl ⟨htargets, rfl⟩
  · next id rest htargets =>
    split at h
    · cases h
    · next outcome hattempt => exact .inr ⟨id, rest, outcome, htargets, hattempt, h⟩

/-- Without reports just the targets are linked. -/
theorem mem_linkTargets
    (hsilent : ∀ id ∈ state.targets, ∀ call unlinked, ¬ self.Lacks call id unlinked)
    {result : List (ArtifactId × CompactContractBytecode)}
    (h : self.linkTargets crates orders libraries fuel state = some (.ok result))
    (id : ArtifactId) :
    id ∈ result.map Prod.fst ↔
      id ∈ state.linkedArtifacts.map Prod.fst ∨ id ∈ state.targets := by
  induction fuel generalizing state with
  | zero => cases h
  | succ fuel ih =>
    rcases linkTargets_succ_ok h with
      ⟨htargets, rfl⟩ | ⟨first, rest, outcome, htargets, hattempt, h⟩
    · rw [htargets]
      simp
    · rw [htargets, forall_mem_cons] at hsilent
      rcases attempt_ok hattempt with ⟨rfl, hlinked⟩ | ⟨contract, rfl⟩ | ⟨unlinked, hlacks, _⟩
      · rw [ih hsilent.2 h, htargets, mem_cons]
        show id ∈ state.linkedArtifacts.map Prod.fst ∨ id ∈ rest ↔ _
        by_cases hfirst : id = first
        · simp only [hfirst, hlinked, true_or]
        · simp only [hfirst, false_or]
      · rw [ih hsilent.2 h, htargets, mem_cons]
        simp only [Worklist.after, map_append, mem_append, map_cons, map_nil, mem_singleton,
          or_assoc]
      · exact absurd hlacks (hsilent.1 _ _)

theorem mem_keys_foldl_insert {linked : List (ArtifactId × CompactContractBytecode)} :
    id ∈ (linked.foldl (fun artifacts (id, contract) => artifacts.insert id contract)
        artifacts).keys ↔ id ∈ artifacts.keys ∨ id ∈ linked.map Prod.fst := by
  induction linked generalizing artifacts with
  | nil => simp
  | cons entry linked ih =>
    rw [foldl_cons, ih, HashMap.keys_insert, Finset.mem_insert, map_cons, mem_cons]
    tauto

theorem zkGetLinkedArtifacts_ok {targets : List ArtifactId}
    (h : self.zkGetLinkedArtifacts crates orders fuel targets libraries = some (.ok artifacts)) :
    ∃ linked, self.linkTargets crates orders libraries fuel (self.worklist orders targets) =
        some (.ok linked) ∧
      ∀ id, id ∈ artifacts.keys ↔ id ∈ linked.map Prod.fst := by
  obtain ⟨linked, hlinked, h⟩ := Link.bind_ok h
  cases h
  refine ⟨linked, hlinked, fun id => ?_⟩
  rw [mem_keys_foldl_insert]
  exact or_iff_right (Finset.notMem_empty id)

end Queue

/-! ## The libraries that are found -/

section Collected

/-- A bytecode of the compiler output refers to the library. -/
def Refers (self : ZkLinker) (library : Path × String) : Prop :=
  ∃ entry ∈ self.compilerOutput, ∃ references ∈ entry.2.bytecode,
    references.Has library.1 library.2

/-- The artifacts that are libraries of others. -/
def IsUsed (self : ZkLinker) (id : ArtifactId) : Prop :=
  id ∈ self.linker.contracts.keys ∧ self.Refers (self.linker.convertArtifactIdToLibPath id)

variable {target : ArtifactId} {found found' : Finset ArtifactId × Finset ArtifactId}
  {library : Path × String} {references : LinkReferences}

theorem refers_extendReferences (href : references.Has library.1 library.2 → self.Refers library)
    (h : (self.extendReferences references target).Has library.1 library.2) :
    self.Refers library := by
  unfold extendReferences at h
  split at h
  · next added hadded =>
    obtain ⟨names, hnames, hname⟩ := h
    rw [HashMap.get_extend] at hnames
    rcases Option.or_eq_some_iff.mp hnames with hget | ⟨_, hget⟩
    · obtain ⟨artifact, hartifact, hbytecode⟩ := Option.bind_eq_some_iff.mp hadded
      obtain ⟨entry, hentry, rfl⟩ := Option.map_eq_some_iff.mp hartifact
      exact ⟨entry, mem_of_find?_eq_some hentry, added, hbytecode, names, hget, hname⟩
    · exact href ⟨names, hget, hname⟩
  · exact href h

theorem refers_foldl_extendReferences (ids : List ArtifactId)
    (href : references.Has library.1 library.2 → self.Refers library)
    (h : (ids.foldl self.extendReferences references).Has library.1 library.2) :
    self.Refers library := by
  induction ids generalizing references with
  | nil => exact href h
  | cons id ids ih => exact ih (refers_extendReferences href) h

theorem zkCollectDependencies_isUsed
    (h : self.zkCollectDependencies orders fuel target found = some (.ok found'))
    (hfound : ∀ id ∈ found.1, self.IsUsed id) : ∀ id ∈ found'.1, self.IsUsed id := by
  induction fuel generalizing target found found' with
  | zero => cases h
  | succ fuel ih =>
    unfold zkCollectDependencies at h
    split at h
    · cases h
    obtain ⟨fdeps, _, h⟩ := Link.bind_ok h
    refine Link.foldlM_ok (P := fun found => ∀ id ∈ found.1, self.IsUsed id)
      (fun state library hlibrary next hstate hnext => ?_) hfound h
    dsimp only at hnext
    split at hnext
    · cases hnext
    · next id hid =>
      split at hnext
      · cases hnext
        exact hstate
      · refine ih hnext fun id' hid' => ?_
        rcases Finset.mem_insert.mp hid' with rfl | hid'
        · obtain ⟨hmem, _, rfl⟩ := Linker.find_eq_some hid
          refine ⟨hmem, refers_foldl_extendReferences _ (refers_extendReferences ?_)
            (Linker.mem_listReferences.mp hlibrary)⟩
          rintro ⟨_, hempty, _⟩
          cases hempty
        · exact hstate id' hid'

end Collected

/-! ## What is deployed -/

section Output

variable {sender : Address} {nonce : U64} {targets : List ArtifactId} {output : LinkOutput}

/-- The bytecodes are those of the libraries that got an address, in the order of the addresses,
which are those of consecutive nonces. -/
def DeploysInOrder (crates : ZkCrates) (orders : ZkOrders) (self : ZkLinker) (fuel : Nat)
    (libraries : Libraries) (sender : Address) (nonce : U64) (targets : List ArtifactId)
    (output : LinkOutput) : Prop :=
  ∃ assigned artifacts,
    self.zkAssignAddresses crates orders fuel libraries sender nonce targets = some (.ok assigned) ∧
    self.zkGetLinkedArtifacts crates orders fuel (assigned.libsToDeploy.map Prod.fst)
      assigned.libraries = some (.ok artifacts) ∧
    Forall₂
      (fun id code => ∃ contract ∈ artifacts.get id, contract.getBytecodeBytes = some code)
      (assigned.libsToDeploy.map Prod.fst) output.libsToDeploy ∧
    ∀ k id, (assigned.libsToDeploy.map Prod.fst)[k]? = some id →
      ∃ deploymentNonce : BitVec 32, deploymentNonce.toNat = nonce.toNat + k ∧
        output.libraries.lookup (self.linker.convertArtifactIdToLibPath id) =
          some (crates.toChecksum (crates.computeCreateAddress sender deploymentNonce))

theorem zkAssignAddresses_ok {assigned : Linker.Assignment}
    (h : self.zkAssignAddresses crates orders fuel libraries sender nonce targets =
      some (.ok assigned)) :
    ∃ needed : Finset ArtifactId, (∀ id ∈ needed, self.IsUsed id) ∧
      (assigned.libsToDeploy.map Prod.fst).Sublist (orders.ids.visit needed) ∧
      ∀ k id, (assigned.libsToDeploy.map Prod.fst)[k]? = some id →
        assigned.libraries.lookup (self.linker.convertArtifactIdToLibPath id) =
          some (crates.toChecksum (crates.computeCreateAddress sender
            ((nonce + BitVec.ofNat 64 k).setWidth 32))) := by
  obtain ⟨needed, hneeded, h⟩ := Link.bind_ok h
  cases h
  obtain ⟨deployed, hsub, hassigns⟩ := Linker.exists_assigns crates.byNonce self.linker sender
    (orders.ids.visit needed)
    ⟨crates.withStrippedFilePrefixes libraries self.linker.root, nonce, []⟩
  refine ⟨needed, ?_, ?_⟩
  · have hfold := Link.inner_ok hneeded
    refine Link.foldlM_ok (P := fun found => ∀ id ∈ found, self.IsUsed id)
      (fun found target _ next hfound hnext => ?_) (fun _ hid => absurd hid (Finset.notMem_empty _))
      hfold
    obtain ⟨found', hcollect, hnext⟩ := Link.bind_ok hnext
    cases hnext
    exact zkCollectDependencies_isUsed hcollect hfound
  · rw [hassigns.libsToDeploy]
    exact ⟨hsub, hassigns.address⟩

theorem zkLinkWithNonceOrAddress_ok
    (h : self.zkLinkWithNonceOrAddress crates orders fuel libraries sender nonce targets =
      some (.ok output)) :
    ∃ assigned artifacts,
      self.zkAssignAddresses crates orders fuel libraries sender nonce targets =
        some (.ok assigned) ∧
      self.zkGetLinkedArtifacts crates orders fuel (assigned.libsToDeploy.map Prod.fst)
        assigned.libraries = some (.ok artifacts) ∧
      output.libraries = assigned.libraries ∧
      Forall₂
        (fun id code => ∃ contract ∈ artifacts.get id, contract.getBytecodeBytes = some code)
        (orders.ids.visit artifacts.keys) output.libsToDeploy := by
  obtain ⟨assigned, hassigned, h⟩ := Link.bind_ok h
  obtain ⟨artifacts, hartifacts, h⟩ := Link.bind_ok h
  obtain ⟨codes, hcodes, h⟩ := Link.bind_ok h
  cases h
  refine ⟨assigned, artifacts, hassigned, hartifacts, rfl, ?_⟩
  refine (Link.mapM_ok hcodes).imp fun id code hcode => ?_
  split at hcode
  · next hbytes =>
    cases hcode
    exact Option.bind_eq_some_iff.mp hbytes
  · cases hcode

end Output

/-! ## A library that creates a contract -/

def zkSync : ZkCrates :=
  { ethereum with
    computeCreateAddress := fun sender nonce =>
      let name := "zksyncCreate".toList.map fun c => BitVec.ofNat 8 c.toNat
      (keccak256 (toBeBytes 32 (keccak256 name) ++ toBeBytes 32 (sender.setWidth 256) ++
        toBeBytes 32 (nonce.setWidth 256))).setWidth 160 }

def zkSorted : ZkOrders := .sorted (.sortedBy textKey textKey_injective)

def reports (file name : String) (missing : MissingLibrary) : LinkJsonOutput :=
  ⟨.empty, HashMap.empty.insert ([file], name) ⟨∅, {missing}⟩, .empty⟩

def links (file name : String) (code : Bytes) : LinkJsonOutput :=
  ⟨HashMap.empty.insert ([file], name) ⟨some code⟩, .empty, .empty⟩

/-- `T` uses the library `L`, which creates `F`; the compiler gives the answers in turn. -/
def creating (answers : List LinkJsonOutput) : ZkLinker where
  linker :=
    { root := ["", "project"]
      contracts := ((HashMap.empty.insert (Linker.artifact "T.sol" "T")
          ⟨some ⟨.unlinked [.byte 0], Linker.inFile "L.sol" ["L"]⟩, none⟩).insert
        (Linker.artifact "L.sol" "L") ⟨some ⟨.unlinked [.byte 1], .empty⟩, none⟩).insert
        (Linker.artifact "F.sol" "F") ⟨some (Linker.closed [7]), none⟩ }
  compiler call _ := answers[call]?
  compilerOutput :=
    [(Linker.artifact "T.sol" "T", ⟨some (Linker.inFile "L.sol" ["L"]), none, none⟩),
      (Linker.artifact "L.sol" "L", ⟨some .empty, none, some {"F.sol:F"}⟩),
      (Linker.artifact "F.sol" "F", ⟨some .empty, none, none⟩)]

def libraryAt : Libraries :=
  Libraries.empty.insert (["L.sol"], "L") "0xe2c7fF2fec10bDFA29e8DC3B9CAe4eaF2D4cf6aF"

def linkingBoth : ZkLinker :=
  creating [reports "L.sol" "L" ⟨"F.sol", "F"⟩, links "F.sol" "F" [7], links "L.sol" "L" [1]]

end ZkLinker

end Foundry.Linking
