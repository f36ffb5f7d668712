import Foundry.Linking.Linker

/-!
# The ZKsync linker

Collects the libraries of a contract and of its factory dependencies, gives them addresses, and
lets `zksolc` put the addresses into the bytecodes.  The bytecodes are linked from a queue, to
which the factory dependencies that `zksolc` reports as missing are added.
-/

namespace Foundry.Linking

def Path.new (text : List Char) : Path := (text.splitOn '/').map String.ofList

def ArtifactId.withStrippedFilePrefixes (id : ArtifactId) (base : Path) : ArtifactId :=
  { id with source := Path.stripped id.source base }

/-! ## Calls of `zksolc --link` -/

abbrev LinkId := Path × String

structure MissingLibrary where
  filename : String
  library : String
deriving DecidableEq

structure LinkJsonInput where
  bytecodes : HashMap LinkId Bytes
  libraries : Finset (Path × String × Address)

/-- `none` is a text that is not hexadecimal. -/
structure LinkedObject where
  bytecode : Option Bytes

structure UnlinkedObject where
  linkerSymbols : Finset MissingLibrary
  factoryDependencies : Finset MissingLibrary

structure LinkJsonOutput where
  linked : HashMap LinkId LinkedObject
  unlinked : HashMap LinkId UnlinkedObject
  ignored : HashMap LinkId LinkedObject

/-- What the compiler answers to each of its calls, which are counted; `none` is an error. -/
abbrev Zksolc := Nat → LinkJsonInput → Option LinkJsonOutput

/-! ## The linker -/

/-- A factory dependency is a text `<path>:<name>`. -/
structure ZkContractArtifact where
  bytecode : Option LinkReferences
  factoryDependencies : Option (List String)
  factoryDependenciesUnlinked : Option (Finset String)

structure ZkLinker where
  linker : Linker
  compiler : Zksolc
  compilerOutput : List (ArtifactId × ZkContractArtifact)

inductive ZkFailure where
  | inner (failure : Failure)
  | missingLibraries (libraries : Finset MissingLibrary)
  | missingFactoryDeps (fdeps : Finset MissingLibrary)
deriving DecidableEq

abbrev ZkLink := ExceptT ZkFailure Option

/-- The errors of the inner linker, as those of this one. -/
def Link.inner {α : Type} (x : Link α) : ZkLink α := Option.map (Except.mapError .inner) x

theorem Link.inner_ok {α : Type} {x : Link α} {a : α} (h : Link.inner x = some (.ok a)) :
    x = some (.ok a) := by
  obtain ⟨result, rfl, hresult⟩ := Option.map_eq_some_iff.mp h
  cases result with
  | error e => cases hresult
  | ok b =>
    cases hresult
    rfl

structure ZkCrates extends Crates where
  computeCreateAddress : Address → BitVec 32 → Address

/-- Addresses by nonce, of which the low 32 bits are taken. -/
def ZkCrates.byNonce (crates : ZkCrates) : Crates :=
  { crates.toCrates with
    create := fun sender nonce => crates.computeCreateAddress sender (nonce.setWidth 32) }

structure ZkOrders extends Orders where
  missing : Enumeration MissingLibrary
  texts : Enumeration String

def MissingLibrary.key (missing : MissingLibrary) : List (List Nat) :=
  [textKey missing.filename, textKey missing.library]

theorem MissingLibrary.key_injective : Function.Injective MissingLibrary.key := by
  rintro ⟨filename, library⟩ ⟨filename', library'⟩ h
  simp only [MissingLibrary.key, List.cons.injEq, and_true] at h
  cases textKey_injective h.1
  cases textKey_injective h.2
  rfl

/-- The orders of B-trees, and that of a hash set of texts. -/
def ZkOrders.sorted (texts : Enumeration String) : ZkOrders where
  toOrders := .sorted
  missing := .sortedBy MissingLibrary.key MissingLibrary.key_injective
  texts := texts

namespace ZkLinker

def splitFactoryDep (dep : String) : Option (Path × String) :=
  match dep.toList.splitOn ':' with
  | path :: name :: _ => some (Path.new path, String.ofList name)
  | _ => none

/-- Whether a report of a missing contract is about the artifact. -/
def IsMissing (root : Path) (missing : MissingLibrary) (id : ArtifactId) : Prop :=
  (id.withStrippedFilePrefixes root).source = Path.new missing.filename.toList ∧
    id.name = missing.library

instance (root : Path) (missing : MissingLibrary) (id : ArtifactId) :
    Decidable (IsMissing root missing id) :=
  inferInstanceAs (Decidable (_ ∧ _))

def sentBytes : BytecodeObject → Option Bytes
  | .bytecode bytes => some bytes
  | .unlinked code => code.mapM Piece.byte?

structure Worklist where
  contracts : HashMap ArtifactId CompactContractBytecode
  targets : List ArtifactId
  linkedArtifacts : List (ArtifactId × CompactContractBytecode)
  calls : Nat

/-- What comes of a target that is taken from the queue. -/
inductive Attempt where
  | skipped
  | done (contract : CompactContractBytecode)
  | requeued (fdeps : List ArtifactId)
  | dropped

section Functions

variable (crates : ZkCrates) (orders : ZkOrders) (self : ZkLinker)

/-- The first artifact of the compiler output with the source and name of the target. -/
def findArtifact (target : ArtifactId) : Option ZkContractArtifact :=
  (self.compilerOutput.find? fun (id, _) =>
    id.source = target.source ∧ id.name = target.name).map Prod.snd

/-- The artifacts that the unlinked factory dependencies of an artifact lead to. -/
def factoryDeps (target : ArtifactId) : Except Failure (List (Except Failure ArtifactId)) :=
  match self.findArtifact target with
  | none => .error (.error .missingTargetArtifact)
  | some artifact =>
    let alreadyLinked := artifact.factoryDependencies.getD []
    let unlinkedDepsOfTarget :=
      (orders.texts.visit (artifact.factoryDependenciesUnlinked.getD ∅)).filter
        fun dep => dep ∉ alreadyLinked
    .ok (unlinkedDepsOfTarget.map fun dep =>
      match splitFactoryDep dep with
      | none => .error .panic
      | some library =>
        match self.linker.findArtifactIdByLibraryPath orders.toOrders library none with
        | some id => .ok id
        | none => .error (.error (.missingLibraryArtifact library.1 library.2)))

def zkCollectFactoryDeps (fuel : Nat) (target : ArtifactId) (deps : Finset ArtifactId) :
    Link (Finset ArtifactId) :=
  DepthFirst.collect (self.factoryDeps orders) fuel target deps

/-- Adds the link references of an artifact, if it is in the compiler output. -/
def extendReferences (references : LinkReferences) (id : ArtifactId) : LinkReferences :=
  match (self.findArtifact id).bind (·.bytecode) with
  | some linkReferences => references.extend linkReferences
  | none => references

/-- Adds the libraries that can be reached from the target, also through the factory
dependencies. -/
def zkCollectDependencies :
    Nat → ArtifactId → Finset ArtifactId × Finset ArtifactId →
      Link (Finset ArtifactId × Finset ArtifactId)
  | 0, _, _ => none
  | fuel + 1, target, (libraries, fdeps) => do
      if (self.findArtifact target).isNone then throw (.error .missingTargetArtifact)
      let fdeps ← self.zkCollectFactoryDeps orders (fuel + 1) target fdeps
      -- the references of one file replace those of an artifact before
      let references := (orders.ids.visit fdeps).foldl self.extendReferences
        (self.extendReferences .empty target)
      (Linker.listReferences orders.toOrders references).foldlM (fun (libraries, fdeps) library =>
          match self.linker.findArtifactIdByLibraryPath orders.toOrders library none with
          | none => throw (.error (.missingLibraryArtifact library.1 library.2))
          | some id =>
            if id ∈ libraries then pure (libraries, fdeps)
            else zkCollectDependencies fuel id (insert id libraries, fdeps))
        (libraries, fdeps)

/-- The bytecodes of all contracts by link id, unless one is not hexadecimal. -/
def linkBytecodes (contracts : HashMap ArtifactId CompactContractBytecode) :
    Option (HashMap LinkId Bytes) :=
  (orders.ids.visit contracts.keys).foldlM (fun bytecodes id =>
      match (contracts.get id).bind (·.bytecode) with
      | none => some bytecodes
      | some bytecode => (sentBytes bytecode.object).map fun bytes =>
        bytecodes.insert (id.source, id.name) bytes)
    .empty

/-- Links a contract with the libraries; `call` is the number of the call of the compiler. -/
def zkLink (call : Nat) (contracts : HashMap ArtifactId CompactContractBytecode)
    (target : ArtifactId) (libraries : Libraries) : Except ZkFailure CompactContractBytecode :=
  let input := do
    let bytecodes ← linkBytecodes orders contracts
    let libraries ← Linker.parse crates.toCrates orders.toOrders libraries
    some (LinkJsonInput.mk bytecodes libraries.toFinset)
  match input.bind (self.compiler call) with
  | none => .error (.inner .panic)
  | some linkOutput =>
    let linkId := (target.source, target.name)
    match contracts.get target with
    | none => .error (.inner (.error .missingTargetArtifact))
    | some contract =>
      match linkOutput.unlinked.get linkId with
      | some unlinked =>
        if unlinked.linkerSymbols ≠ ∅ then .error (.missingLibraries unlinked.linkerSymbols)
        else .error (.missingFactoryDeps unlinked.factoryDependencies)
      | none =>
        match (linkOutput.linked.get linkId).or (linkOutput.ignored.get linkId) with
        | none => .ok contract
        | some linked =>
          match linked.bytecode with
          | none => .error (.inner .panic)
          | some bytes =>
            let bytecode := CompactBytecode.mk (.bytecode bytes) .empty
            .ok ⟨some bytecode, some ⟨some bytecode⟩⟩

def strippedContracts : HashMap ArtifactId CompactContractBytecode :=
  (orders.ids.visit self.linker.contracts.keys).foldl
    (fun contracts id => (self.linker.contracts.get id).elim contracts fun contract =>
      contracts.insert (id.withStrippedFilePrefixes self.linker.root) contract)
    .empty

/-- The contracts that are reported as missing, as far as they are in the set. -/
def missingIds (contracts : HashMap ArtifactId CompactContractBytecode)
    (fdeps : Finset MissingLibrary) : List ArtifactId :=
  (orders.missing.visit fdeps).filterMap fun fdep =>
    (orders.ids.visit contracts.keys).find? fun id => IsMissing self.linker.root fdep id

def attempt (libraries : Libraries) (state : Worklist) (id : ArtifactId) :
    Except ZkFailure Attempt :=
  if id ∈ state.linkedArtifacts.map Prod.fst then .ok .skipped
  else
    match self.zkLink crates orders state.calls state.contracts
        (id.withStrippedFilePrefixes self.linker.root) libraries with
    | .ok contract => .ok (.done contract)
    | .error (.missingFactoryDeps fdeps) =>
      match self.missingIds orders state.contracts fdeps with
      | [] => .ok .dropped
      | sampleDep :: ids =>
        if (state.contracts.get sampleDep).isNone then .error (.missingFactoryDeps fdeps)
        else .ok (.requeued (sampleDep :: ids))
    | .error e => .error e

end Functions

def Worklist.after (state : Worklist) (id : ArtifactId) (rest : List ArtifactId) :
    Attempt → Worklist
  | .skipped => { state with targets := rest }
  | .done contract =>
    { contracts := state.contracts.insert id contract
      targets := rest
      linkedArtifacts := state.linkedArtifacts ++ [(id, contract)]
      calls := state.calls + 1 }
  | .requeued fdeps =>
    { state with targets := rest ++ fdeps ++ [id], calls := state.calls + 1 }
  | .dropped => { state with targets := rest, calls := state.calls + 1 }

section Runs

variable (crates : ZkCrates) (orders : ZkOrders) (self : ZkLinker)

def linkTargets (libraries : Libraries) :
    Nat → Worklist → ZkLink (List (ArtifactId × CompactContractBytecode))
  | 0, _ => none
  | fuel + 1, state =>
    match state.targets with
    | [] => pure state.linkedArtifacts
    | id :: rest =>
      match self.attempt crates orders libraries state id with
      | .error e => throw e
      | .ok attempt => linkTargets libraries fuel (state.after id rest attempt)

def worklist (targets : List ArtifactId) : Worklist :=
  ⟨self.strippedContracts orders, targets, [], 0⟩

def zkGetLinkedArtifacts (fuel : Nat) (targets : List ArtifactId) (libraries : Libraries) :
    ZkLink (HashMap ArtifactId CompactContractBytecode) := do
  let linkedArtifacts ← self.linkTargets crates orders libraries fuel (self.worklist orders targets)
  return linkedArtifacts.foldl (fun artifacts (id, contract) => artifacts.insert id contract) .empty

/-- Finds the libraries that the targets need, and gives an address to those without one. -/
def zkAssignAddresses (fuel : Nat) (libraries : Libraries) (sender : Address) (nonce : U64)
    (targets : List ArtifactId) : ZkLink Linker.Assignment := do
  let libraries := crates.withStrippedFilePrefixes libraries self.linker.root
  let neededLibraries ← Link.inner (targets.foldlM (fun libraries target => do
      let (libraries, _) ← self.zkCollectDependencies orders fuel target (libraries, ∅)
      return libraries)
    ∅)
  return (orders.ids.visit neededLibraries).foldl (self.linker.assign crates.byNonce sender)
    ⟨libraries, nonce, []⟩

def zkLinkWithNonceOrAddress (fuel : Nat) (libraries : Libraries) (sender : Address)
    (nonce : U64) (targets : List ArtifactId) : ZkLink LinkOutput := do
  let assigned ← self.zkAssignAddresses crates orders fuel libraries sender nonce targets
  let artifacts ← self.zkGetLinkedArtifacts crates orders fuel
    (assigned.libsToDeploy.map Prod.fst) assigned.libraries
  let libsToDeploy ← (orders.ids.visit artifacts.keys).mapM fun id =>
    match (artifacts.get id).bind (·.getBytecodeBytes) with
    | some bytes => pure bytes
    | none => throw (.inner .panic)
  return ⟨assigned.libraries, libsToDeploy⟩

end Runs

end ZkLinker

end Foundry.Linking
