import Foundry.Base.DepthFirst
import Foundry.Base.Enumeration
import Foundry.Base.SwapRemove
import Foundry.Linking.Bytecode

/-!
# The linker

Finds the libraries that a contract needs, gives an address to those the user did not provide,
and puts the addresses into the bytecodes.
-/

namespace Foundry.Linking

open List

structure Version where
  major : U64
  minor : U64
  patch : U64
deriving DecidableEq

structure ArtifactId where
  path : Path
  name : String
  source : Path
  version : Version
  buildId : String
  profile : String
deriving DecidableEq

def Path.stripPrefix (path base : Path) : Option Path :=
  if base.isPrefixOf path then some (path.drop base.length) else none

def Path.stripped (path base : Path) : Path := (Path.stripPrefix path base).getD path

inductive LinkerError where
  | missingLibraryArtifact (file : Path) (name : String)
  | missingTargetArtifact
  | invalidAddress (address : String)
  | cyclicDependency
  | linkingFailed (artifact : Path)
deriving DecidableEq

/-- What ends a function without a result: an error it returns, or an `unwrap` of nothing. -/
inductive Failure where
  | error (e : LinkerError)
  | panic
deriving DecidableEq

/-- A computation that may fail; `none` is one that runs out of fuel. -/
abbrev Link := ExceptT Failure Option

/-! ## Contracts -/

structure CompactDeployedBytecode where
  bytecode : Option CompactBytecode

structure CompactContractBytecode where
  bytecode : Option CompactBytecode
  deployedBytecode : Option CompactDeployedBytecode

namespace CompactContractBytecode

def deployed (contract : CompactContractBytecode) : Option CompactBytecode :=
  contract.deployedBytecode.bind (·.bytecode)

/-- The link references of both bytecodes, merged by file. -/
def references (contract : CompactContractBytecode) : LinkReferences :=
  let references : LinkReferences :=
    match contract.bytecode with
    | some bytecode => HashMap.empty.extend bytecode.linkReferences
    | none => .empty
  match contract.deployed with
  | some bytecode => references.extend bytecode.linkReferences
  | none => references

def getBytecodeBytes (contract : CompactContractBytecode) : Option Bytes :=
  contract.bytecode.bind (·.object.asBytes)

section

variable (crates : Crates)

def link (contract : CompactContractBytecode) (file : Path) (name : String)
    (address : Address) : CompactContractBytecode where
  bytecode := contract.bytecode.map (crates.link · file name address)
  deployedBytecode := contract.deployedBytecode.map fun deployed =>
    ⟨deployed.bytecode.map (crates.link · file name address)⟩

variable (contract : CompactContractBytecode) (entries : Crates.Entries)

def linkAll : CompactContractBytecode :=
  entries.foldl (fun contract (file, name, address) => contract.link crates file name address)
    contract

theorem bytecode_linkAll :
    (contract.linkAll crates entries).bytecode =
      contract.bytecode.map (crates.linkAll entries) := by
  induction entries generalizing contract with
  | nil => exact Option.map_id'.symm
  | cons entry entries ih =>
    refine (ih (contract.link crates entry.1 entry.2.1 entry.2.2)).trans ?_
    change Option.map _ (Option.map _ contract.bytecode) = _
    rw [Option.map_map]
    rfl

theorem deployed_linkAll :
    (contract.linkAll crates entries).deployed =
      contract.deployed.map (crates.linkAll entries) := by
  induction entries generalizing contract with
  | nil => exact Option.map_id'.symm
  | cons entry entries ih =>
    refine (ih (contract.link crates entry.1 entry.2.1 entry.2.2)).trans ?_
    have hlink : (contract.link crates entry.1 entry.2.1 entry.2.2).deployed =
        contract.deployed.map (crates.link · entry.1 entry.2.1 entry.2.2) := by
      unfold deployed link
      cases contract.deployedBytecode <;> rfl
    rw [hlink, Option.map_map]
    rfl

end

end CompactContractBytecode

/-! ## Library addresses -/

/-- The orders in which the maps and sets are iterated. -/
structure Orders where
  ids : Enumeration ArtifactId
  files : Enumeration Path
  names : Enumeration String

def textKey (text : String) : List Nat := text.toList.map Char.toNat

theorem textKey_injective : Function.Injective textKey := by
  intro s t h
  have hlist := map_injective_iff.mpr (fun _ _ hchar => Char.toNat_inj.mp hchar) h
  exact String.toList_inj.mp hlist

def pathKey (path : Path) : List (List Nat) := path.map textKey

theorem pathKey_injective : Function.Injective pathKey :=
  map_injective_iff.mpr textKey_injective

/-- The fields of an artifact id in the order in which they are compared. -/
def ArtifactId.key (id : ArtifactId) : List (List (List Nat)) :=
  [pathKey id.path, [textKey id.name], pathKey id.source,
    [[id.version.major.toNat, id.version.minor.toNat, id.version.patch.toNat]],
    [textKey id.buildId], [textKey id.profile]]

theorem ArtifactId.key_injective : Function.Injective ArtifactId.key := by
  rintro ⟨path, name, source, ⟨major, minor, patch⟩, buildId, profile⟩
    ⟨path', name', source', ⟨major', minor', patch'⟩, buildId', profile'⟩ h
  simp only [ArtifactId.key, List.cons.injEq, and_true, pathKey_injective.eq_iff,
    textKey_injective.eq_iff, BitVec.toNat_inj] at h
  obtain ⟨rfl, rfl, rfl, ⟨rfl, rfl, rfl⟩, rfl, rfl⟩ := h
  rfl

def Orders.sorted : Orders where
  ids := .sortedBy ArtifactId.key ArtifactId.key_injective
  files := .sortedBy pathKey pathKey_injective
  names := .sortedBy textKey textKey_injective

theorem mem_flatMap_visit {α β γ : Type} [DecidableEq α] (order : Enumeration α)
    {m : HashMap α β} {f : α → β → List γ} {c : γ} :
    c ∈ (order.visit m.keys).flatMap (fun k => (m.get k).elim [] (f k)) ↔
      ∃ k v, m.get k = some v ∧ c ∈ f k v := by
  simp only [mem_flatMap, Enumeration.mem_visit, HashMap.mem_keys]
  refine exists_congr fun k => ?_
  cases m.get k <;> simp

namespace Libraries

def lookup (libraries : Libraries) (library : Path × String) : Option String :=
  (libraries.libs.get library.1).bind (·.get library.2)

/-- `libs.entry(file).or_default().insert(name, address)` -/
def insert (libraries : Libraries) (library : Path × String) (address : String) : Libraries where
  libs := libraries.libs.insert library.1
    (((libraries.libs.get library.1).getD .empty).insert library.2 address)

def empty : Libraries := ⟨.empty⟩

/-- The entries in the order of an iteration over the files, and over the names in each. -/
def entries (orders : Orders) (libraries : Libraries) : List (Path × String × String) :=
  (orders.files.visit libraries.libs.keys).flatMap fun file =>
    ((libraries.libs.get file).elim [] fun libs =>
      (orders.names.visit libs.keys).filterMap fun name =>
        (libs.get name).map fun address => (file, name, address))

section Lookups

variable {orders : Orders} {libraries : Libraries} {library library' : Path × String}

theorem lookup_insert (libraries : Libraries) (library library' : Path × String)
    (address : String) :
    (libraries.insert library address).lookup library' =
      if library' = library then some address else libraries.lookup library' := by
  unfold lookup insert
  rw [HashMap.get_insert]
  by_cases hfile : library'.1 = library.1
  · rw [if_pos hfile, Option.bind_some, HashMap.get_insert, hfile]
    by_cases hname : library'.2 = library.2
    · rw [if_pos hname, if_pos (Prod.ext hfile hname)]
    · rw [if_neg hname, if_neg fun heq => hname (congrArg Prod.snd heq)]
      cases libraries.libs.get library.1 <;> rfl
  · rw [if_neg hfile, if_neg fun heq => hfile (congrArg Prod.fst heq)]

theorem mem_entries {file : Path} {name text : String} :
    (file, name, text) ∈ libraries.entries orders ↔ libraries.lookup (file, name) = some text := by
  unfold entries lookup
  rw [mem_flatMap_visit, Option.bind_eq_some_iff]
  constructor
  · rintro ⟨file', libs, hlibs, hmem⟩
    obtain ⟨name', _, heq⟩ := mem_filterMap.mp hmem
    obtain ⟨text', htext, heq⟩ := Option.map_eq_some_iff.mp heq
    cases heq
    exact ⟨libs, hlibs, htext⟩
  · rintro ⟨libs, hlibs, htext⟩
    refine ⟨file, libs, hlibs, mem_filterMap.mpr ⟨name, ?_, ?_⟩⟩
    · exact (orders.names.mem_visit).mpr (HashMap.mem_keys_of_get htext)
    · exact Option.map_eq_some_iff.mpr ⟨text, htext, rfl⟩

end Lookups

end Libraries

structure LinkOutput where
  libraries : Libraries
  libsToDeploy : List Bytes
deriving DecidableEq

/-! ## Linking -/

structure Linker where
  root : Path
  contracts : HashMap ArtifactId CompactContractBytecode

namespace Linker

/-- The artifacts are as a compiler emits them. -/
def WellFormed (crates : Crates) (self : Linker) : Prop :=
  ∀ id ∈ self.contracts.keys, ∀ contract ∈ self.contracts.get id,
    (∀ bytecode ∈ contract.bytecode, crates.Emitted bytecode) ∧
      ∀ bytecode ∈ contract.deployed, crates.Emitted bytecode

/-- The name in an artifact id is the name of a library, or that and a version. -/
def convertArtifactIdToLibPath (self : Linker) (id : ArtifactId) : Path × String :=
  (Path.stripped id.source self.root, String.ofList (id.name.toList.takeWhile (· ≠ '.')))

def IsLibrary (self : Linker) (library : Path × String) (version : Option Version)
    (id : ArtifactId) : Prop :=
  (∀ v ∈ version, id.version = v) ∧ self.convertArtifactIdToLibPath id = library

instance (self : Linker) (library : Path × String) (version : Option Version)
    (id : ArtifactId) : Decidable (self.IsLibrary library version id) :=
  inferInstanceAs (Decidable (_ ∧ _))

section Functions

variable (crates : Crates) (orders : Orders) (self : Linker)

def findArtifactIdByLibraryPath (library : Path × String) (version : Option Version) :
    Option ArtifactId :=
  (orders.ids.visit self.contracts.keys).find? fun id => self.IsLibrary library version id

/-- The libraries in the order of an iteration over the files, and over the names in each. -/
def listReferences (references : LinkReferences) : List (Path × String) :=
  (orders.files.visit references.keys).flatMap fun file =>
    ((references.get file).elim [] fun names => (orders.names.visit names).map fun name =>
      (file, name))

def referenced (target : ArtifactId) : Except Failure (List (Except Failure ArtifactId)) :=
  match self.contracts.get target with
  | none => .error (.error .missingTargetArtifact)
  | some contract =>
    .ok ((listReferences orders contract.references).map fun library =>
      match self.findArtifactIdByLibraryPath orders library (some target.version) with
      | some id => .ok id
      | none => .error (.error (.missingLibraryArtifact library.1 library.2)))

def collectDependencies (target : ArtifactId) (deps : Finset ArtifactId) :
    Link (Finset ArtifactId) :=
  DepthFirst.collect (self.referenced orders) (self.contracts.keys.card + 1) target deps

def linkText (contract : CompactContractBytecode) :
    Path × String × String → Except Failure CompactContractBytecode
  | (file, name, text) =>
    match crates.fromStr text with
    | none => .error (.error (.invalidAddress text))
    | some address => .ok (contract.link crates file name address)

def link (target : ArtifactId) (libraries : Libraries) :
    Except Failure CompactContractBytecode :=
  match self.contracts.get target with
  | none => .error (.error .missingTargetArtifact)
  | some contract => (libraries.entries orders).foldlM (linkText crates) contract

def ensureLinked (contract : CompactContractBytecode) (target : ArtifactId) :
    Except LinkerError Unit :=
  if contract.bytecode.any (·.object.isUnlinked) then .error (.linkingFailed target.source)
  else if contract.deployed.any (·.object.isUnlinked) then
    .error (.linkingFailed target.source)
  else .ok ()

structure Assignment where
  libraries : Libraries
  nonce : U64
  libsToDeploy : List (ArtifactId × Address)
deriving DecidableEq

/-- Keeps the address of a library that has one, else computes it. -/
def assign (sender : Address) (state : Assignment) (id : ArtifactId) : Assignment :=
  let library := self.convertArtifactIdToLibPath id
  match state.libraries.lookup library with
  | some _ => state
  | none =>
    let address := crates.create sender state.nonce
    { libraries := state.libraries.insert library (crates.toChecksum address)
      nonce := state.nonce + 1
      libsToDeploy := state.libsToDeploy ++ [(id, address)] }

def linkWithNonceOrAddress (libraries : Libraries) (sender : Address) (nonce : U64)
    (targets : List ArtifactId) : Link LinkOutput := do
  let libraries := crates.withStrippedFilePrefixes libraries self.root
  let neededLibraries ←
    targets.foldlM (fun deps target => self.collectDependencies orders target deps) ∅
  let assigned := (orders.ids.visit neededLibraries).foldl (self.assign crates sender)
    ⟨libraries, nonce, []⟩
  let libsToDeploy ← assigned.libsToDeploy.mapM fun (id, _) => do
    let contract ← self.link crates orders id assigned.libraries
    match contract.getBytecodeBytes with
    | some bytes => pure bytes
    | none => throw .panic
  return ⟨assigned.libraries, libsToDeploy⟩

/-- Computes addresses until no library is left that is not linked. -/
def deployAll (sender : Address) (salt : B256) :
    Nat → List (ArtifactId × CompactBytecode) → LinkOutput → Link LinkOutput
  | 0, _, _ => none
  | _ + 1, [], output => pure output
  | fuel + 1, pending@(_ :: _), output =>
    match pending.findIdx? fun (_, bytecode) => !bytecode.object.isUnlinked with
    | none => throw (.error .cyclicDependency)
    | some index =>
      match swapRemove pending index with
      | none => throw .panic
      | some ((id, bytecode), rest) =>
        match bytecode.object.asBytes with
        | none => throw .panic
        | some code =>
          let address := crates.create2FromCode sender salt code
          let library := self.convertArtifactIdToLibPath id
          deployAll sender salt fuel (rest.map fun (id, bytecode) =>
              (id, crates.link bytecode library.1 library.2 address))
            { libraries := output.libraries.insert library (crates.toChecksum address)
              libsToDeploy := output.libsToDeploy ++ [code] }

/-- Links a library with the provided ones and extracts its bytecode, possibly unlinked. -/
def linkProvided (libraries : Libraries) (id : ArtifactId) :
    Link (ArtifactId × CompactBytecode) :=
  match self.link crates orders id libraries with
  | .error _ => throw .panic
  | .ok contract =>
    match contract.bytecode with
    | none => throw .panic
    | some bytecode => pure (id, bytecode)

def linkWithCreate2 (libraries : Libraries) (sender : Address) (salt : B256)
    (target : ArtifactId) : Link LinkOutput := do
  let libraries := crates.withStrippedFilePrefixes libraries self.root
  let neededLibraries ← self.collectDependencies orders target ∅
  let neededLibraries := (orders.ids.visit neededLibraries).filter fun id =>
    libraries.lookup (self.convertArtifactIdToLibPath id) = none
  let pending ← neededLibraries.mapM (self.linkProvided crates orders libraries)
  self.deployAll crates sender salt (pending.length + 1) pending ⟨libraries, []⟩

end Functions

/-! ## The graph of the references -/

section Graph

variable {orders : Orders} {self : Linker} {library : Path × String} {a b : ArtifactId}
  {version : Option Version}

theorem mem_listReferences {references : LinkReferences} :
    library ∈ listReferences orders references ↔ references.Has library.1 library.2 := by
  unfold listReferences LinkReferences.Has
  rw [mem_flatMap_visit]
  simp [Prod.ext_iff]

theorem find_eq_some (h : self.findArtifactIdByLibraryPath orders library version = some a) :
    a ∈ self.contracts.keys ∧ self.IsLibrary library version a := by
  have hmem := mem_of_find?_eq_some h
  have hlibrary := find?_some h
  exact ⟨orders.ids.mem_visit.mp hmem, of_decide_eq_true hlibrary⟩

theorem child_referenced_iff :
    DepthFirst.Child (self.referenced orders) a b ↔
      ∃ contract ∈ self.contracts.get a, ∃ library : Path × String,
        contract.references.Has library.1 library.2 ∧
          self.findArtifactIdByLibraryPath orders library (some a.version) = some b := by
  unfold DepthFirst.Child referenced
  cases self.contracts.get a with
  | none => simp
  | some contract =>
    simp only [Option.mem_def, Option.some.injEq, exists_eq_left', Except.ok.injEq, mem_map,
      mem_listReferences]
    refine exists_congr fun library => and_congr_right fun _ => ?_
    split <;> simp [*]

theorem child_mem (h : DepthFirst.Child (self.referenced orders) a b) :
    b ∈ self.contracts.keys ∧ b.version = a.version := by
  obtain ⟨_, _, library, _, hfind⟩ := child_referenced_iff.mp h
  obtain ⟨hmem, hversion, _⟩ := find_eq_some hfind
  exact ⟨hmem, hversion a.version rfl⟩

theorem collectDependencies_isSome (orders : Orders) (self : Linker) (target : ArtifactId) :
    (self.collectDependencies orders target ∅).isSome := by
  refine DepthFirst.collect_isSome (fun a b h => (child_mem h).1) ?_
  rw [Finset.sdiff_empty]
  exact Nat.lt_succ_self _

end Graph

/-! ## Linking an artifact -/

section LinkOne

variable {crates : Crates} {orders : Orders} {self : Linker} {libraries : Libraries}
  {target : ArtifactId} {contract : CompactContractBytecode} {entries : Crates.Entries}

def parseEntry (crates : Crates) : Path × String × String → Option (Path × String × Address)
  | (file, name, text) => (crates.fromStr text).map fun address => (file, name, address)

def parse (crates : Crates) (orders : Orders) (libraries : Libraries) :
    Option Crates.Entries :=
  (libraries.entries orders).mapM (parseEntry crates)

/-- Linking by texts is linking by the addresses they stand for. -/
theorem foldlM_linkText (texts : List (Path × String × String))
    (contract : CompactContractBytecode) :
    (∀ entries, texts.mapM (parseEntry crates) = some entries →
      texts.foldlM (linkText crates) contract = .ok (contract.linkAll crates entries)) ∧
    (texts.mapM (parseEntry crates) = none →
      ∃ e, texts.foldlM (linkText crates) contract = .error e) := by
  induction texts generalizing contract with
  | nil =>
    refine ⟨?_, nofun⟩
    rintro _ ⟨⟩
    rfl
  | cons entry texts ih =>
    obtain ⟨file, name, text⟩ := entry
    rw [mapM_cons, foldlM_cons]
    cases hparse : crates.fromStr text with
    | none =>
      have hentry : parseEntry crates (file, name, text) = none := by
        rw [parseEntry, hparse]
        rfl
      have hlink : linkText crates contract (file, name, text) =
          .error (.error (.invalidAddress text)) := by
        rw [linkText, hparse]
      rw [hentry, hlink]
      exact ⟨nofun, fun _ => ⟨_, rfl⟩⟩
    | some address =>
      have hentry : parseEntry crates (file, name, text) = some (file, name, address) := by
        rw [parseEntry, hparse]
        rfl
      have hlink : linkText crates contract (file, name, text) =
          .ok (contract.link crates file name address) := by
        rw [linkText, hparse]
      rw [hentry, hlink]
      obtain ⟨hok, herror⟩ := ih (contract.link crates file name address)
      cases hrest : texts.mapM (parseEntry crates) with
      | none => exact ⟨nofun, fun _ => herror hrest⟩
      | some rest =>
        refine ⟨?_, nofun⟩
        rintro _ ⟨⟩
        exact hok rest hrest

theorem link_of_parse (hcontract : self.contracts.get target = some contract)
    {entries : Crates.Entries} (h : parse crates orders libraries = some entries) :
    self.link crates orders target libraries = .ok (contract.linkAll crates entries) := by
  unfold link
  rw [hcontract]
  exact (foldlM_linkText _ _).1 entries h

theorem parse_of_link (h : self.link crates orders target libraries = .ok contract) :
    ∃ original entries, self.contracts.get target = some original ∧
      parse crates orders libraries = some entries ∧
      contract = original.linkAll crates entries := by
  cases horiginal : self.contracts.get target with
  | none =>
    unfold link at h
    rw [horiginal] at h
    cases h
  | some original =>
    cases hparse : parse crates orders libraries with
    | none =>
      obtain ⟨e, herror⟩ := (foldlM_linkText _ _).2 hparse
      unfold link at h
      rw [horiginal] at h
      cases herror.symm.trans h
    | some entries =>
      rw [link_of_parse horiginal hparse] at h
      cases h
      exact ⟨original, entries, rfl, rfl, rfl⟩

theorem map_eq_of_mapM {β γ : Type} {f : β → Option γ} {l : List β} {l' : List γ}
    (h : l.mapM f = some l') : l.map f = l'.map some := by
  induction l generalizing l' with
  | nil =>
    cases h
    rfl
  | cons b l ih =>
    rw [mapM_cons] at h
    obtain ⟨c, hc, h⟩ := Option.bind_eq_some_iff.mp h
    obtain ⟨rest, hrest, h⟩ := Option.bind_eq_some_iff.mp h
    cases h
    rw [map_cons, hc, ih hrest, map_cons]

theorem mem_parse (h : parse crates orders libraries = some entries) {file : Path} {name : String}
    {address : Address} :
    (file, name, address) ∈ entries ↔
      ∃ text, libraries.lookup (file, name) = some text ∧ crates.fromStr text = some address := by
  rw [← mem_map_of_injective (Option.some_injective _), ← map_eq_of_mapM h, mem_map]
  constructor
  · rintro ⟨⟨file', name', text⟩, hmem, hparse⟩
    obtain ⟨address', haddress, heq⟩ := Option.map_eq_some_iff.mp hparse
    cases heq
    exact ⟨text, Libraries.mem_entries.mp hmem, haddress⟩
  · rintro ⟨text, hlookup, haddress⟩
    refine ⟨(file, name, text), Libraries.mem_entries.mpr hlookup, ?_⟩
    exact Option.map_eq_some_iff.mpr ⟨address, haddress, rfl⟩

theorem exists_mem_parse
    (h : parse crates orders libraries = some entries) {file : Path} {name text : String}
    (hlookup : libraries.lookup (file, name) = some text) :
    ∃ address, (file, name, address) ∈ entries := by
  have hmem : parseEntry crates (file, name, text) ∈ (libraries.entries orders).map _ :=
    mem_map_of_mem (Libraries.mem_entries.mpr hlookup)
  obtain ⟨entry, hentry, hparse⟩ := mem_map.mp (map_eq_of_mapM h ▸ hmem)
  obtain ⟨address, _, heq⟩ := Option.map_eq_some_iff.mp hparse.symm
  exact ⟨address, heq ▸ hentry⟩

end LinkOne

end Linker

end Foundry.Linking
