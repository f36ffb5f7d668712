import Foundry.Base.Enumeration
import Foundry.Evm.CacheDb
import Foundry.Evm.StateSnapshots

/-!
# Forks of the test backend

The table of forks: local ids are issued to a test, each is mapped to the id of a remote
fork, and that to an index into the list of fork databases.  Rolling a fork moves a local
id to another remote fork, reverting a snapshot moves it back.
-/

namespace Foundry.Evm

abbrev LocalForkId := U256

abbrev ForkId := String

abbrev ForkLookupIndex := Nat

structure Orders where
  addresses : Enumeration Address
  words : Enumeration U256

structure EvmStorageSlot where
  originalValue : U256
  presentValue : U256

structure Account where
  info : AccountInfo
  storage : HashMap U256 EvmStorageSlot
  isCreated : Bool
  isTouched : Bool

namespace Account

def ofInfo (info : AccountInfo) : Account := ⟨info, .empty, false, false⟩

def newNotExisting : Account := ofInfo .default

end Account

structure JournaledState where
  state : HashMap Address Account
  logs : List Bytes
  depth : Nat

namespace JournaledState

def new : JournaledState := ⟨.empty, [], 0⟩

/-- The information on an account that is handed over when a fork does not know it. -/
def infoOrDefault (self : JournaledState) (address : Address) : AccountInfo :=
  ((self.state.get address).map (·.info)).getD .default

end JournaledState

structure BlockEnv where
  number : U256
  timestamp : U256

structure CfgEnv where
  chainId : U64
  spec : Nat

structure TxEnv where
  caller : Address
  chainId : Option U64

structure Env where
  block : BlockEnv
  cfg : CfgEnv
  tx : TxEnv

/-- Updates the current environment with that of a fork; the transaction keeps its caller. -/
def updateCurrentEnvWithForkEnv (current fork : Env) : Env where
  block := fork.block
  cfg := fork.cfg
  tx := { current.tx with chainId := fork.tx.chainId }

/-- Represents a fork; `R` is the handle of the remote database. -/
structure Fork (R : Type) where
  db : CacheDb R
  journaledState : JournaledState

namespace Fork

variable {R E : Type}

/-- Ensures that the caller is in the journaled state, and in the database if it was not. -/
def ensureCaller (cache : CacheOps R E) (current : JournaledState) (caller : Address)
    (journaledState : JournaledState) (db : CacheDb R) : JournaledState × CacheDb R :=
  if journaledState.state.contains caller then (journaledState, db)
  else
    let callerAccount := current.infoOrDefault caller
    ({ journaledState with state := journaledState.state.insert caller (.ofInfo callerAccount) },
      if db.accounts.contains caller then db
      else cache.insertAccountInfo db caller callerAccount)

end Fork

inductive BackendDatabaseSnapshot (R : Type) where
  | inMemory (memDb : CacheDb Unit)
  | forked (id : LocalForkId) (forkId : ForkId) (idx : ForkLookupIndex) (fork : Fork R)

structure BackendStateSnapshot (R : Type) where
  db : BackendDatabaseSnapshot R
  journaledState : JournaledState
  env : Env

/-- Keeps all logs that were emitted since the snapshot was taken. -/
def BackendStateSnapshot.merge {R : Type} (self : BackendStateSnapshot R)
    (current : JournaledState) : BackendStateSnapshot R :=
  { self with journaledState := { self.journaledState with logs := current.logs } }

/-- The ways in which a call fails; `E` are the errors of a database or of the handler. -/
inductive Error (E : Type) where
  /-- An `unwrap` of `None`, a failed `expect` or an index out of bounds. -/
  | panic
  /-- "No matching fork found for {}". -/
  | noMatchingFork (id : LocalForkId)
  /-- "No matching fork found for {}". -/
  | noMatchingForkId (id : ForkId)
  /-- "Requested fork {} does not exit". -/
  | requestedForkMissing (id : LocalForkId)
  /-- "No fork active". -/
  | noForkActive
  | missingAccount (address : Address)
  | database (error : E)
  | handler (error : E)

structure BackendInner (R : Type) where
  issuedLocalForkIds : HashMap LocalForkId ForkId
  createdForks : HashMap ForkId ForkLookupIndex
  forks : List (Option (Fork R))
  stateSnapshots : StateSnapshots (BackendStateSnapshot R)
  hasStateSnapshotFailure : Bool
  caller : Option Address
  nextForkId : LocalForkId
  persistentAccounts : Finset Address
  specId : Nat

namespace BackendInner

variable {R E : Type}

def default : BackendInner R where
  issuedLocalForkIds := .empty
  createdForks := .empty
  forks := []
  stateSnapshots := .default
  hasStateSnapshotFailure := false
  caller := none
  nextForkId := 0
  persistentAccounts := ∅
  specId := 0

section

variable (self : BackendInner R)

def ensureForkId (id : LocalForkId) : Except (Error E) ForkId :=
  match self.issuedLocalForkIds.get id with
  | some forkId => .ok forkId
  | none => .error (.noMatchingFork id)

def ensureForkIndex (id : ForkId) : Except (Error E) ForkLookupIndex :=
  match self.createdForks.get id with
  | some idx => .ok idx
  | none => .error (.noMatchingForkId id)

section

variable (id : LocalForkId)

def ensureForkIndexByLocalId : Except (Error E) ForkLookupIndex := do
  let forkId ← self.ensureForkId id
  self.ensureForkIndex forkId

section

variable (idx : ForkLookupIndex)

def forkAt : Option (Fork R) := self.forks[idx]?.join

def getFork : Except (Error E) (Fork R) :=
  match self.forkAt idx with
  | some fork => .ok fork
  | none => .error .panic

def takeFork : BackendInner R :=
  { self with forks := self.forks.set idx none }

def setFork (fork : Fork R) : BackendInner R :=
  { self with forks := self.forks.set idx (some fork) }

end

def getForkById : Except (Error E) (Fork R) := do
  let idx ← self.ensureForkIndexByLocalId id
  self.getFork idx

/-- `get_fork_by_id_mut`, with what is done to the fork that it yields. -/
def modifyForkById (f : Fork R → Fork R) : Except (Error E) (BackendInner R) := do
  let idx ← self.ensureForkIndexByLocalId id
  let fork ← self.getFork idx
  return self.setFork idx (f fork)

def revertStateSnapshot (forkId : ForkId)
    (idx : ForkLookupIndex) (fork : Fork R) : Option (BackendInner R) :=
  let self :=
    { self with
      createdForks := self.createdForks.insert forkId idx
      issuedLocalForkIds := self.issuedLocalForkIds.insert id forkId }
  if idx < self.forks.length then some (self.setFork idx fork) else none

/-- Updates the fork and the local mapping and returns the new index for the fork database. -/
def updateForkMapping (forkId : ForkId)
    (db : CacheDb R) (journaledState : JournaledState) : BackendInner R × ForkLookupIndex :=
  let idx := self.forks.length
  ({ self with
      issuedLocalForkIds := self.issuedLocalForkIds.insert id forkId
      createdForks := self.createdForks.insert forkId idx
      forks := self.forks ++ [some ⟨db, journaledState⟩] }, idx)

end

def insertNewFork (forkId : ForkId) (db : CacheDb R)
    (journaledState : JournaledState) : BackendInner R × LocalForkId × ForkLookupIndex :=
  let idx := self.forks.length
  let id := self.nextForkId
  ({ self with
      createdForks := self.createdForks.insert forkId idx
      nextForkId := self.nextForkId + 1
      issuedLocalForkIds := self.issuedLocalForkIds.insert id forkId
      forks := self.forks ++ [some ⟨db, journaledState⟩] }, id, idx)

end

end BackendInner

/-! ## Strategies -/

inductive ForkType where
  | evm
  | zk
deriving DecidableEq

structure BackendStrategyForkInfo (R : Type) where
  activeFork : Option (Fork R)
  activeType : ForkType
  targetType : ForkType

/-- What differs between the EVM and ZKsync; `C` is the context the strategy keeps. -/
structure BackendStrategyRunner (R C : Type) where
  updateForkDb : Orders → C → BackendStrategyForkInfo R → CacheDb Unit → BackendInner R →
    JournaledState → Fork R → C × JournaledState × Fork R
  mergeJournaledStateData : C → Address → JournaledState → JournaledState → C × JournaledState
  mergeDbAccountData : C → Address → CacheDb R → CacheDb R → C × CacheDb R

namespace EvmBackendMergeStrategy

variable {R S : Type}

/-- Clones the account data from the active journaled state into that of the fork. -/
def mergeJournaledStateData (addr : Address) (active fork : JournaledState) : JournaledState :=
  match active.state.get addr with
  | none => fork
  | some acc =>
    let acc :=
      match fork.state.get addr with
      | none => acc
      | some forkAccount => { acc with storage := forkAccount.storage.extend acc.storage }
    { fork with state := fork.state.insert addr acc }

def mergeDbAccountData (addr : Address) (active : CacheDb S) (forkDb : CacheDb R) :
    CacheDb R :=
  match active.accounts.get addr with
  | none => forkDb
  | some acc =>
    let contracts :=
      match active.contracts.get acc.accountInfo.codeHash with
      | none => forkDb.contracts
      | some code => forkDb.contracts.insert acc.accountInfo.codeHash code
    let acc :=
      match forkDb.accounts.get addr with
      | none => acc
      | some forkAccount => { acc with storage := forkAccount.storage.extend acc.storage }
    { forkDb with contracts := contracts, accounts := forkDb.accounts.insert addr acc }

/-- Clones the data of the given accounts from the active database into the fork. -/
def mergeAccountData (accounts : List Address) (active : CacheDb S)
    (activeJournaledState : JournaledState) (targetFork : Fork R) : JournaledState × Fork R :=
  let targetFork := accounts.foldl (fun (fork : Fork R) addr =>
      { db := mergeDbAccountData addr active fork.db
        journaledState := mergeJournaledStateData addr activeJournaledState fork.journaledState })
    targetFork
  (targetFork.journaledState, targetFork)

end EvmBackendMergeStrategy

def evmBackendStrategyRunner (R : Type) : BackendStrategyRunner R Unit where
  updateForkDb orders _ forkInfo memDb inner active target :=
    let accounts := orders.addresses.visit inner.persistentAccounts
    match forkInfo.activeFork with
    | some fork => ((), EvmBackendMergeStrategy.mergeAccountData accounts fork.db active target)
    | none => ((), EvmBackendMergeStrategy.mergeAccountData accounts memDb active target)
  mergeJournaledStateData _ addr active fork :=
    ((), EvmBackendMergeStrategy.mergeJournaledStateData addr active fork)
  mergeDbAccountData _ addr active forkDb :=
    ((), EvmBackendMergeStrategy.mergeDbAccountData addr active forkDb)

end Foundry.Evm
