import Foundry.Base.Frames
import Foundry.Evm.Fork

/-!
# The test backend

The database of a test: an in-memory database until a fork is selected, then the database
of that fork.  Calls that reach for remote data can fail half way; what they changed until
then stays.
-/

namespace Foundry.Evm

/-- What the backend is run with: the operations of the databases, with remote data that is the
same each time it is read, the precompiles of each specification and the strategy. -/
structure Host (R E C : Type) where
  memory : CacheOps Unit E
  cache : CacheOps R E
  /-- Loads an account into a journaled state; a failing read loads nothing. -/
  loadJournaled : JournaledState → CacheDb R → Address → JournaledState × CacheDb R
  precompiles : Nat → Finset Address
  runner : BackendStrategyRunner R C

/-- The answers of the handler that manages the remote forks during one call. -/
structure MultiFork (R E : Type) where
  updateBlock : ForkId → U256 → U256 → Except E Unit
  /-- The type of the fork's URL, if the handler knows the fork. -/
  forkType : ForkId → Except E (Option ForkType)
  getEnv : ForkId → Except E (Option Env)
  rollFork : ForkId → U64 → Except E (ForkId × R × Env)

structure Backend (R C : Type) where
  strategyContext : C
  memDb : CacheDb Unit
  forkInitJournaledState : JournaledState
  activeForkIds : Option (LocalForkId × ForkLookupIndex)
  inner : BackendInner R

/-- The backend with the environment and the journaled state that a call changes in place. -/
structure Session (R C : Type) where
  backend : Backend R C
  env : Env
  journaledState : JournaledState

abbrev SessionM (R E C α : Type) := EStateM (Error E) (Session R C) α

def cheatcodeAddress : Address := 0x7109709ECfa91a80626fF3989D68f67F5b1DD12D

def globalFailSlot : U256 := 0x6661696c65640000000000000000000000000000000000000000000000000000

variable {R E C : Type}

/-- The cheatcodes, the deployer of `CREATE2` and the default caller. -/
def defaultPersistentAccounts : Finset Address :=
  {cheatcodeAddress, 0x4e59b44847b379578588920ca78fbf26c0b4956c,
    0x1804c8AB1F12E6bbf3894d4083f33e07309d1f38}

namespace Backend

def new (context : C) : Backend R C where
  strategyContext := context
  memDb := .new ()
  forkInitJournaledState := .new
  activeForkIds := none
  inner := { BackendInner.default with persistentAccounts := defaultPersistentAccounts }

def newWithFork (context : C) (id : ForkId) (fork : Fork R) (journaledState : JournaledState) :
    Backend R C :=
  let backend : Backend R C := new context
  let (inner, forkIds) := backend.inner.insertNewFork id fork.db journaledState
  { backend with inner := inner, activeForkIds := some forkIds }

def activeForkId (self : Backend R C) : Option LocalForkId := self.activeForkIds.map (·.1)

def isActiveFork (self : Backend R C) (id : LocalForkId) : Bool := self.activeForkId == some id

/-! ## Reads -/

def basicRef (host : Host R E C) (self : Backend R C) (address : Address) :
    Except (Error E) (Option AccountInfo) :=
  match self.activeForkIds with
  | some (_, idx) => do
      let fork ← self.inner.getFork idx
      (host.cache.basicRef fork.db address).mapError .database
  | none => (host.memory.basicRef self.memDb address).mapError .database

def storageRef (host : Host R E C) (self : Backend R C) (address : Address) (index : U256) :
    Except (Error E) U256 :=
  match self.activeForkIds with
  | some (_, idx) => do
      let fork ← self.inner.getFork idx
      (host.cache.storageRef fork.db address index).mapError .database
  | none => (host.memory.storageRef self.memDb address index).mapError .database

/-! ## Snapshots

A result of `none` is a panic. -/

def createDbSnapshot (self : Backend R C) : Option (BackendDatabaseSnapshot R) :=
  match self.activeForkIds with
  | some (id, idx) => do
      let fork ← self.inner.forkAt idx
      let forkId ← self.inner.issuedLocalForkIds.get id
      return .forked id forkId idx fork
  | none => some (.inMemory self.memDb)

def snapshotState (self : Backend R C) (journaledState : JournaledState) (env : Env) :
    Option (Backend R C × U256) := do
  let db ← self.createDbSnapshot
  let (stateSnapshots, id) := self.inner.stateSnapshots.insert ⟨db, journaledState, env⟩
  return ({ self with inner := { self.inner with stateSnapshots := stateSnapshots } }, id)

def globalFailure (currentState : JournaledState) : Bool :=
  match (currentState.state.get cheatcodeAddress).bind (·.storage.get globalFailSlot) with
  | some slot => slot.presentValue != 0
  | none => false

/-- Makes the database of a snapshot the active one; the caller of the current transaction
is added to what the snapshot knows of a fork. -/
def restore (host : Host R E C) (self : Backend R C) (currentState : JournaledState)
    (caller : Address) (snapshot : BackendStateSnapshot R) :
    Option (Backend R C × JournaledState) :=
  match snapshot.db with
  | .inMemory memDb => some ({ self with memDb := memDb }, snapshot.journaledState)
  | .forked id forkId idx fork => do
      let (journaledState, db) :=
        Fork.ensureCaller host.cache currentState caller snapshot.journaledState fork.db
      let inner ← self.inner.revertStateSnapshot id forkId idx { fork with db := db }
      return ({ self with inner := inner, activeForkIds := some (id, idx) }, journaledState)

/-- The snapshots after a revert to `id`. -/
def keepOrRemove (stateSnapshots : StateSnapshots (BackendStateSnapshot R)) (id : U256)
    (snapshot : BackendStateSnapshot R) (action : RevertStateSnapshotAction) :
    StateSnapshots (BackendStateSnapshot R) :=
  if action.isKeep then stateSnapshots.insertAt snapshot id else stateSnapshots

def revertState (host : Host R E C) (self : Backend R C) (id : U256)
    (currentState : JournaledState) (current : Env) (action : RevertStateSnapshotAction) :
    Option (Backend R C × Env × Option JournaledState) :=
  match self.inner.stateSnapshots.removeAt id with
  | (_, none) => some (self, current, none)
  | (stateSnapshots, some snapshot) => do
      let inner :=
        { self.inner with
          stateSnapshots := keepOrRemove stateSnapshots id snapshot action
          hasStateSnapshotFailure :=
            globalFailure currentState || self.inner.hasStateSnapshotFailure }
      let (self, journaledState) ← restore host { self with inner := inner } currentState
        current.tx.caller (snapshot.merge currentState)
      return (self, updateCurrentEnvWithForkEnv current snapshot.env, some journaledState)

/-! ## Forks -/

def createFork (self : Backend R C) (reply : Except E (ForkId × R × Env)) :
    Except (Error E) (Backend R C × LocalForkId) :=
  match reply with
  | .error e => .error (.handler e)
  | .ok (forkId, fork, _) =>
    let (inner, id, _) := self.inner.insertNewFork forkId (.new fork) self.forkInitJournaledState
    .ok ({ self with inner := inner }, id)

def ensureFork (self : Backend R C) (id : Option LocalForkId) : Except (Error E) LocalForkId :=
  match id with
  | some id =>
    if self.inner.issuedLocalForkIds.contains id then .ok id
    else .error (.requestedForkMissing id)
  | none =>
    match self.activeForkId with
    | some id => .ok id
    | none => .error .noForkActive

end Backend

namespace Session

def ask {α : Type} (reply : Except E α) : SessionM R E C α := ofExcept (reply.mapError .handler)

def modifyInner (f : BackendInner R → BackendInner R) : SessionM R E C PUnit :=
  modify fun s => { s with backend := { s.backend with inner := f s.backend.inner } }

def getFork (idx : ForkLookupIndex) : SessionM R E C (Fork R) := do
  let s ← get
  ofExcept (s.backend.inner.getFork idx)

def setFork (idx : ForkLookupIndex) (fork : Fork R) : SessionM R E C PUnit :=
  modifyInner (·.setFork idx fork)

def activeFork : SessionM R E C (Option (Fork R)) := do
  let s ← get
  match s.backend.activeForkIds with
  | some (_, idx) =>
    let fork ← getFork idx
    return some fork
  | none => return none

section

variable (host : Host R E C)

/-- The account as the database of a fork has it, which caches it there. -/
def basic (idx : ForkLookupIndex) (address : Address) : SessionM R E C AccountInfo := do
  let fork ← getFork idx
  let (db, account) ← ofExcept ((host.cache.loadAccount fork.db address).mapError .database)
  setFork idx { fork with db := db }
  match account.info with
  | some info => return info
  | none => throw (.missingAccount address)

/-! ## Selecting a fork -/

/-- Preserves the block number and timestamp of the active fork. -/
def updateActiveBlock (forks : MultiFork R E) : SessionM R E C PUnit := do
  let s ← get
  match s.backend.activeForkId with
  | some id =>
    let forkId ← ofExcept (s.backend.inner.ensureForkId id)
    ask (forks.updateBlock forkId s.env.block.number s.env.block.timestamp)
  | none => return

def forkTypeOf (forks : MultiFork R E) (forkId : ForkId) : SessionM R E C ForkType := do
  let forkType ← ask (forks.forkType forkId)
  return forkType.getD .evm

def currentForkType (forks : MultiFork R E) : SessionM R E C ForkType := do
  let s ← get
  match s.backend.activeForkId with
  | some id =>
    let forkId ← ofExcept (s.backend.inner.ensureForkId id)
    forkTypeOf forks forkId
  | none => return .zk

/-- In forking mode, records the changes performed while the fork was active, and initializes
the caller of a target that was never selected with its fork info. -/
def recordActive (activeIdx idx : ForkLookupIndex) : SessionM R E C PUnit := do
  let active ← getFork activeIdx
  let s ← get
  setFork activeIdx { active with journaledState := s.journaledState }
  let target ← getFork idx
  if target.journaledState.depth = 0 then
    match s.journaledState.state.get s.env.tx.caller with
    | some acc =>
      let info ← basic host idx s.env.tx.caller
      let target ← getFork idx
      setFork idx { target with
          journaledState :=
            { target.journaledState with
              state := target.journaledState.state.insert s.env.tx.caller
                { acc with info := info } } }
    | none => return
  else return

/-- Replaces the info of one loaded account by that of the fork, unless it was created. -/
def replaceLoaded (idx : ForkLookupIndex) (journaledState : JournaledState)
    (address : Address) : SessionM R E C JournaledState :=
  match journaledState.state.get address with
  | none => throw .panic
  | some account =>
    if account.isCreated then return journaledState
    else do
      let info ← basic host idx address
      return { journaledState with
        state := journaledState.state.insert address { account with info := info } }

def prepareFork (loadedAccounts : List Address) (idx : ForkLookupIndex) : SessionM R E C PUnit := do
  let s ← get
  match s.backend.inner.forkAt idx with
  | none => return
  | some _ =>
    let journaledState ←
      loadedAccounts.foldlM (replaceLoaded host idx) s.backend.forkInitJournaledState
    let fork ← getFork idx
    setFork idx { fork with journaledState := journaledState }

/-- Cleans up already loaded accounts that would be initialized without the correct data
from the fork. -/
def prepareInitJournalState (orders : Orders) : SessionM R E C PUnit := do
  let s ← get
  let inner := s.backend.inner
  let loadedAccounts :=
    (orders.addresses.visit s.backend.forkInitJournaledState.state.keys).filter fun address =>
      address ∉ host.precompiles inner.specId ∧ address ∉ inner.persistentAccounts
  forM (List.range inner.forks.length) (prepareFork host loadedAccounts)

def modifyInitJournaledState (f : JournaledState → JournaledState) : SessionM R E C PUnit :=
  modify fun s => { s with
    backend := { s.backend with
      forkInitJournaledState := f s.backend.forkInitJournaledState } }

/-- The first time a fork is selected, the journaled state is that of all forks. -/
def recordInit (orders : Orders) : SessionM R E C PUnit := do
  let s ← get
  modifyInitJournaledState fun _ => s.journaledState
  prepareInitJournalState host orders
  modifyInitJournaledState fun journaledState => { journaledState with depth := 0 }

/-- Copies the cached slots of a persistent account to the slots the fork tracks. -/
def syncStorage (orders : Orders) (storage : HashMap U256 U256) (account : Account) : Account :=
  { account with
    storage := (orders.words.visit storage.keys).foldl
      (fun slots key =>
        match storage.get key with
        | some value => slots.update key fun slot => { slot with presentValue := value }
        | none => slots)
      account.storage }

/-- Makes one persistent account of the fork reflect the database `db` of the active fork. -/
def syncPersistent (orders : Orders)
    (dbAndFork : CacheDb R × Fork R) (address : Address) : CacheDb R × Fork R :=
  let (db, fork) := dbAndFork
  match host.cache.loadAccount db address with
  | .error _ => (db, fork)
  | .ok (db, account) =>
    (db, { fork with
      journaledState :=
        { fork.journaledState with
          state := fork.journaledState.state.update address
            (syncStorage orders account.storage) } })

end

/-- Hands the shared state over to the fork at `idx`, while it is taken out of the table. -/
def handOver (host : Host R E C) (orders : Orders) (idx : ForkLookupIndex)
    (activeType targetType : ForkType) : SessionM R E C PUnit := do
  let fork ← getFork idx
  modifyInner (·.takeFork idx)
  let fork ← syncFrom fork
  let s ← get
  let (journaledState, db) := Fork.ensureCaller host.cache s.journaledState s.env.tx.caller
    { fork.journaledState with depth := s.journaledState.depth } fork.db
  let activeFork ← activeFork
  let (context, journaledState, fork) := host.runner.updateForkDb orders
    s.backend.strategyContext ⟨activeFork, activeType, targetType⟩ s.backend.memDb
    s.backend.inner s.journaledState ⟨db, journaledState⟩
  modify fun s => { s with
    backend := { s.backend with strategyContext := context }
    journaledState := journaledState }
  setFork idx fork
where
  /-- The fork after the accounts that persist have been copied from the active one. -/
  syncFrom (fork : Fork R) : SessionM R E C (Fork R) := do
    let s ← get
    match s.backend.activeForkIds with
    | none => return fork
    | some (_, activeIdx) =>
      let active ← getFork activeIdx
      let (db, fork) := (orders.addresses.visit s.backend.inner.persistentAccounts).foldl
        (syncPersistent host orders) (active.db, fork)
      setFork activeIdx { active with db := db }
      return fork

def selectFork (host : Host R E C) (forks : MultiFork R E) (orders : Orders)
    (id : LocalForkId) : SessionM R E C PUnit := do
  let s ← get
  if s.backend.isActiveFork id then return
  else
    updateActiveBlock forks
    let forkId ← ofExcept (s.backend.inner.ensureForkId id)
    let idx ← ofExcept (s.backend.inner.ensureForkIndex forkId)
    let activeType ← currentForkType forks
    let targetType ← forkTypeOf forks forkId
    let forkEnv ← ask (forks.getEnv forkId)
    match forkEnv with
    | none => throw (.requestedForkMissing id)
    | some forkEnv =>
      match s.backend.activeForkIds with
      | some (_, activeIdx) => recordActive host activeIdx idx
      | none => recordInit host orders
      handOver host orders idx activeType targetType
      modify fun s => { s with
        backend := { s.backend with activeForkIds := some (id, idx) }
        env := updateCurrentEnvWithForkEnv s.env forkEnv }

/-! ## Rolling a fork -/

/-- Moves the local id to another remote fork, with the state of persistent accounts. -/
def rollInner (host : Host R E C) (orders : Orders) (id : LocalForkId) (newForkId : ForkId)
    (remote : R) : SessionM R E C PUnit := do
  let s ← get
  let inner := s.backend.inner
  let forkId ← ofExcept (inner.ensureForkId id)
  let idx ← ofExcept (inner.ensureForkIndex forkId)
  if idx < inner.forks.length then
    match inner.forkAt idx with
    | some active =>
      let (context, db) := (orders.addresses.visit inner.persistentAccounts).foldl
        (fun (context, db) address =>
          host.runner.mergeDbAccountData context address active.db db)
        (s.backend.strategyContext, CacheDb.new remote)
      modify fun s => { s with backend := { s.backend with strategyContext := context } }
      setFork idx { active with db := db }
    | none => pure ()
  else throw .panic
  modifyInner fun inner =>
    { inner with
      issuedLocalForkIds := inner.issuedLocalForkIds.insert id newForkId
      createdForks := inner.createdForks.insert newForkId idx }

/-- Brings one account of the journaled state to the rolled fork: a created account is
merged if it was touched, another one is loaded at the new block. -/
def reloadAccount (host : Host R E C) (journaledState : JournaledState)
    (contextAndFork : C × Fork R) (address : Address) : C × Fork R :=
  let (context, fork) := contextAndFork
  match journaledState.state.get address with
  | none => (context, fork)
  | some account =>
    if account.isCreated then
      if account.isTouched then
        let (context, merged) := host.runner.mergeJournaledStateData context address
          journaledState fork.journaledState
        (context, { fork with journaledState := merged })
      else (context, fork)
    else
      let (loaded, db) := host.loadJournaled fork.journaledState fork.db address
      (context, ⟨db, loaded⟩)

/-- Discards what is not persistent from the journaled state of the active fork. -/
def resetActive (host : Host R E C) (orders : Orders) (activeIdx : ForkLookupIndex)
    (forkEnv : Env) : SessionM R E C PUnit := do
  modify fun s => { s with env := updateCurrentEnvWithForkEnv s.env forkEnv }
  let s ← get
  let inner := s.backend.inner
  let active ← getFork activeIdx
  let initial :=
    { s.backend.forkInitJournaledState with depth := s.journaledState.depth }
  let (context, merged) :=
    (orders.addresses.visit (inner.persistentAccounts ∪ inner.caller.toFinset)).foldl
      (fun (context, merged) address =>
        host.runner.mergeJournaledStateData context address s.journaledState merged)
      (s.backend.strategyContext, initial)
  let (context, fork) := (orders.addresses.visit s.journaledState.state.keys).foldl
    (reloadAccount host s.journaledState) (context, { active with journaledState := merged })
  modify fun s => { s with
    backend := { s.backend with strategyContext := context }
    journaledState := fork.journaledState }
  setFork activeIdx fork

def rollFork (host : Host R E C) (forks : MultiFork R E) (orders : Orders)
    (id : Option LocalForkId) (blockNumber : U64) : SessionM R E C PUnit := do
  let s ← get
  let id ← ofExcept (s.backend.ensureFork id)
  let forkId ← ofExcept (s.backend.inner.ensureForkId id)
  let (forkId, remote, forkEnv) ← ask (forks.rollFork forkId blockNumber)
  rollInner host orders id forkId remote
  match s.backend.activeForkIds with
  | some (activeId, activeIdx) =>
    if activeId = id then resetActive host orders activeIdx forkEnv else return
  | none => return

end Session

end Foundry.Evm
