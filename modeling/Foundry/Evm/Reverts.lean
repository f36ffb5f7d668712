import Foundry.Evm.Backend

/-!
# What a revert does

A revert to a live snapshot always succeeds, takes at most that snapshot out of the store
and puts the database of the snapshot back.  A fork that does not know the caller of the
current transaction is given its account.
-/

namespace Foundry.Evm

variable {R E C : Type}

namespace Fork

/-- The account that `ensureCaller` adds to the database of a fork. -/
def addedCaller (current : JournaledState) (caller : Address) (journaledState : JournaledState)
    (db : CacheDb R) : Option (Address × AccountInfo) :=
  if journaledState.state.contains caller ∨ db.accounts.contains caller then none
  else some (caller, current.infoOrDefault caller)

/-- The database of a fork with the account that was added to it. -/
def withCaller (cache : CacheOps R E) (db : CacheDb R) :
    Option (Address × AccountInfo) → CacheDb R
  | none => db
  | some (caller, info) => cache.insertAccountInfo db caller info

theorem ensureCaller_snd (cache : CacheOps R E) (current : JournaledState)
    (caller : Address) (journaledState : JournaledState) (db : CacheDb R) :
    (ensureCaller cache current caller journaledState db).2 =
      withCaller cache db (addedCaller current caller journaledState db) := by
  unfold ensureCaller addedCaller
  by_cases hjournal : journaledState.state.contains caller
  · rw [if_pos hjournal, if_pos (.inl hjournal)]
    rfl
  rw [if_neg hjournal]
  by_cases hdb : db.accounts.contains caller
  · rw [if_pos (.inr hdb)]
    exact if_pos hdb
  · have hnone : ¬ (journaledState.state.contains caller ∨ db.accounts.contains caller) :=
      fun h => h.elim hjournal hdb
    rw [if_neg hnone]
    exact if_neg hdb

end Fork

inductive ActiveDatabase (R : Type) where
  | inMemory (memDb : CacheDb Unit)
  | forked (id : LocalForkId) (idx : ForkLookupIndex) (db : CacheDb R)

namespace BackendStateSnapshot

/-- The account that a revert to the snapshot adds to its fork. -/
def addedCaller (self : BackendStateSnapshot R) (current : JournaledState) (caller : Address) :
    Option (Address × AccountInfo) :=
  match self.db with
  | .inMemory _ => none
  | .forked _ _ _ fork => Fork.addedCaller current caller self.journaledState fork.db

/-- The fork of the snapshot still has its place in a table of `length` forks. -/
def InRange (self : BackendStateSnapshot R) (length : Nat) : Prop :=
  match self.db with
  | .inMemory _ => True
  | .forked _ _ idx _ => idx < length

def isForked (self : BackendStateSnapshot R) : Bool :=
  match self.db with
  | .inMemory _ => false
  | .forked _ _ _ _ => true

/-- The database of the snapshot, with `added` as the account of the caller. -/
def yields (host : Host R E C) (self : BackendStateSnapshot R)
    (added : Option (Address × AccountInfo)) : ActiveDatabase R :=
  match self.db with
  | .inMemory memDb => .inMemory memDb
  | .forked id _ idx fork => .forked id idx (Fork.withCaller host.cache fork.db added)

end BackendStateSnapshot

namespace Backend

/-- The snapshot that a revert to `id` would find. -/
def live (self : Backend R C) (id : U256) : Option (BackendStateSnapshot R) :=
  self.inner.stateSnapshots.get id

def database (self : Backend R C) : Option (ActiveDatabase R) :=
  match self.activeForkIds with
  | none => some (.inMemory self.memDb)
  | some (id, idx) => (self.inner.forkAt idx).map fun fork => .forked id idx fork.db

/-- `next` has the database of the snapshot, with `added` as the account of the caller. -/
def Restored (host : Host R E C) (self next : Backend R C)
    (added : Option (Address × AccountInfo)) (snapshot : BackendStateSnapshot R) : Prop :=
  match snapshot.db with
  | .inMemory memDb => next.activeForkIds = self.activeForkIds ∧ next.memDb = memDb
  | .forked id _ idx fork => next.activeForkIds = some (id, idx) ∧
      ∃ restored, next.inner.forkAt idx = some restored ∧
        restored.db = Fork.withCaller host.cache fork.db added

/-- The effect of a revert to the live snapshot `id`. -/
structure Reverted (host : Host R E C) (backend next : Backend R C) (id : U256)
    (currentState : JournaledState) (caller : Address) (action : RevertStateSnapshotAction)
    (snapshot : BackendStateSnapshot R) : Prop where
  live : ∀ j, next.live j = if j = id ∧ action.isKeep = false then none else backend.live j
  nextId : next.inner.stateSnapshots.id = backend.inner.stateSnapshots.id
  length : next.inner.forks.length = backend.inner.forks.length
  restored : Restored host backend next (snapshot.addedCaller currentState caller) snapshot

theorem database_of_restored {host : Host R E C} {self next : Backend R C}
    {added : Option (Address × AccountInfo)} {snapshot : BackendStateSnapshot R}
    (hmode : snapshot.isForked = self.activeForkIds.isSome)
    (h : Restored host self next added snapshot) :
    next.database = some (snapshot.yields host added) := by
  unfold Restored at h
  unfold BackendStateSnapshot.isForked at hmode
  unfold database BackendStateSnapshot.yields
  cases hdb : snapshot.db with
  | inMemory memDb =>
    rw [hdb] at h hmode
    have hnone : self.activeForkIds = none := by
      cases hactive : self.activeForkIds with
      | none => rfl
      | some ids =>
        rw [hactive] at hmode
        cases hmode
    rw [h.1, h.2, hnone]
  | forked id forkId idx fork =>
    rw [hdb] at h
    obtain ⟨hids, restored, hfork, hrestored⟩ := h
    rw [hids]
    dsimp only
    rw [hfork, Option.map_some, hrestored]

theorem revertStateSnapshot_ok (inner : BackendInner R) (id : LocalForkId) (forkId : ForkId)
    {idx : ForkLookupIndex} (h : idx < inner.forks.length) (fork : Fork R) :
    ∃ next : BackendInner R,
      inner.revertStateSnapshot id forkId idx fork = some next ∧
      next.stateSnapshots = inner.stateSnapshots ∧
      next.forks.length = inner.forks.length ∧ next.forkAt idx = some fork :=
  ⟨_, if_pos h, rfl, List.length_set, congrArg Option.join (List.getElem?_set_self h)⟩

theorem restore_ok (host : Host R E C) (self : Backend R C) (currentState : JournaledState)
    (caller : Address) {snapshot : BackendStateSnapshot R}
    (hin : snapshot.InRange self.inner.forks.length) :
    ∃ next journaledState,
      restore host self currentState caller (snapshot.merge currentState) =
        some (next, journaledState) ∧
      next.inner.stateSnapshots = self.inner.stateSnapshots ∧
      next.inner.forks.length = self.inner.forks.length ∧
      Restored host self next (snapshot.addedCaller currentState caller) snapshot := by
  obtain ⟨db, journaledState, env⟩ := snapshot
  cases db with
  | inMemory memDb => exact ⟨_, _, rfl, rfl, rfl, rfl, rfl⟩
  | forked id forkId idx fork =>
    have hidx : idx < self.inner.forks.length := hin
    let restored := Fork.ensureCaller host.cache currentState caller
      { journaledState with logs := currentState.logs } fork.db
    have hcaller := Fork.ensureCaller_snd host.cache currentState caller
      { journaledState with logs := currentState.logs } fork.db
    obtain ⟨inner, hok, hsnapshots, hlength, hfork⟩ :=
      revertStateSnapshot_ok self.inner id forkId hidx { fork with db := restored.2 }
    refine ⟨{ self with inner := inner, activeForkIds := some (id, idx) }, restored.1, ?_,
      hsnapshots, hlength, rfl, _, hfork, hcaller⟩
    unfold restore
    dsimp only [BackendStateSnapshot.merge]
    rw [hok]
    rfl

theorem get_keepOrRemove (stateSnapshots : StateSnapshots (BackendStateSnapshot R)) {id : U256}
    {snapshot : BackendStateSnapshot R} (h : stateSnapshots.get id = some snapshot)
    (action : RevertStateSnapshotAction) (j : U256) :
    (keepOrRemove (stateSnapshots.removeAt id).1 id snapshot action).get j =
      if j = id ∧ action.isKeep = false then none else stateSnapshots.get j := by
  unfold keepOrRemove
  by_cases hj : j = id
  · cases hkeep : action.isKeep with
    | true => simp [StateSnapshots.get_insertAt, hj, h]
    | false => simp [StateSnapshots.get_removeAt]
  · cases hkeep : action.isKeep with
    | true => simp [StateSnapshots.get_insertAt, StateSnapshots.get_removeAt, hj]
    | false => simp [StateSnapshots.get_removeAt]

/-- The backend while it reverts: the snapshot is taken out, or put back, and a failed
assertion is recorded. -/
def unstore (self : Backend R C) (id : U256) (snapshot : BackendStateSnapshot R)
    (currentState : JournaledState) (action : RevertStateSnapshotAction) : Backend R C :=
  { self with
    inner := { self.inner with
      stateSnapshots := keepOrRemove (self.inner.stateSnapshots.removeAt id).1 id snapshot action
      hasStateSnapshotFailure :=
        globalFailure currentState || self.inner.hasStateSnapshotFailure } }

section RevertState

variable {host : Host R E C} {self next : Backend R C} {id : U256}
  {currentState journaledState : JournaledState} {current env : Env}
  {action : RevertStateSnapshotAction} {snapshot : BackendStateSnapshot R}

theorem revertState_of_live (hlive : self.live id = some snapshot) :
    self.revertState host id currentState current action =
      (restore host (self.unstore id snapshot currentState action) currentState
        current.tx.caller (snapshot.merge currentState)).bind fun restored =>
          some (restored.1, updateCurrentEnvWithForkEnv current snapshot.env, some restored.2) := by
  have hremove : self.inner.stateSnapshots.removeAt id =
      ((self.inner.stateSnapshots.removeAt id).1, some snapshot) := Prod.ext rfl hlive
  unfold revertState
  rw [hremove]
  rfl

theorem revertState_not_live (hnone : self.live id = none) :
    self.revertState host id currentState current action = some (self, current, none) := by
  have hremove : self.inner.stateSnapshots.removeAt id =
      ((self.inner.stateSnapshots.removeAt id).1, none) := Prod.ext rfl hnone
  unfold revertState
  rw [hremove]

theorem revertState_live (host : Host R E C) (currentState : JournaledState) (current : Env)
    (action : RevertStateSnapshotAction) (hlive : self.live id = some snapshot)
    (hin : snapshot.InRange self.inner.forks.length) :
    ∃ next env journaledState,
      self.revertState host id currentState current action = some (next, env, some journaledState) ∧
      Reverted host self next id currentState current.tx.caller action snapshot := by
  obtain ⟨next, journaledState, hok, hsnapshots, hlength, hrestored⟩ :=
    restore_ok host (self.unstore id snapshot currentState action) currentState
      current.tx.caller hin
  refine ⟨next, updateCurrentEnvWithForkEnv current snapshot.env, journaledState, ?_, ?_⟩
  · rw [revertState_of_live hlive, hok]
    rfl
  constructor
  case live =>
    intro j
    unfold live
    rw [hsnapshots]
    exact get_keepOrRemove self.inner.stateSnapshots hlive action j
  case nextId =>
    rw [hsnapshots]
    change (keepOrRemove _ id snapshot action).id = _
    unfold keepOrRemove
    split <;> rfl
  case length => exact hlength
  case restored => exact hrestored

theorem self_of_revertState
    (h : self.revertState host id currentState current action = some (next, env, none)) :
    self.live id = none ∧ next = self := by
  cases hlive : self.live id with
  | none =>
    rw [revertState_not_live hlive] at h
    cases h
    exact ⟨rfl, rfl⟩
  | some snapshot =>
    rw [revertState_of_live hlive] at h
    cases hrestore : restore host (self.unstore id snapshot currentState action) currentState
        current.tx.caller (snapshot.merge currentState) with
    | none =>
      rw [hrestore] at h
      cases h
    | some restored =>
      rw [hrestore] at h
      cases h

section

variable (h : self.revertState host id currentState current action =
  some (next, env, some journaledState))

include h

theorem live_of_revertState : ∃ snapshot, self.live id = some snapshot ∧
      snapshot.InRange self.inner.forks.length := by
  cases hlive : self.live id with
  | none =>
    rw [revertState_not_live hlive] at h
    cases h
  | some snapshot =>
    refine ⟨snapshot, rfl, ?_⟩
    rw [revertState_of_live hlive] at h
    obtain ⟨db, snapshotState, snapshotEnv⟩ := snapshot
    cases db with
    | inMemory memDb => trivial
    | forked forkedId forkId idx fork =>
      by_contra hout
      change ¬ idx < self.inner.forks.length at hout
      dsimp only [restore, BackendStateSnapshot.merge, BackendInner.revertStateSnapshot,
        unstore] at h
      rw [if_neg hout] at h
      cases h

/-- The effect of every revert that returns a state. -/
theorem reverted_of_revertState : ∃ snapshot, self.live id = some snapshot ∧
      Reverted host self next id currentState current.tx.caller action snapshot := by
  obtain ⟨snapshot, hlive, hin⟩ := live_of_revertState h
  obtain ⟨next', env', journaledState', hok, hreverted⟩ :=
    revertState_live host currentState current action hlive hin
  rw [h] at hok
  cases hok
  exact ⟨snapshot, hlive, hreverted⟩

end

end RevertState

end Backend

end Foundry.Evm
