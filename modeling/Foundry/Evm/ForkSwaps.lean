import Foundry.Evm.SnapshotCalls

/-!
# Snapshots across fork swaps

A snapshot, any history of created, selected and rolled forks and of other snapshots, and a
revert to the snapshot.  No call on forks touches the stored snapshots, so the revert finds
what was stored.  What it restores is the whole view of the database only if a fork was
active, or none is by now.
-/

namespace Foundry.Evm

variable {R E C : Type}

/-! ## Calls on forks leave the snapshots alone -/

namespace Session

def SameSnapshots (s s' : Session R C) : Prop :=
  s'.backend.inner.stateSnapshots = s.backend.inner.stateSnapshots

instance : Std.Refl (SameSnapshots : Session R C → Session R C → Prop) := ⟨fun _ => rfl⟩

instance : IsTrans (Session R C) SameSnapshots := ⟨fun _ _ _ h h' => h'.trans h⟩

theorem keeps_ask {α : Type} (reply : Except E α) :
    Keeps SameSnapshots (ask reply : SessionM R E C α) := Keeps.ofExcept _

theorem keeps_getFork (idx : ForkLookupIndex) :
    Keeps SameSnapshots (getFork idx : SessionM R E C (Fork R)) :=
  Keeps.bind Keeps.get fun _ => Keeps.ofExcept _

theorem keeps_activeFork : Keeps SameSnapshots (activeFork : SessionM R E C (Option (Fork R))) := by
  refine Keeps.bind Keeps.get fun s => ?_
  split
  · exact Keeps.bind (keeps_getFork _) fun fork => Keeps.pure _
  · exact Keeps.pure _

theorem keeps_setFork (idx : ForkLookupIndex) (fork : Fork R) :
    Keeps SameSnapshots (setFork idx fork : SessionM R E C PUnit) := Keeps.modify fun _ => rfl

section

variable (host : Host R E C)

theorem keeps_basic (idx : ForkLookupIndex) (address : Address) :
    Keeps SameSnapshots (basic host idx address) := by
  refine Keeps.bind (keeps_getFork idx) fun fork => ?_
  refine Keeps.bind (Keeps.ofExcept _) fun loaded => ?_
  refine Keeps.bind (keeps_setFork idx _) fun _ => ?_
  split
  · exact Keeps.pure _
  · exact Keeps.throw _

section

variable (forks : MultiFork R E)

theorem keeps_updateActiveBlock :
    Keeps SameSnapshots (updateActiveBlock forks : SessionM R E C PUnit) := by
  refine Keeps.bind Keeps.get fun s => ?_
  split
  · exact Keeps.bind (Keeps.ofExcept _) fun forkId => keeps_ask _
  · exact Keeps.pure _

theorem keeps_forkTypeOf (forkId : ForkId) :
    Keeps SameSnapshots (forkTypeOf forks forkId : SessionM R E C ForkType) :=
  Keeps.bind (keeps_ask _) fun _ => Keeps.pure _

theorem keeps_currentForkType :
    Keeps SameSnapshots (currentForkType forks : SessionM R E C ForkType) := by
  refine Keeps.bind Keeps.get fun s => ?_
  split
  · exact Keeps.bind (Keeps.ofExcept _) fun forkId => keeps_forkTypeOf forks forkId
  · exact Keeps.pure _

theorem keeps_recordActive (activeIdx idx : ForkLookupIndex) :
    Keeps SameSnapshots (recordActive host activeIdx idx) := by
  refine Keeps.bind (keeps_getFork activeIdx) fun active => ?_
  refine Keeps.bind Keeps.get fun s => ?_
  refine Keeps.bind (keeps_setFork activeIdx _) fun _ => ?_
  refine Keeps.bind (keeps_getFork idx) fun target => ?_
  split
  · split
    · refine Keeps.bind (keeps_basic host idx _) fun info => ?_
      exact Keeps.bind (keeps_getFork idx) fun target => keeps_setFork idx _
    · exact Keeps.pure _
  · exact Keeps.pure _

theorem keeps_replaceLoaded (idx : ForkLookupIndex)
    (journaledState : JournaledState) (address : Address) :
    Keeps SameSnapshots (replaceLoaded host idx journaledState address) := by
  unfold replaceLoaded
  split
  · exact Keeps.throw _
  · split
    · exact Keeps.pure _
    · exact Keeps.bind (keeps_basic host idx address) fun info => Keeps.pure _

theorem keeps_prepareFork (loadedAccounts : List Address)
    (idx : ForkLookupIndex) : Keeps SameSnapshots (prepareFork host loadedAccounts idx) := by
  refine Keeps.bind Keeps.get fun s => ?_
  split
  · exact Keeps.pure _
  · refine Keeps.bind (Keeps.foldlM (keeps_replaceLoaded host idx) _ _) fun journaledState => ?_
    exact Keeps.bind (keeps_getFork idx) fun fork => keeps_setFork idx _

section

variable (orders : Orders) (id : LocalForkId)

theorem keeps_recordInit : Keeps SameSnapshots (recordInit host orders) := by
  refine Keeps.bind Keeps.get fun s => ?_
  refine Keeps.bind (Keeps.modify fun _ => rfl) fun _ => ?_
  refine Keeps.bind ?_ fun _ => Keeps.modify fun _ => rfl
  exact Keeps.bind Keeps.get fun s => Keeps.forM (keeps_prepareFork host _) _

theorem keeps_syncFrom (fork : Fork R) :
    Keeps SameSnapshots (handOver.syncFrom host orders fork) := by
  refine Keeps.bind Keeps.get fun s => ?_
  split
  · exact Keeps.pure _
  · refine Keeps.bind (keeps_getFork _) fun active => ?_
    exact Keeps.bind (keeps_setFork _ _) fun _ => Keeps.pure _

theorem keeps_handOver (idx : ForkLookupIndex) (activeType targetType : ForkType) :
    Keeps SameSnapshots (handOver host orders idx activeType targetType) := by
  refine Keeps.bind (keeps_getFork idx) fun fork => ?_
  refine Keeps.bind (Keeps.modify fun _ => rfl) fun _ => ?_
  refine Keeps.bind (keeps_syncFrom host orders fork) fun fork => ?_
  refine Keeps.bind Keeps.get fun s => ?_
  refine Keeps.bind keeps_activeFork fun activeFork => ?_
  exact Keeps.bind (Keeps.modify fun _ => rfl) fun _ => keeps_setFork idx _

theorem keeps_selectFork : Keeps SameSnapshots (selectFork host forks orders id) := by
  refine Keeps.bind Keeps.get fun s => ?_
  split
  · exact Keeps.pure _
  refine Keeps.bind (keeps_updateActiveBlock forks) fun _ => ?_
  refine Keeps.bind (Keeps.ofExcept _) fun forkId => ?_
  refine Keeps.bind (Keeps.ofExcept _) fun idx => ?_
  refine Keeps.bind (keeps_currentForkType forks) fun activeType => ?_
  refine Keeps.bind (keeps_forkTypeOf forks forkId) fun targetType => ?_
  refine Keeps.bind (keeps_ask _) fun forkEnv => ?_
  have hselected : ∀ forkEnv : Env,
      Keeps SameSnapshots (do
        handOver host orders idx activeType targetType
        modify fun s => { s with
          backend := { s.backend with activeForkIds := some (id, idx) }
          env := updateCurrentEnvWithForkEnv s.env forkEnv }) := fun forkEnv =>
    Keeps.bind (keeps_handOver host orders idx activeType targetType) fun _ =>
      Keeps.modify fun _ => rfl
  split
  · exact Keeps.throw _
  · split
    · exact Keeps.bind (keeps_recordActive host _ idx) fun _ => hselected _
    · exact Keeps.bind (keeps_recordInit host orders) fun _ => hselected _

theorem keeps_rollInner (newForkId : ForkId) (remote : R) :
    Keeps SameSnapshots (rollInner host orders id newForkId remote) := by
  refine Keeps.bind Keeps.get fun s => ?_
  refine Keeps.bind (Keeps.ofExcept _) fun forkId => ?_
  refine Keeps.bind (Keeps.ofExcept _) fun idx => ?_
  have hmapped : Keeps SameSnapshots (modifyInner fun inner : BackendInner R =>
        { inner with
          issuedLocalForkIds := inner.issuedLocalForkIds.insert id newForkId
          createdForks := inner.createdForks.insert newForkId idx } :
        SessionM R E C PUnit) := Keeps.modify fun _ => rfl
  split
  · split
    · refine Keeps.bind (Keeps.modify fun _ => rfl) fun _ => ?_
      exact Keeps.bind (keeps_setFork idx _) fun _ => hmapped
    · exact hmapped
  · exact Keeps.bind (Keeps.throw _) fun _ => hmapped

theorem keeps_resetActive (activeIdx : ForkLookupIndex)
    (forkEnv : Env) : Keeps SameSnapshots (resetActive host orders activeIdx forkEnv) := by
  refine Keeps.bind (Keeps.modify fun _ => rfl) fun _ => ?_
  refine Keeps.bind Keeps.get fun s => ?_
  refine Keeps.bind (keeps_getFork activeIdx) fun active => ?_
  exact Keeps.bind (Keeps.modify fun _ => rfl) fun _ => keeps_setFork activeIdx _

theorem keeps_rollFork (id : Option LocalForkId) (blockNumber : U64) :
    Keeps SameSnapshots (rollFork host forks orders id blockNumber) := by
  refine Keeps.bind Keeps.get fun s => ?_
  refine Keeps.bind (Keeps.ofExcept _) fun id => ?_
  refine Keeps.bind (Keeps.ofExcept _) fun forkId => ?_
  refine Keeps.bind (keeps_ask _) fun rolled => ?_
  refine Keeps.bind (keeps_rollInner host orders id _ _) fun _ => ?_
  split
  · split
    · exact keeps_resetActive host orders _ _
    · exact Keeps.pure _
  · exact Keeps.pure _

end

end

end

end Session

/-! ## Histories -/

inductive Op (R E : Type) where
  | createFork (reply : Except E (ForkId × R × Env))
  | selectFork (id : LocalForkId) (env : Env) (journaledState : JournaledState)
      (forks : MultiFork R E) (orders : Orders)
  | rollFork (id : Option LocalForkId) (blockNumber : U64) (env : Env)
      (journaledState : JournaledState) (forks : MultiFork R E) (orders : Orders)
  | call (c : SnapshotCall R)

namespace Backend

/-- The backend after a call that changes it in place, unless the call panics. -/
def settle : EStateM.Result (Error E) (Session R C) PUnit → Option (Backend R C)
  | .error .panic _ => none
  | result => some (endState result).backend

def step (host : Host R E C) (self : Backend R C) : Op R E → Option (Backend R C)
  | .createFork reply =>
    match self.createFork reply with
    | .ok (next, _) => some next
    | .error _ => some self
  | .selectFork id env journaledState forks orders =>
    settle (Session.selectFork host forks orders id ⟨self, env, journaledState⟩)
  | .rollFork id blockNumber env journaledState forks orders =>
    settle (Session.rollFork host forks orders id blockNumber ⟨self, env, journaledState⟩)
  | .call c => self.call host c

def run (host : Host R E C) (self : Backend R C) (ops : List (Op R E)) :
    Option (Backend R C) :=
  ops.foldlM (step host) self

/-- The id is used up, and if a snapshot is live under it, it is the given one. -/
structure Holds (id : U256) (snapshot : BackendStateSnapshot R) (backend : Backend R C) :
    Prop where
  used : id < backend.inner.stateSnapshots.id
  same : ∀ found, backend.live id = some found → found = snapshot

section Histories

variable {host : Host R E C} {id : U256} {snapshot : BackendStateSnapshot R}
  {self next : Backend R C}

section

variable (h : Holds id snapshot self)

include h

theorem Holds.of_eq
    (heq : next.inner.stateSnapshots = self.inner.stateSnapshots) : Holds id snapshot next := by
  constructor
  · rw [heq]
    exact h.used
  · intro found hfound
    rw [live, heq] at hfound
    exact h.same found hfound

theorem holds_settle {m : SessionM R E C PUnit} {env : Env}
    {journaledState : JournaledState} (hkeeps : Keeps Session.SameSnapshots m)
    (hok : settle (m ⟨self, env, journaledState⟩) = some next) : Holds id snapshot next := by
  have hsame := hkeeps ⟨self, env, journaledState⟩
  unfold settle at hok
  split at hok
  · cases hok
  · cases hok
    exact h.of_eq hsame

theorem Holds.call {c : SnapshotCall R}
    (hok : self.call host c = some next) : Holds id snapshot next := by
  cases c with
  | snapshotState journaledState env =>
    obtain ⟨issued, hsnap⟩ := snapshotState_of_call hok
    obtain ⟨db, -, -, rfl⟩ := snapshotState_ok hsnap
    constructor
    case used =>
      exact Nat.lt_of_lt_of_le h.used (le_saturatingAdd _ 1)
    case same =>
      intro found hfound
      have hne : id ≠ self.inner.stateSnapshots.id := BitVec.ne_of_lt h.used
      exact h.same found (((StateSnapshots.get_insert _ _ id).trans (if_neg hne)).symm.trans hfound)
  | write memDb forkDb => exact h.of_eq (write_ok hok).2
  | revertState reverted currentState current action =>
    rcases reverted_of_call hok with ⟨-, rfl⟩ | ⟨found, env, journaledState, -, -, hreverted⟩
    · exact h
    constructor
    case used =>
      rw [hreverted.nextId]
      exact h.used
    case same =>
      intro found' hfound
      rw [hreverted.live] at hfound
      split at hfound
      · cases hfound
      · exact h.same found' hfound

theorem Holds.step {op : Op R E}
    (hok : self.step host op = some next) : Holds id snapshot next := by
  cases op with
  | createFork reply =>
    cases reply with
    | error e =>
      cases hok
      exact h
    | ok reply =>
      cases hok
      exact h.of_eq rfl
  | selectFork forkId env journaledState forks orders =>
    exact holds_settle h (Session.keeps_selectFork host forks orders forkId) hok
  | rollFork forkId blockNumber env journaledState forks orders =>
    exact holds_settle h (Session.keeps_rollFork host forks orders forkId blockNumber) hok
  | call c => exact h.call hok

theorem Holds.run {history : List (Op R E)}
    (hok : self.run host history = some next) : Holds id snapshot next := by
  induction history generalizing self with
  | nil =>
    cases hok
    exact h
  | cons op history ih =>
    unfold Backend.run at hok
    rw [List.foldlM_cons] at hok
    cases hstep : self.step host op with
    | none =>
      rw [hstep] at hok
      cases hok
    | some middle =>
      rw [hstep] at hok
      exact ih (h.step hstep) hok

end

/-- The revert finds the snapshot that was taken, whatever happened since. -/
theorem reverted_of_history {before taken after reverted : Backend R C}
    {journaledState currentState restoredState : JournaledState} {env current env' : Env}
    {history : List (Op R E)} {action : RevertStateSnapshotAction}
    (hsnapshot : before.snapshotState journaledState env = some (taken, id))
    (hid : id ≠ BitVec.allOnes 256) (hhistory : taken.run host history = some after)
    (hrevert : after.revertState host id currentState current action =
      some (reverted, env', some restoredState)) :
    ∃ db, before.createDbSnapshot = some db ∧
      Restored host after reverted
        (BackendStateSnapshot.addedCaller ⟨db, journaledState, env⟩ currentState
          current.tx.caller) ⟨db, journaledState, env⟩ := by
  obtain ⟨db, hdb, rfl, rfl⟩ := snapshotState_ok hsnapshot
  refine ⟨db, hdb, ?_⟩
  have htaken : Holds before.inner.stateSnapshots.id ⟨db, journaledState, env⟩ { before with
        inner := { before.inner with
          stateSnapshots :=
            (before.inner.stateSnapshots.insert ⟨db, journaledState, env⟩).1 } } := by
    constructor
    case used => exact lt_saturatingAdd_one hid
    case same =>
      intro found hfound
      rw [live, StateSnapshots.get_insert, if_pos rfl] at hfound
      exact (Option.some.inj hfound).symm
  obtain ⟨snapshot, hlive, hreverted⟩ := reverted_of_revertState hrevert
  have hrestored := hreverted.restored
  rw [(htaken.run hhistory).same snapshot hlive] at hrestored
  exact hrestored

end Histories

/-! ## What is restored -/

/-- The active fork and all reads of `before`. -/
def Restores (host : Host R E C) (before reverted : Backend R C) : Prop :=
  reverted.activeForkIds = before.activeForkIds ∧
    (∀ address, reverted.basicRef host address = before.basicRef host address) ∧
    ∀ address index, reverted.storageRef host address index = before.storageRef host address index

/-- A snapshot taken on a fork knows the caller: it is in the journaled state, or in the cache of
the fork. -/
def KnowsCaller (self : Backend R C) (journaledState : JournaledState) (caller : Address) : Prop :=
  ∀ id idx, self.activeForkIds = some (id, idx) → journaledState.state.contains caller ∨
    ∃ fork, self.inner.forkAt idx = some fork ∧ fork.db.accounts.contains caller

section Restores

variable {host : Host R E C} {before after reverted self : Backend R C} {id : LocalForkId}
  {idx : ForkLookupIndex} {fork : Fork R}

theorem basicRef_forked (hactive : self.activeForkIds = some (id, idx))
    (hfork : self.inner.forkAt idx = some fork) (address : Address) :
    self.basicRef host address = (host.cache.basicRef fork.db address).mapError .database := by
  unfold basicRef
  rw [hactive]
  dsimp only
  rw [BackendInner.getFork, hfork]
  rfl

theorem storageRef_forked (hactive : self.activeForkIds = some (id, idx))
    (hfork : self.inner.forkAt idx = some fork) (address : Address) (index : U256) :
    self.storageRef host address index =
      (host.cache.storageRef fork.db address index).mapError .database := by
  unfold storageRef
  rw [hactive]
  dsimp only
  rw [BackendInner.getFork, hfork]
  rfl

theorem restores_inMemory_iff (hbefore : before.activeForkIds = none)
    (hactive : reverted.activeForkIds = after.activeForkIds)
    (hmem : reverted.memDb = before.memDb) :
    Restores host before reverted ↔ after.activeForkIds = none := by
  constructor
  · intro h
    rw [← hactive, h.1, hbefore]
  · intro h
    have hnone : reverted.activeForkIds = none := by rw [hactive, h]
    refine ⟨by rw [hnone, hbefore], ?_, ?_⟩
    · intro address
      unfold basicRef
      rw [hnone, hbefore, hmem]
    · intro address index
      unfold storageRef
      rw [hnone, hbefore, hmem]

theorem restores_forked {restored : Fork R} (hbefore : before.activeForkIds = some (id, idx))
    (hfork : before.inner.forkAt idx = some fork)
    (hactive : reverted.activeForkIds = some (id, idx))
    (hrestored : reverted.inner.forkAt idx = some restored) (hdb : restored.db = fork.db) :
    Restores host before reverted := by
  refine ⟨by rw [hactive, hbefore], fun address => ?_, fun address index => ?_⟩
  · rw [basicRef_forked hactive hrestored, basicRef_forked hbefore hfork, hdb]
  · rw [storageRef_forked hactive hrestored, storageRef_forked hbefore hfork, hdb]

theorem KnowsCaller.addedCaller {journaledState : JournaledState} {caller : Address}
    (h : before.KnowsCaller journaledState caller) (hbefore : before.activeForkIds = some (id, idx))
    (hfork : before.inner.forkAt idx = some fork) (currentState : JournaledState) :
    Fork.addedCaller currentState caller journaledState fork.db = none := by
  refine if_pos ((h id idx hbefore).imp_right fun ⟨known, hknown, hcached⟩ => ?_)
  rw [hfork] at hknown
  cases hknown
  exact hcached

end Restores

/-- A revert to a snapshot that knows the caller restores the active fork and every read, across
any history of forks, just when the snapshot was taken on a fork or none is active by now. -/
theorem revertState_restores_iff (host : Host R E C) {before taken after reverted : Backend R C}
    {journaledState currentState restoredState : JournaledState} {env current env' : Env}
    {id : U256} {history : List (Op R E)} {action : RevertStateSnapshotAction}
    (hsnapshot : before.snapshotState journaledState env = some (taken, id))
    (hid : id ≠ BitVec.allOnes 256) (hhistory : taken.run host history = some after)
    (hrevert : after.revertState host id currentState current action =
      some (reverted, env', some restoredState))
    (hcaller : before.KnowsCaller journaledState current.tx.caller) :
    Restores host before reverted ↔
      (before.activeForkIds = none → after.activeForkIds = none) := by
  obtain ⟨db, hdb, hrestored⟩ := reverted_of_history hsnapshot hid hhistory hrevert
  have hactive := createDbSnapshot_ok hdb
  cases db with
  | inMemory memDb =>
    rw [restores_inMemory_iff hactive.1 hrestored.1 (hrestored.2.trans hactive.2.symm)]
    exact ⟨fun h _ => h, fun h => h hactive.1⟩
  | forked forkedId forkId idx fork =>
    obtain ⟨hids, restored, hfork, hrestoredDb⟩ := hrestored
    have hnone := hcaller.addedCaller hactive.1 hactive.2 currentState
    have hsame : restored.db = fork.db := hrestoredDb.trans (by
      show Fork.withCaller host.cache fork.db
        (Fork.addedCaller currentState current.tx.caller journaledState fork.db) = fork.db
      rw [hnone]
      rfl)
    refine iff_of_true (restores_forked hactive.1 hactive.2 hids hfork hsame) fun h => ?_
    rw [hactive.1] at h
    cases h

def anyFork : MultiFork Unit Unit where
  updateBlock _ _ _ := .ok ()
  forkType _ := .ok (some .evm)
  getEnv _ := .ok (some (calledBy 0))
  rollFork _ _ := .ok ("rolled", (), calledBy 0)

def ascending : Orders where
  addresses := .sortedBy BitVec.toNat fun _ _ => BitVec.eq_of_toNat_eq
  words := .sortedBy BitVec.toNat fun _ _ => BitVec.eq_of_toNat_eq

def swapTo (id : LocalForkId) : List (Op Unit Unit) :=
  [.createFork (.ok ("other", (), calledBy 0)), .selectFork id (calledBy 0) .new anyFork ascending,
    .rollFork none 7 (calledBy 0) .new anyFork ascending]

def knownCaller : JournaledState :=
  { JournaledState.new with state := HashMap.empty.insert 0 (.ofInfo .default) }

theorem revertState_restores_onFork :
    ∃ taken after reverted env state,
      onFork.snapshotState knownCaller (calledBy 0) = some (taken, 0) ∧
      taken.run blankHost (swapTo 1) = some after ∧ after.activeForkIds = some (1, 1) ∧
      after.revertState blankHost 0 .new (calledBy 0) .revertRemove =
        some (reverted, env, some state) ∧
      Restores blankHost onFork reverted := by
  have hrestores : ∀ taken after reverted env state,
      onFork.snapshotState knownCaller (calledBy 0) = some (taken, 0) →
      taken.run blankHost (swapTo 1) = some after →
      after.revertState blankHost 0 .new (calledBy 0) .revertRemove =
        some (reverted, env, some state) → Restores blankHost onFork reverted := by
    intro taken after reverted env state hsnapshot hhistory hrevert
    refine (revertState_restores_iff blankHost hsnapshot (by decide) hhistory hrevert ?_).mpr nofun
    exact fun _ _ _ => .inl rfl
  exact ⟨_, _, _, _, _, rfl, rfl, rfl, rfl, hrestores _ _ _ _ _ rfl rfl rfl⟩

/-- After a snapshot without a fork, a revert leaves the fork active that was selected since. -/
theorem revertState_keeps_selected :
    ∃ taken after reverted env state,
      (new ()).snapshotState .new (calledBy 0) = some (taken, 0) ∧
      taken.run blankHost (swapTo 0) = some after ∧
      after.revertState blankHost 0 .new (calledBy 0) .revertRemove =
        some (reverted, env, some state) ∧
      reverted.activeForkIds = some (0, 0) ∧ ¬ Restores blankHost (new ()) reverted := by
  refine ⟨_, _, _, _, _, rfl, rfl, rfl, rfl, ?_⟩
  intro hrestores
  cases hrestores.1

end Backend

end Foundry.Evm
