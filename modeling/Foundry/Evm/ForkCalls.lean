import Foundry.Evm.ForkSessions

/-!
# Forks do not share their databases

Every call of a run keeps the entries of the table of forks with their owners.  So no call
panics, and a change that is made through one local id is not seen through another.
-/

namespace Foundry.Evm

variable {R E C : Type}

/-- A call that reads or changes the table of forks, or what the calls on forks depend on. -/
inductive TableOp (R E : Type) where
  | op (op : Op R E)
  | updateForkMapping (id : LocalForkId) (forkId : ForkId) (db : CacheDb R)
      (journaledState : JournaledState)
  | modifyForkById (id : LocalForkId) (f : Fork R → Fork R)
  | configure (persistentAccounts : Finset Address) (caller : Option Address) (specId : Nat)

namespace Backend

def stepTable (host : Host R E C) (self : Backend R C) : TableOp R E → Option (Backend R C)
  | .op op => self.step host op
  | .updateForkMapping id forkId db journaledState =>
    some { self with inner := (self.inner.updateForkMapping id forkId db journaledState).1 }
  | .modifyForkById id f =>
    match (self.inner.modifyForkById id f : Except (Error E) (BackendInner R)) with
    | .ok inner => some { self with inner := inner }
    | .error .panic => none
    | .error _ => some self
  | .configure persistentAccounts caller specId =>
    some { self with
      inner := { self.inner with
        persistentAccounts := persistentAccounts
        caller := caller
        specId := specId } }

def runTable (host : Host R E C) (self : Backend R C) (ops : List (TableOp R E)) :
    Option (Backend R C) :=
  ops.foldlM (stepTable host) self

def handedOut (self : Backend R C) : TableOp R E → Option ForkId
  | .op (.createFork (.ok (forkId, _, _))) => some forkId
  | .op (.rollFork id blockNumber _ _ forks _) =>
    (self.rolledTo forks id blockNumber).toOption
  | .updateForkMapping _ forkId _ _ => some forkId
  | _ => none

def EveryNew (host : Host R E C) : Backend R C → List (TableOp R E) → Prop
  | _, [] => True
  | self, op :: ops =>
    (∀ forkId ∈ self.handedOut op, self.inner.createdForks.get forkId = none) ∧
      match self.stepTable host op with
      | some next => EveryNew host next ops
      | none => True

instance decidableEveryNew (host : Host R E C) :
    (self : Backend R C) → (ops : List (TableOp R E)) → Decidable (EveryNew host self ops)
  | _, [] => isTrue trivial
  | self, op :: ops =>
    have : Decidable (match self.stepTable host op with
        | some next => EveryNew host next ops
        | none => True) :=
      match self.stepTable host op with
      | some next => decidableEveryNew host next ops
      | none => isTrue trivial
    inferInstanceAs (Decidable (_ ∧ _))

/-- Every local id that was issued has a fork, at an index of its own, and what is done to the
fork of one local id, or to the active fork, does not change the fork of another. -/
structure Separate (E : Type) (backend : Backend R C) : Prop where
  resolves : ∀ id forkId, backend.inner.issuedLocalForkIds.get id = some forkId →
    ∃ idx fork, backend.inner.createdForks.get forkId = some idx ∧
      backend.inner.forkAt idx = some fork
  distinct : ∀ id id' idx,
    (backend.inner.ensureForkIndexByLocalId id : Except (Error E) ForkLookupIndex) = .ok idx →
    (backend.inner.ensureForkIndexByLocalId id' : Except (Error E) ForkLookupIndex) = .ok idx →
    id = id'
  isolated : ∀ id f inner,
    (backend.inner.modifyForkById id f : Except (Error E) (BackendInner R)) = .ok inner →
    ∀ id', id' ≠ id → (inner.getForkById id' : Except (Error E) (Fork R)) =
      backend.inner.getForkById id'
  active : ∀ id idx, backend.activeForkIds = some (id, idx) →
    (∃ fork, backend.inner.forkAt idx = some fork) ∧
    ∀ fork id', id' ≠ id →
      ((backend.inner.setFork idx fork).getForkById id' : Except (Error E) (Fork R)) =
        backend.inner.getForkById id'

section Runs

variable {host : Host R E C} {self : Backend R C} {owner : ForkLookupIndex → LocalForkId}
  {id : LocalForkId} {idx : ForkLookupIndex}

theorem owned_new (context : C) : (new context : Backend R C).table.Owned owner := by
  constructor
  case full => exact fun idx hlt => absurd hlt (Nat.not_lt_zero idx)
  case created => exact fun forkId idx h => nomatch h
  case issued => exact fun id forkId h => nomatch h
  case active => exact fun id idx h => nomatch h
  case stored =>
    intro id forkId idx ⟨sid, snapshot, hlive, _⟩
    cases hlive

theorem table_setFork (h : self.table.Occupied idx) (fork : Fork R) :
    ({ self with inner := self.inner.setFork idx fork } : Backend R C).table = self.table := by
  conv_rhs => rw [← ForkTable.put_of_occupied h]
  unfold Backend.table ForkTable.put
  simp [BackendInner.setFork, live]

private theorem table_insertNewFork (self : Backend R C) (forkId : ForkId) (db : CacheDb R)
    (journaledState : JournaledState) :
    ({ self with inner := (self.inner.insertNewFork forkId db journaledState).1 } :
      Backend R C).table =
    self.table.push.map self.inner.nextForkId forkId self.table.occupied.length := by
  unfold Backend.table ForkTable.push ForkTable.map
  simp [BackendInner.insertNewFork, live]

private theorem table_updateForkMapping (self : Backend R C) (id : LocalForkId) (forkId : ForkId)
    (db : CacheDb R) (journaledState : JournaledState) :
    ({ self with inner := (self.inner.updateForkMapping id forkId db journaledState).1 } :
      Backend R C).table =
    self.table.push.map id forkId self.table.occupied.length := by
  unfold Backend.table ForkTable.push ForkTable.map
  simp [BackendInner.updateForkMapping, live]

theorem owned_settle {t : ForkTable} {m : SessionM R E C PUnit} {P : Session R C → Prop}
    {Q : PUnit → Session R C → Prop} {s : Session R C} (howned : t.Owned owner)
    (hm : Triple P m Q (Session.Harmless t)) (hs : P s)
    (hQ : ∀ s, Q ⟨⟩ s → ∃ owner, s.backend.table.Owned owner) :
    ∃ next owner, settle (m s) = some next ∧ next.table.Owned owner := by
  have hresult := hm s hs
  cases heq : m s with
  | ok a s' =>
    rw [heq] at hresult
    obtain ⟨owner', howned'⟩ := hQ s' hresult
    exact ⟨s'.backend, owner', rfl, howned'⟩
  | error e s' =>
    rw [heq] at hresult
    refine ⟨s'.backend, owner, ?_, hresult.2 ▸ howned⟩
    cases e with
    | panic => exact absurd rfl hresult.1
    | _ => rfl

/-- A snapshot succeeds, and every index keeps its owner. -/
theorem owned_snapshotState (howned : self.table.Owned owner) (journaledState : JournaledState)
    (env : Env) :
    ∃ next id, self.snapshotState journaledState env = some (next, id) ∧
      next.table.Owned owner := by
  have hstore : ∀ db : BackendDatabaseSnapshot R, self.createDbSnapshot = some db →
      (∀ place, BackendStateSnapshot.place ⟨db, journaledState, env⟩ = some place →
        self.activeForkIds = some (place.1, place.2.2) ∧
          self.inner.issuedLocalForkIds.get place.1 = some place.2.1) →
      ∃ next id, self.snapshotState journaledState env = some (next, id) ∧
        next.table.Owned owner := by
    intro db hdb hplace
    refine ⟨_, _, by rw [snapshotState, hdb]; rfl, ?_⟩
    refine howned.store ?_
    intro id forkId idx ⟨sid, snapshot, hlive, hmem⟩
    have hget := StateSnapshots.get_insert self.inner.stateSnapshots ⟨db, journaledState, env⟩ sid
    replace hlive := hget.symm.trans hlive
    split at hlive
    · cases hlive
      exact .inr (hplace _ hmem)
    · exact .inl ⟨sid, snapshot, hlive, hmem⟩
  cases hids : self.activeForkIds with
  | none =>
    refine hstore (.inMemory self.memDb) ?_ nofun
    rw [createDbSnapshot, hids]
  | some ids =>
    obtain ⟨id, idx⟩ := ids
    obtain ⟨hlt, -, hissued⟩ := howned.active id idx hids
    obtain ⟨fork, hfork⟩ := occupied_iff.mp (howned.full idx hlt)
    obtain ⟨forkId, hforkId⟩ := Option.isSome_iff_exists.mp hissued
    change self.inner.issuedLocalForkIds.get id = some forkId at hforkId
    refine hstore (.forked id forkId idx fork) ?_ ?_
    · rw [createDbSnapshot, hids]
      dsimp only
      rw [hfork, hforkId]
      rfl
    · intro place hplace
      cases hplace
      exact ⟨hids, hforkId⟩

theorem owned_write (howned : self.table.Owned owner) (memDb : CacheDb Unit → CacheDb Unit)
    (forkDb : CacheDb R → CacheDb R) :
    ∃ next, self.write memDb forkDb = some next ∧ next.table.Owned owner := by
  unfold write
  split
  · next id idx hids =>
    have hocc := howned.full idx (howned.active id idx hids).1
    obtain ⟨fork, hfork⟩ := occupied_iff.mp hocc
    rw [hfork]
    refine ⟨_, rfl, ?_⟩
    rw [table_setFork hocc]
    exact howned
  · exact ⟨_, rfl, howned⟩

private theorem stored_unstore {id : U256} {snapshot : BackendStateSnapshot R}
    (hlive : self.live id = some snapshot) (currentState : JournaledState)
    (action : RevertStateSnapshotAction) :
    (self.unstore id snapshot currentState action).table.stored ⊆ self.table.stored := by
  intro place ⟨sid, stored, hstored, hmem⟩
  have hget := get_keepOrRemove self.inner.stateSnapshots hlive action sid
  replace hstored := hget.symm.trans hstored
  split at hstored
  · cases hstored
  · exact ⟨sid, stored, hstored, hmem⟩

section

variable (host) {id : LocalForkId}

private theorem table_restore (self : Backend R C) (currentState : JournaledState)
    (caller : Address) (snapshot : BackendStateSnapshot R) {id : LocalForkId} {forkId : ForkId}
    {idx : ForkLookupIndex} {fork : Fork R} (hdb : snapshot.db = .forked id forkId idx fork)
    (hocc : self.table.Occupied idx) : ∃ next journaledState,
      restore host self currentState caller snapshot = some (next, journaledState) ∧
      next.table = (self.table.map id forkId idx).activate id idx := by
  have hlt : idx < self.inner.forks.length := by
    have hlt := hocc.lt
    rwa [Backend.table, List.length_map] at hlt
  unfold restore
  rw [hdb]
  dsimp only
  rw [BackendInner.revertStateSnapshot, if_pos hlt]
  refine ⟨_, _, rfl, ?_⟩
  exact congrArg (fun t : ForkTable => (t.map id forkId idx).activate id idx) (table_setFork hocc _)

theorem owned_revertState (howned : self.table.Owned owner) (id : U256)
    (currentState : JournaledState) (current : Env) (action : RevertStateSnapshotAction) :
    ∃ next env journaledState,
      self.revertState host id currentState current action = some (next, env, journaledState) ∧
      next.table.Owned owner := by
  cases hlive : self.live id with
  | none => exact ⟨self, current, none, revertState_not_live hlive, howned⟩
  | some snapshot =>
    have hstored := stored_unstore hlive currentState action
    rw [revertState_of_live hlive]
    obtain ⟨db, journaledState, env⟩ := snapshot
    cases db with
    | inMemory memDb => exact ⟨_, _, _, rfl, howned.store fun _ _ _ h => .inl (hstored h)⟩
    | forked forkedId forkId idx fork =>
      have hplace : (forkedId, forkId, idx) ∈ self.table.stored := ⟨id, _, hlive, rfl⟩
      have hocc := howned.full idx (howned.stored forkedId forkId idx hplace).1
      obtain ⟨next, restored, hrestore, htable⟩ := table_restore host
        (self.unstore id ⟨.forked forkedId forkId idx fork, journaledState, env⟩ currentState
          action) currentState current.tx.caller
        (.merge ⟨.forked forkedId forkId idx fork, journaledState, env⟩ currentState) rfl hocc
      rw [hrestore]
      refine ⟨next, _, _, rfl, ?_⟩
      rw [htable]
      exact (howned.revert hplace).store fun _ _ _ h => .inl (hstored h)

theorem owned_call (howned : self.table.Owned owner) (c : SnapshotCall R) :
    ∃ next, self.call host c = some next ∧ next.table.Owned owner := by
  cases c with
  | snapshotState journaledState env =>
    obtain ⟨next, id, hok, hnext⟩ := owned_snapshotState howned journaledState env
    refine ⟨next, ?_, hnext⟩
    dsimp only [call]
    rw [hok]
    rfl
  | revertState id currentState current action =>
    obtain ⟨next, env, journaledState, hok, hnext⟩ :=
      owned_revertState host howned id currentState current action
    refine ⟨next, ?_, hnext⟩
    dsimp only [call]
    rw [hok]
    rfl
  | write memDb forkDb => exact owned_write howned memDb forkDb

theorem ensureForkIndexByLocalId_ne_panic {e : Error E}
    (h : self.inner.ensureForkIndexByLocalId id = .error e) : e ≠ .panic := by
  rintro rfl
  unfold BackendInner.ensureForkIndexByLocalId BackendInner.ensureForkId at h
  split at h
  · change BackendInner.ensureForkIndex _ _ = _ at h
    unfold BackendInner.ensureForkIndex at h
    split at h <;> cases h
  · cases h

theorem lookup_eq_some_iff {idx : ForkLookupIndex} :
    (self.inner.ensureForkIndexByLocalId id : Except (Error E) ForkLookupIndex) = .ok idx ↔
      self.table.lookup id = some idx := by
  unfold BackendInner.ensureForkIndexByLocalId BackendInner.ensureForkId ForkTable.lookup
  dsimp only [Backend.table]
  cases self.inner.issuedLocalForkIds.get id with
  | none => simp [bind, Except.bind]
  | some forkId =>
    change self.inner.ensureForkIndex forkId = _ ↔ self.inner.createdForks.get forkId = _
    unfold BackendInner.ensureForkIndex
    cases self.inner.createdForks.get forkId <;> simp

theorem owned_modifyForkById (howned : self.table.Owned owner)
    (id : LocalForkId) (f : Fork R → Fork R) :
    ∃ next, self.stepTable host (.modifyForkById id f) = some next ∧ next.table.Owned owner := by
  dsimp only [stepTable]
  unfold BackendInner.modifyForkById
  cases hindex : (self.inner.ensureForkIndexByLocalId id : Except (Error E) ForkLookupIndex) with
  | error e =>
    refine ⟨self, ?_, howned⟩
    cases e with
    | panic => exact absurd rfl (ensureForkIndexByLocalId_ne_panic hindex)
    | _ => rfl
  | ok idx =>
    have hocc := (howned.owner_of_lookup (lookup_eq_some_iff.mp hindex)).1
    obtain ⟨fork, hfork⟩ := occupied_iff.mp hocc
    refine ⟨{ self with inner := self.inner.setFork idx (f fork) }, ?_, ?_⟩
    · simp only [bind, Except.bind, BackendInner.getFork, hfork]
      rfl
    · rw [table_setFork hocc]
      exact howned

end

/-- One call keeps every entry of the table with its owner, and does not panic. -/
theorem owned_stepTable (howned : self.table.Owned owner) {op : TableOp R E}
    (hnew : ∀ forkId ∈ self.handedOut op, self.inner.createdForks.get forkId = none) :
    ∃ next owner, self.stepTable host op = some next ∧ next.table.Owned owner := by
  cases op with
  | op op =>
    cases op with
    | createFork reply =>
      cases reply with
      | error e => exact ⟨self, owner, rfl, howned⟩
      | ok reply =>
        obtain ⟨forkId, fork, env⟩ := reply
        have hadd := howned.add self.inner.nextForkId (hnew forkId rfl)
        rw [← table_insertNewFork self forkId (.new fork) self.forkInitJournaledState] at hadd
        exact ⟨_, _, rfl, hadd⟩
    | selectFork id env journaledState forks orders =>
      refine owned_settle howned (Session.triple_selectFork howned host forks orders id)
        ⟨rfl, rfl⟩ ?_
      rintro s (hsame | ⟨idx, hlookup, htable⟩)
      · exact ⟨owner, hsame ▸ howned⟩
      · exact ⟨owner, htable ▸ howned.select hlookup⟩
    | rollFork id blockNumber env journaledState forks orders =>
      refine owned_settle howned (Session.triple_rollFork howned host forks orders id blockNumber)
        ⟨⟨rfl, rfl⟩, fun forkId hforkId => hnew forkId ?_⟩ ?_
      · change (self.rolledTo forks id blockNumber).toOption = some forkId
        rw [hforkId]
        rfl
      · intro s ⟨id, forkId, idx, hlookup, hcreated, htable⟩
        obtain ⟨hocc, howner⟩ := howned.owner_of_lookup hlookup
        exact ⟨owner, htable ▸ howned.map hocc.lt howner (.inl hcreated)⟩
    | call c =>
      obtain ⟨next, hok, hnext⟩ := owned_call host howned c
      exact ⟨next, owner, hok, hnext⟩
  | updateForkMapping id forkId db journaledState =>
    have hadd := howned.add id (hnew forkId rfl)
    rw [← table_updateForkMapping self id forkId db journaledState] at hadd
    exact ⟨_, _, rfl, hadd⟩
  | modifyForkById id f =>
    obtain ⟨next, hok, hnext⟩ := owned_modifyForkById host howned id f
    exact ⟨next, owner, hok, hnext⟩
  | configure persistentAccounts caller specId => exact ⟨_, owner, rfl, howned⟩

theorem owned_runTable {ops : List (TableOp R E)} (howned : self.table.Owned owner)
    (hnew : EveryNew host self ops) :
    ∃ final owner, self.runTable host ops = some final ∧ final.table.Owned owner := by
  induction ops generalizing self owner with
  | nil => exact ⟨self, owner, rfl, howned⟩
  | cons op ops ih =>
    obtain ⟨next, owner', hstep, hnext⟩ := owned_stepTable howned hnew.1
    have hrest := hnew.2
    rw [hstep] at hrest
    obtain ⟨final, owner'', hrun, hfinal⟩ := ih hnext hrest
    refine ⟨final, owner'', ?_, hfinal⟩
    unfold runTable
    rw [List.foldlM_cons, hstep]
    exact hrun

private theorem getForkById_setFork (fork : Fork R)
    (h : ∀ idx', self.table.lookup id = some idx' → idx' ≠ idx) :
    ((self.inner.setFork idx fork).getForkById id : Except (Error E) (Fork R)) =
      self.inner.getForkById id := by
  change (self.inner.ensureForkIndexByLocalId id : Except (Error E) ForkLookupIndex) >>= _ =
    self.inner.ensureForkIndexByLocalId id >>= _
  cases hindex : (self.inner.ensureForkIndexByLocalId id : Except (Error E) ForkLookupIndex) with
  | error e => rfl
  | ok idx' =>
    change (self.inner.setFork idx fork).getFork idx' = self.inner.getFork idx'
    unfold BackendInner.getFork BackendInner.forkAt BackendInner.setFork
    rw [List.getElem?_set_ne (h idx' (lookup_eq_some_iff.mp hindex)).symm]

theorem modifyForkById_ok {f : Fork R → Fork R} {inner : BackendInner R}
    (h : (self.inner.modifyForkById id f : Except (Error E) (BackendInner R)) = .ok inner) :
    ∃ idx fork, self.table.lookup id = some idx ∧ inner = self.inner.setFork idx fork := by
  unfold BackendInner.modifyForkById at h
  cases hindex : (self.inner.ensureForkIndexByLocalId id : Except (Error E) ForkLookupIndex) with
  | error e =>
    rw [hindex] at h
    cases h
  | ok idx =>
    rw [hindex] at h
    change (self.inner.getFork idx : Except (Error E) (Fork R)) >>= _ = _ at h
    cases hfork : (self.inner.getFork idx : Except (Error E) (Fork R)) with
    | error e =>
      rw [hfork] at h
      cases h
    | ok fork =>
      rw [hfork] at h
      cases h
      exact ⟨idx, f fork, lookup_eq_some_iff.mp hindex, rfl⟩

theorem separate_of_owned (howned : self.table.Owned owner) : Separate E self := by
  constructor
  case resolves =>
    intro id forkId hissued
    obtain ⟨idx, hcreated, -⟩ := howned.issued id forkId hissued
    obtain ⟨fork, hfork⟩ := occupied_iff.mp (howned.full idx (howned.created forkId idx hcreated))
    exact ⟨idx, fork, hcreated, hfork⟩
  case distinct =>
    intro id id' idx h h'
    exact howned.lookup_inj (lookup_eq_some_iff.mp h) (lookup_eq_some_iff.mp h')
  case isolated =>
    intro id f inner h id' hne
    obtain ⟨idx, fork, hlookup, rfl⟩ := modifyForkById_ok h
    refine getForkById_setFork _ fun idx' hlookup' heq => hne ?_
    exact howned.lookup_inj (heq ▸ hlookup') hlookup
  case active =>
    intro id idx hactive
    refine ⟨occupied_iff.mp (howned.full idx (howned.active id idx hactive).1), ?_⟩
    intro fork id' hne
    exact getForkById_setFork fork fun idx' hlookup' =>
      howned.active_ne hactive hlookup' hne

/-- From a backend without forks, or launched with one, every run in which the handler hands
out new remote forks ends without a panic and with forks that are separate. -/
theorem runTable_separate (host : Host R E C) {start : Backend R C}
    (hstart : (∃ context, start = new context) ∨ ∃ context forkId fork journaledState,
      start = newWithFork context forkId fork journaledState)
    (ops : List (TableOp R E)) (hnew : EveryNew host start ops) :
    ∃ final, start.runTable host ops = some final ∧ Separate E final := by
  have howned : ∃ owner, start.table.Owned owner := by
    rcases hstart with ⟨context, rfl⟩ | ⟨context, forkId, fork, journaledState, rfl⟩
    · exact ⟨fun _ => 0, owned_new context⟩
    · have hnew : (new context : Backend R C).table.Owned fun _ => 0 := owned_new context
      have hadd := hnew.add (new context : Backend R C).inner.nextForkId (HashMap.get_empty forkId)
      refine ⟨_, hadd.select ?_⟩
      exact Option.bind_eq_some_iff.mpr
        ⟨forkId, HashMap.get_insert_self _ _ _, HashMap.get_insert_self _ _ _⟩
  obtain ⟨owner, howned⟩ := howned
  obtain ⟨final, owner', hrun, hfinal⟩ := owned_runTable howned hnew
  exact ⟨final, hrun, separate_of_owned hfinal⟩

end Runs

/-- Two forks, of which the first is rolled after a snapshot and the second gets a new
database; the revert moves the first one back. -/
def rolledAndReverted : List (TableOp Unit Unit) :=
  [.op (.createFork (.ok ("first", (), calledBy 0))),
    .op (.createFork (.ok ("second", (), calledBy 0))),
    .op (.selectFork 0 (calledBy 0) .new anyFork ascending),
    .op (.call (.snapshotState .new (calledBy 0))),
    .op (.rollFork none 7 (calledBy 0) .new anyFork ascending),
    .updateForkMapping 1 "third" (.new ()) .new,
    .op (.selectFork 1 (calledBy 0) .new anyFork ascending),
    .op (.call (.revertState 0 .new (calledBy 0) .revertKeep)),
    .modifyForkById 1 id]

theorem runTable_separate_rolled :
    ∃ final, (new () : Backend Unit Unit).runTable blankHost rolledAndReverted = some final ∧
      final.activeForkIds = some (0, 0) ∧ final.table.lookup 1 = some 2 ∧
      Separate Unit final := by
  have hnew : EveryNew blankHost (new ()) rolledAndReverted := by decide +kernel
  obtain ⟨final, hrun, hseparate⟩ :=
    runTable_separate blankHost (.inl ⟨(), rfl⟩) rolledAndReverted hnew
  refine ⟨final, hrun, ?_, ?_, hseparate⟩
  · cases hrun
    rfl
  · cases hrun
    decide +kernel

end Backend

end Foundry.Evm
