import Foundry.Evm.Reverts

/-!
# Which snapshots a revert deletes

Runs of `snapshot_state` and `revert_state`, with writes to the active database between
them.  The documentation of the backend deletes a reverted snapshot together with those taken
after it; the code deletes the reverted one alone.  Both agree in the runs in which every
deleting revert names the latest live snapshot.
-/

namespace Foundry.Evm

open Option

variable {R E C : Type}

inductive SnapshotCall (R : Type) where
  | snapshotState (journaledState : JournaledState) (env : Env)
  | revertState (id : U256) (currentState : JournaledState) (current : Env)
      (action : RevertStateSnapshotAction)
  /-- Any change of the active database. -/
  | write (memDb : CacheDb Unit → CacheDb Unit) (forkDb : CacheDb R → CacheDb R)

namespace Backend

def write (self : Backend R C) (memDb : CacheDb Unit → CacheDb Unit)
    (forkDb : CacheDb R → CacheDb R) : Option (Backend R C) :=
  match self.activeForkIds with
  | some (_, idx) => do
      let fork ← self.inner.forkAt idx
      return { self with inner := self.inner.setFork idx { fork with db := forkDb fork.db } }
  | none => some { self with memDb := memDb self.memDb }

def call (host : Host R E C) (self : Backend R C) : SnapshotCall R → Option (Backend R C)
  | .snapshotState journaledState env => do
      let (next, _) ← self.snapshotState journaledState env
      return next
  | .revertState id currentState current action => do
      let (next, _) ← self.revertState host id currentState current action
      return next
  | .write memDb forkDb => self.write memDb forkDb

def callAll (host : Host R E C) (self : Backend R C) (calls : List (SnapshotCall R)) :
    Option (Backend R C) :=
  calls.foldlM (call host) self

/-- A revert that kept its snapshot: the account it added for its caller, and the database
that it made the active one. -/
structure Kept (R : Type) where
  added : Option (Address × AccountInfo)
  database : Option (ActiveDatabase R)

/-- The last revert to each snapshot that was kept and is still the one taken under its id. -/
def track (host : Host R E C) (self : Backend R C) (kept : HashMap U256 (Kept R)) :
    SnapshotCall R → HashMap U256 (Kept R)
  | .snapshotState _ _ => kept.remove self.inner.stateSnapshots.id
  | .revertState id _ _ .revertRemove => kept.remove id
  | .revertState id currentState current .revertKeep =>
    match self.live id, self.revertState host id currentState current .revertKeep with
    | some snapshot, some (next, _) =>
      kept.insert id ⟨snapshot.addedCaller currentState current.tx.caller, next.database⟩
    | _, _ => kept
  | .write _ _ => kept

/-- `P` holds of every call, the backend it is made on and the reverts kept so far. -/
def EveryCall (host : Host R E C)
    (P : Backend R C → HashMap U256 (Kept R) → SnapshotCall R → Prop) :
    Backend R C → HashMap U256 (Kept R) → List (SnapshotCall R) → Prop
  | _, _, [] => True
  | self, kept, c :: calls => P self kept c ∧
      match self.call host c with
      | some next => EveryCall host P next (self.track host kept c) calls
      | none => True

instance decidableEveryCall (host : Host R E C)
    (P : Backend R C → HashMap U256 (Kept R) → SnapshotCall R → Prop)
    [∀ backend kept c, Decidable (P backend kept c)] :
    (self : Backend R C) → (kept : HashMap U256 (Kept R)) → (calls : List (SnapshotCall R)) →
      Decidable (EveryCall host P self kept calls)
  | _, _, [] => isTrue trivial
  | self, kept, c :: calls =>
    have : Decidable (match self.call host c with
        | some next => EveryCall host P next (self.track host kept c) calls
        | none => True) :=
      match self.call host c with
      | some next => decidableEveryCall host P next (self.track host kept c) calls
      | none => isTrue trivial
    inferInstanceAs (Decidable (_ ∧ _))

/-- The snapshots after a successful revert, as documented. -/
def DocumentedDeletion (self next : Backend R C) (id : U256) :
    RevertStateSnapshotAction → Prop
  | .revertRemove => (∀ j, id ≤ j → next.live j = none) ∧ ∀ j, j < id → next.live j = self.live j
  | .revertKeep => (next.live id).isSome ∧ next.live id = self.live id

/-- A revert treats the snapshots as documented, and a second revert to a snapshot that was
kept succeeds and yields the same database. -/
def Documented (host : Host R E C) (self : Backend R C) (kept : HashMap U256 (Kept R)) :
    SnapshotCall R → Prop
  | .revertState id currentState current action =>
    (∀ next env journaledState,
      self.revertState host id currentState current action =
        some (next, env, some journaledState) → DocumentedDeletion self next id action) ∧
    ∀ before, kept.get id = some before → ∃ next env journaledState,
      self.revertState host id currentState current action =
        some (next, env, some journaledState) ∧ next.database = before.database
  | _ => True

/-- A revert that deletes its snapshot finds no later one. -/
def OnlyLatest (self : Backend R C) (_ : HashMap U256 (Kept R)) : SnapshotCall R → Prop
  | .revertState id _ _ .revertRemove => (self.live id).isSome →
      ∀ j ∈ self.inner.stateSnapshots.stateSnapshots.keys, j ≤ id
  | _ => True

instance (self : Backend R C) (kept : HashMap U256 (Kept R)) (c : SnapshotCall R) :
    Decidable (self.OnlyLatest kept c) :=
  match c with
  | .revertState id _ _ .revertRemove =>
    have : Decidable (∀ j ∈ self.inner.stateSnapshots.stateSnapshots.keys, j ≤ id) :=
      Finset.decidableDforallFinset
    inferInstanceAs (Decidable (_ → _))
  | .revertState _ _ _ .revertKeep => isTrue trivial
  | .snapshotState _ _ => isTrue trivial
  | .write _ _ => isTrue trivial

/-- A second revert to a snapshot that was kept adds the account that the first one added. -/
def SameCaller (self : Backend R C) (kept : HashMap U256 (Kept R)) : SnapshotCall R → Prop
  | .revertState id currentState current _ =>
    ∀ before ∈ kept.get id, ∀ snapshot ∈ self.live id,
      snapshot.addedCaller currentState current.tx.caller = before.added
  | _ => True

instance (self : Backend R C) (kept : HashMap U256 (Kept R)) (c : SnapshotCall R) :
    Decidable (self.SameCaller kept c) :=
  match c with
  | .revertState id currentState current _ =>
    inferInstanceAs (Decidable (∀ before ∈ kept.get id, ∀ snapshot ∈ self.live id,
      snapshot.addedCaller currentState current.tx.caller = before.added))
  | .snapshotState _ _ => isTrue trivial
  | .write _ _ => isTrue trivial

/-! ## The invariant -/

variable {self next : Backend R C} {host : Host R E C} {kept : HashMap U256 (Kept R)}
  {currentState : JournaledState} {id : U256} {journaledState : JournaledState}
  {memDb : CacheDb Unit → CacheDb Unit} {caller : Address} {forkDb : CacheDb R → CacheDb R}
  {env : Env}

/-- A backend that has never changed between its in-memory database and a fork: every
snapshot is of the kind of the active database, and can be put back. -/
structure Consistent (backend : Backend R C) : Prop where
  mode : ∀ j snapshot, backend.live j = some snapshot →
    snapshot.isForked = backend.activeForkIds.isSome
  inRange : ∀ j snapshot, backend.live j = some snapshot →
    snapshot.InRange backend.inner.forks.length

/-- `next` differs in nothing that `Consistent` looks at, but for the snapshots. -/
structure SameMode (backend next : Backend R C) : Prop where
  isSome : next.activeForkIds.isSome = backend.activeForkIds.isSome
  length : next.inner.forks.length = backend.inner.forks.length

theorem SameMode.refl (self : Backend R C) : SameMode self self := ⟨rfl, rfl⟩

theorem consistent_of_empty (h : self.inner.stateSnapshots = .default) : Consistent self := by
  have hnone : ∀ j, self.live j = none := by
    intro j
    rw [live, h]
    rfl
  constructor
  · intro j snapshot hlive
    rw [hnone j] at hlive
    cases hlive
  · intro j snapshot hlive
    rw [hnone j] at hlive
    cases hlive

theorem Consistent.of_sameMode (h : Consistent self) (hsame : SameMode self next)
    (hlive : ∀ j snapshot, next.live j = some snapshot → self.live j = some snapshot ∨
      snapshot.isForked = self.activeForkIds.isSome ∧ snapshot.InRange self.inner.forks.length) :
    Consistent next := by
  constructor
  case mode =>
    intro j snapshot hj
    rw [hsame.isSome]
    rcases hlive j snapshot hj with hold | hnew
    · exact h.mode j snapshot hold
    · exact hnew.1
  case inRange =>
    intro j snapshot hj
    rw [hsame.length]
    rcases hlive j snapshot hj with hold | hnew
    · exact h.inRange j snapshot hold
    · exact hnew.2

theorem createDbSnapshot_ok {db : BackendDatabaseSnapshot R} (h : self.createDbSnapshot = some db) :
    match db with
    | .inMemory memDb => self.activeForkIds = none ∧ self.memDb = memDb
    | .forked id _ idx fork => self.activeForkIds = some (id, idx) ∧
        self.inner.forkAt idx = some fork := by
  unfold createDbSnapshot at h
  split at h
  · next id idx hactive =>
    obtain ⟨fork, hfork, h⟩ := bind_eq_some_iff.mp h
    obtain ⟨forkId, -, h⟩ := bind_eq_some_iff.mp h
    cases h
    exact ⟨hactive, hfork⟩
  · next hactive =>
    cases h
    exact ⟨hactive, rfl⟩

theorem snapshotState_ok (h : self.snapshotState journaledState env = some (next, id)) :
    ∃ db, self.createDbSnapshot = some db ∧ id = self.inner.stateSnapshots.id ∧
      next = { self with
        inner := { self.inner with
          stateSnapshots := (self.inner.stateSnapshots.insert ⟨db, journaledState, env⟩).1 } } := by
  obtain ⟨db, hdb, h⟩ := bind_eq_some_iff.mp h
  cases h
  exact ⟨db, hdb, rfl, rfl⟩

theorem snapshotState_of_call (h : self.call host (.snapshotState journaledState env) = some next) :
    ∃ id, self.snapshotState journaledState env = some (next, id) := by
  obtain ⟨result, hsnap, h⟩ := bind_eq_some_iff.mp h
  cases h
  exact ⟨result.2, hsnap⟩

theorem Consistent.snapshotState (h : Consistent self) {journaledState : JournaledState}
    (hok : self.snapshotState journaledState env = some (next, id)) :
    Consistent next ∧ SameMode self next := by
  obtain ⟨db, hdb, -, rfl⟩ := snapshotState_ok hok
  have hsame : SameMode self { self with
      inner := { self.inner with
        stateSnapshots :=
          (self.inner.stateSnapshots.insert ⟨db, journaledState, env⟩).1 } } := ⟨rfl, rfl⟩
  refine ⟨h.of_sameMode hsame ?_, hsame⟩
  intro j snapshot hj
  change (self.inner.stateSnapshots.insert ⟨db, journaledState, env⟩).1.get j = some snapshot at hj
  rw [StateSnapshots.get_insert] at hj
  split at hj
  · right
    cases hj
    have hactive := createDbSnapshot_ok hdb
    cases db with
    | inMemory memDb =>
      rw [hactive.1]
      exact ⟨rfl, trivial⟩
    | forked forkedId forkId idx fork =>
      rw [hactive.1]
      have hget := Option.join_eq_some_iff.mp hactive.2
      exact ⟨rfl, (List.getElem?_eq_some_iff.mp hget).1⟩
  · exact .inl hj

theorem Consistent.revertState (h : Consistent self)
    {action : RevertStateSnapshotAction} {snapshot : BackendStateSnapshot R}
    (hlive : self.live id = some snapshot)
    (hreverted : Reverted host self next id currentState caller action snapshot) :
    Consistent next ∧ SameMode self next := by
  have hsame : SameMode self next := by
    constructor
    case isSome =>
      have hmode := h.mode id snapshot hlive
      have hrestored := hreverted.restored
      unfold Restored at hrestored
      unfold BackendStateSnapshot.isForked at hmode
      split at hrestored
      · rw [hrestored.1]
      · next heq =>
        rw [heq] at hmode
        rw [hrestored.1, ← hmode]
        rfl
    case length => exact hreverted.length
  refine ⟨h.of_sameMode hsame ?_, hsame⟩
  intro j snapshot' hj
  rw [hreverted.live] at hj
  split at hj
  · cases hj
  · exact .inl hj

theorem write_ok (hok : self.write memDb forkDb = some next) :
    SameMode self next ∧ next.inner.stateSnapshots = self.inner.stateSnapshots := by
  unfold write at hok
  split at hok
  · obtain ⟨fork, -, hok⟩ := bind_eq_some_iff.mp hok
    cases hok
    exact ⟨⟨rfl, List.length_set⟩, rfl⟩
  · cases hok
    exact ⟨⟨rfl, rfl⟩, rfl⟩

theorem Consistent.write (h : Consistent self) (hok : self.write memDb forkDb = some next) :
    Consistent next ∧ SameMode self next := by
  obtain ⟨hsame, hsnapshots⟩ := write_ok hok
  refine ⟨h.of_sameMode hsame ?_, hsame⟩
  intro j snapshot hj
  rw [live, hsnapshots] at hj
  exact .inl hj

/-- A revert finds no snapshot and changes nothing, or it takes effect. -/
theorem reverted_of_call {current : Env} {action : RevertStateSnapshotAction}
    (h : self.call host (.revertState id currentState current action) = some next) :
    (self.live id = none ∧ next = self) ∨
      ∃ snapshot env journaledState, self.live id = some snapshot ∧
        self.revertState host id currentState current action =
          some (next, env, some journaledState) ∧
        Reverted host self next id currentState current.tx.caller action snapshot := by
  obtain ⟨⟨next', env, state⟩, hrevert, h⟩ := bind_eq_some_iff.mp h
  cases h
  cases state with
  | none =>
    left
    exact self_of_revertState hrevert
  | some journaledState =>
    right
    obtain ⟨snapshot, hlive, hreverted⟩ := reverted_of_revertState hrevert
    exact ⟨snapshot, env, journaledState, hlive, hrevert, hreverted⟩

theorem Consistent.call (h : Consistent self) {c : SnapshotCall R}
    (hok : self.call host c = some next) : Consistent next ∧ SameMode self next := by
  cases c with
  | snapshotState journaledState env =>
    obtain ⟨id, hsnap⟩ := snapshotState_of_call hok
    exact h.snapshotState hsnap
  | revertState id currentState current action =>
    rcases reverted_of_call hok with
      ⟨-, rfl⟩ | ⟨snapshot, env, journaledState, hlive, -, hreverted⟩
    · exact ⟨h, SameMode.refl next⟩
    · exact h.revertState hlive hreverted
  | write memDb forkDb => exact h.write hok

/-- What is known of the reverts that were kept: the snapshot is live, and the database was
the one it yields. -/
def Ledger (host : Host R E C) (self : Backend R C) (kept : HashMap U256 (Kept R)) : Prop :=
  ∀ id before, kept.get id = some before → ∃ snapshot, self.live id = some snapshot ∧
    before.database = some (snapshot.yields host before.added)

theorem Ledger.remove (h : Ledger host self kept)
    (hlive : ∀ j, j ≠ id → next.live j = self.live j) :
    Ledger host next (kept.remove id) := by
  intro j before hj
  rw [HashMap.get_remove] at hj
  split at hj
  · cases hj
  · next hne =>
    rw [hlive j hne]
    exact h j before hj

theorem Ledger.revertKeep (h : Ledger host self kept)
    {snapshot : BackendStateSnapshot R} (hlive : self.live id = some snapshot)
    (hmode : snapshot.isForked = self.activeForkIds.isSome)
    (hreverted : Reverted host self next id currentState caller .revertKeep snapshot) :
    Ledger host next
      (kept.insert id ⟨snapshot.addedCaller currentState caller, next.database⟩) := by
  have hall : ∀ j, next.live j = self.live j := by
    intro j
    rw [hreverted.live, if_neg fun hremove => Bool.noConfusion hremove.2]
  intro j before hj
  rw [HashMap.get_insert] at hj
  split at hj
  · next heq =>
    cases hj
    refine ⟨snapshot, ?_, database_of_restored hmode hreverted.restored⟩
    rw [hall, heq, hlive]
  · rw [hall]
    exact h j before hj

/-- A call keeps the ledger of what can be reverted to. -/
theorem Ledger.call (h : Ledger host self kept) (hcons : Consistent self) {c : SnapshotCall R}
    (hok : self.call host c = some next) : Ledger host next (self.track host kept c) := by
  cases c with
  | snapshotState journaledState env =>
    obtain ⟨id, hsnap⟩ := snapshotState_of_call hok
    obtain ⟨db, -, -, rfl⟩ := snapshotState_ok hsnap
    refine h.remove ?_
    intro j hne
    exact (StateSnapshots.get_insert _ _ j).trans (if_neg hne)
  | write memDb forkDb =>
    intro j before hj
    rw [live, (write_ok hok).2]
    exact h j before hj
  | revertState id currentState current action =>
    rcases reverted_of_call hok with
      ⟨hlive, rfl⟩ | ⟨snapshot, env, journaledState, hlive, hrevert, hreverted⟩
    · cases action with
      | revertRemove => exact h.remove fun j hne => rfl
      | revertKeep =>
        dsimp only [track]
        rw [hlive]
        exact h
    cases action with
    | revertRemove =>
      refine h.remove fun j hne => ?_
      rw [hreverted.live, if_neg fun heq => hne heq.1]
    | revertKeep =>
      dsimp only [track]
      rw [hlive, hrevert]
      exact h.revertKeep hlive (hcons.mode id snapshot hlive) hreverted

/-! ## Deleting and keeping -/

private theorem mem_keys_iff_live {j : U256} :
    j ∈ self.inner.stateSnapshots.stateSnapshots.keys ↔ self.live j ≠ none := by
  rw [HashMap.mem_keys, ne_none_iff_exists']
  rfl

/-- Deleting a snapshot alone is as documented just when no later one is live. -/
theorem deletes_iff_onlyLatest {snapshot : BackendStateSnapshot R}
    (hreverted : Reverted host self next id currentState caller .revertRemove snapshot) :
    DocumentedDeletion self next id .revertRemove ↔
      ∀ j ∈ self.inner.stateSnapshots.stateSnapshots.keys, j ≤ id := by
  have hget : ∀ j, j ≠ id → next.live j = self.live j := by
    intro j hj
    rw [hreverted.live, if_neg fun h => hj h.1]
  constructor
  · intro hdocumented j hj
    rw [mem_keys_iff_live] at hj
    by_contra hlater
    have hlt : id < j := BitVec.not_le.mp hlater
    have hne : j ≠ id := fun heq => hlater (heq ▸ BitVec.le_refl j)
    apply hj
    rw [← hget j hne]
    exact hdocumented.1 j (BitVec.le_of_lt hlt)
  · intro hlatest
    constructor
    · intro j hle
      by_cases hj : j = id
      · rw [hreverted.live, if_pos ⟨hj, rfl⟩]
      · rw [hget j hj]
        by_contra hsome
        have hge := hlatest j (mem_keys_iff_live.mpr hsome)
        exact hj (BitVec.le_antisymm hge hle)
    · intro j hlt
      exact hget j (BitVec.ne_of_lt hlt)

private theorem yields_again (h : Consistent self) (hledger : Ledger host self kept) {current : Env}
    {action : RevertStateSnapshotAction}
    (hsame : SameCaller self kept (.revertState id currentState current action)) {before : Kept R}
    (hbefore : kept.get id = some before) :
    ∃ next env journaledState,
      self.revertState host id currentState current action =
        some (next, env, some journaledState) ∧ next.database = before.database := by
  obtain ⟨snapshot, hlive, hdatabase⟩ := hledger id before hbefore
  obtain ⟨next, env, journaledState, hok, hreverted⟩ :=
    revertState_live host currentState current action hlive (h.inRange id snapshot hlive)
  refine ⟨next, env, journaledState, hok, ?_⟩
  have hadded : snapshot.addedCaller currentState current.tx.caller = before.added :=
    hsame before hbefore snapshot hlive
  rw [database_of_restored (h.mode id snapshot hlive) hreverted.restored, hadded, hdatabase]

/-- A revert is as documented just if no later snapshot is live. -/
theorem documented_iff_onlyLatest (h : Consistent self) (hledger : Ledger host self kept)
    {c : SnapshotCall R} (hsame : SameCaller self kept c) :
    Documented host self kept c ↔ self.OnlyLatest kept c := by
  cases c with
  | snapshotState journaledState env => exact Iff.rfl
  | write memDb forkDb => exact Iff.rfl
  | revertState id currentState current action =>
    have hagain : ∀ before, kept.get id = some before → ∃ next env journaledState,
        self.revertState host id currentState current action =
          some (next, env, some journaledState) ∧ next.database = before.database :=
      fun before hbefore => yields_again h hledger hsame hbefore
    cases action with
    | revertKeep =>
      refine iff_of_true ⟨?_, hagain⟩ trivial
      intro next env journaledState hok
      obtain ⟨snapshot, hlive, hreverted⟩ := reverted_of_revertState hok
      have hstays : next.live id = self.live id := by
        rw [hreverted.live, if_neg fun hremove => Bool.noConfusion hremove.2]
      refine ⟨?_, hstays⟩
      rw [hstays, hlive]
      rfl
    | revertRemove =>
      constructor
      · intro hdocumented hsome
        obtain ⟨snapshot, hlive⟩ := isSome_iff_exists.mp hsome
        obtain ⟨next, env, journaledState, hok, hreverted⟩ :=
          revertState_live host currentState current .revertRemove hlive
            (h.inRange id snapshot hlive)
        exact (deletes_iff_onlyLatest hreverted).mp (hdocumented.1 next env journaledState hok)
      · intro hlatest
        refine ⟨?_, hagain⟩
        intro next env journaledState hok
        obtain ⟨snapshot, hlive, hreverted⟩ := reverted_of_revertState hok
        exact (deletes_iff_onlyLatest hreverted).mpr (hlatest (hlive ▸ rfl))

theorem Consistent.everyCall_iff (h : Consistent self) (hledger : Ledger host self kept)
    {calls : List (SnapshotCall R)} (hsame : EveryCall host SameCaller self kept calls) :
    EveryCall host (Documented host) self kept calls ↔
      EveryCall host OnlyLatest self kept calls := by
  induction calls generalizing self kept with
  | nil => exact Iff.rfl
  | cons c calls ih =>
    refine and_congr (documented_iff_onlyLatest h hledger hsame.1) ?_
    have hrest := hsame.2
    cases hcall : self.call host c with
    | none => exact Iff.rfl
    | some next =>
      rw [hcall] at hrest
      exact ih (h.call hcall).1 (hledger.call h hcall) hrest

theorem ledger_empty (host : Host R E C) (self : Backend R C) : Ledger host self .empty := by
  intro id before hbefore
  cases hbefore

/-- Along a run whose second reverts add the account that the first ones added, the snapshots
behave as documented just when every deleting revert names the latest live snapshot. -/
theorem everyCall_documented_iff (host : Host R E C) {self : Backend R C}
    (hstart : self.inner.stateSnapshots = .default) {calls : List (SnapshotCall R)}
    (hsame : EveryCall host SameCaller self .empty calls) :
    EveryCall host (Documented host) self .empty calls ↔
      EveryCall host OnlyLatest self .empty calls :=
  (consistent_of_empty hstart).everyCall_iff (ledger_empty host self) hsame

def richAccount : AccountInfo := { AccountInfo.default with balance := 5 }

def blankHost : Host Unit Unit Unit where
  memory := .over .default
  cache := .over richAccount
  loadJournaled journaledState db _ := (journaledState, db)
  precompiles _ := ∅
  runner := evmBackendStrategyRunner Unit

def calledBy (caller : Address) : Env := ⟨⟨0, 0⟩, ⟨1, 0⟩, ⟨caller, none⟩⟩

def onFork : Backend Unit Unit :=
  { (new () : Backend Unit Unit) with
    activeForkIds := some (0, 0)
    inner := (BackendInner.default.insertNewFork "fork" (.new ()) .new).1 }

/-- Two snapshots, the first reverted to and kept, then both from the second to the first. -/
def latestFirst : List (SnapshotCall Unit) :=
  [.snapshotState .new (calledBy 0), .snapshotState .new (calledBy 0),
    .revertState 0 .new (calledBy 1) .revertKeep, .revertState 1 .new (calledBy 0) .revertRemove,
    .revertState 0 .new (calledBy 1) .revertRemove]

theorem everyCall_documented_latestFirst :
    EveryCall blankHost OnlyLatest onFork .empty latestFirst ∧
      EveryCall blankHost (Documented blankHost) onFork .empty latestFirst := by
  have hlatest : EveryCall blankHost OnlyLatest onFork .empty latestFirst := by decide +kernel
  have hsame : EveryCall blankHost SameCaller onFork .empty latestFirst := by decide +kernel
  exact ⟨hlatest, (everyCall_documented_iff blankHost rfl hsame).mpr hlatest⟩

def firstOfTwo : List (SnapshotCall Unit) :=
  [.snapshotState .new (calledBy 0), .snapshotState .new (calledBy 0),
    .revertState 0 .new (calledBy 0) .revertRemove]

def otherCaller : List (SnapshotCall Unit) :=
  [.snapshotState .new (calledBy 0), .revertState 0 .new (calledBy 1) .revertKeep,
    .revertState 0 .new (calledBy 2) .revertKeep]

/-- After a revert to the first of two snapshots the second can still be reverted to.  And
the second revert to a snapshot that is kept yields another database, when it is made by
another caller: the account of the first one is gone. -/
theorem firstOfTwo_not_documented :
    ¬ EveryCall blankHost (Documented blankHost) (new ()) .empty firstOfTwo ∧
      ((((new ()).callAll blankHost firstOfTwo).bind fun backend =>
        backend.revertState blankHost 1 .new (calledBy 0) .revertRemove).bind
          (·.2.2)).isSome = true ∧
      ((onFork.callAll blankHost (otherCaller.take 2)).bind fun backend =>
        (backend.basicRef blankHost 1).toOption) = some (some .default) ∧
      ((onFork.callAll blankHost otherCaller).bind fun backend =>
        (backend.basicRef blankHost 1).toOption) = some (some richAccount) := by
  refine ⟨?_, by decide +kernel, by decide +kernel, by decide +kernel⟩
  have hstart : Consistent (new () : Backend Unit Unit) := consistent_of_empty rfl
  have hsame : EveryCall blankHost SameCaller (new ()) .empty firstOfTwo := by decide +kernel
  rw [hstart.everyCall_iff (ledger_empty blankHost _) hsame]
  decide +kernel

end Backend

end Foundry.Evm
