import Foundry.Evm.ForkSwaps
import Foundry.Evm.ForkTable

/-!
# Calls on forks and the table

What the calls that select and roll a fork do to the table of forks.  While every entry of
the table stays with its owner, none of them finds an index without a fork.
-/

namespace Foundry.Evm

variable {R E C : Type}

/-- The place in the table that a revert to the snapshot restores. -/
def BackendStateSnapshot.place (self : BackendStateSnapshot R) : Option ForkPlace :=
  match self.db with
  | .inMemory _ => none
  | .forked id forkId idx _ => some (id, forkId, idx)

def Backend.table (self : Backend R C) : ForkTable where
  issued := self.inner.issuedLocalForkIds
  created := self.inner.createdForks
  occupied := self.inner.forks.map Option.isSome
  active := self.activeForkIds
  stored := { place | ∃ id snapshot, self.live id = some snapshot ∧ snapshot.place = some place }

theorem Backend.occupied_iff {self : Backend R C} {idx : ForkLookupIndex} :
    self.table.Occupied idx ↔ ∃ fork, self.inner.forkAt idx = some fork := by
  change (self.inner.forks.map Option.isSome)[idx]? = some true ↔
    ∃ fork, self.inner.forks[idx]?.join = some fork
  rw [List.getElem?_map]
  rcases self.inner.forks[idx]? with - | - | fork <;> simp

/-- The remote fork that the handler answers with when a fork is rolled. -/
def Backend.rolledTo (self : Backend R C) (forks : MultiFork R E) (id : Option LocalForkId)
    (blockNumber : U64) : Except (Error E) ForkId := do
  let id ← self.ensureFork id
  let forkId ← self.inner.ensureForkId id
  let (forkId, _, _) ← (forks.rollFork forkId blockNumber).mapError .handler
  return forkId

/-! ## Calls within a session -/

namespace Session

/-- The table of the backend is `t`, and new forks start with `init`. -/
def At (t : ForkTable) (init : JournaledState) (s : Session R C) : Prop :=
  s.backend.table = t ∧ s.backend.forkInitJournaledState = init

/-- A failure that is no panic and leaves the table `t`. -/
def Harmless (t : ForkTable) (e : Error E) (s : Session R C) : Prop :=
  e ≠ .panic ∧ s.backend.table = t

section Calls

variable {t : ForkTable} {init : JournaledState} {idx : ForkLookupIndex}
  {X : Error E → Session R C → Prop} {inner : BackendInner R} (forks : MultiFork R E) {α : Type}
  {id : LocalForkId} {forkId : ForkId} {e : Error E}

theorem triple_ask (reply : Except E α) :
    Triple (At t init) (ask reply : SessionM R E C α) (fun _ => At t init) (Harmless t) := by
  cases reply with
  | ok a => exact Triple.pure fun _ h => h
  | error e => exact Triple.throw fun _ h => ⟨nofun, h.1⟩

theorem harmless_ask {reply : Except E α}
    (h : reply.mapError .handler = .error e) (s : Session R C) (hs : At t init s) :
    Harmless t e s := by
  cases reply with
  | ok a => cases h
  | error e' =>
    cases h
    exact ⟨nofun, hs.1⟩

theorem table_of_at {m : SessionM R E C α}
    (h : ∀ init, Triple (At t init) m (fun _ => At t init) X) :
    Triple (fun s => s.backend.table = t) m (fun _ s => s.backend.table = t) X := by
  intro s hs
  have hm := h s.backend.forkInitJournaledState s ⟨hs, rfl⟩
  cases heq : m s with
  | ok a s' =>
    rw [heq] at hm
    exact hm.1
  | error e s' =>
    rw [heq] at hm
    exact hm

theorem harmless_ensureForkId
    (h : inner.ensureForkId id = .error e) (s : Session R C) (hs : At t init s) :
    Harmless t e s := by
  unfold BackendInner.ensureForkId at h
  split at h
  · cases h
  · cases h
    exact ⟨nofun, hs.1⟩

theorem harmless_ensureForkIndex
    (h : inner.ensureForkIndex forkId = .error e) (s : Session R C) (hs : At t init s) :
    Harmless t e s := by
  unfold BackendInner.ensureForkIndex at h
  split at h
  · cases h
  · cases h
    exact ⟨nofun, hs.1⟩

theorem harmless_ensureFork {backend : Backend R C} {id : Option LocalForkId}
    (h : backend.ensureFork id = .error e) (s : Session R C) (hs : At t init s) :
    Harmless t e s := by
  refine ⟨?_, hs.1⟩
  rintro rfl
  unfold Backend.ensureFork at h
  split at h
  · split at h <;> cases h
  · split at h <;> cases h

theorem get_of_ensureForkId (h : (inner.ensureForkId id : Except (Error E) ForkId) = .ok forkId) :
    inner.issuedLocalForkIds.get id = some forkId := by
  unfold BackendInner.ensureForkId at h
  split at h
  · next heq =>
    cases h
    exact heq
  · cases h

private theorem get_of_ensureForkIndex
    (h : (inner.ensureForkIndex forkId : Except (Error E) ForkLookupIndex) = .ok idx) :
    inner.createdForks.get forkId = some idx := by
  unfold BackendInner.ensureForkIndex at h
  split at h
  · next heq =>
    cases h
    exact heq
  · cases h

theorem triple_getFork (h : t.Occupied idx) :
    Triple (At t init) (getFork idx : SessionM R E C (Fork R)) (fun _ => At t init) X := by
  refine Triple.get_bind fun s hs => ?_
  obtain ⟨fork, hfork⟩ := Backend.occupied_iff.mp (hs.1.symm ▸ h)
  rw [BackendInner.getFork, hfork]
  exact Triple.pure fun _ h => h

theorem triple_setFork (fork : Fork R) :
    Triple (At t init) (setFork idx fork : SessionM R E C PUnit)
      (fun _ => At (t.put idx) init) X := by
  refine Triple.modify fun s hs => ?_
  obtain ⟨rfl, rfl⟩ := hs
  unfold At Backend.table ForkTable.put
  dsimp only [BackendInner.setFork]
  rw [List.map_set]
  exact ⟨rfl, rfl⟩

theorem triple_setFork_occupied (h : t.Occupied idx) (fork : Fork R) :
    Triple (At t init) (setFork idx fork : SessionM R E C PUnit) (fun _ => At t init) X := by
  have hset : Triple (At t init) (setFork idx fork : SessionM R E C PUnit)
      (fun _ => At (t.put idx) init) X := triple_setFork fork
  rw [ForkTable.put_of_occupied h] at hset
  exact hset

private theorem triple_putFork (h : t.Occupied idx) (fork : Fork R) :
    Triple (At (t.take idx) init) (setFork idx fork : SessionM R E C PUnit)
      (fun _ => At t init) X := by
  have hset : Triple (At (t.take idx) init) (setFork idx fork : SessionM R E C PUnit)
      (fun _ => At ((t.take idx).put idx) init) X := triple_setFork fork
  rw [ForkTable.put_take h] at hset
  exact hset

private theorem triple_takeFork (idx : ForkLookupIndex) :
    Triple (At t init) (modifyInner (·.takeFork idx) : SessionM R E C PUnit)
      (fun _ => At (t.take idx) init) X := by
  refine Triple.modify fun s hs => ?_
  obtain ⟨rfl, rfl⟩ := hs
  unfold At Backend.table ForkTable.take
  dsimp only [BackendInner.takeFork]
  rw [List.map_set]
  exact ⟨rfl, rfl⟩

theorem triple_activeFork (hactive : ∀ id idx, t.active = some (id, idx) → t.Occupied idx) :
    Triple (At t init) (activeFork : SessionM R E C (Option (Fork R))) (fun _ => At t init) X := by
  refine Triple.get_bind fun s hs => ?_
  obtain ⟨rfl, rfl⟩ := hs
  split
  · next id idx heq =>
    exact Triple.bind (triple_getFork (hactive id idx heq)) fun _ => Triple.pure fun _ h => h
  · exact Triple.pure fun _ h => h

theorem triple_basic (host : Host R E C) (h : t.Occupied idx) (address : Address) :
    Triple (At t init) (basic host idx address) (fun _ => At t init) (Harmless t) := by
  refine Triple.bind (triple_getFork h) fun fork => ?_
  refine Triple.ofExcept_bind (fun loaded _ => ?_) ?_
  · refine Triple.bind (triple_setFork_occupied h _) fun _ => ?_
    split
    · exact Triple.pure fun _ h => h
    · exact Triple.throw fun _ h => ⟨nofun, h.1⟩
  intro e heq s hs
  cases hload : host.cache.loadAccount fork.db address with
  | ok loaded =>
    rw [hload] at heq
    cases heq
  | error e' =>
    rw [hload] at heq
    cases heq
    exact ⟨nofun, hs.1⟩

theorem triple_updateActiveBlock :
    Triple (At t init) (updateActiveBlock forks : SessionM R E C PUnit) (fun _ => At t init)
      (Harmless t) := by
  refine Triple.get_bind fun s _ => ?_
  split
  · refine Triple.ofExcept_bind (fun forkId _ => ?_) fun _ => harmless_ensureForkId
    exact triple_ask _
  · exact Triple.pure fun _ h => h

theorem triple_forkTypeOf (forkId : ForkId) :
    Triple (At t init) (forkTypeOf forks forkId : SessionM R E C ForkType) (fun _ => At t init)
      (Harmless t) :=
  Triple.bind (triple_ask _) fun _ => Triple.pure fun _ h => h

theorem triple_currentForkType :
    Triple (At t init) (currentForkType forks : SessionM R E C ForkType) (fun _ => At t init)
      (Harmless t) := by
  refine Triple.get_bind fun s _ => ?_
  split
  · refine Triple.ofExcept_bind (fun forkId _ => ?_) fun _ => harmless_ensureForkId
    exact triple_forkTypeOf forks forkId
  · exact Triple.pure fun _ h => h

/-! ## Selecting a fork -/

variable {owner : ForkLookupIndex → LocalForkId} {forkId : ForkId}

section

variable (host : Host R E C) (orders : Orders)

theorem triple_recordActive {activeIdx : ForkLookupIndex}
    (hactive : t.Occupied activeIdx) (h : t.Occupied idx) :
    Triple (At t init) (recordActive host activeIdx idx) (fun _ => At t init) (Harmless t) := by
  refine Triple.bind (triple_getFork hactive) fun active => ?_
  refine Triple.get_bind fun s _ => ?_
  refine Triple.bind (triple_setFork_occupied hactive _) fun _ => ?_
  refine Triple.bind (triple_getFork h) fun target => ?_
  split
  · split
    · refine Triple.bind (triple_basic host h _) fun info => ?_
      refine Triple.bind (triple_getFork h) fun target => ?_
      exact triple_setFork_occupied h _
    · exact Triple.pure fun _ h => h
  · exact Triple.pure fun _ h => h

theorem triple_replaceLoaded (h : t.Occupied idx)
    {accounts : List Address} {journaledState : JournaledState} {address : Address}
    (haddress : address ∈ accounts)
    (hloaded : ∀ a ∈ accounts, (journaledState.state.get a).isSome) :
    Triple (At t init) (replaceLoaded host idx journaledState address)
      (fun next s => At t init s ∧ ∀ a ∈ accounts, (next.state.get a).isSome) (Harmless t) := by
  unfold replaceLoaded
  split
  · next heq =>
    have hsome := hloaded address haddress
    rw [heq] at hsome
    cases hsome
  split
  · exact Triple.pure fun _ hs => ⟨hs, hloaded⟩
  refine Triple.bind (triple_basic host h address) fun info => ?_
  refine Triple.pure fun s hs => ⟨hs, fun a ha => ?_⟩
  rw [HashMap.get_insert]
  split
  · rfl
  · exact hloaded a ha

theorem triple_prepareFork {accounts : List Address}
    (hloaded : ∀ a ∈ accounts, (init.state.get a).isSome) (idx : ForkLookupIndex) :
    Triple (At t init) (prepareFork host accounts idx) (fun _ => At t init) (Harmless t) := by
  refine Triple.get_bind fun s hs => ?_
  split
  · exact Triple.pure fun _ h => h
  · next fork heq =>
    have hidx : t.Occupied idx := by
      rw [← hs.1]
      exact Backend.occupied_iff.mpr ⟨fork, heq⟩
    rw [hs.2]
    have hfold := Triple.foldlM (I := fun next s => At t init s ∧
        ∀ a ∈ accounts, (next.state.get a).isSome) (X := Harmless t)
      (fun next a ha => Triple.of_and fun hnext => triple_replaceLoaded host hidx ha hnext)
      init
    refine Triple.bind (hfold.weaken (fun _ h => ⟨h, hloaded⟩) (fun _ _ h => h.1)
      fun _ _ h => h) fun next => ?_
    refine Triple.bind (triple_getFork hidx) fun fork => ?_
    exact triple_setFork_occupied hidx _

theorem triple_prepareInitJournalState :
    Triple (At t init) (prepareInitJournalState host orders) (fun _ => At t init) (Harmless t) := by
  refine Triple.get_bind fun s hs => ?_
  refine Triple.forM _ fun idx _ => triple_prepareFork host ?_ idx
  intro a ha
  have hkeys := orders.addresses.mem_visit.mp (List.mem_of_mem_filter ha)
  obtain ⟨account, haccount⟩ := HashMap.mem_keys.mp hkeys
  rw [← hs.2, haccount]
  rfl

theorem triple_recordInit :
    Triple (At t init) (recordInit host orders) (fun _ s => s.backend.table = t) (Harmless t) := by
  refine Triple.get_bind fun s hs => ?_
  refine Triple.bind (Q := fun _ => At t s.journaledState) ?_ fun _ => ?_
  · exact Triple.modify fun _ h => ⟨h.1, rfl⟩
  · refine Triple.bind (triple_prepareInitJournalState host orders) fun _ => ?_
    exact Triple.modify fun _ h => h.1

theorem triple_handOver (h : t.Occupied idx)
    (hactive : ∀ id idx', t.active = some (id, idx') → t.Occupied idx' ∧ idx' ≠ idx)
    (activeType targetType : ForkType) :
    Triple (At t init) (handOver host orders idx activeType targetType) (fun _ => At t init) X := by
  have htaken : ∀ id idx', (t.take idx).active = some (id, idx') → (t.take idx).Occupied idx' := by
    intro id idx' heq
    obtain ⟨hocc, hne⟩ := hactive id idx' heq
    exact hocc.take hne
  refine Triple.bind (triple_getFork h) fun fork => ?_
  refine Triple.bind (triple_takeFork idx) fun _ => ?_
  refine Triple.bind (Q := fun _ => At (t.take idx) init) ?_ fun fork => ?_
  · refine Triple.get_bind fun s hs => ?_
    split
    · exact Triple.pure fun _ h => h
    · next id activeIdx heq =>
      have hocc := htaken id activeIdx (hs.1 ▸ heq)
      refine Triple.bind (triple_getFork hocc) fun active => ?_
      refine Triple.bind (triple_setFork_occupied hocc _) fun _ => ?_
      exact Triple.pure fun _ h => h
  · refine Triple.get_bind fun s hs => ?_
    refine Triple.bind (triple_activeFork htaken) fun active => ?_
    refine Triple.bind (Q := fun _ => At (t.take idx) init) ?_ fun _ => ?_
    · exact Triple.modify fun _ h => h
    · exact triple_putFork h _

theorem lookup_of_ensure {s : Session R C} {id : LocalForkId}
    (hforkId : (s.backend.inner.ensureForkId id : Except (Error E) ForkId) = .ok forkId)
    (hidx : (s.backend.inner.ensureForkIndex forkId : Except (Error E) ForkLookupIndex) = .ok idx) :
    s.backend.table.lookup id = some idx :=
  Option.bind_eq_some_iff.mpr ⟨forkId, get_of_ensureForkId hforkId, get_of_ensureForkIndex hidx⟩

/-- A selection moves to the index of the local id, or leaves the table. -/
theorem triple_selectFork (howned : t.Owned owner) (host : Host R E C) (forks : MultiFork R E)
    (orders : Orders) (id : LocalForkId) :
    Triple (At t init) (selectFork host forks orders id) (fun _ s => s.backend.table = t ∨
        ∃ idx, t.lookup id = some idx ∧ s.backend.table = t.activate id idx)
      (Harmless t) := by
  refine Triple.get_bind fun s hs => ?_
  split
  · exact Triple.pure fun _ h => .inl h.1
  · next hinactive =>
    refine Triple.bind (triple_updateActiveBlock forks) fun _ => ?_
    refine Triple.ofExcept_bind (fun forkId hforkId => ?_) fun _ => harmless_ensureForkId
    refine Triple.ofExcept_bind (fun idx hidx => ?_) fun _ => harmless_ensureForkIndex
    refine Triple.bind (triple_currentForkType forks) fun activeType => ?_
    refine Triple.bind (triple_forkTypeOf forks forkId) fun targetType => ?_
    refine Triple.bind (triple_ask _) fun forkEnv => ?_
    split
    · exact Triple.throw fun _ h => ⟨nofun, h.1⟩
    · next forkEnv =>
      have hlookup : t.lookup id = some idx := hs.1 ▸ lookup_of_ensure hforkId hidx
      obtain ⟨hocc, -⟩ := howned.owner_of_lookup hlookup
      have hactive : ∀ id' idx', t.active = some (id', idx') → t.Occupied idx' ∧ idx' ≠ idx := by
        intro id' idx' hids
        refine ⟨howned.full _ (howned.active id' idx' hids).1, ?_⟩
        refine (howned.active_ne hids hlookup fun heq => hinactive ?_).symm
        rw [Backend.isActiveFork, Backend.activeForkId]
        rw [← hs.1] at hids
        change s.backend.activeForkIds = _ at hids
        simp [hids, heq]
      have hselected : Triple (fun s => s.backend.table = t) (do
            handOver host orders idx activeType targetType
            modify fun s => { s with
              backend := { s.backend with activeForkIds := some (id, idx) }
              env := updateCurrentEnvWithForkEnv s.env forkEnv } : SessionM R E C PUnit)
          (fun _ s => s.backend.table = t ∨
            ∃ idx, t.lookup id = some idx ∧ s.backend.table = t.activate id idx)
          (Harmless t) := by
        refine Triple.bind (table_of_at fun init =>
          triple_handOver host orders hocc hactive activeType targetType) fun _ => ?_
        exact Triple.modify fun s hs => .inr ⟨idx, hlookup, hs ▸ rfl⟩
      split
      · next id' activeIdx hids =>
        have hocc' := (hactive id' activeIdx (hs.1 ▸ hids)).1
        refine Triple.bind ((triple_recordActive host hocc' hocc).weaken (fun _ h => h)
          (fun _ _ h => h.1) fun _ _ h => h) fun _ => hselected
      · exact Triple.bind (triple_recordInit host orders) fun _ => hselected

/-! ## Rolling a fork -/

theorem triple_rollInner (howned : t.Owned owner) (host : Host R E C) (orders : Orders)
    (id : LocalForkId) (newForkId : ForkId) (remote : R) :
    Triple (At t init) (rollInner host orders id newForkId remote)
      (fun _ s => ∃ idx, t.lookup id = some idx ∧ s.backend.table = t.map id newForkId idx)
      (Harmless t) := by
  refine Triple.get_bind fun s hs => ?_
  refine Triple.ofExcept_bind (fun forkId hforkId => ?_) fun _ => harmless_ensureForkId
  refine Triple.ofExcept_bind (fun idx hidx => ?_) fun _ => harmless_ensureForkIndex
  have hlookup : t.lookup id = some idx := hs.1 ▸ lookup_of_ensure hforkId hidx
  obtain ⟨hocc, -⟩ := howned.owner_of_lookup hlookup
  have hmapped : Triple (At t init) (modifyInner fun inner : BackendInner R =>
        { inner with
          issuedLocalForkIds := inner.issuedLocalForkIds.insert id newForkId
          createdForks := inner.createdForks.insert newForkId idx } :
        SessionM R E C PUnit)
      (fun _ s => ∃ idx, t.lookup id = some idx ∧ s.backend.table = t.map id newForkId idx)
      (Harmless t) := Triple.modify fun s hs => ⟨idx, hlookup, hs.1 ▸ rfl⟩
  split
  · split
    · refine Triple.bind (Q := fun _ => At t init) (Triple.modify fun _ h => h) fun _ => ?_
      exact Triple.bind (triple_setFork_occupied hocc _) fun _ => hmapped
    · exact hmapped
  · next hlt =>
    refine absurd ?_ hlt
    have hlength : idx < t.occupied.length := hocc.lt
    rw [← hs.1] at hlength
    rw [← List.length_map]
    exact hlength

private theorem triple_resetActive (h : t.Occupied idx) (forkEnv : Env) :
    Triple (At t init) (resetActive host orders idx forkEnv) (fun _ => At t init) X := by
  refine Triple.bind (Q := fun _ => At t init) (Triple.modify fun _ h => h) fun _ => ?_
  refine Triple.get_bind fun s hs => ?_
  refine Triple.bind (triple_getFork h) fun active => ?_
  refine Triple.bind (Q := fun _ => At t init) (Triple.modify fun _ h => h) fun _ => ?_
  exact triple_setFork_occupied h _

end


theorem triple_rollFork (howned : t.Owned owner) (host : Host R E C) (forks : MultiFork R E)
    (orders : Orders) (id : Option LocalForkId) (blockNumber : U64) :
    Triple (fun s => At t init s ∧ ∀ forkId, s.backend.rolledTo forks id blockNumber = .ok forkId →
        t.created.get forkId = none)
      (rollFork host forks orders id blockNumber)
      (fun _ s => ∃ id forkId idx, t.lookup id = some idx ∧ t.created.get forkId = none ∧
        s.backend.table = t.map id forkId idx)
      (Harmless t) := by
  refine Triple.get_bind fun s hs => Triple.weaken (P := At t init) ?_ (fun _ h => h.1)
    (fun _ _ h => h) fun _ _ h => h
  obtain ⟨hs, hnew⟩ := hs
  refine Triple.ofExcept_bind (fun id' hid => ?_) fun _ => harmless_ensureFork
  refine Triple.ofExcept_bind (fun forkId hforkId => ?_) fun _ => harmless_ensureForkId
  refine Triple.ofExcept_bind (fun (newForkId, remote, forkEnv) hreply => ?_) fun _ => harmless_ask
  have hcreated : t.created.get newForkId = none := by
    apply hnew
    unfold Backend.rolledTo
    simp only [hid, hforkId, hreply, bind, Except.bind, pure, Except.pure]
  refine Triple.bind (triple_rollInner howned host orders id' newForkId remote) fun _ => ?_
  refine Triple.of_exists fun idx => ?_
  have hrolled : ∀ s' : Session R C, t.lookup id' = some idx ∧
      s'.backend.table = t.map id' newForkId idx →
      ∃ id forkId idx, t.lookup id = some idx ∧ t.created.get forkId = none ∧
        s'.backend.table = t.map id forkId idx :=
    fun _ h => ⟨id', newForkId, idx, h.1, hcreated, h.2⟩
  split
  · next activeId activeIdx hids =>
    split
    · have hocc : (t.map id' newForkId idx).Occupied activeIdx :=
        howned.full _ (howned.active activeId activeIdx (hs.1 ▸ hids)).1
      intro s' hs'
      exact (table_of_at fun init => triple_resetActive host orders hocc forkEnv).weaken
        (fun _ h => h) (fun _ s h => hrolled s ⟨hs'.1, h⟩) (fun _ _ h => h) s' hs'.2
    · exact Triple.pure hrolled
  · exact Triple.pure hrolled

end Calls

end Session

end Foundry.Evm
