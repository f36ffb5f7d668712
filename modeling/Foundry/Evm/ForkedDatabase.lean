import Foundry.Evm.StateSnapshots

/-!
# A database that forks off a remote client

Local changes over a cache of remote data, both of which a snapshot copies.
-/

namespace Foundry.Evm

/-- The cached state of a remote client; `A` is the information about an account. -/
structure StateSnapshot (A : Type) where
  accounts : HashMap Address A
  storage : HashMap Address (HashMap U256 U256)
  blockHashes : HashMap U256 B256

/-- A copy of the local changes (`L`) and of the remote data fetched so far. -/
structure ForkDbStateSnapshot (L A : Type) where
  localDb : L
  stateSnapshot : StateSnapshot A

structure ForkedDatabase (L A : Type) where
  cacheDb : L
  db : StateSnapshot A
  stateSnapshots : StateSnapshots (ForkDbStateSnapshot L A)

namespace ForkedDatabase

variable {L A : Type}

def createStateSnapshot (self : ForkedDatabase L A) : ForkDbStateSnapshot L A :=
  ⟨self.cacheDb, self.db⟩

def insertStateSnapshot (self : ForkedDatabase L A) : ForkedDatabase L A × U256 :=
  let (stateSnapshots, id) := self.stateSnapshots.insert self.createStateSnapshot
  ({ self with stateSnapshots := stateSnapshots }, id)

/-- Removes the snapshot from the tracked snapshots and sets it as the current state. -/
def revertStateSnapshot (self : ForkedDatabase L A) (id : U256)
    (action : RevertStateSnapshotAction) : ForkedDatabase L A × Bool :=
  match self.stateSnapshots.removeAt id with
  | (stateSnapshots, none) => ({ self with stateSnapshots := stateSnapshots }, false)
  | (stateSnapshots, some stateSnapshot) =>
    ({ cacheDb := stateSnapshot.localDb
       db := stateSnapshot.stateSnapshot
       stateSnapshots :=
        if action.isKeep then stateSnapshots.insertAt stateSnapshot id
        else stateSnapshots }, true)

section

variable (self : ForkedDatabase L A) (id : U256) (action : RevertStateSnapshotAction)

theorem revertStateSnapshot_eq :
    self.revertStateSnapshot id action =
      (⟨((self.stateSnapshots.get id).map (·.localDb)).getD self.cacheDb,
        ((self.stateSnapshots.get id).map (·.stateSnapshot)).getD self.db,
        (self.stateSnapshots.removeAt id).1.putBack (self.stateSnapshots.get id) id action⟩,
        (self.stateSnapshots.get id).isSome) := by
  simp only [revertStateSnapshot, StateSnapshots.removeAt, StateSnapshots.get]
  cases self.stateSnapshots.stateSnapshots.get id <;> rfl

@[simp] theorem id_revertStateSnapshot :
    (self.revertStateSnapshot id action).1.stateSnapshots.id = self.stateSnapshots.id := by
  rw [revertStateSnapshot_eq, StateSnapshots.id_putBack]
  rfl

theorem get_revertStateSnapshot (id k : U256) (action : RevertStateSnapshotAction) :
    (self.revertStateSnapshot id action).1.stateSnapshots.get k =
      if k = id ∧ action.isKeep = false then none else self.stateSnapshots.get k := by
  rw [revertStateSnapshot_eq, StateSnapshots.get_putBack, StateSnapshots.get_removeAt]
  by_cases hk : k = id
  · cases action.isKeep <;> cases hget : self.stateSnapshots.get id <;> simp [hk, hget]
  · simp only [hk, false_and, if_false]

end

end ForkedDatabase

end Foundry.Evm
