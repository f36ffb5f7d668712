import Foundry.Evm.StateSnapshots

/-!
# The in-memory database

Its snapshots, with the effect of a revert on every other snapshot.
-/

namespace Foundry.Anvil.Mem

open Evm

/-- The in-memory database; what it stores about accounts is a parameter. -/
structure MemDb (S : Type) where
  inner : S
  stateSnapshots : StateSnapshots S

namespace MemDb

variable {S : Type}

section

variable (self : MemDb S) (id : U256) (action : RevertStateSnapshotAction)

def snapshotState : MemDb S × U256 :=
  let (stateSnapshots, id) := self.stateSnapshots.insert self.inner
  ({ self with stateSnapshots := stateSnapshots }, id)

def revertState (id : U256) (action : RevertStateSnapshotAction) : MemDb S × Bool :=
  match self.stateSnapshots.remove id with
  | (stateSnapshots, none) => ({ self with stateSnapshots := stateSnapshots }, false)
  | (stateSnapshots, some stateSnapshot) =>
    ({ inner := stateSnapshot
       stateSnapshots :=
        if action.isKeep then stateSnapshots.insertAt stateSnapshot id
        else stateSnapshots }, true)

theorem revertState_eq :
    self.revertState id action =
      (⟨(self.stateSnapshots.get id).getD self.inner,
        (self.stateSnapshots.remove id).1.putBack (self.stateSnapshots.get id) id action⟩,
        (self.stateSnapshots.get id).isSome) := by
  simp only [revertState, StateSnapshots.remove, StateSnapshots.get]
  cases self.stateSnapshots.stateSnapshots.get id <;> rfl

@[simp] theorem id_revertState :
    (self.revertState id action).1.stateSnapshots.id = self.stateSnapshots.id := by
  rw [revertState_eq, StateSnapshots.id_putBack, StateSnapshots.id_remove]

/-- A revert drops the snapshot, unless it is kept, and those from `id + 1` to the next id. -/
theorem get_revertState (id k : U256) (action : RevertStateSnapshotAction) :
    (self.revertState id action).1.stateSnapshots.get k =
      if k = id then if action.isKeep then self.stateSnapshots.get id else none
      else if id + 1 ≤ k ∧ k < self.stateSnapshots.id then none
      else self.stateSnapshots.get k := by
  rw [revertState_eq, StateSnapshots.get_putBack, StateSnapshots.get_remove]
  by_cases hk : k = id
  · cases action.isKeep <;> cases self.stateSnapshots.get id <;> simp [hk]
  · simp only [hk, false_and, false_or, if_false]

end

end MemDb

end Foundry.Anvil.Mem
