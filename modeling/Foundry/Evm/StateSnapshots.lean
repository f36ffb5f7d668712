import Foundry.Base.HashMap
import Foundry.Base.Words

/-!
# Snapshots of states

The store of state snapshots that the databases share, and the two ways to take a
snapshot out of it: with all later ones, or alone.
-/

namespace Foundry.Evm

structure StateSnapshots (T : Type) where
  /-- The next id. -/
  id : U256
  stateSnapshots : HashMap U256 T

instance {T : Type} [DecidableEq T] : DecidableEq (StateSnapshots T) := fun a b =>
  decidable_of_iff (a.id = b.id ∧ a.stateSnapshots = b.stateSnapshots) <| by
    cases a
    cases b
    simp

namespace StateSnapshots

variable {T : Type}

def default : StateSnapshots T := ⟨0, .empty⟩

def get (self : StateSnapshots T) (id : U256) : Option T := self.stateSnapshots.get id

def insert (self : StateSnapshots T) (stateSnapshot : T) : StateSnapshots T × U256 :=
  ({ id := saturatingAdd self.id 1
     stateSnapshots := self.stateSnapshots.insert self.id stateSnapshot }, self.id)

def insertAt (self : StateSnapshots T) (stateSnapshot : T) (id : U256) : StateSnapshots T :=
  { self with stateSnapshots := self.stateSnapshots.insert id stateSnapshot }

/-- The loop of `remove`: drop `to_revert`, `to_revert + 1` and so on up to the next id. -/
def removeFrom (next : U256) (snapshots : HashMap U256 T) (toRevert : U256) :
    HashMap U256 T :=
  if toRevert < next then removeFrom next (snapshots.remove toRevert) (toRevert + 1)
  else snapshots
termination_by next.toNat - toRevert.toNat
decreasing_by
  rename_i hlt
  rw [toNat_add_one_of_lt hlt]
  rw [BitVec.lt_def] at hlt
  omega

def remove (self : StateSnapshots T) (id : U256) : StateSnapshots T × Option T :=
  ({ self with stateSnapshots := removeFrom self.id (self.stateSnapshots.remove id) (id + 1) },
    self.stateSnapshots.get id)

def removeAt (self : StateSnapshots T) (id : U256) : StateSnapshots T × Option T :=
  ({ self with stateSnapshots := self.stateSnapshots.remove id }, self.stateSnapshots.get id)

private theorem get_removeFrom (next : U256) (snapshots : HashMap U256 T) (toRevert k : U256) :
    (removeFrom next snapshots toRevert).get k =
      if toRevert ≤ k ∧ k < next then none else snapshots.get k := by
  induction snapshots, toRevert using removeFrom.induct next with
  | case1 snapshots toRevert hlt ih =>
    rw [removeFrom, if_pos hlt, ih, HashMap.get_remove]
    by_cases hk : k = toRevert
    · have hin : toRevert ≤ k ∧ k < next := by
        rw [hk]
        exact ⟨BitVec.le_refl _, hlt⟩
      rw [if_pos hk, if_pos hin, ite_self]
    rw [if_neg hk]
    have hne : k.toNat ≠ toRevert.toNat := fun h => hk (BitVec.eq_of_toNat_eq h)
    have hiff : toRevert + 1 ≤ k ↔ toRevert ≤ k := by
      rw [BitVec.le_def, BitVec.le_def, toNat_add_one_of_lt hlt]
      omega
    simp only [hiff]
  | case2 snapshots toRevert hge =>
    rw [removeFrom, if_neg hge, if_neg]
    intro ⟨hle, hk⟩
    rw [BitVec.le_def] at hle
    rw [BitVec.lt_def] at hge hk
    omega

section

variable (self : StateSnapshots T) (stateSnapshot : T) (id k : U256)

theorem get_remove : (self.remove id).1.get k =
      if k = id ∨ id + 1 ≤ k ∧ k < self.id then none else self.get k := by
  unfold remove get
  rw [get_removeFrom, HashMap.get_remove]
  by_cases hk : k = id
  · simp [hk]
  · simp [hk]

@[simp] theorem id_remove (id : U256) : (self.remove id).1.id = self.id := rfl

theorem get_removeAt : (self.removeAt id).1.get k = if k = id then none else self.get k :=
  HashMap.get_remove self.stateSnapshots id k

theorem get_insert (k : U256) : (self.insert stateSnapshot).1.get k =
      if k = self.id then some stateSnapshot else self.get k :=
  HashMap.get_insert self.stateSnapshots self.id k stateSnapshot

theorem get_insertAt : (self.insertAt stateSnapshot id).get k =
      if k = id then some stateSnapshot else self.get k :=
  HashMap.get_insert self.stateSnapshots id k stateSnapshot

end

end StateSnapshots

inductive RevertStateSnapshotAction where
  | revertRemove
  | revertKeep
deriving DecidableEq

def RevertStateSnapshotAction.isKeep (action : RevertStateSnapshotAction) : Bool :=
  action == .revertKeep

namespace StateSnapshots

variable {T : Type} (self : StateSnapshots T) (taken : Option T)

/-- The snapshots after one was taken out, which is put back if it is kept. -/
def putBack (self : StateSnapshots T) (taken : Option T) (id : U256)
    (action : RevertStateSnapshotAction) : StateSnapshots T :=
  match taken with
  | none => self
  | some stateSnapshot => if action.isKeep then self.insertAt stateSnapshot id else self

@[simp] theorem id_putBack (id : U256)
    (action : RevertStateSnapshotAction) : (self.putBack taken id action).id = self.id := by
  unfold putBack
  split
  · rfl
  · split <;> rfl

theorem get_putBack (id k : U256) (action : RevertStateSnapshotAction) :
    (self.putBack taken id action).get k =
      if k = id ∧ action.isKeep ∧ taken.isSome then taken else self.get k := by
  unfold putBack
  cases taken with
  | none => simp
  | some stateSnapshot =>
    cases action.isKeep with
    | false => simp
    | true => simp [get_insertAt]

end StateSnapshots

end Foundry.Evm
