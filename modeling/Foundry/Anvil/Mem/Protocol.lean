import Foundry.Anvil.Mem.MemDb
import Foundry.Evm.ForkedDatabase

/-!
# The snapshot protocol of the two databases

A node runs on the in-memory database or on a forked one.  Both answer the same commands;
they keep the same snapshots exactly as long as no revert has a later snapshot to drop.
-/

namespace Foundry.Anvil.Mem

open Evm

inductive Command where
  | snapshotState
  | revertState (id : U256) (action : RevertStateSnapshotAction)

inductive Response where
  | id (id : U256)
  | reverted (success : Bool)

variable {S L A : Type}

def MemDb.exec (self : MemDb S) : Command → MemDb S × Response
  | .snapshotState => (self.snapshotState.1, .id self.snapshotState.2)
  | .revertState id action =>
    ((self.revertState id action).1, .reverted (self.revertState id action).2)

def execForked (self : ForkedDatabase L A) : Command → ForkedDatabase L A × Response
  | .snapshotState => (self.insertStateSnapshot.1, .id self.insertStateSnapshot.2)
  | .revertState id action =>
    ((self.revertStateSnapshot id action).1, .reverted (self.revertStateSnapshot id action).2)

/-- `P` holds at every command of a sequence that both databases execute. -/
def EveryCommand (P : MemDb S → ForkedDatabase L A → Command → Prop) :
    MemDb S → ForkedDatabase L A → List Command → Prop
  | _, _, [] => True
  | mem, fork, c :: cs => P mem fork c ∧ EveryCommand P (mem.exec c).1 (execForked fork c).1 cs

/-- The command has the same result in both databases and leaves the same ids revertible, and
a revert to a dead id removes no snapshot. -/
structure SameStep (mem : MemDb S) (fork : ForkedDatabase L A) (c : Command) : Prop where
  response : (mem.exec c).2 = (execForked fork c).2
  live : ∀ id, ((mem.exec c).1.stateSnapshots.get id).isSome =
    ((execForked fork c).1.stateSnapshots.get id).isSome
  dead : ∀ id action, c = .revertState id action → mem.stateSnapshots.get id = none →
    ∀ k, (mem.exec c).1.stateSnapshots.get k = mem.stateSnapshots.get k
  dead_forked : ∀ id action, c = .revertState id action → fork.stateSnapshots.get id = none →
    ∀ k, (execForked fork c).1.stateSnapshots.get k = fork.stateSnapshots.get k

/-- A revert finds no live snapshot between `id + 1` and the next id.  The sum wraps. -/
def NoneLater (mem : MemDb S) : Command → Prop
  | .snapshotState => True
  | .revertState id _ => ∀ j, mem.stateSnapshots.get j ≠ none →
      ¬ (id + 1 ≤ j ∧ j < mem.stateSnapshots.id)

/-- The databases have issued the same ids and hold snapshots under the same ids. -/
structure Linked (mem : MemDb S) (fork : ForkedDatabase L A) : Prop where
  id : mem.stateSnapshots.id = fork.stateSnapshots.id
  live : ∀ k, (mem.stateSnapshots.get k).isSome = (fork.stateSnapshots.get k).isSome

variable {mem : MemDb S} {fork : ForkedDatabase L A}

private theorem id_exec (hlink : Linked mem fork) (c : Command) :
    (mem.exec c).1.stateSnapshots.id = (execForked fork c).1.stateSnapshots.id := by
  cases c with
  | snapshotState =>
    show saturatingAdd mem.stateSnapshots.id 1 = saturatingAdd fork.stateSnapshots.id 1
    rw [hlink.id]
  | revertState id action =>
    show (mem.revertState id action).1.stateSnapshots.id = _
    rw [MemDb.id_revertState, hlink.id]
    exact (ForkedDatabase.id_revertStateSnapshot fork id action).symm

theorem sameStep_snapshotState (hlink : Linked mem fork) : SameStep mem fork .snapshotState where
  response := congrArg Response.id hlink.id
  live := by
    intro id
    show ((mem.stateSnapshots.insert mem.inner).1.get id).isSome =
      ((fork.stateSnapshots.insert fork.createStateSnapshot).1.get id).isSome
    rw [StateSnapshots.get_insert, StateSnapshots.get_insert, hlink.id]
    split
    · rfl
    · exact hlink.live id
  dead := by
    intro id action hc
    cases hc
  dead_forked := by
    intro id action hc
    cases hc

theorem get_revertState_of_noneLater {id : U256} {action : RevertStateSnapshotAction}
    (hnone : NoneLater mem (.revertState id action)) (k : U256) :
    (mem.revertState id action).1.stateSnapshots.get k =
      if k = id ∧ action.isKeep = false then none else mem.stateSnapshots.get k := by
  rw [MemDb.get_revertState]
  by_cases hk : k = id
  · rw [hk]
    cases action.isKeep with
    | false => simp
    | true => simp
  have hnot : ¬ (k = id ∧ action.isKeep = false) := fun h => hk h.1
  rw [if_neg hk]
  split
  · next hin =>
    cases hget : mem.stateSnapshots.get k with
    | none => rfl
    | some s => exact absurd hin (hnone k (by rw [hget]; simp))
  · rfl

/-- Both databases do the same if no later snapshot is live. -/
theorem sameStep_of_noneLater (hlink : Linked mem fork) {c : Command}
    (hnone : NoneLater mem c) : SameStep mem fork c := by
  cases c with
  | snapshotState => exact sameStep_snapshotState hlink
  | revertState id action =>
    have hget := get_revertState_of_noneLater hnone
    constructor
    case response =>
      show Response.reverted (mem.revertState id action).2 =
        .reverted (fork.revertStateSnapshot id action).2
      rw [MemDb.revertState_eq, ForkedDatabase.revertStateSnapshot_eq, hlink.live id]
    case live =>
      intro k
      show ((mem.revertState id action).1.stateSnapshots.get k).isSome =
        ((fork.revertStateSnapshot id action).1.stateSnapshots.get k).isSome
      rw [hget, ForkedDatabase.get_revertStateSnapshot]
      split
      · rfl
      · exact hlink.live k
    case dead =>
      intro _ _ hc hdead k
      cases hc
      show (mem.revertState id action).1.stateSnapshots.get k = mem.stateSnapshots.get k
      rw [hget]
      split
      · next h => rw [h.1, hdead]
      · rfl
    case dead_forked =>
      intro _ _ hc hdead k
      cases hc
      show (fork.revertStateSnapshot id action).1.stateSnapshots.get k = fork.stateSnapshots.get k
      rw [ForkedDatabase.get_revertStateSnapshot]
      split
      · next h => rw [h.1, hdead]
      · rfl

theorem noneLater_of_sameStep (hlink : Linked mem fork) {c : Command}
    (hsame : SameStep mem fork c) : NoneLater mem c := by
  cases c with
  | snapshotState => trivial
  | revertState id action =>
    intro j hj hlater
    have hne : j ≠ id := by
      intro heq
      rw [heq] at hlater
      have hle := hlater.1
      rw [BitVec.le_def, toNat_add_one_of_lt hlater.2] at hle
      omega
    have hmem : (mem.revertState id action).1.stateSnapshots.get j = none := by
      rw [MemDb.get_revertState, if_neg hne, if_pos hlater]
    have hfork : (fork.revertStateSnapshot id action).1.stateSnapshots.get j =
        fork.stateSnapshots.get j := by
      rw [ForkedDatabase.get_revertStateSnapshot, if_neg (fun h => hne h.1)]
    have hlive : ((mem.revertState id action).1.stateSnapshots.get j).isSome =
        ((fork.revertStateSnapshot id action).1.stateSnapshots.get j).isSome := hsame.live j
    rw [hmem, hfork, ← hlink.live j] at hlive
    exact hj (Option.not_isSome_iff_eq_none.mp (by rw [← hlive]; simp))

/-- The databases run the same protocol on a sequence of commands, with any contents, if and
only if no revert of the sequence finds a later snapshot. -/
theorem sameProtocol_iff_noneLater (state : S) (cacheDb : L) (db : StateSnapshot A)
    (commands : List Command) :
    EveryCommand SameStep (⟨state, .default⟩ : MemDb S)
        (⟨cacheDb, db, .default⟩ : ForkedDatabase L A) commands ↔
      EveryCommand (fun mem _ c => NoneLater mem c) (⟨state, .default⟩ : MemDb S)
        (⟨cacheDb, db, .default⟩ : ForkedDatabase L A) commands := by
  suffices hgeneral : ∀ (mem : MemDb S) (fork : ForkedDatabase L A), Linked mem fork →
      (EveryCommand SameStep mem fork commands ↔
        EveryCommand (fun mem _ c => NoneLater mem c) mem fork commands) from
    hgeneral _ _ ⟨rfl, fun _ => rfl⟩
  induction commands with
  | nil => exact fun _ _ _ => Iff.rfl
  | cons c commands ih =>
    intro mem fork hlink
    constructor
    · intro ⟨hsame, hrest⟩
      exact ⟨noneLater_of_sameStep hlink hsame, (ih _ _ ⟨id_exec hlink c, hsame.live⟩).mp hrest⟩
    · intro ⟨hnone, hrest⟩
      have hsame := sameStep_of_noneLater hlink hnone
      exact ⟨hsame, (ih _ _ ⟨id_exec hlink c, hsame.live⟩).mpr hrest⟩

def revertFirst : List Command := [.snapshotState, .snapshotState, .revertState 0 .revertRemove]

/-- The in-memory database has dropped snapshot 1, the forked one has not. -/
theorem revertFirst_not_same :
    ¬ EveryCommand SameStep (⟨(), .default⟩ : MemDb Unit)
      (⟨(), ⟨.empty, .empty, .empty⟩, .default⟩ : ForkedDatabase Unit Unit) revertFirst := by
  intro ⟨_, _, hsame, _⟩
  have hlive := hsame.live 1
  revert hlive
  decide +kernel

end Foundry.Anvil.Mem
