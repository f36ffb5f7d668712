import Foundry.Anvil.Mem.BlockStates

/-!
# Limits of the historical states

The limits reach the store through optional settings of the node.  A limit of 0 states in memory
makes the loop that enforces it run for ever, because it goes on when there is nothing to evict.
-/

namespace Foundry.Anvil.Mem

def defaultHistoryLimit : Nat := 500

def maxOnDiskHistoryLimit : Nat := 3600

structure PruneStateHistoryConfig where
  enabled : Bool
  maxMemoryHistory : Option Nat
deriving DecidableEq

def PruneStateHistoryConfig.fromArgs : Option (Option Nat) → PruneStateHistoryConfig
  | some maxMemoryHistory => ⟨true, maxMemoryHistory⟩
  | none => ⟨false, none⟩

namespace InMemoryBlockStates

variable {S T : Type}

def default : InMemoryBlockStates S T := new defaultHistoryLimit maxOnDiskHistoryLimit

def memoryOnly (self : InMemoryBlockStates S T) : InMemoryBlockStates S T :=
  { self with maxOnDiskLimit := 0 }

def withGenesis (pruneStateHistoryConfig : PruneStateHistoryConfig)
    (maxPersistedStates : Option Nat) : InMemoryBlockStates S T :=
  if pruneStateHistoryConfig.enabled then
    ((pruneStateHistoryConfig.maxMemoryHistory.map fun limit =>
      new limit 0).getD default).memoryOnly
  else (maxPersistedStates.map fun limit => new defaultHistoryLimit limit).getD default

section

variable (db : SnapshotDb S T) (self : InMemoryBlockStates S T)

/-- The block time is in seconds. -/
def updateIntervalMineBlockTime (blockTime : Nat) : Option (InMemoryBlockStates S T) :=
  if blockTime ≤ 2 then { self with inMemoryLimit := defaultHistoryLimit * 3 }.enforceLimits db
  else some self

def loadStates (fresh : S) (states : List (B256 × T)) : Option (InMemoryBlockStates S T) :=
  states.foldlM (fun self entry => self.insert db entry.1 (db.initFromStateSnapshot fresh entry.2))
    self

end

inductive LimitCall (S T : Type) where
  | enforceLimits
  | insert (hash : B256) (state : S)
  | updateIntervalMineBlockTime (blockTime : Nat)
  | loadStates (fresh : S) (states : List (B256 × T))

def LimitCall.apply (db : SnapshotDb S T) (self : InMemoryBlockStates S T) :
    LimitCall S T → Option (InMemoryBlockStates S T)
  | .enforceLimits => self.enforceLimits db
  | .insert hash state => self.insert db hash state
  | .updateIntervalMineBlockTime blockTime => self.updateIntervalMineBlockTime db blockTime
  | .loadStates fresh states => self.loadStates db fresh states

/-- Both limits leave room for a state in memory. -/
def Roomy (self : InMemoryBlockStates S T) : Prop :=
  0 < self.inMemoryLimit ∧ 0 < self.minInMemoryLimit

variable {db : SnapshotDb S T} {self : InMemoryBlockStates S T}

theorem minInMemoryLimit_evict (db : SnapshotDb S T) (self : InMemoryBlockStates S T)
    (hash : B256) : (self.evict db hash).minInMemoryLimit = self.minInMemoryLimit := by
  unfold InMemoryBlockStates.evict
  split
  · rfl
  · dsimp only
    split <;> rfl

theorem Roomy.evictFrom (h : self.Roomy) (db : SnapshotDb S T) (present : List B256) :
    ∃ next, self.evictFrom db present = some next ∧ next.Roomy := by
  induction present generalizing self with
  | nil => exact ⟨{ self with present := [] }, if_pos h.1, h⟩
  | cons hash present ih =>
    rw [InMemoryBlockStates.evictFrom]
    split
    · exact ⟨_, rfl, h⟩
    · apply ih
      rwa [Roomy, inMemoryLimit_evict, minInMemoryLimit_evict]

theorem Roomy.purgeFrom (h : self.Roomy) (oldestOnDisk : List B256) :
    (self.purgeFrom oldestOnDisk).Roomy := by
  induction oldestOnDisk generalizing self with
  | nil => exact h
  | cons hash oldestOnDisk ih =>
    rw [InMemoryBlockStates.purgeFrom]
    split
    · exact h
    · exact ih h

theorem Roomy.enforceLimits (h : self.Roomy) (db : SnapshotDb S T) :
    ∃ next, self.enforceLimits db = some next ∧ next.Roomy := by
  obtain ⟨next, hnext, hroomy⟩ := h.evictFrom db self.present
  rw [InMemoryBlockStates.enforceLimits, hnext]
  refine ⟨_, rfl, ?_⟩
  split
  · exact hroomy
  · exact hroomy.purgeFrom _

theorem Roomy.insert (h : self.Roomy) (db : SnapshotDb S T) (hash : B256) (state : S) :
    ∃ next, self.insert db hash state = some next ∧ next.Roomy := by
  have hlower : { self with inMemoryLimit := self.lowerLimit }.Roomy := by
    refine ⟨?_, h.2⟩
    have hmemory := h.1
    have hmin := h.2
    simp only [lowerLimit]
    split <;> omega
  obtain ⟨next, hnext, hroomy⟩ := hlower.enforceLimits db
  rw [InMemoryBlockStates.insert, hnext]
  exact ⟨_, rfl, hroomy⟩

theorem Roomy.apply (h : self.Roomy) (db : SnapshotDb S T) (call : LimitCall S T) :
    ∃ next, call.apply db self = some next ∧ next.Roomy := by
  cases call with
  | enforceLimits => exact h.enforceLimits db
  | insert hash state => exact h.insert db hash state
  | updateIntervalMineBlockTime blockTime =>
    simp only [LimitCall.apply, updateIntervalMineBlockTime]
    split
    · have hraised : { self with inMemoryLimit := defaultHistoryLimit * 3 }.Roomy :=
        ⟨(by decide : 0 < 1500), h.2⟩
      exact hraised.enforceLimits db
    · exact ⟨self, rfl, h⟩
  | loadStates fresh states =>
    simp only [LimitCall.apply, loadStates]
    induction states generalizing self with
    | nil => exact ⟨self, rfl, h⟩
    | cons entry states ih =>
      obtain ⟨next, hnext, hroomy⟩ := h.insert db entry.1 (db.initFromStateSnapshot fresh entry.2)
      rw [List.foldlM_cons, hnext]
      exact ih hroomy

/-- All calls return, whatever the store holds under the limits of `self`. -/
def Terminates (db : SnapshotDb S T) (self : InMemoryBlockStates S T) : Prop :=
  ∀ (content : InMemoryBlockStates S T) (calls : List (LimitCall S T)),
    content.inMemoryLimit = self.inMemoryLimit → content.minInMemoryLimit = self.minInMemoryLimit →
    content.maxOnDiskLimit = self.maxOnDiskLimit →
    (calls.foldlM (LimitCall.apply db) content).isSome

theorem terminates_of_roomy (h : self.Roomy) (db : SnapshotDb S T) : self.Terminates db := by
  intro content calls hmemory hmin hdisk
  have hroomy : content.Roomy := by rwa [Roomy, hmemory, hmin]
  clear hmemory hmin hdisk
  induction calls generalizing content with
  | nil => rfl
  | cons call calls ih =>
    obtain ⟨next, hnext, hnextRoomy⟩ := hroomy.apply db call
    rw [List.foldlM_cons, hnext]
    exact ih next hnextRoomy

theorem roomy_withGenesis {config : PruneStateHistoryConfig} {maxPersistedStates : Option Nat}
    (h : ¬ (config.enabled = true ∧ config.maxMemoryHistory = some 0)) :
    (withGenesis config maxPersistedStates : InMemoryBlockStates S T).Roomy := by
  have hdefault : (default : InMemoryBlockStates S T).Roomy :=
    ⟨(by decide : 0 < 500), (by decide : 0 < 10)⟩
  unfold withGenesis
  split
  · next henabled =>
    cases hlimit : config.maxMemoryHistory with
    | none => exact hdefault
    | some limit =>
      have hpos : limit ≠ 0 := fun hzero => h ⟨henabled, by rw [hlimit, hzero]⟩
      constructor <;> simp [memoryOnly, new, configured, minHistoryLimit] <;> omega
  · cases maxPersistedStates with
    | none => exact hdefault
    | some limit => exact hdefault

/-- The calls return for every content and in every order if and only if the node is not started
with a limit of 0 states in memory. -/
theorem terminates_withGenesis_iff (db : SnapshotDb S T) (config : PruneStateHistoryConfig)
    (maxPersistedStates : Option Nat) :
    (withGenesis config maxPersistedStates).Terminates db ↔
      ¬ (config.enabled = true ∧ config.maxMemoryHistory = some 0) := by
  constructor
  · rintro hterminates ⟨henabled, hlimit⟩
    have hsome := hterminates (withGenesis config maxPersistedStates) [.enforceLimits] rfl rfl rfl
    have hzero : (withGenesis config maxPersistedStates : InMemoryBlockStates S T).inMemoryLimit =
        0 := by
      rw [withGenesis, if_pos henabled, hlimit]
      rfl
    simp [LimitCall.apply, InMemoryBlockStates.enforceLimits, evictFrom_of_limit_zero hzero]
      at hsome
  · intro h
    exact terminates_of_roomy (roomy_withGenesis h) db

theorem not_terminates_pruned_to_zero :
    ¬ (withGenesis (.fromArgs (some (some 0))) none).Terminates copied := by
  intro h
  have hsome := h (withGenesis (.fromArgs (some (some 0))) none) [.insert 1 10] rfl rfl rfl
  revert hsome
  decide +kernel

end InMemoryBlockStates

end Foundry.Anvil.Mem
