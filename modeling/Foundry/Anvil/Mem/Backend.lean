import Foundry.Anvil.Mem.MemDb
import Foundry.Anvil.Mem.Mining

/-!
# Snapshots of the anvil backend

`evm_snapshot` and `evm_revert` over the in-memory database.  The ids of the snapshots
are kept twice: the backend maps them to the block at which they were taken, the database
maps them to the account state.
-/

namespace Foundry.Anvil.Mem

inductive BlockchainError where
  | blockNotFound
deriving DecidableEq

structure Backend (S : Type) where
  chain : Chain
  db : MemDb S
  /-- Snapshot id to the number and hash of the best block. -/
  activeStateSnapshots : HashMap U256 (U64 × B256)

namespace Backend

variable {S : Type}

/-- Mines a block; `state` is the account state after its execution. -/
def mineBlock (config : Config) (self : Backend S) (executed : Executed) (state : S) :
    Backend S :=
  { self with
    chain := self.chain.doMineBlock config executed
    db := { self.db with inner := state } }

def createStateSnapshot (self : Backend S) : Backend S × U256 :=
  let num := self.chain.storage.bestNumber
  let hash := self.chain.storage.bestHash
  let (db, id) := self.db.snapshotState
  ({ self with
      db := db
      activeStateSnapshots := self.activeStateSnapshots.insert id (num, hash) }, id)

def revertedEnv (env : BlockEnv) (num : U64) (header : Header) : BlockEnv where
  number := num.setWidth 256
  timestamp := header.timestamp.setWidth 256
  difficulty := header.difficulty
  prevrandao := some header.mixHash
  gasLimit := header.gasLimit
  beneficiary := env.beneficiary
  basefee := env.basefee

def revertStateSnapshot (self : Backend S) (id : U256) :
    Backend S × Except BlockchainError Bool :=
  let active := self.activeStateSnapshots.remove id
  match self.activeStateSnapshots.get id with
  | none =>
    let (db, reverted) := self.db.revertState id .revertRemove
    ({ self with db := db, activeStateSnapshots := active }, .ok reverted)
  | some (num, hash) =>
    let storage := self.chain.storage.revertTo num hash
    match storage.blocks.get hash with
    | none =>
      ({ self with
          chain := { self.chain with storage := storage }
          activeStateSnapshots := active }, .error .blockNotFound)
    | some block =>
      let (db, reverted) := self.db.revertState id .revertRemove
      ({ chain := ⟨storage, revertedEnv self.chain.env num block.header⟩
         db := db
         activeStateSnapshots := active }, .ok reverted)

/-! ## Runs -/

inductive Op (S : Type) where
  | mineBlock (executed : Executed) (state : S)
  | createStateSnapshot
  | revertStateSnapshot (id : U256)

def step (config : Config) (self : Backend S) : Op S → Backend S
  | .mineBlock executed state => self.mineBlock config executed state
  | .createStateSnapshot => self.createStateSnapshot.1
  | .revertStateSnapshot id => (self.revertStateSnapshot id).1

def run (config : Config) (self : Backend S) (ops : List (Op S)) : Backend S :=
  ops.foldl (step config) self

/-- The snapshots that can be reverted to, oldest first, as a client counts them: a revert
to one of them uses it and all that were taken after it. -/
def track (self : Backend S) (live : List U256) : Op S → List U256
  | .mineBlock _ _ => live
  | .createStateSnapshot => live ++ [self.createStateSnapshot.2]
  | .revertStateSnapshot id => if id ∈ live then live.takeWhile (· ≠ id) else live

/-- `P` holds of every request, the state it is made in and the snapshots live there. -/
def EveryStep (config : Config) (P : Backend S → List U256 → Op S → Prop) :
    Backend S → List U256 → List (Op S) → Prop
  | _, _, [] => True
  | self, live, op :: ops =>
    P self live op ∧ EveryStep config P (self.step config op) (self.track live op) ops

instance decidableEveryStep (config : Config) (P : Backend S → List U256 → Op S → Prop)
    [∀ backend live op, Decidable (P backend live op)] :
    (self : Backend S) → (live : List U256) → (ops : List (Op S)) →
      Decidable (EveryStep config P self live ops)
  | _, _, [] => isTrue trivial
  | self, live, op :: ops =>
    have := decidableEveryStep config P (self.step config op) (self.track live op) ops
    inferInstanceAs (Decidable (_ ∧ _))

/-- The best hash names a stored block with the best number. -/
def BestStored (self : Backend S) : Prop :=
  ∃ block, self.chain.storage.blocks.get self.chain.storage.bestHash = some block ∧
    block.header.number = self.chain.storage.bestNumber

/-- A revert to a snapshot that is not live changes neither the chain nor the accounts. -/
def IgnoresSpent (self : Backend S) (live : List U256) : Op S → Prop
  | .revertStateSnapshot id => id ∉ live →
      (self.revertStateSnapshot id).1.chain.storage = self.chain.storage ∧
        (self.revertStateSnapshot id).1.db.inner = self.db.inner
  | _ => True

end Backend

end Foundry.Anvil.Mem
