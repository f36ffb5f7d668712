import Foundry.Base.HashMap
import Foundry.Base.Words

/-!
# In-memory blockchain storage

Blocks by hash, block hashes by number and mined transactions by hash, with the two
ways in which anvil takes blocks off the end of the chain: `unwind_to`, used for
reorgs, and the loop that a snapshot revert runs.
-/

namespace Foundry.Anvil.Mem

structure Header where
  difficulty : U256
  number : U64
  gasLimit : U64
  timestamp : U64
  mixHash : B256
deriving DecidableEq

structure Block where
  header : Header
  transactions : List B256
deriving DecidableEq

structure MinedTransaction where
  transactionHash : B256
  blockHash : B256
  blockNumber : U64
deriving DecidableEq

structure BlockchainStorage where
  /-- Block hash to block. -/
  blocks : HashMap B256 Block
  /-- Block number to block hash. -/
  hashes : HashMap U64 B256
  bestHash : B256
  bestNumber : U64
  genesisHash : B256
  transactions : HashMap B256 MinedTransaction
  totalDifficulty : U256
deriving DecidableEq

def Block.cleared (block : Block) : Block := { block with transactions := [] }

@[simp] theorem map_cleared_cleared (b : Option Block) :
    (b.map Block.cleared).map Block.cleared = b.map Block.cleared := by
  cases b with
  | none => rfl
  | some b => rfl

namespace BlockchainStorage

def new (genesis : Header) (genesisHash : B256) : BlockchainStorage where
  blocks := HashMap.empty.insert genesisHash ⟨genesis, []⟩
  hashes := HashMap.empty.insert genesis.number genesisHash
  bestHash := genesisHash
  bestNumber := genesis.number
  genesisHash := genesisHash
  transactions := .empty
  totalDifficulty := 0

def forked (blockNumber : U64) (blockHash : B256) (totalDifficulty : U256) :
    BlockchainStorage where
  blocks := .empty
  hashes := HashMap.empty.insert blockNumber blockHash
  bestHash := blockHash
  bestNumber := blockNumber
  genesisHash := 0
  transactions := .empty
  totalDifficulty := totalDifficulty

def removeBlockTransactions (self : BlockchainStorage) (blockHash : B256) :
    BlockchainStorage :=
  match self.blocks.get blockHash with
  | none => self
  | some block =>
    { self with
      transactions := block.transactions.foldl HashMap.remove self.transactions
      blocks := self.blocks.insert blockHash block.cleared }

def removeBlockTransactionsByNumber (self : BlockchainStorage) (num : U64) :
    BlockchainStorage :=
  match self.hashes.get num with
  | none => self
  | some hash => self.removeBlockTransactions hash

/-- One turn of the loop of `unwind_to`. -/
def unwindStep (acc : BlockchainStorage × List Block) (i : U64) :
    BlockchainStorage × List Block :=
  let (self, removed) := acc
  match self.hashes.get i with
  | none => (self, removed)
  | some hash =>
    let self := { self with hashes := self.hashes.remove i }
    match self.blocks.get hash with
    | none => (self, removed)
    | some block =>
      let self := { self with blocks := self.blocks.remove hash }
      (self.removeBlockTransactionsByNumber block.header.number, removed ++ [block])

section

variable (self : BlockchainStorage)

/-- Unwind the chain back to the given block, which stays; also the removed blocks. -/
def unwindTo (blockNumber : U64) (blockHash : B256) : BlockchainStorage × List Block :=
  let (self, removed) :=
    (rangeInclusive (blockNumber + 1) self.bestNumber).foldl unwindStep (self, [])
  ({ self with bestHash := blockHash, bestNumber := blockNumber }, removed)

/-- One turn of the loop of `Backend::revert_state_snapshot`. -/
def revertStep (n : U64) : BlockchainStorage :=
  match self.hashes.get n with
  | none => self
  | some hash =>
    let self := { self with hashes := self.hashes.remove n }
    match self.blocks.get hash with
    | none => self
    | some block =>
      { self with
        blocks := self.blocks.remove hash
        transactions := block.transactions.foldl HashMap.remove self.transactions }

/-- The part of `Backend::revert_state_snapshot` that reverts the storage that is newer
than the snapshot. -/
def revertTo (num : U64) (hash : B256) : BlockchainStorage :=
  { (rangeInclusive (num + 1) self.bestNumber).reverse.foldl revertStep self with
    bestNumber := num
    bestHash := hash }

/-- Of `Backend::do_mine_block`: the difficulty of a block before the merge. -/
def addDifficulty (difficulty : U256) : BlockchainStorage :=
  { self with totalDifficulty := saturatingAdd self.totalDifficulty difficulty }

/-- Of `Backend::do_mine_block`: store the new block and index its transactions. -/
def insertBlock (blockNumber : U64) (blockHash : B256) (block : Block) : BlockchainStorage :=
  { self with
    bestNumber := blockNumber
    bestHash := blockHash
    blocks := self.blocks.insert blockHash block
    hashes := self.hashes.insert blockNumber blockHash
    transactions := block.transactions.foldl
      (fun index tx => index.insert tx ⟨tx, blockHash, blockNumber⟩) self.transactions }

/-- Of `Backend::do_mine_block`: remove old transactions that exceed the transaction block
keeper. -/
def keepTransactions (blockNumber : U64) : Option U64 →
    BlockchainStorage
  | none => self
  | some keeper =>
    if keeper.toNat < self.blocks.keys.card then
      self.removeBlockTransactionsByNumber (saturatingSub blockNumber keeper)
    else self

end

/-! ## Lookups -/

def blockAt (s : BlockchainStorage) (i : U64) : Option Block := (s.hashes.get i).bind s.blocks.get

def listed (s : BlockchainStorage) (hash : B256) : List B256 :=
  (s.blocks.get hash).elim [] Block.transactions

theorem mem_listed {s : BlockchainStorage} {hash t : B256} :
    t ∈ s.listed hash ↔ ∃ b, s.blocks.get hash = some b ∧ t ∈ b.transactions := by
  unfold listed
  cases s.blocks.get hash with
  | none => simp
  | some b => simp

theorem get_foldl_remove {V : Type} (m : HashMap B256 V) (txs : List B256) (t : B256) :
    (txs.foldl HashMap.remove m).get t = if t ∈ txs then none else m.get t := by
  induction txs generalizing m with
  | nil => simp
  | cons x txs ih =>
    rw [List.foldl_cons, ih, HashMap.get_remove]
    by_cases hx : t = x
    · simp [hx]
    · simp [hx]

section RemoveTransactions

variable (s : BlockchainStorage) (hash : B256)

theorem transactions_removeBlockTransactions (hash t : B256) :
    (s.removeBlockTransactions hash).transactions.get t =
      if t ∈ s.listed hash then none else s.transactions.get t := by
  unfold removeBlockTransactions listed
  cases s.blocks.get hash with
  | none => simp
  | some b => exact get_foldl_remove s.transactions b.transactions t

theorem blocks_removeBlockTransactions (hash k : B256) :
    (s.removeBlockTransactions hash).blocks.get k =
      if k = hash then (s.blocks.get k).map Block.cleared else s.blocks.get k := by
  unfold removeBlockTransactions
  cases hget : s.blocks.get hash with
  | none =>
    by_cases hk : k = hash
    · rw [if_pos hk, hk, hget, Option.map_none]
    · rw [if_neg hk]
  | some b =>
    rw [HashMap.get_insert]
    by_cases hk : k = hash
    · rw [if_pos hk, if_pos hk, hk, hget, Option.map_some]
    · rw [if_neg hk, if_neg hk]

@[simp] theorem hashes_removeBlockTransactions :
    (s.removeBlockTransactions hash).hashes = s.hashes := by
  unfold removeBlockTransactions
  split <;> rfl

@[simp] theorem bestNumber_removeBlockTransactions :
    (s.removeBlockTransactions hash).bestNumber = s.bestNumber := by
  unfold removeBlockTransactions
  split <;> rfl

@[simp] theorem bestHash_removeBlockTransactions :
    (s.removeBlockTransactions hash).bestHash = s.bestHash := by
  unfold removeBlockTransactions
  split <;> rfl

def headerAt (hash : B256) : Option Header := (s.blocks.get hash).map Block.header

@[simp] theorem headerAt_removeBlockTransactions (hash k : B256) :
    (s.removeBlockTransactions hash).headerAt k = s.headerAt k := by
  unfold headerAt
  rw [blocks_removeBlockTransactions]
  split
  · rw [Option.map_map]
    rfl
  · rfl

theorem keepTransactions_frame (blockNumber : U64) (keeper : Option U64) :
    (s.keepTransactions blockNumber keeper).hashes = s.hashes ∧
      (s.keepTransactions blockNumber keeper).bestNumber = s.bestNumber ∧
      (s.keepTransactions blockNumber keeper).bestHash = s.bestHash ∧
      ∀ k, (s.keepTransactions blockNumber keeper).headerAt k = s.headerAt k := by
  unfold keepTransactions removeBlockTransactionsByNumber
  split
  · exact ⟨rfl, rfl, rfl, fun _ => rfl⟩
  · split
    · split
      · exact ⟨rfl, rfl, rfl, fun _ => rfl⟩
      · simp
    · exact ⟨rfl, rfl, rfl, fun _ => rfl⟩

end RemoveTransactions

end BlockchainStorage

end Foundry.Anvil.Mem
