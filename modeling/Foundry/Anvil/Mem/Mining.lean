import Foundry.Anvil.Mem.Storage

/-!
# Mining

`do_mine_block` numbers a block twice: the storage counts from its best number, the
header takes the number of the block environment.  What the executor, the clock and the
fee manager contribute to a block is an input.
-/

namespace Foundry.Anvil.Mem

open HashMap

structure BlockEnv where
  number : U256
  beneficiary : Address
  timestamp : U256
  gasLimit : U64
  basefee : U64
  difficulty : U256
  prevrandao : Option B256
deriving DecidableEq

structure Config where
  isArbitrum : Bool
  isEip3675 : Bool
  transactionBlockKeeper : Option U64
deriving DecidableEq

structure Chain where
  storage : BlockchainStorage
  env : BlockEnv
deriving DecidableEq

/-- What a new block gets from outside the storage: its hash, the transactions that were
executed, the next timestamp, the current base fee and the random value. -/
structure Executed where
  hash : B256
  transactions : List B256
  timestamp : U64
  basefee : U64
  prevrandao : B256
deriving DecidableEq

def BlockEnv.header (env : BlockEnv) : Header where
  difficulty := env.difficulty
  number := saturatingTo 64 env.number
  gasLimit := env.gasLimit
  timestamp := saturatingTo 64 env.timestamp
  mixHash := env.prevrandao.getD 0

namespace Chain

def nextNumber (self : Chain) : U64 := saturatingAdd self.storage.bestNumber 1

def nextEnv (config : Config) (self : Chain) (executed : Executed) : BlockEnv :=
  { self.env with
    number :=
      if config.isArbitrum then self.nextNumber.setWidth 256
      else saturatingAdd self.env.number 1
    basefee := executed.basefee
    prevrandao := some executed.prevrandao
    timestamp := executed.timestamp.setWidth 256 }

/-- The storage part of `do_mine_block`, after the execution. -/
def doMineBlock (config : Config) (self : Chain) (executed : Executed) : Chain :=
  let env := self.nextEnv config executed
  let block : Block := ⟨env.header, executed.transactions⟩
  let storage :=
    if config.isEip3675 then self.storage
    else self.storage.addDifficulty block.header.difficulty
  let storage := storage.insertBlock self.nextNumber executed.hash block
  { storage := storage.keepTransactions self.nextNumber config.transactionBlockKeeper
    env := { env with difficulty := 0 } }

end Chain

namespace BlockchainStorage

/-- The hash names no block that the storage knows of. -/
def Fresh (s : BlockchainStorage) (hash : B256) : Prop :=
  s.blocks.get hash = none ∧ ∀ n ∈ s.hashes.keys, s.hashes.get n ≠ some hash

-- through the key set: words have an instance of their own that tries all of them
instance (s : BlockchainStorage) (hash : B256) : Decidable (s.Fresh hash) :=
  have : Decidable (∀ n ∈ s.hashes.keys, s.hashes.get n ≠ some hash) :=
    Finset.decidableDforallFinset
  inferInstanceAs (Decidable (_ ∧ _))

private theorem Fresh.get_ne {s : BlockchainStorage} {hash : B256} (h : s.Fresh hash) (n : U64) :
    s.hashes.get n ≠ some hash :=
  fun hn => h.2 n (mem_keys_of_get hn) hn

/-- Every indexed transaction is listed by the block that its entry names. -/
def Indexed (s : BlockchainStorage) : Prop :=
  ∀ t m, s.transactions.get t = some m → t ∈ s.listed m.blockHash

structure StorageInv (s : BlockchainStorage) : Prop where
  /-- A block is filed under one number. -/
  filed_once : ∀ {i j hash}, s.hashes.get i = some hash → s.hashes.get j = some hash → i = j
  /-- No block is filed above the best number. -/
  filed_le : ∀ {i hash}, s.hashes.get i = some hash → i ≤ s.bestNumber
  indexed : s.Indexed

theorem filed_singleton {n i : U64} {h hash : B256}
    (hget : (HashMap.empty.insert n h).get i = some hash) : i = n ∧ h = hash := by
  rw [get_insert] at hget
  split at hget
  · next hi => exact ⟨hi, Option.some.inj hget⟩
  · cases hget

variable {s : BlockchainStorage}

/-- A chain that starts with one block. -/
theorem start_inv {hash : B256} (hhashes : s.hashes = HashMap.empty.insert s.bestNumber hash)
    (htransactions : s.transactions = HashMap.empty) : s.StorageInv where
  filed_once := by
    intro i j hash hi hj
    rw [hhashes] at hi hj
    rw [(filed_singleton hi).1, (filed_singleton hj).1]
  filed_le := by
    intro i hash hi
    rw [hhashes] at hi
    rw [(filed_singleton hi).1]
    exact BitVec.le_refl s.bestNumber
  indexed := by
    intro t m ht
    rw [htransactions] at ht
    cases ht

section

variable (hs : s.StorageInv)

include hs

/-- A block with a new hash keeps the storage consistent. -/
theorem insertBlock_inv {hash : B256} (hfresh : s.Fresh hash) (block : Block) :
    (s.insertBlock (saturatingAdd s.bestNumber 1) hash block).StorageInv := by
  have hnext : s.bestNumber ≤ saturatingAdd s.bestNumber 1 := le_saturatingAdd _ 1
  constructor
  case filed_once =>
    intro i j h hi hj
    unfold insertBlock at hi hj
    rw [get_insert] at hi hj
    split at hi <;> split at hj
    · next hi' hj' => rw [hi', hj']
    · rw [← Option.some.inj hi] at hj
      exact absurd hj (hfresh.get_ne j)
    · rw [← Option.some.inj hj] at hi
      exact absurd hi (hfresh.get_ne i)
    · exact hs.filed_once hi hj
  case filed_le =>
    intro i h hi
    unfold insertBlock at hi
    rw [get_insert] at hi
    split at hi
    · next hi' =>
      rw [hi']
      exact BitVec.le_refl _
    · exact BitVec.le_trans (hs.filed_le hi) hnext
  case indexed =>
    intro t m ht
    unfold insertBlock at ht
    rw [get_foldl_insert] at ht
    rw [mem_listed]
    unfold insertBlock
    split at ht
    · next hmem =>
      rw [← Option.some.inj ht]
      exact ⟨block, get_insert_self _ _ _, hmem⟩
    obtain ⟨b, hb, hmem⟩ := mem_listed.mp (hs.indexed t m ht)
    refine ⟨b, ?_, hmem⟩
    rw [get_insert_of_ne]
    · exact hb
    · intro heq
      rw [heq, hfresh.1] at hb
      cases hb

theorem removeBlockTransactions_inv (hash : B256) :
    (s.removeBlockTransactions hash).StorageInv where
  filed_once := by
    rw [hashes_removeBlockTransactions]
    exact hs.filed_once
  filed_le := by
    rw [hashes_removeBlockTransactions, bestNumber_removeBlockTransactions]
    exact hs.filed_le
  indexed := by
    intro t m ht
    rw [transactions_removeBlockTransactions] at ht
    split at ht
    · cases ht
    · next hnot =>
      have hmem := hs.indexed t m ht
      rw [mem_listed, blocks_removeBlockTransactions, if_neg]
      · exact mem_listed.mp hmem
      · intro heq
        rw [heq] at hmem
        exact hnot hmem

theorem keepTransactions_inv (blockNumber : U64) (keeper : Option U64) :
    (s.keepTransactions blockNumber keeper).StorageInv := by
  unfold keepTransactions
  split
  · exact hs
  · split
    · unfold removeBlockTransactionsByNumber
      split
      · exact hs
      · exact removeBlockTransactions_inv hs _
    · exact hs

end

end BlockchainStorage

theorem Chain.doMineBlock_inv {config : Config} {chain : Chain} {executed : Executed}
    (h : chain.storage.StorageInv) (hfresh : chain.storage.Fresh executed.hash) :
    (chain.doMineBlock config executed).storage.StorageInv := by
  apply BlockchainStorage.keepTransactions_inv
  split
  · exact BlockchainStorage.insertBlock_inv h hfresh _
  · exact BlockchainStorage.insertBlock_inv (s := BlockchainStorage.addDifficulty _ _)
      ⟨h.filed_once, h.filed_le, h.indexed⟩ hfresh _

/-- The chains that mining builds.  Block hashes do not collide: a new block's hash names no
earlier block. -/
inductive Built (config : Config) : Chain → Prop where
  | new (genesis : Header) (genesisHash : B256) (env : BlockEnv) :
      Built config ⟨.new genesis genesisHash, env⟩
  | forked (blockNumber : U64) (blockHash : B256) (totalDifficulty : U256) (env : BlockEnv) :
      Built config ⟨.forked blockNumber blockHash totalDifficulty, env⟩
  | mine {chain : Chain} (executed : Executed) (built : Built config chain)
      (fresh : chain.storage.Fresh executed.hash) :
      Built config (chain.doMineBlock config executed)

theorem Built.inv {config : Config} {chain : Chain} (h : Built config chain) :
    chain.storage.StorageInv := by
  induction h with
  | new genesis genesisHash _ => exact BlockchainStorage.start_inv rfl rfl
  | forked blockNumber blockHash totalDifficulty _ => exact BlockchainStorage.start_inv rfl rfl
  | mine executed _ fresh ih => exact Chain.doMineBlock_inv ih fresh

end Foundry.Anvil.Mem
