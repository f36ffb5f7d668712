import Foundry.Anvil.Mem.Snapshots

/-!
# Block tags

The safe and the finalized block are counted back from the best block, or taken to be the genesis
block while the best number is small.  The count assumes that the chain starts at number 0.
-/

namespace Foundry.Anvil.Mem

inductive BlockNumberOrTag where
  | latest
  | finalized
  | safe
  | earliest
  | pending
  | number (num : U64)
deriving DecidableEq

def slotsInAnEpoch : U64 := 32

namespace BlockchainStorage

def hash (self : BlockchainStorage) : BlockNumberOrTag → Option B256
  | .latest => some self.bestHash
  | .earliest => some self.genesisHash
  | .pending => none
  | .number num => self.hashes.get num
  | .safe =>
    if slotsInAnEpoch < self.bestNumber then self.hashes.get (self.bestNumber - slotsInAnEpoch)
    else some self.genesisHash
  | .finalized =>
    if slotsInAnEpoch * 2 < self.bestNumber then
      self.hashes.get (self.bestNumber - slotsInAnEpoch * 2)
    else some self.genesisHash

def tagNumber (self : BlockchainStorage) (tag : BlockNumberOrTag) : Option U64 :=
  ((self.hash tag).bind self.headerAt).map Header.number

/-- The four tags stand for stored blocks, in this order. -/
def TagsOrdered (self : BlockchainStorage) : Prop :=
  ∃ earliest finalized safe latest, self.tagNumber .earliest = some earliest ∧
    self.tagNumber .finalized = some finalized ∧ self.tagNumber .safe = some safe ∧
    self.tagNumber .latest = some latest ∧ earliest ≤ finalized ∧ finalized ≤ safe ∧ safe ≤ latest

end BlockchainStorage

/-- The chains that start with a genesis block, in any environment, and grow block by block.
`headerOf` is the header that a block hash stands for. -/
inductive Grown (config : Config) (headerOf : B256 → Header) (genesisHash : B256)
    (env : BlockEnv) : Chain → Prop
  | new : Grown config headerOf genesisHash env ⟨.new (headerOf genesisHash) genesisHash, env⟩
  | mine {chain : Chain} (executed : Executed) (grown : Grown config headerOf genesisHash env chain)
      (hhash : headerOf executed.hash = (chain.nextEnv config executed).header) :
      Grown config headerOf genesisHash env (chain.doMineBlock config executed)

/-- The header of the next block has the next number. -/
def InStep (config : Config) (genesis : Header) (env : BlockEnv) : Prop :=
  config.isArbitrum = true ∨ saturatingTo 64 env.number = genesis.number

/-- Just the numbers from the genesis block to the best block are filed. -/
structure Spans (headerOf : B256 → Header) (genesisHash : B256) (s : BlockchainStorage) : Prop where
  genesis_eq : s.genesisHash = genesisHash
  stored : s.headerAt genesisHash = some (headerOf genesisHash)
  start : (headerOf genesisHash).number.toNat ≤ s.bestNumber.toNat
  filed : ∀ n, (∃ h, s.hashes.get n = some h) ↔
    (headerOf genesisHash).number.toNat ≤ n.toNat ∧ n.toNat ≤ s.bestNumber.toNat

namespace Grown

variable {config : Config} {headerOf : B256 → Header} {genesisHash : B256} {env : BlockEnv}
  {chain : Chain}

theorem chainInv (h : Grown config headerOf genesisHash env chain)
    (henv : InStep config (headerOf genesisHash) env) : ChainInv config headerOf chain := by
  induction h with
  | new => exact Chain.new_chainInv rfl henv
  | mine executed _ hhash ih => exact Chain.doMineBlock_chainInv ih hhash

theorem genesisHash_doMineBlock (config : Config) (chain : Chain) (executed : Executed) :
    (chain.doMineBlock config executed).storage.genesisHash = chain.storage.genesisHash := by
  simp only [Chain.doMineBlock, BlockchainStorage.keepTransactions,
    BlockchainStorage.removeBlockTransactionsByNumber, BlockchainStorage.removeBlockTransactions]
  repeat' split
  all_goals rfl

/-- A chain that grew has a block under each number from genesis to best. -/
theorem spans (h : Grown config headerOf genesisHash env chain) :
    Spans headerOf genesisHash chain.storage := by
  induction h with
  | new =>
    refine ⟨rfl, ?_, le_refl _, ?_⟩
    · simp [BlockchainStorage.headerAt, BlockchainStorage.new]
    intro n
    constructor
    · rintro ⟨hash, hn⟩
      rw [(BlockchainStorage.filed_singleton hn).1]
      exact ⟨le_refl _, le_refl _⟩
    · intro ⟨hle, hge⟩
      obtain rfl : n = (headerOf genesisHash).number :=
        BitVec.eq_of_toNat_eq (le_antisymm hge hle)
      exact ⟨genesisHash, HashMap.get_insert_self _ _ _⟩
  | @mine chain executed _ hhash ih =>
    obtain ⟨hhashes, hnumber, _, hheader⟩ := Chain.storage_doMineBlock config chain executed
    have hnext : chain.nextNumber.toNat = min (chain.storage.bestNumber.toNat + 1) (2 ^ 64 - 1) :=
      toNat_saturatingAdd _ _
    have hstart := ih.start
    refine ⟨?_, ?_, ?_, ?_⟩
    · rw [genesisHash_doMineBlock, ih.genesis_eq]
    · rw [hheader]
      split
      · next heq => rw [← hhash, heq]
      · exact ih.stored
    · rw [hnumber]
      omega
    · intro n
      rw [hhashes, hnumber]
      by_cases heq : n = chain.nextNumber
      · simp only [heq, HashMap.get_insert_self, Option.some.injEq, exists_eq', true_iff]
        omega
      · have hne : n.toNat ≠ chain.nextNumber.toNat := fun hc => heq (BitVec.eq_of_toNat_eq hc)
        rw [HashMap.get_insert_of_ne _ _ heq, ih.filed]
        omega

/-- What is counted back `k` blocks from the best one is stored if that is not before the genesis
block. -/
theorem number_back (h : Grown config headerOf genesisHash env chain)
    (henv : InStep config (headerOf genesisHash) env) (k : U64) :
    ((if k < chain.storage.bestNumber then chain.storage.hashes.get (chain.storage.bestNumber - k)
      else some chain.storage.genesisHash).bind chain.storage.headerAt).map Header.number =
      if k < chain.storage.bestNumber then
        if (headerOf genesisHash).number.toNat + k.toNat ≤ chain.storage.bestNumber.toNat then
          some (chain.storage.bestNumber - k)
        else none
      else some (headerOf genesisHash).number := by
  have hspans := h.spans
  split
  · next hlt =>
    have hsub := BitVec.toNat_sub_of_le (BitVec.le_of_lt hlt)
    have hfiled := hspans.filed (chain.storage.bestNumber - k)
    rw [BitVec.lt_def] at hlt
    split
    · next hle =>
      obtain ⟨hash, hget⟩ := hfiled.mpr (by omega)
      obtain ⟨hheader, hnumber⟩ := (h.chainInv henv).filed hget
      rw [hget, Option.bind_some, hheader, Option.map_some, hnumber]
    · next hle =>
      have hnone : chain.storage.hashes.get (chain.storage.bestNumber - k) = none := by
        by_contra hsome
        have hbounds := hfiled.mp (Option.ne_none_iff_exists'.mp hsome)
        omega
      rw [hnone]
      rfl
  · rw [hspans.genesis_eq, Option.bind_some, hspans.stored]
    rfl

/-- On a chain that grew from its genesis block, in step with its environment, the tags are in order
if and only if the best number does not exceed one epoch or the chain spans one, and the same for
two epochs. -/
theorem tagsOrdered_iff (h : Grown config headerOf genesisHash env chain)
    (henv : InStep config (headerOf genesisHash) env) :
    chain.storage.TagsOrdered ↔
      (chain.storage.bestNumber.toNat ≤ 32 ∨
        (headerOf genesisHash).number.toNat + 32 ≤ chain.storage.bestNumber.toNat) ∧
      (chain.storage.bestNumber.toNat ≤ 64 ∨
        (headerOf genesisHash).number.toNat + 64 ≤ chain.storage.bestNumber.toNat) := by
  have hspans := h.spans
  have hstart := hspans.start
  have hearliest : chain.storage.tagNumber .earliest = some (headerOf genesisHash).number := by
    simp [BlockchainStorage.tagNumber, BlockchainStorage.hash, hspans.genesis_eq, hspans.stored]
  have hlatest : chain.storage.tagNumber .latest = some chain.storage.bestNumber := by
    obtain ⟨hheader, hnumber⟩ := (h.chainInv henv).filed (h.chainInv henv).best
    simp [BlockchainStorage.tagNumber, BlockchainStorage.hash, hheader, hnumber]
  have hsafe : chain.storage.tagNumber .safe = _ := h.number_back henv 32
  have hfinalized : chain.storage.tagNumber .finalized = _ := h.number_back henv 64
  have h32 : (32 : U64).toNat = 32 := rfl
  have h64 : (64 : U64).toNat = 64 := rfl
  simp only [BitVec.lt_def, h32, h64] at hsafe hfinalized
  unfold BlockchainStorage.TagsOrdered
  rw [hearliest, hlatest, hsafe, hfinalized]
  constructor
  · rintro ⟨_, finalized, safe, _, _, hfinalized, hsafe, _⟩
    constructor
    · split at hsafe
      · split at hsafe
        · omega
        · cases hsafe
      · omega
    · split at hfinalized
      · split at hfinalized
        · omega
        · cases hfinalized
      · omega
  · intro ⟨hepoch, hepochs⟩
    have hback : ∀ k : U64, k.toNat < chain.storage.bestNumber.toNat →
        (chain.storage.bestNumber - k).toNat = chain.storage.bestNumber.toNat - k.toNat :=
      fun k hk => BitVec.toNat_sub_of_le (Nat.le_of_lt hk)
    have hback32 := hback 32
    have hback64 := hback 64
    simp only [BitVec.le_def]
    by_cases hlong : 64 < chain.storage.bestNumber.toNat
    · have hshort : 32 < chain.storage.bestNumber.toNat := by omega
      rw [if_pos hlong, if_pos hshort, if_pos (by omega), if_pos (by omega)]
      exact ⟨_, _, _, _, rfl, rfl, rfl, rfl, by omega, by omega, by omega⟩
    · rw [if_neg hlong]
      split
      · rw [if_pos (by omega)]
        exact ⟨_, _, _, _, rfl, rfl, rfl, rfl, le_refl _, by omega, by omega⟩
      · exact ⟨_, _, _, _, rfl, rfl, rfl, rfl, le_refl _, le_refl _, hstart⟩

def numbered (number : U64) : Header := ⟨0, number, 30000000, 0, 0⟩

def numberedEnv (number : U64) : BlockEnv := ⟨number.setWidth 256, 0, 0, 30000000, 0, 0, none⟩

/-- What the block after `n` mined ones gets. -/
def executedAfter (n : Nat) : Executed := ⟨BitVec.ofNat 256 (101 + n), [], 0, 0, 0⟩

def mined : Nat → Chain
  | 0 => ⟨.new (numbered 0) 100, numberedEnv 0⟩
  | n + 1 => (mined n).doMineBlock Chain.defaultConfig (executedAfter n)

theorem grown_mined {n : Nat} (hn : n ≤ 65) : Grown Chain.defaultConfig
    (fun hash => numbered (BitVec.ofNat 64 (hash.toNat - 100))) 100 (numberedEnv 0) (mined n) := by
  have hheader : ∀ n < 65, numbered (BitVec.ofNat 64 ((executedAfter n).hash.toNat - 100)) =
      ((mined n).nextEnv Chain.defaultConfig (executedAfter n)).header := by
    decide
  induction n with
  | zero => exact .new
  | succ n ih => exact .mine (executedAfter n) (ih (Nat.le_of_succ_le hn)) (hheader n hn)

/-- Both tags are counted back. -/
theorem tagsOrdered_mined : (mined 65).storage.TagsOrdered :=
  ((grown_mined (le_refl 65)).tagsOrdered_iff (.inr (by decide))).mpr
    ⟨.inr (by decide +kernel), .inr (by decide +kernel)⟩

/-- A chain that starts at number 40 looks for its safe block at number 8. -/
theorem not_tagsOrdered_at_forty :
    Grown Chain.defaultConfig (fun _ => numbered 40) 100 (numberedEnv 40)
        ⟨.new (numbered 40) 100, numberedEnv 40⟩ ∧
      ¬ (BlockchainStorage.new (numbered 40) 100).TagsOrdered := by
  refine ⟨.new, ?_⟩
  rintro ⟨_, _, safe, _, _, _, hsafe, _⟩
  revert hsafe
  simp [BlockchainStorage.tagNumber, BlockchainStorage.hash, BlockchainStorage.new, numbered,
    slotsInAnEpoch, HashMap.get_insert]

end Grown

end Foundry.Anvil.Mem
