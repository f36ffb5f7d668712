import Foundry.Anvil.Mem.Backend
import Foundry.Anvil.Mem.Unwind

/-!
# Agreement of snapshots and chain

Under which requests the two records of a snapshot stay in step, so that the best hash
always names a stored block and spent snapshots are ignored.
-/

namespace Foundry.Anvil.Mem

open Evm List HashMap

/-! ## The chain -/

/-- The numbers of the storage are those of the headers.  `headerOf` is the header that a
block hash stands for. -/
structure ChainInv (config : Config) (headerOf : B256 → Header) (chain : Chain) : Prop where
  filed : ∀ {n hash}, chain.storage.hashes.get n = some hash →
    chain.storage.headerAt hash = some (headerOf hash) ∧ (headerOf hash).number = n
  filed_le : ∀ {n hash}, chain.storage.hashes.get n = some hash → n ≤ chain.storage.bestNumber
  best : chain.storage.hashes.get chain.storage.bestNumber = some chain.storage.bestHash
  env : config.isArbitrum = true ∨ saturatingTo 64 chain.env.number = chain.storage.bestNumber

namespace Chain

variable {config : Config} {headerOf : B256 → Header} {chain : Chain}

theorem new_chainInv {genesis : Header} {genesisHash : B256} {env : BlockEnv}
    (hhash : headerOf genesisHash = genesis)
    (henv : config.isArbitrum = true ∨ saturatingTo 64 env.number = genesis.number) :
    ChainInv config headerOf ⟨.new genesis genesisHash, env⟩ where
  filed := by
    intro n hash hn
    obtain ⟨hn, hash_eq⟩ := BlockchainStorage.filed_singleton hn
    rw [← hash_eq, hn, hhash]
    refine ⟨?_, rfl⟩
    unfold BlockchainStorage.headerAt BlockchainStorage.new
    rw [get_insert_self]
    rfl
  filed_le := by
    intro n hash hn
    exact BitVec.le_of_eq (BlockchainStorage.filed_singleton hn).1
  best := get_insert_self _ _ _
  env := henv

theorem storage_doMineBlock (config : Config) (chain : Chain) (executed : Executed) :
    (chain.doMineBlock config executed).storage.hashes =
        chain.storage.hashes.insert chain.nextNumber executed.hash ∧
      (chain.doMineBlock config executed).storage.bestNumber = chain.nextNumber ∧
      (chain.doMineBlock config executed).storage.bestHash = executed.hash ∧
      ∀ k, (chain.doMineBlock config executed).storage.headerAt k =
        if k = executed.hash then some (chain.nextEnv config executed).header
        else chain.storage.headerAt k := by
  unfold doMineBlock
  obtain ⟨hhashes, hnumber, hhash, hheader⟩ := BlockchainStorage.keepTransactions_frame
    ((if config.isEip3675 then chain.storage
      else chain.storage.addDifficulty
        (chain.nextEnv config executed).header.difficulty).insertBlock chain.nextNumber
          executed.hash ⟨(chain.nextEnv config executed).header, executed.transactions⟩)
    chain.nextNumber config.transactionBlockKeeper
  rw [hhashes, hnumber, hhash]
  refine ⟨?_, rfl, rfl, fun k => ?_⟩
  · split <;> rfl
  rw [hheader k]
  unfold BlockchainStorage.headerAt BlockchainStorage.insertBlock
  rw [get_insert]
  split
  · rfl
  · split <;> rfl

theorem le_nextNumber (chain : Chain) : chain.storage.bestNumber ≤ chain.nextNumber :=
  le_saturatingAdd _ 1

theorem number_nextEnv (hchain : ChainInv config headerOf chain) (executed : Executed) :
    (chain.nextEnv config executed).header.number = chain.nextNumber := by
  unfold nextEnv BlockEnv.header nextNumber
  apply BitVec.eq_of_toNat_eq
  rw [toNat_saturatingTo]
  by_cases harb : config.isArbitrum = true
  · rw [if_pos harb, BitVec.toNat_setWidth]
    omega
  have henv := congrArg BitVec.toNat (hchain.env.resolve_left harb)
  rw [toNat_saturatingTo] at henv
  rw [if_neg harb, toNat_saturatingAdd, toNat_saturatingAdd]
  have hone : (1 : U256).toNat = 1 := rfl
  have hone' : (1 : U64).toNat = 1 := rfl
  omega

/-- A mined block is filed under the number in its header. -/
theorem doMineBlock_chainInv (hchain : ChainInv config headerOf chain) {executed : Executed}
    (hhash : headerOf executed.hash = (chain.nextEnv config executed).header) :
    ChainInv config headerOf (chain.doMineBlock config executed) := by
  obtain ⟨hhashes, hnumber, hbest, hheader⟩ := storage_doMineBlock config chain executed
  constructor
  case filed =>
    intro n hash hn
    rw [hhashes, get_insert] at hn
    have hsame : ∀ h, (chain.storage.headerAt h = some (headerOf h) ∨ h = executed.hash) →
        (chain.doMineBlock config executed).storage.headerAt h = some (headerOf h) := by
      intro h hor
      rw [hheader]
      by_cases heq : h = executed.hash
      · rw [if_pos heq, heq, hhash]
      · rw [if_neg heq]
        exact hor.resolve_right heq
    split at hn
    · next heq =>
      rw [← Option.some.inj hn, heq]
      refine ⟨hsame _ (.inr rfl), ?_⟩
      rw [hhash]
      exact number_nextEnv hchain executed
    · obtain ⟨hstored, hnum⟩ := hchain.filed hn
      exact ⟨hsame _ (.inl hstored), hnum⟩
  case filed_le =>
    intro n hash hn
    rw [hhashes, get_insert] at hn
    rw [hnumber]
    split at hn
    · next heq => exact BitVec.le_of_eq heq
    · exact BitVec.le_trans (hchain.filed_le hn) chain.le_nextNumber
  case best =>
    rw [hhashes, hnumber, hbest]
    exact get_insert_self _ _ _
  case env =>
    rw [hnumber]
    exact .inr (number_nextEnv hchain executed)

section Revert

variable {num : U64} {hash : B256}

theorem get_revertTo_of_le (hmax : num ≠ BitVec.allOnes 64) {n : U64} (hn : n ≤ num) :
    (chain.storage.revertTo num hash).hashes.get n = chain.storage.hashes.get n := by
  rw [BlockchainStorage.hashes_revertTo, if_neg]
  intro hin
  have hlt := ((BlockchainStorage.mem_unwindRange (BitVec.lt_allOnes_iff.mpr hmax)).mp hin).1
  exact BitVec.not_le.mpr hlt hn

/-- A block that stays filed stays stored: no other number leads to it. -/
theorem headerAt_revertTo (hchain : ChainInv config headerOf chain)
    (hmax : num ≠ BitVec.allOnes 64) {n : U64} {k : B256} (hn : n ≤ num)
    (hk : chain.storage.hashes.get n = some k) :
    (chain.storage.revertTo num hash).headerAt k = some (headerOf k) := by
  unfold BlockchainStorage.headerAt
  rw [BlockchainStorage.blocks_revertTo, if_neg]
  · exact (hchain.filed hk).1
  · intro ⟨m, hin, hm⟩
    have hlt := ((BlockchainStorage.mem_unwindRange (BitVec.lt_allOnes_iff.mpr hmax)).mp hin).1
    rw [← (hchain.filed hm).2, (hchain.filed hk).2] at hlt
    exact BitVec.not_le.mpr hlt hn

/-- After a revert to a filed block the rest is still filed by its headers. -/
theorem revertTo_chainInv (hchain : ChainInv config headerOf chain)
    (hmax : num ≠ BitVec.allOnes 64) (hnum : chain.storage.hashes.get num = some hash)
    (header : Header) :
    ChainInv config headerOf
      ⟨chain.storage.revertTo num hash, Backend.revertedEnv chain.env num header⟩ := by
  have hkeep : ∀ {n k}, (chain.storage.revertTo num hash).hashes.get n = some k →
      n ≤ num ∧ chain.storage.hashes.get n = some k := by
    intro n k hn
    rw [BlockchainStorage.hashes_revertTo] at hn
    split at hn
    · cases hn
    · next hout =>
      exact ⟨(BlockchainStorage.not_mem_unwindRange (BitVec.lt_allOnes_iff.mpr hmax)
        (hchain.filed_le hn)).mp hout, hn⟩
  constructor
  case filed =>
    intro n k hn
    obtain ⟨hle, hk⟩ := hkeep hn
    exact ⟨headerAt_revertTo hchain hmax hle hk, (hchain.filed hk).2⟩
  case filed_le => exact fun hn => (hkeep hn).1
  case best =>
    show (chain.storage.revertTo num hash).hashes.get num = some hash
    rw [get_revertTo_of_le hmax (BitVec.le_refl num)]
    exact hnum
  case env =>
    refine .inr ?_
    show saturatingTo 64 (num.setWidth 256) = num
    apply BitVec.eq_of_toNat_eq
    rw [toNat_saturatingTo, BitVec.toNat_setWidth]
    omega

end Revert

end Chain

/-! ## Snapshots -/

namespace Backend

variable {S : Type} {config : Config} {headerOf : B256 → Header} {backend : Backend S}
  {live : List U256} {id : U256}

/-- The two records of the snapshots agree with the chain and with the client's count. -/
structure Agree (config : Config) (headerOf : B256 → Header) (backend : Backend S)
    (live : List U256) : Prop where
  chain : ChainInv config headerOf backend.chain
  issued : ∀ {id s}, backend.db.stateSnapshots.get id = some s → id < backend.db.stateSnapshots.id
  tracked : ∀ {id s}, backend.db.stateSnapshots.get id = some s → id ∈ live
  recorded : ∀ {id s}, backend.db.stateSnapshots.get id = some s →
    ∃ num hash, backend.activeStateSnapshots.get id = some (num, hash) ∧
      num ≤ backend.chain.storage.bestNumber ∧
      (num ≠ BitVec.allOnes 64 → backend.chain.storage.hashes.get num = some hash)
  /-- Later snapshots are higher on the chain. -/
  ordered : ∀ {i j s t a b}, backend.db.stateSnapshots.get i = some s →
    backend.db.stateSnapshots.get j = some t → i < j → backend.activeStateSnapshots.get i = some a →
    backend.activeStateSnapshots.get j = some b → a.1 ≤ b.1
  live_lt : ∀ id ∈ live, id < backend.db.stateSnapshots.id
  live_increasing : live.Pairwise (· < ·)

def start (genesis : Header) (genesisHash : B256) (env : BlockEnv) (state : S) : Backend S where
  chain := ⟨.new genesis genesisHash, env⟩
  db := ⟨state, .default⟩
  activeStateSnapshots := .empty

theorem start_agree {genesis : Header} {genesisHash : B256} {env : BlockEnv} {state : S}
    (hhash : headerOf genesisHash = genesis)
    (henv : config.isArbitrum = true ∨ saturatingTo 64 env.number = genesis.number) :
    (start genesis genesisHash env state).Agree config headerOf [] where
  chain := Chain.new_chainInv hhash henv
  issued := nofun
  tracked := nofun
  recorded := nofun
  ordered := nofun
  live_lt := nofun
  live_increasing := List.Pairwise.nil

/-- When a request keeps the records in step: a new snapshot gets a new id, and a revert to a
recorded snapshot finds it in the database. -/
def Safe (backend : Backend S) : Op S → Prop
  | .mineBlock _ _ => True
  | .createStateSnapshot => backend.db.stateSnapshots.id ≠ BitVec.allOnes 256
  | .revertStateSnapshot id => ∀ num hash, backend.activeStateSnapshots.get id = some (num, hash) →
      num ≠ BitVec.allOnes 64 ∧ backend.db.stateSnapshots.get id ≠ none

/-- Block hashes do not collide: the hash of a mined block stands for its header. -/
def Hashed (config : Config) (headerOf : B256 → Header) (backend : Backend S) : Op S → Prop
  | .mineBlock executed _ => headerOf executed.hash = (backend.chain.nextEnv config executed).header
  | _ => True

instance (backend : Backend S) : (op : Op S) → Decidable (backend.Hashed config headerOf op)
  | .mineBlock _ _ => inferInstanceAs (Decidable (_ = _))
  | .createStateSnapshot => isTrue trivial
  | .revertStateSnapshot _ => isTrue trivial

instance (backend : Backend S) : (op : Op S) → Decidable (backend.Safe op)
  | .mineBlock _ _ => isTrue trivial
  | .createStateSnapshot => inferInstanceAs (Decidable (_ ≠ _))
  | .revertStateSnapshot id =>
    @decidable_of_iff _ (∀ active ∈ backend.activeStateSnapshots.get id,
      active.1 ≠ BitVec.allOnes 64 ∧ (backend.db.stateSnapshots.get id).isSome)
      (by simp [Safe, Option.isSome_iff_ne_none]) (Option.decidableForallMem _)

theorem Agree.bestStored (h : backend.Agree config headerOf live) : backend.BestStored := by
  obtain ⟨hstored, hnum⟩ := h.chain.filed h.chain.best
  obtain ⟨block, hblock, hheader⟩ := Option.map_eq_some_iff.mp hstored
  refine ⟨block, hblock, ?_⟩
  rw [hheader, hnum]

theorem mineBlock_agree (h : backend.Agree config headerOf live) {executed : Executed} (state : S)
    (hhash : headerOf executed.hash = (backend.chain.nextEnv config executed).header) :
    (backend.mineBlock config executed state).Agree config headerOf live := by
  obtain ⟨hhashes, hnumber, _, _⟩ := Chain.storage_doMineBlock config backend.chain executed
  refine { h with chain := Chain.doMineBlock_chainInv h.chain hhash, recorded := ?_ }
  · intro id s hs
    obtain ⟨num, hash, hactive, hle, hfiled⟩ := h.recorded hs
    refine ⟨num, hash, hactive, ?_, fun hmax => ?_⟩
    · show num ≤ (backend.chain.doMineBlock config executed).storage.bestNumber
      rw [hnumber]
      exact BitVec.le_trans hle backend.chain.le_nextNumber
    show (backend.chain.doMineBlock config executed).storage.hashes.get num = some hash
    rw [hhashes, get_insert_of_ne]
    · exact hfiled hmax
    · intro heq
      have hnat := congrArg BitVec.toNat heq
      rw [Chain.nextNumber, toNat_saturatingAdd] at hnat
      have hone : (1 : U64).toNat = 1 := rfl
      have hlt := BitVec.lt_allOnes_iff.mpr hmax
      rw [BitVec.lt_def] at hlt
      rw [BitVec.le_def] at hle
      omega

private theorem get_createStateSnapshot {s : S}
    (hs : backend.createStateSnapshot.1.db.stateSnapshots.get id = some s) :
    id = backend.db.stateSnapshots.id ∨
      id ≠ backend.db.stateSnapshots.id ∧ backend.db.stateSnapshots.get id = some s := by
  have hget := (StateSnapshots.get_insert _ _ _).symm.trans hs
  split at hget
  · next hid => exact .inl hid
  · next hid => exact .inr ⟨hid, hget⟩

/-- A new snapshot is recorded as the last live one. -/
theorem createStateSnapshot_agree (h : backend.Agree config headerOf live)
    (hmax : backend.db.stateSnapshots.id ≠ BitVec.allOnes 256) :
    backend.createStateSnapshot.1.Agree config headerOf
      (live ++ [backend.createStateSnapshot.2]) := by
  have hnext : backend.db.stateSnapshots.id < saturatingAdd backend.db.stateSnapshots.id 1 :=
    lt_saturatingAdd_one hmax
  have hactive : ∀ {id}, id ≠ backend.db.stateSnapshots.id →
      backend.createStateSnapshot.1.activeStateSnapshots.get id =
        backend.activeStateSnapshots.get id :=
    fun hid => get_insert_of_ne _ _ hid
  have hself : backend.createStateSnapshot.1.activeStateSnapshots.get backend.db.stateSnapshots.id =
        some (backend.chain.storage.bestNumber, backend.chain.storage.bestHash) :=
    get_insert_self _ _ _
  constructor
  case chain => exact h.chain
  case issued =>
    intro id s hs
    rcases get_createStateSnapshot hs with hid | ⟨_, hs⟩
    · rw [hid]
      exact hnext
    · exact BitVec.lt_trans (h.issued hs) hnext
  case tracked =>
    intro id s hs
    rcases get_createStateSnapshot hs with hid | ⟨_, hs⟩
    · rw [hid]
      exact mem_append_right _ mem_cons_self
    · exact mem_append_left _ (h.tracked hs)
  case recorded =>
    intro id s hs
    rcases get_createStateSnapshot hs with hid | ⟨hid, hs⟩
    · rw [hid]
      exact ⟨_, _, hself, BitVec.le_refl _, fun _ => h.chain.best⟩
    · rw [hactive hid]
      exact h.recorded hs
  case ordered =>
    intro i j s t a b hi hj hlt ha hb
    rcases get_createStateSnapshot hi with hi' | ⟨hi', hi⟩
    · rcases get_createStateSnapshot hj with hj' | ⟨_, hj⟩
      · rw [hi', hj'] at hlt
        exact absurd hlt (BitVec.lt_irrefl _)
      · rw [hi'] at hlt
        exact absurd (h.issued hj) (BitVec.lt_asymm hlt)
    rw [hactive hi'] at ha
    rcases get_createStateSnapshot hj with hj' | ⟨hj', hj⟩
    · rw [hj', hself] at hb
      obtain ⟨num, hash, hget, hle, _⟩ := h.recorded hi
      rw [ha] at hget
      rw [Option.some.inj hget, ← Option.some.inj hb]
      exact hle
    · rw [hactive hj'] at hb
      exact h.ordered hi hj hlt ha hb
  case live_lt =>
    intro id hid
    rcases mem_append.mp hid with hid | hid
    · exact BitVec.lt_trans (h.live_lt id hid) hnext
    · rw [mem_singleton.mp hid]
      exact hnext
  case live_increasing =>
    rw [pairwise_append]
    refine ⟨h.live_increasing, pairwise_singleton _ _, ?_⟩
    intro a ha b hb
    rw [mem_singleton.mp hb]
    exact h.live_lt a ha

/-! ## Reverts -/

private theorem mem_takeWhile_of_lt {live : List U256} (hinc : live.Pairwise (· < ·)) {k : U256}
    (hk : k ∈ live) (hlt : k < id) : k ∈ live.takeWhile (· ≠ id) := by
  induction live with
  | nil => cases hk
  | cons a live ih =>
    obtain ⟨hbelow, hinc⟩ := pairwise_cons.mp hinc
    have ha : a ≠ id := by
      rintro rfl
      rcases mem_cons.mp hk with rfl | hk
      · exact BitVec.lt_irrefl _ hlt
      · exact BitVec.lt_asymm hlt (hbelow k hk)
    rw [takeWhile_cons_of_pos (by simpa using ha), mem_cons]
    exact (mem_cons.mp hk).imp_right (ih hinc)

/-- A snapshot that outlives a revert is another one, and an older one if the reverted one
was issued. -/
theorem survivor {db : MemDb S} {k : U256} {s : S}
    (hk : (db.revertState id .revertRemove).1.stateSnapshots.get k = some s)
    (hissued : ∀ {s}, db.stateSnapshots.get k = some s → k < db.stateSnapshots.id) :
    db.stateSnapshots.get k = some s ∧ k ≠ id ∧ (id < db.stateSnapshots.id → k < id) := by
  have hkeep : RevertStateSnapshotAction.revertRemove.isKeep = false := rfl
  simp only [MemDb.get_revertState, hkeep, Bool.false_eq_true, if_false,
    Option.ite_none_left_eq_some] at hk
  obtain ⟨hne, hnot, hk⟩ := hk
  refine ⟨hk, hne, fun hid => ?_⟩
  have hgap : ¬ id + 1 ≤ k := fun hle => hnot ⟨hle, hissued hk⟩
  rw [BitVec.le_def, toNat_add_one_of_lt hid] at hgap
  rw [BitVec.lt_def]
  rw [← BitVec.toNat_inj] at hne
  omega

/-- A revert keeps the records in step if the chain part does and is not above the surviving
snapshots. -/
theorem revert_agree {backend' : Backend S} (h : backend.Agree config headerOf live)
    (hdb : backend'.db = (backend.db.revertState id .revertRemove).1)
    (hactive : backend'.activeStateSnapshots = backend.activeStateSnapshots.remove id)
    (hchain : ChainInv config headerOf backend'.chain)
    (hbelow : ∀ {k s num hash}, backend.db.stateSnapshots.get k = some s → k ≠ id →
      (id < backend.db.stateSnapshots.id → k < id) →
      backend.activeStateSnapshots.get k = some (num, hash) →
      num ≤ backend'.chain.storage.bestNumber ∧ (num ≠ BitVec.allOnes 64 →
        backend'.chain.storage.hashes.get num = backend.chain.storage.hashes.get num)) :
    backend'.Agree config headerOf (backend.track live (.revertStateSnapshot id)) := by
  have hkept : ∀ {k s}, backend'.db.stateSnapshots.get k = some s →
      backend.db.stateSnapshots.get k = some s ∧ k ≠ id ∧
        (id < backend.db.stateSnapshots.id → k < id) := by
    intro k s hk
    rw [hdb] at hk
    exact survivor hk h.issued
  have hid : backend'.db.stateSnapshots.id = backend.db.stateSnapshots.id := by
    rw [hdb, MemDb.id_revertState]
  have hget : ∀ {k}, k ≠ id →
      backend'.activeStateSnapshots.get k = backend.activeStateSnapshots.get k := by
    intro k hne
    rw [hactive, get_remove_of_ne _ hne]
  have hsub : (backend.track live (.revertStateSnapshot id)).Sublist live := by
    unfold track
    dsimp only
    split
    · exact takeWhile_sublist _
    · exact List.Sublist.refl live
  constructor
  case chain => exact hchain
  case issued =>
    intro k s hk
    rw [hid]
    exact h.issued (hkept hk).1
  case tracked =>
    intro k s hk
    obtain ⟨hk, _, hlt⟩ := hkept hk
    unfold track
    dsimp only
    split
    · next hmem =>
      exact mem_takeWhile_of_lt h.live_increasing (h.tracked hk) (hlt (h.live_lt id hmem))
    · exact h.tracked hk
  case recorded =>
    intro k s hk
    obtain ⟨hk, hne, hlt⟩ := hkept hk
    obtain ⟨num, hash, hrec, _, hfiled⟩ := h.recorded hk
    obtain ⟨hle, hsame⟩ := hbelow hk hne hlt hrec
    refine ⟨num, hash, by rw [hget hne]; exact hrec, hle, fun hmax => ?_⟩
    rw [hsame hmax]
    exact hfiled hmax
  case ordered =>
    intro i j s t a b hi hj hlt ha hb
    obtain ⟨hi, hnei, _⟩ := hkept hi
    obtain ⟨hj, hnej, _⟩ := hkept hj
    rw [hget hnei] at ha
    rw [hget hnej] at hb
    exact h.ordered hi hj hlt ha hb
  case live_lt =>
    intro k hk
    rw [hid]
    exact h.live_lt k (hsub.subset hk)
  case live_increasing => exact h.live_increasing.sublist hsub

theorem revertStateSnapshot_unrecorded (hnone : backend.activeStateSnapshots.get id = none) :
    (backend.revertStateSnapshot id).1 =
      { backend with
        db := (backend.db.revertState id .revertRemove).1
        activeStateSnapshots := backend.activeStateSnapshots.remove id } := by
  unfold revertStateSnapshot
  rw [hnone]

section

variable (h : backend.Agree config headerOf live)

include h

private theorem recorded_agree {id : U256} {num : U64}
    {hash : B256} {s : S} (hrec : backend.activeStateSnapshots.get id = some (num, hash))
    (hmax : num ≠ BitVec.allOnes 64) (hs : backend.db.stateSnapshots.get id = some s) :
    (backend.revertStateSnapshot id).1.Agree config headerOf
      (backend.track live (.revertStateSnapshot id)) := by
  obtain ⟨num', hash', hrec', _, hfiled⟩ := h.recorded hs
  rw [hrec] at hrec'
  cases hrec'
  have hheader : (backend.chain.storage.revertTo num hash).headerAt hash = some (headerOf hash) :=
    Chain.headerAt_revertTo h.chain hmax (BitVec.le_refl num) (hfiled hmax)
  obtain ⟨block, hblock, _⟩ := Option.map_eq_some_iff.mp hheader
  have heq : (backend.revertStateSnapshot id).1 =
      { chain := ⟨backend.chain.storage.revertTo num hash,
          revertedEnv backend.chain.env num block.header⟩
        db := (backend.db.revertState id .revertRemove).1
        activeStateSnapshots := backend.activeStateSnapshots.remove id } := by
    unfold revertStateSnapshot
    rw [hrec]
    dsimp only
    rw [hblock]
  rw [heq]
  refine revert_agree h rfl rfl (Chain.revertTo_chainInv h.chain hmax (hfiled hmax) _) ?_
  intro k t num' hash' hk _ hlt hrec'
  have hle : num' ≤ num := h.ordered hk hs (hlt (h.issued hs)) hrec' hrec
  exact ⟨hle, fun _ => Chain.get_revertTo_of_le hmax hle⟩

theorem step_agree {op : Op S} (hsafe : backend.Safe op)
    (hhashed : backend.Hashed config headerOf op) :
    (backend.step config op).Agree config headerOf (backend.track live op) := by
  cases op with
  | mineBlock executed state => exact mineBlock_agree h state hhashed
  | createStateSnapshot => exact createStateSnapshot_agree h hsafe
  | revertStateSnapshot id =>
    cases hrec : backend.activeStateSnapshots.get id with
    | none =>
      change Agree config headerOf (backend.revertStateSnapshot id).1 _
      rw [revertStateSnapshot_unrecorded hrec]
      refine revert_agree h rfl rfl h.chain ?_
      intro k s num hash hk _ _ hrec
      obtain ⟨num', hash', hrec', hle, _⟩ := h.recorded hk
      rw [hrec] at hrec'
      cases hrec'
      exact ⟨hle, fun _ => rfl⟩
    | some rec =>
      obtain ⟨hmax, hlive⟩ := hsafe rec.1 rec.2 hrec
      obtain ⟨s, hs⟩ := Option.ne_none_iff_exists'.mp hlive
      exact recorded_agree h hrec hmax hs

theorem ignoresSpent_of_agree {op : Op S}
    (hsafe : backend.Safe op) : backend.IgnoresSpent live op := by
  cases op with
  | mineBlock executed state => trivial
  | createStateSnapshot => trivial
  | revertStateSnapshot id =>
    intro hspent
    have hdead : backend.db.stateSnapshots.get id = none := by
      cases hs : backend.db.stateSnapshots.get id with
      | none => rfl
      | some s => exact absurd (h.tracked hs) hspent
    cases hrec : backend.activeStateSnapshots.get id with
    | some rec => exact absurd hdead (hsafe rec.1 rec.2 hrec).2
    | none =>
      rw [revertStateSnapshot_unrecorded hrec]
      exact ⟨rfl, by rw [MemDb.revertState_eq, hdead]; rfl⟩

end

theorem run_agree (ops : List (Op S)) (h : backend.Agree config headerOf live)
    (hhashed : EveryStep config (fun backend _ op => backend.Hashed config headerOf op)
      backend live ops)
    (hsafe : EveryStep config (fun backend _ op => backend.Safe op) backend live ops) :
    EveryStep config (fun backend live op => backend.BestStored ∧ backend.IgnoresSpent live op)
        backend live ops ∧
      (backend.run config ops).BestStored := by
  induction ops generalizing backend live with
  | nil => exact ⟨trivial, h.bestStored⟩
  | cons op ops ih =>
    obtain ⟨hhash, hhashed⟩ := hhashed
    obtain ⟨hstep, hsafe⟩ := hsafe
    obtain ⟨hrest, hfinal⟩ := ih (step_agree h hstep hhash) hhashed hsafe
    exact ⟨⟨⟨h.bestStored, ignoresSpent_of_agree h hstep⟩, hrest⟩, hfinal⟩

/-- From the start of a node whose environment has the genesis number, in every run of safe
requests the best hash names a stored block with the best number, and spent snapshots are
ignored. -/
theorem run_bestStored_ignoresSpent (config : Config) (headerOf : B256 → Header)
    {genesis : Header} {genesisHash : B256} {env : BlockEnv} (state : S) (ops : List (Op S))
    (hgenesis : headerOf genesisHash = genesis)
    (henv : config.isArbitrum = true ∨ saturatingTo 64 env.number = genesis.number)
    (hhashed : EveryStep config (fun backend _ op => backend.Hashed config headerOf op)
      (start genesis genesisHash env state) [] ops)
    (hsafe : EveryStep config (fun backend _ op => backend.Safe op)
      (start genesis genesisHash env state) [] ops) :
    EveryStep config (fun backend live op => backend.BestStored ∧ backend.IgnoresSpent live op)
        (start genesis genesisHash env state) [] ops ∧
      ((start genesis genesisHash env state).run config ops).BestStored :=
  run_agree ops (start_agree hgenesis henv) hhashed hsafe

/-- Genesis is block 0 with hash 100; the account state is a number. -/
def atGenesis : Backend Nat := start ⟨0, 0, 30000000, 0, 0⟩ 100 ⟨0, 0, 0, 30000000, 0, 0, none⟩ 0

/-- Snapshot 0, a block, a revert to it, another block and a second revert to it. -/
def revertOnce : List (Op Nat) :=
  [.createStateSnapshot, .mineBlock ⟨101, [5], 1, 0, 0⟩ 1, .revertStateSnapshot 0,
    .mineBlock ⟨102, [6], 2, 0, 0⟩ 2, .revertStateSnapshot 0]

def revertOnceHeader (hash : B256) : Header :=
  if hash = 101 then ⟨0, 1, 30000000, 1, 0⟩
  else if hash = 102 then ⟨0, 1, 30000000, 2, 0⟩
  else ⟨0, 0, 30000000, 0, 0⟩

theorem run_bestStored_ignoresSpent_revertOnce :
    EveryStep Chain.defaultConfig
        (fun backend live op => backend.BestStored ∧ backend.IgnoresSpent live op)
        atGenesis [] revertOnce ∧
      (atGenesis.run Chain.defaultConfig revertOnce).BestStored := by
  have hhashed : EveryStep Chain.defaultConfig
      (fun backend _ op => backend.Hashed Chain.defaultConfig revertOnceHeader op)
      atGenesis [] revertOnce := by
    decide +kernel
  have hsafe : EveryStep Chain.defaultConfig (fun backend _ op => backend.Safe op)
      atGenesis [] revertOnce := by
    decide +kernel
  exact run_bestStored_ignoresSpent Chain.defaultConfig revertOnceHeader 0 revertOnce rfl
    (.inr (by decide +kernel)) hhashed hsafe

/-- Snapshots at block 0 and at block 1, then a revert to the first, two other blocks and a
revert to the second. -/
def revertBoth : List (Op Nat) :=
  [.createStateSnapshot, .mineBlock ⟨101, [], 1, 0, 0⟩ 1, .createStateSnapshot,
    .revertStateSnapshot 0, .mineBlock ⟨102, [], 2, 0, 0⟩ 2, .mineBlock ⟨103, [], 3, 0, 0⟩ 3,
    .revertStateSnapshot 1]

def revertBothHeader (hash : B256) : Header :=
  if hash = 101 then ⟨0, 1, 30000000, 1, 0⟩
  else if hash = 102 then ⟨0, 1, 30000000, 2, 0⟩
  else if hash = 103 then ⟨0, 2, 30000000, 3, 0⟩
  else ⟨0, 0, 30000000, 0, 0⟩

/-- The second revert is to a spent snapshot, yet it takes blocks off the chain, and the best
hash it sets is that of a block removed before. -/
theorem revertBoth_best_missing :
    EveryStep Chain.defaultConfig
        (fun backend _ op => backend.Hashed Chain.defaultConfig revertBothHeader op)
        atGenesis [] revertBoth ∧
      ¬ EveryStep Chain.defaultConfig (fun backend live op => backend.IgnoresSpent live op)
        atGenesis [] revertBoth ∧
      ¬ (atGenesis.run Chain.defaultConfig revertBoth).BestStored := by
  refine ⟨by decide +kernel, ?_, ?_⟩
  · intro ⟨_, _, _, _, _, _, hspent, _⟩
    have hsame := congrArg BlockchainStorage.bestNumber (hspent (by decide +kernel)).1
    revert hsame
    decide +kernel
  · intro ⟨block, hblock, _⟩
    have hnone : (atGenesis.run Chain.defaultConfig revertBoth).chain.storage.blocks.get
        (atGenesis.run Chain.defaultConfig revertBoth).chain.storage.bestHash = none := by
      decide +kernel
    cases hnone.symm.trans hblock

/-! ## The storage -/

def MinesFresh (backend : Backend S) : Op S → Prop
  | .mineBlock executed _ => backend.chain.storage.Fresh executed.hash
  | _ => True

theorem step_storageInv {op : Op S} (h : backend.chain.storage.StorageInv)
    (hfresh : backend.MinesFresh op) : (backend.step config op).chain.storage.StorageInv := by
  cases op with
  | mineBlock executed state => exact Chain.doMineBlock_inv h hfresh
  | createStateSnapshot => exact h
  | revertStateSnapshot id =>
    show (backend.revertStateSnapshot id).1.chain.storage.StorageInv
    unfold revertStateSnapshot
    split
    · exact h
    · dsimp only
      split <;> exact BlockchainStorage.revertTo_inv h

/-- Requests keep the invariant of the storage, reverts to spent or unknown ids included. -/
theorem run_storageInv (live : List U256) (ops : List (Op S))
    (h : backend.chain.storage.StorageInv)
    (hfresh : EveryStep config (fun backend _ op => backend.MinesFresh op) backend live ops) :
    (backend.run config ops).chain.storage.StorageInv := by
  induction ops generalizing backend live with
  | nil => exact h
  | cons op ops ih => exact ih _ (step_storageInv h hfresh.1) hfresh.2

theorem run_storageInv_revertOnce :
    (atGenesis.run Chain.defaultConfig revertOnce).chain.storage.StorageInv := by
  apply run_storageInv [] revertOnce (BlockchainStorage.start_inv rfl rfl)
  refine ⟨trivial, ?_, trivial, ?_, trivial, trivial⟩ <;>
  · unfold MinesFresh
    decide +kernel

end Backend

end Foundry.Anvil.Mem
