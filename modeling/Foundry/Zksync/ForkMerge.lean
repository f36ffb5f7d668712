import Foundry.Base.Overlay
import Foundry.Evm.Fork

/-!
# Merging ZKsync state into a fork

On ZKsync the balance, code and nonce of an account are slots of system contracts.  When a fork is
selected, the slots of the persistent accounts are merged into it, in the cache of its database and
in its journaled state, by two functions with lists of slots of their own.
-/

namespace Foundry.Zksync

open Evm Overlay

/-! ## The merge -/

abbrev ContractSlot := Address × U256

/-- The addresses of the system contracts, and the slots they keep for an account. -/
structure SystemContracts where
  l2BaseToken : Address
  accountCodeStorage : Address
  nonceHolder : Address
  knownCodesStorage : Address
  immutableSimulatorStorage : Address
  getBalanceKey : Address → U256
  getAccountCodeKey : Address → U256
  getNonceKey : Address → U256

def SystemContracts.all (sys : SystemContracts) : List Address :=
  [sys.l2BaseToken, sys.accountCodeStorage, sys.nonceHolder, sys.knownCodesStorage,
    sys.immutableSimulatorStorage]

/-- `ZksyncMergeState`, with the order in which the keys of an address are visited. -/
structure ZksyncMergeState where
  persistentImmutableKeys : HashMap Address (Finset U256)
  order : Enumeration U256

namespace ZksyncBackendMerge

variable {R S E : Type} (sys : SystemContracts)

def accountEntries (addr : Address) : List ContractSlot :=
  [(sys.l2BaseToken, sys.getBalanceKey addr), (sys.accountCodeStorage, sys.getAccountCodeKey addr),
    (sys.nonceHolder, sys.getNonceKey addr)]

def knownCodeEntries (codeHash : Option B256) : List ContractSlot :=
  codeHash.toList.map fun codeHash => (sys.knownCodesStorage, codeHash)

def cachedCodeHash (active : CacheDb S) (addr : Address) : Option B256 :=
  (active.accounts.get addr).map (·.accountInfo.codeHash)

def journaledCodeHash (active : JournaledState) (addr : Address) : Option B256 :=
  (active.state.get addr).map (·.info.codeHash)

section

variable (zkState : ZksyncMergeState)

def immutableEntries (addr : Address) : List ContractSlot :=
  match zkState.persistentImmutableKeys.get addr with
  | none => []
  | some keys => (zkState.order.visit keys).map fun key => (sys.immutableSimulatorStorage, key)

/-- `merge_system_contract_entry` of the database. -/
def mergeDbEntry (active : CacheDb S) (forkDb : CacheDb R) (entry : ContractSlot) : CacheDb R :=
  match active.accounts.get entry.1 with
  | none => forkDb
  | some acc =>
    let contracts :=
      match active.contracts.get acc.accountInfo.codeHash with
      | none => forkDb.contracts
      | some code => forkDb.contracts.insert acc.accountInfo.codeHash code
    let newAcc := { acc with storage := restrict acc.storage entry.2 }
    let account :=
      match forkDb.accounts.get entry.1 with
      | none => newAcc
      | some forkAccount =>
        { forkAccount with storage := forkAccount.storage.extend newAcc.storage }
    { forkDb with contracts := contracts, accounts := forkDb.accounts.insert entry.1 account }

/-- The slots of an account that are merged into the database.  The immutable keys are not among
them. -/
def dbEntries (active : CacheDb S) (addr : Address) : List ContractSlot :=
  accountEntries sys addr ++ knownCodeEntries sys (cachedCodeHash active addr)

def mergeZkAccountData (addr : Address) (active : CacheDb S) (forkDb : CacheDb R) : CacheDb R :=
  (dbEntries sys active addr).foldl (mergeDbEntry active) forkDb

/-- `merge_system_contract_entry` of the journaled state. -/
def mergeJournalEntry (active fork : JournaledState) (entry : ContractSlot) : JournaledState :=
  match active.state.get entry.1 with
  | none => fork
  | some acc =>
    let newAcc := { acc with storage := restrict acc.storage entry.2 }
    let account :=
      match fork.state.get entry.1 with
      | none => newAcc
      | some forkAccount =>
        { forkAccount with storage := forkAccount.storage.extend newAcc.storage }
    { fork with state := fork.state.insert entry.1 account }

/-- The slots of an account that are merged into the journaled state. -/
def journalEntries (active : JournaledState) (addr : Address) : List ContractSlot :=
  accountEntries sys addr ++ knownCodeEntries sys (journaledCodeHash active addr) ++
    immutableEntries sys zkState addr

def mergeZkJournaledStateData (addr : Address) (active fork : JournaledState) : JournaledState :=
  (journalEntries sys zkState active addr).foldl (mergeJournalEntry active) fork

/-- `merge_account_data`: the active journaled state becomes that of the fork. -/
def mergeAccountData (accounts : List Address) (active : CacheDb S)
    (activeJournaledState : JournaledState) (targetFork : Fork R) : JournaledState × Fork R :=
  let targetFork := accounts.foldl (fun (fork : Fork R) addr =>
      { db := mergeZkAccountData sys addr active
          (EvmBackendMergeStrategy.mergeDbAccountData addr active fork.db)
        journaledState := mergeZkJournaledStateData sys zkState addr activeJournaledState
          (EvmBackendMergeStrategy.mergeJournaledStateData addr activeJournaledState
            fork.journaledState) })
    targetFork
  (targetFork.journaledState, targetFork)

end

end ZksyncBackendMerge

/-! ## Reading a fork -/

section

variable {R : Type}

/-- A cached account, by its state and its slots. -/
def dbView (db : CacheDb R) (address : Address) : Option (Stored AccountState U256 U256) :=
  (db.accounts.get address).map fun account => ⟨account.accountState, account.storage⟩

/-- An account of the journaled state, by whether it was created and its slots. -/
def journalView (journal : JournaledState) (address : Address) :
    Option (Stored Bool U256 EvmStorageSlot) :=
  (journal.state.get address).map fun account => ⟨account.isCreated, account.storage⟩

/-- Both forks have the same values for a slot.  One may have its contract cached where the other
does not, if it is in the remote database and its storage is not marked as cleared or missing. -/
structure Alike (remote : R → Address → Prop) (slot : ContractSlot) (fork fork' : Fork R) :
    Prop where
  db : fork'.db.db = fork.db.db
  journalSlot : slotOf (journalView fork'.journaledState slot.1) slot.2 =
    slotOf (journalView fork.journaledState slot.1) slot.2
  created : (journalView fork'.journaledState slot.1).map (·.marks) = some true ↔
    (journalView fork.journaledState slot.1).map (·.marks) = some true
  cacheSlot : slotOf (dbView fork'.db slot.1) slot.2 = slotOf (dbView fork.db slot.1) slot.2
  state : (dbView fork'.db slot.1).map (·.marks) = (dbView fork.db slot.1).map (·.marks) ∨
    dbView fork.db slot.1 = none ∧ remote fork.db.db slot.1 ∧
      ∀ state ∈ (dbView fork'.db slot.1).map (·.marks),
        state ≠ .storageCleared ∧ state ≠ .notExisting

/-- Reads of slots through the journaled state and the database of a fork. -/
structure ForkReader (R E : Type) where
  read : Fork R → ContractSlot → Except E U256
  /-- The remote database has the account. -/
  remote : R → Address → Prop
  journaled : ∀ fork slot value,
    slotOf (journalView fork.journaledState slot.1) slot.2 = some value →
    read fork slot = .ok value.presentValue
  cached : ∀ fork slot value, journalView fork.journaledState slot.1 = none →
    slotOf (dbView fork.db slot.1) slot.2 = some value → read fork slot = .ok value
  alike : ∀ fork fork' slot, Alike remote slot fork fork' → read fork' slot = read fork slot

end

/-! ## The merge, slot by slot -/

def partOf (address : Address) (entry : ContractSlot) : List (Share U256) :=
  if entry.1 = address then [.slot entry.2] else []

/-- The parts of a contract that are taken over with the accounts: the whole of it if it is one of
them, and the entries of all. -/
def partsAt (address : Address) (accounts : List Address)
    (entries : Address → List ContractSlot) : List (Share U256) :=
  accounts.flatMap fun addr =>
    (if addr = address then [.whole] else []) ++ (entries addr).flatMap (partOf address)

/-- An entry, or the contract it is of, is visited for one of the accounts. -/
def Visits (accounts : List Address) (entries : Address → List ContractSlot)
    (slot : ContractSlot) : Prop :=
  ∃ addr ∈ accounts, addr = slot.1 ∨ slot ∈ entries addr

theorem covers_flatMap {K α : Type} [DecidableEq K] (l : List α) (f : α → List (Share K)) (k : K) :
    covers (l.flatMap f) k = true ↔ ∃ a ∈ l, covers (f a) k = true := by
  rw [covers, List.any_flatMap, List.any_eq_true]
  rfl

theorem covers_partOf (address : Address) (entry : ContractSlot) (index : U256) :
    covers (partOf address entry) index = true ↔ entry = (address, index) := by
  unfold partOf
  split
  · next haddress =>
    simp [covers, Prod.ext_iff, haddress]
  · next haddress =>
    simp [covers, Prod.ext_iff, haddress]

theorem covers_partsAt (accounts : List Address) (entries : Address → List ContractSlot)
    (slot : ContractSlot) :
    covers (partsAt slot.1 accounts entries) slot.2 = true ↔ Visits accounts entries slot := by
  rw [partsAt, covers_flatMap]
  refine exists_congr fun addr => and_congr_right fun _ => ?_
  rw [covers, List.any_append, ← covers, ← covers, Bool.or_eq_true, covers_flatMap]
  refine or_congr ?_ ?_
  · by_cases haddr : addr = slot.1
    · simp [covers]
    · simp [covers]
  · constructor
    · rintro ⟨entry, hmem, hentry⟩
      rw [covers_partOf] at hentry
      rwa [hentry] at hmem
    · exact fun hmem => ⟨slot, hmem, (covers_partOf ..).mpr rfl⟩

section

variable {R S : Type} (addr : Address) (active : CacheDb S) (forkDb : CacheDb R)

theorem dbView_mergeDbAccountData (address : Address) :
    dbView (EvmBackendMergeStrategy.mergeDbAccountData addr active forkDb) address =
      takeParts (dbView active address) (dbView forkDb address)
        (if addr = address then [.whole] else []) := by
  refine view_insert (fun hnone => ?_) (fun acc hacc => ?_) address
  · rw [EvmBackendMergeStrategy.mergeDbAccountData, hnone]
  · rw [EvmBackendMergeStrategy.mergeDbAccountData, hacc]
    cases forkDb.accounts.get addr <;> exact ⟨_, rfl, rfl⟩

theorem dbView_mergeDbEntry (entry : ContractSlot)
    (address : Address) : dbView (ZksyncBackendMerge.mergeDbEntry active forkDb entry) address =
      takeParts (dbView active address) (dbView forkDb address) (partOf address entry) := by
  refine view_insert (fun hnone => ?_) (fun acc hacc => ?_) address
  · rw [ZksyncBackendMerge.mergeDbEntry, hnone]
  · rw [ZksyncBackendMerge.mergeDbEntry, hacc]
    cases forkDb.accounts.get entry.1 <;> exact ⟨_, rfl, rfl⟩

theorem journalView_mergeJournaledStateData (active fork : JournaledState) (address : Address) :
    journalView (EvmBackendMergeStrategy.mergeJournaledStateData addr active fork) address =
      takeParts (journalView active address) (journalView fork address)
        (if addr = address then [.whole] else []) := by
  refine view_insert (fun hnone => ?_) (fun acc hacc => ?_) address
  · rw [EvmBackendMergeStrategy.mergeJournaledStateData, hnone]
  · rw [EvmBackendMergeStrategy.mergeJournaledStateData, hacc]
    cases fork.state.get addr <;> exact ⟨_, rfl, rfl⟩

theorem journalView_mergeJournalEntry (active fork : JournaledState) (entry : ContractSlot)
    (address : Address) :
    journalView (ZksyncBackendMerge.mergeJournalEntry active fork entry) address =
      takeParts (journalView active address) (journalView fork address) (partOf address entry) := by
  refine view_insert (fun hnone => ?_) (fun acc hacc => ?_) address
  · rw [ZksyncBackendMerge.mergeJournalEntry, hnone]
  · rw [ZksyncBackendMerge.mergeJournalEntry, hacc]
    cases fork.state.get entry.1 <;> exact ⟨_, rfl, rfl⟩

theorem db_mergeDbEntries (entries : List ContractSlot) (forkDb : CacheDb R) :
    (entries.foldl (ZksyncBackendMerge.mergeDbEntry active) forkDb).db = forkDb.db := by
  induction entries generalizing forkDb with
  | nil => rfl
  | cons entry entries ih =>
    rw [List.foldl_cons, ih, ZksyncBackendMerge.mergeDbEntry]
    cases active.accounts.get entry.1 <;> rfl

theorem db_mergeDbAccountData :
    (EvmBackendMergeStrategy.mergeDbAccountData addr active forkDb).db = forkDb.db := by
  rw [EvmBackendMergeStrategy.mergeDbAccountData]
  cases active.accounts.get addr <;> rfl

end

/-! ## Slots that are carried -/

structure Merge (R S : Type) where
  sys : SystemContracts
  zkState : ZksyncMergeState
  accounts : List Address
  active : CacheDb S
  journal : JournaledState
  target : Fork R

namespace Merge

variable {R S E : Type} (m : Merge R S) (reader : ForkReader R E) (slot : ContractSlot)
  (address : Address)

open ZksyncBackendMerge

def fork : Fork R := (mergeAccountData m.sys m.zkState m.accounts m.active m.journal m.target).2

/-- The entries of an account in the merge of the databases, and in that of the journaled states. -/
def inDb : Address → List ContractSlot := dbEntries m.sys m.active

def inJournal : Address → List ContractSlot := journalEntries m.sys m.zkState m.journal

theorem dbView_fork : dbView m.fork.db address =
    takeParts (dbView m.active address) (dbView m.target.db address)
      (partsAt address m.accounts m.inDb) := by
  refine view_foldl (fun fork : Fork R => dbView fork.db address) (fun fork addr => ?_)
    m.accounts m.target
  rw [takeParts_append, ← dbView_mergeDbAccountData]
  exact view_foldl (dbView · address)
    (fun db entry => dbView_mergeDbEntry m.active db entry address) _ _

theorem journalView_fork : journalView m.fork.journaledState address =
    takeParts (journalView m.journal address) (journalView m.target.journaledState address)
      (partsAt address m.accounts m.inJournal) := by
  refine view_foldl (fun fork : Fork R => journalView fork.journaledState address)
    (fun fork addr => ?_) m.accounts m.target
  rw [takeParts_append, ← journalView_mergeJournaledStateData]
  exact view_foldl (journalView · address)
    (fun fork entry => journalView_mergeJournalEntry m.journal fork entry address) _ _

theorem db_fork : m.fork.db.db = m.target.db.db := by
  unfold fork mergeAccountData
  generalize m.target = target
  induction m.accounts generalizing target with
  | nil => rfl
  | cons addr accounts ih =>
    refine (ih _).trans ?_
    exact (db_mergeDbEntries m.active _ _).trans (db_mergeDbAccountData addr m.active target.db)

def journaledValue : Option U256 :=
  (slotOf (journalView m.journal slot.1) slot.2).map (·.presentValue)

def cachedValue : Option U256 := slotOf (dbView m.active slot.1) slot.2

/-- The value that the active side knows: of the journaled state, or else of the cache. -/
def activeValue : Option U256 := (m.journaledValue slot).or (m.cachedValue slot)

/-- The slots of the ZKsync state of an account, with the code hash that the active side knows. -/
def zkSlots (addr : Address) : List ContractSlot :=
  accountEntries m.sys addr ++ knownCodeEntries m.sys
      ((journaledCodeHash m.journal addr).or (cachedCodeHash m.active addr)) ++
    immutableEntries m.sys m.zkState addr

/-- A slot of a system contract belongs to none of the accounts. -/
def Foreign : Prop :=
  slot.1 ∈ m.sys.all ∧ ¬ Visits m.accounts m.inJournal slot ∧ ¬ Visits m.accounts m.inDb slot

/-- Every slot of the persistent accounts that the active side knows is read from the fork with the
value of the active side. -/
def Complete : Prop :=
  ∀ addr ∈ m.accounts, ∀ slot ∈ m.zkSlots addr, ∀ value,
    m.activeValue slot = some value → reader.read m.fork slot = .ok value

/-- No slot that belongs to none of the accounts changes. -/
def Framed : Prop := ∀ slot, m.Foreign slot → reader.read m.fork slot = reader.read m.target slot

/-! ## When the merge is complete -/

/-- The slot of an account is in the active journaled state and merged there; or it is merged in
the cache, and neither journaled state has its contract. -/
def Carried (addr : Address) : Prop :=
  slot ∈ m.inJournal addr ∧ (m.journaledValue slot).isSome ∨
    slot ∈ m.inDb addr ∧ m.journal.state.get slot.1 = none ∧
      m.target.journaledState.state.get slot.1 = none

/-- A contract that the target does not have is taken over with harmless marks. -/
structure Harmless (contract : Address) : Prop where
  notAccount : contract ∉ m.accounts
  created : ∀ account, m.journal.state.get contract = some account →
    account.isCreated = false ∨ (m.target.journaledState.state.get contract).isSome
  state : ∀ account, m.active.accounts.get contract = some account →
    (m.target.db.accounts.get contract).isSome ∨ reader.remote m.target.db.db contract ∧
      account.accountState ≠ .storageCleared ∧ account.accountState ≠ .notExisting

variable {m reader slot}

theorem read_fork_of_carried {addr : Address} (haddr : addr ∈ m.accounts)
    (h : m.Carried slot addr) {value : U256} (hvalue : m.activeValue slot = some value) :
    reader.read m.fork slot = .ok value := by
  rcases h with ⟨hentry, hsome⟩ | ⟨hentry, hjournal, htarget⟩
  · have hcovers := (covers_partsAt m.accounts m.inJournal slot).mpr ⟨addr, haddr, .inr hentry⟩
    unfold activeValue journaledValue at hvalue
    unfold journaledValue at hsome
    cases hslot : slotOf (journalView m.journal slot.1) slot.2 with
    | none => simp [hslot] at hsome
    | some present =>
      rw [hslot] at hvalue
      cases hvalue
      apply reader.journaled
      rw [journalView_fork, slotOf_takeParts, hcovers, hslot]
      rfl
  · have hcovers := (covers_partsAt m.accounts m.inDb slot).mpr ⟨addr, haddr, .inr hentry⟩
    have hnone : journalView m.journal slot.1 = none := by rw [journalView, hjournal]; rfl
    have hcached : slotOf (dbView m.active slot.1) slot.2 = some value := by
      rw [activeValue, journaledValue, hnone] at hvalue
      exact hvalue
    apply reader.cached
    · rw [journalView_fork, hnone, journalView, htarget]
      rfl
    · rw [dbView_fork, slotOf_takeParts, hcovers, hcached]
      rfl

theorem hasWhole_partsAt {contract : Address} (h : contract ∉ m.accounts)
    (entries : Address → List ContractSlot) :
    hasWhole (partsAt contract m.accounts entries) = false := by
  rw [hasWhole, List.any_eq_false]
  intro part hpart
  obtain ⟨addr, haddr, hpart⟩ := List.mem_flatMap.mp hpart
  have hne : addr ≠ contract := fun heq => h (heq ▸ haddr)
  rw [if_neg hne, List.nil_append, List.mem_flatMap] at hpart
  obtain ⟨entry, _, hentry⟩ := hpart
  unfold partOf at hentry
  split at hentry
  · rw [List.mem_singleton.mp hentry]
    exact Bool.false_ne_true
  · cases hentry

/-- What belongs to none of the accounts is read as before. -/
theorem alike_fork (hforeign : m.Foreign slot) (h : m.Harmless reader slot.1) :
    Alike reader.remote slot m.target m.fork := by
  obtain ⟨_, hjournal, hdb⟩ := hforeign
  rw [← covers_partsAt, Bool.not_eq_true] at hjournal hdb
  have hcreated := marks_takeParts_of_no_whole (journalView m.journal slot.1)
    (journalView m.target.journaledState slot.1) (hasWhole_partsAt h.notAccount m.inJournal)
  have hstate := marks_takeParts_of_no_whole (dbView m.active slot.1)
    (dbView m.target.db slot.1) (hasWhole_partsAt h.notAccount m.inDb)
  rw [← journalView_fork] at hcreated
  rw [← dbView_fork] at hstate
  constructor
  · exact m.db_fork
  · rw [journalView_fork, slotOf_takeParts, hjournal]
    rfl
  · rcases hcreated with heq | ⟨hnone, source, hsource, heq⟩
    · rw [heq]
    · obtain ⟨account, haccount, rfl⟩ := Option.map_eq_some_iff.mp hsource
      have hold := Option.map_eq_none_iff.mp hnone
      rcases h.created account haccount with hnot | hsome
      · simp [heq, hnone, hnot]
      · simp [hold] at hsome
  · rw [dbView_fork, slotOf_takeParts, hdb]
    rfl
  · rcases hstate with heq | ⟨hnone, source, hsource, heq⟩
    · exact .inl heq
    · obtain ⟨account, haccount, rfl⟩ := Option.map_eq_some_iff.mp hsource
      have hold := Option.map_eq_none_iff.mp hnone
      rcases h.state account haccount with hsome | ⟨hremote, hmarks⟩
      · simp [hold] at hsome
      · refine .inr ⟨hnone, hremote, fun state hmem => ?_⟩
        rw [heq] at hmem
        cases hmem
        exact hmarks

end Merge

/-! ## An immutable key in the cache -/

/-- System contracts at their addresses, with keys that stand for the hashes. -/
def eraContracts : SystemContracts where
  l2BaseToken := 0x800a
  accountCodeStorage := 0x8002
  nonceHolder := 0x8003
  knownCodesStorage := 0x8004
  immutableSimulatorStorage := 0x8005
  getBalanceKey addr := addr.setWidth 256
  getAccountCodeKey addr := addr.setWidth 256
  getNonceKey addr := addr.setWidth 256

theorem toNat_injective : Function.Injective (BitVec.toNat : U256 → Nat) :=
  fun _ _ => BitVec.eq_of_toNat_eq

/-- The value 42 of an immutable variable of the account 1 is in the cache of the active database
only. -/
def cachedImmutable : Merge Unit Unit where
  sys := eraContracts
  zkState :=
    { persistentImmutableKeys := HashMap.empty.insert 1 {7}
      order := .sortedBy BitVec.toNat toNat_injective }
  accounts := [1]
  active :=
    { CacheDb.new () with
      accounts := HashMap.empty.insert eraContracts.immutableSimulatorStorage
        ⟨.default, .none, HashMap.empty.insert 7 42⟩ }
  journal := .new
  target := ⟨.new (), .new⟩

/-- Reads over a remote database that has every account, without storage. -/
def emptyRemote : ForkReader Unit Empty where
  read fork slot :=
    match slotOf (journalView fork.journaledState slot.1) slot.2 with
    | some value => .ok value.presentValue
    | none =>
      if (journalView fork.journaledState slot.1).map (·.marks) = some true then .ok 0
      else .ok ((slotOf (dbView fork.db slot.1) slot.2).getD 0)
  remote _ _ := True
  journaled fork slot value h := by rw [h]
  cached fork slot value hjournal h := by rw [hjournal, h]; rfl
  alike fork fork' slot h := by simp only [h.journalSlot, h.created, h.cacheSlot]

/-- The nonce 3 of the account 1 is in the active journaled state and its balance 9 in the cache,
and the target has nothing. -/
def journaledNonce : Merge Unit Unit :=
  { cachedImmutable with
    zkState := { cachedImmutable.zkState with persistentImmutableKeys := .empty }
    active :=
      { CacheDb.new () with
        accounts := HashMap.empty.insert eraContracts.l2BaseToken
          ⟨.default, .none, HashMap.empty.insert 1 9⟩ }
    journal :=
      { JournaledState.new with
        state := HashMap.empty.insert eraContracts.nonceHolder
          ⟨.default, HashMap.empty.insert 1 ⟨0, 3⟩, false, true⟩ } }

end Foundry.Zksync
