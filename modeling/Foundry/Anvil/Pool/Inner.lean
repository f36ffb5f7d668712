import Foundry.Anvil.Pool.Iterator
import Foundry.Anvil.Pool.Pending

/-!
# The transaction pool

`PoolInner` joins the ready and the waiting queue.  Adding a ready transaction unlocks
waiting ones, which unlock others in turn; pruning a marker does the same after it has
taken transactions out.
-/

namespace Foundry.Anvil.Pool

structure PoolInner where
  readyTransactions : ReadyTransactions
  pendingTransactions : PendingTransactions
deriving DecidableEq

/-- What `add_ready_transaction` reports: the `ReadyTransaction` of the pool module. -/
structure ReadyOutcome where
  hash : TxHash
  /-- Transactions promoted to the ready queue. -/
  promoted : List TxHash
  /-- Transactions that failed and became discarded. -/
  discarded : List TxHash
  /-- Transactions removed from the ready pool. -/
  removed : List PoolTransaction
deriving DecidableEq

def ReadyOutcome.new (hash : TxHash) : ReadyOutcome := ⟨hash, [], [], []⟩

inductive AddedTransaction where
  | ready (outcome : ReadyOutcome)
  | pending (hash : TxHash)
deriving DecidableEq

structure PruneResult where
  promoted : List AddedTransaction
  failed : List TxHash
  pruned : List PoolTransaction
deriving DecidableEq

namespace PendingTransactions

theorem card_unlockHash_le {m : TxMarker} {p p' : PendingTransactions} {hash : TxHash}
    {unlocked : List PendingPoolTransaction} (h : unlockHash m p hash = .ok (p', unlocked)) :
    p'.waitingQueue.keys.card + unlocked.length ≤ p.waitingQueue.keys.card := by
  unfold unlockHash at h
  split at h
  · cases h
  · next tx hget =>
    dsimp only at h
    split at h
    · cases h
      exact Nat.succ_le_of_lt (HashMap.card_keys_remove_lt hget)
    · cases h
      simp [HashMap.keys_insert_of_get hget]

theorem card_unlockHashes_le {m : TxMarker} {p p' : PendingTransactions} {hashes : List TxHash}
    {unlocked : List PendingPoolTransaction} (h : unlockHashes m p hashes = .ok (p', unlocked)) :
    p'.waitingQueue.keys.card + unlocked.length ≤ p.waitingQueue.keys.card := by
  induction hashes generalizing p unlocked with
  | nil =>
    cases h
    exact Nat.le_refl _
  | cons hash hashes ih =>
    unfold unlockHashes at h
    split at h
    · cases h
    · next p1 u1 hfirst =>
      have h1 := card_unlockHash_le hfirst
      split at h
      · cases h
      · next p2 u2 hrest =>
        cases h
        have h2 := ih hrest
        rw [List.length_append]
        omega

theorem card_markAndUnlock_le {order : IterOrder} {p p' : PendingTransactions}
    {marks : List TxMarker} {unlocked : List PendingPoolTransaction}
    (h : p.markAndUnlock order marks = .ok (p', unlocked)) :
    p'.waitingQueue.keys.card + unlocked.length ≤ p.waitingQueue.keys.card := by
  induction marks generalizing p unlocked with
  | nil =>
    cases h
    exact Nat.le_refl _
  | cons mark marks ih =>
    unfold markAndUnlock at h
    dsimp only at h
    split at h
    · cases h
    · next p1 u1 hfirst =>
      have h1 := card_unlockHashes_le hfirst
      split at h
      · cases h
      · next p2 u2 hrest =>
        cases h
        have h2 := ih hrest
        dsimp only at h1
        rw [List.length_append]
        omega

end PendingTransactions

namespace PoolInner

def empty : PoolInner := ⟨.empty, .empty⟩

def clear (self : PoolInner) : PoolInner :=
  ⟨self.readyTransactions.clear, self.pendingTransactions.clear⟩

def contains (self : PoolInner) (txHash : TxHash) : Bool :=
  self.pendingTransactions.waitingQueue.contains txHash ||
    self.readyTransactions.readyTx.contains txHash

/-- The loop of `add_ready_transaction` over the queue of unlocked transactions. -/
def addReadyLoop (order : IterOrder) (self : PoolInner) (isNewTx : Bool)
    (txQueue : List PendingPoolTransaction) (ready : ReadyOutcome) :
    Except Panic (PoolInner × Except PoolError ReadyOutcome) :=
  match txQueue with
  | [] => .ok (self, .ok ready)
  | currentTx :: txQueue =>
    match _hunlock : self.pendingTransactions.markAndUnlock order
        currentTx.transaction.provides with
    | .error panic => .error panic
    | .ok (pending, unlocked) =>
      let currentHash := currentTx.transaction.hash
      match self.readyTransactions.addTransaction order currentTx with
      | .error panic => .error panic
      | .ok (readyTransactions, .ok replaced) =>
        addReadyLoop order ⟨readyTransactions, pending⟩ false (txQueue ++ unlocked) { ready with
            promoted := if isNewTx then ready.promoted else ready.promoted ++ [currentHash]
            removed := ready.removed ++ replaced }
      | .ok (readyTransactions, .error err) =>
        if isNewTx then .ok (⟨readyTransactions, pending⟩, .error err)
        else addReadyLoop order ⟨readyTransactions, pending⟩ false (txQueue ++ unlocked)
          { ready with discarded := ready.discarded ++ [currentHash] }
termination_by self.pendingTransactions.waitingQueue.keys.card + txQueue.length
decreasing_by
  all_goals
    have hcard := PendingTransactions.card_markAndUnlock_le _hunlock
    simp only [List.length_append, List.length_cons]
    omega

def addReadyTransaction (order : IterOrder) (self : PoolInner) (tx : PendingPoolTransaction) :
    Except Panic (PoolInner × Except PoolError AddedTransaction) :=
  let hash := tx.transaction.hash
  match self.addReadyLoop order true [tx] (.new hash) with
  | .error panic => .error panic
  | .ok (self, .error err) => .ok (self, .error err)
  | .ok (self, .ok ready) =>
    if ready.removed.any fun tx => tx.hash = hash then
      .ok ({ self with
        readyTransactions := (self.readyTransactions.clearTransactions ready.promoted).1 },
        .error .cyclicTransaction)
    else .ok (self, .ok (.ready ready))

def addTransaction (order : IterOrder) (self : PoolInner) (tx : PoolTransaction) :
    Except Panic (PoolInner × Except PoolError AddedTransaction) :=
  if self.contains tx.hash then .ok (self, .error (.alreadyImported tx))
  else
    let tx := PendingPoolTransaction.new tx self.readyTransactions.providedMarkers
    if !tx.isReady then
      match self.pendingTransactions.addTransaction order tx with
      | .error panic => .error panic
      | .ok (pending, .error err) => .ok ({ self with pendingTransactions := pending }, .error err)
      | .ok (pending, .ok ()) =>
        .ok ({ self with pendingTransactions := pending }, .ok (.pending tx.transaction.hash))
    else self.addReadyTransaction order tx

/-- The first loop of `prune_markers`: collects the unlocked and the pruned transactions. -/
def pruneLoop (order : IterOrder) (self : PoolInner) :
    List TxMarker → Except Panic (PoolInner × List PendingPoolTransaction × List PoolTransaction)
  | [] => .ok (self, [], [])
  | marker :: markers =>
    match self.pendingTransactions.markAndUnlock order [marker] with
    | .error panic => .error panic
    | .ok (pending, unlocked) =>
      match self.readyTransactions.pruneTags marker with
      | .error panic => .error panic
      | .ok (ready, removed) =>
        match pruneLoop order ⟨ready, pending⟩ markers with
        | .error panic => .error panic
        | .ok (self, imports, pruned) => .ok (self, unlocked ++ imports, removed ++ pruned)

/-- The second loop of `prune_markers`: adds the unlocked transactions. -/
def importLoop (order : IterOrder) (self : PoolInner) :
    List PendingPoolTransaction → Except Panic (PoolInner × List AddedTransaction × List TxHash)
  | [] => .ok (self, [], [])
  | tx :: imports =>
    match self.addReadyTransaction order tx with
    | .error panic => .error panic
    | .ok (self, res) =>
      match importLoop order self imports with
      | .error panic => .error panic
      | .ok (self, promoted, failed) =>
        match res with
        | .ok added => .ok (self, added :: promoted, failed)
        | .error _ => .ok (self, promoted, tx.transaction.hash :: failed)

section

variable (order : IterOrder) (self : PoolInner)

def pruneMarkers (markers : List TxMarker) : Except Panic (PoolInner × PruneResult) :=
  match self.pruneLoop order markers with
  | .error panic => .error panic
  | .ok (self, imports, pruned) =>
    match self.importLoop order imports with
    | .error panic => .error panic
    | .ok (self, promoted, failed) => .ok (self, ⟨promoted, failed, pruned⟩)

def removeInvalid (txHashes : List TxHash) : PoolInner × List PoolTransaction :=
  if txHashes = [] then (self, [])
  else
    let (ready, removed) := self.readyTransactions.removeWithMarkers txHashes none
    let (pending, waiting) := self.pendingTransactions.remove order txHashes
    (⟨ready, pending⟩, removed ++ waiting)

/-- `transactions_by_sender`: the waiting transactions of the sender in map order, then
the ready ones as the iterator yields them. -/
def transactionsBySender (sender : Address) : List PoolTransaction :=
  let pendingTxs := ((order.hashes.visit self.pendingTransactions.waitingQueue.keys).filterMap
    self.pendingTransactions.waitingQueue.get).map (·.transaction)
  let readyTxs := self.readyTransactions.getTransactions.collect
  (pendingTxs ++ readyTxs).filter fun tx => tx.sender = sender

def removeTransactionsByAddress (sender : Address) : PoolInner × List PoolTransaction :=
  self.removeInvalid order ((self.transactionsBySender order sender).map PoolTransaction.hash)

def dropTransaction (tx : TxHash) : PoolInner × Option PoolTransaction :=
  let (ready, removed) := self.readyTransactions.removeWithMarkers [tx] none
  ({ self with readyTransactions := ready }, removed.find? fun t => t.hash = tx)

def onMinedBlock (included invalid : List PoolTransaction) :
    Except Panic (PoolInner × PruneResult) :=
  (self.removeInvalid order (invalid.map PoolTransaction.hash)).1.pruneMarkers order
    (included.flatMap PoolTransaction.provides)

end

end PoolInner

end Foundry.Anvil.Pool
