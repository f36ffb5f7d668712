import Foundry.Anvil.Pool.Invariant

/-!
# Operations of the pool and their calls on the ready queue

A run is a list of pool operations, each with the iteration order its hash sets happen
to have.  Every operation works on the ready queue through four calls; listing them
with the queue they are made on reduces a property of the ready queue over runs to a
property of single calls.
-/

namespace Foundry.Anvil.Pool

/-- The operations of the pool.  A transaction is submitted through the RPC layer, which
reads the sender's nonce from the chain. -/
inductive Op where
  | addTransaction (txOrder : TransactionOrder) (hash : TxHash) (onChainNonce : U64)
  | pruneMarkers (markers : List TxMarker)
  | onMinedBlock (included invalid : List PoolTransaction)
  | removeInvalid (txHashes : List TxHash)
  | removeTransactionsByAddress (sender : Address)
  | dropTransaction (tx : TxHash)
  | clear

inductive ReadyCall where
  | add (tx : PoolTransaction)
  | prune (marker : TxMarker)
  | remove (txHashes : List TxHash)
  | clear
deriving DecidableEq

def ReadyCall.after (r : ReadyTransactions) : ReadyCall → ReadyTransactions
  | .add tx => r.offer tx
  | .prune marker =>
    match r.pruneTags marker with
    | .error _ => r
    | .ok (r, _) => r
  | .remove txHashes => (r.removeWithMarkers txHashes none).1
  | .clear => r.clear

/-- What the pool guarantees about the arguments of a call. -/
def ReadyCall.Proper (preimage : Preimage) (r : ReadyTransactions) : ReadyCall → Prop
  | .add tx => Genuine preimage tx ∧ r.readyTx.get tx.hash = none
  | _ => True

namespace PoolInner

def step (preimage : Preimage) (order : IterOrder) (self : PoolInner) :
    Op → Except Panic PoolInner
  | .addTransaction txOrder hash onChainNonce =>
    (self.addTransaction order
      (poolTransaction txOrder (preimage.pending hash) onChainNonce)).map Prod.fst
  | .pruneMarkers markers => (self.pruneMarkers order markers).map Prod.fst
  | .onMinedBlock included invalid => (self.onMinedBlock order included invalid).map Prod.fst
  | .removeInvalid txHashes => .ok (self.removeInvalid order txHashes).1
  | .removeTransactionsByAddress sender => .ok (self.removeTransactionsByAddress order sender).1
  | .dropTransaction tx => .ok (self.dropTransaction tx).1
  | .clear => .ok self.clear

def run (preimage : Preimage) : PoolInner → List (IterOrder × Op) → Except Panic PoolInner
  | self, [] => .ok self
  | self, (order, op) :: ops =>
    match self.step preimage order op with
    | .error panic => .error panic
    | .ok self => run preimage self ops

/-! ## The calls of an operation -/

def addReadyCalls (order : IterOrder) (self : PoolInner) (isNewTx : Bool)
    (txQueue : List PendingPoolTransaction) : List (ReadyTransactions × ReadyCall) :=
  match txQueue with
  | [] => []
  | currentTx :: txQueue =>
    match _hunlock : self.pendingTransactions.markAndUnlock order
        currentTx.transaction.provides with
    | .error _ => []
    | .ok (pending, unlocked) =>
      (self.readyTransactions, .add currentTx.transaction) ::
        match self.readyTransactions.addTransaction order currentTx with
        | .error _ => []
        | .ok (readyTransactions, .ok _) =>
          addReadyCalls order ⟨readyTransactions, pending⟩ false (txQueue ++ unlocked)
        | .ok (readyTransactions, .error _) =>
          if isNewTx then []
          else addReadyCalls order ⟨readyTransactions, pending⟩ false (txQueue ++ unlocked)
termination_by self.pendingTransactions.waitingQueue.keys.card + txQueue.length
decreasing_by
  all_goals
    have hcard := PendingTransactions.card_markAndUnlock_le _hunlock
    simp only [List.length_append, List.length_cons]
    omega

/-- The calls of the first loop of `prune_markers`. -/
def pruneCalls (order : IterOrder) (self : PoolInner) :
    List TxMarker → List (ReadyTransactions × ReadyCall)
  | [] => []
  | marker :: markers =>
    (self.readyTransactions, .prune marker) ::
      match self.pendingTransactions.markAndUnlock order [marker],
        self.readyTransactions.pruneTags marker with
      | .ok (pending, _), .ok (ready, _) => pruneCalls order ⟨ready, pending⟩ markers
      | _, _ => []

/-- The calls of the second loop of `prune_markers`. -/
def importCalls (order : IterOrder) (self : PoolInner) :
    List PendingPoolTransaction → List (ReadyTransactions × ReadyCall)
  | [] => []
  | tx :: imports =>
    self.addReadyCalls order true [tx] ++
      match self.addReadyTransaction order tx with
      | .error _ => []
      | .ok (self, _) => importCalls order self imports

def pruneMarkersCalls (order : IterOrder) (self : PoolInner) (markers : List TxMarker) :
    List (ReadyTransactions × ReadyCall) :=
  self.pruneCalls order markers ++
    match self.pruneLoop order markers with
    | .error _ => []
    | .ok (self, imports, _) => self.importCalls order imports

def removeInvalidCalls (self : PoolInner) (txHashes : List TxHash) :
    List (ReadyTransactions × ReadyCall) :=
  if txHashes = [] then [] else [(self.readyTransactions, .remove txHashes)]

def readyCalls (preimage : Preimage) (order : IterOrder) (self : PoolInner) :
    Op → List (ReadyTransactions × ReadyCall)
  | .addTransaction txOrder hash onChainNonce =>
    let tx := poolTransaction txOrder (preimage.pending hash) onChainNonce
    let pending := PendingPoolTransaction.new tx self.readyTransactions.providedMarkers
    if self.contains tx.hash || !pending.isReady then []
    else self.addReadyCalls order true [pending]
  | .pruneMarkers markers => self.pruneMarkersCalls order markers
  | .onMinedBlock included invalid =>
    self.removeInvalidCalls (invalid.map PoolTransaction.hash) ++
      (self.removeInvalid order (invalid.map PoolTransaction.hash)).1.pruneMarkersCalls order
        (included.flatMap PoolTransaction.provides)
  | .removeInvalid txHashes => self.removeInvalidCalls txHashes
  | .removeTransactionsByAddress sender =>
    self.removeInvalidCalls ((self.transactionsBySender order sender).map PoolTransaction.hash)
  | .dropTransaction tx => [(self.readyTransactions, .remove [tx])]
  | .clear => [(self.readyTransactions, .clear)]

def runCalls (preimage : Preimage) : PoolInner → List (IterOrder × Op) →
    List (ReadyTransactions × ReadyCall)
  | _, [] => []
  | self, (order, op) :: ops =>
    self.readyCalls preimage order op ++
      match self.step preimage order op with
      | .error _ => []
      | .ok self => runCalls preimage self ops

end PoolInner

end Foundry.Anvil.Pool
