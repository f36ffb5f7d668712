import Foundry.Base.SwapRemove
import Foundry.Anvil.Pool.Transactions

/-!
# The ready queue

`ReadyTransactions` keeps the transactions that can go into a block.  Every ready
transaction lists the hashes it unlocks; the set of independent transactions holds
those that wait for nobody.  The loops of the source pop their work from the end of
a vector, so the head of a work list below is the end of the source's vector.
-/

namespace Foundry.Anvil.Pool

open HashMap

/-- The position of `hash` is swapped out; a list without it stays as it is. -/
def removeHash (unlocks : List TxHash) (hash : TxHash) : List TxHash :=
  match unlocks.idxOf? hash with
  | none => unlocks
  | some idx => (swapRemove unlocks idx).elim unlocks Prod.snd

theorem length_removeHash_le (unlocks : List TxHash) (hash : TxHash) :
    (removeHash unlocks hash).length ≤ unlocks.length := by
  unfold removeHash
  split
  · exact le_refl _
  · next idx _ =>
    cases hremove : swapRemove unlocks idx with
    | none => exact le_refl _
    | some removed =>
      have hlength := (swapRemove_perm hremove).length_eq
      rw [List.length_cons] at hlength
      exact Nat.le_of_succ_le hlength.le

structure PoolTransactionRef where
  transaction : PoolTransaction
  id : U64
deriving DecidableEq

/-- `Ord for PoolTransactionRef`: the priority first, then the smaller id is greater. -/
def PoolTransactionRef.key (r : PoolTransactionRef) : Nat ×ₗ Natᵒᵈ :=
  toLex (r.transaction.priority, OrderDual.toDual r.id.toNat)

structure ReadyTransaction where
  transaction : PoolTransactionRef
  /-- The transactions that get unlocked by this transaction. -/
  unlocks : List TxHash
  /-- Amount of required markers that are inherently provided. -/
  requiresOffset : Nat
deriving DecidableEq

namespace ReadyTransaction

def tx (r : ReadyTransaction) : PoolTransaction := r.transaction.transaction

def provides (r : ReadyTransaction) : List TxMarker := r.tx.provides
def requires (r : ReadyTransaction) : List TxMarker := r.tx.requires
def gasPrice (r : ReadyTransaction) : Nat := r.tx.gasPrice

end ReadyTransaction

structure ReadyTransactions where
  /-- The id of the next transaction. -/
  id : U64
  /-- Markers that are provided by ready transactions. -/
  providedMarkers : HashMap TxMarker TxHash
  readyTx : HashMap TxHash ReadyTransaction
  /-- Transactions that can be included directly. -/
  independentTransactions : SortedSet PoolTransactionRef.key
deriving DecidableEq

namespace ReadyTransactions

def empty : ReadyTransactions := ⟨0, .empty, .empty, .empty⟩

/-- `clear`: the id counter keeps running. -/
def clear (self : ReadyTransactions) : ReadyTransactions := ⟨self.id, .empty, .empty, .empty⟩

/-! ## Removal with dependants -/

/-- The loop over the required markers in `remove_with_markers`.  The pattern binds
`hash` again, so it is the provider's own hash that is searched in its list. -/
def unlinkRequires (provided : HashMap TxMarker TxHash) :
    HashMap TxHash ReadyTransaction → List TxMarker → HashMap TxHash ReadyTransaction
  | ready, [] => ready
  | ready, mark :: marks =>
    match provided.get mark with
    | none => unlinkRequires provided ready marks
    | some hash =>
      unlinkRequires provided
        (ready.update hash fun tx => { tx with unlocks := removeHash tx.unlocks hash }) marks

section

variable (markerFilter : Option (Finset TxMarker))

/-- The markers of a removed transaction that the filter does not keep. -/
def invalidated (tx : PoolTransaction) : List TxMarker :=
  tx.provides.filter fun mark =>
    match markerFilter with
    | some filter => decide (mark ∉ filter)
    | none => true

/-- The hashes pushed when a transaction is removed: all that it unlocks, but only
when it really gives up a marker. -/
def dependants (tx : ReadyTransaction) : List TxHash :=
  if invalidated markerFilter tx.tx = [] then [] else tx.unlocks.reverse

/-- One transaction taken out by `remove_with_markers`. -/
def removeOne (self : ReadyTransactions)
    (hash : TxHash) (tx : ReadyTransaction) : ReadyTransactions :=
  let provided := (invalidated markerFilter tx.tx).foldl HashMap.remove self.providedMarkers
  { self with
    providedMarkers := provided
    readyTx := unlinkRequires provided (self.readyTx.remove hash) tx.requires
    independentTransactions := self.independentTransactions.remove tx.transaction }

end

section

variable (provided : HashMap TxMarker TxHash) (ready : HashMap TxHash ReadyTransaction)

theorem weight_unlinkRequires_le (marks : List TxMarker) :
    (unlinkRequires provided ready marks).weight (fun tx => tx.unlocks.length) ≤
      ready.weight fun tx => tx.unlocks.length := by
  induction marks generalizing ready with
  | nil => exact le_refl _
  | cons mark marks ih =>
    unfold unlinkRequires
    cases provided.get mark with
    | none => exact ih ready
    | some hash =>
      refine le_trans (ih _) (weight_update_le _ _ _ _ ?_)
      intro tx
      exact length_removeHash_le tx.unlocks _

/-- The loop of `remove_with_markers`. -/
def removeLoop (markerFilter : Option (Finset TxMarker)) (self : ReadyTransactions)
    (txHashes : List TxHash) : ReadyTransactions × List PoolTransaction :=
  match txHashes with
  | [] => (self, [])
  | hash :: txHashes =>
    match _hget : self.readyTx.get hash with
    | none => removeLoop markerFilter self txHashes
    | some tx =>
      let (self, removed) := removeLoop markerFilter (removeOne markerFilter self hash tx)
        (dependants markerFilter tx ++ txHashes)
      (self, tx.tx :: removed)
termination_by self.readyTx.weight (fun tx => tx.unlocks.length) + txHashes.length
decreasing_by
  · simp
  · have hremove := weight_remove (fun tx : ReadyTransaction => tx.unlocks.length) _hget
    have hunlink := weight_unlinkRequires_le
      ((invalidated markerFilter tx.tx).foldl HashMap.remove self.providedMarkers)
      (self.readyTx.remove hash) tx.requires
    have hpushed : (dependants markerFilter tx).length ≤ tx.unlocks.length := by
      unfold dependants
      split <;> simp
    simp only [removeOne, List.length_append, List.length_cons]
    omega

/-- `remove_with_markers`: removes the transactions and those that depend on them. -/
def removeWithMarkers (self : ReadyTransactions) (txHashes : List TxHash)
    (markerFilter : Option (Finset TxMarker)) : ReadyTransactions × List PoolTransaction :=
  removeLoop markerFilter self txHashes.reverse

def clearTransactions (self : ReadyTransactions) (txHashes : List TxHash) :
    ReadyTransactions × List PoolTransaction :=
  self.removeWithMarkers txHashes none

/-! ## Adding and replacing -/

/-- The loop of `replaced_transactions` that collects the unlocked hashes and looks
for a transaction with the same markers that pays at least as much. -/
def collectReplaced (ready : HashMap TxHash ReadyTransaction) (tx : PoolTransaction) :
    List TxHash → Except PoolError (List TxHash)
  | [] => .ok []
  | hash :: hashes =>
    match ready.get hash with
    | none => collectReplaced ready tx hashes
    | some toRemove =>
      if toRemove.provides = tx.provides ∧ tx.gasPrice ≤ toRemove.gasPrice then
        .error (.replacementUnderpriced tx)
      else
        match collectReplaced ready tx hashes with
        | .error err => .error err
        | .ok unlocked => .ok (toRemove.unlocks ++ unlocked)

/-- `replaced_transactions`: removes the transactions replaced by `tx`, and returns
them with the hashes they unlocked. -/
def replacedTransactions (order : IterOrder) (self : ReadyTransactions) (tx : PoolTransaction) :
    ReadyTransactions × Except PoolError (List PoolTransaction × List TxHash) :=
  let removeHashes := (tx.provides.filterMap self.providedMarkers.get).toFinset
  if removeHashes = ∅ then (self, .ok ([], []))
  else
    match collectReplaced self.readyTx tx (order.hashes.visit removeHashes) with
    | .error err => (self, .error err)
    | .ok unlockedTx =>
      let (self, removedTx) :=
        self.removeWithMarkers (order.hashes.visit removeHashes) (some tx.provides.toFinset)
      (self, .ok (removedTx, unlockedTx))

/-- The loop of `add_transaction` over the required markers: links the transaction to
the providers in the queue, and returns whether it is independent and how many of its
markers nobody in the queue provides. -/
def linkRequires (provided : HashMap TxMarker TxHash) (hash : TxHash) :
    HashMap TxHash ReadyTransaction → List TxMarker →
      Except Panic (HashMap TxHash ReadyTransaction × Bool × Nat)
  | ready, [] => .ok (ready, true, 0)
  | ready, mark :: marks =>
    match provided.get mark with
    | some other =>
      match ready.get other with
      | none => .error .hashIncluded
      | some tx =>
        match linkRequires provided hash
          (ready.insert other { tx with unlocks := tx.unlocks ++ [hash] }) marks with
        | .error panic => .error panic
        | .ok (ready, _, requiresOffset) => .ok (ready, false, requiresOffset)
    | none =>
      match linkRequires provided hash ready marks with
      | .error panic => .error panic
      | .ok (ready, independent, requiresOffset) =>
        .ok (ready, independent, requiresOffset + 1)

def addTransaction (order : IterOrder) (self : ReadyTransactions) (tx : PendingPoolTransaction) :
    Except Panic (ReadyTransactions × Except PoolError (List PoolTransaction)) :=
  if !tx.isReady then .error .transactionMustBeReady
  else if self.readyTx.contains tx.transaction.hash then .error .transactionAlreadyIncluded
  else
    match self.replacedTransactions order tx.transaction with
    | (self, .error err) => .ok (self, .error err)
    | (self, .ok (replacedTx, unlocks)) =>
      let hash := tx.transaction.hash
      match linkRequires self.providedMarkers hash self.readyTx tx.transaction.requires with
      | .error panic => .error panic
      | .ok (ready, independent, requiresOffset) =>
        let transaction : PoolTransactionRef := ⟨tx.transaction, self.id⟩
        .ok ({ id := self.id + 1
               providedMarkers :=
                 tx.transaction.provides.foldl (fun provided mark => provided.insert mark hash)
                   self.providedMarkers
               readyTx := ready.insert hash ⟨transaction, unlocks, requiresOffset⟩
               independentTransactions :=
                 if independent then self.independentTransactions.insert transaction
                 else self.independentTransactions }, .ok replacedTx)

/-! ## Pruning -/

/-- The loop of `prune_tags` over the required markers of a pruned transaction: takes it
off the lists of its providers and returns the markers of those that unlock nobody else. -/
def prunePrevious (provided : HashMap TxMarker TxHash) (hash : TxHash) :
    HashMap TxHash ReadyTransaction → List TxMarker →
      HashMap TxHash ReadyTransaction × List TxMarker
  | ready, [] => (ready, [])
  | ready, marker :: markers =>
    match (provided.get marker).bind fun prevHash =>
        (ready.get prevHash).map fun tx2 => (prevHash, tx2) with
    | none => prunePrevious provided hash ready markers
    | some (prevHash, tx2) =>
      let unlocks := removeHash tx2.unlocks hash
      let (ready, tags) :=
        prunePrevious provided hash (ready.insert prevHash { tx2 with unlocks := unlocks }) markers
      (ready, (if unlocks = [] then tx2.provides else []) ++ tags)

/-- The loop of `prune_tags` over the hashes a pruned transaction unlocks. -/
def releaseUnlocked :
    HashMap TxHash ReadyTransaction → SortedSet PoolTransactionRef.key → List TxHash →
      HashMap TxHash ReadyTransaction × SortedSet PoolTransactionRef.key
  | ready, independent, [] => (ready, independent)
  | ready, independent, hash :: hashes =>
    match ready.get hash with
    | none => releaseUnlocked ready independent hashes
    | some tx =>
      let tx := { tx with requiresOffset := tx.requiresOffset + 1 }
      releaseUnlocked (ready.insert hash tx)
        (if tx.requiresOffset = tx.requires.length then independent.insert tx.transaction
         else independent) hashes

/-- The loop of `prune_tags` over the provided markers, with its assertion. -/
def dropProvided (currentMarker : TxMarker) (hash : TxHash) :
    HashMap TxMarker TxHash → List TxMarker → Except Panic (HashMap TxMarker TxHash)
  | provided, [] => .ok provided
  | provided, marker :: markers =>
    if provided.get marker = (if currentMarker = marker then none else some hash) then
      dropProvided currentMarker hash (provided.remove marker) markers
    else .error .exactlyOneTransactionProvidingGivenTag

/-- The state of the queue after `prune_tags` has taken `tx` out, apart from its own
markers, and the markers to prune next. -/
def pruneOne (self : ReadyTransactions) (marker : TxMarker) (hash : TxHash)
    (tx : ReadyTransaction) : ReadyTransactions × List TxMarker :=
  let provided := self.providedMarkers.remove marker
  let (ready, tags) := prunePrevious provided tx.tx.hash (self.readyTx.remove hash) tx.requires
  let (ready, independent) :=
    releaseUnlocked ready (self.independentTransactions.remove tx.transaction) tx.unlocks
  ({ self with
     providedMarkers := provided
     readyTx := ready
     independentTransactions := independent }, tags)

theorem get_of_previous {provided : HashMap TxMarker TxHash} {marker : TxMarker} {hash : TxHash}
    {ready : HashMap TxHash ReadyTransaction} {tx : ReadyTransaction}
    (h : ((provided.get marker).bind fun prevHash =>
      (ready.get prevHash).map fun tx2 => (prevHash, tx2)) = some (hash, tx)) :
    ready.get hash = some tx := by
  obtain ⟨prevHash, -, hmap⟩ := Option.bind_eq_some_iff.mp h
  obtain ⟨tx2, hget, heq⟩ := Option.map_eq_some_iff.mp hmap
  cases heq
  exact hget

theorem weight_prunePrevious (hash : TxHash)
    (ready : HashMap TxHash ReadyTransaction) (markers : List TxMarker)
    (f : PoolTransactionRef → Nat) :
    (prunePrevious provided hash ready markers).1.weight (fun tx => f tx.transaction) =
      ready.weight fun tx => f tx.transaction := by
  induction markers generalizing ready with
  | nil => rfl
  | cons marker markers ih =>
    unfold prunePrevious
    split
    · exact ih ready
    · next hprev => exact (ih _).trans (weight_insert_same _ (get_of_previous hprev) rfl)

theorem weight_releaseUnlocked
    (independent : SortedSet PoolTransactionRef.key) (hashes : List TxHash)
    (f : PoolTransactionRef → Nat) :
    (releaseUnlocked ready independent hashes).1.weight (fun tx => f tx.transaction) =
      ready.weight fun tx => f tx.transaction := by
  induction hashes generalizing ready independent with
  | nil => rfl
  | cons hash hashes ih =>
    unfold releaseUnlocked
    cases hget : ready.get hash with
    | none => exact ih ready independent
    | some tx =>
      exact (ih _ _).trans (weight_insert_same _ hget rfl)

/-- Every marker pushed by `prune_tags` belongs to a transaction still in the queue. -/
theorem length_prunePrevious_le (hash : TxHash)
    (ready : HashMap TxHash ReadyTransaction) (markers : List TxMarker) :
    (prunePrevious provided hash ready markers).2.length ≤
      markers.length * ready.weight fun tx => tx.transaction.transaction.provides.length := by
  induction markers generalizing ready with
  | nil => simp [prunePrevious]
  | cons marker markers ih =>
    rw [List.length_cons, Nat.succ_mul]
    unfold prunePrevious
    split
    · have hrest := ih ready
      omega
    · next prevHash tx2 hprev =>
      have hget := get_of_previous hprev
      have hsame := weight_insert_same
        (w := { tx2 with unlocks := removeHash tx2.unlocks hash })
        (fun tx : ReadyTransaction => tx.transaction.transaction.provides.length) hget rfl
      have hrest := ih (ready.insert prevHash { tx2 with unlocks := removeHash tx2.unlocks hash })
      rw [hsame] at hrest
      have hle := le_weight
        (fun tx : ReadyTransaction => tx.transaction.transaction.provides.length) hget
      have htags : (if removeHash tx2.unlocks hash = [] then tx2.provides else []).length ≤
          tx2.transaction.transaction.provides.length := by
        split
        · exact le_refl _
        · simp
      rw [List.length_append]
      omega

end

/-- `prune_tags` works through its markers in finitely many rounds: a pruned transaction
pays for the markers it pushes with its own required markers. -/
def pruneMeasure (self : ReadyTransactions) (remove : List TxMarker) : Nat :=
  (self.readyTx.weight fun tx => tx.transaction.transaction.requires.length) *
    (self.readyTx.weight fun tx => tx.transaction.transaction.provides.length) + remove.length

theorem pruneMeasure_lt {self : ReadyTransactions} {hash : TxHash} {tx : ReadyTransaction}
    (marker : TxMarker) (remove : List TxMarker) (provided : HashMap TxMarker TxHash)
    (hget : self.readyTx.get hash = some tx) :
    pruneMeasure { (pruneOne self marker hash tx).1 with providedMarkers := provided }
        ((pruneOne self marker hash tx).2.reverse ++ remove) <
      pruneMeasure self (marker :: remove) := by
  have hreq := weight_remove
    (fun tx : ReadyTransaction => tx.transaction.transaction.requires.length) hget
  have hprov := weight_remove
    (fun tx : ReadyTransaction => tx.transaction.transaction.provides.length) hget
  have htags := length_prunePrevious_le (self.providedMarkers.remove marker) tx.tx.hash
    (self.readyTx.remove hash) tx.requires
  simp only [pruneMeasure, pruneOne, List.length_append, List.length_reverse, List.length_cons]
  rw [weight_releaseUnlocked _ _ _ fun r => r.transaction.requires.length,
    weight_releaseUnlocked _ _ _ fun r => r.transaction.provides.length,
    weight_prunePrevious _ _ _ _ fun r => r.transaction.requires.length,
    weight_prunePrevious _ _ _ _ fun r => r.transaction.provides.length]
  rw [← hreq, ← hprov]
  change _ ≤ tx.transaction.transaction.requires.length * _ at htags
  generalize tx.transaction.transaction.requires.length = requires at *
  generalize ((self.readyTx.remove hash).weight fun tx =>
    tx.transaction.transaction.requires.length) = r at *
  generalize ((self.readyTx.remove hash).weight fun tx =>
    tx.transaction.transaction.provides.length) = p at *
  have hmul : r * p + requires * p ≤
      (r + requires) * (p + tx.transaction.transaction.provides.length) := by
    rw [← Nat.add_mul]
    exact Nat.mul_le_mul_left _ (Nat.le_add_right _ _)
  omega

/-- The loop of `prune_tags`. -/
def pruneLoop (self : ReadyTransactions) (remove : List TxMarker) :
    Except Panic (ReadyTransactions × List PoolTransaction) :=
  match remove with
  | [] => .ok (self, [])
  | marker :: remove =>
    match self.providedMarkers.get marker with
    | none => pruneLoop self remove
    | some hash =>
      match _hget : self.readyTx.get hash with
      | none =>
        pruneLoop { self with providedMarkers := self.providedMarkers.remove marker } remove
      | some tx =>
        let pruned := pruneOne self marker hash tx
        match dropProvided marker tx.tx.hash pruned.1.providedMarkers tx.provides with
        | .error panic => .error panic
        | .ok provided =>
          match pruneLoop { pruned.1 with providedMarkers := provided }
            (pruned.2.reverse ++ remove) with
          | .error panic => .error panic
          | .ok (self, removed) => .ok (self, tx.tx :: removed)
termination_by pruneMeasure self remove
decreasing_by
  · simp [pruneMeasure]
  · simp [pruneMeasure]
  · exact pruneMeasure_lt marker remove _ _hget

/-- `prune_tags`: removes the transaction that provides the marker and those that lead
only to it. -/
def pruneTags (self : ReadyTransactions) (marker : TxMarker) :
    Except Panic (ReadyTransactions × List PoolTransaction) :=
  pruneLoop self [marker]

end ReadyTransactions

end Foundry.Anvil.Pool
