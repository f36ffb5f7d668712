import Foundry.Base.Enumeration
import Foundry.Base.HashMap
import Foundry.Base.SortedSet
import Foundry.Base.Words
import Mathlib.Data.Prod.Lex

/-!
# Transactions of the anvil pool

A pool transaction names the markers it provides and the markers it requires.
The RPC layer gives every transaction one provided marker, built from its nonce
and sender, and at most one required marker, that of the previous nonce.
-/

namespace Foundry.Anvil.Pool

abbrev TxHash := B256

abbrev TxMarker := Bytes

/-- `to_marker`: the nonce in little-endian order, then the sender's address. -/
def toMarker (nonce : U64) (sender : Address) : TxMarker := toLeBytes 8 nonce ++ toBeBytes 20 sender

theorem toMarker_injective {n n' : U64} {a a' : Address}
    (h : toMarker n a = toMarker n' a') : n = n' ∧ a = a' := by
  obtain ⟨hn, ha⟩ := List.append_inj h (by simp)
  exact ⟨toLeBytes_injective hn, toLeBytes_injective (List.reverse_injective ha)⟩

/-- The fields of a signed transaction that the pool reads. -/
structure TypedTransaction where
  nonce : U64
  gasPrice : Nat
deriving DecidableEq

structure PendingTransaction where
  transaction : TypedTransaction
  sender : Address
  hash : TxHash
deriving DecidableEq

inductive TransactionOrder where
  | fifo
  | fees
deriving DecidableEq

def TransactionOrder.priority (order : TransactionOrder) (tx : TypedTransaction) : Nat :=
  match order with
  | .fifo => 0
  | .fees => tx.gasPrice

structure PoolTransaction where
  pendingTransaction : PendingTransaction
  /-- Markers required by the transaction. -/
  requires : List TxMarker
  /-- Markers that this transaction provides. -/
  provides : List TxMarker
  priority : Nat
deriving DecidableEq

namespace PoolTransaction

def hash (tx : PoolTransaction) : TxHash := tx.pendingTransaction.hash
def gasPrice (tx : PoolTransaction) : Nat := tx.pendingTransaction.transaction.gasPrice
def nonce (tx : PoolTransaction) : U64 := tx.pendingTransaction.transaction.nonce
def sender (tx : PoolTransaction) : Address := tx.pendingTransaction.sender

def marker (tx : PoolTransaction) : TxMarker := toMarker tx.nonce tx.sender

end PoolTransaction

inductive PoolError where
  | cyclicTransaction
  | replacementUnderpriced (tx : PoolTransaction)
  | alreadyImported (tx : PoolTransaction)
deriving DecidableEq

inductive Panic where
  | transactionMustNotBeReady
  | transactionIsAlreadyAdded
  | txIsIncluded
  | transactionMustBeReady
  | transactionAlreadyIncluded
  | hashIncluded
  | exactlyOneTransactionProvidingGivenTag
deriving DecidableEq

/-- The orders in which one pool operation meets the elements of its hash sets. -/
structure IterOrder where
  hashes : Enumeration TxHash
  markers : Enumeration TxMarker

/-- Hashes by value, markers in lexicographic order. -/
def IterOrder.increasing : IterOrder where
  hashes := Enumeration.sortedBy BitVec.toNat fun _ _ => BitVec.eq_of_toNat_eq
  markers := Enumeration.sortedBy (List.map BitVec.toNat)
    (List.map_injective_iff.mpr fun _ _ => BitVec.eq_of_toNat_eq)

/-! ## Transactions as the RPC layer builds them -/

def requiredMarker (providedNonce onChainNonce : U64) (sender : Address) : List TxMarker :=
  if providedNonce = onChainNonce then []
  else
    let prevNonce := saturatingSub providedNonce 1
    if onChainNonce ≤ prevNonce then [toMarker prevNonce sender] else []

/-- The pool transaction that `send_transaction`, `send_raw_transaction` and
`eth_send_unsigned_transaction` submit. -/
def poolTransaction (order : TransactionOrder) (pending : PendingTransaction)
    (onChainNonce : U64) : PoolTransaction where
  pendingTransaction := pending
  requires := requiredMarker pending.transaction.nonce onChainNonce pending.sender
  provides := [toMarker pending.transaction.nonce pending.sender]
  priority := order.priority pending.transaction

/-- The transaction a hash is the hash of.  Transaction hashes do not collide, so
one hash always names the same transaction and sender. -/
abbrev Preimage := TxHash → TypedTransaction × Address

def Preimage.pending (preimage : Preimage) (hash : TxHash) : PendingTransaction :=
  ⟨(preimage hash).1, (preimage hash).2, hash⟩

/-- The shape of every transaction that enters the pool. -/
structure Genuine (preimage : Preimage) (tx : PoolTransaction) : Prop where
  pending_eq : tx.pendingTransaction = preimage.pending tx.hash
  provides_eq : tx.provides = [tx.marker]
  requires_eq : tx.requires = [] ∨
    ∃ prev : U64, prev.toNat + 1 = tx.nonce.toNat ∧ tx.requires = [toMarker prev tx.sender]

theorem requiredMarker_cases (nonce onChainNonce : U64) (sender : Address) :
    requiredMarker nonce onChainNonce sender = [] ∨
      ∃ prev : U64, prev.toNat + 1 = nonce.toNat ∧
        requiredMarker nonce onChainNonce sender = [toMarker prev sender] := by
  unfold requiredMarker
  split
  · exact .inl rfl
  · next hne =>
    dsimp only
    split
    · next hle =>
      refine .inr ⟨saturatingSub nonce 1, ?_, rfl⟩
      rw [BitVec.le_def] at hle
      have hsub : (saturatingSub nonce 1).toNat = nonce.toNat - 1 := toNat_saturatingSub nonce 1
      have hpos : nonce.toNat ≠ 0 := by
        intro hz
        exact hne (BitVec.eq_of_toNat_eq (by omega))
      omega
    · exact .inl rfl

theorem poolTransaction_genuine (preimage : Preimage) (order : TransactionOrder)
    (hash : TxHash) (onChainNonce : U64) :
    Genuine preimage (poolTransaction order (preimage.pending hash) onChainNonce) where
  pending_eq := rfl
  provides_eq := rfl
  requires_eq := requiredMarker_cases _ _ _

namespace Genuine

variable {preimage : Preimage} {tx tx' : PoolTransaction}

section

variable (h : Genuine preimage tx) {m : TxMarker}

include h

theorem nonce_eq : tx.nonce = (preimage tx.hash).1.nonce := by
  rw [PoolTransaction.nonce, h.pending_eq]
  rfl

theorem sender_eq : tx.sender = (preimage tx.hash).2 := by
  rw [PoolTransaction.sender, h.pending_eq]
  rfl

theorem marker_eq_of_hash (h' : Genuine preimage tx')
    (heq : tx.hash = tx'.hash) : tx.marker = tx'.marker := by
  rw [PoolTransaction.marker, PoolTransaction.marker, h.nonce_eq, h'.nonce_eq, h.sender_eq,
    h'.sender_eq, heq]

theorem mem_provides : m ∈ tx.provides ↔ m = tx.marker := by
  rw [h.provides_eq, List.mem_singleton]

theorem mem_requires (hm : m ∈ tx.requires) : tx.requires = [m] ∧
      ∃ prev : U64, prev.toNat + 1 = tx.nonce.toNat ∧ m = toMarker prev tx.sender := by
  rcases h.requires_eq with hnil | ⟨prev, hprev, heq⟩
  · rw [hnil] at hm
    exact absurd hm List.not_mem_nil
  · rw [heq, List.mem_singleton] at hm
    exact ⟨by rw [heq, hm], prev, hprev, hm⟩

theorem nonce_of_requires (hm : tx'.marker ∈ tx.requires) :
    tx'.sender = tx.sender ∧ tx'.nonce.toNat + 1 = tx.nonce.toNat := by
  obtain ⟨-, prev, hprev, heq⟩ := h.mem_requires hm
  obtain ⟨hn, hs⟩ := toMarker_injective heq
  exact ⟨hs, by rw [hn, hprev]⟩

theorem marker_not_mem_requires : tx.marker ∉ tx.requires := by
  intro hm
  have hn := (h.nonce_of_requires hm).2
  omega

theorem requires_unique (h' : Genuine preimage tx')
    (heq : tx.marker = tx'.marker) {m' : TxMarker} (hm : m ∈ tx.requires)
    (hm' : m' ∈ tx'.requires) : m = m' := by
  obtain ⟨-, prev, hprev, rfl⟩ := h.mem_requires hm
  obtain ⟨-, prev', hprev', rfl⟩ := h'.mem_requires hm'
  obtain ⟨hn, hs⟩ := toMarker_injective heq
  have hsame : prev = prev' := by
    rw [hn] at hprev
    exact BitVec.eq_of_toNat_eq (by omega)
  rw [hsame, hs]

theorem requires_length_le : tx.requires.length ≤ 1 := by
  rcases h.requires_eq with hnil | ⟨prev, -, heq⟩
  · simp [hnil]
  · simp [heq]

end

end Genuine

/-! ## Waiting transactions -/

/-- A transaction on its way into the pool, with the markers that neither the
pool nor the chain has provided yet. -/
structure PendingPoolTransaction where
  transaction : PoolTransaction
  missingMarkers : Finset TxMarker
deriving DecidableEq

namespace PendingPoolTransaction

def new (transaction : PoolTransaction) (provided : HashMap TxMarker TxHash) :
    PendingPoolTransaction where
  transaction := transaction
  missingMarkers := (transaction.requires.filter fun m => !provided.contains m).toFinset

def mark (tx : PendingPoolTransaction) (marker : TxMarker) : PendingPoolTransaction :=
  { tx with missingMarkers := tx.missingMarkers.erase marker }

def isReady (tx : PendingPoolTransaction) : Bool := decide (tx.missingMarkers = ∅)

theorem isReady_iff {tx : PendingPoolTransaction} :
    tx.isReady = true ↔ tx.missingMarkers = ∅ := decide_eq_true_iff

theorem mem_missing_new {tx : PoolTransaction} {provided : HashMap TxMarker TxHash} {m : TxMarker} :
    m ∈ (new tx provided).missingMarkers ↔ m ∈ tx.requires ∧ provided.get m = none := by
  simp [new, HashMap.contains_eq_false]

end PendingPoolTransaction

end Foundry.Anvil.Pool
