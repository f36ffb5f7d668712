import Foundry.Anvil.Pool.Ready

/-!
# Iterating over the ready queue

`TransactionsIterator` works on copies of the queue's maps: it takes the greatest
independent transaction and inserts what that one unlocks.
-/

namespace Foundry.Anvil.Pool

structure TransactionsIterator where
  all : HashMap TxHash ReadyTransaction
  awaiting : HashMap TxHash (Nat × PoolTransactionRef)
  independent : SortedSet PoolTransactionRef.key
deriving DecidableEq

namespace TransactionsIterator

/-- Depending on the number of satisfied requirements insert the reference either into
the awaiting map or into the independent set. -/
def independentOrAwaiting (self : TransactionsIterator) (satisfied : Nat)
    (txRef : PoolTransactionRef) : TransactionsIterator :=
  if txRef.transaction.requires.length ≤ satisfied then
    { self with independent := self.independent.insert txRef }
  else { self with awaiting := self.awaiting.insert txRef.transaction.hash (satisfied, txRef) }

/-- One hash of the loop over the transactions that just got unlocked. -/
def unlockNext (self : TransactionsIterator) (hash : TxHash) : TransactionsIterator :=
  match self.awaiting.get hash with
  | some (satisfied, txRef) =>
    independentOrAwaiting { self with awaiting := self.awaiting.remove hash } (satisfied + 1) txRef
  | none =>
    match self.all.get hash with
    | none => self
    | some next => independentOrAwaiting self (next.requiresOffset + 1) next.transaction

def next (self : TransactionsIterator) : Option (PoolTransaction × TransactionsIterator) :=
  match _hbest : self.independent.last? with
  | none => none
  | some best =>
    match self.all.get best.transaction.hash with
    | none => next { self with independent := self.independent.remove best }
    | some ready =>
      some (best.transaction, ready.unlocks.foldl unlockNext
        { self with independent := self.independent.remove best })
termination_by self.independent.elems.length
decreasing_by exact SortedSet.length_remove_lt (SortedSet.mem_of_last? _hbest)

def take : Nat → TransactionsIterator → List PoolTransaction
  | 0, _ => []
  | fuel + 1, self =>
    match self.next with
    | none => []
    | some (tx, self) => tx :: take fuel self

/-- More calls of `next` than any iterator of the pool answers. -/
def bound (self : TransactionsIterator) : Nat :=
  self.independent.elems.length * (self.all.keys.card + 1)

def collect (self : TransactionsIterator) : List PoolTransaction := take self.bound self

end TransactionsIterator

def ReadyTransactions.getTransactions (self : ReadyTransactions) : TransactionsIterator where
  all := self.readyTx
  awaiting := .empty
  independent := self.independentTransactions

end Foundry.Anvil.Pool
