import Foundry.Anvil.Pool.Inner
import Foundry.Anvil.Pool.ReadyInv

/-!
# The representation invariant of the pool

Adding and pruning move transactions between the two queues; in between they are in
neither.  The invariant below is about the queues at rest, together with what is known
about the transactions in flight.
-/

namespace Foundry.Anvil.Pool

open List

structure PoolInv (preimage : Preimage) (pool : PoolInner) : Prop where
  ready : ReadyInv preimage pool.readyTransactions
  pending : PendingInv preimage pool.pendingTransactions
  disjoint : ∀ {h t}, pool.readyTransactions.readyTx.get h = some t →
    pool.pendingTransactions.waitingQueue.get h = none
  missing_free : ∀ {h w m}, pool.pendingTransactions.waitingQueue.get h = some w →
    m ∈ w.missingMarkers → pool.readyTransactions.providedMarkers.get m = none

/-- Transactions that have left the waiting queue and are still to be added. -/
structure InFlight (preimage : Preimage) (pool : PoolInner)
    (queue : List PendingPoolTransaction) : Prop where
  genuine : ∀ tx ∈ queue, Genuine preimage tx.transaction
  unlocked : ∀ tx ∈ queue, tx.missingMarkers = ∅
  nodup : (queue.map fun tx => tx.transaction.hash).Nodup
  absent : ∀ tx ∈ queue, pool.contains tx.transaction.hash = false

namespace ReadyTransactions

variable {preimage : Preimage} {r : ReadyTransactions} {tx : PoolTransaction}

def offer (r : ReadyTransactions) (tx : PoolTransaction) : ReadyTransactions :=
  if r.Admits tx then r.accept tx else r

theorem offer_ready {h : TxHash} (hr : ReadyInv preimage r) (hgen : Genuine preimage tx)
    (hnone : r.readyTx.get h = none) (hne : h ≠ tx.hash) :
    (r.offer tx).readyTx.get h = none := by
  unfold offer
  split
  · cases hget : (r.accept tx).readyTx.get h with
    | none => rfl
    | some t =>
      rcases (get_accept hr hgen).mp hget with ⟨heq, _⟩ | ⟨_, s, hs, _⟩
      · exact absurd heq hne
      · rw [hnone] at hs
        cases hs
  · exact hnone

end ReadyTransactions

namespace PoolInner

open ReadyTransactions PendingTransactions

variable {preimage : Preimage} {pool : PoolInner} {tx : PendingPoolTransaction}
  {queue : List PendingPoolTransaction} {h : TxHash} {order : IterOrder}
  {w : PendingPoolTransaction}

theorem contains_eq_false_iff :
    pool.contains h = false ↔ pool.pendingTransactions.waitingQueue.get h = none ∧
      pool.readyTransactions.readyTx.get h = none := by
  unfold contains
  rw [Bool.or_eq_false_iff, HashMap.contains_eq_false, HashMap.contains_eq_false]

theorem empty_inv : PoolInv preimage empty where
  ready := ReadyTransactions.empty_inv
  pending := PendingTransactions.empty_inv
  disjoint _ := rfl
  missing_free _ _ := rfl

theorem clear_inv (pool : PoolInner) : PoolInv preimage pool.clear where
  ready := ReadyTransactions.clear_inv _
  pending := PendingTransactions.empty_inv
  disjoint _ := rfl
  missing_free _ _ := rfl

/-! ## Unlocking a marker -/

/-- What unlocking one marker does to the waiting queue. -/
structure Released (preimage : Preimage) (order : IterOrder) (p : PendingTransactions)
    (m : TxMarker) (p' : PendingTransactions) (unlocked : List PendingPoolTransaction) :
    Prop where
  unlock : p.markAndUnlock order [m] = .ok (p', unlocked)
  inv : PendingInv preimage p'
  stay : ∀ {h w}, p'.waitingQueue.get h = some w ↔
    p.waitingQueue.get h = some w ∧ m ∉ w.missingMarkers
  index_none : ∀ {h w}, p.waitingQueue.get h = some w → m ∈ w.missingMarkers →
    p'.waitingMarkers.get w.transaction.provides = none
  index_same : ∀ {k}, (∀ h w, p.waitingQueue.get h = some w → m ∈ w.missingMarkers →
    w.transaction.provides ≠ k) → p'.waitingMarkers.get k = p.waitingMarkers.get k
  left : ∀ u ∈ unlocked, ∃ w, p.waitingQueue.get u.transaction.hash = some w ∧
    u.transaction = w.transaction ∧ u.missingMarkers = ∅ ∧ w.transaction.requires = [m] ∧
    p'.waitingQueue.get u.transaction.hash = none
  hashes : unlocked.map (fun u => u.transaction.hash) = p.visited order m

theorem Released.mem_unlocked {p p' : PendingTransactions} {m : TxMarker}
    {unlocked : List PendingPoolTransaction} {h : TxHash}
    (hrel : Released preimage order p m p' unlocked) (hp : PendingInv preimage p)
    (hw : p.waitingQueue.get h = some w) :
    h ∈ unlocked.map (fun u => u.transaction.hash) ↔ m ∈ w.missingMarkers := by
  rw [hrel.hashes, mem_visited_of_get hp order hw]

/-- Unlocking a marker ends, in whatever order its hashes are visited. -/
theorem released {p : PendingTransactions} (hp : PendingInv preimage p) (order : IterOrder)
    (m : TxMarker) : ∃ p' unlocked, Released preimage order p m p' unlocked := by
  obtain ⟨p', unlocked, heq, _, hun, hp'⟩ := markAndUnlock_spec hp order m
  have hvisit : ∀ {h w}, p.waitingQueue.get h = some w →
      (h ∈ p.visited order m ↔ m ∈ w.missingMarkers) := mem_visited_of_get hp order
  refine ⟨p', unlocked, heq, hp', ?_, ?_, ?_, ?_, ?_⟩
  · intro h w
    rw [hun.queue h, ite_eq_iff]
    simp only [reduceCtorEq, and_false, false_or]
    rw [and_comm]
    exact and_congr_right fun hw => not_congr (hvisit hw)
  · intro h w hw hm
    exact hun.index_none h ((hvisit hw).mpr hm) w hw
  · intro k hk
    exact hun.index_same k fun h hv w hw => hk h w hw ((hvisit hw).mp hv)
  · intro u hu
    obtain ⟨h, hv, w, hw, rfl⟩ := hun.mem_txs.mp hu
    obtain ⟨w', hw', hm⟩ := (mem_visited_iff hp order).mp hv
    cases hw.symm.trans hw'
    obtain ⟨k, hk, hrequires⟩ := hp.missing hw
    have hkm : k = m := Finset.singleton_injective (hk.symm.trans hm)
    have hhash : (readied w).transaction.hash = h := by
      show w.transaction.hash = h
      exact hp.hash_eq hw
    rw [hhash]
    exact ⟨w, hw, rfl, rfl, by rw [hrequires, hkm], by rw [hun.queue h, if_pos hv]⟩
  · apply hun.map_hash hp
    intro h hv
    obtain ⟨w, hw, _⟩ := (mem_visited_iff hp order).mp hv
    exact ⟨w, hw⟩

theorem ready_none_of_waiting (hinv : PoolInv preimage pool)
    (hw : pool.pendingTransactions.waitingQueue.get h = some w) :
    pool.readyTransactions.readyTx.get h = none := by
  cases hget : pool.readyTransactions.readyTx.get h with
  | none => rfl
  | some t =>
    rw [hinv.disjoint hget] at hw
    cases hw

/-- What a marker releases can join the transactions in flight. -/
theorem inFlight_append {m : TxMarker} {r : ReadyTransactions}
    {pending : PendingTransactions} {unlocked : List PendingPoolTransaction}
    (hinv : PoolInv preimage pool) (hq : InFlight preimage pool queue)
    (hrel : Released preimage order pool.pendingTransactions m pending unlocked)
    (hqueue : ∀ q ∈ queue, r.readyTx.get q.transaction.hash = none)
    (hwaiting : ∀ h w, pool.pendingTransactions.waitingQueue.get h = some w →
      r.readyTx.get h = none) :
    InFlight preimage ⟨r, pending⟩ (queue ++ unlocked) := by
  have hnotWaiting : ∀ q ∈ queue,
      pool.pendingTransactions.waitingQueue.get q.transaction.hash = none :=
    fun q hq' => (contains_eq_false_iff.mp (hq.absent q hq')).1
  constructor
  · intro u hu
    rcases mem_append.mp hu with hu | hu
    · exact hq.genuine u hu
    · obtain ⟨w, hw, htx, _⟩ := hrel.left u hu
      rw [htx]
      exact hinv.pending.genuine hw
  · intro u hu
    rcases mem_append.mp hu with hu | hu
    · exact hq.unlocked u hu
    · obtain ⟨w, _, _, hmissing, _⟩ := hrel.left u hu
      exact hmissing
  · rw [map_append]
    refine nodup_append'.mpr ⟨hq.nodup, ?_, ?_⟩
    · rw [hrel.hashes]
      exact nodup_visited order _ _
    intro h hh hu
    obtain ⟨q, hq', rfl⟩ := mem_map.mp hh
    obtain ⟨u, hu, heq⟩ := mem_map.mp hu
    obtain ⟨w, hw, _⟩ := hrel.left u hu
    rw [heq, hnotWaiting q hq'] at hw
    cases hw
  · intro u hu
    rw [contains_eq_false_iff]
    rcases mem_append.mp hu with hu | hu
    · refine ⟨?_, hqueue u hu⟩
      cases hget : pending.waitingQueue.get u.transaction.hash with
      | none => rfl
      | some w =>
        have hw := (hrel.stay.mp hget).1
        rw [hnotWaiting u hu] at hw
        cases hw
    · obtain ⟨w, hw, _, _, _, hnone⟩ := hrel.left u hu
      exact ⟨hnone, hwaiting _ w hw⟩

/-! ## One round of `add_ready_transaction` -/

/-- What a round does with the transaction at the head of the queue. -/
structure Round (preimage : Preimage) (order : IterOrder) (pool : PoolInner)
    (tx : PendingPoolTransaction) (queue : List PendingPoolTransaction)
    (pending : PendingTransactions) (unlocked : List PendingPoolTransaction) : Prop where
  released : Released preimage order pool.pendingTransactions tx.transaction.marker pending
    unlocked
  unlock : pool.pendingTransactions.markAndUnlock order tx.transaction.provides =
    .ok (pending, unlocked)
  inv : PoolInv preimage ⟨pool.readyTransactions.offer tx.transaction, pending⟩
  inFlight : InFlight preimage ⟨pool.readyTransactions.offer tx.transaction, pending⟩
    (queue ++ unlocked)
  later : ∀ u ∈ unlocked, u.transaction.sender = tx.transaction.sender ∧
    tx.transaction.nonce.toNat < u.transaction.nonce.toNat

theorem round (hinv : PoolInv preimage pool) (hq : InFlight preimage pool (tx :: queue))
    (order : IterOrder) :
    ∃ pending unlocked, Round preimage order pool tx queue pending unlocked := by
  have hgen := hq.genuine tx mem_cons_self
  obtain ⟨hnotWaiting, hnotReady⟩ := contains_eq_false_iff.mp (hq.absent tx mem_cons_self)
  obtain ⟨pending, unlocked, hrel⟩ := released hinv.pending order tx.transaction.marker
  have hwaiting : ∀ h w, pool.pendingTransactions.waitingQueue.get h = some w →
      (pool.readyTransactions.offer tx.transaction).readyTx.get h = none := by
    intro h w hw
    have hself : h ≠ tx.transaction.hash := by
      intro heq
      rw [heq, hnotWaiting] at hw
      cases hw
    exact offer_ready hinv.ready hgen (ready_none_of_waiting hinv hw) hself
  obtain ⟨hhead, hnodup⟩ := nodup_cons.mp hq.nodup
  have hrest : InFlight preimage pool queue :=
    ⟨fun u hu => hq.genuine u (mem_cons_of_mem tx hu),
      fun u hu => hq.unlocked u (mem_cons_of_mem tx hu), hnodup,
      fun u hu => hq.absent u (mem_cons_of_mem tx hu)⟩
  refine ⟨pending, unlocked, hrel, ?_, ?_, ?_, ?_⟩
  · rw [hgen.provides_eq]
    exact hrel.unlock
  · constructor
    · unfold offer
      split
      · exact accept_inv hinv.ready hgen hnotReady
      · exact hinv.ready
    · exact hrel.inv
    · intro h t ht
      cases hget : pending.waitingQueue.get h with
      | none => rfl
      | some w =>
        rw [hwaiting h w (hrel.stay.mp hget).1] at ht
        cases ht
    · intro h w m hw hm
      obtain ⟨hw, hnot⟩ := hrel.stay.mp hw
      have hne : m ≠ tx.transaction.marker := fun heq => hnot (heq ▸ hm)
      have hfree := hinv.missing_free hw hm
      unfold offer
      split
      · rw [accept, HashMap.get_insert_of_ne _ _ hne, hfree]
      · exact hfree
  · refine inFlight_append hinv hrest hrel ?_ hwaiting
    intro q hq'
    have hnone := (contains_eq_false_iff.mp (hrest.absent q hq')).2
    exact offer_ready hinv.ready hgen hnone fun heq => hhead (mem_map.mpr ⟨q, hq', heq⟩)
  · intro u hu
    obtain ⟨w, hw, htx, _, hrequires, _⟩ := hrel.left u hu
    have hmem : tx.transaction.marker ∈ w.transaction.requires := by simp [hrequires]
    obtain ⟨hsender, hnonce⟩ := (hinv.pending.genuine hw).nonce_of_requires hmem
    rw [htx]
    exact ⟨hsender.symm, by omega⟩

end PoolInner

end Foundry.Anvil.Pool
