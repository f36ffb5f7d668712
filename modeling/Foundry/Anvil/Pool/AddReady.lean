import Foundry.Anvil.Pool.Calls

/-!
# Adding a ready transaction

The loop of `add_ready_transaction` works through a queue that grows while it runs.  The
sequence of transactions it offers to the ready queue determines everything it does.
-/

namespace Foundry.Anvil.Pool

open List

def ReadyOutcome.record (out : ReadyOutcome) (isNewTx : Bool) (r : ReadyTransactions)
    (tx : PoolTransaction) : ReadyOutcome :=
  if r.Admits tx then
    { out with
      promoted := if isNewTx then out.promoted else out.promoted ++ [tx.hash]
      removed := out.removed ++ (r.holder tx.marker).toList.map ReadyTransaction.tx }
  else { out with discarded := out.discarded ++ [tx.hash] }

/-- The outcome after the loop has offered a sequence of unlocked transactions. -/
def ReadyOutcome.records (out : ReadyOutcome) (r : ReadyTransactions) :
    List PoolTransaction → ReadyOutcome
  | [] => out
  | tx :: txs => (out.record false r tx).records (r.offer tx) txs

namespace PoolInner

open ReadyTransactions PendingTransactions

variable {preimage : Preimage} {order : IterOrder} {pool pool' : PoolInner}
  {tx : PendingPoolTransaction} {queue : List PendingPoolTransaction}
  {txs : List PoolTransaction} {I : ReadyTransactions → Prop}

/-- The call keeps `I`. -/
def Keeps (preimage : Preimage) (I : ReadyTransactions → Prop)
    (call : ReadyTransactions × ReadyCall) : Prop :=
  ReadyInv preimage call.1 → call.2.Proper preimage call.1 → I call.1 → I (call.2.after call.1)

/-- The end of a loop: the invariant, `I`, and no transaction from nowhere. -/
structure Ends (preimage : Preimage) (I : ReadyTransactions → Prop) (pool : PoolInner)
    (hashes : List TxHash) (pool' : PoolInner) : Prop where
  inv : PoolInv preimage pool'
  keeps : I pool'.readyTransactions
  contained : ∀ h, pool'.contains h = true → pool.contains h = true ∨ h ∈ hashes

section

variable (hinv : PoolInv preimage pool) (hq : InFlight preimage pool (tx :: queue))
  {pending : PendingTransactions} {unlocked : List PendingPoolTransaction} (order : IterOrder)

include hinv hq

theorem addTransaction_round : pool.readyTransactions.addTransaction order tx =
      .ok (pool.readyTransactions.offer tx.transaction,
        if pool.readyTransactions.Admits tx.transaction then
          .ok ((pool.readyTransactions.holder tx.transaction.marker).toList.map ReadyTransaction.tx)
        else .error (.replacementUnderpriced tx.transaction)) := by
  have hnew := (contains_eq_false_iff.mp (hq.absent tx mem_cons_self)).2
  have hadd := addTransaction_eq hinv.ready (hq.genuine tx mem_cons_self) hnew order
  have htx : tx = ⟨tx.transaction, ∅⟩ := by
    rw [← hq.unlocked tx mem_cons_self]
  rw [htx, hadd]
  unfold offer
  split <;> rfl

theorem addReadyLoop_cons
    (hround : Round preimage order pool tx queue pending unlocked) (isNewTx : Bool)
    (out : ReadyOutcome) : pool.addReadyLoop order isNewTx (tx :: queue) out =
      if ¬ pool.readyTransactions.Admits tx.transaction ∧ isNewTx = true then
        .ok (⟨pool.readyTransactions.offer tx.transaction, pending⟩,
          .error (.replacementUnderpriced tx.transaction))
      else
        addReadyLoop order ⟨pool.readyTransactions.offer tx.transaction, pending⟩ false
          (queue ++ unlocked) (out.record isNewTx pool.readyTransactions tx.transaction) := by
  rw [addReadyLoop]
  split
  · next panic herr =>
    rw [hround.unlock] at herr
    cases herr
  · next pending' unlocked' hok =>
    rw [hround.unlock] at hok
    cases hok
    rw [addTransaction_round hinv hq order]
    by_cases hadm : pool.readyTransactions.Admits tx.transaction
    · simp [hadm, ReadyOutcome.record]
    · cases isNewTx <;> simp [hadm, ReadyOutcome.record]

theorem addReadyCalls_cons
    (hround : Round preimage order pool tx queue pending unlocked) (isNewTx : Bool) :
    pool.addReadyCalls order isNewTx (tx :: queue) =
      (pool.readyTransactions, .add tx.transaction) ::
        if ¬ pool.readyTransactions.Admits tx.transaction ∧ isNewTx = true then []
        else addReadyCalls order ⟨pool.readyTransactions.offer tx.transaction, pending⟩ false
          (queue ++ unlocked) := by
  rw [addReadyCalls]
  split
  · next panic herr =>
    rw [hround.unlock] at herr
    cases herr
  · next pending' unlocked' hok =>
    rw [hround.unlock] at hok
    cases hok
    rw [addTransaction_round hinv hq order]
    by_cases hadm : pool.readyTransactions.Admits tx.transaction
    · simp [hadm]
    · cases isNewTx <;> simp [hadm]

theorem contained_of_round {order : IterOrder} {pending : PendingTransactions}
    {unlocked : List PendingPoolTransaction} {h : TxHash}
    (hround : Round preimage order pool tx queue pending unlocked)
    (hh : contains ⟨pool.readyTransactions.offer tx.transaction, pending⟩ h = true ∨
      h ∈ (queue ++ unlocked).map fun tx => tx.transaction.hash) :
    pool.contains h = true ∨ h ∈ (tx :: queue).map fun tx => tx.transaction.hash := by
  by_contra hnot
  obtain ⟨hout, hnotQueue⟩ := not_or.mp hnot
  rw [map_cons, mem_cons, not_or] at hnotQueue
  have hout : pool.contains h = false := by simpa using hout
  obtain ⟨hw, hr⟩ := contains_eq_false_iff.mp hout
  rcases hh with hh | hh
  · have hfalse : contains ⟨pool.readyTransactions.offer tx.transaction, pending⟩ h = false := by
      refine contains_eq_false_iff.mpr ⟨?_, ?_⟩
      · cases hget : pending.waitingQueue.get h with
        | none => rfl
        | some w =>
          rw [(hround.released.stay.mp hget).1] at hw
          cases hw
      · exact offer_ready hinv.ready (hq.genuine tx mem_cons_self) hr hnotQueue.1
    rw [hfalse] at hh
    cases hh
  · rw [map_append, mem_append] at hh
    rcases hh with hh | hh
    · exact hnotQueue.2 hh
    · obtain ⟨u, hu, rfl⟩ := mem_map.mp hh
      obtain ⟨w, hleft, _⟩ := hround.released.left u hu
      rw [hw] at hleft
      cases hleft

end

/-! ## The sequence of offers -/

/-- The loop works through the queue, offers `txs` to the ready queue in this order and
ends in the last pool. -/
inductive Processed (preimage : Preimage) (order : IterOrder) :
    PoolInner → List PendingPoolTransaction → List PoolTransaction → PoolInner → Prop
  | nil {pool : PoolInner} : PoolInv preimage pool → Processed preimage order pool [] [] pool
  | cons {pool pool' : PoolInner} {tx : PendingPoolTransaction}
      {queue unlocked : List PendingPoolTransaction} {pending : PendingTransactions}
      {txs : List PoolTransaction} : PoolInv preimage pool →
      InFlight preimage pool (tx :: queue) →
      Round preimage order pool tx queue pending unlocked →
      Processed preimage order ⟨pool.readyTransactions.offer tx.transaction, pending⟩
        (queue ++ unlocked) txs pool' →
      Processed preimage order pool (tx :: queue) (tx.transaction :: txs) pool'

theorem processed (hinv : PoolInv preimage pool) (hq : InFlight preimage pool queue)
    (order : IterOrder) : ∃ txs pool', Processed preimage order pool queue txs pool' := by
  induction hn : pool.pendingTransactions.waitingQueue.keys.card + queue.length using
    Nat.strong_induction_on generalizing pool queue with
  | _ n ih =>
    cases queue with
    | nil => exact ⟨[], pool, .nil hinv⟩
    | cons tx queue =>
      obtain ⟨pending, unlocked, hround⟩ := round hinv hq order
      have hcard := card_markAndUnlock_le hround.unlock
      obtain ⟨txs, pool', hproc⟩ := ih _ (by
        simp only [length_append, length_cons] at hn ⊢
        omega) hround.inv hround.inFlight rfl
      exact ⟨tx.transaction :: txs, pool', .cons hinv hq hround hproc⟩

namespace Processed

section

variable (hp : Processed preimage order pool queue txs pool')

include hp

theorem inv : PoolInv preimage pool' := by
  induction hp with
  | nil hinv => exact hinv
  | cons _ _ _ _ ih => exact ih

theorem loop (out : ReadyOutcome) : pool.addReadyLoop order false queue out =
      .ok (pool', .ok (out.records pool.readyTransactions txs)) := by
  induction hp generalizing out with
  | nil _ => rw [addReadyLoop, ReadyOutcome.records]
  | cons hinv hq hround _ ih =>
    rw [addReadyLoop_cons hinv hq order hround, ReadyOutcome.records, ← ih]
    simp

theorem keeps (hI : I pool.readyTransactions)
    (hkeeps : ∀ call ∈ pool.addReadyCalls order false queue, Keeps preimage I call) :
    I pool'.readyTransactions := by
  induction hp with
  | nil _ => exact hI
  | @cons pool pool' tx queue unlocked pending txs hinv hq hround _ ih =>
    have hgen := hq.genuine tx mem_cons_self
    have hnew := (contains_eq_false_iff.mp (hq.absent tx mem_cons_self)).2
    have hcalls := addReadyCalls_cons hinv hq order hround false
    simp only [Bool.false_eq_true, and_false] at hcalls
    rw [hcalls] at hkeeps
    have hI' : I (pool.readyTransactions.offer tx.transaction) :=
      hkeeps _ mem_cons_self hinv.ready ⟨hgen, hnew⟩ hI
    exact ih hI' fun call hcall => hkeeps call (mem_cons_of_mem _ hcall)

end

theorem pending_keeps {J : PendingTransactions → Prop}
    (hJ : ∀ p m p' unlocked, Released preimage order p m p' unlocked → J p → J p')
    (hp : Processed preimage order pool queue txs pool') (h : J pool.pendingTransactions) :
    J pool'.pendingTransactions := by
  induction hp with
  | nil _ => exact h
  | cons _ _ hround _ ih => exact ih (hJ _ _ _ _ hround.released h)

theorem contained (hp : Processed preimage order pool queue txs pool') {h : TxHash}
    (hh : pool'.contains h = true) :
    pool.contains h = true ∨ h ∈ queue.map fun tx => tx.transaction.hash := by
  induction hp with
  | nil _ => exact .inl hh
  | cons hinv hq hround _ ih => exact contained_of_round hinv hq hround (ih hh)

/-- All transactions in flight have a later nonce than `tx0`, so `tx0` is never replaced. -/
theorem not_removed {tx0 : PoolTransaction} (hgen0 : Genuine preimage tx0)
    (hp : Processed preimage order pool queue txs pool')
    (hlater : ∀ tx ∈ queue, tx.transaction.sender = tx0.sender ∧
      tx0.nonce.toNat < tx.transaction.nonce.toNat)
    (out : ReadyOutcome) (hremoved : ∀ rem ∈ out.removed, rem.hash ≠ tx0.hash) :
    ∀ rem ∈ (out.records pool.readyTransactions txs).removed, rem.hash ≠ tx0.hash := by
  induction hp generalizing out with
  | nil _ => exact hremoved
  | @cons pool pool' tx queue unlocked pending txs hinv hq hround _ ih =>
    obtain ⟨hsender, hnonce⟩ := hlater tx mem_cons_self
    refine ih ?_ _ ?_
    · intro u hu
      rcases mem_append.mp hu with hu | hu
      · exact hlater u (mem_cons_of_mem tx hu)
      · obtain ⟨hsender', hnonce'⟩ := hround.later u hu
        exact ⟨hsender'.trans hsender, hnonce.trans hnonce'⟩
    intro rem hrem
    unfold ReadyOutcome.record at hrem
    split at hrem
    · rcases mem_append.mp hrem with hrem | hrem
      · exact hremoved rem hrem
      obtain ⟨o, ho, rfl⟩ := mem_map.mp hrem
      obtain ⟨hget, hmarker⟩ := (holder_eq_some hinv.ready).mp (Option.mem_toList.mp ho)
      intro heq
      have hsame := (hinv.ready.genuine hget).marker_eq_of_hash hgen0 heq
      have hn := (toMarker_injective (hmarker.symm.trans hsame)).1
      rw [hn] at hnonce
      omega
    · exact hremoved rem hrem

end Processed

/-! ## The whole operation -/

theorem addReadyTransaction_cases (hinv : PoolInv preimage pool)
    (hq : InFlight preimage pool [tx]) (order : IterOrder) :
    ∃ pending unlocked, Round preimage order pool tx [] pending unlocked ∧
      (¬ pool.readyTransactions.Admits tx.transaction →
        pool.addReadyTransaction order tx =
          .ok (⟨pool.readyTransactions.offer tx.transaction, pending⟩,
            .error (.replacementUnderpriced tx.transaction))) ∧
      (pool.readyTransactions.Admits tx.transaction → ∃ txs pool',
        Processed preimage order ⟨pool.readyTransactions.offer tx.transaction, pending⟩
          unlocked txs pool' ∧
        pool.addReadyTransaction order tx = .ok (pool', .ok (.ready
          (((ReadyOutcome.new tx.transaction.hash).record true pool.readyTransactions
            tx.transaction).records (pool.readyTransactions.offer tx.transaction) txs)))) := by
  obtain ⟨pending, unlocked, hround⟩ := round hinv hq order
  have hgen := hq.genuine tx mem_cons_self
  have hnew := (contains_eq_false_iff.mp (hq.absent tx mem_cons_self)).2
  have hloop := addReadyLoop_cons hinv hq order hround true (.new tx.transaction.hash)
  refine ⟨pending, unlocked, hround, ?_, ?_⟩
  · intro hadm
    simp only [hadm] at hloop
    simp [addReadyTransaction, hloop]
  intro hadm
  simp only [hadm, not_true_eq_false, false_and, nil_append] at hloop
  obtain ⟨txs, pool', hproc⟩ := processed hround.inv hround.inFlight order
  rw [nil_append] at hproc
  have hremoved : ∀ rem ∈ ((ReadyOutcome.new tx.transaction.hash).record true
      pool.readyTransactions tx.transaction).removed, rem.hash ≠ tx.transaction.hash := by
    intro rem hrem heq
    simp only [ReadyOutcome.record, hadm] at hrem
    obtain ⟨o, ho, rfl⟩ := mem_map.mp hrem
    have hget := ((holder_eq_some hinv.ready).mp (Option.mem_toList.mp ho)).1
    rw [heq, hnew] at hget
    cases hget
  have hrem := hproc.not_removed hgen hround.later _ hremoved
  refine ⟨txs, pool', hproc, ?_⟩
  have hany : ((((ReadyOutcome.new tx.transaction.hash).record true pool.readyTransactions
      tx.transaction).records (pool.readyTransactions.offer tx.transaction) txs).removed.any
        fun rem => decide (rem.hash = tx.transaction.hash)) = false := by
    simpa using hrem
  simp only [addReadyTransaction, hloop, hproc.loop, hany, Bool.false_eq_true, if_false]

theorem addReadyTransaction_spec (hinv : PoolInv preimage pool)
    (hq : InFlight preimage pool [tx]) (order : IterOrder) (hI : I pool.readyTransactions)
    (hkeeps : ∀ call ∈ pool.addReadyCalls order true [tx], Keeps preimage I call) :
    ∃ pool' res, pool.addReadyTransaction order tx = .ok (pool', res) ∧
      Ends preimage I pool [tx.transaction.hash] pool' := by
  obtain ⟨pending, unlocked, hround, hrefused, hadded⟩ := addReadyTransaction_cases hinv hq order
  have hgen := hq.genuine tx mem_cons_self
  have hnew := (contains_eq_false_iff.mp (hq.absent tx mem_cons_self)).2
  rw [addReadyCalls_cons hinv hq order hround true] at hkeeps
  have hI' : I (pool.readyTransactions.offer tx.transaction) :=
    hkeeps _ mem_cons_self hinv.ready ⟨hgen, hnew⟩ hI
  by_cases hadm : pool.readyTransactions.Admits tx.transaction
  · obtain ⟨txs, pool', hproc, heq⟩ := hadded hadm
    simp only [hadm] at hkeeps
    refine ⟨pool', _, heq, hproc.inv, hproc.keeps hI' ?_, ?_⟩
    · exact fun call hcall => hkeeps call (mem_cons_of_mem _ hcall)
    · intro h hh
      exact contained_of_round hinv hq hround (hproc.contained hh)
  · refine ⟨_, _, hrefused hadm, hround.inv, hI', ?_⟩
    intro h hh
    exact contained_of_round hinv hq hround (.inl hh)

/-! ## Additions -/

def arriving (pool : PoolInner) (tx : PoolTransaction) : PendingPoolTransaction :=
  .new tx pool.readyTransactions.providedMarkers

theorem missing_of_not_ready {tx : PoolTransaction} (hgen : Genuine preimage tx)
    (hready : (pool.arriving tx).isReady = false) :
    ∃ m, (pool.arriving tx).missingMarkers = {m} ∧ tx.requires = [m] ∧
      pool.readyTransactions.providedMarkers.get m = none := by
  have hsome : (pool.arriving tx).missingMarkers ≠ ∅ := by
    intro hempty
    rw [PendingPoolTransaction.isReady_iff.mpr hempty] at hready
    cases hready
  obtain ⟨m, hm⟩ := Finset.nonempty_iff_ne_empty.mpr hsome
  obtain ⟨hreq, hfree⟩ := PendingPoolTransaction.mem_missing_new.mp hm
  have hrequires := (hgen.mem_requires hreq).1
  refine ⟨m, Finset.eq_singleton_iff_unique_mem.mpr ⟨hm, ?_⟩, hrequires, hfree⟩
  intro k hk
  have hk := (PendingPoolTransaction.mem_missing_new.mp hk).1
  rw [hrequires] at hk
  exact mem_singleton.mp hk

theorem addTransaction_waiting {tx : PoolTransaction} {m : TxMarker}
    (hin : pool.contains tx.hash = false) (hready : (pool.arriving tx).isReady = false)
    (hmissing : (pool.arriving tx).missingMarkers = {m}) (order : IterOrder) :
    pool.addTransaction order tx =
      if pool.pendingTransactions.underpriced tx then
        .ok (pool, .error (.replacementUnderpriced tx))
      else .ok ({ pool with
        pendingTransactions := pool.pendingTransactions.enqueue (pool.arriving tx) m },
        .ok (.pending tx.hash)) := by
  have hnew : pool.pendingTransactions.waitingQueue.get
      (pool.arriving tx).transaction.hash = none := (contains_eq_false_iff.mp hin).1
  have hadd := PendingTransactions.addTransaction_eq order hmissing hnew
  have hadd : pool.pendingTransactions.addTransaction order (pool.arriving tx) =
      if pool.pendingTransactions.underpriced tx then
        .ok (pool.pendingTransactions, .error (.replacementUnderpriced tx))
      else .ok (pool.pendingTransactions.enqueue (pool.arriving tx) m, .ok ()) := hadd
  unfold arriving at hready hadd
  unfold PoolInner.addTransaction
  simp only [hin, hready, hadd]
  by_cases hprice : pool.pendingTransactions.underpriced tx = true
  · simp [hprice]
  · simp [hprice, arriving, PendingPoolTransaction.new]

theorem enqueue_pool_inv {tx : PoolTransaction} {m : TxMarker} (hinv : PoolInv preimage pool)
    (hgen : Genuine preimage tx) (hin : pool.contains tx.hash = false)
    (hmissing : (pool.arriving tx).missingMarkers = {m}) (hrequires : tx.requires = [m]) :
    PoolInv preimage { pool with
      pendingTransactions := pool.pendingTransactions.enqueue (pool.arriving tx) m } := by
  obtain ⟨hnotWaiting, hnotReady⟩ := contains_eq_false_iff.mp hin
  constructor
  · exact hinv.ready
  · exact enqueue_inv hinv.pending hgen hmissing hrequires hnotWaiting
  · intro h t ht
    by_contra hne
    obtain ⟨w, hw⟩ := Option.ne_none_iff_exists'.mp hne
    rcases get_of_enqueue hw with ⟨rfl, _⟩ | ⟨_, hw⟩
    · cases hnotReady.symm.trans ht
    · cases (hinv.disjoint ht).symm.trans hw
  · intro h w k hw hk
    rcases get_of_enqueue hw with ⟨_, rfl⟩ | ⟨_, hw⟩
    · exact (PendingPoolTransaction.mem_missing_new.mp hk).2
    · exact hinv.missing_free hw hk

theorem addTransaction_ready {tx : PoolTransaction} (hin : pool.contains tx.hash = false)
    (hready : (pool.arriving tx).isReady = true) (order : IterOrder) :
    pool.addTransaction order tx = pool.addReadyTransaction order (pool.arriving tx) := by
  unfold arriving at hready ⊢
  unfold PoolInner.addTransaction
  simp only [hin, Bool.false_eq_true, if_false, hready, Bool.not_true]

theorem inFlight_singleton (hgen : Genuine preimage tx.transaction)
    (hmissing : tx.missingMarkers = ∅) (hin : pool.contains tx.transaction.hash = false) :
    InFlight preimage pool [tx] := by
  constructor <;> simp [hgen, hmissing, hin]

theorem arriving_inFlight {tx : PoolTransaction} (hgen : Genuine preimage tx)
    (hin : pool.contains tx.hash = false) (hready : (pool.arriving tx).isReady = true) :
    InFlight preimage pool [pool.arriving tx] :=
  inFlight_singleton hgen (PendingPoolTransaction.isReady_iff.mp hready) hin

theorem addTransaction_spec {tx : PoolTransaction} (hinv : PoolInv preimage pool)
    (hgen : Genuine preimage tx) (order : IterOrder) (hI : I pool.readyTransactions)
    (hkeeps : pool.contains tx.hash = false → (pool.arriving tx).isReady = true →
      ∀ call ∈ pool.addReadyCalls order true [pool.arriving tx], Keeps preimage I call) :
    ∃ pool' res, pool.addTransaction order tx = .ok (pool', res) ∧
      PoolInv preimage pool' ∧ I pool'.readyTransactions := by
  cases hin : pool.contains tx.hash with
  | true => exact ⟨pool, _, by rw [PoolInner.addTransaction, if_pos hin], hinv, hI⟩
  | false =>
    cases hready : (pool.arriving tx).isReady with
    | true =>
      obtain ⟨pool', res, heq, hends⟩ := addReadyTransaction_spec hinv
        (arriving_inFlight hgen hin hready) order hI (hkeeps hin hready)
      exact ⟨pool', res, by rw [addTransaction_ready hin hready, heq], hends.inv, hends.keeps⟩
    | false =>
      obtain ⟨m, hmissing, hrequires, _⟩ := missing_of_not_ready hgen hready
      rw [addTransaction_waiting hin hready hmissing order]
      split
      · exact ⟨pool, _, rfl, hinv, hI⟩
      · exact ⟨_, _, rfl, enqueue_pool_inv hinv hgen hin hmissing hrequires, hI⟩

end PoolInner

end Foundry.Anvil.Pool
