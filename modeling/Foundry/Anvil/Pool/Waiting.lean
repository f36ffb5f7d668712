import Foundry.Anvil.Pool.Runs

/-!
# Replacement in the waiting queue

`add_transaction` of the waiting queue compares a new transaction with the waiting one
that the marker index names, but it never takes the replaced one out.  As long as no
replacement is accepted the index is exact and the queue has one transaction a marker.
-/

namespace Foundry.Anvil.Pool

namespace PendingTransactions

variable {preimage : Preimage} {p p' : PendingTransactions} {m : TxMarker}
  {tx : PendingPoolTransaction}

def MarkersUnique (p : PendingTransactions) : Prop :=
  ∀ h h' w w', p.waitingQueue.get h = some w → p.waitingQueue.get h' = some w' →
    w.transaction.provides = w'.transaction.provides → h = h'

/-- The marker index names every waiting transaction, and nothing else. -/
def IndexExact (p : PendingTransactions) : Prop :=
  ∀ k h, p.waitingMarkers.get k = some h ↔
    ∃ w, p.waitingQueue.get h = some w ∧ w.transaction.provides = k

theorem IndexExact.unique (hex : p.IndexExact) : p.MarkersUnique := by
  intro h h' w w' hw hw' heq
  have h1 := (hex _ h).mpr ⟨w, hw, rfl⟩
  have h2 := (hex _ h').mpr ⟨w', hw', rfl⟩
  rw [heq, h2] at h1
  exact (Option.some.inj h1).symm

theorem empty_indexExact : empty.IndexExact := by
  intro k h
  simp [empty]

theorem indexExact_released {order : IterOrder} {unlocked : List PendingPoolTransaction}
    (hrel : PoolInner.Released preimage order p m p' unlocked) (hex : p.IndexExact) :
    p'.IndexExact := by
  intro k h
  by_cases hout : ∃ h0 w0, p.waitingQueue.get h0 = some w0 ∧ m ∈ w0.missingMarkers ∧
      w0.transaction.provides = k
  · obtain ⟨h0, w0, hw0, hm0, hk⟩ := hout
    have hnone := hrel.index_none hw0 hm0
    rw [hk] at hnone
    rw [hnone]
    constructor
    · intro hc
      cases hc
    · intro ⟨w, hw, hwk⟩
      obtain ⟨hw, hnot⟩ := hrel.stay.mp hw
      have hh := hex.unique h h0 w w0 hw hw0 (hwk.trans hk.symm)
      rw [hh, hw0] at hw
      rw [← Option.some.inj hw] at hnot
      exact absurd hm0 hnot
  · have hsame := hrel.index_same fun h0 w0 hw0 hm0 hk => hout ⟨h0, w0, hw0, hm0, hk⟩
    rw [hsame, hex k h]
    constructor
    · intro ⟨w, hw, hwk⟩
      exact ⟨w, hrel.stay.mpr ⟨hw, fun hm => hout ⟨h, w, hw, hm, hwk⟩⟩, hwk⟩
    · intro ⟨w, hw, hwk⟩
      exact ⟨w, (hrel.stay.mp hw).1, hwk⟩

theorem indexExact_enqueue (hex : p.IndexExact)
    (hnew : p.waitingQueue.get tx.transaction.hash = none)
    (halone : ∀ h w, p.waitingQueue.get h = some w →
      w.transaction.provides ≠ tx.transaction.provides) : (p.enqueue tx m).IndexExact := by
  intro k h
  rw [enqueue]
  rw [HashMap.get_insert, HashMap.get_insert]
  by_cases hk : k = tx.transaction.provides
  · rw [if_pos hk]
    by_cases hh : h = tx.transaction.hash
    · simp [hh, hk]
    rw [if_neg hh]
    constructor
    · intro heq
      exact absurd (Option.some.inj heq).symm hh
    · rintro ⟨w, hw, hwk⟩
      exact absurd (hwk.trans hk) (halone h w hw)
  · rw [if_neg hk, hex k h]
    by_cases hh : h = tx.transaction.hash
    · rw [if_pos hh]
      constructor
      · rintro ⟨w, hw, _⟩
        rw [hh, hnew] at hw
        cases hw
      · rintro ⟨w, hw, hwk⟩
        rw [← Option.some.inj hw] at hwk
        exact absurd hwk.symm hk
    · rw [if_neg hh]

theorem underpriced_of_rival (hex : p.IndexExact) {h : TxHash} {w : PendingPoolTransaction}
    {tx : PoolTransaction} (hw : p.waitingQueue.get h = some w)
    (hwk : w.transaction.provides = tx.provides) :
    p.underpriced tx = decide (tx.gasPrice < w.transaction.gasPrice) := by
  have hindex : p.waitingMarkers.get tx.provides = some h := (hex _ h).mpr ⟨w, hw, hwk⟩
  simp [underpriced, replace, hindex, hw]

end PendingTransactions

namespace PoolInner

open ReadyTransactions PendingTransactions

structure Submission where
  order : IterOrder
  txOrder : TransactionOrder
  hash : TxHash
  onChainNonce : U64

def Submission.tx (preimage : Preimage) (s : Submission) : PoolTransaction :=
  poolTransaction s.txOrder (preimage.pending s.hash) s.onChainNonce

/-- `Q` holds at every call of a sequence of `add_transaction` calls. -/
def EveryAdd (preimage : Preimage) (Q : PoolInner → Submission → Prop) :
    PoolInner → List Submission → Prop
  | _, [] => True
  | pool, s :: rest => Q pool s ∧ ∀ pool' res,
      pool.addTransaction s.order (s.tx preimage) = .ok (pool', res) →
        EveryAdd preimage Q pool' rest

/-- The transaction is new and has to wait for a marker. -/
def Waits (pool : PoolInner) (tx : PoolTransaction) : Prop :=
  pool.contains tx.hash = false ∧ (pool.arriving tx).isReady = false

def Rival (pool : PoolInner) (tx : PoolTransaction) (h : TxHash) (w : PendingPoolTransaction) :
    Prop :=
  pool.pendingTransactions.waitingQueue.get h = some w ∧ w.transaction.provides = tx.provides

/-- A transaction that has to wait is cheaper than every waiting one with its markers. -/
def OnlyUnderbids (pool : PoolInner) (tx : PoolTransaction) : Prop :=
  pool.Waits tx → ∀ h w, pool.Rival tx h w → tx.gasPrice < w.transaction.gasPrice

/-- What replacing in the waiting queue should mean for one call. -/
structure ReplacesWaiting (pool : PoolInner) (tx : PoolTransaction) (pool' : PoolInner)
    (res : Except PoolError AddedTransaction) : Prop where
  unique : pool'.pendingTransactions.MarkersUnique
  replaced : pool.Waits tx → (∃ added, res = .ok added) → ∀ h w, pool.Rival tx h w →
    pool'.pendingTransactions.waitingQueue.get h = none ∧
      ∀ m, ¬ pool'.pendingTransactions.Requires m h
  underpriced : pool.Waits tx → ∀ h w, pool.Rival tx h w →
    tx.gasPrice < w.transaction.gasPrice → res = .error (.replacementUnderpriced tx)

variable {preimage : Preimage} {pool pool' : PoolInner} {tx : PoolTransaction}
  {order : IterOrder} {res : Except PoolError AddedTransaction}

theorem indexExact_addReady {ptx : PendingPoolTransaction} (hinv : PoolInv preimage pool)
    (hq : InFlight preimage pool [ptx]) (hex : pool.pendingTransactions.IndexExact)
    (heq : pool.addReadyTransaction order ptx = .ok (pool', res)) :
    pool'.pendingTransactions.IndexExact := by
  obtain ⟨pending, unlocked, hround, hrefused, hadded⟩ := addReadyTransaction_cases hinv hq order
  have hfirst : pending.IndexExact := indexExact_released hround.released hex
  by_cases hadm : pool.readyTransactions.Admits ptx.transaction
  · obtain ⟨txs, pool1, hproc, heq1⟩ := hadded hadm
    rw [heq1] at heq
    cases heq
    exact hproc.pending_keeps (fun _ _ _ _ hrel hex => indexExact_released hrel hex) hfirst
  · rw [hrefused hadm] at heq
    cases heq
    exact hfirst

theorem indexExact_add (hinv : PoolInv preimage pool) (hgen : Genuine preimage tx)
    (hex : pool.pendingTransactions.IndexExact) (hunder : pool.OnlyUnderbids tx)
    (heq : pool.addTransaction order tx = .ok (pool', res)) :
    pool'.pendingTransactions.IndexExact := by
  cases hin : pool.contains tx.hash with
  | true =>
    rw [PoolInner.addTransaction, if_pos hin] at heq
    cases heq
    exact hex
  | false =>
    cases hready : (pool.arriving tx).isReady with
    | true =>
      rw [addTransaction_ready hin hready] at heq
      exact indexExact_addReady hinv (arriving_inFlight hgen hin hready) hex heq
    | false =>
      obtain ⟨m, hmissing, _, _⟩ := missing_of_not_ready hgen hready
      rw [addTransaction_waiting hin hready hmissing order] at heq
      split at heq
      · cases heq
        exact hex
      · next hprice =>
        cases heq
        refine indexExact_enqueue hex (contains_eq_false_iff.mp hin).1 ?_
        intro h w hw hwk
        apply hprice
        have hwk : w.transaction.provides = tx.provides := hwk
        rw [underpriced_of_rival hex hw hwk, decide_eq_true_eq]
        exact hunder ⟨hin, hready⟩ h w ⟨hw, hwk⟩

theorem replacesWaiting_iff (hinv : PoolInv preimage pool) (hgen : Genuine preimage tx)
    (hex : pool.pendingTransactions.IndexExact)
    (heq : pool.addTransaction order tx = .ok (pool', res)) :
    pool.ReplacesWaiting tx pool' res ↔ pool.OnlyUnderbids tx := by
  constructor
  · intro hrep ⟨hin, hready⟩ h w ⟨hw, hwk⟩
    by_contra hgas
    obtain ⟨m, hmissing, _, _⟩ := missing_of_not_ready hgen hready
    have hprice : pool.pendingTransactions.underpriced tx = false := by
      rw [underpriced_of_rival hex hw hwk]
      exact decide_eq_false hgas
    rw [addTransaction_waiting hin hready hmissing order, hprice] at heq
    cases heq
    have hne : h ≠ tx.hash := by
      intro hh
      rw [hh, (contains_eq_false_iff.mp hin).1] at hw
      cases hw
    refine hne (hrep.unique h tx.hash w (pool.arriving tx) ?_ ?_ hwk)
    · show (pool.pendingTransactions.waitingQueue.insert tx.hash (pool.arriving tx)).get h = _
      rw [HashMap.get_insert_of_ne _ _ hne, hw]
    · exact HashMap.get_insert_self _ _ _
  · intro hunder
    have hrefused : pool.Waits tx → ∀ h w, pool.Rival tx h w →
        res = .error (.replacementUnderpriced tx) := by
      intro hwaits h w hriv
      obtain ⟨m, hmissing, _, _⟩ := missing_of_not_ready hgen hwaits.2
      have hprice : pool.pendingTransactions.underpriced tx = true := by
        rw [underpriced_of_rival hex hriv.1 hriv.2, decide_eq_true_eq]
        exact hunder hwaits h w hriv
      rw [addTransaction_waiting hwaits.1 hwaits.2 hmissing order, hprice] at heq
      cases heq
      rfl
    refine ⟨(indexExact_add hinv hgen hex hunder heq).unique, ?_, ?_⟩
    · intro hwaits ⟨added, hok⟩ h w hriv
      rw [hrefused hwaits h w hriv] at hok
      cases hok
    · intro hwaits h w hriv _
      exact hrefused hwaits h w hriv

/-- A sequence of `add_transaction` calls replaces waiting transactions properly at every
call if and only if no call that has to wait matches or outbids a waiting rival. -/
theorem replaces_waiting_iff_only_underbids (preimage : Preimage) (calls : List Submission) :
    EveryAdd preimage (fun pool s => ∃ pool' res,
        pool.addTransaction s.order (s.tx preimage) = .ok (pool', res) ∧
          pool.ReplacesWaiting (s.tx preimage) pool' res) empty calls ↔
      EveryAdd preimage (fun pool s => pool.OnlyUnderbids (s.tx preimage)) empty calls := by
  suffices hgeneral : ∀ pool, PoolInv preimage pool → pool.pendingTransactions.IndexExact →
      (EveryAdd preimage (fun pool s => ∃ pool' res,
        pool.addTransaction s.order (s.tx preimage) = .ok (pool', res) ∧
          pool.ReplacesWaiting (s.tx preimage) pool' res) pool calls ↔
        EveryAdd preimage (fun pool s => pool.OnlyUnderbids (s.tx preimage)) pool calls) from
    hgeneral empty empty_inv empty_indexExact
  induction calls with
  | nil => exact fun _ _ _ => Iff.rfl
  | cons s calls ih =>
    intro pool hinv hex
    have hgen := poolTransaction_genuine preimage s.txOrder s.hash s.onChainNonce
    obtain ⟨pool1, res1, heq1, hinv1, _⟩ := addTransaction_spec (I := fun _ => True) hinv hgen
      s.order trivial fun _ _ _ _ _ _ _ => trivial
    have hadd : pool.addTransaction s.order (s.tx preimage) = .ok (pool1, res1) := heq1
    have hiff := replacesWaiting_iff hinv hgen hex heq1
    simp only [EveryAdd, hadd, Except.ok.injEq, Prod.mk.injEq, and_imp, ↓existsAndEq, true_and]
    refine Iff.trans (and_congr_left' hiff) (and_congr_right fun hunder => forall₂_congr ?_)
    rintro pool' res
    refine forall_congr' fun heq => forall_congr' fun _ => ?_
    exact heq ▸ ih pool1 hinv1 (indexExact_add hinv hgen hex hunder heq1)

/-- Hash 1 has nonce 0; every other hash has nonce 1 of the same sender and pays its own
value. -/
def rivals : Preimage := fun hash =>
  if hash = 1 then (⟨0, 1⟩, 7) else (⟨1, hash.toNat⟩, 7)

/-- Two transactions with nonce 1 while the chain is at nonce 0, the second one dearer. -/
def addRivals : List (IterOrder × Op) :=
  [(.increasing, .addTransaction .fees 5 0), (.increasing, .addTransaction .fees 9 0)]

theorem addRivals_both_waiting :
    ∃ pool, empty.run rivals addRivals = .ok pool ∧ ¬ pool.pendingTransactions.MarkersUnique := by
  have hboth : ∃ pool ∈ (empty.run rivals addRivals).toOption,
      ∃ w ∈ pool.pendingTransactions.waitingQueue.get 5,
        ∃ w' ∈ pool.pendingTransactions.waitingQueue.get 9,
          w.transaction.provides = w'.transaction.provides := by
    decide +kernel
  obtain ⟨pool, hpool, w, hw, w', hw', hsame⟩ := hboth
  refine ⟨pool, ok_of_mem_toOption hpool, fun hunique => ?_⟩
  exact absurd (hunique 5 9 w w' hw hw' hsame) (by decide)

end PoolInner

end Foundry.Anvil.Pool
