import Foundry.Anvil.Pool.Waiting

/-!
# Refused and dropped transactions

A transaction that the pool refuses leaves no trace.  Dropping a transaction looks for it among the
ready ones only, and takes along what the links lead to.
-/

namespace Foundry.Anvil.Pool.PoolInner

open ReadyTransactions PendingTransactions

variable {preimage : Preimage} {pool pool' : PoolInner} {tx : PoolTransaction} {h : TxHash}

/-! ## Refused transactions -/

/-- No transaction waits for a marker that the ready queue provides, so a replacement that is
refused has unlocked nobody. -/
theorem markAndUnlock_of_held (hinv : PoolInv preimage pool) {t : ReadyTransaction} {m : TxMarker}
    (hold : pool.readyTransactions.holder m = some t) (order : IterOrder) :
    pool.pendingTransactions.markAndUnlock order [m] = .ok (pool.pendingTransactions, []) := by
  have hnone : pool.pendingTransactions.requiredMarkers.get m = none := by
    by_contra hsome
    obtain ⟨hashes, hget⟩ := Option.ne_none_iff_exists'.mp hsome
    obtain ⟨h, hmem⟩ := hinv.pending.filled hget
    obtain ⟨w, hw, hm⟩ := (hinv.pending.required m h).mp ⟨hashes, hget, hmem⟩
    rw [(holder_eq_none hinv.ready).mpr (hinv.missing_free hw hm)] at hold
    cases hold
  simp [markAndUnlock, visited, hnone, unlockHashes, HashMap.remove_of_get_none hnone]

/-- A refused transaction leaves the pool as it was. -/
theorem addTransaction_of_error {order : IterOrder} {err : PoolError}
    (hinv : PoolInv preimage pool) (hgen : Genuine preimage tx)
    (herr : pool.addTransaction order tx = .ok (pool', .error err)) : pool' = pool := by
  cases hin : pool.contains tx.hash with
  | true =>
    rw [PoolInner.addTransaction, if_pos hin] at herr
    cases herr
    rfl
  | false =>
    cases hready : (pool.arriving tx).isReady with
    | false =>
      obtain ⟨m, hmissing, _⟩ := missing_of_not_ready hgen hready
      rw [addTransaction_waiting hin hready hmissing order] at herr
      split at herr
      · cases herr
        rfl
      · cases herr
    | true =>
      obtain ⟨pending, unlocked, hround, hrefused, hadded⟩ :=
        addReadyTransaction_cases hinv (arriving_inFlight hgen hin hready) order
      rw [addTransaction_ready hin hready] at herr
      by_cases hadm : pool.readyTransactions.Admits tx
      · obtain ⟨txs, pool'', _, heq⟩ := hadded hadm
        rw [heq] at herr
        cases herr
      have hadm' := hadm
      unfold Admits at hadm'
      push Not at hadm'
      obtain ⟨t, hold, _⟩ := hadm'
      have hunlock := hround.released.unlock.symm.trans (markAndUnlock_of_held hinv hold order)
      rw [hrefused hadm] at herr
      cases herr
      cases hunlock
      have hoffer : pool.readyTransactions.offer (pool.arriving tx).transaction =
          pool.readyTransactions := if_neg hadm
      rw [hoffer]

/-- In every reachable pool, a call of `add_transaction` returns, and if it returns an error the
pool is what it was. -/
theorem run_add_error_unchanged (preimage : Preimage) (ops : List (IterOrder × Op)) :
    ∃ pool, empty.run preimage ops = .ok pool ∧
      ∀ order txOrder hash onChainNonce, ∃ pool' res,
        pool.addTransaction order (poolTransaction txOrder (preimage.pending hash) onChainNonce) =
          .ok (pool', res) ∧ ∀ err, res = .error err → pool' = pool := by
  obtain ⟨pool, heq, hinv⟩ := run_inv empty_inv ops
  refine ⟨pool, heq, ?_⟩
  intro order txOrder hash onChainNonce
  have hgen := poolTransaction_genuine preimage txOrder hash onChainNonce
  obtain ⟨pool', res, hadd, _⟩ := addTransaction_spec (I := fun _ => True) hinv hgen order trivial
    fun _ _ _ _ _ _ _ => trivial
  refine ⟨pool', res, hadd, ?_⟩
  rintro err rfl
  exact addTransaction_of_error hinv hgen hadd

/-! ## Dropped transactions -/

section

variable (pool)

def find (h : TxHash) : Option PoolTransaction :=
  ((pool.pendingTransactions.waitingQueue.get h).map (·.transaction)).or
    ((pool.readyTransactions.readyTx.get h).map ReadyTransaction.tx)

/-- The first transaction requires a marker that the second one provides. -/
def Needs (x y : TxHash) : Prop :=
  ∃ tx ty, pool.find x = some tx ∧ pool.find y = some ty ∧ ∃ m ∈ tx.requires, m ∈ ty.provides

/-- After the call the transaction is gone, it was returned, and whatever else is gone depended
on it. -/
structure DropsExactly (h : TxHash) : Prop where
  gone : (pool.dropTransaction h).1.contains h = false
  returned : (pool.dropTransaction h).2 = pool.find h
  depends : ∀ x, x ≠ h → pool.contains x = true → (pool.dropTransaction h).1.contains x = false →
    Relation.TransGen pool.Needs x h

end

theorem find_ready (hinv : PoolInv preimage pool) {t : ReadyTransaction}
    (ht : pool.readyTransactions.readyTx.get h = some t) : pool.find h = some t.tx := by
  simp [find, ht, hinv.disjoint ht]

section

variable (hinv : PoolInv preimage pool)

include hinv

private theorem needs_of_link {p x : TxHash} {tp t : ReadyTransaction}
    (hp : pool.readyTransactions.readyTx.get p = some tp) (hmem : x ∈ tp.unlocks)
    (hx : pool.readyTransactions.readyTx.get x = some t) (hreq : t.tx.requires ≠ []) :
    pool.Needs x p := by
  obtain ⟨hsender, hnonce⟩ := hinv.ready.links hp x hmem
  have hgen := hinv.ready.genuine hx
  have hhash := hinv.ready.hash_eq hx
  rcases hgen.requires_eq with hnil | ⟨prev, hprev, heq⟩
  · exact absurd hnil hreq
  rw [← hhash, ← hgen.sender_eq] at hsender
  rw [← hhash, ← hgen.nonce_eq] at hnonce
  have hsame : prev = tp.tx.nonce := BitVec.eq_of_toNat_eq (by omega)
  refine ⟨t.tx, tp.tx, find_ready hinv hx, find_ready hinv hp, tp.tx.marker, ?_, ?_⟩
  · simp [heq, hsame, hsender, PoolTransaction.marker]
  · exact (hinv.ready.genuine hp).mem_provides.mpr rfl

private theorem contains_drop (x : TxHash) : (pool.dropTransaction h).1.contains x = false ↔
    pool.pendingTransactions.waitingQueue.get x = none ∧
      (pool.readyTransactions.readyTx.get x = none ∨
        Cascade pool.readyTransactions.readyTx [h] x) := by
  obtain ⟨_, hrem⟩ := removeWithMarkers_spec hinv.ready [h]
  rw [contains_eq_false_iff]
  refine and_congr_right fun _ => ?_
  by_cases hc : Cascade pool.readyTransactions.readyTx [h] x
  · simp only [hc, or_true, iff_true]
    exact hrem.gone x hc
  · simp only [hc, or_false]
    exact iff_of_eq (congrArg (· = none) (hrem.kept x hc))

theorem returned_of_not_waiting (hw : pool.pendingTransactions.waitingQueue.get h = none) :
    (pool.dropTransaction h).2 = pool.find h := by
  obtain ⟨_, hrem⟩ := removeWithMarkers_spec hinv.ready [h]
  change (pool.readyTransactions.removeWithMarkers [h] none).2.find? (fun t => t.hash = h) = _
  cases hfound : (pool.readyTransactions.removeWithMarkers [h] none).2.find?
      fun t => t.hash = h with
  | some tx =>
    obtain ⟨x, t, _, ht, rfl⟩ := (hrem.removed_iff tx).mp (List.mem_of_find?_eq_some hfound)
    have hx : t.tx.hash = h := by simpa using List.find?_some hfound
    rw [← hx, hinv.ready.hash_eq ht, find_ready hinv ht]
  | none =>
    cases ht : pool.readyTransactions.readyTx.get h with
    | none => simp [find, hw, ht]
    | some t =>
      have hmem := (hrem.removed_iff t.tx).mpr ⟨h, t, .root List.mem_cons_self ht, ht, rfl⟩
      have hne := List.find?_eq_none.mp hfound t.tx hmem
      exact absurd (hinv.ready.hash_eq ht) (by simpa using hne)

theorem depends_of_cascade {x : TxHash}
    (hreq : ∀ x t, x ≠ h → Cascade pool.readyTransactions.readyTx [h] x →
      pool.readyTransactions.readyTx.get x = some t → t.tx.requires ≠ [])
    (hc : Cascade pool.readyTransactions.readyTx [h] x) :
    x = h ∨ Relation.TransGen pool.Needs x h := by
  induction hc with
  | root hmem _ => exact .inl (List.mem_singleton.mp hmem)
  | @link p x tp t hcp hp hmem hx ih =>
    by_cases hxh : x = h
    · exact .inl hxh
    · have hneeds := needs_of_link hinv hp hmem hx (hreq x t hxh (.link hcp hp hmem hx) hx)
      rcases ih with rfl | ih
      · exact .inr (.single hneeds)
      · exact .inr (.head hneeds ih)

theorem dropsExactly_iff : pool.DropsExactly h ↔
    pool.pendingTransactions.waitingQueue.get h = none ∧
      ∀ x t, x ≠ h → Cascade pool.readyTransactions.readyTx [h] x →
        pool.readyTransactions.readyTx.get x = some t → t.tx.requires ≠ [] := by
  constructor
  · intro hdrop
    refine ⟨((contains_drop hinv h).mp hdrop.gone).1, ?_⟩
    intro x t hxh hc ht hnil
    have hin : pool.contains x = true := by simp [PoolInner.contains, HashMap.contains, ht]
    have hdep := hdrop.depends x hxh hin
      ((contains_drop hinv x).mpr ⟨hinv.disjoint ht, .inr hc⟩)
    obtain ⟨y, ⟨tx, _, hx, _, m, hm, _⟩, _⟩ := Relation.TransGen.head'_iff.mp hdep
    rw [find_ready hinv ht] at hx
    cases hx
    rw [hnil] at hm
    cases hm
  · intro ⟨hw, hreq⟩
    refine ⟨?_, returned_of_not_waiting hinv hw, ?_⟩
    · refine (contains_drop hinv h).mpr ⟨hw, ?_⟩
      cases ht : pool.readyTransactions.readyTx.get h with
      | none => exact .inl rfl
      | some t => exact .inr (.root List.mem_cons_self ht)
    intro x hxh hin hout
    obtain ⟨hwx, hrx⟩ := (contains_drop hinv x).mp hout
    rcases hrx with hrx | hc
    · rw [contains_eq_false_iff.mpr ⟨hwx, hrx⟩] at hin
      cases hin
    · exact (depends_of_cascade hinv hreq hc).resolve_left hxh

end

/-- In every reachable pool, dropping `h` is exact if and only if `h` is not waiting and the links
lead from `h` only to transactions that still require a marker. -/
theorem run_dropsExactly_iff (preimage : Preimage) (ops : List (IterOrder × Op)) :
    ∃ pool, empty.run preimage ops = .ok pool ∧ ∀ h, pool.DropsExactly h ↔
      pool.pendingTransactions.waitingQueue.get h = none ∧
        ∀ x t, x ≠ h → Cascade pool.readyTransactions.readyTx [h] x →
          pool.readyTransactions.readyTx.get x = some t → t.tx.requires ≠ [] := by
  obtain ⟨pool, heq, hinv⟩ := run_inv empty_inv ops
  exact ⟨pool, heq, fun h => dropsExactly_iff hinv⟩

theorem not_dropsExactly_waiting :
    ∃ pool, empty.run rivals (addRivals.take 1) = .ok pool ∧ ¬ pool.DropsExactly 5 := by
  have hkept : ∃ pool ∈ (empty.run rivals (addRivals.take 1)).toOption,
      (pool.dropTransaction 5).1.contains 5 = true := by
    decide +kernel
  obtain ⟨pool, hpool, hkept⟩ := hkept
  refine ⟨pool, ok_of_mem_toOption hpool, fun hdrop => ?_⟩
  cases hkept.symm.trans hdrop.gone

end Foundry.Anvil.Pool.PoolInner
