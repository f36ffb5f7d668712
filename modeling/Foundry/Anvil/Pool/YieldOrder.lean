import Foundry.Anvil.Pool.Chained
import Foundry.Anvil.Pool.Links

/-!
# The order of the ready transactions

The iterator of a chained queue yields every ready transaction once, each of them the
best of those whose prerequisites it has yielded before.
-/

namespace Foundry.Anvil.Pool

open List

namespace ReadyTransactions

/-- All prerequisites of `tx` in the queue have been yielded, and `tx` itself has not. -/
def Available (r : ReadyTransactions) (done : List PoolTransaction) (tx : PoolTransaction) :
    Prop :=
  tx ∉ done ∧ ∀ p tp, r.readyTx.get p = some tp → (∃ m ∈ tx.requires, m ∈ tp.provides) →
    tp.tx ∈ done

/-- The ready transactions, each once, every one of them the greatest that is available
after those before it. -/
structure InOrder (r : ReadyTransactions) (txs : List PoolTransaction) : Prop where
  nodup : txs.Nodup
  mem_iff : ∀ tx, tx ∈ txs ↔ ∃ h t, r.readyTx.get h = some t ∧ t.tx = tx
  greatest : ∀ before tx after, txs = before ++ tx :: after →
    ∃ h t, r.readyTx.get h = some t ∧ t.tx = tx ∧ r.Available before tx ∧
      ∀ h' t', r.readyTx.get h' = some t' → r.Available before t'.tx →
        t'.transaction.key ≤ t.transaction.key

end ReadyTransactions

namespace TransactionsIterator

open ReadyTransactions

variable {preimage : Preimage} {r : ReadyTransactions} {it it' : TransactionsIterator}
  {done txs : List PoolTransaction} {tx : PoolTransaction}

/-- The iterator after it has yielded `done`. -/
structure After (r : ReadyTransactions) (done : List PoolTransaction)
    (it : TransactionsIterator) : Prop where
  isOver : Over r it
  independent : ∀ x, x ∈ it.independent ↔
    ∃ h t, r.readyTx.get h = some t ∧ t.transaction = x ∧ r.Available done t.tx
  closed : ∀ {h t p tp}, r.readyTx.get h = some t → t.tx ∈ done → r.readyTx.get p = some tp →
    tp.tx.marker ∈ t.tx.requires → tp.tx ∈ done

section

variable (hr : ReadyInv preimage r)

include hr

theorem available_iff {tx : PoolTransaction} :
    r.Available done tx ↔ tx ∉ done ∧ ∀ p tp, r.readyTx.get p = some tp →
      tp.tx.marker ∈ tx.requires → tp.tx ∈ done := by
  refine and_congr_right fun _ => forall₃_congr fun p tp hp => ?_
  simp only [ReadyTransaction.provides, (hr.genuine hp).mem_provides, exists_eq_right]

theorem after_nil (hc : r.Chained) : After r [] r.getTransactions := by
  refine ⟨over_getTransactions r, ?_, fun _ hmem => absurd hmem not_mem_nil⟩
  intro x
  show x ∈ r.independentTransactions ↔ _
  rw [hc.independent x]
  have hiff : ∀ tx, r.Available [] tx ↔ ¬ r.Led tx := by
    intro tx
    simp [available_iff hr, Led]
  simp only [hiff]

theorem available_snoc {h h' : TxHash} {t s : ReadyTransaction}
    (hclosed : ∀ {h t p tp}, r.readyTx.get h = some t → t.tx ∈ done →
      r.readyTx.get p = some tp → tp.tx.marker ∈ t.tx.requires → tp.tx ∈ done)
    (ht : r.readyTx.get h = some t) (hav : r.Available done t.tx)
    (hs : r.readyTx.get h' = some s) :
    r.Available (done ++ [t.tx]) s.tx ↔
      h' ≠ h ∧ (r.Available done s.tx ∨ t.tx.marker ∈ s.tx.requires) := by
  rw [available_iff hr] at *
  rw [available_iff hr]
  constructor
  · intro ⟨hnot, hall⟩
    rw [mem_append, mem_singleton, not_or] at hnot
    have hne : h' ≠ h := by
      intro heq
      rw [heq, ht] at hs
      exact hnot.2 (congrArg ReadyTransaction.tx (Option.some.inj hs)).symm
    refine ⟨hne, ?_⟩
    by_cases hm : t.tx.marker ∈ s.tx.requires
    · exact .inr hm
    refine .inl ⟨hnot.1, fun p tp hp hpm => ?_⟩
    have hmem := hall p tp hp hpm
    rw [mem_append, mem_singleton] at hmem
    rcases hmem with hmem | heq
    · exact hmem
    · rw [heq] at hpm
      exact absurd hpm hm
  · intro ⟨hne, hor⟩
    have hdiff : s.tx ≠ t.tx := fun heq => hne (eq_of_marker_eq hr hs ht (by rw [heq])).1
    rcases hor with ⟨hnot, hall⟩ | hm
    · refine ⟨?_, fun p tp hp hpm => mem_append_left _ (hall p tp hp hpm)⟩
      rw [mem_append, mem_singleton, not_or]
      exact ⟨hnot, hdiff⟩
    have hnot : s.tx ∉ done := fun hin => hav.1 (hclosed hs hin ht hm)
    refine ⟨?_, fun p tp hp hpm => ?_⟩
    · rw [mem_append, mem_singleton, not_or]
      exact ⟨hnot, hdiff⟩
    · rw [((hr.genuine hs).mem_requires hm).1, mem_singleton] at hpm
      rw [(eq_of_marker_eq hr hp ht hpm).2]
      exact mem_append_right _ (mem_singleton.mpr rfl)

end

section Yielded

variable (hr : ReadyInv preimage r) (hc : r.Chained) (ha : After r done it) {h : TxHash}
  {t : ReadyTransaction} (ht : r.readyTx.get h = some t)

include hc ha ht

theorem mem_rest (x : PoolTransactionRef) :
    (x ∈ it.independent ∧ x.key ≠ t.transaction.key) ↔
      ∃ h' s, r.readyTx.get h' = some s ∧ s.transaction = x ∧ h' ≠ h ∧ r.Available done s.tx := by
  rw [ha.independent x]
  constructor
  · intro ⟨⟨h', s, hs, hx, havs⟩, hkey⟩
    refine ⟨h', s, hs, hx, ?_, havs⟩
    intro heq
    rw [heq, ht] at hs
    exact hkey (by rw [← hx, Option.some.inj hs])
  · intro ⟨h', s, hs, hx, hne, havs⟩
    refine ⟨⟨h', s, hs, hx, havs⟩, fun hkey => hne ?_⟩
    exact hc.keys hs ht (by rw [hx, hkey])

include hr

theorem mem_available_snoc (hav : r.Available done t.tx) (x : PoolTransactionRef) :
    (∃ h' s, r.readyTx.get h' = some s ∧ s.transaction = x ∧
        r.Available (done ++ [t.tx]) s.tx) ↔
      (x ∈ it.independent ∧ x.key ≠ t.transaction.key) ∨
        ∃ u ∈ t.unlocks, ∃ s, r.readyTx.get u = some s ∧ s.transaction = x := by
  rw [mem_rest hc ha ht x]
  constructor
  · intro ⟨h', s, hs, hx, havs⟩
    obtain ⟨hne, hor⟩ := (available_snoc hr ha.closed ht hav hs).mp havs
    rcases hor with havs | hm
    · exact .inl ⟨h', s, hs, hx, hne, havs⟩
    · exact .inr ⟨h', hc.complete ht hs hm, s, hs, hx⟩
  · intro hor
    rcases hor with ⟨h', s, hs, hx, hne, havs⟩ | ⟨u, hu, s, hs, hx⟩
    · exact ⟨h', s, hs, hx, (available_snoc hr ha.closed ht hav hs).mpr ⟨hne, .inl havs⟩⟩
    · have hune : u ≠ h := fun heq => not_mem_unlocks_self hr ht (heq ▸ hu)
      exact ⟨u, s, hs, hx, (available_snoc hr ha.closed ht hav hs).mpr
        ⟨hune, .inr (hc.sound ht hs hu)⟩⟩

theorem after_snoc (hav : r.Available done t.tx) :
    After r (done ++ [t.tx]) (t.unlocks.foldl unlockNext
      { it with independent := it.independent.remove t.transaction }) := by
  have ho : Over r { it with independent := it.independent.remove t.transaction } :=
    ⟨ha.isOver.all, ha.isOver.awaiting⟩
  have hclosed : ∀ {h' t' p tp}, r.readyTx.get h' = some t' →
      t'.tx ∈ done ++ [t.tx] → r.readyTx.get p = some tp →
      tp.tx.marker ∈ t'.tx.requires → tp.tx ∈ done ++ [t.tx] := by
    intro h' t' p tp ht' hmem hp hm
    rw [mem_append, mem_singleton] at hmem
    apply mem_append_left
    rcases hmem with hmem | heq
    · exact ha.closed ht' hmem hp hm
    · rw [heq] at hm
      exact ((available_iff hr).mp hav).2 p tp hp hm
  rcases foldl_unlockNext hr ho (listed_unique hr ht) with
    ⟨hnone, hfold⟩ | ⟨u, hu, s, hs, hfold⟩
  · rw [hfold]
    refine ⟨ho, fun x => ?_, hclosed⟩
    rw [mem_available_snoc hr hc ha ht hav]
    rw [SortedSet.mem_remove]
    constructor
    · exact Or.inl
    · intro hor
      rcases hor with hx | ⟨u, hu, s, hs, _⟩
      · exact hx
      · rw [hnone u hu] at hs
        cases hs
  · rw [hfold]
    refine ⟨⟨ha.isOver.all, ha.isOver.awaiting⟩, fun x => ?_, hclosed⟩
    rw [mem_available_snoc hr hc ha ht hav]
    rw [SortedSet.mem_insert, SortedSet.mem_remove]
    have hkeys : ∀ b ∈ it.independent.remove t.transaction, b.key ≠ s.transaction.key := by
      intro b hb hkey
      obtain ⟨h2, s2, hs2, rfl, _, hav2⟩ := (mem_rest hc ha ht b).mp (SortedSet.mem_remove.mp hb)
      have hh2 := hc.keys hs2 hs hkey
      rw [hh2, hs] at hs2
      obtain rfl : s = s2 := Option.some.inj hs2
      exact hav.1 (((available_iff hr).mp hav2).2 h t ht (hc.sound ht hs hu))
    refine or_congr_right ⟨fun hx => ⟨u, hu, s, hs, hx.1.symm⟩, ?_⟩
    intro ⟨u', hu', s', hs', hx⟩
    have huu := listed_unique hr ht u hu u' hu' s s' hs hs'
    rw [← huu, hs] at hs'
    obtain rfl : s = s' := Option.some.inj hs'
    exact ⟨hx.symm, hkeys⟩

end Yielded

theorem next_after (hr : ReadyInv preimage r) (hc : r.Chained) (ha : After r done it)
    (hnext : it.next = some (tx, it')) :
    (∃ h t, r.readyTx.get h = some t ∧ t.tx = tx ∧ r.Available done tx ∧
      ∀ h' t', r.readyTx.get h' = some t' → r.Available done t'.tx →
        t'.transaction.key ≤ t.transaction.key) ∧ After r (done ++ [tx]) it' := by
  rw [next] at hnext
  split at hnext
  · cases hnext
  · next best hbest =>
    obtain ⟨h, t, ht, rfl, hav⟩ := (ha.independent best).mp (SortedSet.mem_of_last? hbest)
    have hhash : t.transaction.transaction.hash = h := hr.hash_eq ht
    rw [ha.isOver.all, hhash, ht] at hnext
    obtain ⟨rfl, rfl⟩ := hnext
    refine ⟨⟨h, t, ht, rfl, hav, ?_⟩, ?_⟩
    · intro h' t' ht' hav'
      exact SortedSet.key_le_of_last? hbest ((ha.independent _).mpr ⟨h', t', ht', rfl, hav'⟩)
    · rw [← ha.isOver.all]
      exact after_snoc hr hc ha ht hav

theorem stop_after (hr : ReadyInv preimage r) (ha : After r done it) (hnext : it.next = none)
    {h : TxHash} {t : ReadyTransaction} (ht : r.readyTx.get h = some t) : t.tx ∈ done := by
  have hnone : ∀ x, x ∉ it.independent := by
    rw [next] at hnext
    split at hnext
    · next hlast => exact SortedSet.last?_eq_none.mp hlast
    · next best hbest =>
      obtain ⟨h', s, hs, rfl, _⟩ := (ha.independent best).mp (SortedSet.mem_of_last? hbest)
      have hhash : s.transaction.transaction.hash = h' := hr.hash_eq hs
      rw [ha.isOver.all, hhash, hs] at hnext
      cases hnext
  induction hn : t.tx.nonce.toNat using Nat.strong_induction_on generalizing h t with
  | _ n ih =>
    by_contra hnot
    apply hnone t.transaction
    refine (ha.independent _).mpr ⟨h, t, ht, rfl, (available_iff hr).mpr ⟨hnot, ?_⟩⟩
    intro p tp hp hm
    have hlt := ((hr.genuine ht).nonce_of_requires hm).2
    exact ih tp.tx.nonce.toNat (by omega) hp rfl

/-- What the rest of the sequence looks like once `done` has been yielded. -/
structure Rest (r : ReadyTransactions) (done txs : List PoolTransaction) : Prop where
  nodup : (done ++ txs).Nodup
  ready : ∀ tx ∈ txs, ∃ h t, r.readyTx.get h = some t ∧ t.tx = tx
  all : ∀ h t, r.readyTx.get h = some t → t.tx ∈ done ++ txs
  greatest : ∀ before tx after, txs = before ++ tx :: after →
    ∃ h t, r.readyTx.get h = some t ∧ t.tx = tx ∧ r.Available (done ++ before) tx ∧
      ∀ h' t', r.readyTx.get h' = some t' → r.Available (done ++ before) t'.tx →
        t'.transaction.key ≤ t.transaction.key

theorem rest_of_yields (hr : ReadyInv preimage r) (hc : r.Chained) (hy : Yields it txs)
    (ha : After r done it) (hdone : done.Nodup) : Rest r done txs := by
  induction hy generalizing done with
  | stop hnext =>
    refine ⟨by simpa using hdone, fun tx htx => absurd htx not_mem_nil, ?_, ?_⟩
    · intro h t ht
      rw [append_nil]
      exact stop_after hr ha hnext ht
    · intro before tx after heq
      simp at heq
  | @next it it' tx txs hnext _ ih =>
    obtain ⟨⟨h, t, ht, htx, hav, hmax⟩, ha'⟩ := next_after hr hc ha hnext
    have hdone' : (done ++ [tx]).Nodup := by
      refine nodup_append'.mpr ⟨hdone, nodup_singleton tx, ?_⟩
      intro x hx hsing
      rw [mem_singleton.mp hsing] at hx
      exact hav.1 hx
    have hrest := ih ha' hdone'
    have happ : ∀ l, done ++ [tx] ++ l = done ++ tx :: l := fun l => by simp
    refine ⟨by rw [← happ]; exact hrest.nodup, ?_, ?_, ?_⟩
    · exact forall_mem_cons.mpr ⟨⟨h, t, ht, htx⟩, hrest.ready⟩
    · intro h' t' ht'
      rw [← happ]
      exact hrest.all h' t' ht'
    intro before x after heq
    cases before with
    | nil =>
      obtain ⟨rfl, rfl⟩ := List.cons.inj heq
      rw [append_nil]
      exact ⟨h, t, ht, htx, hav, hmax⟩
    | cons b before =>
      obtain ⟨hb, htail⟩ := List.cons.inj heq
      subst hb
      rw [← happ]
      exact hrest.greatest before x after htail

/-- The iterator of a chained queue yields the ready transactions in order. -/
theorem collect_inOrder (hr : ReadyInv preimage r) (hc : r.Chained) :
    r.InOrder r.getTransactions.collect := by
  have hrest := rest_of_yields hr hc (yields_collect hr) (after_nil hr hc) nodup_nil
  refine ⟨hrest.nodup, fun tx => ⟨hrest.ready tx, ?_⟩, hrest.greatest⟩
  intro ⟨h, t, ht, htx⟩
  rw [← htx]
  exact hrest.all h t ht

end TransactionsIterator

namespace PoolInner

open ReadyTransactions

/-- In every state of a run whose calls on the ready queue are safe, the iterator yields
the ready transactions in order and then stops. -/
theorem run_yields_in_order (preimage : Preimage) (ops : List (IterOrder × Op))
    (hsafe : ∀ call ∈ empty.runCalls preimage ops, call.1.OrderSafe call.2) :
    ∃ pool txs, empty.run preimage ops = .ok pool ∧
      pool.readyTransactions.getTransactions.Yields txs ∧
      pool.readyTransactions.InOrder txs := by
  have hempty : empty.readyTransactions.Chained :=
    chained_of_empty (fun h => rfl) (fun x hx => SortedSet.not_mem_empty x hx)
  obtain ⟨pool, heq, hinv, hc⟩ := run_spec empty_inv ops hempty fun call hcall =>
    orderSafe_keeps (hsafe call hcall)
  exact ⟨pool, _, heq, TransactionsIterator.yields_collect hinv.ready,
    TransactionsIterator.collect_inOrder hinv.ready hc⟩

/-- The replacement comes before the transaction that builds on it. -/
theorem run_yields_in_order_replaced :
    ∃ pool txs, empty.run twoNonces addAddReplace = .ok pool ∧
      pool.readyTransactions.getTransactions.Yields txs ∧ pool.readyTransactions.InOrder txs ∧
      pool.readyTransactions.readyTx.keys = {2, 3} := by
  have hsafe : ∀ call ∈ empty.runCalls twoNonces addAddReplace, call.1.OrderSafe call.2 := by
    rw [runCalls_addAddReplace]
    intro call hcall
    simp only [mem_cons, not_mem_nil, or_false] at hcall
    rcases hcall with rfl | rfl | rfl
    · intro _
      exact ⟨nofun, nofun, nofun⟩
    · intro _
      exact ⟨forall_ready [1] (by decide +kernel) (by decide +kernel),
        forall_ready [1] (by decide +kernel) (by decide +kernel),
        fun _ => forall_ready [1] (by decide +kernel) (by decide +kernel)⟩
    · intro _
      exact ⟨forall_ready [1, 2] (by decide +kernel) (by decide +kernel),
        forall_ready [1, 2] (by decide +kernel) (by decide +kernel),
        fun hnone => absurd hnone (by decide +kernel)⟩
  obtain ⟨pool, txs, hrun, hyields, horder⟩ := run_yields_in_order twoNonces addAddReplace hsafe
  have hready : (empty.run twoNonces addAddReplace).toOption.map (fun pool =>
      pool.readyTransactions.readyTx.keys) = some {2, 3} := by
    decide +kernel
  rw [hrun] at hready
  exact ⟨pool, txs, hrun, hyields, horder, Option.some.inj hready⟩

/-- The dropped transaction comes back after the chain has reached its nonce. -/
def addAddDropAdd : List (IterOrder × Op) :=
  addAddDrop ++ [(.increasing, .addTransaction .fees 2 1)]

/-- The iterator yields hash 2, then hash 1, then hash 2 again. -/
theorem addAddDropAdd_yields_twice :
    ∃ pool txs, empty.run twoNonces addAddDropAdd = .ok pool ∧
      pool.readyTransactions.getTransactions.Yields txs ∧
      ¬ pool.readyTransactions.InOrder txs := by
  have hinv : PoolInv twoNonces empty := empty_inv
  obtain ⟨pool, heq, hinv⟩ := run_inv hinv addAddDropAdd
  have hdup : ∃ pool ∈ (empty.run twoNonces addAddDropAdd).toOption,
      ¬ pool.readyTransactions.getTransactions.collect.Nodup := by
    decide +kernel
  obtain ⟨pool', hpool', hdup⟩ := hdup
  cases heq.symm.trans (ok_of_mem_toOption hpool')
  exact ⟨pool, _, heq, TransactionsIterator.yields_collect hinv.ready, fun hin => hdup hin.nodup⟩

end PoolInner

end Foundry.Anvil.Pool
