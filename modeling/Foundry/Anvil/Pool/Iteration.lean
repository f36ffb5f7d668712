import Foundry.Anvil.Pool.Runs

/-!
# What the iterator yields

The iterator of a ready queue always stops, whatever its links are.  When the links of
the ready transactions to each other are right, it yields every ready transaction once,
the best available one first.
-/

namespace Foundry.Anvil.Pool

/-- At most one of the hashes is ready. -/
def AtMostOne (ready : HashMap TxHash ReadyTransaction) (hashes : List TxHash) : Prop :=
  ∀ u ∈ hashes, ∀ u' ∈ hashes, ∀ s s', ready.get u = some s → ready.get u' = some s' → u = u'

section

variable {ready : HashMap TxHash ReadyTransaction} {hashes : List TxHash} {u : TxHash}

theorem AtMostOne.tail (h : AtMostOne ready (u :: hashes)) : AtMostOne ready hashes :=
  fun v hv v' hv' => h v (List.mem_cons_of_mem u hv) v' (List.mem_cons_of_mem u hv')

theorem none_or_one_cons {P : Prop} {Q : ReadyTransaction → Prop} (hget : ready.get u = none)
    (h : (∀ u ∈ hashes, ready.get u = none) ∧ P ∨ ∃ u ∈ hashes, ∃ s, ready.get u = some s ∧ Q s) :
    (∀ v ∈ u :: hashes, ready.get v = none) ∧ P ∨
      ∃ v ∈ u :: hashes, ∃ s, ready.get v = some s ∧ Q s := by
  simpa [hget] using h

end

namespace TransactionsIterator

open ReadyTransactions

variable {preimage : Preimage} {r : ReadyTransactions} {it it' : TransactionsIterator}

/-- The iterator yields these transactions and then `None`. -/
inductive Yields : TransactionsIterator → List PoolTransaction → Prop
  | stop {it : TransactionsIterator} : it.next = none → Yields it []
  | next {it it' : TransactionsIterator} {tx : PoolTransaction} {txs : List PoolTransaction} :
      it.next = some (tx, it') → Yields it' txs → Yields it (tx :: txs)

/-- The iterator still works on the queue `r`, and nothing waits for a second marker. -/
structure Over (r : ReadyTransactions) (it : TransactionsIterator) : Prop where
  all : it.all = r.readyTx
  awaiting : it.awaiting = .empty

theorem over_getTransactions (r : ReadyTransactions) : Over r r.getTransactions := ⟨rfl, rfl⟩

/-- A transaction requires at most one marker, so the first provider makes it independent. -/
theorem unlockNext_eq (hr : ReadyInv preimage r) (ho : Over r it) (u : TxHash) :
    it.unlockNext u = match r.readyTx.get u with
      | none => it
      | some s => { it with independent := it.independent.insert s.transaction } := by
  have hawait : it.awaiting.get u = none := by rw [ho.awaiting, HashMap.get_empty]
  have hall : it.all.get u = r.readyTx.get u := by rw [ho.all]
  unfold unlockNext
  rw [hawait, hall]
  cases hget : r.readyTx.get u with
  | none => rfl
  | some s =>
    have hlen : s.transaction.transaction.requires.length ≤ s.requiresOffset + 1 :=
      le_trans (hr.genuine hget).requires_length_le (Nat.le_add_left 1 _)
    simp [independentOrAwaiting, hlen]

theorem foldl_unlockNext (hr : ReadyInv preimage r) (ho : Over r it) {unlocks : List TxHash}
    (huniq : AtMostOne r.readyTx unlocks) :
    ((∀ u ∈ unlocks, r.readyTx.get u = none) ∧ unlocks.foldl unlockNext it = it) ∨
      ∃ u ∈ unlocks, ∃ s, r.readyTx.get u = some s ∧ unlocks.foldl unlockNext it =
        { it with independent := it.independent.insert s.transaction } := by
  induction unlocks generalizing it with
  | nil => exact .inl ⟨fun u hu => absurd hu List.not_mem_nil, rfl⟩
  | cons u unlocks ih =>
    rw [List.foldl_cons, unlockNext_eq hr ho]
    cases hget : r.readyTx.get u with
    | none => exact none_or_one_cons hget (ih ho huniq.tail)
    | some s =>
      refine .inr ⟨u, List.mem_cons_self, s, hget, ?_⟩
      have ho' : Over r { it with independent := it.independent.insert s.transaction } :=
        ⟨ho.all, ho.awaiting⟩
      rcases ih ho' huniq.tail with ⟨_, heq⟩ | ⟨v, hv, s', hs', heq⟩
      · exact heq
      · have huv : u = v :=
          huniq u List.mem_cons_self v (List.mem_cons_of_mem u hv) s s' hget hs'
        rw [← huv, hget] at hs'
        obtain rfl : s = s' := Option.some.inj hs'
        simpa [SortedSet.insert_insert] using heq

theorem listed_unique (hr : ReadyInv preimage r) {h : TxHash} {t : ReadyTransaction}
    (ht : r.readyTx.get h = some t) : AtMostOne r.readyTx t.unlocks := by
  intro u hu u' hu' s s' hs hs'
  obtain ⟨hsender, hnonce⟩ := hr.links ht u hu
  obtain ⟨hsender', hnonce'⟩ := hr.links ht u' hu'
  have hmarker : s.tx.marker = s'.tx.marker := by
    rw [PoolTransaction.marker, PoolTransaction.marker, (hr.genuine hs).nonce_eq,
      (hr.genuine hs').nonce_eq, (hr.genuine hs).sender_eq, (hr.genuine hs').sender_eq,
      hr.hash_eq hs, hr.hash_eq hs', hsender, hsender',
      BitVec.eq_of_toNat_eq (hnonce.trans hnonce'.symm)]
  exact (eq_of_marker_eq hr hs hs' hmarker).1

/-! ## The iterator stops -/

/-- The ready transactions of the same sender with a later nonce. -/
def later (preimage : Preimage) (r : ReadyTransactions) (hash : TxHash) : Finset TxHash :=
  r.readyTx.keys.filter fun h => (preimage h).2 = (preimage hash).2 ∧
    (preimage hash).1.nonce.toNat < (preimage h).1.nonce.toNat

/-- Every independent transaction can still lead to those after it. -/
def potential (preimage : Preimage) (r : ReadyTransactions) (it : TransactionsIterator) : Nat :=
  it.independent.weight fun x => (later preimage r x.transaction.hash).card + 1

section

variable (hr : ReadyInv preimage r)

include hr

theorem later_card_lt {h u : TxHash} {t s : ReadyTransaction}
    (ht : r.readyTx.get h = some t) (hu : u ∈ t.unlocks) (hs : r.readyTx.get u = some s) :
    (later preimage r u).card < (later preimage r h).card := by
  obtain ⟨hsender, hnonce⟩ := hr.links ht u hu
  rw [(hr.genuine ht).sender_eq, hr.hash_eq ht] at hsender
  rw [(hr.genuine ht).nonce_eq, hr.hash_eq ht] at hnonce
  apply Finset.card_lt_card
  refine Finset.ssubset_iff_subset_ne.mpr ⟨?_, ?_⟩
  · intro x hx
    obtain ⟨hkey, hxs, hxn⟩ := Finset.mem_filter.mp hx
    exact Finset.mem_filter.mpr ⟨hkey, hxs.trans hsender, by omega⟩
  intro heq
  have hmem : u ∈ later preimage r h :=
    Finset.mem_filter.mpr ⟨HashMap.mem_keys_of_get hs, hsender, by omega⟩
  rw [← heq] at hmem
  have hlt := (Finset.mem_filter.mp hmem).2.2
  omega

/-- Each transaction that is yielded makes the potential smaller. -/
theorem next_decreases (ho : Over r it) {tx : PoolTransaction} (hnext : it.next = some (tx, it')) :
    Over r it' ∧ potential preimage r it' < potential preimage r it := by
  induction hn : it.independent.elems.length using Nat.strong_induction_on generalizing it with
  | _ n ih =>
    rw [next] at hnext
    split at hnext
    · cases hnext
    · next best hbest =>
      have hmem := SortedSet.mem_of_last? hbest
      have hweight := SortedSet.weight_remove_add_le
        (fun x : PoolTransactionRef => (later preimage r x.transaction.hash).card + 1) hmem
      have ho' : Over r { it with independent := it.independent.remove best } :=
        ⟨ho.all, ho.awaiting⟩
      rw [ho.all] at hnext
      cases hget : r.readyTx.get best.transaction.hash with
      | none =>
        simp only [hget] at hnext
        have hlt := SortedSet.length_remove_lt hmem
        obtain ⟨hover, hpot⟩ := ih _ (hn ▸ hlt) ho' (by rw [← hnext, ho.all]) rfl
        refine ⟨hover, lt_of_lt_of_le hpot ?_⟩
        unfold potential
        dsimp only
        omega
      | some t =>
        simp only [hget, Option.some.injEq, Prod.mk.injEq] at hnext
        obtain ⟨_, heq⟩ := hnext
        rw [← ho.all] at heq
        rcases foldl_unlockNext hr ho' (listed_unique hr hget) with
          ⟨_, hfold⟩ | ⟨u, hu, s, hs, hfold⟩
        · have heq := hfold.symm.trans heq
          subst heq
          refine ⟨ho', ?_⟩
          unfold potential
          dsimp only
          omega
        have heq := hfold.symm.trans heq
        subst heq
        refine ⟨⟨ho.all, ho.awaiting⟩, ?_⟩
        have hinsert := SortedSet.weight_insert_le (it.independent.remove best)
          (fun x : PoolTransactionRef => (later preimage r x.transaction.hash).card + 1)
          s.transaction
        have hlater := later_card_lt hr hget hu hs
        have hhash : s.transaction.transaction.hash = u := hr.hash_eq hs
        rw [hhash] at hinsert
        unfold potential
        dsimp only
        omega

theorem yields_take (ho : Over r it) {fuel : Nat}
    (hfuel : potential preimage r it ≤ fuel) : Yields it (take fuel it) := by
  induction fuel generalizing it with
  | zero =>
    refine .stop ?_
    cases hnext : it.next with
    | none => rfl
    | some res =>
      have hlt := (next_decreases hr ho hnext).2
      omega
  | succ fuel ih =>
    unfold take
    cases hnext : it.next with
    | none => exact .stop hnext
    | some res =>
      obtain ⟨ho', hlt⟩ := next_decreases hr ho hnext
      exact .next hnext (ih ho' (by omega))

theorem yields_collect : Yields r.getTransactions r.getTransactions.collect := by
  apply yields_take hr (over_getTransactions r)
  apply SortedSet.weight_le
  intro x _
  exact Nat.succ_le_succ (Finset.card_filter_le _ _)

end

end TransactionsIterator

end Foundry.Anvil.Pool
