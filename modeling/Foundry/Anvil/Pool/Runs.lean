import Foundry.Anvil.Pool.AddReady

/-!
# Runs of the pool

Every operation keeps the representation invariant and fails no assertion.  Each lemma
carries a property `I` of the ready queue along: it is enough that every call the operation
makes keeps it.
-/

namespace Foundry.Anvil.Pool

open List

theorem ok_of_mem_toOption {ε α : Type} {x : Except ε α} {a : α} (h : a ∈ x.toOption) :
    x = .ok a := by
  cases x with
  | error e => cases h
  | ok b => exact congrArg Except.ok (Option.some.inj h)

namespace PoolInner

section Keeps

open ReadyTransactions PendingTransactions

variable {preimage : Preimage} {pool : PoolInner} {I : ReadyTransactions → Prop}
  {r' : ReadyTransactions} {imports : List PendingPoolTransaction} {r : ReadyTransactions}

/-! ## Pruning -/

theorem importLoop_spec (hinv : PoolInv preimage pool)
    (hq : InFlight preimage pool imports) (order : IterOrder) (hI : I pool.readyTransactions)
    (hkeeps : ∀ call ∈ pool.importCalls order imports, Keeps preimage I call) :
    ∃ pool' promoted failed, pool.importLoop order imports = .ok (pool', promoted, failed) ∧
      PoolInv preimage pool' ∧ I pool'.readyTransactions := by
  induction imports generalizing pool with
  | nil => exact ⟨pool, [], [], rfl, hinv, hI⟩
  | cons tx imports ih =>
    obtain ⟨hhead, hnodup⟩ := nodup_cons.mp hq.nodup
    have hfirst : InFlight preimage pool [tx] :=
      inFlight_singleton (hq.genuine tx mem_cons_self) (hq.unlocked tx mem_cons_self)
        (hq.absent tx mem_cons_self)
    unfold importCalls at hkeeps
    obtain ⟨pool1, res, heq, hends⟩ := addReadyTransaction_spec hinv hfirst order hI
      fun call hcall => hkeeps call (mem_append_left _ hcall)
    rw [heq] at hkeeps
    have hrest : InFlight preimage pool1 imports := by
      constructor
      · exact fun u hu => hq.genuine u (mem_cons_of_mem tx hu)
      · exact fun u hu => hq.unlocked u (mem_cons_of_mem tx hu)
      · exact hnodup
      · intro u hu
        by_contra hin
        have hin : pool1.contains u.transaction.hash = true := by simpa using hin
        rcases hends.contained _ hin with hin | hin
        · rw [hq.absent u (mem_cons_of_mem tx hu)] at hin
          cases hin
        · exact hhead (mem_map.mpr ⟨u, hu, mem_singleton.mp hin⟩)
    obtain ⟨pool', promoted, failed, hloop, hinv', hI'⟩ := ih hends.inv hrest hends.keeps
      fun call hcall => hkeeps call (mem_append_right _ hcall)
    cases res with
    | ok added =>
      exact ⟨pool', added :: promoted, failed, by simp [importLoop, heq, hloop], hinv', hI'⟩
    | error err =>
      exact ⟨pool', promoted, tx.transaction.hash :: failed,
        by simp [importLoop, heq, hloop], hinv', hI'⟩

/-- Every transaction of one queue is in the other, unchanged apart from its links. -/
def ReadySub (r r' : ReadyTransactions) : Prop :=
  ∀ h t, r'.readyTx.get h = some t → ∃ s, r.readyTx.get h = some s ∧ s.tx = t.tx

theorem ReadySub.ready_none {h : TxHash} (hsub : ReadySub r r')
    (hnone : r.readyTx.get h = none) : r'.readyTx.get h = none := by
  cases hget : r'.readyTx.get h with
  | none => rfl
  | some t =>
    obtain ⟨s, hs, _⟩ := hsub h t hget
    rw [hnone] at hs
    cases hs

theorem inv_of_sub {p : PendingTransactions} (hinv : PoolInv preimage pool)
    (hr : ReadyInv preimage r) (hp : PendingInv preimage p)
    (hready : ReadySub pool.readyTransactions r) (hpending : ∀ h w, p.waitingQueue.get h = some w →
      pool.pendingTransactions.waitingQueue.get h = some w) : PoolInv preimage ⟨r, p⟩ := by
  constructor
  · exact hr
  · exact hp
  · intro h t ht
    cases hget : p.waitingQueue.get h with
    | none => rfl
    | some w =>
      have hnone := hready.ready_none (ready_none_of_waiting hinv (hpending h w hget))
      rw [hnone] at ht
      cases ht
  · intro h w m hw hm
    have hfree := (provided_eq_none hinv.ready).mp (hinv.missing_free (hpending h w hw) hm)
    refine (provided_eq_none hr).mpr fun h' t ht hmarker => ?_
    obtain ⟨s, hs, heq⟩ := hready h' t ht
    exact hfree h' s hs (by rw [heq, hmarker])

theorem pruneTags_spec (hr : ReadyInv preimage r) (m : TxMarker) :
    ∃ r' removed, r.pruneTags m = .ok (r', removed) ∧ ReadyInv preimage r' ∧ ReadySub r r' := by
  refine pruneLoop_induct (ReadySub r) ?_ hr (fun h t ht => ⟨t, ht, rfl⟩) [m]
  intro r1 h t hr1 hsub ht h' t' ht'
  obtain ⟨_, s1, hs1, rfl⟩ := (get_pruneStep hr1 ht).mp ht'
  obtain ⟨s, hs, heq⟩ := hsub h' s1 hs1
  exact ⟨s, hs, by rw [heq, afterPrune_tx]⟩

theorem pruneLoop_spec {markers : List TxMarker}
    (hinv : PoolInv preimage pool) (hq : InFlight preimage pool imports) (order : IterOrder)
    (hI : I pool.readyTransactions)
    (hkeeps : ∀ call ∈ pool.pruneCalls order markers, Keeps preimage I call) :
    ∃ pool' unlocked pruned, pool.pruneLoop order markers = .ok (pool', unlocked, pruned) ∧
      PoolInv preimage pool' ∧ InFlight preimage pool' (imports ++ unlocked) ∧
      I pool'.readyTransactions := by
  induction markers generalizing pool imports with
  | nil => exact ⟨pool, [], [], rfl, hinv, by simpa using hq, hI⟩
  | cons m markers ih =>
    obtain ⟨pending, unlocked, hrel⟩ := released hinv.pending order m
    obtain ⟨r', removed, heq, hr', hsub⟩ := pruneTags_spec hinv.ready m
    simp only [pruneCalls, hrel.unlock, heq] at hkeeps
    have hI' : I r' := by
      have hcall := hkeeps _ mem_cons_self hinv.ready trivial hI
      simpa [ReadyCall.after, heq] using hcall
    have hinv' : PoolInv preimage ⟨r', pending⟩ :=
      inv_of_sub hinv hr' hrel.inv hsub fun h w hw => (hrel.stay.mp hw).1
    have hflight : InFlight preimage ⟨r', pending⟩ (imports ++ unlocked) := by
      refine inFlight_append hinv hq hrel ?_ ?_
      · intro q hq'
        exact hsub.ready_none (contains_eq_false_iff.mp (hq.absent q hq')).2
      · intro h w hw
        exact hsub.ready_none (ready_none_of_waiting hinv hw)
    obtain ⟨pool', unlocked', pruned, hloop, hinv'', hflight', hI''⟩ := ih hinv' hflight hI'
      fun call hcall => hkeeps call (mem_cons_of_mem _ hcall)
    refine ⟨pool', unlocked ++ unlocked', removed ++ pruned, ?_, hinv'', ?_, hI''⟩
    · simp [PoolInner.pruneLoop, hrel.unlock, heq, hloop]
    · rwa [← append_assoc]

theorem pruneMarkers_spec (hinv : PoolInv preimage pool) (order : IterOrder)
    (markers : List TxMarker) (hI : I pool.readyTransactions)
    (hkeeps : ∀ call ∈ pool.pruneMarkersCalls order markers, Keeps preimage I call) :
    ∃ pool' res, pool.pruneMarkers order markers = .ok (pool', res) ∧
      PoolInv preimage pool' ∧ I pool'.readyTransactions := by
  unfold pruneMarkersCalls at hkeeps
  have hnone : InFlight preimage pool [] := by
    constructor <;> simp
  obtain ⟨pool1, imports, pruned, hloop, hinv1, hq, hI1⟩ := pruneLoop_spec hinv hnone order hI
    fun call hcall => hkeeps call (mem_append_left _ hcall)
  rw [hloop] at hkeeps
  obtain ⟨pool', promoted, failed, himport, hinv', hI'⟩ := importLoop_spec hinv1 hq order hI1
    fun call hcall => hkeeps call (mem_append_right _ hcall)
  rw [nil_append] at himport
  exact ⟨pool', ⟨promoted, failed, pruned⟩, by simp [pruneMarkers, hloop, himport], hinv', hI'⟩

/-! ## Removals -/

theorem readySub_removes {roots : List TxHash}
    {removed : List PoolTransaction} (hrem : Removes r roots r' removed) : ReadySub r r' := by
  intro h t ht
  exact ⟨t, (hrem.get_eq_some.mp ht).1, rfl⟩

section

variable (hinv : PoolInv preimage pool) (ops : List (IterOrder × Op)) (order : IterOrder)

include hinv

theorem removeInvalid_spec (txHashes : List TxHash) (hI : I pool.readyTransactions)
    (hkeeps : ∀ call ∈ pool.removeInvalidCalls txHashes, Keeps preimage I call) :
    PoolInv preimage (pool.removeInvalid order txHashes).1 ∧
      I (pool.removeInvalid order txHashes).1.readyTransactions := by
  unfold removeInvalidCalls at hkeeps
  unfold removeInvalid
  by_cases hnil : txHashes = []
  · rw [if_pos hnil]
    exact ⟨hinv, hI⟩
  rw [if_neg hnil] at hkeeps ⊢
  obtain ⟨hr, hrem⟩ := removeWithMarkers_spec hinv.ready txHashes
  obtain ⟨hp, hqueue⟩ := remove_spec hinv.pending order txHashes
  refine ⟨inv_of_sub hinv hr hp (readySub_removes hrem) ?_, ?_⟩
  · intro h w hw
    rw [hqueue h] at hw
    by_cases hmem : h ∈ txHashes
    · simp [hmem] at hw
    · simpa [hmem] using hw
  · exact hkeeps _ mem_cons_self hinv.ready trivial hI

theorem dropTransaction_spec (tx : TxHash) (hI : I pool.readyTransactions)
    (hkeeps : Keeps preimage I (pool.readyTransactions, .remove [tx])) :
    PoolInv preimage (pool.dropTransaction tx).1 ∧
      I (pool.dropTransaction tx).1.readyTransactions := by
  obtain ⟨hr, hrem⟩ := removeWithMarkers_spec hinv.ready [tx]
  refine ⟨inv_of_sub hinv hr hinv.pending (readySub_removes hrem) fun h w hw => hw, ?_⟩
  exact hkeeps hinv.ready trivial hI

/-! ## Operations and runs -/

theorem step_spec (op : Op) (hI : I pool.readyTransactions)
    (hkeeps : ∀ call ∈ pool.readyCalls preimage order op, Keeps preimage I call) :
    ∃ pool', pool.step preimage order op = .ok pool' ∧ PoolInv preimage pool' ∧
      I pool'.readyTransactions := by
  cases op with
  | addTransaction txOrder hash onChainNonce =>
    obtain ⟨pool', res, heq, hinv', hI'⟩ := addTransaction_spec hinv
      (poolTransaction_genuine preimage txOrder hash onChainNonce) order hI (by
        intro hin hready call hcall
        unfold arriving at hready
        apply hkeeps
        simp only [readyCalls, hin, hready]
        exact hcall)
    exact ⟨pool', by rw [step, heq]; rfl, hinv', hI'⟩
  | pruneMarkers markers =>
    obtain ⟨pool', res, heq, hinv', hI'⟩ := pruneMarkers_spec hinv order markers hI hkeeps
    exact ⟨pool', by rw [step, heq]; rfl, hinv', hI'⟩
  | onMinedBlock included invalid =>
    obtain ⟨hinv1, hI1⟩ := removeInvalid_spec hinv order (invalid.map PoolTransaction.hash) hI
      fun call hcall => hkeeps call (mem_append_left _ hcall)
    obtain ⟨pool', res, heq, hinv', hI'⟩ := pruneMarkers_spec hinv1 order
      (included.flatMap PoolTransaction.provides) hI1
      fun call hcall => hkeeps call (mem_append_right _ hcall)
    exact ⟨pool', by rw [step, onMinedBlock, heq]; rfl, hinv', hI'⟩
  | removeInvalid txHashes =>
    obtain ⟨hinv', hI'⟩ := removeInvalid_spec hinv order txHashes hI hkeeps
    exact ⟨_, rfl, hinv', hI'⟩
  | removeTransactionsByAddress sender =>
    obtain ⟨hinv', hI'⟩ := removeInvalid_spec hinv order _ hI hkeeps
    exact ⟨_, rfl, hinv', hI'⟩
  | dropTransaction tx =>
    obtain ⟨hinv', hI'⟩ := dropTransaction_spec hinv tx hI (hkeeps _ mem_cons_self)
    exact ⟨_, rfl, hinv', hI'⟩
  | clear =>
    exact ⟨_, rfl, clear_inv pool, hkeeps _ mem_cons_self hinv.ready trivial hI⟩

/-- A property of the ready queue that every call of a run keeps holds at its end. -/
theorem run_spec (hI : I pool.readyTransactions)
    (hkeeps : ∀ call ∈ pool.runCalls preimage ops, Keeps preimage I call) :
    ∃ pool', pool.run preimage ops = .ok pool' ∧ PoolInv preimage pool' ∧
      I pool'.readyTransactions := by
  induction ops generalizing pool with
  | nil => exact ⟨pool, rfl, hinv, hI⟩
  | cons head ops ih =>
    obtain ⟨order, op⟩ := head
    unfold runCalls at hkeeps
    obtain ⟨pool1, heq, hinv1, hI1⟩ := step_spec hinv order op hI
      fun call hcall => hkeeps call (mem_append_left _ hcall)
    rw [heq] at hkeeps
    obtain ⟨pool', hrun, hinv', hI'⟩ := ih hinv1 hI1
      fun call hcall => hkeeps call (mem_append_right _ hcall)
    exact ⟨pool', by rw [run, heq]; exact hrun, hinv', hI'⟩

theorem run_inv : ∃ pool', pool.run preimage ops = .ok pool' ∧ PoolInv preimage pool' := by
  obtain ⟨pool', heq, hinv', _⟩ := run_spec (I := fun _ => True) hinv ops trivial
    fun _ _ _ _ _ => trivial
  exact ⟨pool', heq, hinv'⟩

end

end Keeps

/-- The representation invariant of the four maps, as a statement about lookups. -/
structure Represents (pool : PoolInner) : Prop where
  provided : ∀ m h, pool.readyTransactions.providedMarkers.get m = some h ↔
    ∃ t, pool.readyTransactions.readyTx.get h = some t ∧ m ∈ t.provides
  disjoint : ∀ h, ¬ (pool.pendingTransactions.waitingQueue.contains h = true ∧
    pool.readyTransactions.readyTx.contains h = true)
  required : ∀ m h,
    (∃ hashes, pool.pendingTransactions.requiredMarkers.get m = some hashes ∧ h ∈ hashes) ↔
      ∃ w, pool.pendingTransactions.waitingQueue.get h = some w ∧ m ∈ w.missingMarkers
  missing_nonempty : ∀ h w, pool.pendingTransactions.waitingQueue.get h = some w →
    w.missingMarkers.Nonempty
  missing_unprovided : ∀ h w m, pool.pendingTransactions.waitingQueue.get h = some w →
    m ∈ w.missingMarkers → ∀ h' t, pool.readyTransactions.readyTx.get h' = some t →
    m ∉ t.provides

theorem represents_of_inv {preimage : Preimage} {pool : PoolInner}
    (hinv : PoolInv preimage pool) : pool.Represents := by
  constructor
  · exact hinv.ready.provided
  · intro h ⟨hw, hr⟩
    obtain ⟨w, hw⟩ := (HashMap.contains_eq_true _ _).mp hw
    obtain ⟨t, ht⟩ := (HashMap.contains_eq_true _ _).mp hr
    rw [hinv.disjoint ht] at hw
    cases hw
  · exact hinv.pending.required
  · intro h w hw
    obtain ⟨m, hm, _⟩ := hinv.pending.missing hw
    rw [hm]
    exact Finset.singleton_nonempty m
  · intro h w m hw hm h' t ht hmem
    have hsome := (hinv.ready.provided m h').mpr ⟨t, ht, hmem⟩
    rw [hinv.missing_free hw hm] at hsome
    cases hsome

/-- No run of the pool fails one of its assertions, and every state it reaches satisfies
the representation invariant. -/
theorem run_represents (preimage : Preimage) (ops : List (IterOrder × Op)) :
    ∃ pool, empty.run preimage ops = .ok pool ∧ pool.Represents := by
  obtain ⟨pool, heq, hinv⟩ := run_inv empty_inv ops
  exact ⟨pool, heq, represents_of_inv hinv⟩

end PoolInner

end Foundry.Anvil.Pool
