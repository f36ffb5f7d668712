import Foundry.Anvil.Pool.Transactions

/-!
# The waiting queue

`PendingTransactions` keeps the transactions that wait for a marker.  The queue,
the index from missing markers to waiting hashes and the index from provided
markers to waiting hashes are three maps that every operation updates by hand.
-/

namespace Foundry.Anvil.Pool

open List HashMap

structure PendingTransactions where
  /-- Markers that no transaction provides yet. -/
  requiredMarkers : HashMap TxMarker (Finset TxHash)
  /-- The markers of a transaction to the hash of the transaction. -/
  waitingMarkers : HashMap (List TxMarker) TxHash
  /-- The transactions that are not ready yet. -/
  waitingQueue : HashMap TxHash PendingPoolTransaction
deriving DecidableEq

namespace PendingTransactions

def empty : PendingTransactions := ⟨.empty, .empty, .empty⟩

def clear (_self : PendingTransactions) : PendingTransactions := ⟨.empty, .empty, .empty⟩

/-- `entry(marker).or_default().insert(hash)`. -/
def requireMarker (hash : TxHash) (required : HashMap TxMarker (Finset TxHash))
    (marker : TxMarker) : HashMap TxMarker (Finset TxHash) :=
  required.insert marker (insert hash ((required.get marker).getD ∅))

/-- The waiting transaction that `add_transaction` compares the price with. -/
def replace (self : PendingTransactions) (tx : PoolTransaction) : Option PendingPoolTransaction :=
  (self.waitingMarkers.get tx.provides).bind self.waitingQueue.get

def underpriced (self : PendingTransactions) (tx : PoolTransaction) : Bool :=
  match self.replace tx with
  | some replace => decide (tx.gasPrice < replace.transaction.gasPrice)
  | none => false

/-- `add_transaction`.  A transaction that provides the markers of a waiting one is
refused when it is cheaper; otherwise it is added and takes over the index entry. -/
def addTransaction (order : IterOrder) (self : PendingTransactions)
    (tx : PendingPoolTransaction) :
    Except Panic (PendingTransactions × Except PoolError Unit) :=
  if tx.isReady then .error .transactionMustNotBeReady
  else if self.waitingQueue.contains tx.transaction.hash then
    .error .transactionIsAlreadyAdded
  else if self.underpriced tx.transaction then
    .ok (self, .error (.replacementUnderpriced tx.transaction))
  else
    .ok ({ requiredMarkers :=
             (order.markers.visit tx.missingMarkers).foldl (requireMarker tx.transaction.hash)
               self.requiredMarkers
           waitingMarkers := self.waitingMarkers.insert tx.transaction.provides tx.transaction.hash
           waitingQueue := self.waitingQueue.insert tx.transaction.hash tx }, .ok ())

/-- One hash of the inner loop of `mark_and_unlock`. -/
def unlockHash (marker : TxMarker) (self : PendingTransactions) (hash : TxHash) :
    Except Panic (PendingTransactions × List PendingPoolTransaction) :=
  match self.waitingQueue.get hash with
  | none => .error .txIsIncluded
  | some tx =>
    let tx := tx.mark marker
    if tx.isReady then
      .ok ({ self with
             waitingQueue := self.waitingQueue.remove hash
             waitingMarkers := self.waitingMarkers.remove tx.transaction.provides }, [tx])
    else .ok ({ self with waitingQueue := self.waitingQueue.insert hash tx }, [])

/-- The inner loop of `mark_and_unlock`, over the hashes in the order of the set. -/
def unlockHashes (marker : TxMarker) (self : PendingTransactions) :
    List TxHash → Except Panic (PendingTransactions × List PendingPoolTransaction)
  | [] => .ok (self, [])
  | hash :: hashes =>
    match unlockHash marker self hash with
    | .error panic => .error panic
    | .ok (self, unlocked) =>
      match unlockHashes marker self hashes with
      | .error panic => .error panic
      | .ok (self, rest) => .ok (self, unlocked ++ rest)

def visited (order : IterOrder) (self : PendingTransactions) (mark : TxMarker) : List TxHash :=
  ((self.requiredMarkers.get mark).map order.hashes.visit).getD []

/-- `mark_and_unlock`: checks off the markers and returns the transactions that
have no missing marker left. -/
def markAndUnlock (order : IterOrder) (self : PendingTransactions) :
    List TxMarker → Except Panic (PendingTransactions × List PendingPoolTransaction)
  | [] => .ok (self, [])
  | mark :: marks =>
    let marked := { self with requiredMarkers := self.requiredMarkers.remove mark }
    match unlockHashes mark marked (self.visited order mark) with
    | .error panic => .error panic
    | .ok (self, unlocked) =>
      match markAndUnlock order self marks with
      | .error panic => .error panic
      | .ok (self, rest) => .ok (self, unlocked ++ rest)

def releaseMarker (hash : TxHash) (required : HashMap TxMarker (Finset TxHash))
    (marker : TxMarker) : HashMap TxMarker (Finset TxHash) :=
  match required.get marker with
  | none => required
  | some hashes =>
    let hashes := hashes.erase hash
    if hashes = ∅ then required.remove marker else required.insert marker hashes

def remove (order : IterOrder) (self : PendingTransactions) :
    List TxHash → PendingTransactions × List PoolTransaction
  | [] => (self, [])
  | hash :: hashes =>
    match self.waitingQueue.get hash with
    | none => remove order self hashes
    | some waitingTx =>
      let (self, removed) := remove order
        { requiredMarkers :=
            (order.markers.visit waitingTx.missingMarkers).foldl (releaseMarker hash)
              self.requiredMarkers
          waitingMarkers := self.waitingMarkers.remove waitingTx.transaction.provides
          waitingQueue := self.waitingQueue.remove hash } hashes
      (self, waitingTx.transaction :: removed)

end PendingTransactions

/-! ## The invariant of the waiting queue -/

/-- `hash` is in the set stored under the marker. -/
def PendingTransactions.Requires (p : PendingTransactions) (m : TxMarker) (hash : TxHash) : Prop :=
  ∃ hashes, p.requiredMarkers.get m = some hashes ∧ hash ∈ hashes

/-- `hash` is waiting and misses the marker. -/
def PendingTransactions.Awaits (p : PendingTransactions) (hash : TxHash) (m : TxMarker) : Prop :=
  ∃ w, p.waitingQueue.get hash = some w ∧ m ∈ w.missingMarkers

structure PendingInv (preimage : Preimage) (p : PendingTransactions) : Prop where
  hash_eq : ∀ {h w}, p.waitingQueue.get h = some w → w.transaction.hash = h
  genuine : ∀ {h w}, p.waitingQueue.get h = some w → Genuine preimage w.transaction
  missing : ∀ {h w}, p.waitingQueue.get h = some w →
    ∃ m, w.missingMarkers = {m} ∧ w.transaction.requires = [m]
  required : ∀ m h, p.Requires m h ↔ p.Awaits h m
  filled : ∀ {m hashes}, p.requiredMarkers.get m = some hashes → hashes.Nonempty

namespace PendingTransactions

open HashMap (get_of_remove get_remove_eq_some)

variable {preimage : Preimage} {p p' : PendingTransactions} {m : TxMarker} {h : TxHash}
  {w tx : PendingPoolTransaction} (order : IterOrder) {hashes : List TxHash}
  {required : HashMap TxMarker (Finset TxHash)} {unlocked : List PendingPoolTransaction}

theorem empty_inv : PendingInv preimage empty where
  hash_eq hw := by simp [empty] at hw
  genuine hw := by simp [empty] at hw
  missing hw := by simp [empty] at hw
  required m h := by simp [empty, Requires, Awaits]
  filled hm := by simp [empty] at hm

theorem mem_visited : h ∈ p.visited order m ↔ p.Requires m h := by
  unfold visited Requires
  cases p.requiredMarkers.get m with
  | none => simp
  | some hashes => simp

theorem nodup_visited (p : PendingTransactions) (m : TxMarker) : (p.visited order m).Nodup := by
  unfold visited
  cases p.requiredMarkers.get m with
  | none => simp
  | some hashes => simpa using order.hashes.nodup_visit hashes

/-! ### Adding -/

/-- The queue after a transaction that misses one marker is accepted. -/
def enqueue (p : PendingTransactions) (tx : PendingPoolTransaction) (m : TxMarker) :
    PendingTransactions where
  requiredMarkers := requireMarker tx.transaction.hash p.requiredMarkers m
  waitingMarkers := p.waitingMarkers.insert tx.transaction.provides tx.transaction.hash
  waitingQueue := p.waitingQueue.insert tx.transaction.hash tx

theorem addTransaction_eq (hm : tx.missingMarkers = {m})
    (hnew : p.waitingQueue.get tx.transaction.hash = none) :
    p.addTransaction order tx =
      if p.underpriced tx.transaction then
        .ok (p, .error (.replacementUnderpriced tx.transaction))
      else .ok (p.enqueue tx m, .ok ()) := by
  have hready : tx.isReady = false := by simp [PendingPoolTransaction.isReady, hm]
  have hfresh : p.waitingQueue.contains tx.transaction.hash = false :=
    (contains_eq_false _ _).mpr hnew
  simp [addTransaction, hready, hfresh, hm, enqueue]

theorem requires_requireMarker {k : TxMarker} {hash h' : TxHash} :
    (∃ s, (requireMarker hash required k).get m = some s ∧ h' ∈ s) ↔
      (m = k ∧ h' = hash) ∨ ∃ s, required.get m = some s ∧ h' ∈ s := by
  unfold requireMarker
  rw [get_insert]
  by_cases hk : m = k
  · subst hk
    cases hr : required.get m with
    | none => simp
    | some s => simp
  · simp [hk]

theorem get_of_enqueue (hw : (p.enqueue tx m).waitingQueue.get h = some w) :
    h = tx.transaction.hash ∧ w = tx ∨ h ≠ tx.transaction.hash ∧ p.waitingQueue.get h = some w := by
  rw [enqueue, get_insert] at hw
  split at hw
  · next hh => exact .inl ⟨hh, (Option.some.inj hw).symm⟩
  · next hh => exact .inr ⟨hh, hw⟩

/-- Adding a transaction that misses one marker keeps the invariant. -/
theorem enqueue_inv (hp : PendingInv preimage p) (hgen : Genuine preimage tx.transaction)
    (hm : tx.missingMarkers = {m}) (hreq : tx.transaction.requires = [m])
    (hnew : p.waitingQueue.get tx.transaction.hash = none) :
    PendingInv preimage (p.enqueue tx m) := by
  constructor
  · intro h w hw
    rcases get_of_enqueue hw with ⟨rfl, rfl⟩ | ⟨-, hw⟩
    · rfl
    · exact hp.hash_eq hw
  · intro h w hw
    rcases get_of_enqueue hw with ⟨rfl, rfl⟩ | ⟨-, hw⟩
    · exact hgen
    · exact hp.genuine hw
  · intro h w hw
    rcases get_of_enqueue hw with ⟨rfl, rfl⟩ | ⟨-, hw⟩
    · exact ⟨m, hm, hreq⟩
    · exact hp.missing hw
  · intro k h
    have hold := hp.required k h
    unfold Requires Awaits at hold ⊢
    rw [enqueue, requires_requireMarker, hold]
    rw [get_insert]
    by_cases hh : h = tx.transaction.hash
    · subst hh
      simp [hnew, hm]
    · simp [hh]
  · intro k hashes hk
    rw [enqueue, requireMarker, get_insert] at hk
    split at hk
    · cases hk
      exact Finset.insert_nonempty _ _
    · exact hp.filled hk

/-! ### Unlocking -/

/-- A waiting transaction whose missing marker has been checked off. -/
def readied (w : PendingPoolTransaction) : PendingPoolTransaction := ⟨w.transaction, ∅⟩

/-- What unlocking the waiting hashes `hashes` does to the queue. -/
structure Unlocks (p : PendingTransactions) (hashes : List TxHash) (p' : PendingTransactions)
    (unlocked : List PendingPoolTransaction) : Prop where
  queue : ∀ h, p'.waitingQueue.get h = if h ∈ hashes then none else p.waitingQueue.get h
  index_none : ∀ h ∈ hashes, ∀ w, p.waitingQueue.get h = some w →
    p'.waitingMarkers.get w.transaction.provides = none
  index_same : ∀ k, (∀ h ∈ hashes, ∀ w, p.waitingQueue.get h = some w →
    w.transaction.provides ≠ k) → p'.waitingMarkers.get k = p.waitingMarkers.get k
  txs : unlocked = hashes.filterMap fun h => (p.waitingQueue.get h).map readied

/-- Hashes that miss just the marker are all taken out of the queue. -/
theorem unlockHashes_spec (hnd : hashes.Nodup)
    (hall : ∀ h ∈ hashes, ∃ w, p.waitingQueue.get h = some w ∧ w.missingMarkers = {m}) :
    ∃ p' unlocked, unlockHashes m p hashes = .ok (p', unlocked) ∧
      p'.requiredMarkers = p.requiredMarkers ∧ Unlocks p hashes p' unlocked := by
  induction hashes generalizing p with
  | nil =>
    refine ⟨p, [], rfl, rfl, ?_⟩
    constructor <;> simp
  | cons h hashes ih =>
    obtain ⟨hh, hnd⟩ := nodup_cons.mp hnd
    obtain ⟨w, hw, hm⟩ := hall h mem_cons_self
    have hne : ∀ h' ∈ hashes, h' ≠ h := fun h' hh' he => hh (he ▸ hh')
    obtain ⟨p', unlocked, heq, hreq, hspec⟩ := ih
      (p := { p with
        waitingQueue := p.waitingQueue.remove h
        waitingMarkers := p.waitingMarkers.remove w.transaction.provides }) hnd (by
          intro h' hh'
          rw [get_remove_of_ne _ (hne h' hh')]
          exact hall h' (mem_cons_of_mem h hh'))
    have hqueue : ∀ h' ∈ hashes, (p.waitingQueue.remove h).get h' = p.waitingQueue.get h' :=
      fun h' hh' => get_remove_of_ne _ (hne h' hh')
    refine ⟨p', readied w :: unlocked, ?_, hreq, ?_, ?_, ?_, ?_⟩
    · simp [unlockHashes, unlockHash, hw, PendingPoolTransaction.mark,
        PendingPoolTransaction.isReady, hm, readied, heq]
    · intro h'
      rw [hspec.queue h']
      rw [get_remove]
      by_cases h1 : h' = h
      · simp [h1]
      · simp [h1]
    · intro h' hh' w' hw'
      rcases mem_cons.mp hh' with rfl | hh'
      · cases hw.symm.trans hw'
        by_cases hsome : ∃ h'' ∈ hashes, ∃ w'', p.waitingQueue.get h'' = some w'' ∧
            w''.transaction.provides = w.transaction.provides
        · obtain ⟨h'', hh'', w'', hw'', hpr⟩ := hsome
          rw [← hpr]
          exact hspec.index_none h'' hh'' w'' (by rw [hqueue h'' hh'', hw''])
        · rw [hspec.index_same w.transaction.provides]
          · exact get_remove_self _ _
          · intro h'' hh'' w'' hw'' hpr
            exact hsome ⟨h'', hh'', w'', by rw [← hw'', hqueue h'' hh''], hpr⟩
      · exact hspec.index_none h' hh' w' (by rw [hqueue h' hh', hw'])
    · intro k hk
      have hrest := hspec.index_same k (by
        intro h' hh' w' hw'
        rw [hqueue h' hh'] at hw'
        exact hk h' (mem_cons_of_mem h hh') w' hw')
      rw [hrest]
      exact get_remove_of_ne _ (Ne.symm (hk h mem_cons_self w hw))
    · rw [hspec.txs, filterMap_cons, hw]
      congr 1
      apply filterMap_congr
      intro h' hh'
      rw [hqueue h' hh']

section

variable (hp : PendingInv preimage p) (order : IterOrder)

include hp

theorem missing_eq_of_awaits (hw : p.waitingQueue.get h = some w)
    (hm : m ∈ w.missingMarkers) : w.missingMarkers = {m} := by
  obtain ⟨k, hk, -⟩ := hp.missing hw
  rw [hk, Finset.mem_singleton] at hm
  rw [hk, hm]

theorem mem_visited_of_get
    (hw : p.waitingQueue.get h = some w) : h ∈ p.visited order m ↔ m ∈ w.missingMarkers := by
  rw [mem_visited, hp.required, Awaits, hw]
  simp

theorem mem_visited_iff :
    h ∈ p.visited order m ↔ ∃ w, p.waitingQueue.get h = some w ∧ w.missingMarkers = {m} := by
  rw [mem_visited, hp.required m h]
  refine exists_congr fun w => and_congr_right fun hw => ⟨missing_eq_of_awaits hp hw, ?_⟩
  intro hm
  simp [hm]

/-- Checking off one marker releases exactly the transactions that wait for it. -/
theorem markAndUnlock_spec (m : TxMarker) :
    ∃ p' unlocked, p.markAndUnlock order [m] = .ok (p', unlocked) ∧
      p'.requiredMarkers = p.requiredMarkers.remove m ∧
      Unlocks p (p.visited order m) p' unlocked ∧ PendingInv preimage p' := by
  obtain ⟨p', unlocked, heq, hreq, hspec⟩ := unlockHashes_spec
    (p := { p with requiredMarkers := p.requiredMarkers.remove m })
    (nodup_visited order p m) (fun h hh => (mem_visited_iff hp order).mp hh)
  have hspec : Unlocks p (p.visited order m) p' unlocked :=
    ⟨hspec.queue, hspec.index_none, hspec.index_same, hspec.txs⟩
  have hget : ∀ {h w}, p'.waitingQueue.get h = some w →
      p.waitingQueue.get h = some w ∧ h ∉ p.visited order m := by
    intro h w hw
    rw [hspec.queue h] at hw
    simpa [and_comm] using hw
  refine ⟨p', unlocked, by simp [markAndUnlock, heq], hreq, hspec, ?_⟩
  constructor
  · intro h w hw
    exact hp.hash_eq (hget hw).1
  · intro h w hw
    exact hp.genuine (hget hw).1
  · intro h w hw
    exact hp.missing (hget hw).1
  · intro k h
    have hold := hp.required k h
    constructor
    · intro ⟨hashes, hk, hh⟩
      rw [hreq] at hk
      obtain ⟨hk, hkm⟩ := get_of_remove hk
      obtain ⟨w, hw, hmem⟩ := hold.mp ⟨hashes, hk, hh⟩
      refine ⟨w, ?_, hmem⟩
      have hnot : h ∉ p.visited order m := by
        rw [mem_visited_of_get hp order hw, missing_eq_of_awaits hp hw hmem, Finset.mem_singleton]
        exact Ne.symm hkm
      rw [hspec.queue h, if_neg hnot, hw]
    · intro ⟨w, hw, hmem⟩
      obtain ⟨hw, hnot⟩ := hget hw
      have hkm : k ≠ m := fun hkm => hnot ((mem_visited_of_get hp order hw).mpr (hkm ▸ hmem))
      obtain ⟨hashes, hk, hh⟩ := hold.mpr ⟨w, hw, hmem⟩
      exact ⟨hashes, hreq ▸ get_remove_eq_some.mpr ⟨hk, hkm⟩, hh⟩
  · intro k hashes hk
    rw [hreq] at hk
    exact hp.filled (get_of_remove hk).1

end

theorem Unlocks.mem_txs (hu : Unlocks p hashes p' unlocked) {tx : PendingPoolTransaction} :
    tx ∈ unlocked ↔ ∃ h ∈ hashes, ∃ w, p.waitingQueue.get h = some w ∧ tx = readied w := by
  rw [hu.txs, mem_filterMap]
  constructor
  · intro ⟨h, hh, heq⟩
    obtain ⟨w, hw, rfl⟩ := Option.map_eq_some_iff.mp heq
    exact ⟨h, hh, w, hw, rfl⟩
  · intro ⟨h, hh, w, hw, htx⟩
    exact ⟨h, hh, by rw [hw, htx]; rfl⟩

theorem Unlocks.map_hash (hu : Unlocks p hashes p' unlocked) (hp : PendingInv preimage p)
    (hall : ∀ h ∈ hashes, ∃ w, p.waitingQueue.get h = some w) :
    unlocked.map (fun tx => tx.transaction.hash) = hashes := by
  rw [hu.txs]
  clear hu
  induction hashes with
  | nil => rfl
  | cons h hashes ih =>
    obtain ⟨w, hw⟩ := hall h mem_cons_self
    have hrest := ih fun h' hh' => hall h' (mem_cons_of_mem h hh')
    rw [filterMap_cons, hw]
    dsimp only [Option.map_some]
    rw [map_cons]
    congr 1
    show w.transaction.hash = h
    exact hp.hash_eq hw

/-! ### Removing -/

theorem requires_releaseMarker {k : TxMarker} {hash h' : TxHash} :
    (∃ s, (releaseMarker hash required k).get m = some s ∧ h' ∈ s) ↔
      (∃ s, required.get m = some s ∧ h' ∈ s) ∧ ¬ (m = k ∧ h' = hash) := by
  unfold releaseMarker
  cases hr : required.get k with
  | none =>
    refine (and_iff_left_of_imp ?_).symm
    rintro ⟨s, hs, _⟩ ⟨rfl, _⟩
    cases hr.symm.trans hs
  | some s =>
    by_cases hk : m = k
    · subst hk
      by_cases hempty : s.erase hash = ∅
      · have hsub : h' ∈ s → h' = hash := by
          intro hh
          by_contra hne
          have hmem : h' ∈ s.erase hash := Finset.mem_erase.mpr ⟨hne, hh⟩
          simp [hempty] at hmem
        simpa [hempty, hr] using hsub
      · simp [hempty, hr, and_comm]
    · by_cases hempty : s.erase hash = ∅
      · simp [hempty, hk, get_remove]
      · simp [hempty, hk, get_insert]

def dequeue (p : PendingTransactions) (h : TxHash) (w : PendingPoolTransaction) (m : TxMarker) :
    PendingTransactions where
  requiredMarkers := releaseMarker h p.requiredMarkers m
  waitingMarkers := p.waitingMarkers.remove w.transaction.provides
  waitingQueue := p.waitingQueue.remove h

/-- Taking out a transaction that misses one marker keeps the invariant. -/
theorem dequeue_inv (hp : PendingInv preimage p) (hw : p.waitingQueue.get h = some w)
    (hm : w.missingMarkers = {m}) : PendingInv preimage (p.dequeue h w m) := by
  have hget : ∀ {h' w'}, (p.dequeue h w m).waitingQueue.get h' = some w' →
      p.waitingQueue.get h' = some w' ∧ h' ≠ h := get_of_remove
  constructor
  · intro h' w' hw'
    exact hp.hash_eq (hget hw').1
  · intro h' w' hw'
    exact hp.genuine (hget hw').1
  · intro h' w' hw'
    exact hp.missing (hget hw').1
  · intro k h'
    have hold := hp.required k h'
    unfold Requires at hold ⊢
    rw [dequeue, requires_releaseMarker, hold]
    constructor
    · intro ⟨⟨w', hw', hk⟩, hnot⟩
      refine ⟨w', get_remove_eq_some.mpr ⟨hw', ?_⟩, hk⟩
      rintro rfl
      cases hw.symm.trans hw'
      rw [hm, Finset.mem_singleton] at hk
      exact hnot ⟨hk, rfl⟩
    · intro ⟨w', hw', hk⟩
      obtain ⟨hw', hne⟩ := hget hw'
      exact ⟨⟨w', hw', hk⟩, fun hc => hne hc.2⟩
  · intro k hashes hk
    rw [dequeue, releaseMarker] at hk
    split at hk
    · exact hp.filled hk
    dsimp only at hk
    split at hk
    · exact hp.filled (get_of_remove hk).1
    · next hne =>
      rw [get_insert] at hk
      split at hk
      · cases hk
        exact Finset.nonempty_iff_ne_empty.mpr hne
      · exact hp.filled hk

theorem remove_cons_some (hw : p.waitingQueue.get h = some w) (hm : w.missingMarkers = {m}) :
    (p.remove order (h :: hashes)).1 = ((p.dequeue h w m).remove order hashes).1 := by
  simp [remove, hw, hm, dequeue]

theorem remove_spec (hp : PendingInv preimage p) (order : IterOrder) (hashes : List TxHash) :
    PendingInv preimage (p.remove order hashes).1 ∧
      ∀ h, (p.remove order hashes).1.waitingQueue.get h =
        if h ∈ hashes then none else p.waitingQueue.get h := by
  induction hashes generalizing p with
  | nil => exact ⟨hp, fun h => by simp [remove]⟩
  | cons a hashes ih =>
    cases hw : p.waitingQueue.get a with
    | none =>
      simp only [remove, hw]
      obtain ⟨hinv, hget⟩ := ih hp
      refine ⟨hinv, ?_⟩
      intro h
      rw [hget h]
      by_cases hh : h = a
      · simp [hh, hw]
      · simp [hh]
    | some w =>
      obtain ⟨m, hm, -⟩ := hp.missing hw
      rw [remove_cons_some order hw hm]
      obtain ⟨hinv, hget⟩ := ih (dequeue_inv hp hw hm)
      refine ⟨hinv, ?_⟩
      intro h
      rw [hget h, dequeue, get_remove]
      by_cases hh : h = a
      · simp [hh]
      · simp [hh]

end PendingTransactions

end Foundry.Anvil.Pool
