import Foundry.Anvil.Pool.Offers
import Foundry.Anvil.Pool.Waiting

/-!
# Iteration order and the outcome of an addition

The waiting transactions that a new transaction unlocks are offered to the ready queue in
an order that the hash sets decide.  Only transactions that compete for one marker can
feel that order.
-/

namespace Foundry.Anvil.Pool

open List

namespace PendingTransactions

variable {preimage : Preimage} {p p' : PendingTransactions} {m : TxMarker} {h : TxHash}
  {w : PendingPoolTransaction}

/-- The waiting transactions that are unlocked, one after the other, when the markers are
provided. -/
inductive Reached (p : PendingTransactions) (markers : List TxMarker) : TxHash → Prop
  | first {m : TxMarker} {h : TxHash} {w : PendingPoolTransaction} : m ∈ markers →
      p.waitingQueue.get h = some w → m ∈ w.missingMarkers → Reached p markers h
  | next {h h' : TxHash} {w w' : PendingPoolTransaction} : Reached p markers h' →
      p.waitingQueue.get h' = some w' → p.waitingQueue.get h = some w →
      w'.transaction.marker ∈ w.missingMarkers → Reached p markers h

theorem Reached.waiting {markers : List TxMarker} (hre : p.Reached markers h) :
    ∃ w, p.waitingQueue.get h = some w := by
  cases hre with
  | first _ hw _ => exact ⟨_, hw⟩
  | next _ _ hw _ => exact ⟨_, hw⟩

theorem not_reached_nil : ¬ p.Reached [] h := by
  intro hre
  induction hre with
  | first hk _ _ => exact not_mem_nil hk
  | next _ _ _ _ ih => exact ih

/-- Providing the first marker and then the markers of what it unlocked reaches the same
transactions. -/
theorem reached_cons {order : IterOrder} {unlocked : List PendingPoolTransaction}
    {markers : List TxMarker} (hp : PendingInv preimage p)
    (hrel : PoolInner.Released preimage order p m p' unlocked) (h : TxHash) :
    p.Reached (m :: markers) h ↔
      h ∈ unlocked.map (fun u => u.transaction.hash) ∨
        p'.Reached (markers ++ unlocked.map fun u => u.transaction.marker) h := by
  constructor
  · intro hre
    induction hre with
    | @first k h w hk hw hm =>
      by_cases hmw : m ∈ w.missingMarkers
      · exact .inl ((hrel.mem_unlocked hp hw).mpr hmw)
      · have hk : k ∈ markers := (mem_cons.mp hk).resolve_left fun heq => hmw (heq ▸ hm)
        exact .inr (.first (mem_append_left _ hk) (hrel.stay.mpr ⟨hw, hmw⟩) hm)
    | @next h h' w w' _ hw' hw hm ih =>
      by_cases hmw : m ∈ w.missingMarkers
      · exact .inl ((hrel.mem_unlocked hp hw).mpr hmw)
      have hw := hrel.stay.mpr ⟨hw, hmw⟩
      rcases ih with hin | hre
      · obtain ⟨u, hu, hh⟩ := mem_map.mp hin
        obtain ⟨w0, hw0, htx, _⟩ := hrel.left u hu
        rw [hh, hw'] at hw0
        have hmarker : u.transaction.marker = w'.transaction.marker := by
          rw [htx, ← Option.some.inj hw0]
        exact .inr (.first (mem_append_right _ (mem_map.mpr ⟨u, hu, hmarker⟩)) hw hm)
      · obtain ⟨w0, hw0⟩ := hre.waiting
        have hsame : w' = w0 := Option.some.inj (hw'.symm.trans (hrel.stay.mp hw0).1)
        exact .inr (.next hre (hsame ▸ hw0) hw hm)
  · intro hor
    have hfirst : ∀ u ∈ unlocked, p.Reached (m :: markers) u.transaction.hash := by
      intro u hu
      obtain ⟨w, hw, _⟩ := hrel.left u hu
      have hm := (hrel.mem_unlocked hp hw).mp (mem_map_of_mem hu)
      exact .first mem_cons_self hw hm
    rcases hor with hin | hre
    · obtain ⟨u, hu, rfl⟩ := mem_map.mp hin
      exact hfirst u hu
    induction hre with
    | @first k h w hk hw hm =>
      have hw := (hrel.stay.mp hw).1
      rcases mem_append.mp hk with hk | hk
      · exact .first (mem_cons_of_mem m hk) hw hm
      · obtain ⟨u, hu, rfl⟩ := mem_map.mp hk
        obtain ⟨w0, hw0, htx, _⟩ := hrel.left u hu
        rw [htx] at hm
        exact .next (hfirst u hu) hw0 hw hm
    | @next h h' w w' _ hw' hw hm ih =>
      exact .next ih (hrel.stay.mp hw').1 (hrel.stay.mp hw).1 hm

theorem reached_later {tx : PoolTransaction} (hp : PendingInv preimage p)
    (hre : p.Reached [tx.marker] h) (hw : p.waitingQueue.get h = some w) :
    w.transaction.sender = tx.sender ∧ tx.nonce.toNat < w.transaction.nonce.toNat := by
  have hnonce : ∀ {x : PoolTransaction} {h w}, p.waitingQueue.get h = some w →
      x.marker ∈ w.missingMarkers → w.transaction.sender = x.sender ∧
        x.nonce.toNat < w.transaction.nonce.toNat := by
    intro x h w hw hm
    obtain ⟨k, hk, hreq⟩ := hp.missing hw
    have hmem : x.marker ∈ w.transaction.requires := by simpa [hk, hreq] using hm
    obtain ⟨hsender, hnext⟩ := (hp.genuine hw).nonce_of_requires hmem
    exact ⟨hsender.symm, by omega⟩
  induction hre generalizing w with
  | first hk hw0 hm =>
    obtain rfl := Option.some.inj (hw.symm.trans hw0)
    rw [mem_singleton.mp hk] at hm
    exact hnonce hw hm
  | next _ hw' hw0 hm ih =>
    obtain rfl := Option.some.inj (hw.symm.trans hw0)
    obtain ⟨hs, hn⟩ := hnonce hw hm
    obtain ⟨hs', hn'⟩ := ih hw'
    exact ⟨hs.trans hs', by omega⟩

private theorem missing_eq_of_marker_eq {h' : TxHash} {w' : PendingPoolTransaction}
    (hp : PendingInv preimage p) (hw : p.waitingQueue.get h = some w)
    (hw' : p.waitingQueue.get h' = some w') (hm : w.transaction.marker = w'.transaction.marker) :
    w.missingMarkers = w'.missingMarkers := by
  obtain ⟨k, hk, hreq⟩ := hp.missing hw
  obtain ⟨k', hk', hreq'⟩ := hp.missing hw'
  have hsame : k = k' := (hp.genuine hw).requires_unique (hp.genuine hw') hm (by simp [hreq])
    (by simp [hreq'])
  rw [hk, hk', hsame]

end PendingTransactions

namespace PoolInner

open ReadyTransactions PendingTransactions

variable {preimage : Preimage} {order : IterOrder} {pool pool' : PoolInner}
  {queue : List PendingPoolTransaction} {txs : List PoolTransaction}

namespace Processed

section

variable (hp : Processed preimage order pool queue txs pool')

include hp

theorem offers : Offers preimage pool.readyTransactions txs := by
  induction hp with
  | nil hinv => exact hinv.ready
  | @cons pool pool' tx queue unlocked pending txs hinv hq _ _ ih =>
    exact ⟨hinv.ready, hq.genuine tx mem_cons_self,
      (contains_eq_false_iff.mp (hq.absent tx mem_cons_self)).2, ih⟩

theorem ready_eq : pool'.readyTransactions = txs.foldl offer pool.readyTransactions := by
  induction hp with
  | nil _ => rfl
  | cons _ _ _ _ ih => exact ih

theorem hashes (h : TxHash) :
    h ∈ txs.map PoolTransaction.hash ↔ h ∈ queue.map (fun tx => tx.transaction.hash) ∨
      pool.pendingTransactions.Reached (queue.map fun tx => tx.transaction.marker) h := by
  induction hp with
  | nil _ => simp [not_reached_nil]
  | @cons pool pool' tx queue unlocked pending txs hinv hq hround _ ih =>
    rw [map_cons, mem_cons, ih, map_cons, mem_cons, map_cons,
      reached_cons hinv.pending hround.released, map_append, mem_append,
      map_append, or_assoc, or_assoc]

theorem waiting (h : TxHash) (w : PendingPoolTransaction) :
    pool'.pendingTransactions.waitingQueue.get h = some w ↔
      pool.pendingTransactions.waitingQueue.get h = some w ∧
        ¬ pool.pendingTransactions.Reached (queue.map fun tx => tx.transaction.marker) h := by
  induction hp with
  | nil _ => simp [not_reached_nil]
  | @cons pool pool' tx queue unlocked pending txs hinv hq hround _ ih =>
    rw [ih, map_cons, reached_cons hinv.pending hround.released, not_or, map_append]
    rw [hround.released.stay, and_assoc]
    refine and_congr_right fun hw => ?_
    rw [hround.released.mem_unlocked hinv.pending hw]

theorem origin {tx : PoolTransaction} (hmem : tx ∈ txs) : (∃ q ∈ queue, q.transaction = tx) ∨
      ∃ w, pool.pendingTransactions.waitingQueue.get tx.hash = some w ∧ w.transaction = tx := by
  induction hp with
  | nil _ => exact absurd hmem not_mem_nil
  | @cons pool pool' tx0 queue unlocked pending txs hinv hq hround _ ih =>
    rcases mem_cons.mp hmem with rfl | hmem
    · exact .inl ⟨tx0, mem_cons_self, rfl⟩
    rcases ih hmem with ⟨q, hq', rfl⟩ | ⟨w, hw, htx⟩
    · rcases mem_append.mp hq' with hq' | hq'
      · exact .inl ⟨q, mem_cons_of_mem tx0 hq', rfl⟩
      · obtain ⟨w, hw, htx, _⟩ := hround.released.left q hq'
        exact .inr ⟨w, hw, htx.symm⟩
    · exact .inr ⟨w, (hround.released.stay.mp hw).1, htx⟩

theorem nodup : (txs.map PoolTransaction.hash).Nodup := by
  induction hp with
  | nil _ => exact nodup_nil
  | @cons pool pool' tx queue unlocked pending txs hinv hq hround hproc ih =>
    rw [map_cons, nodup_cons]
    refine ⟨fun hin => ?_, ih⟩
    have hnotWaiting := (contains_eq_false_iff.mp (hq.absent tx mem_cons_self)).1
    rcases (hproc.hashes _).mp hin with hin | hre
    · rw [map_append, mem_append] at hin
      rcases hin with hin | hin
      · exact (nodup_cons.mp hq.nodup).1 hin
      · obtain ⟨u, hu, hh⟩ := mem_map.mp hin
        obtain ⟨w, hw, _⟩ := hround.released.left u hu
        rw [hh, hnotWaiting] at hw
        cases hw
    · obtain ⟨w, hw⟩ := hre.waiting
      have hw := (hround.released.stay.mp hw).1
      rw [hnotWaiting] at hw
      cases hw

end

/-- No other transaction with the marker of `b` comes before `b`. -/
def Leads (b : PoolTransaction) (txs : List PoolTransaction) : Prop :=
  ∀ before x after, txs = before ++ x :: after → x.marker = b.marker → x.hash ≠ b.hash →
    b.hash ∈ before.map PoolTransaction.hash

theorem leads_cons {b x : PoolTransaction} :
    Leads b (x :: txs) ↔ x.hash = b.hash ∨ x.marker ≠ b.marker ∧ Leads b txs := by
  constructor
  · intro hlead
    by_cases hx : x.hash = b.hash
    · exact .inl hx
    · refine .inr ⟨fun hm => not_mem_nil (hlead [] x txs rfl hm hx), ?_⟩
      intro before y after heq hm hy
      have hin := hlead (x :: before) y after (by rw [heq, cons_append]) hm hy
      exact (mem_cons.mp hin).resolve_left (Ne.symm hx)
  · intro hor before y after heq hm hy
    cases before with
    | nil =>
      obtain ⟨rfl, _⟩ := List.cons.inj heq
      rcases hor with hx | ⟨hne, _⟩
      · exact absurd hx hy
      · exact absurd hm hne
    | cons z before =>
      obtain ⟨rfl, htail⟩ := List.cons.inj heq
      rw [map_cons, mem_cons]
      exact hor.imp Eq.symm fun hrest => hrest.2 before y after htail hm hy

theorem leads_prepend {b : PoolTransaction} {l : List PoolTransaction}
    (hnone : ∀ x ∈ l, x.marker ≠ b.marker) (hlead : Leads b txs) : Leads b (l ++ txs) := by
  induction l with
  | nil => exact hlead
  | cons x l ih =>
    rw [forall_mem_cons] at hnone
    exact leads_cons.mpr (.inr ⟨hnone.1, ih hnone.2⟩)

private theorem leads_append {b : PoolTransaction} {l : List PoolTransaction} (hlead : Leads b l)
    (hnone : ∀ x ∈ txs, x.marker ≠ b.marker) : Leads b (l ++ txs) := by
  induction l with
  | nil => simpa using leads_prepend hnone hlead
  | cons x l ih =>
    rw [leads_cons] at hlead
    exact leads_cons.mpr (hlead.imp_right fun hrest => ⟨hrest.1, ih hrest.2⟩)

/-- `b` is still waiting and no rival is in flight, or it is in flight before its rivals. -/
def Ahead (b : PendingPoolTransaction) (pool : PoolInner) (queue : List PendingPoolTransaction) :
    Prop :=
  (pool.pendingTransactions.waitingQueue.get b.transaction.hash = some b ∧
      ∀ q ∈ queue, q.transaction.marker ≠ b.transaction.marker) ∨
    (Leads b.transaction (queue.map PendingPoolTransaction.transaction) ∧
      ∀ h w, pool.pendingTransactions.waitingQueue.get h = some w →
        w.transaction.marker ≠ b.transaction.marker)

private theorem ahead_round {b tx : PendingPoolTransaction} {base : IterOrder}
    {unlocked : List PendingPoolTransaction} {pending : PendingTransactions}
    (horder : order.hashes = base.hashes.front b.transaction.hash)
    (hinv : PoolInv preimage pool) (hround : Round preimage order pool tx queue pending unlocked)
    (hwait : pool.pendingTransactions.waitingQueue.get b.transaction.hash = some b)
    (hqueue : ∀ q ∈ queue, q.transaction.marker ≠ b.transaction.marker) :
    Ahead b ⟨pool.readyTransactions.offer tx.transaction, pending⟩ (queue ++ unlocked) := by
  by_cases htx : tx.transaction.marker ∈ b.missingMarkers
  · have hreq : pool.pendingTransactions.Requires tx.transaction.marker b.transaction.hash := by
      rw [hinv.pending.required]
      exact ⟨b, hwait, htx⟩
    obtain ⟨hashes, hget, hmem⟩ := hreq
    have hvisited : unlocked.map (fun u => u.transaction.hash) =
        b.transaction.hash :: base.hashes.visit (hashes.erase b.transaction.hash) := by
      rw [hround.released.hashes, visited, hget, Option.map_some, Option.getD_some, horder,
        Enumeration.front_visit _ hmem]
    refine .inr ⟨?_, ?_⟩
    · rw [map_append]
      apply leads_prepend
      · exact forall_mem_map.mpr hqueue
      · cases hun : unlocked with
        | nil =>
          rw [hun] at hvisited
          cases hvisited
        | cons u rest =>
          rw [hun] at hvisited
          exact leads_cons.mpr (.inl (List.cons.inj hvisited).1)
    · intro h w hw hm
      obtain ⟨hw, hnot⟩ := hround.released.stay.mp hw
      rw [missing_eq_of_marker_eq hinv.pending hw hwait hm] at hnot
      exact hnot htx
  · refine .inl ⟨hround.released.stay.mpr ⟨hwait, htx⟩, ?_⟩
    intro q hq hm
    rcases mem_append.mp hq with hq | hq
    · exact hqueue q hq hm
    · obtain ⟨w, hw, hqw, _⟩ := hround.released.left q hq
      have hmw := (hround.released.mem_unlocked hinv.pending hw).mp (mem_map_of_mem hq)
      rw [missing_eq_of_marker_eq hinv.pending hw hwait (hqw ▸ hm)] at hmw
      exact htx hmw

/-- When the hash sets are visited with `b` in front, `b` is offered before its rivals: they
all wait for the same marker, so they are unlocked together. -/
theorem leads {b : PendingPoolTransaction} {base : IterOrder}
    (horder : order.hashes = base.hashes.front b.transaction.hash)
    (hp : Processed preimage order pool queue txs pool') (hahead : Ahead b pool queue) :
    Leads b.transaction txs := by
  induction hp with
  | nil _ =>
    intro before x after heq
    simp at heq
  | @cons pool pool' tx queue unlocked pending txs hinv hq hround _ ih =>
    rcases hahead with ⟨hwait, hqueue⟩ | ⟨hlead, hnone⟩
    · rw [forall_mem_cons] at hqueue
      exact leads_cons.mpr
        (.inr ⟨hqueue.1, ih (ahead_round horder hinv hround hwait hqueue.2)⟩)
    rcases leads_cons.mp hlead with htx | ⟨hne, hlead⟩
    · exact leads_cons.mpr (.inl htx)
    refine leads_cons.mpr (.inr ⟨hne, ih (.inr ⟨?_, ?_⟩)⟩)
    · rw [map_append]
      refine leads_append hlead ?_
      intro x hx
      obtain ⟨u, hu, rfl⟩ := mem_map.mp hx
      obtain ⟨w, hw, huw, _⟩ := hround.released.left u hu
      rw [huw]
      exact hnone _ w hw
    · intro h w hw
      exact hnone h w (hround.released.stay.mp hw).1

end Processed

/-! ## Outcomes -/

/-- What a caller of `add_ready_transaction` can observe, as sets. -/
structure Outcome where
  ready : Finset TxHash
  waiting : Finset TxHash
  report : Except PoolError (Finset TxHash × Finset TxHash × Finset PoolTransaction)

def AddedTransaction.sets : AddedTransaction →
    Finset TxHash × Finset TxHash × Finset PoolTransaction
  | .ready out => (out.promoted.toFinset, out.discarded.toFinset, out.removed.toFinset)
  | .pending _ => (∅, ∅, ∅)

def outcome (order : IterOrder) (pool : PoolInner) (tx : PendingPoolTransaction) :
    Except Panic Outcome :=
  (pool.addReadyTransaction order tx).map fun res =>
    { ready := res.1.readyTransactions.readyTx.keys
      waiting := res.1.pendingTransactions.waitingQueue.keys
      report := res.2.map AddedTransaction.sets }

/-- Of the waiting transactions that `tx` unlocks, directly or through others, no two with
the same markers both pay more than the ready transaction with these markers. -/
def NoRivals (pool : PoolInner) (tx : PoolTransaction) : Prop :=
  ∀ h h' w w', pool.pendingTransactions.Reached [tx.marker] h →
    pool.pendingTransactions.Reached [tx.marker] h' →
    pool.pendingTransactions.waitingQueue.get h = some w →
    pool.pendingTransactions.waitingQueue.get h' = some w' →
    w.transaction.provides = w'.transaction.provides →
    pool.readyTransactions.Admits w.transaction → pool.readyTransactions.Admits w'.transaction →
    h = h'

def firstRecord (pool : PoolInner) (tx : PoolTransaction) : ReadyOutcome :=
  (ReadyOutcome.new tx.hash).record true pool.readyTransactions tx

/-- The run of the loop behind an admitted transaction. -/
structure Added (preimage : Preimage) (order : IterOrder) (pool : PoolInner)
    (tx : PendingPoolTransaction) (txs : List PoolTransaction) (pool' : PoolInner) : Prop where
  proc : Processed preimage order pool [tx] (tx.transaction :: txs) pool'
  outcome_eq : pool.outcome order tx = .ok
    { ready := (txs.foldl offer (pool.readyTransactions.offer tx.transaction)).readyTx.keys
      waiting := pool'.pendingTransactions.waitingQueue.keys
      report := .ok (AddedTransaction.sets (.ready ((pool.firstRecord tx.transaction).records
        (pool.readyTransactions.offer tx.transaction) txs))) }

variable {tx : PendingPoolTransaction}

theorem added (hinv : PoolInv preimage pool) (hq : InFlight preimage pool [tx])
    (hadm : pool.readyTransactions.Admits tx.transaction) (order : IterOrder) :
    ∃ txs pool', Added preimage order pool tx txs pool' := by
  obtain ⟨pending, unlocked, hround, _, hadded⟩ := addReadyTransaction_cases hinv hq order
  obtain ⟨txs, pool', hproc, heq⟩ := hadded hadm
  refine ⟨txs, pool', .cons hinv hq hround (by rwa [nil_append]), ?_⟩
  rw [outcome, heq, ← hproc.ready_eq]
  rfl

/-- Whatever the order, the loop offers the reached transactions. -/
theorem Added.mem_iff {x : PoolTransaction}
    (hq : InFlight preimage pool [tx]) (ha : Added preimage order pool tx txs pool') :
    x ∈ txs ↔ ∃ h w, pool.pendingTransactions.Reached [tx.transaction.marker] h ∧
      pool.pendingTransactions.waitingQueue.get h = some w ∧ w.transaction = x := by
  have hnodup := ha.proc.nodup
  rw [map_cons, nodup_cons] at hnodup
  have horigin : ∀ {x}, x ∈ txs → ∃ w,
      pool.pendingTransactions.waitingQueue.get x.hash = some w ∧ w.transaction = x := by
    intro x hx
    rcases ha.proc.origin (mem_cons_of_mem _ hx) with ⟨q, hq', rfl⟩ | hw
    · rw [mem_singleton.mp hq'] at hx
      exact absurd (mem_map_of_mem hx) hnodup.1
    · exact hw
  constructor
  · intro hx
    obtain ⟨w, hw, hwx⟩ := horigin hx
    refine ⟨x.hash, w, ?_, hw, hwx⟩
    have hin : x.hash ∈ (tx.transaction :: txs).map PoolTransaction.hash :=
      mem_map_of_mem (mem_cons_of_mem _ hx)
    rcases (ha.proc.hashes x.hash).mp hin with hself | hre
    · rw [map_cons, map_nil, mem_singleton] at hself
      rw [← hself] at hnodup
      exact absurd (mem_map_of_mem hx) hnodup.1
    · exact hre
  · intro ⟨h, w, hre, hw, hwx⟩
    have hin := (ha.proc.hashes h).mpr (.inr hre)
    rw [map_cons, mem_cons] at hin
    rcases hin with hself | hin
    · rw [hself, (contains_eq_false_iff.mp (hq.absent tx mem_cons_self)).1] at hw
      cases hw
    · obtain ⟨y, hy, hyh⟩ := mem_map.mp hin
      obtain ⟨w', hw', hwy⟩ := horigin hy
      rw [hyh, hw] at hw'
      rw [← hwx, Option.some.inj hw', hwy]
      exact hy

theorem Added.offers (ha : Added preimage order pool tx txs pool') :
    Offers preimage (pool.readyTransactions.offer tx.transaction) txs :=
  ha.proc.offers.2.2.2

section

variable (hinv : PoolInv preimage pool)

include hinv

theorem not_reached_of_refused {h : TxHash} {tx : PoolTransaction}
    (hadm : ¬ pool.readyTransactions.Admits tx) :
    ¬ pool.pendingTransactions.Reached [tx.marker] h := by
  unfold Admits at hadm
  push Not at hadm
  obtain ⟨o, ho, _⟩ := hadm
  intro hre
  induction hre with
  | first hk hw hm =>
    rw [mem_singleton.mp hk] at hm
    have hnone := (holder_eq_none hinv.ready).mpr (hinv.missing_free hw hm)
    rw [hnone] at ho
    cases ho
  | next _ _ _ _ ih => exact ih

variable (hq : InFlight preimage pool [tx])

include hq

theorem admits_reached {h : TxHash} {w : PendingPoolTransaction}
    (hre : pool.pendingTransactions.Reached [tx.transaction.marker] h)
    (hw : pool.pendingTransactions.waitingQueue.get h = some w) :
    (pool.readyTransactions.offer tx.transaction).Admits w.transaction ↔
      pool.readyTransactions.Admits w.transaction := by
  have hlater := (reached_later hinv.pending hre hw).2
  apply admits_offer_of_ne hinv.ready (hq.genuine tx mem_cons_self)
    (contains_eq_false_iff.mp (hq.absent tx mem_cons_self)).2
  intro hm
  rw [(toMarker_injective hm).1] at hlater
  omega

theorem Added.unrivalled (ha : Added preimage order pool tx txs pool')
    (hno : pool.NoRivals tx.transaction) :
    (pool.readyTransactions.offer tx.transaction).Unrivalled txs := by
  intro x hx y hy hm hax hay
  obtain ⟨h, w, hre, hw, rfl⟩ := (ha.mem_iff hq).mp hx
  obtain ⟨h', w', hre', hw', rfl⟩ := (ha.mem_iff hq).mp hy
  have hprov : w.transaction.provides = w'.transaction.provides := by
    rw [(hinv.pending.genuine hw).provides_eq, (hinv.pending.genuine hw').provides_eq, hm]
  rw [admits_reached hinv hq hre hw] at hax
  rw [admits_reached hinv hq hre' hw'] at hay
  rw [hinv.pending.hash_eq hw, hinv.pending.hash_eq hw']
  exact hno h h' w w' hre hre' hw hw' hprov hax hay

/-- Without rivals the order makes no difference. -/
theorem outcome_eq_of_noRivals (hadm : pool.readyTransactions.Admits tx.transaction)
    (hno : pool.NoRivals tx.transaction) (order order' : IterOrder) :
    pool.outcome order tx = pool.outcome order' tx := by
  obtain ⟨txs, pool1, ha⟩ := added hinv hq hadm order
  obtain ⟨txs', pool2, ha'⟩ := added hinv hq hadm order'
  have hmem : ∀ x, x ∈ txs ↔ x ∈ txs' := by
    intro x
    rw [ha.mem_iff hq, ha'.mem_iff hq]
  have hs := settles ha.offers (ha.unrivalled hinv hq hno)
    (nodup_cons.mp ha.proc.nodup).2 (pool.firstRecord tx.transaction)
  have hs' := settles ha'.offers (ha'.unrivalled hinv hq hno)
    (nodup_cons.mp ha'.proc.nodup).2 (pool.firstRecord tx.transaction)
  have hready : (txs.foldl offer (pool.readyTransactions.offer tx.transaction)).readyTx.keys =
      (txs'.foldl offer (pool.readyTransactions.offer tx.transaction)).readyTx.keys := by
    apply Finset.ext
    intro h
    rw [HashMap.mem_keys, HashMap.mem_keys, hs.ready, hs'.ready]
    simp only [hmem]
  have hwaiting : pool1.pendingTransactions.waitingQueue.keys =
      pool2.pendingTransactions.waitingQueue.keys := by
    apply Finset.ext
    intro h
    rw [HashMap.mem_keys, HashMap.mem_keys]
    simp only [ha.proc.waiting, ha'.proc.waiting]
  have hreport : AddedTransaction.sets (.ready ((pool.firstRecord tx.transaction).records
      (pool.readyTransactions.offer tx.transaction) txs)) =
        AddedTransaction.sets (.ready ((pool.firstRecord tx.transaction).records
          (pool.readyTransactions.offer tx.transaction) txs')) := by
    refine Prod.ext ?_ (Prod.ext ?_ ?_) <;> apply Finset.ext <;> intro h <;>
      simp only [AddedTransaction.sets, mem_toFinset, hs.promoted, hs'.promoted,
        hs.discarded, hs'.discarded, hs.removed, hs'.removed, hmem]
  rw [ha.outcome_eq, ha'.outcome_eq, hready, hwaiting, hreport]

private theorem outcome_eq_of_refused (hadm : ¬ pool.readyTransactions.Admits tx.transaction)
    (order order' : IterOrder) :
    pool.outcome order tx = pool.outcome order' tx := by
  obtain ⟨pending, unlocked, hround, hrefused, _⟩ := addReadyTransaction_cases hinv hq order
  obtain ⟨pending', unlocked', hround', hrefused', _⟩ := addReadyTransaction_cases hinv hq order'
  have hwaiting : pending.waitingQueue.keys = pending'.waitingQueue.keys := by
    apply Finset.ext
    intro h
    rw [HashMap.mem_keys, HashMap.mem_keys]
    simp only [hround.released.stay, hround'.released.stay]
  simp only [outcome, hrefused hadm, hrefused' hadm, Except.map, hwaiting]

section

variable {h : TxHash} {b : PendingPoolTransaction} {base : IterOrder}
  (horder : order.hashes = base.hashes.front h) (ha : Added preimage order pool tx txs pool')
  (hre : pool.pendingTransactions.Reached [tx.transaction.marker] h)

include horder ha hre

theorem Added.leads
    (hb : pool.pendingTransactions.waitingQueue.get h = some b) :
    Processed.Leads b.transaction txs := by
  have hbh := hinv.pending.hash_eq hb
  have hlater := (reached_later hinv.pending hre hb).2
  have hne : tx.transaction.hash ≠ b.transaction.hash := by
    intro heq
    rw [← hbh, ← heq, (contains_eq_false_iff.mp (hq.absent tx mem_cons_self)).1] at hb
    cases hb
  suffices hlead : Processed.Leads b.transaction (tx.transaction :: txs) from
    ((Processed.leads_cons.mp hlead).resolve_left hne).2
  refine ha.proc.leads (by rw [hbh]; exact horder) (.inl ⟨by rw [hbh]; exact hb, ?_⟩)
  intro q hq' hm
  rw [mem_singleton.mp hq'] at hm
  rw [(toMarker_injective hm).1] at hlater
  omega

private theorem Added.promoted_front
    (hb : pool.pendingTransactions.waitingQueue.get h = some b)
    (hadm : pool.readyTransactions.Admits b.transaction) :
    h ∈ ((pool.firstRecord tx.transaction).records
      (pool.readyTransactions.offer tx.transaction) txs).promoted := by
  have hlead := leads hinv hq horder ha hre hb
  obtain ⟨before, after, heq⟩ := append_of_mem ((ha.mem_iff hq).mpr ⟨h, b, hre, hb, rfl⟩)
  have hnodup : (txs.map PoolTransaction.hash).Nodup := (nodup_cons.mp ha.proc.nodup).2
  have hfirst : b.transaction.hash ∉ before.map PoolTransaction.hash := by
    rw [heq, map_append, map_cons, nodup_middle, nodup_cons, mem_append] at hnodup
    exact fun hin => hnodup.1 (.inl hin)
  rw [mem_records_promoted ha.offers]
  refine .inr ⟨before, b.transaction, after, heq, hinv.pending.hash_eq hb, ?_, ?_⟩
  · exact (admits_reached hinv hq hre hb).mpr hadm
  intro x hx hm
  obtain ⟨pre, mid, hbefore⟩ := append_of_mem hx
  rw [hbefore] at heq hfirst
  rw [append_assoc] at heq
  have hxb : x.hash ≠ b.transaction.hash := by
    intro hxb
    apply hfirst
    rw [← hxb]
    exact mem_map_of_mem (mem_append_right _ mem_cons_self)
  have hin := hlead pre x _ heq hm hxb
  rw [map_append, mem_append] at hfirst
  exact absurd (.inl hin) hfirst

private theorem Added.not_promoted_behind {h' : TxHash} {a : PendingPoolTransaction}
    (hget : pool.pendingTransactions.waitingQueue.get h = some a)
    (hget' : pool.pendingTransactions.waitingQueue.get h' = some b)
    (hm : a.transaction.marker = b.transaction.marker) (hne : h ≠ h')
    (hgas : b.transaction.gasPrice ≤ a.transaction.gasPrice) :
    h' ∉ ((pool.firstRecord tx.transaction).records
      (pool.readyTransactions.offer tx.transaction) txs).promoted := by
  have hlead := leads hinv hq horder ha hre hget
  have hsame : ∀ {x h w}, x ∈ txs → pool.pendingTransactions.waitingQueue.get h = some w →
      x.hash = h → w.transaction = x := by
    intro x h w hx hw hxh
    obtain ⟨h1, w1, _, hw1, rfl⟩ := (ha.mem_iff hq).mp hx
    rw [hinv.pending.hash_eq hw1] at hxh
    rw [hxh, hw] at hw1
    rw [Option.some.inj hw1]
  rw [mem_records_promoted ha.offers]
  intro hor
  rcases hor with hnew | ⟨before, x, after, heq, hxh, _, hall⟩
  · unfold firstRecord ReadyOutcome.record ReadyOutcome.new at hnew
    split at hnew <;> simp at hnew
  have hx : x ∈ txs := by
    rw [heq]
    exact mem_append_right _ mem_cons_self
  have hxb := hsame hx hget' hxh
  have hah := hinv.pending.hash_eq hget
  have hin : a.transaction.hash ∈ before.map PoolTransaction.hash := by
    refine hlead before x after heq (by rw [← hxb, hm]) ?_
    rw [hxh, hah]
    exact Ne.symm hne
  obtain ⟨y, hy, hyh⟩ := mem_map.mp hin
  have hytx : y ∈ txs := by
    rw [heq]
    exact mem_append_left _ hy
  have hya := hsame hytx hget (by rw [hyh, hah])
  have hlt := hall y hy (by rw [← hya, ← hxb, hm])
  rw [← hya, ← hxb] at hlt
  omega

end

/-- Of two rivals, the one that is visited first makes a difference. -/
theorem noRivals_of_outcome_eq (hadm : pool.readyTransactions.Admits tx.transaction)
    (base : IterOrder)
    (hsame : ∀ order order', pool.outcome order tx = pool.outcome order' tx) :
    pool.NoRivals tx.transaction := by
  have hcheaper : ∀ {h h' w w'}, pool.pendingTransactions.Reached [tx.transaction.marker] h →
      pool.pendingTransactions.Reached [tx.transaction.marker] h' →
      pool.pendingTransactions.waitingQueue.get h = some w →
      pool.pendingTransactions.waitingQueue.get h' = some w' →
      w.transaction.marker = w'.transaction.marker →
      pool.readyTransactions.Admits w'.transaction →
      w'.transaction.gasPrice ≤ w.transaction.gasPrice → h = h' := by
    intro h h' w w' hre hre' hw hw' hm hadm' hgas
    by_contra hne
    obtain ⟨txs, pool1, ha⟩ := added hinv hq hadm { base with hashes := base.hashes.front h }
    obtain ⟨txs', pool2, ha'⟩ := added hinv hq hadm { base with hashes := base.hashes.front h' }
    have heq := hsame { base with hashes := base.hashes.front h }
      { base with hashes := base.hashes.front h' }
    rw [ha.outcome_eq, ha'.outcome_eq] at heq
    have hsets : ((pool.firstRecord tx.transaction).records
        (pool.readyTransactions.offer tx.transaction) txs).promoted.toFinset =
          ((pool.firstRecord tx.transaction).records
            (pool.readyTransactions.offer tx.transaction) txs').promoted.toFinset :=
      congrArg Prod.fst (Except.ok.inj (congrArg Outcome.report (Except.ok.inj heq)))
    have hin := Added.promoted_front hinv hq rfl ha' hre' hw' hadm'
    have hout := Added.not_promoted_behind hinv hq rfl ha hre hw hw' hm hne hgas
    rw [← mem_toFinset] at hin hout
    rw [hsets] at hout
    exact hout hin
  intro h h' w w' hre hre' hw hw' hprov hadm1 hadm2
  have hm : w.transaction.marker = w'.transaction.marker := by
    rw [(hinv.pending.genuine hw).provides_eq, (hinv.pending.genuine hw').provides_eq] at hprov
    exact singleton_inj.mp hprov
  rcases Nat.le_total w'.transaction.gasPrice w.transaction.gasPrice with hgas | hgas
  · exact hcheaper hre hre' hw hw' hm hadm2 hgas
  · exact (hcheaper hre' hre hw' hw hm.symm hadm1 hgas).symm

end

/-- In every reachable pool, what a new ready transaction leads to is independent of the
order in which hash sets are visited if and only if it unlocks no rivals. -/
theorem outcome_order_independent_iff (preimage : Preimage) (ops : List (IterOrder × Op))
    (txOrder : TransactionOrder) (hash : TxHash) (onChainNonce : U64) {pool : PoolInner}
    {tx : PoolTransaction} (hrun : empty.run preimage ops = .ok pool)
    (htx : tx = poolTransaction txOrder (preimage.pending hash) onChainNonce)
    (hnew : pool.contains tx.hash = false) (hready : (pool.arriving tx).isReady = true) :
    (∀ order order', pool.outcome order (pool.arriving tx) =
      pool.outcome order' (pool.arriving tx)) ↔ pool.NoRivals tx := by
  have hempty : PoolInv preimage empty := empty_inv
  obtain ⟨pool', heq, hinv⟩ := run_inv hempty ops
  rw [hrun] at heq
  cases heq
  have hgen : Genuine preimage tx := by
    rw [htx]
    exact poolTransaction_genuine preimage txOrder hash onChainNonce
  have hq := arriving_inFlight hgen hnew hready
  by_cases hadm : pool.readyTransactions.Admits tx
  · constructor
    · intro hsame
      exact noRivals_of_outcome_eq hinv hq hadm .increasing hsame
    · intro hno order order'
      exact outcome_eq_of_noRivals hinv hq hadm hno order order'
  · constructor
    · intro _ h _ _ _ hre
      exact absurd hre (not_reached_of_refused hinv hadm)
    · intro _ order order'
      exact outcome_eq_of_refused hinv hq hadm order order'

/-- Successive nonces of one sender; all but the first one wait. -/
def successive : Preimage := fun hash => (⟨BitVec.ofNat 64 (hash.toNat - 1), 5⟩, 7)

def addSuccessors : List (IterOrder × Op) :=
  [(.increasing, .addTransaction .fees 2 0), (.increasing, .addTransaction .fees 3 0)]

def missingFirst : PoolTransaction := poolTransaction .fees (successive.pending 1) 0

theorem outcome_order_independent_successors :
    ∃ pool, empty.run successive addSuccessors = .ok pool ∧
      pool.pendingTransactions.waitingQueue.keys = {2, 3} ∧
      ∀ order order', pool.outcome order (pool.arriving missingFirst) =
        pool.outcome order' (pool.arriving missingFirst) := by
  have hfacts : ∃ pool ∈ (empty.run successive addSuccessors).toOption,
      pool.pendingTransactions.waitingQueue.keys = {2, 3} ∧
        (pool.pendingTransactions.waitingQueue.get 2).map (·.transaction.provides) ≠
          (pool.pendingTransactions.waitingQueue.get 3).map (·.transaction.provides) ∧
        pool.contains missingFirst.hash = false ∧
        (pool.arriving missingFirst).isReady = true := by
    decide +kernel
  obtain ⟨pool, hpool, hkeys, hprovides, hnew, hready⟩ := hfacts
  have hwaiting : ∀ h w, pool.pendingTransactions.waitingQueue.get h = some w → h = 2 ∨ h = 3 := by
    intro h w hw
    have hmem := HashMap.mem_keys_of_get hw
    rwa [hkeys, Finset.mem_insert, Finset.mem_singleton] at hmem
  refine ⟨pool, ok_of_mem_toOption hpool, hkeys, ?_⟩
  apply (outcome_order_independent_iff successive _ .fees 1 0 (ok_of_mem_toOption hpool) rfl hnew
    hready).mpr
  intro h h' w w' _ _ hw hw' hsame _ _
  rcases hwaiting h w hw with rfl | rfl <;> rcases hwaiting h' w' hw' with rfl | rfl
  · rfl
  · exact absurd (by rw [hw, hw', Option.map_some, Option.map_some, hsame]) hprovides
  · exact absurd (by rw [hw, hw', Option.map_some, Option.map_some, hsame]) hprovides
  · rfl

/-- The transaction with hash 1 of `rivals`, submitted at nonce 0. -/
def missingOne : PoolTransaction := poolTransaction .fees (rivals.pending 1) 0

/-- What is promoted along with the transaction that both rivals wait for. -/
def promoted (pool : PoolInner) (order : IterOrder) : Option (Finset TxHash) :=
  (pool.outcome order (pool.arriving missingOne)).toOption.bind fun out =>
    out.report.toOption.map Prod.fst

/-- Once both rivals wait, visiting 5 first promotes 5 and then 9 in its place; visiting 9
first promotes 9 only. -/
theorem addRivals_outcomes_differ :
    ∃ pool, empty.run rivals addRivals = .ok pool ∧ pool.contains missingOne.hash = false ∧
      (pool.arriving missingOne).isReady = true ∧
      pool.outcome .increasing (pool.arriving missingOne) ≠
        pool.outcome { IterOrder.increasing with hashes := IterOrder.increasing.hashes.front 9 }
          (pool.arriving missingOne) := by
  have hfacts : ∃ pool ∈ (empty.run rivals addRivals).toOption,
      pool.contains missingOne.hash = false ∧ (pool.arriving missingOne).isReady = true ∧
        pool.promoted .increasing ≠ pool.promoted
          { IterOrder.increasing with hashes := IterOrder.increasing.hashes.front 9 } := by
    decide +kernel
  obtain ⟨pool, hpool, hnew, hready, hpromoted⟩ := hfacts
  refine ⟨pool, ok_of_mem_toOption hpool, hnew, hready, fun hsame => hpromoted ?_⟩
  rw [promoted, promoted, hsame]

end PoolInner

end Foundry.Anvil.Pool
