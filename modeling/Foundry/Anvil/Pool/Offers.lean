import Foundry.Anvil.Pool.AddReady

/-!
# Sequences of offers to the ready queue

A sequence of transactions offered one after the other: each is admitted when it pays more
than the holder of its marker and than every earlier offer with that marker.
-/

namespace Foundry.Anvil.Pool

open List

namespace ReadyTransactions

variable {preimage : Preimage} {r : ReadyTransactions} {tx x : PoolTransaction} {m : TxMarker}
  {txs : List PoolTransaction} (out : ReadyOutcome)

section

variable (hr : ReadyInv preimage r) (hgen : Genuine preimage x) (hnew : r.readyTx.get x.hash = none)

include hr hgen hnew

private theorem holder_accept_self : (r.accept x).holder x.marker = some (r.entry x) :=
  (holder_eq_some (accept_inv hr hgen hnew)).mpr ⟨get_accept_self hr hgen, rfl⟩

theorem holder_accept_of_ne (hm : m ≠ x.marker) :
    (r.accept x).holder m = (r.holder m).map (relink x) := by
  have hinv := accept_inv hr hgen hnew
  cases hold : r.holder m with
  | none =>
    have hfree := (holder_eq_none hr).mp hold
    rw [Option.map_none, holder_eq_none hinv]
    show (r.providedMarkers.insert x.marker x.hash).get m = none
    rw [HashMap.get_insert_of_ne _ _ hm, hfree]
  | some o =>
    obtain ⟨ho, hmarker⟩ := (holder_eq_some hr).mp hold
    rw [Option.map_some, holder_eq_some hinv, relink_tx]
    exact ⟨get_accept_of_ne hr hgen hnew ho fun heq => hm (hmarker ▸ heq), hmarker⟩

theorem admits_offer_of_ne (hm : tx.marker ≠ x.marker) : (r.offer x).Admits tx ↔ r.Admits tx := by
  unfold offer
  split
  · unfold Admits
    rw [holder_accept_of_ne hr hgen hnew hm]
    constructor
    · intro hadm t ht
      have hgas := hadm (relink x t) (by rw [ht, Option.map_some])
      rwa [ReadyTransaction.gasPrice, relink_tx] at hgas
    · intro hadm t ht
      obtain ⟨s, hs, rfl⟩ := Option.map_eq_some_iff.mp ht
      rw [ReadyTransaction.gasPrice, relink_tx]
      exact hadm s hs
  · exact Iff.rfl

omit hr hgen hnew in
/-- The holder that refuses `x` pays at least as much. -/
theorem lt_of_refused (hx : ¬ r.Admits x) (hm : x.marker = tx.marker) (htx : r.Admits tx) :
    x.gasPrice < tx.gasPrice := by
  unfold Admits at hx
  push Not at hx
  obtain ⟨o, ho, hle⟩ := hx
  exact lt_of_le_of_lt hle (htx o (hm ▸ ho))

theorem admits_offer : (r.offer x).Admits tx ↔
      r.Admits tx ∧ (x.marker = tx.marker → x.gasPrice < tx.gasPrice) := by
  by_cases hm : x.marker = tx.marker
  · by_cases hadm : r.Admits x
    · have hoffer : (r.offer x).Admits tx ↔ x.gasPrice < tx.gasPrice := by
        rw [offer, if_pos hadm]
        simp only [Admits, ← hm, holder_accept_self hr hgen hnew, Option.some.injEq, forall_eq']
        exact Iff.rfl
      rw [hoffer]
      constructor
      · intro hgas
        refine ⟨fun t ht => lt_trans (hadm t (hm ▸ ht)) hgas, fun _ => hgas⟩
      · intro hboth
        exact hboth.2 hm
    · rw [offer, if_neg hadm]
      exact (and_iff_left_of_imp fun htx _ => lt_of_refused hadm hm htx).symm
  · rw [admits_offer_of_ne hr hgen hnew (Ne.symm hm)]
    exact (and_iff_left fun heq => absurd heq hm).symm

end

/-- The transactions are new to the queue when their turn comes. -/
def Offers (preimage : Preimage) : ReadyTransactions → List PoolTransaction → Prop
  | r, [] => ReadyInv preimage r
  | r, tx :: txs => ReadyInv preimage r ∧ Genuine preimage tx ∧ r.readyTx.get tx.hash = none ∧
      Offers preimage (r.offer tx) txs

/-- Offered at this place of the sequence, `tx` is admitted. -/
def Wins (r : ReadyTransactions) (before : List PoolTransaction) (tx : PoolTransaction) : Prop :=
  r.Admits tx ∧ ∀ x ∈ before, x.marker = tx.marker → x.gasPrice < tx.gasPrice

theorem wins_cons (hr : ReadyInv preimage r) (hgen : Genuine preimage x)
    (hnew : r.readyTx.get x.hash = none) (before : List PoolTransaction) :
    r.Wins (x :: before) tx ↔ (r.offer x).Wins before tx := by
  unfold Wins
  rw [admits_offer hr hgen hnew]
  simp only [forall_mem_cons]
  exact and_assoc.symm

/-! ## The outcome of one offer -/

theorem mem_record_promoted (h : TxHash) :
    h ∈ (out.record false r x).promoted ↔ h ∈ out.promoted ∨ x.hash = h ∧ r.Admits x := by
  unfold ReadyOutcome.record
  by_cases hx : r.Admits x
  · simp [hx, eq_comm]
  · simp [hx]

private theorem mem_record_discarded (h : TxHash) :
    h ∈ (out.record false r x).discarded ↔ h ∈ out.discarded ∨ x.hash = h ∧ ¬ r.Admits x := by
  unfold ReadyOutcome.record
  by_cases hx : r.Admits x
  · simp [hx]
  · simp [hx, eq_comm]

private theorem mem_record_removed (rem : PoolTransaction) :
    rem ∈ (out.record false r x).removed ↔ rem ∈ out.removed ∨
      r.Admits x ∧ (r.holder x.marker).map ReadyTransaction.tx = some rem := by
  unfold ReadyOutcome.record
  by_cases hx : r.Admits x
  · simp [hx]
  · simp [hx]

/-! ## Sequences of offers -/

theorem mem_records_promoted (ho : Offers preimage r txs) (out : ReadyOutcome) (h : TxHash) :
    h ∈ (out.records r txs).promoted ↔ h ∈ out.promoted ∨
      ∃ before tx after, txs = before ++ tx :: after ∧ tx.hash = h ∧ r.Wins before tx := by
  induction txs generalizing r out with
  | nil => simp [ReadyOutcome.records]
  | cons x txs ih =>
    obtain ⟨hr, hgen, hnew, hrest⟩ := ho
    have hwins : r.Wins [] x ↔ r.Admits x := by simp [Wins]
    rw [ReadyOutcome.records, ih hrest, mem_record_promoted, ← hwins]
    constructor
    · intro hor
      rcases hor with (hin | ⟨hx, hwin⟩) | ⟨before, tx, after, heq, htx, hwin⟩
      · exact .inl hin
      · exact .inr ⟨[], x, txs, rfl, hx, hwin⟩
      · exact .inr ⟨x :: before, tx, after, by rw [heq, cons_append], htx,
          (wins_cons hr hgen hnew before).mpr hwin⟩
    · intro hor
      rcases hor with hin | ⟨before, tx, after, heq, htx, hwin⟩
      · exact .inl (.inl hin)
      cases before with
      | nil =>
        obtain ⟨hxt, _⟩ := List.cons.inj heq
        exact .inl (.inr ⟨by rw [hxt, htx], by rw [hxt]; exact hwin⟩)
      | cons b before =>
        obtain ⟨hxb, htail⟩ := List.cons.inj heq
        rw [← hxb, wins_cons hr hgen hnew] at hwin
        exact .inr ⟨before, tx, after, htail, htx, hwin⟩

/-! ## Sequences without rivals

When of all offers with one marker at most one outbids the holder, the outcome depends
only on the set of offers. -/

/-- No two different offers outbid the holder of the marker they share. -/
def Unrivalled (r : ReadyTransactions) (txs : List PoolTransaction) : Prop :=
  ∀ x ∈ txs, ∀ y ∈ txs, x.marker = y.marker → r.Admits x → r.Admits y → x.hash = y.hash

section

variable (hu : r.Unrivalled (x :: txs))

include hu

theorem Unrivalled.marker_ne
    (hnodup : ((x :: txs).map PoolTransaction.hash).Nodup) (hx : r.Admits x) (hmem : tx ∈ txs)
    (hadm : r.Admits tx) : tx.marker ≠ x.marker := by
  intro heq
  have hsame := hu x mem_cons_self tx (mem_cons_of_mem x hmem) heq.symm hx hadm
  rw [map_cons, nodup_cons] at hnodup
  exact hnodup.1 (hsame ▸ mem_map_of_mem hmem)

variable (hr : ReadyInv preimage r) (hgen : Genuine preimage x)
  (hnew : r.readyTx.get x.hash = none) (hnodup : ((x :: txs).map PoolTransaction.hash).Nodup)

include hr hgen hnew hnodup

theorem Unrivalled.admits_tail (hmem : tx ∈ txs) :
    (r.offer x).Admits tx ↔ r.Admits tx := by
  rw [admits_offer hr hgen hnew]
  refine and_iff_left_of_imp fun hadm hm => ?_
  have hx : ¬ r.Admits x := fun hx => hu.marker_ne hnodup hx hmem hadm hm.symm
  exact lt_of_refused hx hm hadm

theorem Unrivalled.tail : (r.offer x).Unrivalled txs := by
  intro y hy z hz hm hay haz
  rw [hu.admits_tail hr hgen hnew hnodup hy] at hay
  rw [hu.admits_tail hr hgen hnew hnodup hz] at haz
  exact hu y (mem_cons_of_mem x hy) z (mem_cons_of_mem x hz) hm hay haz

private theorem Unrivalled.holder_tail (hmem : tx ∈ txs) (hadm : r.Admits tx) :
    ((r.offer x).holder tx.marker).map ReadyTransaction.tx =
      (r.holder tx.marker).map ReadyTransaction.tx := by
  unfold offer
  split
  · next hx =>
    have hm : tx.marker ≠ x.marker := hu.marker_ne hnodup hx hmem hadm
    rw [holder_accept_of_ne hr hgen hnew hm, Option.map_map]
    congr 1
    funext t
    exact relink_tx x t
  · rfl

end

structure Settles (r : ReadyTransactions) (txs : List PoolTransaction) (out out' : ReadyOutcome)
    (r' : ReadyTransactions) : Prop where
  promoted : ∀ h, h ∈ out'.promoted ↔ h ∈ out.promoted ∨ ∃ tx ∈ txs, tx.hash = h ∧ r.Admits tx
  discarded : ∀ h, h ∈ out'.discarded ↔ h ∈ out.discarded ∨ ∃ tx ∈ txs, tx.hash = h ∧ ¬ r.Admits tx
  removed : ∀ rem, rem ∈ out'.removed ↔ rem ∈ out.removed ∨
    ∃ tx ∈ txs, r.Admits tx ∧ (r.holder tx.marker).map ReadyTransaction.tx = some rem
  ready : ∀ h, (∃ t, r'.readyTx.get h = some t) ↔
    (∃ tx ∈ txs, tx.hash = h ∧ r.Admits tx) ∨
      ∃ t, r.readyTx.get h = some t ∧ ∀ tx ∈ txs, tx.marker = t.tx.marker → ¬ r.Admits tx

/-- A transaction is ready and not outbid after an offer: it is that offer, or it was ready
and is outbid by none of the offers. -/
theorem Unrivalled.ready_offer (hu : r.Unrivalled (x :: txs)) (hr : ReadyInv preimage r)
    (hgen : Genuine preimage x) (hnew : r.readyTx.get x.hash = none)
    (hnodup : ((x :: txs).map PoolTransaction.hash).Nodup) (h : TxHash) :
    (∃ t, (r.offer x).readyTx.get h = some t ∧
        ∀ tx ∈ txs, tx.marker = t.tx.marker → ¬ (r.offer x).Admits tx) ↔
      (x.hash = h ∧ r.Admits x) ∨ ∃ t, r.readyTx.get h = some t ∧
        ∀ tx ∈ x :: txs, tx.marker = t.tx.marker → ¬ r.Admits tx := by
  have hadm : ∀ {tx}, tx ∈ txs → ((r.offer x).Admits tx ↔ r.Admits tx) := fun hmem =>
    hu.admits_tail hr hgen hnew hnodup hmem
  constructor
  · intro ⟨t, ht, hall⟩
    have hlater : ∀ tx ∈ txs, tx.marker = t.tx.marker → ¬ r.Admits tx := fun tx hmem hm hc =>
      hall tx hmem hm ((hadm hmem).mpr hc)
    by_cases hx : r.Admits x
    · rw [offer, if_pos hx] at ht
      rcases (get_accept hr hgen).mp ht with ⟨heq, _⟩ | ⟨_, s, hs, hsm, rfl⟩
      · exact .inl ⟨heq.symm, hx⟩
      · rw [relink_tx] at hlater
        refine .inr ⟨s, hs, ?_⟩
        rw [forall_mem_cons]
        exact ⟨fun hm => absurd hm.symm hsm, hlater⟩
    · rw [offer, if_neg hx] at ht
      refine .inr ⟨t, ht, ?_⟩
      rw [forall_mem_cons]
      exact ⟨fun _ => hx, hlater⟩
  · intro hor
    rcases hor with ⟨hxh, hx⟩ | ⟨t, ht, hall⟩
    · refine ⟨r.entry x, ?_, ?_⟩
      · rw [offer, if_pos hx, ← hxh]
        exact get_accept_self hr hgen
      · intro tx hmem hm hc
        exact hu.marker_ne hnodup hx hmem ((hadm hmem).mp hc) hm
    rw [forall_mem_cons] at hall
    have hlater : ∀ tx ∈ txs, tx.marker = t.tx.marker → ¬ (r.offer x).Admits tx :=
      fun tx hmem hm hc => hall.2 tx hmem hm ((hadm hmem).mp hc)
    by_cases hx : r.Admits x
    · have hsm : t.tx.marker ≠ x.marker := fun heq => hall.1 heq.symm hx
      refine ⟨relink x t, ?_, ?_⟩
      · rw [offer, if_pos hx]
        exact get_accept_of_ne hr hgen hnew ht hsm
      · rw [relink_tx]
        exact hlater
    · exact ⟨t, by rw [offer, if_neg hx, ht], hlater⟩

theorem settles (ho : Offers preimage r txs) (hu : r.Unrivalled txs)
    (hnodup : (txs.map PoolTransaction.hash).Nodup) (out : ReadyOutcome) :
    Settles r txs out (out.records r txs) (txs.foldl offer r) := by
  induction txs generalizing r out with
  | nil => constructor <;> simp [ReadyOutcome.records]
  | cons x txs ih =>
    obtain ⟨hr, hgen, hnew, hrest⟩ := ho
    have htail := ih hrest (hu.tail hr hgen hnew hnodup) (nodup_cons.mp hnodup).2
      (out.record false r x)
    have hadm : ∀ {tx}, tx ∈ txs → ((r.offer x).Admits tx ↔ r.Admits tx) := fun hmem =>
      hu.admits_tail hr hgen hnew hnodup hmem
    have hsome : ∀ h, (∃ tx ∈ txs, tx.hash = h ∧ (r.offer x).Admits tx) ↔
        ∃ tx ∈ txs, tx.hash = h ∧ r.Admits tx := fun h =>
      exists_congr fun tx => and_congr_right fun hmem => and_congr_right fun _ => hadm hmem
    constructor
    case promoted =>
      intro h
      rw [ReadyOutcome.records, htail.promoted h, mem_record_promoted,
        exists_mem_cons_iff, or_assoc, hsome]
    case discarded =>
      intro h
      rw [ReadyOutcome.records, htail.discarded h, mem_record_discarded,
        exists_mem_cons_iff, or_assoc]
      refine or_congr_right (or_congr_right (exists_congr fun tx => ?_))
      exact and_congr_right fun hmem => and_congr_right fun _ => not_congr (hadm hmem)
    case removed =>
      intro rem
      rw [ReadyOutcome.records, htail.removed rem, mem_record_removed,
        exists_mem_cons_iff, or_assoc]
      refine or_congr_right (or_congr_right (exists_congr fun tx => ?_))
      refine and_congr_right fun hmem => ?_
      rw [hadm hmem]
      refine and_congr_right fun ha => ?_
      rw [hu.holder_tail hr hgen hnew hnodup hmem ha]
    case ready =>
      intro h
      rw [foldl_cons, htail.ready h, hu.ready_offer hr hgen hnew hnodup h, hsome,
        exists_mem_cons_iff, or_left_comm, or_assoc]

end ReadyTransactions

end Foundry.Anvil.Pool
