import Foundry.Anvil.Pool.Runs

/-!
# Dependency links of the ready queue

A ready transaction should list exactly the ready transactions that require its marker.
Pruning keeps the lists exact.  Removal and replacement do not take the removed hash off
the list of its provider, so they keep the lists exact only when there is no such list.
-/

namespace Foundry.Anvil.Pool

namespace ReadyTransactions

variable {preimage : Preimage} {r : ReadyTransactions} {h : TxHash} {t : ReadyTransaction}
  {tx : PoolTransaction}

/-- Every list of unlocked hashes names the ready transactions that require a marker of
its owner, each of them once. -/
def LinksExact (r : ReadyTransactions) : Prop :=
  ∀ p tp, r.readyTx.get p = some tp → tp.unlocks.Nodup ∧
    ∀ h, h ∈ tp.unlocks ↔ ∃ t, r.readyTx.get h = some t ∧ ∃ m ∈ t.requires, m ∈ tp.provides

/-- The transaction, or one that leads to it in the queue, is among the given hashes. -/
inductive Named (r : ReadyTransactions) (hashes : List TxHash) : ReadyTransaction → Prop
  | self {t : ReadyTransaction} : t.tx.hash ∈ hashes → Named r hashes t
  | provider {t p : ReadyTransaction} : r.provider t.tx = some p → Named r hashes p →
      Named r hashes t

def LinkSafe (r : ReadyTransactions) : ReadyCall → Prop
  | .add tx => r.Admits tx →
      (∀ o, r.holder tx.marker = some o → r.provider o.tx = none) ∧
      (r.holder tx.marker = none → ∀ h t, r.readyTx.get h = some t → tx.marker ∉ t.requires)
  | .remove hashes => ∀ h ∈ hashes, ∀ t p, r.readyTx.get h = some t →
      r.provider t.tx = some p → r.Named hashes p
  | .prune _ => True
  | .clear => True

section

variable (hr : ReadyInv preimage r) {hashes : List TxHash}

include hr

theorem linksExact_iff : r.LinksExact ↔ ∀ p tp, r.readyTx.get p = some tp → tp.unlocks.Nodup ∧
      ∀ h, h ∈ tp.unlocks ↔ ∃ t, r.readyTx.get h = some t ∧ tp.tx.marker ∈ t.tx.requires := by
  refine forall₃_congr fun p tp hp => and_congr_right fun _ => forall_congr' fun h => ?_
  simp only [ReadyTransaction.provides, (hr.genuine hp).mem_provides, exists_eq_right]
  rfl

theorem requires_accept_iff (hgen : Genuine preimage tx) (hnew : r.readyTx.get tx.hash = none)
    {m : TxMarker} (h : TxHash) :
    (∃ t, (r.accept tx).readyTx.get h = some t ∧ m ∈ t.tx.requires) ↔
      (∃ t, r.readyTx.get h = some t ∧ t.tx.marker ≠ tx.marker ∧ m ∈ t.tx.requires) ∨
        h = tx.hash ∧ m ∈ tx.requires := by
  constructor
  · intro ⟨t, ht, hm⟩
    rcases (get_accept hr hgen).mp ht with ⟨heq, rfl⟩ | ⟨_, s, hs, hsm, rfl⟩
    · exact .inr ⟨heq, hm⟩
    · rw [relink_tx] at hm
      exact .inl ⟨s, hs, hsm, hm⟩
  · intro hor
    rcases hor with ⟨s, hs, hsm, hm⟩ | ⟨rfl, hm⟩
    · refine ⟨relink tx s, get_accept_of_ne hr hgen hnew hs hsm, ?_⟩
      rwa [relink_tx]
    · exact ⟨r.entry tx, get_accept_self hr hgen, hm⟩

/-- An accepted transaction keeps the links exact under its condition. -/
theorem linksExact_accept (hgen : Genuine preimage tx)
    (hnew : r.readyTx.get tx.hash = none) (hex : r.LinksExact)
    (hreplace : ∀ o, r.holder tx.marker = some o → r.provider o.tx = none)
    (hlate : r.holder tx.marker = none → ∀ h t, r.readyTx.get h = some t →
      tx.marker ∉ t.requires) : (r.accept tx).LinksExact := by
  rw [linksExact_iff (accept_inv hr hgen hnew)]
  rw [linksExact_iff hr] at hex
  intro p tp hp
  rcases (get_accept hr hgen).mp hp with ⟨rfl, rfl⟩ | ⟨_, s, hs, hsm, rfl⟩
  · have hreq : ∀ h, (∃ t, (r.accept tx).readyTx.get h = some t ∧
        (r.entry tx).tx.marker ∈ t.tx.requires) ↔
          ∃ t, r.readyTx.get h = some t ∧ tx.marker ∈ t.tx.requires := by
      intro h
      refine (requires_accept_iff hr hgen hnew h).trans ?_
      rw [or_iff_left fun hself => hgen.marker_not_mem_requires hself.2]
      refine exists_congr fun t => and_congr_right fun ht => and_iff_right_of_imp fun hm heq => ?_
      exact (hr.genuine ht).marker_not_mem_requires (heq ▸ hm)
    cases hold : r.holder tx.marker with
    | none =>
      have hlist : (r.entry tx).unlocks = [] := by simp [entry, inherited, hold]
      rw [hlist]
      refine ⟨List.nodup_nil, fun h => ?_⟩
      rw [hreq h]
      constructor
      · intro hmem
        exact absurd hmem List.not_mem_nil
      · rintro ⟨t, ht, hm⟩
        exact absurd hm (hlate hold h t ht)
    | some o =>
      obtain ⟨ho, hmarker⟩ := (holder_eq_some hr).mp hold
      have hlist : (r.entry tx).unlocks = o.unlocks := by simp [entry, inherited, hold]
      obtain ⟨hnodup, hmem⟩ := hex _ o ho
      rw [hlist]
      refine ⟨hnodup, fun h => ?_⟩
      rw [hreq h, hmem h, hmarker]
  · obtain ⟨hnodup, hmem⟩ := hex p s hs
    refine ⟨?_, fun h => ?_⟩
    · have hfresh : tx.hash ∉ s.unlocks := by
        intro hin
        obtain ⟨t, ht, _⟩ := (hmem tx.hash).mp hin
        rw [hnew] at ht
        cases ht
      unfold relink
      split
      · simpa [ReadyTransaction.link] using hnodup.concat hfresh
      · exact hnodup
    · rw [relink_tx, mem_relink_unlocks, hmem h, requires_accept_iff hr hgen hnew]
      refine or_congr_left (exists_congr fun t => and_congr_right fun ht => ?_)
      refine (and_iff_right_of_imp fun hm heq => ?_).symm
      have hprov := hreplace t (heq ▸ holder_of_get hr ht)
      exact (provider_eq_none hr (hr.genuine ht)).mp hprov ⟨p, s, hs, hm⟩

theorem linksExact_pruneStep (ht : r.readyTx.get h = some t)
    (hex : r.LinksExact) : (r.pruneStep h t).LinksExact := by
  rw [linksExact_iff (pruneStep_inv hr ht)]
  rw [linksExact_iff hr] at hex
  intro p tp hp
  obtain ⟨_, s, hs, rfl⟩ := (get_pruneStep hr ht).mp hp
  obtain ⟨hnodup, hmem⟩ := hex p s hs
  rw [afterPrune_tx]
  have hleft : ∀ x, (∃ t', (r.pruneStep h t).readyTx.get x = some t' ∧
      s.tx.marker ∈ t'.tx.requires) ↔ x ∈ s.unlocks ∧ x ≠ h := by
    intro x
    rw [hmem x, and_comm]
    simp [get_pruneStep hr ht, and_assoc]
  show (unlink t.tx s).unlocks.Nodup ∧ ∀ x, x ∈ (unlink t.tx s).unlocks ↔ _
  unfold unlink
  split
  · have hperm := removeHash_perm s.unlocks t.tx.hash
    refine ⟨hperm.nodup_iff.mpr (hnodup.erase _), fun x => ?_⟩
    rw [hleft x, hperm.mem_iff, hnodup.mem_erase_iff, hr.hash_eq ht, and_comm]
  · next hreq =>
    have hnot : h ∉ s.unlocks := by
      intro hin
      obtain ⟨t0, ht0, hm⟩ := (hmem h).mp hin
      obtain rfl : t0 = t := Option.some.inj (ht0.symm.trans ht)
      exact hreq hm
    refine ⟨hnodup, fun x => ?_⟩
    rw [hleft x]
    exact (and_iff_left_of_imp fun hx (heq : x = h) => hnot (heq ▸ hx)).symm

theorem cascade_of_named
    (hex : r.LinksExact) (hn : r.Named hashes t) (ht : r.readyTx.get t.tx.hash = some t) :
    Cascade r.readyTx hashes t.tx.hash := by
  rw [linksExact_iff hr] at hex
  induction hn with
  | self hmem => exact .root hmem ht
  | @provider t p hp _ ih =>
    obtain ⟨hget, hm⟩ := (provider_eq_some hr (hr.genuine ht)).mp hp
    exact .link (ih hget) hget (((hex _ p hget).2 t.tx.hash).mpr ⟨t, ht, hm⟩) ht

/-- A safe removal keeps the links exact. -/
theorem linksExact_remove (hex : r.LinksExact) (hsafe : r.LinkSafe (.remove hashes)) :
    (r.removeWithMarkers hashes none).1.LinksExact := by
  obtain ⟨hr', hrem⟩ := removeWithMarkers_spec hr hashes
  have hlinks := (linksExact_iff hr).mp hex
  rw [linksExact_iff hr']
  intro p tp hp
  obtain ⟨hp, hpc⟩ := hrem.get_eq_some.mp hp
  obtain ⟨hnodup, hmem⟩ := hlinks p tp hp
  refine ⟨hnodup, fun h => ?_⟩
  rw [hmem h]
  constructor
  · intro ⟨t, ht, hm⟩
    have hprov : r.provider t.tx = some tp :=
      (provider_eq_some hr (hr.genuine ht)).mpr ⟨by rw [hr.hash_eq hp, hp], hm⟩
    have hstay : ¬ Cascade r.readyTx hashes h := by
      intro hc
      apply hpc
      cases hc with
      | root hroot _ =>
        have hn := hsafe h hroot t tp ht hprov
        have hcas := cascade_of_named hr hex hn (by rw [hr.hash_eq hp, hp])
        rw [hr.hash_eq hp] at hcas
        exact hcas
      | @link q _ tq _ hq htq hin _ =>
        obtain ⟨t', ht', hm'⟩ := ((hlinks q tq htq).2 h).mp hin
        obtain rfl : t' = t := Option.some.inj (ht'.symm.trans ht)
        rw [((hr.genuine ht).mem_requires hm).1, List.mem_singleton] at hm'
        rw [(eq_of_marker_eq hr hp htq hm'.symm).1]
        exact hq
    exact ⟨t, hrem.get_eq_some.mpr ⟨ht, hstay⟩, hm⟩
  · intro ⟨t, ht, hm⟩
    exact ⟨t, (hrem.get_eq_some.mp ht).1, hm⟩

end

theorem linkSafe_keeps {call : ReadyTransactions × ReadyCall} (hsafe : call.1.LinkSafe call.2) :
    PoolInner.Keeps preimage LinksExact call := by
  obtain ⟨r, call⟩ := call
  intro hr hproper hex
  cases call with
  | add tx =>
    obtain ⟨hgen, hnew⟩ := hproper
    show (r.offer tx).LinksExact
    unfold offer
    split
    · next hadm =>
      obtain ⟨hreplace, hlate⟩ := hsafe hadm
      exact linksExact_accept hr hgen hnew hex hreplace hlate
    · exact hex
  | prune marker =>
    obtain ⟨r', removed, heq, _, hex'⟩ := pruneLoop_induct LinksExact
      (fun r h t hr hex ht => linksExact_pruneStep hr ht hex) hr hex [marker]
    have heq : r.pruneTags marker = .ok (r', removed) := heq
    simpa [ReadyCall.after, heq] using hex'
  | remove hashes => exact linksExact_remove hr hex hsafe
  | clear =>
    intro p tp hp
    simp [ReadyCall.after, clear] at hp

end ReadyTransactions

namespace PoolInner

open ReadyTransactions

/-- The links are exact in every state of a run whose calls on the ready queue are safe. -/
theorem run_links_exact (preimage : Preimage) (ops : List (IterOrder × Op))
    (hsafe : ∀ call ∈ empty.runCalls preimage ops, call.1.LinkSafe call.2) :
    ∃ pool, empty.run preimage ops = .ok pool ∧ pool.readyTransactions.LinksExact := by
  have hempty : empty.readyTransactions.LinksExact := by
    intro p tp hp
    simp [empty, ReadyTransactions.empty] at hp
  obtain ⟨pool, heq, _, hex⟩ := run_spec empty_inv ops hempty fun call hcall =>
    linkSafe_keeps (hsafe call hcall)
  exact ⟨pool, heq, hex⟩

/-- Hash 2 has nonce 1, every other hash nonce 0 of the same sender. -/
def twoNonces : Preimage := fun hash =>
  if hash = 1 then (⟨0, 5⟩, 7) else if hash = 2 then (⟨1, 9⟩, 7) else (⟨0, 9⟩, 7)

/-- The second transaction builds on the first one, which the third one replaces. -/
def addAddReplace : List (IterOrder × Op) :=
  [(.increasing, .addTransaction .fees 1 0), (.increasing, .addTransaction .fees 2 0),
    (.increasing, .addTransaction .fees 3 0)]

def priced (hash : TxHash) : PoolTransaction := poolTransaction .fees (twoNonces.pending hash) 0

theorem runCalls_addAddReplace :
    empty.runCalls twoNonces addAddReplace =
      [(.empty, .add (priced 1)), (ReadyTransactions.empty.accept (priced 1), .add (priced 2)),
        ((ReadyTransactions.empty.accept (priced 1)).accept (priced 2), .add (priced 3))] := by
  decide +kernel

theorem forall_ready {r : ReadyTransactions} (hashes : List TxHash) {P : ReadyTransaction → Prop}
    (hkeys : r.readyTx.keys = hashes.toFinset)
    (hall : ∀ t ∈ hashes.filterMap r.readyTx.get, P t) (h : TxHash) (t : ReadyTransaction)
    (ht : r.readyTx.get h = some t) : P t := by
  have hmem := HashMap.mem_keys_of_get ht
  rw [hkeys, List.mem_toFinset] at hmem
  exact hall t (List.mem_filterMap.mpr ⟨h, hmem, ht⟩)

/-- The replacement takes over the link to the second transaction. -/
theorem run_links_exact_replaced :
    ∃ pool, empty.run twoNonces addAddReplace = .ok pool ∧ pool.readyTransactions.LinksExact ∧
      (pool.readyTransactions.readyTx.get 3).map (·.unlocks) = some [2] := by
  have hsafe : ∀ call ∈ empty.runCalls twoNonces addAddReplace, call.1.LinkSafe call.2 := by
    rw [runCalls_addAddReplace]
    intro call hcall
    simp only [List.mem_cons, List.not_mem_nil, or_false] at hcall
    rcases hcall with rfl | rfl | rfl
    · intro _
      exact ⟨nofun, fun _ => forall_ready [] (by decide +kernel) (by decide +kernel)⟩
    · intro _
      refine ⟨?_, fun _ => forall_ready [1] (by decide +kernel) (by decide +kernel)⟩
      show ∀ o ∈ holder _ _, _
      decide +kernel
    · intro _
      refine ⟨?_, fun hnone => absurd hnone (by decide +kernel)⟩
      show ∀ o ∈ holder _ _, _
      decide +kernel
  obtain ⟨pool, hrun, hexact⟩ := run_links_exact twoNonces addAddReplace hsafe
  have hlinks : (empty.run twoNonces addAddReplace).toOption.bind (fun pool =>
      (pool.readyTransactions.readyTx.get 3).map (·.unlocks)) = some [2] := by
    decide +kernel
  rw [hrun] at hlinks
  exact ⟨pool, hrun, hexact, hlinks⟩

def addAddDrop : List (IterOrder × Op) :=
  [(.increasing, .addTransaction .fees 1 0), (.increasing, .addTransaction .fees 2 0),
    (.increasing, .dropTransaction 2)]

theorem addAddDrop_not_exact :
    ∃ pool, empty.run twoNonces addAddDrop = .ok pool ∧ ¬ pool.readyTransactions.LinksExact := by
  have hlist : ∃ pool ∈ (empty.run twoNonces addAddDrop).toOption,
      pool.readyTransactions.readyTx.get 2 = none ∧
        ∃ t ∈ pool.readyTransactions.readyTx.get 1, 2 ∈ t.unlocks := by
    decide +kernel
  obtain ⟨pool, hpool, hgone, t, ht, hmem⟩ := hlist
  refine ⟨pool, ok_of_mem_toOption hpool, fun hex => ?_⟩
  obtain ⟨t2, ht2, _⟩ := ((hex 1 t ht).2 2).mp hmem
  cases hgone.symm.trans ht2

end PoolInner

end Foundry.Anvil.Pool
