import Foundry.Anvil.Pool.Ready

/-!
# The invariant of the ready queue

What every call of the ready queue does on a queue that satisfies the invariant: the
equations below replace the loops of the source, which run over at most one required
and exactly one provided marker.
-/

namespace Foundry.Anvil.Pool

open List HashMap Option

def ReadyTransaction.link (t : ReadyTransaction) (h : TxHash) : ReadyTransaction :=
  { t with unlocks := t.unlocks ++ [h] }

structure ReadyInv (preimage : Preimage) (r : ReadyTransactions) : Prop where
  hash_eq : ∀ {h t}, r.readyTx.get h = some t → t.tx.hash = h
  genuine : ∀ {h t}, r.readyTx.get h = some t → Genuine preimage t.tx
  provided : ∀ m h, r.providedMarkers.get m = some h ↔
    ∃ t, r.readyTx.get h = some t ∧ m ∈ t.provides
  /-- A listed hash belongs to the next nonce of the same sender, ready or not. -/
  links : ∀ {h t}, r.readyTx.get h = some t → ∀ u ∈ t.unlocks,
    (preimage u).2 = t.tx.sender ∧ (preimage u).1.nonce.toNat = t.tx.nonce.toNat + 1

namespace ReadyTransactions

open HashMap (get_of_remove get_remove_eq_some)

variable {preimage : Preimage} {r : ReadyTransactions} {h h' : TxHash} {m : TxMarker}
  {t t' : ReadyTransaction} {tx : PoolTransaction} {r' : ReadyTransactions}
  {removed : List PoolTransaction} {roots roots' : List TxHash}

theorem empty_inv : ReadyInv preimage empty where
  hash_eq ht := by simp [empty] at ht
  genuine ht := by simp [empty] at ht
  provided m h := by simp [empty]
  links ht := by simp [empty] at ht

theorem clear_inv (r : ReadyTransactions) : ReadyInv preimage r.clear where
  hash_eq ht := by simp [clear] at ht
  genuine ht := by simp [clear] at ht
  provided m h := by simp [clear]
  links ht := by simp [clear] at ht

section

variable (hr : ReadyInv preimage r)

include hr

theorem provided_eq_some :
    r.providedMarkers.get m = some h ↔ ∃ t, r.readyTx.get h = some t ∧ t.tx.marker = m := by
  rw [hr.provided m h]
  refine exists_congr fun t => and_congr_right fun ht => ?_
  rw [ReadyTransaction.provides, (hr.genuine ht).mem_provides, eq_comm]

theorem provided_marker (ht : r.readyTx.get h = some t) :
    r.providedMarkers.get t.tx.marker = some h :=
  (provided_eq_some hr).mpr ⟨t, ht, rfl⟩

theorem provided_eq_none :
    r.providedMarkers.get m = none ↔ ∀ h t, r.readyTx.get h = some t → t.tx.marker ≠ m := by
  simp only [eq_none_iff_forall_ne_some, ne_eq, provided_eq_some hr, not_exists, not_and]

theorem eq_of_marker_eq (ht : r.readyTx.get h = some t)
    (ht' : r.readyTx.get h' = some t') (hm : t.tx.marker = t'.tx.marker) : h = h' ∧ t = t' := by
  have hh : h = h' := by
    have h1 := provided_marker hr ht
    have h2 := provided_marker hr ht'
    rw [hm, h2] at h1
    exact (Option.some.inj h1).symm
  subst hh
  exact ⟨rfl, Option.some.inj (ht.symm.trans ht')⟩

theorem not_mem_unlocks_self (ht : r.readyTx.get h = some t) : h ∉ t.unlocks := by
  intro hmem
  have hn := (hr.links ht h hmem).2
  have heq := (hr.genuine ht).nonce_eq
  rw [hr.hash_eq ht] at heq
  rw [heq] at hn
  omega

end

/-! ## Removing one transaction -/

theorem removeHash_of_not_mem {unlocks : List TxHash} (hmem : h ∉ unlocks) :
    removeHash unlocks h = unlocks := by
  have hnone : unlocks.idxOf? h = none := by simpa using hmem
  simp [removeHash, hnone]

/-- The loop that should take a removed transaction off its provider's list looks for the
provider instead, and never finds it. -/
theorem unlinkRequires_eq (hr : ReadyInv preimage r) {provided : HashMap TxMarker TxHash}
    (marks : List TxMarker) :
    unlinkRequires provided (r.readyTx.remove h) marks = r.readyTx.remove h := by
  induction marks with
  | nil => rfl
  | cons mark marks ih =>
    unfold unlinkRequires
    cases provided.get mark with
    | none => exact ih
    | some hash =>
      have hsame : (r.readyTx.remove h).update hash (fun tx =>
          { tx with unlocks := removeHash tx.unlocks hash }) = r.readyTx.remove h := by
        apply update_eq_self
        intro v hv
        rw [removeHash_of_not_mem (not_mem_unlocks_self hr (get_of_remove hv).1)]
      dsimp only
      rw [hsame]
      exact ih

/-- The queue without one transaction, its marker given up. -/
def without (r : ReadyTransactions) (h : TxHash) (t : ReadyTransaction) : ReadyTransactions :=
  { r with
    providedMarkers := r.providedMarkers.remove t.tx.marker
    readyTx := r.readyTx.remove h
    independentTransactions := r.independentTransactions.remove t.transaction }

theorem without_inv (hr : ReadyInv preimage r) (ht : r.readyTx.get h = some t) :
    ReadyInv preimage (r.without h t) := by
  constructor
  · intro h' t' ht'
    exact hr.hash_eq (get_of_remove ht').1
  · intro h' t' ht'
    exact hr.genuine (get_of_remove ht').1
  · intro m h'
    simp only [without, get_remove_eq_some, hr.provided m h']
    constructor
    · intro ⟨⟨t', ht', hm'⟩, hm⟩
      refine ⟨t', ⟨ht', ?_⟩, hm'⟩
      rintro rfl
      cases ht.symm.trans ht'
      exact hm ((hr.genuine ht).mem_provides.mp hm')
    · intro ⟨t', ⟨ht', hne⟩, hm'⟩
      refine ⟨⟨t', ht', hm'⟩, fun hm => hne ?_⟩
      have hm' := (hr.genuine ht').mem_provides.mp hm'
      exact (eq_of_marker_eq hr ht' ht (hm'.symm.trans hm)).1
  · intro h' t' ht'
    exact hr.links (get_of_remove ht').1

theorem invalidated_none (hgen : Genuine preimage tx) : invalidated none tx = [tx.marker] := by
  simp [invalidated, hgen.provides_eq]

theorem removeOne_none (hr : ReadyInv preimage r) (ht : r.readyTx.get h = some t) :
    removeOne none r h t = r.without h t := by
  simp [removeOne, without, invalidated_none (hr.genuine ht), unlinkRequires_eq hr]

theorem dependants_none (hr : ReadyInv preimage r) (ht : r.readyTx.get h = some t) :
    dependants none t = t.unlocks.reverse := by
  simp [dependants, invalidated_none (hr.genuine ht)]

/-! ## Removing with dependants -/

/-- The transactions `remove_with_markers` takes out when it starts with `roots`: the
ready ones among them and, transitively, the ready ones they list. -/
inductive Cascade (ready : HashMap TxHash ReadyTransaction) (roots : List TxHash) : TxHash → Prop
  | root {h : TxHash} {t : ReadyTransaction} : h ∈ roots → ready.get h = some t →
      Cascade ready roots h
  | link {p h : TxHash} {tp t : ReadyTransaction} : Cascade ready roots p →
      ready.get p = some tp → h ∈ tp.unlocks → ready.get h = some t → Cascade ready roots h

theorem Cascade.ready {ready : HashMap TxHash ReadyTransaction} {roots : List TxHash}
    (hc : Cascade ready roots h) : ∃ t, ready.get h = some t := by
  cases hc with
  | root _ ht => exact ⟨_, ht⟩
  | link _ _ _ ht => exact ⟨_, ht⟩

theorem Cascade.mono {ready : HashMap TxHash ReadyTransaction}
    (hsub : ∀ h ∈ roots, h ∈ roots' ∨ ready.get h = none) (hc : Cascade ready roots h) :
    Cascade ready roots' h := by
  induction hc with
  | root hmem ht =>
    rcases hsub _ hmem with hmem | hnone
    · exact .root hmem ht
    · rw [ht] at hnone
      cases hnone
  | link _ htp hmem ht ih => exact .link ih htp hmem ht

/-- Taking out one root first leaves the cascade of what it lists and of the other roots. -/
theorem cascade_cons {ready : HashMap TxHash ReadyTransaction}
    (ht : ready.get h = some t) (x : TxHash) :
    Cascade ready (h :: roots) x ↔
      x = h ∨ Cascade (ready.remove h) (t.unlocks.reverse ++ roots) x := by
  constructor
  · intro hc
    induction hc with
    | @root x tx hmem hx =>
      by_cases hxh : x = h
      · exact .inl hxh
      · have hmem : x ∈ roots := (mem_cons.mp hmem).resolve_left hxh
        exact .inr (.root (mem_append_right _ hmem) (get_remove_eq_some.mpr ⟨hx, hxh⟩))
    | @link p x tp tx _ hp hmem hx ih =>
      by_cases hxh : x = h
      · exact .inl hxh
      have hx := get_remove_eq_some.mpr ⟨hx, hxh⟩
      rcases ih with hph | ih
      · cases ht.symm.trans (hph ▸ hp)
        exact .inr (.root (mem_append_left _ (mem_reverse.mpr hmem)) hx)
      · obtain ⟨tp', hp'⟩ := ih.ready
        cases hp.symm.trans (get_of_remove hp').1
        exact .inr (.link ih hp' hmem hx)
  · intro hc
    rcases hc with rfl | hc
    · exact .root mem_cons_self ht
    induction hc with
    | @root x tx hmem hx =>
      have hx := (get_of_remove hx).1
      rcases mem_append.mp hmem with hmem | hmem
      · exact .link (.root mem_cons_self ht) ht (mem_reverse.mp hmem) hx
      · exact .root (mem_cons_of_mem h hmem) hx
    | @link p x tp tx _ hp hmem hx ih =>
      exact .link ih (get_of_remove hp).1 hmem (get_of_remove hx).1

/-- What `remove_with_markers` does without a filter, for the roots `roots`. -/
structure Removes (r : ReadyTransactions) (roots : List TxHash) (r' : ReadyTransactions)
    (removed : List PoolTransaction) : Prop where
  gone : ∀ h, Cascade r.readyTx roots h → r'.readyTx.get h = none
  kept : ∀ h, ¬ Cascade r.readyTx roots h → r'.readyTx.get h = r.readyTx.get h
  independent : ∀ x, x ∈ r'.independentTransactions ↔ x ∈ r.independentTransactions ∧
    ∀ h t, Cascade r.readyTx roots h → r.readyTx.get h = some t → x.key ≠ t.transaction.key
  id_eq : r'.id = r.id
  removed_iff : ∀ tx, tx ∈ removed ↔
    ∃ h t, Cascade r.readyTx roots h ∧ r.readyTx.get h = some t ∧ t.tx = tx

theorem Removes.get_eq_some (hrem : Removes r roots r' removed) :
    r'.readyTx.get h = some t ↔ r.readyTx.get h = some t ∧ ¬ Cascade r.readyTx roots h := by
  by_cases hc : Cascade r.readyTx roots h
  · simp [hrem.gone h hc, hc]
  · simp [hrem.kept h hc, hc]

theorem removes_nil (r : ReadyTransactions) : Removes r [] r [] := by
  have hnone : ∀ h, ¬ Cascade r.readyTx [] h := by
    intro h hc
    induction hc with
    | root hmem _ => exact not_mem_nil hmem
    | link _ _ _ _ ih => exact ih
  constructor <;> simp [hnone]

theorem Removes.of_roots {r' : ReadyTransactions} {removed : List PoolTransaction}
    (hiff : ∀ h, Cascade r.readyTx roots h ↔ Cascade r.readyTx roots' h)
    (hrem : Removes r roots r' removed) : Removes r roots' r' removed := by
  have heq : Cascade r.readyTx roots = Cascade r.readyTx roots' := funext fun h => propext (hiff h)
  refine ⟨?_, ?_, ?_, hrem.id_eq, ?_⟩ <;> rw [← heq]
  · exact hrem.gone
  · exact hrem.kept
  · exact hrem.independent
  · exact hrem.removed_iff

/-- The first root is taken out, and what it lists joins the roots. -/
theorem Removes.cons (ht : r.readyTx.get h = some t)
    (hrem : Removes (r.without h t) (t.unlocks.reverse ++ roots) r' removed) :
    Removes r (h :: roots) r' (t.tx :: removed) := by
  have hcons : ∀ x, Cascade r.readyTx (h :: roots) x ↔
      x = h ∨ Cascade (r.readyTx.remove h) (t.unlocks.reverse ++ roots) x := cascade_cons ht
  have hget : ∀ {x tx}, Cascade (r.readyTx.remove h) (t.unlocks.reverse ++ roots) x →
      r.readyTx.get x = some tx → (r.readyTx.remove h).get x = some tx := by
    intro x tx hc hx
    obtain ⟨tx', hx'⟩ := hc.ready
    exact get_remove_eq_some.mpr ⟨hx, (get_of_remove hx').2⟩
  constructor
  · intro x hc
    by_cases hin : Cascade (r.readyTx.remove h) (t.unlocks.reverse ++ roots) x
    · exact hrem.gone x hin
    · have hxh : x = h := ((hcons x).mp hc).resolve_right hin
      rw [hrem.kept x hin, hxh]
      exact get_remove_self _ _
  · intro x hc
    have hnot : ¬ (x = h ∨ Cascade (r.readyTx.remove h) (t.unlocks.reverse ++ roots) x) :=
      fun hor => hc ((hcons x).mpr hor)
    rw [hrem.kept x fun hin => hnot (.inr hin)]
    exact get_remove_of_ne _ fun hxh => hnot (.inl hxh)
  · intro x
    rw [hrem.independent x]
    simp only [without, SortedSet.mem_remove]
    constructor
    · rintro ⟨⟨hx, hkey⟩, hall⟩
      refine ⟨hx, ?_⟩
      intro h' t' hc ht'
      rcases (hcons h').mp hc with rfl | hc
      · cases ht.symm.trans ht'
        exact hkey
      · exact hall h' t' hc (hget hc ht')
    · rintro ⟨hx, hall⟩
      refine ⟨⟨hx, hall h t ((hcons h).mpr (.inl rfl)) ht⟩, ?_⟩
      intro h' t' hc ht'
      exact hall h' t' ((hcons h').mpr (.inr hc)) (get_of_remove ht').1
  · exact hrem.id_eq
  · intro tx
    rw [mem_cons, hrem.removed_iff tx]
    constructor
    · intro hmem
      rcases hmem with rfl | ⟨h', t', hc, ht', htx⟩
      · exact ⟨h, t, (hcons h).mpr (.inl rfl), ht, rfl⟩
      · exact ⟨h', t', (hcons h').mpr (.inr hc), (get_of_remove ht').1, htx⟩
    · rintro ⟨h', t', hc, ht', htx⟩
      rcases (hcons h').mp hc with rfl | hc
      · cases ht.symm.trans ht'
        exact .inl htx.symm
      · exact .inr ⟨h', t', hc, hget hc ht', htx⟩

theorem removeLoop_of_get (filter : Option (Finset TxMarker)) (ht : r.readyTx.get h = some t)
    (roots : List TxHash) :
    removeLoop filter r (h :: roots) =
      ((removeLoop filter (removeOne filter r h t) (dependants filter t ++ roots)).1,
        t.tx :: (removeLoop filter (removeOne filter r h t) (dependants filter t ++ roots)).2) := by
  rw [removeLoop]
  split
  · next hnone =>
    rw [ht] at hnone
    cases hnone
  · next t' ht' =>
    cases ht.symm.trans ht'
    rfl

theorem removeLoop_spec (hr : ReadyInv preimage r) (roots : List TxHash) :
    ReadyInv preimage (removeLoop none r roots).1 ∧
      Removes r roots (removeLoop none r roots).1 (removeLoop none r roots).2 := by
  induction r, roots using removeLoop.induct none with
  | case1 r => exact ⟨by rwa [removeLoop], by simpa [removeLoop] using removes_nil r⟩
  | case2 r h roots hget ih =>
    obtain ⟨hinv, hrem⟩ := ih hr
    have heq : removeLoop none r (h :: roots) = removeLoop none r roots := by
      rw [removeLoop, hget]
    rw [heq]
    refine ⟨hinv, hrem.of_roots ?_⟩
    intro x
    constructor
    · exact Cascade.mono fun h' hmem => .inl (mem_cons_of_mem h hmem)
    · refine Cascade.mono fun h' hmem => ?_
      rcases mem_cons.mp hmem with rfl | hmem
      · exact .inr hget
      · exact .inl hmem
  | case3 r h roots t hget _ _ _ ih =>
    rw [removeOne_none hr hget, dependants_none hr hget] at ih
    obtain ⟨hinv, hrem⟩ := ih (without_inv hr hget)
    rw [removeLoop_of_get none hget, removeOne_none hr hget, dependants_none hr hget]
    exact ⟨hinv, hrem.cons hget⟩

theorem removeWithMarkers_spec (hr : ReadyInv preimage r) (hashes : List TxHash) :
    ReadyInv preimage (r.removeWithMarkers hashes none).1 ∧
      Removes r hashes (r.removeWithMarkers hashes none).1 (r.removeWithMarkers hashes none).2 := by
  obtain ⟨hinv, hrem⟩ := removeLoop_spec hr hashes.reverse
  refine ⟨hinv, hrem.of_roots ?_⟩
  intro x
  constructor
  · exact Cascade.mono fun h' hmem => .inl (mem_reverse.mp hmem)
  · exact Cascade.mono fun h' hmem => .inl (mem_reverse.mpr hmem)

/-! ## Adding -/

section

variable (r)

/-- The ready transaction that provides a marker. -/
def holder (m : TxMarker) : Option ReadyTransaction := (r.providedMarkers.get m).bind r.readyTx.get

section

variable (tx)

def provider : Option ReadyTransaction := tx.requires.head?.bind r.holder

/-- `tx` pays more than the ready transaction it would replace. -/
def Admits : Prop := ∀ t, r.holder tx.marker = some t → t.gasPrice < tx.gasPrice

instance : Decidable (r.Admits tx) :=
  match h : r.holder tx.marker with
  | none => isTrue fun t ht => by rw [h] at ht; cases ht
  | some t => decidable_of_iff (t.gasPrice < tx.gasPrice)
      ⟨fun hlt t' ht' => by
        rw [h] at ht'
        cases ht'
        exact hlt, fun hadm => hadm t h⟩

/-- The queue once the transaction with the marker of `tx` is gone.  Its marker stays in
the index, for `tx` to overwrite. -/
def vacate : ReadyTransactions :=
  match r.holder tx.marker with
  | none => r
  | some t =>
    { r with
      readyTx := r.readyTx.remove t.tx.hash
      independentTransactions := r.independentTransactions.remove t.transaction }

/-- The hashes that `tx` takes over from the transaction it replaces. -/
def inherited : List TxHash := (r.holder tx.marker).elim [] ReadyTransaction.unlocks

def entry : ReadyTransaction where
  transaction := ⟨tx, r.id⟩
  unlocks := r.inherited tx
  requiresOffset := if (r.provider tx).isSome then 0 else tx.requires.length

def accept : ReadyTransactions where
  id := r.id + 1
  providedMarkers := r.providedMarkers.insert tx.marker tx.hash
  readyTx :=
    (match r.provider tx with
      | none => (r.vacate tx).readyTx
      | some p => (r.vacate tx).readyTx.insert p.tx.hash (p.link tx.hash)).insert
        tx.hash (r.entry tx)
  independentTransactions :=
    if (r.provider tx).isSome then (r.vacate tx).independentTransactions
    else (r.vacate tx).independentTransactions.insert ⟨tx, r.id⟩

end

end

section

variable (hr : ReadyInv preimage r)

include hr

theorem holder_eq_some :
    r.holder m = some t ↔ r.readyTx.get t.tx.hash = some t ∧ t.tx.marker = m := by
  unfold holder
  rw [bind_eq_some_iff]
  constructor
  · intro ⟨h, hm, ht⟩
    obtain ⟨t', ht', hm'⟩ := (provided_eq_some hr).mp hm
    obtain rfl : t = t' := Option.some.inj (ht.symm.trans ht')
    exact ⟨by rw [hr.hash_eq ht, ht], hm'⟩
  · intro ⟨ht, hm⟩
    exact ⟨t.tx.hash, (provided_eq_some hr).mpr ⟨t, ht, hm⟩, ht⟩

theorem holder_of_get (ht : r.readyTx.get h = some t) : r.holder t.tx.marker = some t :=
  (holder_eq_some hr).mpr ⟨by rw [hr.hash_eq ht, ht], rfl⟩

theorem holder_eq_none : r.holder m = none ↔ r.providedMarkers.get m = none := by
  unfold holder
  cases hm : r.providedMarkers.get m with
  | none => simp
  | some h =>
    obtain ⟨t, ht, _⟩ := (provided_eq_some hr).mp hm
    simp [ht]

theorem provider_eq_some (hgen : Genuine preimage tx) :
    r.provider tx = some t ↔ r.readyTx.get t.tx.hash = some t ∧ t.tx.marker ∈ tx.requires := by
  unfold provider
  rcases hgen.requires_eq with hnil | ⟨prev, _, hreq⟩
  · simp [hnil]
  · simp [hreq, holder_eq_some hr]

theorem provider_eq_none (hgen : Genuine preimage tx) :
    r.provider tx = none ↔ ¬ ∃ p tp, r.readyTx.get p = some tp ∧ tp.tx.marker ∈ tx.requires := by
  simp only [eq_none_iff_forall_ne_some, ne_eq, provider_eq_some hr hgen, not_exists]
  constructor
  · intro hnone p tp ⟨hp, hm⟩
    exact hnone tp ⟨by rw [hr.hash_eq hp, hp], hm⟩
  · exact fun hnot tp => hnot _ tp

theorem get_vacate : (r.vacate tx).readyTx.get h = some t ↔
      r.readyTx.get h = some t ∧ t.tx.marker ≠ tx.marker := by
  unfold vacate
  cases hold : r.holder tx.marker with
  | none =>
    have hfree := (provided_eq_none hr).mp ((holder_eq_none hr).mp hold)
    exact (and_iff_left_of_imp (hfree h t)).symm
  | some o =>
    obtain ⟨ho, hmarker⟩ := (holder_eq_some hr).mp hold
    rw [get_remove_eq_some]
    refine and_congr_right fun ht => not_congr ⟨?_, ?_⟩
    · rintro rfl
      cases ho.symm.trans ht
      exact hmarker
    · intro hm
      exact (eq_of_marker_eq hr ht ho (hm.trans hmarker.symm)).1

theorem provider_get_vacate (hgen : Genuine preimage tx)
    (hp : r.provider tx = some t) : (r.vacate tx).readyTx.get t.tx.hash = some t := by
  obtain ⟨ht, hmem⟩ := (provider_eq_some hr hgen).mp hp
  exact (get_vacate hr).mpr ⟨ht, fun hm => hgen.marker_not_mem_requires (hm ▸ hmem)⟩

end

theorem vacate_provided (r : ReadyTransactions) (tx : PoolTransaction) :
    (r.vacate tx).providedMarkers = r.providedMarkers := by
  unfold vacate
  cases r.holder tx.marker <;> rfl

theorem vacate_id (r : ReadyTransactions) (tx : PoolTransaction) : (r.vacate tx).id = r.id := by
  unfold vacate
  cases r.holder tx.marker <;> rfl

section

variable (hr : ReadyInv preimage r)

include hr

theorem removeLoop_kept_marker (ht : r.readyTx.get h = some t) :
    removeLoop (some {t.tx.marker}) r [h] =
      ({ r with
         readyTx := r.readyTx.remove h
         independentTransactions := r.independentTransactions.remove t.transaction },
        [t.tx]) := by
  have hinv : invalidated (some {t.tx.marker}) t.tx = [] := by
    simp [invalidated, (hr.genuine ht).provides_eq]
  simp [removeLoop_of_get _ ht, dependants, removeOne, hinv, unlinkRequires_eq hr, removeLoop]

theorem replacedTransactions_eq (hgen : Genuine preimage tx) (order : IterOrder) :
    r.replacedTransactions order tx =
      if r.Admits tx then
        (r.vacate tx, .ok ((r.holder tx.marker).toList.map ReadyTransaction.tx, r.inherited tx))
      else (r, .error (.replacementUnderpriced tx)) := by
  unfold replacedTransactions
  rw [hgen.provides_eq]
  cases hold : r.holder tx.marker with
  | none =>
    have hnone := (holder_eq_none hr).mp hold
    have hadm : r.Admits tx := fun t ht => by
      rw [hold] at ht
      cases ht
    simp [hnone, hadm, vacate, hold, inherited]
  | some o =>
    obtain ⟨ho, hmarker⟩ := (holder_eq_some hr).mp hold
    have hprov : r.providedMarkers.get tx.marker = some o.tx.hash := hmarker ▸ provided_marker hr ho
    have hprovides : o.provides = tx.provides := by
      rw [ReadyTransaction.provides, (hr.genuine ho).provides_eq, hgen.provides_eq, hmarker]
    have hadm : r.Admits tx ↔ o.gasPrice < tx.gasPrice := by
      unfold Admits
      rw [hold]
      simp
    by_cases hgas : o.gasPrice < tx.gasPrice
    · have hloop := removeLoop_kept_marker hr ho
      rw [hmarker] at hloop
      simp [hprov, hadm, collectReplaced, ho, removeWithMarkers, hloop, vacate, hold,
        inherited, Nat.not_le_of_gt hgas]
    · simp [hprov, hadm, collectReplaced, ho, hprovides, Nat.le_of_not_lt hgas]

theorem linkRequires_eq (hgen : Genuine preimage tx) :
    linkRequires (r.vacate tx).providedMarkers tx.hash (r.vacate tx).readyTx tx.requires =
      .ok (match r.provider tx with
        | none => (r.vacate tx).readyTx
        | some p => (r.vacate tx).readyTx.insert p.tx.hash (p.link tx.hash),
        (r.provider tx).isNone, if (r.provider tx).isSome then 0 else tx.requires.length) := by
  rw [vacate_provided]
  rcases hgen.requires_eq with hnil | ⟨prev, hprev, hreq⟩
  · simp [provider, hnil, linkRequires]
  cases hp : r.provider tx with
  | none =>
    have hnone : r.providedMarkers.get (toMarker prev tx.sender) = none := by
      rw [← holder_eq_none hr]
      simpa [provider, hreq] using hp
    simp [hreq, linkRequires, hnone]
  | some p =>
    obtain ⟨hget, hmem⟩ := (provider_eq_some hr hgen).mp hp
    rw [hreq, mem_singleton] at hmem
    have hprov : r.providedMarkers.get (toMarker prev tx.sender) = some p.tx.hash :=
      hmem ▸ provided_marker hr hget
    simp [hreq, linkRequires, hprov, provider_get_vacate hr hgen hp, ReadyTransaction.link]

/-- A new transaction either replaces the one with its marker or is refused for its price. -/
theorem addTransaction_eq (hgen : Genuine preimage tx)
    (hnew : r.readyTx.get tx.hash = none) (order : IterOrder) : r.addTransaction order ⟨tx, ∅⟩ =
      .ok (if r.Admits tx then
          (r.accept tx, .ok ((r.holder tx.marker).toList.map ReadyTransaction.tx))
        else (r, .error (.replacementUnderpriced tx))) := by
  have hfresh : r.readyTx.contains tx.hash = false := (contains_eq_false _ _).mpr hnew
  unfold addTransaction
  simp only [PendingPoolTransaction.isReady, decide_true, Bool.not_true, Bool.false_eq_true,
    hfresh, replacedTransactions_eq hr hgen order]
  by_cases hadm : r.Admits tx
  · simp only [hadm, if_true, linkRequires_eq hr hgen]
    cases hp : r.provider tx <;>
      simp [accept, hp, vacate_id, vacate_provided, hgen.provides_eq, entry]
  · simp only [hadm, if_false]

end

/-- What accepting `tx` does to a transaction that stays: a provider of a marker that `tx`
requires lists it. -/
def relink (tx : PoolTransaction) (t : ReadyTransaction) : ReadyTransaction :=
  if t.tx.marker ∈ tx.requires then t.link tx.hash else t

@[simp] theorem relink_transaction (tx : PoolTransaction) (t : ReadyTransaction) :
    (relink tx t).transaction = t.transaction := by
  unfold relink
  split <;> rfl

@[simp] theorem relink_tx (tx : PoolTransaction) (t : ReadyTransaction) :
    (relink tx t).tx = t.tx := by
  rw [ReadyTransaction.tx, relink_transaction]
  rfl

section

variable (hr : ReadyInv preimage r)

include hr

theorem get_vacate_relink (hsame : ∀ {t}, r.readyTx.get h = some t → relink tx t = t) :
    (r.vacate tx).readyTx.get h = some t' ↔
      ∃ t, r.readyTx.get h = some t ∧ t.tx.marker ≠ tx.marker ∧ t' = relink tx t := by
  rw [get_vacate hr]
  constructor
  · rintro ⟨ht, hm⟩
    exact ⟨t', ht, hm, (hsame ht).symm⟩
  · rintro ⟨t, ht, hm, heq⟩
    rw [hsame ht] at heq
    exact heq ▸ ⟨ht, hm⟩

/-- The entries after a transaction is accepted. -/
theorem get_accept (hgen : Genuine preimage tx) : (r.accept tx).readyTx.get h = some t' ↔
      h = tx.hash ∧ t' = r.entry tx ∨ h ≠ tx.hash ∧
        ∃ t, r.readyTx.get h = some t ∧ t.tx.marker ≠ tx.marker ∧ t' = relink tx t := by
  unfold accept
  rw [get_insert]
  by_cases hh : h = tx.hash
  · simp [hh, eq_comm]
  rw [if_neg hh]
  simp only [hh, false_and, false_or, ne_eq, not_false_eq_true, true_and]
  cases hp : r.provider tx with
  | none =>
    refine get_vacate_relink hr fun {t} ht => if_neg fun hmem => ?_
    exact (provider_eq_none hr hgen).mp hp ⟨h, t, ht, hmem⟩
  | some p =>
    obtain ⟨hget, hmem⟩ := (provider_eq_some hr hgen).mp hp
    rw [get_insert]
    by_cases hhp : h = p.tx.hash
    · rw [if_pos hhp]
      have hm := ((get_vacate hr).mp (provider_get_vacate hr hgen hp)).2
      have hlink : relink tx p = p.link tx.hash := if_pos hmem
      constructor
      · intro heq
        exact ⟨p, hhp ▸ hget, hm, by rw [hlink, Option.some.inj heq]⟩
      · rintro ⟨t, ht, _, heq⟩
        rw [hhp, hget] at ht
        obtain rfl : p = t := Option.some.inj ht
        rw [heq, hlink]
    · rw [if_neg hhp]
      refine get_vacate_relink hr fun {t} ht => if_neg fun hmem' => hhp ?_
      have hreq := (hgen.mem_requires hmem).1
      rw [hreq, mem_singleton] at hmem'
      exact (eq_of_marker_eq hr ht hget hmem').1

theorem get_accept_self (hgen : Genuine preimage tx) :
    (r.accept tx).readyTx.get tx.hash = some (r.entry tx) :=
  (get_accept hr hgen).mpr (.inl ⟨rfl, rfl⟩)

theorem get_accept_of_ne (hgen : Genuine preimage tx)
    (hnew : r.readyTx.get tx.hash = none) (ht : r.readyTx.get h = some t)
    (hm : t.tx.marker ≠ tx.marker) : (r.accept tx).readyTx.get h = some (relink tx t) := by
  refine (get_accept hr hgen).mpr (.inr ⟨?_, t, ht, hm, rfl⟩)
  intro heq
  rw [heq, hnew] at ht
  cases ht

end

theorem mem_relink_unlocks {u : TxHash} :
    u ∈ (relink tx t).unlocks ↔ u ∈ t.unlocks ∨ u = tx.hash ∧ t.tx.marker ∈ tx.requires := by
  unfold relink
  split
  · next hm => simp [ReadyTransaction.link, hm]
  · next hm => simp [hm]

theorem mem_inherited (hr : ReadyInv preimage r) {u : TxHash} :
    u ∈ r.inherited tx ↔ ∃ o, r.readyTx.get o.tx.hash = some o ∧ o.tx.marker = tx.marker ∧
      u ∈ o.unlocks := by
  simp only [← and_assoc, ← holder_eq_some hr]
  unfold inherited
  cases r.holder tx.marker <;> simp

/-- Accepting a transaction keeps the invariant of the ready queue. -/
theorem accept_inv (hr : ReadyInv preimage r) (hgen : Genuine preimage tx)
    (hnew : r.readyTx.get tx.hash = none) : ReadyInv preimage (r.accept tx) := by
  constructor
  case hash_eq =>
    intro h t ht
    rcases (get_accept hr hgen).mp ht with ⟨rfl, rfl⟩ | ⟨_, s, hs, _, rfl⟩
    · rfl
    · rw [relink_tx]
      exact hr.hash_eq hs
  case genuine =>
    intro h t ht
    rcases (get_accept hr hgen).mp ht with ⟨rfl, rfl⟩ | ⟨_, s, hs, _, rfl⟩
    · exact hgen
    · rw [relink_tx]
      exact hr.genuine hs
  case provided =>
    intro m h
    show (r.providedMarkers.insert tx.marker tx.hash).get m = some h ↔ _
    rw [get_insert]
    by_cases hm : m = tx.marker
    · rw [if_pos hm]
      constructor
      · intro heq
        obtain rfl : tx.hash = h := Option.some.inj heq
        exact ⟨r.entry tx, get_accept_self hr hgen, hgen.mem_provides.mpr hm⟩
      · intro ⟨t, ht, hmem⟩
        rcases (get_accept hr hgen).mp ht with ⟨rfl, rfl⟩ | ⟨_, s, hs, hne, rfl⟩
        · rfl
        · rw [ReadyTransaction.provides, relink_tx] at hmem
          exact absurd (((hr.genuine hs).mem_provides.mp hmem).symm.trans hm) hne
    · rw [if_neg hm, hr.provided m h]
      constructor
      · intro ⟨s, hs, hmem⟩
        have hmarker := (hr.genuine hs).mem_provides.mp hmem
        refine ⟨relink tx s, get_accept_of_ne hr hgen hnew hs ?_, ?_⟩
        · exact fun heq => hm (hmarker.trans heq)
        · rw [ReadyTransaction.provides, relink_tx]
          exact hmem
      · intro ⟨t, ht, hmem⟩
        rcases (get_accept hr hgen).mp ht with ⟨rfl, rfl⟩ | ⟨_, s, hs, _, rfl⟩
        · exact absurd (hgen.mem_provides.mp hmem) hm
        · rw [ReadyTransaction.provides, relink_tx] at hmem
          exact ⟨s, hs, hmem⟩
  case links =>
    intro h t ht u hu
    rcases (get_accept hr hgen).mp ht with ⟨rfl, rfl⟩ | ⟨_, s, hs, _, rfl⟩
    · obtain ⟨o, ho, hmarker, hu⟩ := (mem_inherited hr).mp hu
      obtain ⟨hnonce, hsender⟩ := toMarker_injective hmarker
      have hlink := hr.links ho u hu
      rw [hsender, hnonce] at hlink
      exact hlink
    rw [relink_tx]
    rcases mem_relink_unlocks.mp hu with hu | ⟨rfl, hmem⟩
    · exact hr.links hs u hu
    · obtain ⟨hsender, hnonce⟩ := hgen.nonce_of_requires hmem
      rw [← hgen.sender_eq, ← hgen.nonce_eq]
      exact ⟨hsender.symm, hnonce.symm⟩

/-! ## Pruning -/

theorem removeHash_perm (l : List TxHash) (h : TxHash) : (removeHash l h).Perm (l.erase h) := by
  by_cases hmem : h ∈ l
  · have hlt : l.idxOf h < l.length := idxOf_lt_length_iff.mpr hmem
    have hidx : l.idxOf? h = some (l.idxOf h) :=
      findIdx?_eq_some_iff_findIdx_eq.mpr ⟨hlt, rfl⟩
    obtain ⟨a, rest, hremove⟩ := swapRemove_of_lt hlt
    have hget := getElem?_of_swapRemove hremove
    rw [getElem?_eq_getElem hlt, getElem_idxOf] at hget
    cases hget
    simp only [removeHash, hidx, hremove, Option.elim_some]
    exact ((swapRemove_perm hremove).trans (perm_cons_erase hmem)).cons_inv
  · rw [removeHash_of_not_mem hmem, erase_of_not_mem hmem]

theorem get_releaseUnlocked (ready : HashMap TxHash ReadyTransaction)
    (independent : SortedSet PoolTransactionRef.key) (hashes : List TxHash) (x : TxHash) :
    (releaseUnlocked ready independent hashes).1.get x = (ready.get x).map fun s =>
      { s with requiresOffset := s.requiresOffset + hashes.count x } := by
  induction hashes generalizing ready independent with
  | nil => simp [releaseUnlocked]
  | cons hash hashes ih =>
    unfold releaseUnlocked
    cases hget : ready.get hash with
    | none =>
      rw [ih]
      by_cases hx : x = hash
      · simp [hx, hget]
      · simp [count_cons_of_ne (Ne.symm hx)]
    | some tx =>
      rw [ih, get_insert]
      by_cases hx : x = hash
      · simp [hx, hget, Nat.add_comm, Nat.add_assoc]
      · simp [hx, count_cons_of_ne (Ne.symm hx)]

/-- The list of a provider after a transaction it unlocks is pruned. -/
def unlink (pruned : PoolTransaction) (s : ReadyTransaction) : ReadyTransaction :=
  if s.tx.marker ∈ pruned.requires then
    { s with unlocks := removeHash s.unlocks pruned.hash } else s

@[simp] theorem unlink_transaction (tx : PoolTransaction) (s : ReadyTransaction) :
    (unlink tx s).transaction = s.transaction := by
  unfold unlink
  split <;> rfl

theorem get_prunePrevious (hr : ReadyInv preimage r) (ht : r.readyTx.get h = some t) (x : TxHash) :
    (prunePrevious (r.providedMarkers.remove t.tx.marker) t.tx.hash (r.readyTx.remove h)
      t.requires).1.get x = ((r.readyTx.remove h).get x).map (unlink t.tx) := by
  have hgen := hr.genuine ht
  have hw := without_inv hr ht
  rcases hgen.requires_eq with hnil | ⟨prev, _, hreq⟩
  · have hsame : unlink t.tx = fun s => s := by
      funext s
      simp [unlink, hnil]
    simp [ReadyTransaction.requires, hnil, prunePrevious, hsame]
  have hother : ∀ {y s}, (r.readyTx.remove h).get y = some s →
      s.tx.marker ≠ toMarker prev t.tx.sender → unlink t.tx s = s := by
    intro y s _ hne
    simp [unlink, hreq, hne]
  rw [ReadyTransaction.requires, hreq]
  cases hp : (r.providedMarkers.remove t.tx.marker).get (toMarker prev t.tx.sender) with
  | none =>
    have hfree := (provided_eq_none hw).mp hp
    simp only [prunePrevious, hp, bind_none]
    cases hx : (r.readyTx.remove h).get x with
    | none => rfl
    | some s => rw [map_some, hother hx (hfree x s hx)]
  | some q =>
    obtain ⟨p, hq, hmarker⟩ := (provided_eq_some hw).mp hp
    have hq : (r.readyTx.remove h).get q = some p := hq
    have hlink : unlink t.tx p = { p with unlocks := removeHash p.unlocks t.tx.hash } := by
      simp [unlink, hreq, hmarker]
    simp only [prunePrevious, hp, hq, bind_some, map_some]
    rw [get_insert]
    by_cases hxq : x = q
    · rw [if_pos hxq, hxq, hq, map_some, hlink]
    rw [if_neg hxq]
    cases hx : (r.readyTx.remove h).get x with
    | none => rfl
    | some s =>
      rw [map_some, hother hx]
      intro hm
      exact hxq (eq_of_marker_eq hw hx hq (hm.trans hmarker.symm)).1

/-- The queue after `prune_tags` has taken out the transaction under one marker. -/
def pruneStep (r : ReadyTransactions) (h : TxHash) (t : ReadyTransaction) : ReadyTransactions :=
  (pruneOne r t.tx.marker h t).1

/-- What pruning `t` does to a transaction that stays. -/
def afterPrune (t : ReadyTransaction) (x : TxHash) (s : ReadyTransaction) : ReadyTransaction :=
  { unlink t.tx s with requiresOffset := s.requiresOffset + t.unlocks.count x }

@[simp] theorem afterPrune_transaction (t s : ReadyTransaction) (x : TxHash) :
    (afterPrune t x s).transaction = s.transaction :=
  unlink_transaction t.tx s

@[simp] theorem afterPrune_tx (t s : ReadyTransaction) (x : TxHash) :
    (afterPrune t x s).tx = s.tx := by
  rw [ReadyTransaction.tx, afterPrune_transaction]
  rfl

section

variable (hr : ReadyInv preimage r)

include hr

section

variable (ht : r.readyTx.get h = some t)

include ht

theorem get_pruneStep :
    (r.pruneStep h t).readyTx.get h' = some t' ↔
      h' ≠ h ∧ ∃ s, r.readyTx.get h' = some s ∧ t' = afterPrune t h' s := by
  have heq : (r.pruneStep h t).readyTx.get h' =
      ((r.readyTx.remove h).get h').map (afterPrune t h') := by
    unfold pruneStep pruneOne
    rw [get_releaseUnlocked, get_prunePrevious hr ht, Option.map_map]
    congr 1
    funext s
    have hoff : (unlink t.tx s).requiresOffset = s.requiresOffset := by
      unfold unlink
      split <;> rfl
    simp [afterPrune, hoff]
  rw [heq, map_eq_some_iff, ← exists_and_left]
  refine exists_congr fun s => ?_
  rw [get_remove_eq_some, and_assoc, and_left_comm, eq_comm (a := t')]

/-- Pruning a transaction keeps the invariant of the ready queue. -/
theorem pruneStep_inv : ReadyInv preimage (r.pruneStep h t) := by
  have hw := without_inv hr ht
  constructor
  · intro h' t' ht'
    obtain ⟨_, s, hs, rfl⟩ := (get_pruneStep hr ht).mp ht'
    rw [afterPrune_tx]
    exact hr.hash_eq hs
  · intro h' t' ht'
    obtain ⟨_, s, hs, rfl⟩ := (get_pruneStep hr ht).mp ht'
    rw [afterPrune_tx]
    exact hr.genuine hs
  · intro m h'
    show (r.without h t).providedMarkers.get m = some h' ↔ _
    rw [hw.provided m h']
    constructor
    · intro ⟨s, hs, hm⟩
      obtain ⟨hs, hne⟩ := get_of_remove hs
      refine ⟨afterPrune t h' s, (get_pruneStep hr ht).mpr ⟨hne, s, hs, rfl⟩, ?_⟩
      rw [ReadyTransaction.provides, afterPrune_tx]
      exact hm
    · intro ⟨t', ht', hm⟩
      obtain ⟨hne, s, hs, rfl⟩ := (get_pruneStep hr ht).mp ht'
      rw [ReadyTransaction.provides, afterPrune_tx] at hm
      exact ⟨s, get_remove_eq_some.mpr ⟨hs, hne⟩, hm⟩
  · intro h' t' ht' u hu
    obtain ⟨_, s, hs, rfl⟩ := (get_pruneStep hr ht).mp ht'
    rw [afterPrune_tx]
    have hsub : u ∈ s.unlocks := by
      have hu : u ∈ (unlink t.tx s).unlocks := hu
      unfold unlink at hu
      split at hu
      · exact mem_of_mem_erase ((removeHash_perm _ _).mem_iff.mp hu)
      · exact hu
    exact hr.links hs u hsub

theorem dropProvided_eq :
    dropProvided t.tx.marker t.tx.hash (r.providedMarkers.remove t.tx.marker) t.provides =
      .ok (r.providedMarkers.remove t.tx.marker) := by
  have hagain : (r.providedMarkers.remove t.tx.marker).remove t.tx.marker =
      r.providedMarkers.remove t.tx.marker :=
    remove_of_get_none (get_remove_self _ _)
  simp [ReadyTransaction.provides, (hr.genuine ht).provides_eq, dropProvided, hagain]

theorem pruneLoop_cons (markers : List TxMarker) :
    r.pruneLoop (t.tx.marker :: markers) =
      match (r.pruneStep h t).pruneLoop ((pruneOne r t.tx.marker h t).2.reverse ++ markers) with
      | .error panic => .error panic
      | .ok (r', removed) => .ok (r', t.tx :: removed) := by
  have hdrop : dropProvided t.tx.marker t.tx.hash
      (pruneOne r t.tx.marker h t).1.providedMarkers t.provides =
        .ok (r.providedMarkers.remove t.tx.marker) := dropProvided_eq hr ht
  rw [pruneLoop, provided_marker hr ht]
  dsimp only
  split
  · next hnone =>
    rw [ht] at hnone
    cases hnone
  · next t' ht' =>
    cases ht.symm.trans ht'
    rw [hdrop]
    rfl

end

end

/-- A property that pruning one transaction keeps is kept by `prune_tags`, which never
meets a marker with a stale entry or two transactions under one marker. -/
theorem pruneLoop_induct (I : ReadyTransactions → Prop)
    (hstep : ∀ r h t, ReadyInv preimage r → I r → r.readyTx.get h = some t →
      I (r.pruneStep h t)) (hr : ReadyInv preimage r) (hI : I r) (markers : List TxMarker) :
    ∃ r' removed, r.pruneLoop markers = .ok (r', removed) ∧ ReadyInv preimage r' ∧ I r' := by
  induction hn : pruneMeasure r markers using Nat.strong_induction_on generalizing r markers with
  | _ n ih =>
    cases markers with
    | nil => exact ⟨r, [], by rw [pruneLoop], hr, hI⟩
    | cons m markers =>
      cases hm : r.providedMarkers.get m with
      | none =>
        obtain ⟨r', removed, heq, hr', hI'⟩ := ih _ (by simp [← hn, pruneMeasure]) hr hI markers rfl
        exact ⟨r', removed, by rw [pruneLoop, hm, heq], hr', hI'⟩
      | some h =>
        obtain ⟨t, ht, rfl⟩ := (provided_eq_some hr).mp hm
        have hlt := pruneMeasure_lt t.tx.marker markers (r.providedMarkers.remove t.tx.marker) ht
        rw [hn] at hlt
        obtain ⟨r', removed, heq, hr', hI'⟩ := ih _ hlt (pruneStep_inv hr ht)
          (hstep r h t hr hI ht) _ rfl
        exact ⟨r', t.tx :: removed, by rw [pruneLoop_cons hr ht, heq], hr', hI'⟩

end ReadyTransactions

end Foundry.Anvil.Pool
