import Foundry.Anvil.Pool.Iteration

/-!
# Links between ready transactions

The iterator follows the links, so it is right as long as the links between transactions
that are ready agree with the markers.  Stale links to hashes that are gone do no harm
until such a hash comes back.
-/

namespace Foundry.Anvil.Pool

open List

namespace ReadyTransactions

variable {preimage : Preimage} {r : ReadyTransactions} {h : TxHash} {t : ReadyTransaction}
  {tx : PoolTransaction} {ready : HashMap TxHash ReadyTransaction}
  (independent : SortedSet PoolTransactionRef.key) {hashes : List TxHash} {s : ReadyTransaction}
  {u : TxHash}

/-- Some ready transaction provides a marker that `tx` requires. -/
def Led (r : ReadyTransactions) (tx : PoolTransaction) : Prop :=
  ∃ p tp, r.readyTx.get p = some tp ∧ tp.tx.marker ∈ tx.requires

structure Chained (r : ReadyTransactions) : Prop where
  complete : ∀ {p tp h t}, r.readyTx.get p = some tp → r.readyTx.get h = some t →
    tp.tx.marker ∈ t.tx.requires → h ∈ tp.unlocks
  sound : ∀ {p tp h t}, r.readyTx.get p = some tp → r.readyTx.get h = some t →
    h ∈ tp.unlocks → tp.tx.marker ∈ t.tx.requires
  independent : ∀ x, x ∈ r.independentTransactions ↔
    ∃ h t, r.readyTx.get h = some t ∧ t.transaction = x ∧ ¬ r.Led t.tx
  offset : ∀ {h t}, r.readyTx.get h = some t → r.Led t.tx → t.requiresOffset = 0
  keys : ∀ {h h' t t'}, r.readyTx.get h = some t → r.readyTx.get h' = some t' →
    t.transaction.key = t'.transaction.key → h = h'

/-- The calls that keep the queue chained.  Only an accepted transaction can do harm: when
the id counter has run around, when a list still has its hash from an earlier stay, or when
it comes after a transaction that requires it. -/
def OrderSafe (r : ReadyTransactions) : ReadyCall → Prop
  | .add tx => r.Admits tx →
      (∀ h t, r.readyTx.get h = some t →
        t.transaction.key ≠ (⟨tx, r.id⟩ : PoolTransactionRef).key) ∧
      (∀ p tp, r.readyTx.get p = some tp → tx.hash ∈ tp.unlocks → tp.tx.marker ∈ tx.requires) ∧
      (r.holder tx.marker = none → ∀ h t, r.readyTx.get h = some t → tx.marker ∉ t.requires)
  | _ => True

theorem chained_of_empty (hready : ∀ h, r.readyTx.get h = none)
    (hind : ∀ x, x ∉ r.independentTransactions) : r.Chained := by
  have hno : ∀ {h t}, r.readyTx.get h ≠ some t := by
    intro h t ht
    rw [hready h] at ht
    cases ht
  constructor
  · exact fun hp => absurd hp hno
  · exact fun hp => absurd hp hno
  · intro x
    exact ⟨fun hx => absurd hx (hind x), fun ⟨h, t, ht, _⟩ => absurd ht hno⟩
  · exact fun ht => absurd ht hno
  · exact fun ht => absurd ht hno

/-! ## Adding -/

theorem mem_vacate_independent (hr : ReadyInv preimage r) (hc : r.Chained)
    (tx : PoolTransaction) (x : PoolTransactionRef) :
    x ∈ (r.vacate tx).independentTransactions ↔ ∃ h t, r.readyTx.get h = some t ∧
      t.transaction = x ∧ ¬ r.Led t.tx ∧ t.tx.marker ≠ tx.marker := by
  have hvacate : x ∈ (r.vacate tx).independentTransactions ↔ x ∈ r.independentTransactions ∧
      ∀ o, r.holder tx.marker = some o → x.key ≠ o.transaction.key := by
    unfold vacate
    cases r.holder tx.marker <;> simp
  rw [hvacate, hc.independent x]
  constructor
  · intro ⟨⟨h, t, ht, hx, hled⟩, hkey⟩
    exact ⟨h, t, ht, hx, hled, fun hm => hkey t (hm ▸ holder_of_get hr ht) (by rw [hx])⟩
  · intro ⟨h, t, ht, hx, hled, hm⟩
    refine ⟨⟨h, t, ht, hx, hled⟩, fun o hold hkey => hm ?_⟩
    obtain ⟨ho, hmarker⟩ := (holder_eq_some hr).mp hold
    have hh := hc.keys ht ho (by rw [hx, hkey])
    rw [hh, ho] at ht
    rw [← Option.some.inj ht, hmarker]

/-- A ready transaction has the marker of `tx`. -/
def Held (r : ReadyTransactions) (tx : PoolTransaction) : Prop :=
  ∃ o, r.readyTx.get o.tx.hash = some o ∧ o.tx.marker = tx.marker

theorem led_accept (hr : ReadyInv preimage r) (hgen : Genuine preimage tx)
    (hnew : r.readyTx.get tx.hash = none) {tx' : PoolTransaction}
    (hheld : tx.marker ∈ tx'.requires → r.Held tx) : (r.accept tx).Led tx' ↔ r.Led tx' := by
  constructor
  · intro ⟨p, tp, hp, hm⟩
    rcases (get_accept hr hgen).mp hp with ⟨_, rfl⟩ | ⟨_, s, hs, _, rfl⟩
    · obtain ⟨o, ho, hmarker⟩ := hheld hm
      exact ⟨_, o, ho, hmarker ▸ hm⟩
    · rw [relink_tx] at hm
      exact ⟨p, s, hs, hm⟩
  · intro ⟨p, tp, hp, hm⟩
    by_cases hmarker : tp.tx.marker = tx.marker
    · exact ⟨tx.hash, r.entry tx, get_accept_self hr hgen, hmarker ▸ hm⟩
    · refine ⟨p, relink tx tp, get_accept_of_ne hr hgen hnew hp hmarker, ?_⟩
      rw [relink_tx]
      exact hm

section Accept

variable (hr : ReadyInv preimage r) (hgen : Genuine preimage tx)
  (hnew : r.readyTx.get tx.hash = none) (hc : r.Chained)

include hr hgen hc

theorem complete_accept
    (hheld : ∀ h t, r.readyTx.get h = some t → tx.marker ∈ t.requires → r.Held tx)
    {p h : TxHash} {tp t : ReadyTransaction}
    (hp : (r.accept tx).readyTx.get p = some tp) (ht : (r.accept tx).readyTx.get h = some t)
    (hm : tp.tx.marker ∈ t.tx.requires) : h ∈ tp.unlocks := by
  rcases (get_accept hr hgen).mp hp with ⟨rfl, rfl⟩ | ⟨_, s, hs, hsm, rfl⟩
  · rcases (get_accept hr hgen).mp ht with ⟨rfl, rfl⟩ | ⟨_, t0, ht0, _, rfl⟩
    · exact absurd hm hgen.marker_not_mem_requires
    · rw [relink_tx] at hm
      obtain ⟨o, ho, hmarker⟩ := hheld h t0 ht0 hm
      exact (mem_inherited hr).mpr ⟨o, ho, hmarker, hc.complete ho ht0 (hmarker ▸ hm)⟩
  rw [mem_relink_unlocks]
  rw [relink_tx] at hm
  rcases (get_accept hr hgen).mp ht with ⟨rfl, rfl⟩ | ⟨_, t0, ht0, _, rfl⟩
  · exact .inr ⟨rfl, hm⟩
  · rw [relink_tx] at hm
    exact .inl (hc.complete hs ht0 hm)

theorem sound_accept (hstale : ∀ p tp, r.readyTx.get p = some tp → tx.hash ∈ tp.unlocks →
      tp.tx.marker ∈ tx.requires) {p h : TxHash} {tp t : ReadyTransaction}
    (hp : (r.accept tx).readyTx.get p = some tp) (ht : (r.accept tx).readyTx.get h = some t)
    (hu : h ∈ tp.unlocks) : tp.tx.marker ∈ t.tx.requires := by
  rcases (get_accept hr hgen).mp hp with ⟨rfl, rfl⟩ | ⟨_, s, hs, hsm, rfl⟩
  · obtain ⟨o, ho, hmarker, hu⟩ := (mem_inherited hr).mp hu
    rcases (get_accept hr hgen).mp ht with ⟨rfl, rfl⟩ | ⟨_, t0, ht0, _, rfl⟩
    · exact absurd (hmarker ▸ hstale _ o ho hu) hgen.marker_not_mem_requires
    · rw [relink_tx]
      have hm := hc.sound ho ht0 hu
      rw [hmarker] at hm
      exact hm
  · rw [relink_tx]
    rw [mem_relink_unlocks] at hu
    rcases (get_accept hr hgen).mp ht with ⟨rfl, rfl⟩ | ⟨hneh, t0, ht0, _, rfl⟩
    · rcases hu with hu | ⟨_, hm⟩
      · exact hstale p s hs hu
      · exact hm
    · rw [relink_tx]
      rcases hu with hu | ⟨heq, _⟩
      · exact hc.sound hs ht0 hu
      · exact absurd heq hneh

include hnew

theorem not_led_accept_iff
    (hheld : ∀ h t, r.readyTx.get h = some t → tx.marker ∈ t.requires → r.Held tx)
    (x : PoolTransactionRef) :
    (∃ h t, (r.accept tx).readyTx.get h = some t ∧ t.transaction = x ∧
        ¬ (r.accept tx).Led t.tx) ↔
      x ∈ (r.vacate tx).independentTransactions ∨ x = ⟨tx, r.id⟩ ∧ ¬ r.Led tx := by
  have hself : tx.marker ∈ tx.requires → r.Held tx := fun hm =>
    absurd hm hgen.marker_not_mem_requires
  rw [mem_vacate_independent hr hc tx x]
  constructor
  · intro ⟨h, t, ht, hx, hled⟩
    rcases (get_accept hr hgen).mp ht with ⟨rfl, rfl⟩ | ⟨_, s, hs, hsm, rfl⟩
    · exact .inr ⟨hx.symm, fun hl => hled ((led_accept hr hgen hnew hself).mpr hl)⟩
    · rw [relink_transaction] at hx
      rw [relink_tx, led_accept hr hgen hnew (hheld h s hs)] at hled
      exact .inl ⟨h, s, hs, hx, hled, hsm⟩
  · intro hor
    rcases hor with ⟨h, s, hs, hx, hled, hsm⟩ | ⟨hx, hled⟩
    · refine ⟨h, relink tx s, get_accept_of_ne hr hgen hnew hs hsm, ?_, ?_⟩
      · rw [relink_transaction, hx]
      · rw [relink_tx, led_accept hr hgen hnew (hheld h s hs)]
        exact hled
    · exact ⟨tx.hash, r.entry tx, get_accept_self hr hgen, hx.symm,
        fun hl => hled ((led_accept hr hgen hnew hself).mp hl)⟩

omit hnew

section

variable (hfresh : ∀ h t, r.readyTx.get h = some t →
  t.transaction.key ≠ (⟨tx, r.id⟩ : PoolTransactionRef).key)

include hfresh

theorem mem_accept_independent (x : PoolTransactionRef) :
    x ∈ (r.accept tx).independentTransactions ↔
      x ∈ (r.vacate tx).independentTransactions ∨ x = ⟨tx, r.id⟩ ∧ ¬ r.Led tx := by
  show x ∈ (if (r.provider tx).isSome then (r.vacate tx).independentTransactions
    else (r.vacate tx).independentTransactions.insert ⟨tx, r.id⟩) ↔ _
  cases hp : r.provider tx with
  | none =>
    have hnot : ¬ r.Led tx := (provider_eq_none hr hgen).mp hp
    have hkeys : ∀ b ∈ (r.vacate tx).independentTransactions,
        b.key ≠ (⟨tx, r.id⟩ : PoolTransactionRef).key := by
      intro b hb
      obtain ⟨h, s, hs, rfl, _⟩ := (mem_vacate_independent hr hc tx b).mp hb
      exact hfresh h s hs
    simp only [Option.isSome_none, Bool.false_eq_true, if_false, SortedSet.mem_insert]
    exact or_congr_right (and_congr_right fun _ => iff_of_true hkeys hnot)
  | some p =>
    obtain ⟨hpget, hm⟩ := (provider_eq_some hr hgen).mp hp
    have hled : r.Led tx := ⟨_, p, hpget, hm⟩
    simp [hled]

theorem keys_accept {h h' : TxHash}
    {t t' : ReadyTransaction} (ht : (r.accept tx).readyTx.get h = some t)
    (ht' : (r.accept tx).readyTx.get h' = some t')
    (hkey : t.transaction.key = t'.transaction.key) : h = h' := by
  rcases (get_accept hr hgen).mp ht with ⟨rfl, rfl⟩ | ⟨_, s, hs, _, rfl⟩
  · rcases (get_accept hr hgen).mp ht' with ⟨rfl, rfl⟩ | ⟨_, s', hs', _, rfl⟩
    · rfl
    · rw [relink_transaction] at hkey
      exact absurd hkey.symm (hfresh h' s' hs')
  · rw [relink_transaction] at hkey
    rcases (get_accept hr hgen).mp ht' with ⟨rfl, rfl⟩ | ⟨_, s', hs', _, rfl⟩
    · exact absurd hkey (hfresh h s hs)
    · rw [relink_transaction] at hkey
      exact hc.keys hs hs' hkey

end

include hnew

/-- An accepted transaction keeps the queue chained under its condition. -/
theorem chained_accept (hfresh : ∀ h t, r.readyTx.get h = some t →
      t.transaction.key ≠ (⟨tx, r.id⟩ : PoolTransactionRef).key)
    (hstale : ∀ p tp, r.readyTx.get p = some tp → tx.hash ∈ tp.unlocks → tp.tx.marker ∈ tx.requires)
    (hlate : r.holder tx.marker = none → ∀ h t, r.readyTx.get h = some t →
      tx.marker ∉ t.requires) : (r.accept tx).Chained := by
  have hheld : ∀ h t, r.readyTx.get h = some t → tx.marker ∈ t.requires → r.Held tx := by
    intro h t ht hm
    cases hold : r.holder tx.marker with
    | none => exact absurd hm (hlate hold h t ht)
    | some o => exact ⟨o, (holder_eq_some hr).mp hold⟩
  have hself : tx.marker ∈ tx.requires → r.Held tx := fun hm =>
    absurd hm hgen.marker_not_mem_requires
  constructor
  case complete => exact complete_accept hr hgen hc hheld
  case sound => exact sound_accept hr hgen hc hstale
  case independent =>
    intro x
    rw [mem_accept_independent hr hgen hc hfresh, not_led_accept_iff hr hgen hnew hc hheld]
  case offset =>
    intro h t ht hled
    rcases (get_accept hr hgen).mp ht with ⟨rfl, rfl⟩ | ⟨_, s, hs, _, rfl⟩
    · have hl : r.Led tx := (led_accept hr hgen hnew hself).mp hled
      cases hp : r.provider tx with
      | none => exact absurd hl ((provider_eq_none hr hgen).mp hp)
      | some p => simp [entry, hp]
    · rw [relink_tx, led_accept hr hgen hnew (hheld h s hs)] at hled
      have hoffset := hc.offset hs hled
      unfold relink
      split <;> exact hoffset
  case keys => exact keys_accept hr hgen hc hfresh

end Accept

/-! ## Pruning -/

theorem settled_insert {v : TxHash} {s s' : ReadyTransaction}
    (hle : s.requires.length ≤ s.requiresOffset + 1)
    (hother : v ≠ u → ready.get v = some s' → s'.requires.length ≤ s'.requiresOffset)
    (hs' : (ready.insert u { s with requiresOffset := s.requiresOffset + 1 }).get v = some s') :
    s'.requires.length ≤ s'.requiresOffset := by
  rw [HashMap.get_insert] at hs'
  by_cases hvu : v = u
  · rw [if_pos hvu] at hs'
    rw [← Option.some.inj hs']
    exact hle
  · rw [if_neg hvu] at hs'
    exact hother hvu hs'

theorem releaseUnlocked_settled
    (hsettled : ∀ u ∈ hashes, ∀ s, ready.get u = some s → s.requires.length ≤ s.requiresOffset) :
    (releaseUnlocked ready independent hashes).2 = independent := by
  induction hashes generalizing ready independent with
  | nil => rfl
  | cons u hashes ih =>
    unfold releaseUnlocked
    cases hget : ready.get u with
    | none => exact ih independent fun v hv => hsettled v (mem_cons_of_mem u hv)
    | some s =>
      have hle := hsettled u mem_cons_self s hget
      have hnot : ¬ s.requiresOffset + 1 = s.requires.length := by omega
      dsimp only
      rw [if_neg (by exact hnot)]
      apply ih
      intro v hv s'
      exact settled_insert (by omega) fun _ => hsettled v (mem_cons_of_mem u hv) s'

theorem releaseUnlocked_independent
    (huniq : AtMostOne ready hashes)
    (hlast : ∀ u ∈ hashes, ∀ s, ready.get u = some s → s.requiresOffset + 1 = s.requires.length) :
    ((∀ u ∈ hashes, ready.get u = none) ∧
        (releaseUnlocked ready independent hashes).2 = independent) ∨
      ∃ u ∈ hashes, ∃ s, ready.get u = some s ∧
        (releaseUnlocked ready independent hashes).2 = independent.insert s.transaction := by
  induction hashes with
  | nil => exact .inl ⟨fun u hu => absurd hu not_mem_nil, rfl⟩
  | cons u hashes ih =>
    unfold releaseUnlocked
    cases hget : ready.get u with
    | none =>
      have hrest := ih huniq.tail fun v hv => hlast v (mem_cons_of_mem u hv)
      exact none_or_one_cons hget hrest
    | some s =>
      have hlen := hlast u mem_cons_self s hget
      refine .inr ⟨u, mem_cons_self, s, hget, ?_⟩
      dsimp only
      rw [if_pos (by exact hlen)]
      apply releaseUnlocked_settled
      intro v hv s'
      refine settled_insert (by omega) fun hvu hs' => absurd ?_ hvu
      exact huniq v (mem_cons_of_mem u hv) u mem_cons_self s' s hs' hget

theorem led_pruneStep (hr : ReadyInv preimage r) (ht : r.readyTx.get h = some t)
    (hgen : Genuine preimage tx) :
    (r.pruneStep h t).Led tx ↔ r.Led tx ∧ t.tx.marker ∉ tx.requires := by
  constructor
  · intro ⟨p, tp, hp, hm⟩
    obtain ⟨hne, s, hs, rfl⟩ := (get_pruneStep hr ht).mp hp
    rw [afterPrune_tx] at hm
    refine ⟨⟨p, s, hs, hm⟩, fun hm' => hne ?_⟩
    rw [(hgen.mem_requires hm').1, mem_singleton] at hm
    exact (eq_of_marker_eq hr hs ht hm).1
  · intro ⟨⟨p, tp, hp, hm⟩, hnot⟩
    have hne : p ≠ h := by
      intro heq
      rw [heq, ht] at hp
      obtain rfl : t = tp := Option.some.inj hp
      exact hnot hm
    refine ⟨p, afterPrune t p tp, (get_pruneStep hr ht).mpr ⟨hne, tp, hp, rfl⟩, ?_⟩
    rw [afterPrune_tx]
    exact hm

theorem mem_afterPrune_unlocks {x : TxHash} (hu : u ≠ t.tx.hash) :
    u ∈ (afterPrune t x s).unlocks ↔ u ∈ s.unlocks := by
  show u ∈ (unlink t.tx s).unlocks ↔ _
  unfold unlink
  split
  · rw [(removeHash_perm s.unlocks t.tx.hash).mem_iff]
    exact mem_erase_of_ne hu
  · rfl

/-- A listed transaction requires nothing but the pruned one. -/
theorem unlink_last (hr : ReadyInv preimage r)
    (hc : r.Chained) (ht : r.readyTx.get h = some t) (hu : u ∈ t.unlocks)
    (hs : r.readyTx.get u = some s) :
    (unlink t.tx s).requiresOffset + 1 = (unlink t.tx s).requires.length := by
  have hm := hc.sound ht hs hu
  have hoffset := hc.offset hs ⟨h, t, ht, hm⟩
  have hrequires := ((hr.genuine hs).mem_requires hm).1
  have hoff : (unlink t.tx s).requiresOffset = s.requiresOffset := by
    unfold unlink
    split <;> rfl
  have hreq : (unlink t.tx s).requires = s.tx.requires := by
    show (unlink t.tx s).transaction.transaction.requires = _
    rw [unlink_transaction]
    rfl
  rw [hoff, hoffset, hreq, hrequires, length_singleton]

theorem Chained.key_ne_of_led (hc : r.Chained)
    (hs : r.readyTx.get u = some s) (hled : r.Led s.tx) {b : PoolTransactionRef}
    (hb : b ∈ r.independentTransactions) : b.key ≠ s.transaction.key := by
  intro hkey
  obtain ⟨h', t', ht', rfl, hnot⟩ := (hc.independent b).mp hb
  have hh := hc.keys ht' hs hkey
  rw [hh, hs] at ht'
  obtain rfl : s = t' := Option.some.inj ht'
  exact hnot hled

theorem pruneStep_independent (hr : ReadyInv preimage r) (hc : r.Chained)
    (ht : r.readyTx.get h = some t) (x : PoolTransactionRef) :
    x ∈ (r.pruneStep h t).independentTransactions ↔
      (x ∈ r.independentTransactions ∧ x.key ≠ t.transaction.key) ∨
        ∃ u s, u ∈ t.unlocks ∧ r.readyTx.get u = some s ∧ s.transaction = x := by
  have hget : ∀ u ∈ t.unlocks, ∀ s,
      (prunePrevious (r.providedMarkers.remove t.tx.marker) t.tx.hash (r.readyTx.remove h)
        t.requires).1.get u = some s ↔ ∃ s0, r.readyTx.get u = some s0 ∧ unlink t.tx s0 = s := by
    intro u hu s
    have hne : u ≠ h := fun heq => not_mem_unlocks_self hr ht (heq ▸ hu)
    rw [get_prunePrevious hr ht, HashMap.get_remove_of_ne _ hne, Option.map_eq_some_iff]
  unfold pruneStep pruneOne
  dsimp only
  generalize (prunePrevious (r.providedMarkers.remove t.tx.marker) t.tx.hash (r.readyTx.remove h)
    t.requires).1 = ready at hget
  have huniq : AtMostOne ready t.unlocks := by
    intro u hu u' hu' s s' hs hs'
    obtain ⟨s0, hs0, _⟩ := (hget u hu s).mp hs
    obtain ⟨s0', hs0', _⟩ := (hget u' hu' s').mp hs'
    exact TransactionsIterator.listed_unique hr ht u hu u' hu' s0 s0' hs0 hs0'
  have hlast : ∀ u ∈ t.unlocks, ∀ s, ready.get u = some s →
      s.requiresOffset + 1 = s.requires.length := by
    intro u hu s hs
    obtain ⟨s0, hs0, rfl⟩ := (hget u hu s).mp hs
    exact unlink_last hr hc ht hu hs0
  rcases releaseUnlocked_independent (r.independentTransactions.remove t.transaction) huniq hlast
    with ⟨hnone, heq⟩ | ⟨u, hu, s, hs, heq⟩
  · rw [heq, SortedSet.mem_remove]
    refine (or_iff_left ?_).symm
    intro ⟨u, s, hu, hs, _⟩
    have hsome := (hget u hu _).mpr ⟨s, hs, rfl⟩
    rw [hnone u hu] at hsome
    cases hsome
  obtain ⟨s0, hs0, rfl⟩ := (hget u hu s).mp hs
  rw [heq, SortedSet.mem_insert, SortedSet.mem_remove, unlink_transaction]
  refine or_congr_right ⟨fun ⟨hx, _⟩ => ⟨u, s0, hu, hs0, hx.symm⟩, ?_⟩
  intro ⟨u', s', hu', hs', hx⟩
  have huu := TransactionsIterator.listed_unique hr ht u hu u' hu' s0 s' hs0 hs'
  rw [← huu, hs0] at hs'
  obtain rfl : s0 = s' := Option.some.inj hs'
  have hled : r.Led s0.tx := ⟨h, t, ht, hc.sound ht hs0 hu⟩
  exact ⟨hx.symm, fun b hb => hc.key_ne_of_led hs0 hled (SortedSet.mem_remove.mp hb).1⟩

/-- Pruning a transaction keeps the queue chained. -/
theorem chained_pruneStep (hr : ReadyInv preimage r) (hc : r.Chained)
    (ht : r.readyTx.get h = some t) : (r.pruneStep h t).Chained := by
  have hlinks : ∀ {p tp x s}, (r.pruneStep h t).readyTx.get p = some tp →
      (r.pruneStep h t).readyTx.get x = some s →
        (x ∈ tp.unlocks ↔ tp.tx.marker ∈ s.tx.requires) := by
    intro p tp x s hp hs
    obtain ⟨_, p0, hp0, rfl⟩ := (get_pruneStep hr ht).mp hp
    obtain ⟨hxh, s0, hs0, rfl⟩ := (get_pruneStep hr ht).mp hs
    rw [mem_afterPrune_unlocks (by rwa [hr.hash_eq ht]), afterPrune_tx, afterPrune_tx]
    exact ⟨hc.sound hp0 hs0, hc.complete hp0 hs0⟩
  constructor
  · exact fun hp hs => (hlinks hp hs).mpr
  · exact fun hp hs => (hlinks hp hs).mp
  · intro x
    rw [pruneStep_independent hr hc ht x]
    constructor
    · intro hor
      rcases hor with ⟨hx, hkey⟩ | ⟨u, s, hu, hs, hx⟩
      · obtain ⟨h', s, hs, rfl, hled⟩ := (hc.independent x).mp hx
        have hne : h' ≠ h := by
          intro heq
          rw [heq, ht] at hs
          obtain rfl : t = s := Option.some.inj hs
          exact hkey rfl
        refine ⟨h', afterPrune t h' s, (get_pruneStep hr ht).mpr ⟨hne, s, hs, rfl⟩,
          afterPrune_transaction t s h', ?_⟩
        rw [afterPrune_tx, led_pruneStep hr ht (hr.genuine hs)]
        exact fun hl => hled hl.1
      · have hne : u ≠ h := fun heq => not_mem_unlocks_self hr ht (heq ▸ hu)
        refine ⟨u, afterPrune t u s, (get_pruneStep hr ht).mpr ⟨hne, s, hs, rfl⟩, ?_, ?_⟩
        · rw [afterPrune_transaction, hx]
        · rw [afterPrune_tx, led_pruneStep hr ht (hr.genuine hs)]
          exact fun hl => hl.2 (hc.sound ht hs hu)
    · intro ⟨h', t', ht', hx, hled⟩
      obtain ⟨hne, s, hs, rfl⟩ := (get_pruneStep hr ht).mp ht'
      rw [afterPrune_transaction] at hx
      rw [afterPrune_tx, led_pruneStep hr ht (hr.genuine hs)] at hled
      by_cases hm : t.tx.marker ∈ s.tx.requires
      · exact .inr ⟨h', s, hc.complete ht hs hm, hs, hx⟩
      · refine .inl ⟨(hc.independent x).mpr ⟨h', s, hs, hx, fun hl => hled ⟨hl, hm⟩⟩, ?_⟩
        intro hkey
        exact hne (hc.keys hs ht (by rw [hx, hkey]))
  · intro h' t' ht' hled
    obtain ⟨_, s, hs, rfl⟩ := (get_pruneStep hr ht).mp ht'
    rw [afterPrune_tx, led_pruneStep hr ht (hr.genuine hs)] at hled
    have hcount : t.unlocks.count h' = 0 := by
      apply count_eq_zero_of_not_mem
      exact fun hu => hled.2 (hc.sound ht hs hu)
    show s.requiresOffset + t.unlocks.count h' = 0
    rw [hcount, hc.offset hs hled.1]
  · intro h1 h2 t1 t2 ht1 ht2 hkey
    obtain ⟨_, s1, hs1, rfl⟩ := (get_pruneStep hr ht).mp ht1
    obtain ⟨_, s2, hs2, rfl⟩ := (get_pruneStep hr ht).mp ht2
    rw [afterPrune_transaction, afterPrune_transaction] at hkey
    exact hc.keys hs1 hs2 hkey

/-! ## Removing -/

/-- Whoever loses its provider is removed with it. -/
theorem chained_remove (hr : ReadyInv preimage r) (hc : r.Chained) :
    (r.removeWithMarkers hashes none).1.Chained := by
  obtain ⟨_, hrem⟩ := removeWithMarkers_spec hr hashes
  have hkept : ∀ {x s}, (r.removeWithMarkers hashes none).1.readyTx.get x = some s →
      r.readyTx.get x = some s ∧ ¬ Cascade r.readyTx hashes x := hrem.get_eq_some.mp
  have hled : ∀ {x s}, (r.removeWithMarkers hashes none).1.readyTx.get x = some s →
      ((r.removeWithMarkers hashes none).1.Led s.tx ↔ r.Led s.tx) := by
    intro x s hs
    obtain ⟨hs, hnot⟩ := hkept hs
    constructor
    · intro ⟨p, tp, hp, hm⟩
      exact ⟨p, tp, (hkept hp).1, hm⟩
    · intro ⟨p, tp, hp, hm⟩
      have hpnot : ¬ Cascade r.readyTx hashes p :=
        fun hcas => hnot (.link hcas hp (hc.complete hp hs hm) hs)
      exact ⟨p, tp, hrem.get_eq_some.mpr ⟨hp, hpnot⟩, hm⟩
  constructor
  · intro p tp x s hp hs hm
    exact hc.complete (hkept hp).1 (hkept hs).1 hm
  · intro p tp x s hp hs hu
    exact hc.sound (hkept hp).1 (hkept hs).1 hu
  · intro x
    rw [hrem.independent x, hc.independent x]
    constructor
    · intro ⟨⟨h, t, ht, hx, hnot⟩, hall⟩
      have hcas : ¬ Cascade r.readyTx hashes h := by
        intro hcas
        exact hall h t hcas ht (by rw [hx])
      have hget := hrem.get_eq_some.mpr ⟨ht, hcas⟩
      exact ⟨h, t, hget, hx, fun hl => hnot ((hled hget).mp hl)⟩
    · intro ⟨h, t, ht, hx, hnot⟩
      refine ⟨⟨h, t, (hkept ht).1, hx, fun hl => hnot ((hled ht).mpr hl)⟩, ?_⟩
      intro h' t' hcas ht' hkey
      rw [← hx] at hkey
      have heq := hc.keys (hkept ht).1 ht' hkey
      exact (hkept ht).2 (heq ▸ hcas)
  · intro h t ht hl
    exact hc.offset (hkept ht).1 ((hled ht).mp hl)
  · intro h h' t t' ht ht' hkey
    exact hc.keys (hkept ht).1 (hkept ht').1 hkey

theorem orderSafe_keeps {call : ReadyTransactions × ReadyCall}
    (hsafe : call.1.OrderSafe call.2) : PoolInner.Keeps preimage Chained call := by
  obtain ⟨r, call⟩ := call
  intro hr hproper hc
  cases call with
  | add tx =>
    obtain ⟨hgen, hnew⟩ := hproper
    show (r.offer tx).Chained
    unfold offer
    split
    · next hadm =>
      obtain ⟨hfresh, hstale, hlate⟩ := hsafe hadm
      exact chained_accept hr hgen hnew hc hfresh hstale hlate
    · exact hc
  | prune marker =>
    obtain ⟨r', removed, heq, _, hc'⟩ := pruneLoop_induct Chained
      (fun r h t hr hc ht => chained_pruneStep hr hc ht) hr hc [marker]
    have heq : r.pruneTags marker = .ok (r', removed) := heq
    simpa [ReadyCall.after, heq] using hc'
  | remove hashes => exact chained_remove hr hc
  | clear => exact chained_of_empty (fun h => rfl) (fun x hx => SortedSet.not_mem_empty x hx)

end ReadyTransactions

end Foundry.Anvil.Pool
