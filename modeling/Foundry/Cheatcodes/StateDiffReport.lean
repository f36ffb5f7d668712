import Foundry.Base.HashMap
import Foundry.Base.NetChange
import Foundry.Cheatcodes.StateDiff

/-!
# Reported state diffs

`getStateDiff` sums up the recorded accesses: for each account the change of its balance, of its
nonce and of its slots.  Each is folded from the accesses in their order; the first one gives the
previous value, and every later one the new value.
-/

namespace Foundry.Cheatcodes

open List

structure SlotStateDiff (Info : Type) where
  change : Change U256
  slotInfo : Option Info

structure AccountStateDiffs (Info : Type) where
  label : Option String
  contract : Option String
  balanceDiff : Option (Change U256)
  nonceDiff : Option (Change U64)
  stateDiff : HashMap U256 (SlotStateDiff Info)

/-- The labels, the known contracts, and the decoding of slots by their layouts. -/
structure DiffConfig (Info : Type) where
  label : Address → Option String
  contract : Address → Option String
  /-- The slot of an account, the writes of the access, and the values. -/
  slotInfo : Address → U256 → List StorageAccess → Change U256 → Option Info
  decodeValues : Info → Change U256 → Info

abbrev StateDiffs (Info : Type) := HashMap Address (AccountStateDiffs Info)

def AccountAccess.writes (access : AccountAccess) : List StorageAccess :=
  access.storageAccesses.filter fun storage => storage.isWrite && !storage.reverted

def addressesToLookup (records : List AccountAccess) : List Address :=
  records.flatMap fun access =>
    if access.storageAccesses ≠ [] ∨ access.oldBalance ≠ access.newBalance then
      access.account :: access.writes.map StorageAccess.account
    else []

section Report

variable {Info : Type} (config : DiffConfig Info) (lookup : List Address)

def freshDiffs (account : Address) : AccountStateDiffs Info where
  label := config.label account
  contract := if account ∈ lookup then config.contract account else none
  balanceDiff := none
  nonceDiff := none
  stateDiff := .empty

/-- Changes the diffs of an account, which may have none yet. -/
def StateDiffs.modify (diffs : StateDiffs Info) (account : Address)
    (f : AccountStateDiffs Info → AccountStateDiffs Info) : StateDiffs Info :=
  diffs.insert account (f ((diffs.get account).getD (freshDiffs config lookup account)))

def recordChange {α : Type} [DecidableEq α] (field : AccountStateDiffs Info → Option (Change α))
    (set : Option (Change α) → AccountStateDiffs Info → AccountStateDiffs Info)
    (diffs : StateDiffs Info) (account : Address) (change : Change α) : StateDiffs Info :=
  if change.previousValue ≠ change.newValue then
    diffs.modify config lookup account fun diff => set (Change.track (field diff) change) diff
  else diffs

def recordBalanceDiff (diffs : StateDiffs Info) (access : AccountAccess) : StateDiffs Info :=
  recordChange config lookup AccountStateDiffs.balanceDiff
    (fun balanceDiff diff => { diff with balanceDiff }) diffs access.account
    ⟨access.oldBalance, access.newBalance⟩

def recordNonceDiff (diffs : StateDiffs Info) (access : AccountAccess) : StateDiffs Info :=
  recordChange config lookup AccountStateDiffs.nonceDiff
    (fun nonceDiff diff => { diff with nonceDiff }) diffs access.account
    ⟨access.oldNonce, access.newNonce⟩

def slotDiff (writes : List StorageAccess) (storage : StorageAccess)
    (diff : Option (SlotStateDiff Info)) : SlotStateDiff Info :=
  match diff with
  | none =>
    let change := ⟨storage.previousValue, storage.newValue⟩
    ⟨change, if storage.account ∈ lookup then
      config.slotInfo storage.account storage.slot writes change else none⟩
  | some diff =>
    let change := ⟨diff.change.previousValue, storage.newValue⟩
    ⟨change, diff.slotInfo.map fun info => config.decodeValues info change⟩

def recordSlotDiff (writes : List StorageAccess) (diffs : StateDiffs Info)
    (storage : StorageAccess) : StateDiffs Info :=
  diffs.modify config lookup storage.account fun diff =>
    { diff with
      stateDiff := diff.stateDiff.insert storage.slot
        (slotDiff config lookup writes storage (diff.stateDiff.get storage.slot)) }

def recordDiffs (diffs : StateDiffs Info) (access : AccountAccess) : StateDiffs Info :=
  let diffs := recordBalanceDiff config lookup diffs access
  let diffs := recordNonceDiff config lookup diffs access
  access.writes.foldl (recordSlotDiff config lookup access.writes) diffs

/-- The accesses that may have changed something. -/
def AccountAccess.changes (access : AccountAccess) : Bool :=
  access.storageAccesses ≠ [] || access.oldBalance ≠ access.newBalance ||
    access.oldNonce ≠ access.newNonce

end Report

def getRecordedStateDiffs {Info : Type} (config : DiffConfig Info) (records : List AccountAccess) :
    StateDiffs Info :=
  (records.filter AccountAccess.changes).foldl (recordDiffs config (addressesToLookup records))
    .empty

/-! ## What is reported -/

def AccountStateDiffs.slotChange {Info : Type} (slot : U256) (diff : AccountStateDiffs Info) :
    Option (Change U256) :=
  (diff.stateDiff.get slot).map SlotStateDiff.change

namespace StateDiffs

variable {Info : Type}

def balanceDiff (diffs : StateDiffs Info) (account : Address) : Option (Change U256) :=
  (diffs.get account).bind AccountStateDiffs.balanceDiff

def nonceDiff (diffs : StateDiffs Info) (account : Address) : Option (Change U64) :=
  (diffs.get account).bind AccountStateDiffs.nonceDiff

def slotDiff (diffs : StateDiffs Info) (account : Address) (slot : U256) :
    Option (Change U256) :=
  (diffs.get account).bind (AccountStateDiffs.slotChange slot)

end StateDiffs

def recordedChange {α : Type} [DecidableEq α] (account recorded : Address) (change : Change α) :
    Option (Change α) :=
  if recorded = account ∧ change.previousValue ≠ change.newValue then some change else none

def AccountAccess.balanceChange (account : Address) (access : AccountAccess) :
    Option (Change U256) :=
  recordedChange account access.account ⟨access.oldBalance, access.newBalance⟩

def AccountAccess.nonceChange (account : Address) (access : AccountAccess) : Option (Change U64) :=
  recordedChange account access.account ⟨access.oldNonce, access.newNonce⟩

def StorageAccess.slotChange (account : Address) (slot : U256) (storage : StorageAccess) :
    Option (Change U256) :=
  if storage.account = account ∧ storage.slot = slot then
    some ⟨storage.previousValue, storage.newValue⟩
  else none

def trackOption {α : Type} (diff change : Option (Change α)) : Option (Change α) :=
  match change with
  | some change => Change.track diff change
  | none => diff

theorem foldl_trackOption {α β : Type} (f : β → Option (Change α)) (items : List β)
    (diff : Option (Change α)) :
    items.foldl (fun diff item => trackOption diff (f item)) diff =
      (items.filterMap f).foldl Change.track diff := by
  induction items generalizing diff with
  | nil => rfl
  | cons item items ih =>
    rw [foldl_cons, ih, filterMap_cons]
    cases f item <;> rfl

theorem filterMap_filter_of_eq_none {α β : Type} {p : α → Bool} {f : α → Option β}
    (h : ∀ item, p item = false → f item = none) (items : List α) :
    (items.filter p).filterMap f = items.filterMap f := by
  rw [filterMap_filter]
  refine filterMap_congr fun item _ => ?_
  cases hitem : p item with
  | true => rfl
  | false => rw [h item hitem]; rfl

section Report

variable {Info : Type} (config : DiffConfig Info) (lookup : List Address) {β : Type}
  {p : AccountStateDiffs Info → Option β}

namespace StateDiffs

theorem get_modify_bind (diffs : StateDiffs Info) (account account' : Address)
    (g : AccountStateDiffs Info → AccountStateDiffs Info) :
    ((diffs.modify config lookup account g).get account').bind p =
      if account' = account then
        p (g ((diffs.get account).getD (freshDiffs config lookup account)))
      else (diffs.get account').bind p := by
  rw [StateDiffs.modify, HashMap.get_insert]
  split <;> rfl

theorem getD_fresh (diffs : StateDiffs Info) (account : Address)
    (h : p (freshDiffs config lookup account) = none) :
    p ((diffs.get account).getD (freshDiffs config lookup account)) =
      (diffs.get account).bind p := by
  cases diffs.get account with
  | none => exact h
  | some diff => rfl

theorem get_modify_bind_of_eq (diffs : StateDiffs Info) (account account' : Address)
    {g : AccountStateDiffs Info → AccountStateDiffs Info} (hg : ∀ diff, p (g diff) = p diff)
    (h : p (freshDiffs config lookup account) = none) :
    ((diffs.modify config lookup account g).get account').bind p = (diffs.get account').bind p := by
  rw [get_modify_bind, hg, getD_fresh config lookup diffs account h]
  split
  · next heq => rw [heq]
  · rfl

end StateDiffs

section

variable (p) {α : Type} [DecidableEq α] {field : AccountStateDiffs Info → Option (Change α)}
  {set : Option (Change α) → AccountStateDiffs Info → AccountStateDiffs Info}

theorem recordChange_bind_of_eq (hset : ∀ value diff, p (set value diff) = p diff)
    (h : ∀ account, p (freshDiffs config lookup account) = none) (diffs : StateDiffs Info)
    (account account' : Address) (change : Change α) :
    ((recordChange config lookup field set diffs account change).get account').bind p =
      (diffs.get account').bind p := by
  unfold recordChange
  split
  · exact diffs.get_modify_bind_of_eq config lookup _ _ (fun diff => hset _ diff) (h account)
  · rfl

theorem recordChange_bind (hset : ∀ value diff, field (set value diff) = value)
    (h : ∀ account, field (freshDiffs config lookup account) = none) (diffs : StateDiffs Info)
    (account account' : Address) (change : Change α) :
    ((recordChange config lookup field set diffs account change).get account').bind field =
      trackOption ((diffs.get account').bind field) (recordedChange account' account change) := by
  unfold recordChange recordedChange
  by_cases hchange : change.previousValue = change.newValue
  · simp [hchange, trackOption]
  by_cases haccount : account = account'
  · subst haccount
    simp only [hchange, ne_eq, not_false_eq_true, if_true, and_self, trackOption]
    rw [StateDiffs.get_modify_bind, if_pos rfl, hset,
      StateDiffs.getD_fresh config lookup diffs account (h account)]
  · simp only [hchange, ne_eq, not_false_eq_true, if_true, haccount, false_and, if_false,
      trackOption]
    rw [StateDiffs.get_modify_bind, if_neg (Ne.symm haccount)]

theorem foldl_recordSlotDiff_bind
    (hp : ∀ (diff : AccountStateDiffs Info) stateDiff, p { diff with stateDiff } = p diff)
    (h : ∀ account, p (freshDiffs config lookup account) = none) (writes : List StorageAccess)
    (storages : List StorageAccess) (diffs : StateDiffs Info) (account : Address) :
    ((storages.foldl (recordSlotDiff config lookup writes) diffs).get account).bind p =
      (diffs.get account).bind p := by
  induction storages generalizing diffs with
  | nil => rfl
  | cons storage storages ih =>
    rw [foldl_cons, ih, recordSlotDiff, StateDiffs.get_modify_bind_of_eq]
    · exact fun diff => hp diff _
    · exact h storage.account

end

/-! ## One access -/

section Access

variable (diffs : StateDiffs Info) (access : AccountAccess) (account : Address)
  (writes : List StorageAccess) (storage : StorageAccess)

theorem balanceDiff_recordDiffs :
    (recordDiffs config lookup diffs access).balanceDiff account =
      trackOption (diffs.balanceDiff account) (access.balanceChange account) := by
  have hslots := foldl_recordSlotDiff_bind config lookup AccountStateDiffs.balanceDiff
    (fun _ _ => rfl) (fun _ => rfl) access.writes access.writes
  have hnonce : ∀ diffs : StateDiffs Info,
      (recordNonceDiff config lookup diffs access).balanceDiff account =
        diffs.balanceDiff account := by
    intro diffs
    refine recordChange_bind_of_eq config lookup AccountStateDiffs.balanceDiff ?_ ?_ diffs _ _ _
      <;> intros <;> rfl
  refine (hslots _ account).trans ((hnonce _).trans ?_)
  exact recordChange_bind config lookup (fun _ _ => rfl) (fun _ => rfl) _ _ _ _

theorem nonceDiff_recordDiffs :
    (recordDiffs config lookup diffs access).nonceDiff account =
      trackOption (diffs.nonceDiff account) (access.nonceChange account) := by
  have hslots := foldl_recordSlotDiff_bind config lookup AccountStateDiffs.nonceDiff
    (fun _ _ => rfl) (fun _ => rfl) access.writes access.writes
  have hbalance : (recordBalanceDiff config lookup diffs access).nonceDiff account =
      diffs.nonceDiff account := by
    refine recordChange_bind_of_eq config lookup AccountStateDiffs.nonceDiff ?_ ?_ diffs _ _ _
      <;> intros <;> rfl
  rw [← hbalance]
  refine (hslots _ account).trans ?_
  exact recordChange_bind config lookup (fun _ _ => rfl) (fun _ => rfl) _ _ _ _

theorem change_slotDiff (diff : Option (SlotStateDiff Info)) :
    some (slotDiff config lookup writes storage diff).change =
      Change.track (diff.map SlotStateDiff.change) ⟨storage.previousValue, storage.newValue⟩ := by
  cases diff <;> rfl

theorem slotDiff_recordSlotDiff (slot : U256) :
    (recordSlotDiff config lookup writes diffs storage).slotDiff account slot =
      trackOption (diffs.slotDiff account slot) (storage.slotChange account slot) := by
  have hbind := diffs.get_modify_bind config lookup storage.account account
    (p := AccountStateDiffs.slotChange slot) fun diff =>
      { diff with
        stateDiff := diff.stateDiff.insert storage.slot
          (slotDiff config lookup writes storage (diff.stateDiff.get storage.slot)) }
  have hfresh := diffs.getD_fresh config lookup storage.account
    (p := AccountStateDiffs.slotChange slot) rfl
  refine Eq.trans hbind ?_
  unfold StorageAccess.slotChange
  by_cases haccount : storage.account = account
  · subst haccount
    by_cases hslot : storage.slot = slot
    · subst hslot
      simp only [AccountStateDiffs.slotChange, HashMap.get_insert_self,
        Option.map_some, change_slotDiff]
      exact congrArg (Change.track · _) hfresh
    · simp only [if_true, hslot]
      refine Eq.trans ?_ hfresh
      simp only [AccountStateDiffs.slotChange, HashMap.get_insert_of_ne _ _ (Ne.symm hslot)]
  · simp only [haccount, Ne.symm haccount]
    rfl

theorem slotDiff_recordDiffs (slot : U256) :
    (recordDiffs config lookup diffs access).slotDiff account slot =
      (access.writes.filterMap (StorageAccess.slotChange account slot)).foldl Change.track
        (diffs.slotDiff account slot) := by
  have hfold : ∀ (storages : List StorageAccess) (diffs : StateDiffs Info),
      (storages.foldl (recordSlotDiff config lookup access.writes) diffs).slotDiff account slot =
        (storages.filterMap (StorageAccess.slotChange account slot)).foldl Change.track
          (diffs.slotDiff account slot) := by
    intro storages diffs
    rw [← foldl_trackOption]
    induction storages generalizing diffs with
    | nil => rfl
    | cons storage storages ih =>
      rw [foldl_cons, ih, slotDiff_recordSlotDiff, foldl_cons]
  have hbalance : (recordBalanceDiff config lookup diffs access).slotDiff account slot =
      diffs.slotDiff account slot := by
    refine recordChange_bind_of_eq config lookup (AccountStateDiffs.slotChange slot) ?_ ?_ diffs
      _ _ _ <;> intros <;> rfl
  have hnonce : ∀ diffs : StateDiffs Info,
      (recordNonceDiff config lookup diffs access).slotDiff account slot =
        diffs.slotDiff account slot := by
    intro diffs
    refine recordChange_bind_of_eq config lookup (AccountStateDiffs.slotChange slot) ?_ ?_ diffs
      _ _ _ <;> intros <;> rfl
  rw [recordDiffs, hfold, hnonce, hbalance]

end Access

/-! ## All accesses -/

variable (records : List AccountAccess) (account : Address)

/-- A part of the diffs to which each access adds its changes is the fold of all changes. -/
theorem read_getRecordedStateDiffs {α : Type} (read : StateDiffs Info → Option (Change α))
    {changes : AccountAccess → List (Change α)}
    (hread : ∀ lookup diffs access, read (recordDiffs config lookup diffs access) =
      (changes access).foldl Change.track (read diffs))
    (hquiet : ∀ access, access.changes = false → changes access = []) :
    read (getRecordedStateDiffs config records) =
      (records.flatMap changes).foldl Change.track (read .empty) := by
  have hfold : ∀ (accesses : List AccountAccess) (diffs : StateDiffs Info),
      read ((accesses.filter AccountAccess.changes).foldl
          (recordDiffs config (addressesToLookup records)) diffs) =
        (accesses.flatMap changes).foldl Change.track (read diffs) := by
    intro accesses
    induction accesses with
    | nil => intro diffs; rfl
    | cons access accesses ih =>
      intro diffs
      rw [flatMap_cons, foldl_append, filter_cons]
      split
      · rw [foldl_cons, ih, hread]
      · next hchanges =>
        rw [ih, hquiet access (Bool.eq_false_of_not_eq_true hchanges)]
        rfl
  exact hfold records .empty

theorem balanceDiff_getRecordedStateDiffs :
    (getRecordedStateDiffs config records).balanceDiff account =
      (records.filterMap (AccountAccess.balanceChange account)).foldl Change.track none := by
  rw [filterMap_eq_flatMap_toList]
  refine read_getRecordedStateDiffs config records (StateDiffs.balanceDiff · account) ?_ ?_
  · intro lookup diffs access
    rw [balanceDiff_recordDiffs]
    cases access.balanceChange account <;> rfl
  · intro access hchanges
    simp_all [AccountAccess.changes, AccountAccess.balanceChange, recordedChange]

theorem nonceDiff_getRecordedStateDiffs :
    (getRecordedStateDiffs config records).nonceDiff account =
      (records.filterMap (AccountAccess.nonceChange account)).foldl Change.track none := by
  rw [filterMap_eq_flatMap_toList]
  refine read_getRecordedStateDiffs config records (StateDiffs.nonceDiff · account) ?_ ?_
  · intro lookup diffs access
    rw [nonceDiff_recordDiffs]
    cases access.nonceChange account <;> rfl
  · intro access hchanges
    simp_all [AccountAccess.changes, AccountAccess.nonceChange, recordedChange]

theorem slotDiff_getRecordedStateDiffs (slot : U256) :
    (getRecordedStateDiffs config records).slotDiff account slot =
      ((records.flatMap AccountAccess.writes).filterMap
        (StorageAccess.slotChange account slot)).foldl Change.track none := by
  rw [filterMap_flatMap]
  refine read_getRecordedStateDiffs config records (StateDiffs.slotDiff · account slot) ?_ ?_
  · intro lookup diffs access
    exact slotDiff_recordDiffs config lookup diffs access account slot
  · intro access hchanges
    simp_all [AccountAccess.changes, AccountAccess.writes]

end Report

end Foundry.Cheatcodes
