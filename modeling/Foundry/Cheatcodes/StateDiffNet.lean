import Foundry.Cheatcodes.StateDiffReport
import Foundry.Cheatcodes.StateDiffTrees

/-!
# Net effects

The reported changes of an account are compared with the values that it had before the first and
after the last access that took effect, that is, with its call and all calls around it a success.
The report takes the marks of calls that reverted, not of those that halted, and for balances and
nonces it takes all recorded accesses, with the values of the account that a call runs for and not
of the one whose code it runs.
-/

namespace Foundry.Cheatcodes

open List

namespace RecordedTree

/-! ## What took effect -/

/-- An access of an account: whether it was undone, and the account before and after. -/
structure Visit where
  account : Address
  undone : Bool
  before : AccountInfo
  after : AccountInfo

def visit (account : Address) (undone : Bool) (before after : Journal) : Visit :=
  ⟨account, undone, before.accountOrEmpty account, after.accountOrEmpty account⟩

def opVisits (journal : Journal) (undone : Bool) : RecordedOp → List Visit
  | .extcodecopy target | .extcodesize target | .extcodehash target | .balance target =>
    [visit target undone journal journal]
  | .selfdestruct _ | .sload _ | .sstore _ _ => []

mutual

def opened (undone : Bool) : RecordedTree → List Visit
  | call journal inputs body ending =>
    let undone := undone || !ending.status.isOk
    visit inputs.1.bytecodeAddress undone journal ending.journal :: openedAll undone body
  | create journal _ address body ending =>
    let undone := undone || !ending.status.isOk
    visit address undone journal ending.journal :: openedAll undone body
  | .op journal _ code => opVisits journal undone code.1

def openedAll (undone : Bool) : List RecordedTree → List Visit
  | [] => []
  | tree :: trees => tree.opened undone ++ openedAll undone trees

end

mutual

def closed (undone : Bool) : RecordedTree → List Visit
  | call journal inputs body ending =>
    let undone := undone || !ending.status.isOk
    closedAll undone body ++ [visit inputs.1.bytecodeAddress undone journal ending.journal]
  | create journal _ address body ending =>
    let undone := undone || !ending.status.isOk
    closedAll undone body ++ [visit address undone journal ending.journal]
  | .op journal _ code => opVisits journal undone code.1

def closedAll (undone : Bool) : List RecordedTree → List Visit
  | [] => []
  | tree :: trees => tree.closed undone ++ closedAll undone trees

end

def Visit.counts (account : Address) (visit : Visit) : Bool :=
  visit.account = account && !visit.undone

def before (account : Address) (trees : List RecordedTree) : Option AccountInfo :=
  ((openedAll false trees).find? (Visit.counts account)).map Visit.before

def after (account : Address) (trees : List RecordedTree) : Option AccountInfo :=
  ((closedAll false trees).reverse.find? (Visit.counts account)).map Visit.after

mutual

/-- The storage accesses of a frame, marked as reverted where they did not take effect. -/
def storages (undone : Bool) : RecordedTree → List StorageAccess
  | call _ _ body ending | create _ _ _ body ending =>
    storagesAll (undone || !ending.status.isOk) body
  | .op journal address ⟨.sload key, _⟩ =>
    [{ storageRead journal address key with reverted := undone }]
  | .op journal address ⟨.sstore key value, _⟩ =>
    [{ storageWrite journal address key value with reverted := undone }]
  | .op .. => []

def storagesAll (undone : Bool) : List RecordedTree → List StorageAccess
  | [] => []
  | tree :: trees => tree.storages undone ++ storagesAll undone trees

end

/-- The storage accesses that are recorded: the frame that starts the recording has no record to
add its own to. -/
def recordedStorages (trees : List RecordedTree) : List StorageAccess :=
  trees.flatMap fun tree =>
    match tree with
    | .op .. => []
    | tree => tree.storages false

def slotWrites (account : Address) (slot : U256) (trees : List RecordedTree) :
    List (Change U256) :=
  ((recordedStorages trees).filter fun storage => storage.isWrite && !storage.reverted).filterMap
    (StorageAccess.slotChange account slot)

/-- The diffs report the net effects: a change of a value is reported if and only if it differs
before the first and after the last access that took effect. -/
structure NetEffects {Info : Type} (trees : List RecordedTree) (diffs : StateDiffs Info) :
    Prop where
  balance : ∀ account, Change.net (diffs.balanceDiff account) =
    Change.net (Change.between ((before account trees).map AccountInfo.balance)
      ((after account trees).map AccountInfo.balance))
  nonce : ∀ account, Change.net (diffs.nonceDiff account) =
    Change.net (Change.between ((before account trees).map AccountInfo.nonce)
      ((after account trees).map AccountInfo.nonce))
  slot : ∀ account slot, Change.net (diffs.slotDiff account slot) =
    Change.net (Change.between ((slotWrites account slot trees).head?.map Change.previousValue)
      ((slotWrites account slot trees).getLast?.map Change.newValue))

/-! ## Trees whose changes are recorded as they are -/

def Unchanged (before after : Journal) (account : Address) : Prop :=
  (before.accountOrEmpty account).balance = (after.accountOrEmpty account).balance ∧
    (before.accountOrEmpty account).nonce = (after.accountOrEmpty account).nonce

/-- A call that takes effect and runs the code of the account that it is for, or one that changes
neither of the two accounts. -/
def ShownCall (undone : Bool) (before after : Journal) (call : CallInputs) : Prop :=
  undone = false ∧ call.targetAddress = call.bytecodeAddress ∨
    Unchanged before after call.targetAddress ∧
      (undone = true ∨ Unchanged before after call.bytecodeAddress)

/-- A create that takes effect, of an account with nothing before and the nonce one after. -/
structure ShownCreate (undone : Bool) (before : Journal) (address : Address) (ending : Ending) :
    Prop where
  effective : undone = false
  balance : (before.accountOrEmpty address).balance = 0
  nonce : (before.accountOrEmpty address).nonce = 0
  created : ending.address = some address
  deployed : ∃ account, ending.journal.account address = some account ∧ account.nonce = 1

mutual

/-- No call or create halts, and each is recorded with the changes that it made. -/
def Shown (undone : Bool) : RecordedTree → Prop
  | call journal inputs body ending =>
    let undone := undone || !ending.status.isOk
    ending.status.isRevert = !ending.status.isOk ∧
      ShownCall undone journal ending.journal inputs.1 ∧ ShownAll undone body
  | create journal _ address body ending =>
    let undone := undone || !ending.status.isOk
    ending.status.isRevert = !ending.status.isOk ∧
      ShownCreate undone journal address ending ∧ ShownAll undone body
  | .op .. => True

def ShownAll (undone : Bool) : List RecordedTree → Prop
  | [] => True
  | tree :: trees => tree.Shown undone ∧ ShownAll undone trees

end

/-- The accesses of an account that took effect end in the order in which they start, each with
the balance and the nonce that the next one finds. -/
structure Orderly (account : Address) (trees : List RecordedTree) : Prop where
  order : (openedAll false trees).filter (Visit.counts account) =
    (closedAll false trees).filter (Visit.counts account)
  linked : ((openedAll false trees).filter (Visit.counts account)).IsChain fun visit next =>
    visit.after.balance = next.before.balance ∧ visit.after.nonce = next.before.nonce

/-! ## What is recorded -/

/-- The values of an access: the account it is recorded for, a balance and a nonce. -/
structure AccessValues where
  account : Address
  balance : Change U256
  nonce : Change U64

def accessValues (account : Address) (before after : AccountInfo) : AccessValues :=
  ⟨account, ⟨before.balance, after.balance⟩, ⟨before.nonce, after.nonce⟩⟩

def opValues (journal : Journal) : RecordedOp → List AccessValues
  | .extcodecopy target | .extcodesize target | .extcodehash target | .balance target =>
    [accessValues target (journal.accountOrEmpty target) (journal.accountOrEmpty target)]
  | .selfdestruct _ | .sload _ | .sstore _ _ => []

mutual

/-- The values of all calls, creates and opcodes.  A call is recorded for the account whose code it
runs, with the values of the account it runs for; a create is recorded with the nonces of a new
contract, and starts without a balance. -/
def values : RecordedTree → List AccessValues
  | call journal inputs body ending =>
    accessValues inputs.1.bytecodeAddress (journal.accountOrEmpty inputs.1.targetAddress)
      (ending.journal.accountOrEmpty inputs.1.targetAddress) :: valuesAll body
  | create _ _ address body ending =>
    ⟨address, ⟨0, ((ending.address.bind ending.journal.account).map
      AccountInfo.balance).getD 0⟩, ⟨0, 1⟩⟩ :: valuesAll body
  | .op journal _ code => opValues journal code.1

def valuesAll : List RecordedTree → List AccessValues
  | [] => []
  | tree :: trees => tree.values ++ valuesAll trees

end

/-- The changes of the balance that are recorded for an account, by whichever access. -/
def recordedBalances (account : Address) (trees : List RecordedTree) : List (Change U256) :=
  (valuesAll trees).filterMap fun values => recordedChange account values.account values.balance

def recordedNonces (account : Address) (trees : List RecordedTree) : List (Change U64) :=
  (valuesAll trees).filterMap fun values => recordedChange account values.account values.nonce

/-! ## Values of records -/

variable {vector : List AccountAccess} {access : AccountAccess} {depth : Nat}
  (records records' : List AccountAccess) (call : Option CallInputs) {access' : AccountAccess}
  (journal : Journal) (ending : Ending)

def valuesOf (access : AccountAccess) : AccessValues :=
  ⟨access.account, ⟨access.oldBalance, access.newBalance⟩, ⟨access.oldNonce, access.newNonce⟩⟩

def AccessValues.changed (values : AccessValues) : Bool :=
  values.balance.previousValue ≠ values.balance.newValue ||
    values.nonce.previousValue ≠ values.nonce.newValue

/-- The values of the records that changed something. -/
def changesOf (records : List AccountAccess) : List AccessValues :=
  (records.map valuesOf).filter AccessValues.changed

theorem changesOf_append :
    changesOf (records ++ records') = changesOf records ++ changesOf records' := by
  simp [changesOf]

theorem changesOf_cons (access : AccountAccess) (records : List AccountAccess) :
    changesOf (access :: records) = changesOf [access] ++ changesOf records :=
  changesOf_append [access] records

theorem changesOf_appendStorageAccess (storage : StorageAccess) (depth : Nat)
    (vector : List AccountAccess) :
    changesOf (appendStorageAccess storage depth vector) = changesOf vector := by
  cases vector with
  | nil => rfl
  | cons first others =>
    simp only [appendStorageAccess]
    split
    · cases hlast : others.getLast? with
      | none =>
        rw [getLast?_eq_none_iff.mp hlast]
        rfl
      | some last =>
        have hothers := dropLast_append_getLast? last hlast
        simp only
        split
        · conv_rhs => rw [← hothers]
          rw [← cons_append, changesOf_append, changesOf_append]
          rfl
        · rw [changesOf_append]
          exact append_nil _
    · rfl

theorem SameCall.valuesOf {access' : AccountAccess} (h : SameCall access access') :
    valuesOf access = valuesOf access' := by
  have hvalues := congrArg RecordedTree.valuesOf h
  exact hvalues

theorem valuesOf_update (h : valuesOf access = valuesOf access')
    (call : Option CallInputs) (ending : Ending) :
    valuesOf (ending.update call access) = valuesOf (ending.update call access') := by
  simp only [valuesOf, AccessValues.mk.injEq, Change.mk.injEq] at h
  unfold Ending.update updateCall updateCreate
  split <;> split <;> simp [valuesOf, h]

theorem changesOf_singleton (h : valuesOf access = valuesOf access') :
    changesOf [access] = changesOf [access'] := by
  simp only [changesOf, map_cons, h]

theorem changesOf_finishVector (h : StartsWith access vector) (call : Option CallInputs)
    (ending : Ending) {changes : List AccessValues}
    (hvector : changesOf vector = changesOf [access] ++ changes) :
    changesOf (finishVector call ending vector) =
      changesOf [ending.update call access] ++ changes := by
  obtain ⟨first, others, rfl, hfirst⟩ := h
  have hothers : changesOf others = changes := by
    rw [changesOf_cons, changesOf_singleton hfirst.valuesOf] at hvector
    exact append_cancel_left hvector
  unfold finishVector
  cases ending.status.isRevert with
  | true =>
    have hmarked : valuesOf first.markReverted = valuesOf access := hfirst.valuesOf
    simp only [if_true, map_cons, modifyHead_cons]
    have hsame : changesOf (others.map AccountAccess.markReverted) = changesOf others := by
      simp only [changesOf, map_map]
      rfl
    rw [changesOf_cons, hsame, hothers, changesOf_singleton (valuesOf_update hmarked call ending)]
  | false =>
    simp only [Bool.false_eq_true, if_false, modifyHead_cons]
    rw [changesOf_cons, hothers, changesOf_singleton (valuesOf_update hfirst.valuesOf call ending)]

theorem valuesOf_call (depth : Nat) (inputs : CallInputs) (ending : Ending) :
    valuesOf (ending.update (some inputs) (recordCall journal depth inputs)) =
      accessValues inputs.bytecodeAddress (journal.accountOrEmpty inputs.targetAddress)
        (ending.journal.accountOrEmpty inputs.targetAddress) := by
  cases hafter : ending.journal.account inputs.targetAddress <;>
    simp [Ending.update, updateCall, valuesOf, accessValues, recordCall, Journal.accountOrEmpty,
      hafter]

theorem valuesOf_create (depth : Nat) (inputs : CreateInputs)
    (address : Address) (ending : Ending) :
    valuesOf (ending.update none (recordCreate journal depth inputs address)) =
      ⟨address, ⟨0, ((ending.address.bind ending.journal.account).map
        AccountInfo.balance).getD 0⟩, ⟨0, 1⟩⟩ := by
  cases hafter : ending.address.bind ending.journal.account <;>
    simp [Ending.update, updateCreate, valuesOf, recordCreate, hafter]

theorem changesOf_singleton_append (access : AccountAccess) (values : List AccessValues) :
    changesOf [access] ++ values.filter AccessValues.changed =
      (valuesOf access :: values).filter AccessValues.changed :=
  (filter_append [valuesOf access] values).symm

mutual

theorem changesOf_recordInto (depth : Nat) (vector : List AccountAccess) (tree : RecordedTree) :
    changesOf (tree.recordInto depth vector) =
      changesOf vector ++ tree.values.filter AccessValues.changed := by
  cases tree with
  | call journal inputs body ending =>
    have hstarts := startsWith_cons (recordCall journal depth inputs.1) []
    have hbody := changesOf_recordAllInto (depth + 1) [recordCall journal depth inputs.1] body
    rw [recordInto, changesOf_append,
      changesOf_finishVector (hstarts.recordAllInto _ body) (some inputs.1) ending hbody, values,
      ← valuesOf_call journal depth inputs.1 ending, changesOf_singleton_append]
  | create journal inputs address body ending =>
    have hstarts := startsWith_cons (recordCreate journal depth inputs address) []
    have hbody := changesOf_recordAllInto (depth + 1)
      [recordCreate journal depth inputs address] body
    rw [recordInto, changesOf_append,
      changesOf_finishVector (hstarts.recordAllInto _ body) none ending hbody, values,
      ← valuesOf_create journal depth inputs address ending, changesOf_singleton_append]
  | op journal address code =>
    obtain ⟨code, hcode⟩ := code
    cases code with
    | selfdestruct target => cases hcode
    | sload key => simp [recordInto, opInto, changesOf_appendStorageAccess, values, opValues]
    | sstore key value =>
      simp [recordInto, opInto, changesOf_appendStorageAccess, values, opValues]
    | _ =>
      rw [recordInto, opInto, changesOf_append]
      rfl

theorem changesOf_recordAllInto (depth : Nat) (vector : List AccountAccess)
    (trees : List RecordedTree) :
    changesOf (recordAllInto depth vector trees) =
      changesOf vector ++ (valuesAll trees).filter AccessValues.changed := by
  cases trees with
  | nil => simp [recordAllInto, valuesAll]
  | cons tree trees =>
    rw [recordAllInto, changesOf_recordAllInto, changesOf_recordInto, valuesAll,
      filter_append, append_assoc]

end

/-! ## Storage accesses of records -/

def storagesOf (records : List AccountAccess) : List StorageAccess :=
  records.flatMap AccountAccess.storageAccesses

theorem storagesOf_append :
    storagesOf (records ++ records') = storagesOf records ++ storagesOf records' := by
  simp [storagesOf]

def undo (storage : StorageAccess) : StorageAccess := { storage with reverted := true }

theorem storagesOf_finishVector (vector : List AccountAccess) :
    storagesOf (finishVector call ending vector) =
      if ending.status.isRevert then (storagesOf vector).map undo else storagesOf vector := by
  have hfirst : ∀ vector : List AccountAccess,
      storagesOf (vector.modifyHead (ending.update call)) = storagesOf vector := by
    intro vector
    cases vector <;> simp [storagesOf]
  rw [finishVector, hfirst]
  split
  · simp only [storagesOf, flatMap_map, map_flatMap]
    rfl
  · rfl

theorem storagesOf_appendStorageAccess (h : StartsWith access vector)
    (hdepth : access.depth < depth) (storage : StorageAccess) :
    storagesOf (appendStorageAccess storage depth vector) = storagesOf vector ++ [storage] := by
  obtain ⟨first, others, rfl, hfirst⟩ := h
  have hdeep : first.depth < depth := hfirst.depth ▸ hdepth
  simp only [appendStorageAccess, if_pos hdeep]
  cases hlast : others.getLast? with
  | none =>
    rw [getLast?_eq_none_iff.mp hlast]
    simp [storagesOf, AccountAccess.addStorage]
  | some last =>
    have hothers := dropLast_append_getLast? last hlast
    simp only
    split
    · conv_rhs => rw [← hothers]
      simp [storagesOf, AccountAccess.addStorage]
    · simp [storagesOf, AccountAccess.resume]

mutual

theorem map_undo_storages (undone : Bool) (tree : RecordedTree) :
    (tree.storages undone).map undo = tree.storages true := by
  cases tree with
  | call journal inputs body ending =>
    simp only [storages, Bool.true_or]
    exact map_undo_storagesAll _ body
  | create journal inputs address body ending =>
    simp only [storages, Bool.true_or]
    exact map_undo_storagesAll _ body
  | op journal address code =>
    obtain ⟨code, hcode⟩ := code
    cases code <;> rfl

theorem map_undo_storagesAll (undone : Bool) (trees : List RecordedTree) :
    (storagesAll undone trees).map undo = storagesAll true trees := by
  cases trees with
  | nil => rfl
  | cons tree trees =>
    rw [storagesAll, storagesAll, map_append, map_undo_storages, map_undo_storagesAll]

end

theorem storagesOf_finishVector_body {body : List RecordedTree}
    (h : storagesOf vector = storagesAll false body)
    (hends : ending.status.isRevert = !ending.status.isOk) :
    storagesOf (finishVector call ending vector) = storagesAll (!ending.status.isOk) body := by
  rw [storagesOf_finishVector, h, hends]
  cases ending.status.isOk with
  | false => exact map_undo_storagesAll false body
  | true => rfl

mutual

/-- The storage accesses of a frame are recorded in their order. -/
theorem storagesOf_recordInto {access : AccountAccess} {vector : List AccountAccess}
    (h : StartsWith access vector) {depth : Nat} (hdepth : access.depth < depth) {undone : Bool}
    {tree : RecordedTree} (hshown : tree.Shown undone) :
    storagesOf (tree.recordInto depth vector) = storagesOf vector ++ tree.storages false := by
  cases tree with
  | call journal inputs body ending =>
    have hstarts := startsWith_cons (recordCall journal depth inputs.1) []
    have hbody := storagesOf_recordAllInto hstarts (Nat.lt_succ_self depth) hshown.2.2
    rw [recordInto, storagesOf_append, storagesOf_finishVector_body _ _ hbody hshown.1, storages,
      Bool.false_or]
  | create journal inputs address body ending =>
    have hstarts := startsWith_cons (recordCreate journal depth inputs address) []
    have hbody := storagesOf_recordAllInto hstarts (Nat.lt_succ_self depth) hshown.2.2
    rw [recordInto, storagesOf_append, storagesOf_finishVector_body _ _ hbody hshown.1, storages,
      Bool.false_or]
  | op journal address code =>
    obtain ⟨code, hcode⟩ := code
    cases code with
    | selfdestruct target => cases hcode
    | sload key => exact storagesOf_appendStorageAccess h hdepth _
    | sstore key value => exact storagesOf_appendStorageAccess h hdepth _
    | _ => exact storagesOf_append vector _

theorem storagesOf_recordAllInto {access : AccountAccess} {vector : List AccountAccess}
    (h : StartsWith access vector) {depth : Nat} (hdepth : access.depth < depth) {undone : Bool}
    {trees : List RecordedTree} (hshown : ShownAll undone trees) :
    storagesOf (recordAllInto depth vector trees) =
      storagesOf vector ++ storagesAll false trees := by
  cases trees with
  | nil => simp [recordAllInto, storagesAll]
  | cons tree trees =>
    rw [recordAllInto, storagesOf_recordAllInto (h.recordInto depth tree) hdepth hshown.2,
      storagesOf_recordInto h hdepth hshown.1, storagesAll, append_assoc]

end

/-! ## The frame that starts the recording -/

/-- The vector of the frame that starts the recording, which is not for a call below the depth. -/
def Rooted (depth : Nat) (vector : List AccountAccess) : Prop :=
  ∀ first ∈ vector.head?, depth ≤ first.depth

theorem Rooted.append (h : Rooted depth vector) {accesses : List AccountAccess}
    (haccesses : Rooted depth accesses) : Rooted depth (vector ++ accesses) := by
  cases vector with
  | nil => exact haccesses
  | cons first others => exact h

theorem Rooted.appendStorageAccess (h : Rooted depth vector) (storage : StorageAccess) :
    appendStorageAccess storage depth vector = vector := by
  cases vector with
  | nil => rfl
  | cons first others =>
    have hshallow : ¬ first.depth < depth := Nat.not_lt.mpr (h first rfl)
    simp only [Cheatcodes.appendStorageAccess, if_neg hshallow]

theorem rooted_finishVector (h : StartsWith access vector) (call : Option CallInputs)
    (ending : Ending) : Rooted access.depth (finishVector call ending vector) := by
  obtain ⟨first, others, rfl, hfirst⟩ := h
  intro first' hfirst'
  unfold finishVector at hfirst'
  cases hrevert : ending.status.isRevert <;>
    · simp only [hrevert, if_true, Bool.false_eq_true, if_false, map_cons,
        modifyHead_cons, head?_cons, Option.mem_some_iff] at hfirst'
      rw [← hfirst', depth_update]
      exact hfirst.depth.ge

theorem storagesOf_child (hdepth : access.depth = depth) (hfresh : access.storageAccesses = [])
    (call : Option CallInputs) {undone : Bool} {body : List RecordedTree}
    (hshown : ShownAll undone body) {ending : Ending}
    (hends : ending.status.isRevert = !ending.status.isOk) :
    Rooted depth (finishVector call ending (recordAllInto (depth + 1) [access] body)) ∧
      storagesOf (finishVector call ending (recordAllInto (depth + 1) [access] body)) =
        storagesAll (!ending.status.isOk) body := by
  subst hdepth
  have hstarts := startsWith_cons access []
  have hbody := storagesOf_recordAllInto hstarts (Nat.lt_succ_self access.depth) hshown
  have hown : storagesOf [access] = [] := by simp [storagesOf, hfresh]
  rw [hown] at hbody
  exact ⟨rooted_finishVector (hstarts.recordAllInto _ body) call ending,
    storagesOf_finishVector_body call ending hbody hends⟩

theorem storagesOf_recordInto_root (h : Rooted depth vector) {undone : Bool} {tree : RecordedTree}
    (hshown : tree.Shown undone) :
    Rooted depth (tree.recordInto depth vector) ∧
      storagesOf (tree.recordInto depth vector) = storagesOf vector ++ recordedStorages [tree] := by
  cases tree with
  | call journal inputs body ending =>
    have hdepth : (recordCall journal depth inputs.1).depth = depth := rfl
    obtain ⟨hrooted, hstorages⟩ := storagesOf_child hdepth rfl (some inputs.1) hshown.2.2 hshown.1
    refine ⟨h.append hrooted, ?_⟩
    rw [recordInto, storagesOf_append, hstorages]
    simp [recordedStorages, storages]
  | create journal inputs address body ending =>
    have hdepth : (recordCreate journal depth inputs address).depth = depth := rfl
    obtain ⟨hrooted, hstorages⟩ := storagesOf_child hdepth rfl none hshown.2.2 hshown.1
    refine ⟨h.append hrooted, ?_⟩
    rw [recordInto, storagesOf_append, hstorages]
    simp [recordedStorages, storages]
  | op journal address code =>
    obtain ⟨code, hcode⟩ := code
    cases code with
    | selfdestruct target => cases hcode
    | sload key => simpa [recordInto, opInto, h.appendStorageAccess, recordedStorages] using h
    | sstore key value =>
      simpa [recordInto, opInto, h.appendStorageAccess, recordedStorages] using h
    | _ =>
      refine ⟨h.append ?_, storagesOf_append vector _⟩
      intro first hfirst
      cases hfirst
      exact le_refl depth

theorem storagesOf_recordAllInto_root (h : Rooted depth vector) {undone : Bool}
    {trees : List RecordedTree} (hshown : ShownAll undone trees) :
    storagesOf (recordAllInto depth vector trees) =
      storagesOf vector ++ recordedStorages trees := by
  induction trees generalizing vector with
  | nil => simp [recordAllInto, recordedStorages]
  | cons tree trees ih =>
    obtain ⟨hrooted, htree⟩ := storagesOf_recordInto_root h hshown.1
    rw [recordAllInto, ih hrooted hshown.2, htree]
    simp [recordedStorages]

/-! ## Changes that took effect -/

def Visit.values (visit : Visit) : AccessValues :=
  accessValues visit.account visit.before visit.after

/-- The values of the accesses that took effect and changed something. -/
def effects (visits : List Visit) : List AccessValues :=
  ((visits.filter fun visit => !visit.undone).map Visit.values).filter AccessValues.changed

theorem effects_append (visits visits' : List Visit) :
    effects (visits ++ visits') = effects visits ++ effects visits' := by
  simp [effects]

theorem effects_cons (visit : Visit) (visits : List Visit) :
    effects (visit :: visits) = effects [visit] ++ effects visits := effects_append [visit] visits

theorem changed_accessValues (account account' : Address) {before after : Journal}
    (h : Unchanged before after account) :
    (accessValues account' (before.accountOrEmpty account)
      (after.accountOrEmpty account)).changed = false := by
  simp [AccessValues.changed, accessValues, h.1, h.2]

theorem ShownCall.effects {undone : Bool} {before after : Journal} {inputs : CallInputs}
    (h : ShownCall undone before after inputs) :
    [accessValues inputs.bytecodeAddress (before.accountOrEmpty inputs.targetAddress)
      (after.accountOrEmpty inputs.targetAddress)].filter AccessValues.changed =
      effects [visit inputs.bytecodeAddress undone before after] := by
  rcases h with ⟨rfl, hcode⟩ | ⟨htarget, hcode⟩
  · rw [hcode]
    rfl
  · rw [filter_cons_of_neg (by simp [changed_accessValues _ _ htarget])]
    rcases hcode with rfl | hcode
    · rfl
    · cases undone with
      | true => rfl
      | false =>
        have hquiet := changed_accessValues inputs.bytecodeAddress inputs.bytecodeAddress hcode
        simp [RecordedTree.effects, visit, Visit.values, hquiet]

theorem ShownCreate.effects {undone : Bool} {before : Journal} {address : Address}
    {ending : Ending} (h : ShownCreate undone before address ending) :
    [(⟨address, ⟨0, ((ending.address.bind ending.journal.account).map
      AccountInfo.balance).getD 0⟩, ⟨0, 1⟩⟩ : AccessValues)].filter AccessValues.changed =
      effects [visit address undone before ending.journal] := by
  obtain ⟨rfl, hbalance, hnonce, hcreated, account, haccount, hone⟩ := h
  have hafter : ending.journal.accountOrEmpty address = account := by
    rw [Journal.accountOrEmpty, haccount, Option.getD_some]
  have hvalues : (visit address false before ending.journal).values =
      ⟨address, ⟨0, account.balance⟩, ⟨0, 1⟩⟩ := by
    simp [visit, Visit.values, accessValues, hafter, hbalance, hnonce, hone]
  show _ = [(visit address false before ending.journal).values].filter AccessValues.changed
  rw [hvalues, hcreated, Option.bind_some, haccount]
  rfl

mutual

theorem Shown.effects {undone : Bool} {tree : RecordedTree} (h : tree.Shown undone) :
    tree.values.filter AccessValues.changed = effects (tree.opened undone) := by
  cases tree with
  | call journal inputs body ending =>
    rw [values, opened, effects_cons, ← h.2.1.effects, ← ShownAll.effects h.2.2, ← filter_append]
    rfl
  | create journal inputs address body ending =>
    rw [values, opened, effects_cons, ← h.2.1.effects, ← ShownAll.effects h.2.2, ← filter_append]
    rfl
  | op journal address code =>
    obtain ⟨code, hcode⟩ := code
    have hquiet : ∀ target, [accessValues target (journal.accountOrEmpty target)
        (journal.accountOrEmpty target)].filter AccessValues.changed =
          RecordedTree.effects [visit target undone journal journal] := by
      intro target
      have hsame : Unchanged journal journal target := ⟨rfl, rfl⟩
      have hvalues := changed_accessValues target target hsame
      cases undone <;> simp [RecordedTree.effects, visit, Visit.values, hvalues]
    cases code with
    | selfdestruct target => cases hcode
    | sload key => rfl
    | sstore key value => rfl
    | _ => exact hquiet _

theorem ShownAll.effects {undone : Bool} {trees : List RecordedTree} (h : ShownAll undone trees) :
    (valuesAll trees).filter AccessValues.changed = effects (openedAll undone trees) := by
  cases trees with
  | nil => rfl
  | cons tree trees =>
    rw [valuesAll, openedAll, filter_append, effects_append, Shown.effects h.1,
      ShownAll.effects h.2]

end

section Net

variable {α : Type} [DecidableEq α] {trees : List RecordedTree} {account : Address}

theorem before_eq (account : Address) (trees : List RecordedTree) :
    before account trees =
      ((openedAll false trees).filter (Visit.counts account)).head?.map Visit.before := by
  rw [before, head?_filter]

theorem Orderly.after_eq (h : Orderly account trees) :
    after account trees =
      ((openedAll false trees).filter (Visit.counts account)).getLast?.map Visit.after := by
  rw [after, h.order, getLast?_eq_head?_reverse, ← filter_reverse, head?_filter]

/-- A value of an account: how it is read, and where it is recorded. -/
structure Recorded (read : AccountInfo → α) (field : AccessValues → Change α) : Prop where
  eq : ∀ account before after, field (accessValues account before after) =
    ⟨read before, read after⟩
  quiet : ∀ values, values.changed = false → (field values).changed = false

theorem filterMap_recordedChange {field : AccessValues → Change α} {read : AccountInfo → α}
    (hfield : Recorded read field) (hshown : ShownAll false trees) :
    ((valuesAll trees).filterMap fun values => recordedChange account values.account (field values))
      = (((openedAll false trees).filter (Visit.counts account)).map fun visit =>
          (⟨read visit.before, read visit.after⟩ : Change α)).filter Change.changed := by
  have hquiet : ∀ values : AccessValues, values.changed = false →
      recordedChange account values.account (field values) = none := by
    intro values hvalues
    have hsame : (field values).previousValue = (field values).newValue := by
      simpa [Change.changed] using hfield.quiet values hvalues
    exact if_neg fun h => h.2 hsame
  rw [← filterMap_filter_of_eq_none hquiet, hshown.effects, effects,
    filterMap_filter_of_eq_none hquiet]
  induction openedAll false trees with
  | nil => rfl
  | cons visit visits ih =>
    cases hundone : visit.undone with
    | true => simpa [Visit.counts, hundone] using ih
    | false =>
      by_cases haccount : visit.account = account
      · simp only [Visit.counts, hundone, haccount, filter_cons, Bool.not_false, if_true, map_cons,
          filterMap_cons, ih, decide_true, Bool.and_self, Visit.values, hfield.eq]
        by_cases hsame : read visit.before = read visit.after
        · simp [recordedChange, Change.changed, accessValues, hsame]
        · simp [recordedChange, Change.changed, accessValues, hsame]
      · simpa [Visit.counts, hundone, haccount, recordedChange, Visit.values, accessValues]
          using ih

/-- What is recorded of an account comes to its net change. -/
theorem net_recorded {field : AccessValues → Change α} {read : AccountInfo → α}
    (hfield : Recorded read field) (hshown : ShownAll false trees)
    (horderly : Orderly account trees)
    (hlinked : ∀ info info' : AccountInfo, info.balance = info'.balance ∧
      info.nonce = info'.nonce → read info = read info')
    {changes : List (Change α)}
    (hchanges : changes = (valuesAll trees).filterMap fun values =>
      recordedChange account values.account (field values)) :
    Change.net (Change.between (changes.head?.map Change.previousValue)
        (changes.getLast?.map Change.newValue)) =
      Change.net (Change.between ((before account trees).map read)
        ((after account trees).map read)) := by
  rw [hchanges, filterMap_recordedChange hfield hshown, Change.net_between_changed, before_eq,
    horderly.after_eq]
  · simp only [head?_map, getLast?_map, Option.map_map]
    rfl
  · unfold Change.Linked
    rw [isChain_map]
    exact horderly.linked.imp fun visit next h => hlinked _ _ h

end Net

/-! ## Reported changes -/

theorem filterMap_recorded {α : Type} {f : AccessValues → Option α}
    (hf : ∀ values, values.changed = false → f values = none) (config : RevertConfig)
    (outer : Nat) (trees : List RecordedTree) :
    (recorded config outer trees).filterMap (fun access => f (valuesOf access)) =
      (valuesAll trees).filterMap f := by
  have hchanges := changesOf_recordAllInto (outer + 1) [] trees
  rw [← recorded_eq config outer trees] at hchanges
  calc (recorded config outer trees).filterMap (fun access => f (valuesOf access))
      = ((recorded config outer trees).map valuesOf).filterMap f := (filterMap_map ..).symm
    _ = (changesOf (recorded config outer trees)).filterMap f :=
        (filterMap_filter_of_eq_none hf _).symm
    _ = (valuesAll trees).filterMap f := by
        rw [hchanges]
        exact filterMap_filter_of_eq_none hf _

section Report

variable {Info : Type} (config : RevertConfig) (diffConfig : DiffConfig Info) (outer : Nat)
  (trees : List RecordedTree) (account : Address)

theorem AccessValues.recordedChange_eq_none (values : AccessValues) (h : values.changed = false) :
    recordedChange account values.account values.balance = none ∧
      recordedChange account values.account values.nonce = none := by
  simp_all [changed, recordedChange]

theorem balanceDiff_recorded :
    (getRecordedStateDiffs diffConfig (recorded config outer trees)).balanceDiff account =
      Change.between ((recordedBalances account trees).head?.map Change.previousValue)
        ((recordedBalances account trees).getLast?.map Change.newValue) := by
  rw [balanceDiff_getRecordedStateDiffs, ← Change.foldl_track]
  exact congrArg (List.foldl Change.track none)
    (filterMap_recorded (fun values h => (values.recordedChange_eq_none account h).1) ..)

theorem nonceDiff_recorded :
    (getRecordedStateDiffs diffConfig (recorded config outer trees)).nonceDiff account =
      Change.between ((recordedNonces account trees).head?.map Change.previousValue)
        ((recordedNonces account trees).getLast?.map Change.newValue) := by
  rw [nonceDiff_getRecordedStateDiffs, ← Change.foldl_track]
  exact congrArg (List.foldl Change.track none)
    (filterMap_recorded (fun values h => (values.recordedChange_eq_none account h).2) ..)

theorem slotDiff_recorded (hshown : ShownAll false trees) (slot : U256) :
    (getRecordedStateDiffs diffConfig (recorded config outer trees)).slotDiff account slot =
      Change.between ((slotWrites account slot trees).head?.map Change.previousValue)
        ((slotWrites account slot trees).getLast?.map Change.newValue) := by
  have hroot : Rooted (outer + 1) [] := by simp [Rooted]
  have hstorages := storagesOf_recordAllInto_root hroot hshown
  have hwrites : (recorded config outer trees).flatMap AccountAccess.writes =
      (storagesOf (recorded config outer trees)).filter fun storage =>
        storage.isWrite && !storage.reverted := by
    simp only [storagesOf, filter_flatMap]
    rfl
  rw [slotDiff_getRecordedStateDiffs, ← Change.foldl_track, hwrites, recorded_eq, hstorages]
  rfl

end Report

def funded (balance : U256) : Journal :=
  ⟨⟨0, 1⟩, fun address => if address = 2 then some ⟨balance, 0, [], true⟩ else none,
    fun _ _ => none⟩

/-- A call of `0x02` that writes a slot, with the balances before and after. -/
def paid (before after : U256) (status : InstructionResult) : RecordedTree :=
  .call (funded before) ⟨⟨[], 0, 2, 2, 1, .transfer (after - before), .call, false⟩, rfl⟩
    [.op (funded after) 2 ⟨.sstore 1 after, rfl⟩] ⟨funded after, status, [], none⟩

/-- The contract `0x01` sends five wei to `0x02`, and then reverts. -/
def undoneTransfer : RecordedTree :=
  .call (funded 0) ⟨⟨[], 0, 1, 1, 0, .transfer 0, .call, false⟩, by decide⟩
    [.call (funded 0) ⟨⟨[], 0, 2, 2, 1, .transfer 5, .call, false⟩, by decide⟩ []
      ⟨funded 5, .ok 0, [], none⟩]
    ⟨funded 0, .revert 0, [], none⟩

end RecordedTree

end Foundry.Cheatcodes
