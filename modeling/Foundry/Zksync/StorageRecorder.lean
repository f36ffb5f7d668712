import Foundry.Base.RoseTrees
import Foundry.Base.Words

/-!
# Recording of account accesses

The recorder of the zkEVM follows calls and storage accesses.  Calls from or to system addresses are
passed over, and so is the call of a constructor, which belongs to its create.

The trace of an execution is a forest of calls; system calls and constructor calls drop out of it
and leave the forest of recorded calls.  The recorder lists the calls inside another call in the
order in which they end, and counts the depth of a call without a caller from the record before it.
-/

namespace Foundry.Zksync

/-! ## The recorder -/

def MIN_VALID_ADDRESS : Nat := 2 ^ 16

def isSystemAddress (address : Address) : Bool := decide (address.toNat < MIN_VALID_ADDRESS)

structure StorageKey where
  address : Address
  key : B256

inductive CallType where
  | call
  | create (bytecodeHash : B256)
deriving DecidableEq

structure StorageAccess where
  account : Address
  slot : B256
  isWrite : Bool
  previousValue : B256
  newValue : B256
deriving DecidableEq

inductive AccountAccessKind where
  | call
  | create
deriving DecidableEq

/-- A record.  The depth is one more than that of an earlier record, and so stays far from the end
of its type. -/
structure AccountAccess where
  depth : Nat
  kind : AccountAccessKind
  account : Address
  accessor : Address
  data : Bytes
  deployedBytecodeHash : B256
  value : U256
  oldBalance : U256
  newBalance : U256
  storageAccesses : List StorageAccess
deriving DecidableEq

structure CallAddresses where
  account : Address
  accessor : Address
deriving DecidableEq

/-- The recorder.  `pending` and `callSkipTracker` are stacks with their last element first. -/
structure AccountAccesses where
  records : List AccountAccess
  pending : List AccountAccess
  recordsInner : List AccountAccess
  isRecording : Bool
  callSkipTracker : List Bool
  skipNextCall : Option (Nat × CallAddresses)

structure CallStart where
  callType : CallType
  accessor : Address
  account : Address
  balance : U256
  data : Bytes
  value : U256

def CallStart.isSystem (start : CallStart) : Bool :=
  isSystemAddress start.accessor || isSystemAddress start.account

def CallStart.addresses (start : CallStart) : CallAddresses := ⟨start.account, start.accessor⟩

/-- `kind` and `deployed_bytecode_hash` of a call. -/
def CallType.kind : CallType → AccountAccessKind × B256
  | .call => (.call, 0)
  | .create bytecodeHash => (.create, bytecodeHash)

def CallStart.pendingRecord (start : CallStart) (depth : Nat) : AccountAccess where
  depth := depth
  kind := start.callType.kind.1
  account := start.account
  accessor := start.accessor
  data := start.data
  deployedBytecodeHash := start.callType.kind.2
  value := start.value
  oldBalance := start.balance
  newBalance := 0
  storageAccesses := []

namespace AccountAccesses

def new : AccountAccesses := ⟨[], [], [], false, [], none⟩

/-- `get_records`; `none` where an assertion fails. -/
def getRecords (s : AccountAccesses) : Option (List AccountAccess) :=
  if s.callSkipTracker ≠ [] then none
  else if s.skipNextCall.isSome then none
  else if s.pending ≠ [] then none
  else if s.recordsInner ≠ [] then none
  else some s.records

def startRecording (s : AccountAccesses) : AccountAccesses := { s with isRecording := true }

def stopRecording (s : AccountAccesses) : AccountAccesses := { s with isRecording := false }

/-- The body of `record_read` and `record_write`; `none` where no call is pending. -/
def recordAccess (access : StorageAccess) (s : AccountAccesses) : Option AccountAccesses :=
  if s.isRecording = false then some s
  else if isSystemAddress access.account then some s
  else
    match s.pending with
    | [] => none
    | record :: pending =>
      let record := { record with storageAccesses := record.storageAccesses ++ [access] }
      some { s with pending := record :: pending }

def recordRead (key : StorageKey) (value : B256) (s : AccountAccesses) : Option AccountAccesses :=
  s.recordAccess ⟨key.address, key.key, false, value, value⟩

def recordWrite (key : StorageKey) (oldValue newValue : B256) (s : AccountAccesses) :
    Option AccountAccesses :=
  s.recordAccess ⟨key.address, key.key, true, oldValue, newValue⟩

/-- The depth that a call counts from: that of the call it is made in, or else that of the last
record. -/
def lastDepth (s : AccountAccesses) : Nat :=
  match s.pending with
  | record :: _ => record.depth
  | [] => (s.records.getLast?.map AccountAccess.depth).getD 0

def isMarked (s : AccountAccesses) (start : CallStart) : Bool :=
  decide (s.skipNextCall = some (s.lastDepth + 1, start.addresses))

def recordCallStart (start : CallStart) (s : AccountAccesses) : AccountAccesses :=
  if s.isRecording = false then s
  else if start.isSystem then { s with callSkipTracker := true :: s.callSkipTracker }
  else
    let depth := s.lastDepth + 1
    match start.callType with
    | .create _ =>
      { s with
        skipNextCall := some (depth + 1, start.addresses)
        callSkipTracker := false :: s.callSkipTracker
        pending := start.pendingRecord depth :: s.pending }
    | .call =>
      if s.isMarked start then
        { s with skipNextCall := none, callSkipTracker := true :: s.callSkipTracker }
      else
        { s with
          skipNextCall := none
          callSkipTracker := false :: s.callSkipTracker
          pending := start.pendingRecord depth :: s.pending }

def resetMark (depth : Nat) : Option (Nat × CallAddresses) → Option (Nat × CallAddresses)
  | some (marked, addresses) => if depth < marked then none else some (marked, addresses)
  | none => none

/-- `record_call_end`; `none` where a call ends that did not start. -/
def recordCallEnd (newBalance : U256) (s : AccountAccesses) : Option AccountAccesses :=
  if s.isRecording = false then some s
  else
    match s.callSkipTracker with
    | [] => none
    | true :: callSkipTracker => some { s with callSkipTracker := callSkipTracker }
    | false :: callSkipTracker =>
      match s.pending with
      | [] => none
      | record :: pending =>
        let ended := { record with newBalance := newBalance }
        let s := { s with
          callSkipTracker := callSkipTracker
          pending := pending
          skipNextCall := resetMark ended.depth s.skipNextCall }
        match pending with
        | [] =>
          some { s with records := s.records ++ ended :: s.recordsInner, recordsInner := [] }
        | _ :: _ => some { s with recordsInner := s.recordsInner ++ [ended] }

end AccountAccesses

/-! ## Traces -/

inductive RecorderEvent where
  | callStart (start : CallStart)
  | callEnd (newBalance : U256)
  | read (key : StorageKey) (value : B256)
  | write (key : StorageKey) (oldValue newValue : B256)

def RecorderEvent.apply : RecorderEvent → AccountAccesses → Option AccountAccesses
  | .callStart start, s => some (s.recordCallStart start)
  | .callEnd newBalance, s => s.recordCallEnd newBalance
  | .read key value, s => s.recordRead key value
  | .write key oldValue newValue, s => s.recordWrite key oldValue newValue

def record (s : AccountAccesses) (events : List RecorderEvent) : Option AccountAccesses :=
  events.foldlM (fun s event => event.apply s) s

/-- A call with what happens in it, or a storage access. -/
inductive TraceTree where
  | call (start : CallStart) (body : List TraceTree) (newBalance : U256)
  | read (key : StorageKey) (value : B256)
  | write (key : StorageKey) (oldValue newValue : B256)

namespace TraceTree

mutual

def events : TraceTree → List RecorderEvent
  | call start body newBalance =>
    .callStart start :: (eventsAll body ++ [.callEnd newBalance])
  | read key value => [.read key value]
  | write key oldValue newValue => [.write key oldValue newValue]

def eventsAll : List TraceTree → List RecorderEvent
  | [] => []
  | tree :: trees => tree.events ++ eventsAll trees

end

mutual

/-- Storage of accounts other than system accounts is accessed only inside recorded calls. -/
def Covered : TraceTree → Prop
  | call start body _ => start.isSystem = true → CoveredAll body
  | read key _ => isSystemAddress key.address = true
  | write key _ _ => isSystemAddress key.address = true

def CoveredAll : List TraceTree → Prop
  | [] => True
  | tree :: trees => tree.Covered ∧ CoveredAll trees

end

end TraceTree

/-- The records of a trace that is recorded from its start to its end. -/
def recordsOf (trees : List TraceTree) : Option (List AccountAccess) :=
  (record AccountAccesses.new.startRecording (TraceTree.eventsAll trees)).bind fun s =>
    s.stopRecording.getRecords

/-! ## Recorded calls -/

/-- A recorded call with the recorded calls and accesses directly in it. -/
inductive RecordedNode where
  | call (start : CallStart) (body : List RecordedNode) (newBalance : U256)
  | access (access : StorageAccess)

namespace RecordedNode

def isConstructor (addresses : CallAddresses) (start : CallStart) : Bool :=
  decide (start.callType = .call) && decide (start.addresses = addresses)

/-- The body of a create with the call of its constructor, which is the first call, taken apart. -/
def mergeConstructor (addresses : CallAddresses) : List RecordedNode → List RecordedNode
  | [] => []
  | access storage :: nodes => access storage :: mergeConstructor addresses nodes
  | call start body newBalance :: nodes =>
    if isConstructor addresses start then body ++ nodes
    else call start body newBalance :: nodes

def bodyOf (start : CallStart) (nodes : List RecordedNode) : List RecordedNode :=
  match start.callType with
  | .call => nodes
  | .create _ => mergeConstructor start.addresses nodes

/-- An access that is recorded unless it is one of a system account. -/
def ofAccess (storage : StorageAccess) : List RecordedNode :=
  if isSystemAddress storage.account then [] else [access storage]

mutual

/-- What is recorded of a trace: the bodies of system calls belong to the call around them. -/
def ofTree : TraceTree → List RecordedNode
  | .call start body newBalance =>
    if start.isSystem then ofTrees body
    else [call start (bodyOf start (ofTrees body)) newBalance]
  | .read key value => ofAccess ⟨key.address, key.key, false, value, value⟩
  | .write key oldValue newValue => ofAccess ⟨key.address, key.key, true, oldValue, newValue⟩

def ofTrees : List TraceTree → List RecordedNode
  | [] => []
  | tree :: trees => ofTree tree ++ ofTrees trees

end

def accesses : List RecordedNode → List StorageAccess
  | [] => []
  | access storage :: nodes => storage :: accesses nodes
  | call _ _ _ :: nodes => accesses nodes

def recordOf (depth : Nat) (start : CallStart) (body : List RecordedNode) (newBalance : U256) :
    AccountAccess :=
  { start.pendingRecord depth with newBalance := newBalance, storageAccesses := accesses body }

mutual

/-- The records of the calls inside a number of recorded calls, as a forest. -/
def forest (enclosing : Nat) : RecordedNode → List (Rose AccountAccess)
  | call start body newBalance =>
    [.node (recordOf (enclosing + 1) start body newBalance) (forestAll (enclosing + 1) body)]
  | access _ => []

def forestAll (enclosing : Nat) : List RecordedNode → List (Rose AccountAccess)
  | [] => []
  | node :: nodes => node.forest enclosing ++ forestAll enclosing nodes

end

end RecordedNode

/-- The recorded calls of a trace: each has one more than the number of recorded calls around it as
its depth, and the storage accesses made directly in it. -/
def recordedCalls (trees : List TraceTree) : List (Rose AccountAccess) :=
  RecordedNode.forestAll 0 (RecordedNode.ofTrees trees)

end Foundry.Zksync
