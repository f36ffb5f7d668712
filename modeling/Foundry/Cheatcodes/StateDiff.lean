import Foundry.Cheatcodes.ExpectRevert

/-!
# Recorded state diffs

After `startStateDiffRecording` the hooks keep a stack of vectors of account accesses.  A call or
create pushes a vector with its own access; what its frame does is added to that vector, and the end
of the call or create appends the vector to the one below.
-/

namespace Foundry.Cheatcodes

structure StorageAccess where
  account : Address
  slot : U256
  isWrite : Bool
  previousValue : U256
  newValue : U256
  reverted : Bool
deriving DecidableEq

inductive AccountAccessKind where
  | call
  | delegateCall
  | callCode
  | staticCall
  | create
  | selfDestruct
  | resume
  | balance
  | extcodesize
  | extcodehash
  | extcodecopy
deriving DecidableEq

structure ChainInfo where
  forkId : U256
  chainId : U256
deriving DecidableEq

structure AccountAccess where
  chainInfo : ChainInfo
  kind : AccountAccessKind
  account : Address
  accessor : Address
  initialized : Bool
  oldBalance : U256
  newBalance : U256
  deployedCode : Bytes
  value : U256
  data : Bytes
  reverted : Bool
  storageAccesses : List StorageAccess
  depth : Nat
  oldNonce : U64
  newNonce : U64
deriving DecidableEq

structure AccountInfo where
  balance : U256
  nonce : U64
  code : Bytes
  /-- The account has a balance, a nonce or code. -/
  initialized : Bool
deriving DecidableEq

/-- What the hooks read of the journaled state: accounts and slots that can be loaded. -/
structure Journal where
  chainInfo : ChainInfo
  account : Address → Option AccountInfo
  storage : Address → U256 → Option U256

namespace Journal

def accountOrEmpty (journal : Journal) (address : Address) : AccountInfo :=
  (journal.account address).getD ⟨0, 0, [], false⟩

def sload (journal : Journal) (address : Address) (key : U256) : U256 :=
  if (journal.account address).isSome then (journal.storage address key).getD 0 else 0

end Journal

/-! ## Calls and creates -/

def CallScheme.accessKind : CallScheme → AccountAccessKind
  | .call => .call
  | .callCode => .callCode
  | .delegateCall => .delegateCall
  | .staticCall => .staticCall

/-- The access of a call: the account whose code runs, with the balance and the nonce of the
account it runs for. -/
def recordCall (journal : Journal) (depth : Nat) (call : CallInputs) : AccountAccess where
  chainInfo := journal.chainInfo
  kind := call.scheme.accessKind
  account := call.bytecodeAddress
  accessor := call.caller
  initialized := (journal.accountOrEmpty call.targetAddress).initialized
  oldBalance := (journal.accountOrEmpty call.targetAddress).balance
  newBalance := 0
  deployedCode := []
  value := call.callValue
  data := call.input
  reverted := false
  storageAccesses := []
  depth
  oldNonce := (journal.accountOrEmpty call.targetAddress).nonce
  newNonce := 0

def recordCreate (journal : Journal) (depth : Nat) (create : CreateInputs) (address : Address) :
    AccountAccess where
  chainInfo := journal.chainInfo
  kind := .create
  account := address
  accessor := create.caller
  initialized := true
  oldBalance := 0
  newBalance := 0
  deployedCode := []
  value := create.value
  data := create.initCode
  reverted := false
  storageAccesses := []
  depth
  oldNonce := 0
  newNonce := 1

def AccountAccess.markReverted (access : AccountAccess) : AccountAccess :=
  { access with
    reverted := true
    storageAccesses := access.storageAccesses.map fun storage => { storage with reverted := true } }

/-- The vectors of account accesses, the last one first. -/
abbrev AccessStack := List (List AccountAccess)

/-- Appends a vector to the last one, or makes it the only one. -/
def mergeInto (vector : List AccountAccess) : AccessStack → AccessStack
  | [] => [vector]
  | parent :: below => (parent ++ vector) :: below

/-- The last vector is merged into the one below it; its first access is updated if it is the one
of the call or create that ends. -/
def mergeLast (depth : Nat) (isRevert : Bool) (update : AccountAccess → AccountAccess) :
    AccessStack → AccessStack
  | [] => []
  | last :: below =>
    match if isRevert then last.map AccountAccess.markReverted else last with
    | [] => below
    | first :: others =>
      mergeInto ((if first.depth = depth then update first else first) :: others) below

def updateCall (journal : Journal) (target : Address) (access : AccountAccess) : AccountAccess :=
  match journal.account target with
  | some account => { access with newBalance := account.balance, newNonce := account.nonce }
  | none => access

def updateCreate (journal : Journal) (address : Option Address) (access : AccountAccess) :
    AccountAccess :=
  match address.bind journal.account with
  | some account => { access with newBalance := account.balance, deployedCode := account.code }
  | none => access

/-! ## Opcodes -/

inductive RecordedOp where
  | selfdestruct (target : Address)
  | sload (key : U256)
  | sstore (key value : U256)
  | extcodecopy (address : Address)
  | extcodesize (address : Address)
  | extcodehash (address : Address)
  | balance (address : Address)

/-- The record of a context that goes on after another access. -/
def AccountAccess.resume (entry : AccountAccess) (storageAccess : StorageAccess) :
    AccountAccess where
  chainInfo := entry.chainInfo
  accessor := entry.accessor
  account := entry.account
  kind := .resume
  initialized := entry.initialized
  storageAccesses := [storageAccess]
  reverted := entry.reverted
  oldBalance := 0
  newBalance := 0
  oldNonce := 0
  newNonce := 0
  value := 0
  data := []
  deployedCode := []
  depth := entry.depth

def AccountAccess.addStorage (access : AccountAccess) (storageAccess : StorageAccess) :
    AccountAccess :=
  { access with storageAccesses := access.storageAccesses ++ [storageAccess] }

def appendStorageAccess (storageAccess : StorageAccess) (storageDepth : Nat) :
    List AccountAccess → List AccountAccess
  | [] => []
  | first :: others =>
    if first.depth < storageDepth then
      match others.getLast? with
      | none => [first.addStorage storageAccess]
      | some lastRecord =>
        if lastRecord.kind = .resume then
          first :: others.dropLast ++ [lastRecord.addStorage storageAccess]
        else first :: others ++ [first.resume storageAccess]
    else first :: others

section

variable (journal : Journal)

def recordExt (depth : Nat) (accessor : Address) (kind : AccountAccessKind)
    (address : Address) : AccountAccess where
  chainInfo := journal.chainInfo
  kind
  account := address
  accessor
  initialized := (journal.accountOrEmpty address).initialized
  oldBalance := (journal.accountOrEmpty address).balance
  newBalance := (journal.accountOrEmpty address).balance
  deployedCode := []
  value := 0
  data := []
  reverted := false
  storageAccesses := []
  depth
  oldNonce := (journal.accountOrEmpty address).nonce
  newNonce := (journal.accountOrEmpty address).nonce

def recordSelfdestruct (depth : Nat) (accessor target : Address) : AccountAccess :=
  let value := (journal.accountOrEmpty accessor).balance
  { recordExt journal depth accessor .selfDestruct target with
    newBalance := (journal.accountOrEmpty target).balance + value
    value }

def storageRead (address : Address) (key : U256) : StorageAccess :=
  ⟨address, key, false, journal.sload address key, journal.sload address key, false⟩

def storageWrite (address : Address) (key value : U256) : StorageAccess :=
  ⟨address, key, true, journal.sload address key, value, false⟩

def pushAccess (access : AccountAccess) : AccessStack → AccessStack
  | [] => [[access]]
  | last :: below => (last ++ [access]) :: below

/-- The hook of a step, for the account that runs. -/
def recordStateDiffs (depth : Nat) (address : Address) (op : RecordedOp)
    (stack : AccessStack) : AccessStack :=
  match op with
  | .selfdestruct target =>
    -- The context in which the recording was started has no vector of its own.
    match stack with
    | [] => []
    | last :: below => (last ++ [recordSelfdestruct journal depth address target]) :: below
  | .sload key =>
    match stack with
    | [] => []
    | last :: below =>
      appendStorageAccess (storageRead journal address key) depth last :: below
  | .sstore key value =>
    match stack with
    | [] => []
    | last :: below =>
      appendStorageAccess (storageWrite journal address key value) depth last :: below
  | .extcodecopy target => pushAccess (recordExt journal depth address .extcodecopy target) stack
  | .extcodesize target => pushAccess (recordExt journal depth address .extcodesize target) stack
  | .extcodehash target => pushAccess (recordExt journal depth address .extcodehash target) stack
  | .balance target => pushAccess (recordExt journal depth address .balance target) stack

end

/-! ## The hooks -/

/-- The part of the inspector that the recording depends on. -/
structure Recorder where
  recordedAccountDiffsStack : Option AccessStack
  expectedRevert : Option ExpectedRevert
  /-- The depth of `assumeNoRevert`. -/
  assumeNoRevert : Option Nat
deriving DecidableEq

/-- How a call or create ends: the result, the account that was created, and the state then. -/
structure Ending where
  journal : Journal
  status : InstructionResult
  retdata : Bytes
  address : Option Address

namespace Recorder

section

variable (self : Recorder)

def startStateDiffRecording : Recorder :=
  { self with recordedAccountDiffsStack := some [] }

/-- All accesses, those of the outermost frame first. -/
def getStateDiff : List AccountAccess := (self.recordedAccountDiffsStack.getD []).reverse.flatten

def push (access : AccountAccess) : Recorder :=
  { self with recordedAccountDiffsStack := self.recordedAccountDiffsStack.map ([access] :: ·) }

def pop (depth : Nat) (isRevert : Bool) (update : AccountAccess → AccountAccess) : Recorder :=
  if 0 < depth then
    { self with
      recordedAccountDiffsStack :=
        self.recordedAccountDiffsStack.map (mergeLast depth isRevert update) }
  else self

/-- A run with a revert is discarded where no revert is assumed. -/
def discards (depth : Nat) (cheatcodeCall : Bool) (status : InstructionResult) : Bool :=
  self.assumeNoRevert.any fun assumed => depth ≤ assumed && !cheatcodeCall && status.isRevert

end

/-- The assumption holds up to the end of a call at its depth. -/
def assumed (self : Recorder) (depth : Nat) (cheatcodeCall : Bool) : Option Nat :=
  self.assumeNoRevert.filter fun assumed => !(depth ≤ assumed && !cheatcodeCall)

def callEnd (self : Recorder) (config : RevertConfig) (depth : Nat) (call : CallInputs)
    (ending : Ending) : Recorder :=
  let cheatcodeCall := call.cheatcodeCall
  let discards := self.discards depth cheatcodeCall ending.status
  let self := { self with assumeNoRevert := self.assumed depth cheatcodeCall }
  if discards then self
  else
    let (expectedRevert, verdict) := config.callEnd cheatcodeCall depth call.targetAddress
      ending.status ending.retdata self.expectedRevert
    let self := { self with expectedRevert }
    if verdict.isSome || cheatcodeCall then self
    else self.pop depth ending.status.isRevert (updateCall ending.journal call.targetAddress)

def createEnd (self : Recorder) (config : RevertConfig) (depth : Nat) (ending : Ending) :
    Recorder :=
  let (expectedRevert, verdict) :=
    config.createEnd depth ending.status ending.retdata self.expectedRevert
  let self := { self with expectedRevert }
  if verdict.isSome then self
  else self.pop depth ending.status.isRevert (updateCreate ending.journal ending.address)

/-- The hook of the end of a call or, without inputs of a call, of a create. -/
def finish (self : Recorder) (config : RevertConfig) (depth : Nat) (call : Option CallInputs)
    (ending : Ending) : Recorder :=
  match call with
  | some call => self.callEnd config depth call ending
  | none => self.createEnd config depth ending

def initializeInterp (self : Recorder) (depth : Nat) : Recorder :=
  { self with expectedRevert := Cheatcodes.initializeInterp depth self.expectedRevert }

def step (self : Recorder) (journal : Journal) (depth : Nat) (address : Address)
    (op : RecordedOp) : Recorder :=
  { self with
    recordedAccountDiffsStack :=
      self.recordedAccountDiffsStack.map (recordStateDiffs journal depth address op) }

end Recorder

end Foundry.Cheatcodes
