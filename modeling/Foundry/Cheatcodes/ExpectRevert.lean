import Foundry.Cheatcodes.Inputs

/-!
# Expected reverts

`expectRevert` asks for the next calls or creates to revert.  While it is pending, the hooks note
how deep the frames go and which contract reverted; the end of a call at the depth of the
cheatcode compares what happened with what is expected.
-/

namespace Foundry.Cheatcodes

/-- How a frame ended: the three classes that the hooks tell apart, each with a code. -/
inductive InstructionResult where
  | ok (code : Nat)
  | revert (code : Nat)
  | halt (code : Nat)
deriving DecidableEq

namespace InstructionResult

def isOk : InstructionResult → Bool
  | ok _ => true
  | _ => false

def isRevert : InstructionResult → Bool
  | revert _ => true
  | _ => false

end InstructionResult

inductive ExpectedRevertKind where
  | default
  | cheatcode (pendingProcessing : Bool)
deriving DecidableEq

structure ExpectedRevert where
  reason : Option Bytes
  depth : Nat
  kind : ExpectedRevertKind
  partialMatch : Bool
  reverter : Option Address
  revertedBy : Option Address
  maxDepth : Nat
  count : Nat
  actualCount : Nat
deriving DecidableEq

inductive RevertError where
  | alreadyExpected
  | notLower
  | notExpected
  | expectedNone (reason : Option String) (reverter : Option Address)
  | otherThanNone (actual : String) (revertedBy : Option Address) (reason : Option String)
      (reverter : Option Address)
  | didNotRevert
  | reverter (actual expected : Address)
  | withoutData
  | reason (actual expected : String)
deriving DecidableEq

/-- The decoders of revert data, and whether reverts of the test itself are accepted. -/
structure RevertConfig where
  abiDecodeBytes : Bytes → Option Bytes
  abiDecodeString : Bytes → Option String
  /-- The decoder for the known contracts. -/
  decoder : Option (Bytes → InstructionResult → String)
  internalExpectRevert : Bool

namespace RevertConfig

variable (config : RevertConfig)

def stringify (data : Bytes) : String :=
  match config.abiDecodeString data with
  | some s => s
  | none =>
    if data.all (· < 128) then String.ofList (data.map fun b => Char.ofNat b.toNat)
    else
      "0x" ++ String.ofList (data.flatMap fun b =>
        [Nat.digitChar (b.toNat / 16), Nat.digitChar (b.toNat % 16)])

/-- `CheatcodeError(string)` and `Error(string)`. -/
def revertSelectors : List Bytes := [[0xee, 0xaa, 0x9e, 0x6f], [0x08, 0xc3, 0x79, 0xa0]]

def decodeRevert (revert : Bytes) : Bytes :=
  if revertSelectors.contains (revert.take 4) then
    (config.abiDecodeBytes (revert.drop 4)).getD revert
  else revert

def firstFour (data : Bytes) : Option Bytes :=
  if 4 ≤ data.length then some (data.take 4) else none

def checkReason (isCheatcode : Bool) (reason : Option Bytes) (partialMatch : Bool)
    (status : InstructionResult) (retdata : Bytes) : Except RevertError Unit :=
  match reason with
  | none => .ok ()
  | some expectedReason =>
    if expectedReason ≠ [] ∧ retdata = [] then .error .withoutData
    else if partialMatch ∧ firstFour retdata = firstFour expectedReason then .ok ()
    else
      let actualRevert := config.decodeRevert retdata
      if actualRevert = expectedReason ∨
          (isCheatcode = true ∧ actualRevert.tails.any expectedReason.isPrefixOf) then .ok ()
      else
        let (actual, expected) :=
          match config.decoder with
          | some decode => (decode actualRevert status, decode expectedReason status)
          | none => (config.stringify actualRevert, config.stringify expectedReason)
        if expected = actual then .ok () else .error (.reason actual expected)

def handleRevert (isCheatcode : Bool) (expected : ExpectedRevert) (status : InstructionResult)
    (retdata : Bytes) : Except RevertError Unit :=
  match expected.reverter, expected.revertedBy with
  | some expectedReverter, some actualReverter =>
    if expectedReverter ≠ actualReverter then
      .error (.reverter actualReverter expectedReverter)
    else
      config.checkReason isCheatcode expected.reason expected.partialMatch status retdata
  | _, _ => config.checkReason isCheatcode expected.reason expected.partialMatch status retdata

/-- No revert is expected, or none with a reason or from a contract. -/
def handleNone (expected : ExpectedRevert) (status : InstructionResult) (retdata : Bytes) :
    Except RevertError Unit :=
  if expected.reverter = none ∧ expected.reason = none then
    if status.isOk then .ok () else .error .notExpected
  else if status.isOk then .ok ()
  else
    let reverterMatch := expected.reverter.map fun r => decide (some r = expected.revertedBy)
    let reasonMatch := expected.reason.map fun r => decide (config.decodeRevert retdata = r)
    let reason := expected.reason.map config.stringify
    match reasonMatch, reverterMatch with
    | some true, some true | some true, none | none, some true =>
      .error (.expectedNone reason expected.reverter)
    | _, _ =>
      let actual := config.stringify (config.decodeRevert retdata)
      if expected.reverter.isSome then
        .error (.otherThanNone actual (expected.revertedBy.or (some 0)) reason expected.reverter)
      else .error (.otherThanNone actual none none none)

def handleExpectRevert (isCheatcode : Bool) (expected : ExpectedRevert)
    (status : InstructionResult) (retdata : Bytes) : Except RevertError Unit :=
  if isCheatcode = false ∧ config.internalExpectRevert = false ∧
      expected.maxDepth ≤ expected.depth then
    .error .notLower
  else if expected.count = 0 then config.handleNone expected status retdata
  else if status.isOk then .error .didNotRevert
  else config.handleRevert isCheatcode expected status retdata

end RevertConfig

/-! ## The hooks -/

/-- The cheatcode: one revert is expected at a time. -/
def expectRevert (state : Option ExpectedRevert) (reason : Option Bytes) (depth : Nat)
    (cheatcode partialMatch : Bool) (reverter : Option Address) (count : Nat) :
    Except RevertError (Option ExpectedRevert) :=
  match state with
  | some _ => .error .alreadyExpected
  | none =>
    .ok (some {
      reason
      depth
      kind := if cheatcode then .cheatcode true else .default
      partialMatch
      reverter
      revertedBy := none
      maxDepth := depth
      count
      actualCount := 0 })

def initializeInterp (depth : Nat) (state : Option ExpectedRevert) : Option ExpectedRevert :=
  state.map fun expected => { expected with maxDepth := max depth expected.maxDepth }

/-- Notes the contract that reverted: the first one, or each if several reverts are expected. -/
def ExpectedRevert.recordReverter (expected : ExpectedRevert) (status : InstructionResult)
    (target : Address) : ExpectedRevert :=
  if status.isRevert ∧ expected.reverter.isSome ∧
      (expected.revertedBy = none ∨ 1 < expected.count) then
    { expected with revertedBy := some target }
  else expected

def ExpectedRevert.counted (expected : ExpectedRevert) : Option ExpectedRevert :=
  let expected := { expected with actualCount := expected.actualCount + 1 }
  if expected.actualCount < expected.count then some expected else none

/-- How a call ended: the verdict, if the revert was expected of it. -/
abbrev RevertVerdict := Option (Except RevertError Unit)

/-- The hook of the end of a call; `cheatcodeCall` tells that the inspector answered it. -/
def RevertConfig.callEnd (config : RevertConfig) (cheatcodeCall : Bool) (depth : Nat)
    (target : Address) (status : InstructionResult) (retdata : Bytes)
    (state : Option ExpectedRevert) : Option ExpectedRevert × RevertVerdict :=
  match state with
  | none => (none, none)
  | some expected =>
    let expected := expected.recordReverter status target
    if depth ≤ expected.depth then
      let needsProcessing :=
        match expected.kind with
        | .default => !cheatcodeCall
        | .cheatcode pendingProcessing => cheatcodeCall && !pendingProcessing
      if needsProcessing then
        match config.handleExpectRevert cheatcodeCall expected status retdata with
        | .error error => (none, some (.error error))
        | .ok () => (expected.counted, some (.ok ()))
      else
        match expected.kind with
        | .cheatcode _ => (some { expected with kind := .cheatcode false }, none)
        | .default => (some expected, none)
    else (some expected, none)

/-- The hook of the end of a create, which notes no contract. -/
def RevertConfig.createEnd (config : RevertConfig) (depth : Nat) (status : InstructionResult)
    (retdata : Bytes) (state : Option ExpectedRevert) : Option ExpectedRevert × RevertVerdict :=
  match state with
  | none => (none, none)
  | some expected =>
    if depth ≤ expected.depth ∧ expected.kind = .default then
      match config.handleExpectRevert false expected status retdata with
      | .error error => (none, some (.error error))
      | .ok () => (expected.counted, some (.ok ()))
    else (some expected, none)

/-! ## Call trees -/

inductive FrameEnd where
  | call (cheatcodeCall : Bool) (target : Address) (status : InstructionResult) (retdata : Bytes)
  | create (status : InstructionResult) (retdata : Bytes)
deriving DecidableEq

/-- A call or a create: one that is answered without running code, or a frame with the calls and
creates that it makes. -/
inductive CallTree where
  | answered (last : FrameEnd)
  | entered (children : List CallTree) (last : FrameEnd)

def RevertConfig.frameEnd (config : RevertConfig) (depth : Nat) (state : Option ExpectedRevert) :
    FrameEnd → Option ExpectedRevert × RevertVerdict
  | .call cheatcodeCall target status retdata =>
    config.callEnd cheatcodeCall depth target status retdata state
  | .create status retdata => config.createEnd depth status retdata state

mutual

/-- The hooks of a call or create that a frame at a depth makes, and the verdict on it. -/
def CallTree.run (config : RevertConfig) (depth : Nat) (state : Option ExpectedRevert) :
    CallTree → Option ExpectedRevert × RevertVerdict
  | .answered last => config.frameEnd depth state last
  | .entered children last =>
    config.frameEnd depth
      (CallTree.runAll config (depth + 1) (initializeInterp (depth + 1) state) children) last

def CallTree.runAll (config : RevertConfig) (depth : Nat) (state : Option ExpectedRevert) :
    List CallTree → Option ExpectedRevert
  | [] => state
  | tree :: trees => CallTree.runAll config depth (tree.run config depth state).1 trees

end

end Foundry.Cheatcodes
