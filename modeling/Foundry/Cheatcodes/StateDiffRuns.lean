import Foundry.Base.Runs
import Foundry.Cheatcodes.StateDiff

/-!
# Runs with recorded state diffs

The frame that starts the recording makes calls and creates, which nest, are answered by the
inspector, are expected to revert or fail.  An observer keeps a log of all accesses in the order in
which they are made, each with the calls and creates it belongs to.  The recording mirrors the run
as long as the stack has a vector for each open frame, and holds the accesses of the log, marked as
reverted if one of their calls or creates was undone.
-/

namespace Foundry.Cheatcodes

open Runs

/-! ## What is compared -/

/-- The storage access as it was when it was recorded. -/
def StorageAccess.origin (access : StorageAccess) : StorageAccess :=
  { access with reverted := false }

def AccountAccess.origin (access : AccountAccess) : AccountAccess :=
  { access with
    newBalance := 0
    newNonce := 0
    deployedCode := []
    reverted := false
    storageAccesses := [] }

inductive Touched where
  | account (origin : AccountAccess)
  | storage (origin : StorageAccess)
deriving DecidableEq

/-- An access, and whether it is marked as reverted. -/
structure Mark where
  touched : Touched
  reverted : Bool
deriving DecidableEq

def StorageAccess.mark (access : StorageAccess) : Mark := ⟨.storage access.origin, access.reverted⟩

/-- A record stands for its own access, and then for its storage accesses. -/
def AccountAccess.marks (access : AccountAccess) : List Mark :=
  ⟨.account access.origin, access.reverted⟩ :: access.storageAccesses.map StorageAccess.mark

def marksOf (accesses : List AccountAccess) : List Mark := accesses.flatMap AccountAccess.marks

/-- An access that was made, and the calls and creates it belongs to: the one it is the record of,
and the open ones.  They are told by their places in the log. -/
structure Entry where
  touched : Touched
  calls : List Nat
deriving DecidableEq

/-- An access is reverted if one of its calls and creates was undone. -/
def Entry.mark (undone : List Nat) (entry : Entry) : Mark :=
  ⟨entry.touched, entry.calls.any fun call => decide (call ∈ undone)⟩

def Entry.account? (entry : Entry) : Option AccountAccess :=
  match entry.touched with
  | .account origin => some origin
  | .storage _ => none

/-! ## Events -/

/-- A call that is not one to the cheatcodes or the console. -/
abbrev RecordableCall := { call : CallInputs // call.cheatcodeCall = false }

theorem cheatcodeCall_eq_false (call : Option RecordableCall) :
    ∀ inputs ∈ call.map Subtype.val, inputs.cheatcodeCall = false := by
  intro inputs hinputs
  obtain ⟨call, _, rfl⟩ := Option.map_eq_some_iff.mp hinputs
  exact call.2

/-- A call or create that is open: its place in the log, and its access. -/
structure RecordedFrame where
  /-- The inputs of a call, or none for a create. -/
  call : Option RecordableCall
  id : Nat
  origin : AccountAccess
deriving DecidableEq

inductive RecordAnswer where
  /-- By the hook, before it is recorded: a mocked call, or an error. -/
  | early (ending : Ending)
  /-- Without a frame. -/
  | immediate (ending : Ending)
  | frame

inductive RecordEvent where
  | call (journal : Journal) (inputs : CallInputs) (answer : RecordAnswer)
  | create (journal : Journal) (inputs : CreateInputs) (address : Address) (answer : RecordAnswer)
  /-- The frame ends. -/
  | finish (ending : Ending)
  | op (journal : Journal) (address : Address) (op : RecordedOp)
  | expectRevert (reason : Option Bytes) (cheatcode partialMatch : Bool)
      (reverter : Option Address) (count : Nat)
  | assumeNoRevert

/-- The recorder, the frames below the one that started the recording, the open calls and creates
that it made (innermost first), and what the observer keeps. -/
structure Recording where
  recorder : Recorder
  outer : Nat
  frames : List RecordedFrame
  log : List Entry
  undone : List Nat
deriving DecidableEq

namespace Recording

def start (recorder : Recorder) (outer : Nat) : Recording :=
  ⟨recorder.startStateDiffRecording, outer, [], [], []⟩

section

variable (self : Recording)

def depth : Nat := self.outer + 1 + self.frames.length

def stack : AccessStack := self.recorder.recordedAccountDiffsStack.getD []

def calls : List Nat := self.frames.map RecordedFrame.id

def enter (call : Option RecordableCall) (access : AccountAccess) : Recording :=
  { self with
    recorder := self.recorder.push access
    frames := ⟨call, self.log.length, access.origin⟩ :: self.frames
    log := self.log ++ [⟨.account access.origin, self.log.length :: self.calls⟩] }

def leave (config : RevertConfig) (ending : Ending) : Recording :=
  match self.frames with
  | [] => self
  | frame :: frames =>
    { self with
      recorder := self.recorder.finish config (self.outer + 1 + frames.length)
        (frame.call.map Subtype.val) ending
      frames
      undone := if ending.status.isOk then self.undone else frame.id :: self.undone }

def pass (config : RevertConfig) (call : Option RecordableCall) (access : AccountAccess)
    (answer : RecordAnswer) : Recording :=
  match answer with
  | .early ending =>
    { self with
      recorder := self.recorder.finish config self.depth (call.map Subtype.val) ending }
  | .immediate ending => (self.enter call access).leave config ending
  | .frame =>
    let self := self.enter call access
    { self with recorder := self.recorder.initializeInterp self.depth }

/-- A call to the cheatcodes or to the console, where there is no code. -/
def cheatcode (config : RevertConfig) (inputs : CallInputs) : RecordAnswer → Recording
  | .early ending | .immediate ending =>
    { self with recorder := self.recorder.callEnd config self.depth inputs ending }
  | .frame => self

/-- A storage access of the innermost frame, which may resume its context. -/
def storageEntries (access : StorageAccess) : List Entry :=
  match self.frames with
  | [] => []
  | frame :: _ =>
    match ((self.log.drop (frame.id + 1)).filterMap Entry.account?).getLast? with
    | none => [⟨.storage access.origin, self.calls⟩]
    | some last =>
      if last.kind = .resume then [⟨.storage access.origin, self.calls⟩]
      else
        [⟨.account (frame.origin.resume access).origin, self.calls⟩,
          ⟨.storage access.origin, self.calls⟩]

def accountEntries (access : AccountAccess) : List Entry := [⟨.account access.origin, self.calls⟩]

def opEntries (journal : Journal) (address : Address) : RecordedOp → List Entry
  | .selfdestruct target =>
    if self.log = [] then []
    else self.accountEntries (recordSelfdestruct journal self.depth address target)
  | .sload key => self.storageEntries (storageRead journal address key)
  | .sstore key value => self.storageEntries (storageWrite journal address key value)
  | .extcodecopy target =>
    self.accountEntries (recordExt journal self.depth address .extcodecopy target)
  | .extcodesize target =>
    self.accountEntries (recordExt journal self.depth address .extcodesize target)
  | .extcodehash target =>
    self.accountEntries (recordExt journal self.depth address .extcodehash target)
  | .balance target => self.accountEntries (recordExt journal self.depth address .balance target)

end

def step (config : RevertConfig) (self : Recording) : RecordEvent → Recording
  | .call journal inputs answer =>
    if h : inputs.cheatcodeCall = true then self.cheatcode config inputs answer
    else
      self.pass config (some ⟨inputs, Bool.eq_false_iff.mpr h⟩)
        (recordCall journal self.depth inputs) answer
  | .create journal inputs address answer =>
    self.pass config none (recordCreate journal self.depth inputs address) answer
  | .finish ending => self.leave config ending
  | .op journal address op =>
    { self with
      recorder := self.recorder.step journal self.depth address op
      log := self.log ++ self.opEntries journal address op }
  | .expectRevert reason cheatcode partialMatch reverter count =>
    match expectRevert self.recorder.expectedRevert reason self.depth cheatcode partialMatch
        reverter count with
    | .error _ => self
    | .ok expectedRevert => { self with recorder := { self.recorder with expectedRevert } }
  | .assumeNoRevert =>
    { self with
      recorder := { self.recorder with
        assumeNoRevert := self.recorder.assumeNoRevert.or (some self.depth) } }

/-- The open frames that recorded something.  The frame that started the recording is one of them
from its first access that is not an open call. -/
def recordedFrames (self : Recording) : Nat :=
  self.frames.length + if self.log ≠ [] ∧ 0 ∉ self.calls then 1 else 0

/-- The recording is as the run: a vector for each open frame that recorded something, and all
accesses in order, marked as reverted where they are. -/
structure Mirrors (recording : Recording) : Prop where
  pending : recording.stack.length = recording.recordedFrames
  marks : marksOf recording.recorder.getStateDiff = recording.log.map (Entry.mark recording.undone)

instance : DecidablePred Mirrors := fun recording =>
  decidable_of_iff (recording.stack.length = recording.recordedFrames ∧
    marksOf recording.recorder.getStateDiff = recording.log.map (Entry.mark recording.undone))
    ⟨fun h => ⟨h.1, h.2⟩, fun h => ⟨h.pending, h.marks⟩⟩

end Recording

/-! ## When the recording stays balanced -/

/-- The hook of the end returns before it looks at the recording: the revert was expected, or
assumed not to happen. -/
def Recorder.returns (self : Recorder) (config : RevertConfig) (depth : Nat)
    (call : Option CallInputs) (ending : Ending) : Bool :=
  match call with
  | some call =>
    self.discards depth call.cheatcodeCall ending.status ||
      (config.callEnd call.cheatcodeCall depth call.targetAddress ending.status ending.retdata
        self.expectedRevert).2.isSome
  | none =>
    (config.createEnd depth ending.status ending.retdata self.expectedRevert).2.isSome

def Ending.update (ending : Ending) : Option CallInputs → AccountAccess → AccountAccess
  | some call => updateCall ending.journal call.targetAddress
  | none => updateCreate ending.journal ending.address

namespace Recording

/-- A recorded call or create ends with the vector on top of `below` others: it neither halts nor
is its revert handled; or the hook returns early, but nothing had to be marked or merged. -/
def EndsWell (returns : Bool) (status : InstructionResult) (below : Nat) : Prop :=
  if returns then below = 0 ∧ status.isOk = true else status.isOk = true ∨ status.isRevert = true

/-- A call or create that is not recorded ends: the hook returns early, or there is no vector, or
only one, which has nothing left to be marked. -/
def Unharmed (self : Recording) (returns : Bool) (status : InstructionResult) : Prop :=
  returns = true ∨ self.stack = [] ∨
    self.stack.length = 1 ∧
      (status.isRevert = true → ∀ entry ∈ self.log, (entry.mark self.undone).reverted = true)

/-- The condition for a call or create that is not a cheatcode. -/
def PassesWell (self : Recording) (config : RevertConfig) (call : Option CallInputs) :
    RecordAnswer → Prop
  | .early ending =>
    self.Unharmed (self.recorder.returns config self.depth call ending) ending.status
  | .immediate ending =>
    EndsWell (self.recorder.returns config self.depth call ending) ending.status self.stack.length
  | .frame => True

def Balanced (config : RevertConfig) (self : Recording) : RecordEvent → Prop
  | .call _ inputs answer =>
    inputs.cheatcodeCall = false → self.PassesWell config (some inputs) answer
  | .create _ _ _ answer => self.PassesWell config none answer
  | .finish ending =>
    match self.frames with
    | [] => True
    | frame :: frames =>
      EndsWell (self.recorder.returns config (self.outer + 1 + frames.length)
        (frame.call.map Subtype.val) ending) ending.status (self.stack.length - 1)
  | .op .. | .expectRevert .. | .assumeNoRevert => True

end Recording

end Foundry.Cheatcodes
