import Foundry.Cheatcodes.StateDiffRuns

/-!
# Records of call trees

Without mocked calls and expected reverts the recording of a call tree can be told from the tree:
the vector of each call starts with its own access, its frame adds to that vector, and the end of
the call updates the first access and marks all of them if the call reverted.
-/

namespace Foundry.Cheatcodes

open Runs

/-- The opcode ends its frame, and so is not one of the accesses of a tree. -/
def RecordedOp.isSelfdestruct : RecordedOp → Bool
  | .selfdestruct _ => true
  | _ => false

/-- A call, a create or another access, with the states that the hooks see. -/
inductive RecordedTree where
  | call (journal : Journal) (inputs : RecordableCall)
      (body : List RecordedTree) (ending : Ending)
  | create (journal : Journal) (inputs : CreateInputs) (address : Address)
      (body : List RecordedTree) (ending : Ending)
  | op (journal : Journal) (address : Address)
      (op : { op : RecordedOp // op.isSelfdestruct = false })

namespace RecordedTree

mutual

def events : RecordedTree → List RecordEvent
  | call journal inputs body ending =>
    .call journal inputs.1 .frame :: (eventsAll body ++ [.finish ending])
  | create journal inputs address body ending =>
    .create journal inputs address .frame :: (eventsAll body ++ [.finish ending])
  | .op journal address code => [.op journal address code.1]

def eventsAll : List RecordedTree → List RecordEvent
  | [] => []
  | tree :: trees => tree.events ++ eventsAll trees

end

def finishVector (call : Option CallInputs) (ending : Ending) (vector : List AccountAccess) :
    List AccountAccess :=
  (if ending.status.isRevert then vector.map AccountAccess.markReverted else vector).modifyHead
    (ending.update call)

def opInto (journal : Journal) (depth : Nat) (address : Address) (vector : List AccountAccess) :
    RecordedOp → List AccountAccess
  | .selfdestruct target => vector ++ [recordSelfdestruct journal depth address target]
  | .sload key => appendStorageAccess (storageRead journal address key) depth vector
  | .sstore key value => appendStorageAccess (storageWrite journal address key value) depth vector
  | .extcodecopy target => vector ++ [recordExt journal depth address .extcodecopy target]
  | .extcodesize target => vector ++ [recordExt journal depth address .extcodesize target]
  | .extcodehash target => vector ++ [recordExt journal depth address .extcodehash target]
  | .balance target => vector ++ [recordExt journal depth address .balance target]

mutual

/-- The vector of a frame at a depth after one of its calls, creates or opcodes. -/
def recordInto (depth : Nat) (vector : List AccountAccess) : RecordedTree → List AccountAccess
  | call journal inputs body ending =>
    vector ++ finishVector (some inputs.1) ending
      (recordAllInto (depth + 1) [recordCall journal depth inputs.1] body)
  | create journal inputs address body ending =>
    vector ++ finishVector none ending
      (recordAllInto (depth + 1) [recordCreate journal depth inputs address] body)
  | .op journal address code => opInto journal depth address vector code.1

def recordAllInto (depth : Nat) (vector : List AccountAccess) :
    List RecordedTree → List AccountAccess
  | [] => vector
  | tree :: trees => recordAllInto depth (tree.recordInto depth vector) trees

end

/-! ## The first access of a vector -/

variable {vector : List AccountAccess} {access : AccountAccess} (config : RevertConfig)
  (ending : Ending) (call : Option CallInputs)

def SameCall (access access' : AccountAccess) : Prop :=
  { access with storageAccesses := [] } = { access' with storageAccesses := [] }

theorem SameCall.depth {access' : AccountAccess} (h : SameCall access access') :
    access.depth = access'.depth := by
  have hdepth := congrArg AccountAccess.depth h
  exact hdepth

@[simp] theorem depth_update
    (access : AccountAccess) : (ending.update call access).depth = access.depth := by
  unfold Ending.update updateCall updateCreate
  split <;> split <;> rfl

@[simp] theorem storageAccesses_update (access : AccountAccess) :
    (ending.update call access).storageAccesses = access.storageAccesses := by
  unfold Ending.update updateCall updateCreate
  split <;> split <;> rfl

/-- The vector starts with the given access, up to storage accesses. -/
def StartsWith (access : AccountAccess) (vector : List AccountAccess) : Prop :=
  ∃ first others, vector = first :: others ∧ SameCall first access

theorem startsWith_cons (access : AccountAccess) (others : List AccountAccess) :
    StartsWith access (access :: others) := ⟨access, others, rfl, rfl⟩

section

variable (h : StartsWith access vector)

include h

theorem StartsWith.append (accesses : List AccountAccess) :
    StartsWith access (vector ++ accesses) := by
  obtain ⟨first, others, rfl, hfirst⟩ := h
  exact ⟨first, others ++ accesses, rfl, hfirst⟩

theorem StartsWith.storage (storage : StorageAccess) (depth : Nat) :
    StartsWith access (appendStorageAccess storage depth vector) := by
  obtain ⟨first, others, rfl, hfirst⟩ := h
  simp only [appendStorageAccess]
  split
  · split
    · exact ⟨_, _, rfl, hfirst⟩
    · split <;> exact ⟨_, _, rfl, hfirst⟩
  · exact ⟨_, _, rfl, hfirst⟩

theorem StartsWith.recordInto (depth : Nat) (tree : RecordedTree) :
    StartsWith access (tree.recordInto depth vector) := by
  cases tree with
  | call journal inputs body ending => exact h.append _
  | create journal inputs address body ending => exact h.append _
  | op journal address code =>
    unfold RecordedTree.recordInto opInto
    split
    · exact h.append _
    · exact h.storage _ _
    · exact h.storage _ _
    all_goals exact h.append _

theorem StartsWith.recordAllInto (depth : Nat) (trees : List RecordedTree) :
    StartsWith access (RecordedTree.recordAllInto depth vector trees) := by
  induction trees generalizing vector with
  | nil => exact h
  | cons tree trees ih => exact ih (h.recordInto depth tree)

theorem StartsWith.ne_nil : vector ≠ [] := by
  obtain ⟨first, others, rfl, _⟩ := h
  simp

theorem StartsWith.mergeLast (call : Option CallInputs) (ending : Ending) (below : AccessStack) :
    mergeLast access.depth ending.status.isRevert (ending.update call) (vector :: below) =
      mergeInto (finishVector call ending vector) below := by
  obtain ⟨first, others, rfl, hfirst⟩ := h
  have hdepth : first.depth = access.depth := hfirst.depth
  unfold Cheatcodes.mergeLast finishVector
  cases ending.status.isRevert with
  | true => simp [AccountAccess.markReverted, hdepth]
  | false => simp [hdepth]

end

/-! ## Runs -/

/-- A vector on top of others; there is none before the first access. -/
def stackOf (vector : List AccountAccess) (below : AccessStack) : AccessStack :=
  if vector = [] then below else vector :: below

/-- The run leaves the stack, and opens and closes frames in pairs. -/
structure Leaves (recording recording' : Recording) (stack : AccessStack) : Prop where
  recorder : recording'.recorder = ⟨some stack, none, none⟩
  frames : recording'.frames = recording.frames
  outer : recording'.outer = recording.outer

theorem Leaves.depth {recording recording' : Recording} {stack : AccessStack}
    (h : Leaves recording recording' stack) : recording'.depth = recording.depth := by
  rw [Recording.depth, h.outer, h.frames, Recording.depth]

theorem stackOf_opInto (journal : Journal) (depth : Nat) (address : Address) {code : RecordedOp}
    (hcode : code.isSelfdestruct = false) {below : AccessStack}
    (hbelow : vector = [] → below = []) :
    recordStateDiffs journal depth address code (stackOf vector below) =
      stackOf (opInto journal depth address vector code) below := by
  cases vector with
  | nil =>
    rw [hbelow rfl]
    cases code with
    | selfdestruct target => cases hcode
    | _ => rfl
  | cons first others =>
    have hstorage : ∀ storage,
        stackOf (appendStorageAccess storage depth (first :: others)) below =
          appendStorageAccess storage depth (first :: others) :: below := fun storage =>
      if_neg ((startsWith_cons first others).storage storage depth).ne_nil
    cases code with
    | selfdestruct target => cases hcode
    | sload key => exact (hstorage _).symm
    | sstore key value => exact (hstorage _).symm
    | _ => rfl

theorem mergeInto_stackOf {vector' : List AccountAccess} (hvector : vector' ≠ [])
    {below : AccessStack} (hbelow : vector = [] → below = []) :
    mergeInto vector' (stackOf vector below) = stackOf (vector ++ vector') below := by
  cases vector with
  | nil =>
    rw [hbelow rfl]
    simp [stackOf, mergeInto, hvector]
  | cons first others => rfl

theorem finish_plain (stack : AccessStack) {depth : Nat}
    (hdepth : 0 < depth) {call : Option CallInputs}
    (hcall : ∀ inputs ∈ call, inputs.cheatcodeCall = false) (ending : Ending) :
    (⟨some stack, none, none⟩ : Recorder).finish config depth call ending =
      ⟨some (Cheatcodes.mergeLast depth ending.status.isRevert (ending.update call) stack), none,
        none⟩ := by
  cases call with
  | none =>
    simp [Recorder.finish, Recorder.createEnd, RevertConfig.createEnd, Recorder.pop, hdepth,
      Ending.update]
  | some inputs =>
    simp [Recorder.finish, Recorder.callEnd, RevertConfig.callEnd, Recorder.discards,
      Recorder.assumed, Recorder.pop, hdepth, hcall inputs rfl, Ending.update]

theorem finishVector_ne_nil (ending : Ending) (h : vector ≠ []) :
    finishVector call ending vector ≠ [] := by
  cases vector with
  | nil => exact absurd rfl h
  | cons first others =>
    unfold finishVector
    cases ending.status.isRevert <;> simp

/-- The recording when a frame of a call or create starts. -/
def entered (recording : Recording) (call : Option RecordableCall) (access : AccountAccess) :
    Recording :=
  let recording := recording.enter call access
  { recording with recorder := recording.recorder.initializeInterp recording.depth }

section Run

variable {recording recording' : Recording} {vector : List AccountAccess} {below : AccessStack}

theorem entered_recorder
    (hrecorder : recording.recorder = ⟨some (stackOf vector below), none, none⟩)
    (call : Option RecordableCall) (access : AccountAccess) :
    (entered recording call access).recorder =
      ⟨some (stackOf [access] (stackOf vector below)), none, none⟩ := by
  simp only [entered, Recording.enter, hrecorder]
  rfl

theorem leaves_leave (config : RevertConfig) (hbelow : vector = [] → below = [])
    {call : Option RecordableCall} {access : AccountAccess}
    (hdepth : access.depth = recording.depth) {vector' : List AccountAccess}
    (hvector : StartsWith access vector')
    (h : Leaves (entered recording call access) recording' (stackOf vector' (stackOf vector below)))
    (ending : Ending) :
    Leaves recording (recording'.leave config ending)
      (stackOf (vector ++ finishVector (call.map Subtype.val) ending vector') below) := by
  have hframes : recording'.frames =
      ⟨call, recording.log.length, access.origin⟩ :: recording.frames := h.frames
  have hdepth' : recording'.outer + 1 + recording.frames.length = access.depth := by
    rw [h.outer, hdepth]
    rfl
  have hstack : stackOf vector' (stackOf vector below) = vector' :: stackOf vector below :=
    if_neg hvector.ne_nil
  constructor
  · simp only [Recording.leave, hframes, h.recorder, hstack, hdepth']
    rw [finish_plain config _ (by omega) (cheatcodeCall_eq_false call),
      hvector.mergeLast, mergeInto_stackOf (finishVector_ne_nil _ ending hvector.ne_nil) hbelow]
  · simp [Recording.leave, hframes]
  · simp only [Recording.leave, hframes]
    exact h.outer

end Run

mutual

theorem leaves_events (config : RevertConfig) {recording : Recording}
    {vector : List AccountAccess} {below : AccessStack}
    (hrecorder : recording.recorder = ⟨some (stackOf vector below), none, none⟩)
    (hbelow : vector = [] → below = []) (tree : RecordedTree) :
    Leaves recording (run (Recording.step config) recording tree.events)
      (stackOf (tree.recordInto recording.depth vector) below) := by
  cases tree with
  | call journal inputs body ending =>
    have hbody := leaves_eventsAll config
      (entered_recorder hrecorder (some inputs) (recordCall journal recording.depth inputs.1))
      (by simp) body
    have hstep : recording.step config (.call journal inputs.1 .frame) =
        entered recording (some inputs) (recordCall journal recording.depth inputs.1) := by
      simp [Recording.step, inputs.2, Recording.pass, entered]
    have hleave := leaves_leave config hbelow rfl ((startsWith_cons _ []).recordAllInto _ body)
      hbody ending
    simp only [events, run, List.foldl_cons, List.foldl_append, List.foldl_nil, hstep]
    exact hleave
  | create journal inputs address body ending =>
    have hbody := leaves_eventsAll config
      (entered_recorder hrecorder none (recordCreate journal recording.depth inputs address))
      (by simp) body
    have hleave := leaves_leave config hbelow rfl ((startsWith_cons _ []).recordAllInto _ body)
      hbody ending
    simp only [events, run, List.foldl_cons, List.foldl_append, List.foldl_nil]
    exact hleave
  | op journal address code =>
    refine ⟨?_, rfl, rfl⟩
    simp only [events, run, List.foldl_cons, List.foldl_nil, Recording.step, Recorder.step,
      hrecorder, Option.map_some, stackOf_opInto journal recording.depth address code.2 hbelow]
    rfl

theorem leaves_eventsAll (config : RevertConfig) {recording : Recording}
    {vector : List AccountAccess} {below : AccessStack}
    (hrecorder : recording.recorder = ⟨some (stackOf vector below), none, none⟩)
    (hbelow : vector = [] → below = []) (trees : List RecordedTree) :
    Leaves recording (run (Recording.step config) recording (eventsAll trees))
      (stackOf (recordAllInto recording.depth vector trees) below) := by
  cases trees with
  | nil => exact ⟨hrecorder, rfl, rfl⟩
  | cons tree trees =>
    have htree := leaves_events config hrecorder hbelow tree
    have hbelow' : tree.recordInto recording.depth vector = [] → below = [] := by
      intro hnil
      cases vector with
      | nil => exact hbelow rfl
      | cons first others =>
        exact absurd hnil ((startsWith_cons first others).recordInto _ tree).ne_nil
    have htrees := leaves_eventsAll config htree.recorder hbelow' trees
    rw [htree.depth] at htrees
    simp only [eventsAll, run, List.foldl_append]
    exact ⟨htrees.recorder, htrees.frames.trans htree.frames, htrees.outer.trans htree.outer⟩

end

/-- The records of the calls, creates and opcodes of the frame that starts a recording. -/
def recorded (config : RevertConfig) (outer : Nat) (trees : List RecordedTree) :
    List AccountAccess :=
  (run (Recording.step config) (.start ⟨none, none, none⟩ outer)
    (eventsAll trees)).recorder.getStateDiff

theorem recorded_eq (outer : Nat) (trees : List RecordedTree) :
    recorded config outer trees = recordAllInto (outer + 1) [] trees := by
  have hleaves : Leaves (.start ⟨none, none, none⟩ outer) _
      (stackOf (recordAllInto (outer + 1) [] trees) []) :=
    leaves_eventsAll config rfl (fun _ => rfl) trees
  rw [recorded, Recorder.getStateDiff, hleaves.recorder]
  simp only [stackOf]
  split
  · next hnil => simp [hnil]
  · simp

end RecordedTree

end Foundry.Cheatcodes
