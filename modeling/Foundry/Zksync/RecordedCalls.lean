import Foundry.Zksync.StorageRecorder

/-!
# Records of a trace

What the recorder makes of a trace can be told from the forest of recorded calls: the records of the
calls inside a call follow its own in the order in which those calls end.  This is the order in
which they start exactly where no call inside a call has a call inside it.
-/

namespace Foundry.Zksync

open AccountAccesses List Option

/-! ## Runs -/

@[simp] theorem record_nil (s : AccountAccesses) : record s [] = some s := rfl

@[simp] theorem record_cons (s : AccountAccesses) (event : RecorderEvent)
    (events : List RecorderEvent) :
    record s (event :: events) = (event.apply s).bind fun s => record s events := rfl

theorem record_append (s : AccountAccesses) (events events' : List RecorderEvent) :
    record s (events ++ events') = (record s events).bind fun s => record s events' :=
  foldlM_append

namespace RecordedNode

/-! ## The mark of a create -/

def hasCall : List RecordedNode → Bool
  | [] => false
  | call _ _ _ :: _ => true
  | access _ :: nodes => hasCall nodes

section

variable (mark : Option (Nat × CallAddresses))

def mergeMark (nodes : List RecordedNode) : List RecordedNode :=
  match mark with
  | none => nodes
  | some (_, addresses) => mergeConstructor addresses nodes

def markAfter (nodes : List RecordedNode) : Option (Nat × CallAddresses) :=
  if hasCall nodes then none else mark

theorem mergeConstructor_append (addresses : CallAddresses) (nodes nodes' : List RecordedNode) :
    mergeConstructor addresses (nodes ++ nodes') =
      if hasCall nodes then mergeConstructor addresses nodes ++ nodes'
      else mergeConstructor addresses nodes ++ mergeConstructor addresses nodes' := by
  induction nodes with
  | nil => simp [mergeConstructor, hasCall]
  | cons node nodes ih =>
    cases node with
    | access storage =>
      simp only [cons_append, mergeConstructor, ih, hasCall]
      by_cases h : hasCall nodes = true <;> simp [h]
    | call start body newBalance =>
      simp only [cons_append, mergeConstructor, hasCall]
      split <;> simp

section

variable (nodes nodes' : List RecordedNode)

private theorem mergeMark_append : mergeMark mark (nodes ++ nodes') =
      mergeMark mark nodes ++ mergeMark (markAfter mark nodes) nodes' := by
  unfold mergeMark markAfter
  cases mark with
  | none => simp
  | some marked =>
    dsimp only
    rw [mergeConstructor_append]
    split <;> rfl

private theorem hasCall_append : hasCall (nodes ++ nodes') = (hasCall nodes || hasCall nodes') := by
  induction nodes with
  | nil => rfl
  | cons node nodes ih =>
    cases node with
    | access storage => exact ih
    | call start body newBalance => rfl

private theorem markAfter_append :
    markAfter mark (nodes ++ nodes') = markAfter (markAfter mark nodes) nodes' := by
  unfold markAfter
  rw [hasCall_append]
  cases hasCall nodes <;> simp

theorem accesses_append : accesses (nodes ++ nodes') = accesses nodes ++ accesses nodes' := by
  induction nodes with
  | nil => rfl
  | cons node nodes ih =>
    cases node with
    | access storage => simp [accesses, ih]
    | call start body newBalance => simp [accesses, ih]

end

private theorem forestAll_append (enclosing : Nat) (nodes nodes' : List RecordedNode) :
    forestAll enclosing (nodes ++ nodes') =
      forestAll enclosing nodes ++ forestAll enclosing nodes' := by
  induction nodes with
  | nil => rfl
  | cons node nodes ih => simp [forestAll, ih]

/-! ## Inside a call -/

def withAccesses (top : AccountAccess) (nodes : List RecordedNode) : AccountAccess :=
  { top with storageAccesses := top.storageAccesses ++ accesses nodes }

def startMark (depth : Nat) (start : CallStart) : Option (Nat × CallAddresses) :=
  match start.callType with
  | .call => none
  | .create _ => some (depth + 1, start.addresses)

/-- The call is the constructor of the create that is marked. -/
def constructs (start : CallStart) : Bool := mark.any fun marked => isConstructor marked.2 start

end

end RecordedNode

open RecordedNode

/-- The recorder inside the call with the record `top`.  A mark belongs to this call. -/
structure InCall where
  records : List AccountAccess
  pending : List AccountAccess
  inner : List AccountAccess
  top : AccountAccess
  tracker : List Bool
  mark : Option (Nat × CallAddresses)
  marks : ∀ marked, mark = some marked → marked.1 = top.depth + 1

namespace InCall

section

variable (s : InCall)

def state : AccountAccesses := ⟨s.records, s.top :: s.pending, s.inner, true, s.tracker, s.mark⟩

/-- After recorded nodes: their accesses are in the record of the call, and their calls in the inner
records in the order in which they end. -/
def after (nodes : List RecordedNode) : InCall where
  records := s.records
  pending := s.pending
  inner := s.inner ++ Rose.postorderAll (forestAll s.top.depth (mergeMark s.mark nodes))
  top := withAccesses s.top (mergeMark s.mark nodes)
  tracker := s.tracker
  mark := markAfter s.mark nodes
  marks := by
    unfold markAfter
    split
    · intro marked h
      cases h
    · exact s.marks

def atStart (records pending inner : List AccountAccess) (tracker : List Bool) (depth : Nat)
    (start : CallStart) : InCall where
  records := records
  pending := pending
  inner := inner
  top := start.pendingRecord depth
  tracker := false :: tracker
  mark := startMark depth start
  marks := by
    intro marked h
    unfold startMark at h
    split at h
    · cases h
    · cases h
      rfl

/-- At the start of a call that has a record of its own. -/
def enter (start : CallStart) : InCall :=
  atStart s.records (s.top :: s.pending) s.inner s.tracker (s.top.depth + 1) start

def skip : InCall := { s with tracker := true :: s.tracker }

def construct : InCall where
  records := s.records
  pending := s.pending
  inner := s.inner
  top := s.top
  tracker := true :: s.tracker
  mark := none
  marks := by simp

theorem state_after_append (nodes nodes' : List RecordedNode) :
    ((s.after nodes).after nodes').state = (s.after (nodes ++ nodes')).state := by
  simp only [after, withAccesses, accesses_append, mergeMark_append, markAfter_append,
    forestAll_append, Rose.postorderAll_append, append_assoc]

theorem state_after_nil : (s.after []).state = s.state := by
  cases hmark : s.mark <;>
    simp [state, after, hmark, mergeMark, mergeConstructor, withAccesses, accesses, forestAll,
      Rose.postorderAll, markAfter, hasCall]

theorem recordAccess_state (storage : StorageAccess) :
    recordAccess storage s.state = some (s.after (ofAccess storage)).state := by
  unfold recordAccess ofAccess
  split
  · next h => cases h
  · split
    · rw [state_after_nil]
    · cases hmark : s.mark <;>
        simp [state, after, hmark, mergeMark, mergeConstructor, withAccesses, accesses, forestAll,
          forest, Rose.postorderAll, markAfter, hasCall]

theorem resetMark_eq_none : resetMark s.top.depth s.mark = none := by
  cases hmark : s.mark with
  | none => rfl
  | some marked =>
    have hdepth := s.marks marked hmark
    simp only [resetMark]
    rw [if_pos (by omega)]

end

/-! ## The start and the end of a call inside a call -/

theorem callType_of_constructs {mark : Option (Nat × CallAddresses)} {start : CallStart}
    (h : constructs mark start = true) : start.callType = .call := by
  cases mark with
  | none => cases h
  | some marked =>
    simp only [constructs, any_some, isConstructor, Bool.and_eq_true, decide_eq_true_eq] at h
    exact h.1

variable {start : CallStart} {s : InCall}

theorem recordCallStart_system (h : start.isSystem = true) (s : AccountAccesses)
    (hs : s.isRecording = true) :
    recordCallStart start s = { s with callSkipTracker := true :: s.callSkipTracker } := by
  simp [recordCallStart, h, hs]

theorem isMarked_state (s : InCall) (hcall : start.callType = .call) :
    isMarked s.state start = constructs s.mark start := by
  cases hmark : s.mark with
  | none => simp [isMarked, state, hmark, constructs]
  | some marked =>
    obtain ⟨depth, addresses⟩ := marked
    have hdepth : depth = s.top.depth + 1 := s.marks _ hmark
    simp [isMarked, state, lastDepth, hmark, hdepth, constructs, isConstructor, hcall, eq_comm]

theorem recordCallStart_construct (hsystem : start.isSystem = false)
    (h : constructs s.mark start = true) :
    recordCallStart start s.state = s.construct.state := by
  have htype := callType_of_constructs h
  have hmarked := (isMarked_state s htype).trans h
  unfold state at hmarked
  simp [recordCallStart, hsystem, htype, state, hmarked, construct]

theorem recordCallStart_enter (hsystem : start.isSystem = false)
    (h : constructs s.mark start = false) :
    recordCallStart start s.state = (s.enter start).state := by
  cases htype : start.callType with
  | create bytecodeHash =>
    simp [recordCallStart, hsystem, htype, state, enter, atStart, lastDepth, startMark]
  | call =>
    have hmarked := (isMarked_state s htype).trans h
    unfold state at hmarked
    simp [recordCallStart, hsystem, htype, state, hmarked, enter, atStart, lastDepth, startMark]

theorem mergeMark_startMark (depth : Nat) (start : CallStart) (nodes : List RecordedNode) :
    mergeMark (startMark depth start) nodes = bodyOf start nodes := by
  unfold startMark bodyOf
  cases start.callType <;> rfl

theorem top_atStart_after (records pending inner : List AccountAccess) (tracker : List Bool)
    (depth : Nat) (nodes : List RecordedNode) (newBalance : U256) :
    { ((atStart records pending inner tracker depth start).after nodes).top with
        newBalance := newBalance } = recordOf depth start (bodyOf start nodes) newBalance := by
  simp [after, atStart, mergeMark_startMark, withAccesses, recordOf, CallStart.pendingRecord]

theorem mergeMark_call {mark : Option (Nat × CallAddresses)} (h : constructs mark start = false)
    (body : List RecordedNode) (newBalance : U256) :
    mergeMark mark [call start body newBalance] = [call start body newBalance] := by
  cases mark with
  | none => rfl
  | some marked =>
    have hmarked : isConstructor marked.2 start = false := h
    simp [mergeMark, mergeConstructor, hmarked]

theorem recordCallEnd_enter (h : constructs s.mark start = false)
    (nodes : List RecordedNode) (newBalance : U256) :
    recordCallEnd newBalance ((s.enter start).after nodes).state =
      some (s.after [call start (bodyOf start nodes) newBalance]).state := by
  let s' := (s.enter start).after nodes
  have hend : recordCallEnd newBalance s'.state =
      some ⟨s.records, s.top :: s.pending, s'.inner ++ [{ s'.top with newBalance := newBalance }],
        true, s.tracker, resetMark s'.top.depth s'.mark⟩ := rfl
  have htop : { s'.top with newBalance := newBalance } = _ := top_atStart_after _ _ _ _ _ _ _
  rw [hend, resetMark_eq_none, htop]
  simp [s', state, after, enter, atStart, mergeMark_startMark, mergeMark_call h, withAccesses,
    accesses, markAfter, hasCall, forestAll, forest, Rose.postorderAll, Rose.postorder,
    CallStart.pendingRecord]

theorem recordCallEnd_outer (records : List AccountAccess) (tracker : List Bool) (depth : Nat)
    (nodes : List RecordedNode) (newBalance : U256) :
    recordCallEnd newBalance ((atStart records [] [] tracker depth start).after nodes).state =
      some ⟨records ++ recordOf depth start (bodyOf start nodes) newBalance ::
        Rose.postorderAll (forestAll depth (bodyOf start nodes)), [], [], true, tracker, none⟩ := by
  let s' := (atStart records [] [] tracker depth start).after nodes
  have hend : recordCallEnd newBalance s'.state =
      some ⟨records ++ { s'.top with newBalance := newBalance } :: s'.inner, [], [], true, tracker,
        resetMark s'.top.depth s'.mark⟩ := rfl
  have htop : { s'.top with newBalance := newBalance } = _ := top_atStart_after _ _ _ _ _ _ _
  rw [hend, resetMark_eq_none, htop]
  simp [s', after, atStart, mergeMark_startMark, CallStart.pendingRecord]

theorem recordCallEnd_construct (h : constructs s.mark start = true)
    (nodes : List RecordedNode) (newBalance : U256) :
    recordCallEnd newBalance (s.construct.after nodes).state =
      some (s.after [call start (bodyOf start nodes) newBalance]).state := by
  have htype := callType_of_constructs h
  have hmerge : mergeMark s.mark [call start nodes newBalance] = nodes := by
    cases hmark : s.mark with
    | none =>
      rw [hmark] at h
      cases h
    | some marked =>
      rw [hmark] at h
      have hmarked : isConstructor marked.2 start = true := h
      simp [mergeMark, mergeConstructor, hmarked]
  have hbody : bodyOf start nodes = nodes := by
    unfold bodyOf
    rw [htype]
  rw [hbody]
  simp only [state, after, hmerge, markAfter]
  cases hasCall nodes <;> rfl

mutual

/-- What the recorder makes of a trace inside a recorded call. -/
theorem record_tree : ∀ (tree : TraceTree) (s : InCall),
    record s.state tree.events = some (s.after (ofTree tree)).state
  | .read key value, s => by
      simp only [TraceTree.events, record_cons, RecorderEvent.apply, recordRead,
        recordAccess_state, bind_some, record_nil, ofTree]
  | .write key oldValue newValue, s => by
      simp only [TraceTree.events, record_cons, RecorderEvent.apply, recordWrite,
        recordAccess_state, bind_some, record_nil, ofTree]
  | .call start body newBalance, s => by
      simp only [TraceTree.events, record_cons, record_append, RecorderEvent.apply,
        bind_some, ofTree]
      cases hsystem : start.isSystem with
      | true =>
        have hstart : recordCallStart start s.state = s.skip.state :=
          recordCallStart_system hsystem _ rfl
        rw [hstart, record_trees body, bind_some]
        rfl
      | false =>
        cases hconstructs : constructs s.mark start with
        | true =>
          rw [recordCallStart_construct hsystem hconstructs, record_trees body,
            bind_some, recordCallEnd_construct hconstructs]
          rfl
        | false =>
          rw [recordCallStart_enter hsystem hconstructs, record_trees body,
            bind_some, recordCallEnd_enter hconstructs]
          rfl

theorem record_trees : ∀ (trees : List TraceTree) (s : InCall),
    record s.state (TraceTree.eventsAll trees) = some (s.after (ofTrees trees)).state
  | [], s => congrArg some (state_after_nil s).symm
  | tree :: trees, s => by
      rw [TraceTree.eventsAll, record_append, record_tree tree, bind_some,
        record_trees trees, state_after_append, ofTrees]

end

end InCall

namespace RecordedNode

/-! ## Outside of calls -/

def depthOfLast (records : List AccountAccess) : Nat :=
  (records.getLast?.map AccountAccess.depth).getD 0

/-- The records after calls that no other call is around: each call counts its depth from the last
record. -/
def flush (records : List AccountAccess) : List RecordedNode → List AccountAccess
  | [] => records
  | access _ :: nodes => flush records nodes
  | call start body newBalance :: nodes =>
    let depth := depthOfLast records + 1
    flush (records ++ recordOf depth start body newBalance ::
      Rose.postorderAll (forestAll depth body)) nodes

private theorem flush_append (records : List AccountAccess) (nodes nodes' : List RecordedNode) :
    flush records (nodes ++ nodes') = flush (flush records nodes) nodes' := by
  induction nodes generalizing records with
  | nil => rfl
  | cons node nodes ih =>
    cases node with
    | access storage => exact ih records
    | call start body newBalance => exact ih _

mutual

theorem record_outer : ∀ (tree : TraceTree) (records : List AccountAccess) (tracker : List Bool),
    tree.Covered → record ⟨records, [], [], true, tracker, none⟩ tree.events =
      some ⟨flush records (ofTree tree), [], [], true, tracker, none⟩
  | .read key value, records, tracker, hcovered => by
      have hsystem : isSystemAddress key.address = true := hcovered
      simp [TraceTree.events, RecorderEvent.apply, recordRead, recordAccess, hsystem, ofTree,
        ofAccess, flush]
  | .write key oldValue newValue, records, tracker, hcovered => by
      have hsystem : isSystemAddress key.address = true := hcovered
      simp [TraceTree.events, RecorderEvent.apply, recordWrite, recordAccess, hsystem, ofTree,
        ofAccess, flush]
  | .call start body newBalance, records, tracker, hcovered => by
      simp only [TraceTree.events, record_cons, record_append, RecorderEvent.apply,
        bind_some, ofTree]
      cases hsystem : start.isSystem with
      | true =>
        rw [InCall.recordCallStart_system hsystem _ rfl,
          record_outerAll body records (true :: tracker) (hcovered hsystem)]
        rfl
      | false =>
        have hstart : recordCallStart start ⟨records, [], [], true, tracker, none⟩ =
            (InCall.atStart records [] [] tracker (depthOfLast records + 1) start).state := by
          cases htype : start.callType <;>
            simp [recordCallStart, hsystem, htype, lastDepth, isMarked, depthOfLast,
              InCall.state, InCall.atStart, startMark]
        rw [hstart, InCall.record_trees body, bind_some, InCall.recordCallEnd_outer]
        rfl

theorem record_outerAll : ∀ (trees : List TraceTree) (records : List AccountAccess)
    (tracker : List Bool), TraceTree.CoveredAll trees →
    record ⟨records, [], [], true, tracker, none⟩ (TraceTree.eventsAll trees) =
      some ⟨flush records (ofTrees trees), [], [], true, tracker, none⟩
  | [], _, _, _ => rfl
  | tree :: trees, records, tracker, hcovered => by
      simp only [TraceTree.eventsAll, record_append, ofTrees, flush_append]
      rw [record_outer tree records tracker hcovered.1, bind_some]
      exact record_outerAll trees _ tracker hcovered.2

end

/-! ## The order of the records -/

private theorem depth_recordOf (depth : Nat) (start : CallStart) (body : List RecordedNode)
    (newBalance : U256) : (recordOf depth start body newBalance).depth = depth := rfl

theorem depth_of_mem_forestAll {enclosing : Nat} {nodes : List RecordedNode} :
    ∀ tree ∈ forestAll enclosing nodes, tree.label.depth = enclosing + 1 := by
  induction nodes with
  | nil => simp [forestAll]
  | cons node nodes ih =>
    simp only [forestAll, forall_mem_append]
    refine ⟨?_, ih⟩
    cases node with
    | access storage => simp [forest]
    | call start body newBalance => simp [forest, Rose.label, depth_recordOf]

mutual

theorem ascends_forest : ∀ (node : RecordedNode) (enclosing : Nat),
    Rose.AscendsAll AccountAccess.depth (node.forest enclosing)
  | .access _, _ => trivial
  | .call start body newBalance, enclosing => by
      refine ⟨⟨?_, ascends_forestAll body (enclosing + 1)⟩, trivial⟩
      intro child hchild
      rw [depth_of_mem_forestAll child hchild, depth_recordOf]
      omega

theorem ascends_forestAll : ∀ (nodes : List RecordedNode) (enclosing : Nat),
    Rose.AscendsAll AccountAccess.depth (forestAll enclosing nodes)
  | [], _ => trivial
  | node :: nodes, enclosing => by
      have hhead := ascends_forest node enclosing
      have htail := ascends_forestAll nodes enclosing
      cases node with
      | access storage => exact htail
      | call start body newBalance => exact ⟨hhead.1, htail⟩

end

theorem exists_flush_eq (records : List AccountAccess) (nodes : List RecordedNode) :
    ∃ later, flush records nodes = records ++ later := by
  induction nodes generalizing records with
  | nil => exact ⟨[], (append_nil records).symm⟩
  | cons node nodes ih =>
    cases node with
    | access storage => exact ih records
    | call start body newBalance =>
      simp only [flush]
      obtain ⟨later, hlater⟩ := ih (records ++ recordOf (depthOfLast records + 1) start body
        newBalance :: Rose.postorderAll (forestAll (depthOfLast records + 1) body))
      rw [hlater, append_assoc]
      exact ⟨_, rfl⟩

/-- The first call that no other call is around counts from the last record, also where the forest
has it at depth one. -/
theorem flush_eq_of_forestAll_ne_nil (records : List AccountAccess) {nodes : List RecordedNode}
    (h : forestAll 0 nodes ≠ []) :
    ∃ (first expected : AccountAccess) (later rest : List AccountAccess),
      flush records nodes = records ++ first :: later ∧
      Rose.preorderAll (forestAll 0 nodes) = expected :: rest ∧
      first.depth = depthOfLast records + 1 ∧ expected.depth = 1 := by
  induction nodes with
  | nil => exact absurd rfl h
  | cons node nodes ih =>
    cases node with
    | access storage => exact ih h
    | call start body newBalance =>
      obtain ⟨later, hlater⟩ := exists_flush_eq (records ++ recordOf (depthOfLast records + 1)
        start body newBalance :: Rose.postorderAll (forestAll (depthOfLast records + 1) body))
        nodes
      simp only [flush]
      rw [hlater, append_assoc]
      exact ⟨_, _, _, _, rfl, rfl, rfl, rfl⟩

theorem flush_of_forestAll_eq_nil (records : List AccountAccess) {nodes : List RecordedNode}
    (h : forestAll 0 nodes = []) : flush records nodes = records := by
  induction nodes with
  | nil => rfl
  | cons node nodes ih =>
    cases node with
    | access storage => exact ih h
    | call start body newBalance => cases h

private theorem one_le_depthOfLast {records : List AccountAccess} (hne : records ≠ [])
    (h : ∀ record ∈ records, 1 ≤ record.depth) : 1 ≤ depthOfLast records := by
  unfold depthOfLast
  rw [getLast?_eq_some_getLast hne]
  exact h _ (getLast_mem hne)

/-- The calls outside of calls come out in the order in which they start, at the right depths, if
there is only one, whose calls have no calls inside. -/
theorem flush_eq_preorder_iff : ∀ nodes : List RecordedNode,
    flush [] nodes = Rose.preorderAll (forestAll 0 nodes) ↔
      (forestAll 0 nodes).length ≤ 1 ∧ Rose.heightAll (forestAll 0 nodes) ≤ 2
  | [] => by simp [flush, forestAll, Rose.preorderAll, Rose.heightAll]
  | access storage :: nodes => flush_eq_preorder_iff nodes
  | call start body newBalance :: nodes => by
      have hbody := Rose.postorderAll_eq_preorderAll_iff (ascends_forestAll body 1)
      have hrank := Rose.lt_rank_of_mem_postorderAll (n := 0) _ (ascends_forestAll body 1)
        (fun tree htree => by rw [depth_of_mem_forestAll tree htree]; omega)
      have hlast : 1 ≤ depthOfLast (recordOf 1 start body newBalance ::
          Rose.postorderAll (forestAll 1 body)) := by
        apply one_le_depthOfLast (cons_ne_nil _ _)
        rw [forall_mem_cons]
        exact ⟨Nat.le_refl 1, hrank⟩
      have hflush : flush [] (call start body newBalance :: nodes) =
          flush (recordOf 1 start body newBalance :: Rose.postorderAll (forestAll 1 body))
            nodes := rfl
      have hpre : Rose.preorderAll (forestAll 0 (call start body newBalance :: nodes)) =
          recordOf 1 start body newBalance ::
            (Rose.preorderAll (forestAll 1 body) ++ Rose.preorderAll (forestAll 0 nodes)) := rfl
      have hlength : (forestAll 0 (call start body newBalance :: nodes)).length =
          (forestAll 0 nodes).length + 1 := rfl
      have hheight : Rose.heightAll (forestAll 0 (call start body newBalance :: nodes)) =
          max (Rose.heightAll (forestAll 1 body) + 1) (Rose.heightAll (forestAll 0 nodes)) := rfl
      rw [hflush, hpre, hlength, hheight]
      by_cases hnil : forestAll 0 nodes = []
      · rw [flush_of_forestAll_eq_nil _ hnil, hnil]
        simp only [Rose.preorderAll, Rose.heightAll, append_nil, List.cons.injEq, true_and,
          length_nil, hbody]
        omega
      obtain ⟨first, expected, later, rest, hfirst, hexpected, hdepth, hone⟩ :=
        flush_eq_of_forestAll_ne_nil (recordOf 1 start body newBalance ::
          Rose.postorderAll (forestAll 1 body)) hnil
      have htwo : ¬ (forestAll 0 nodes).length + 1 ≤ 1 := by
        have hpos := length_pos_of_ne_nil hnil
        omega
      simp only [htwo, false_and, iff_false]
      intro heq
      rw [hfirst, hexpected, cons_append, List.cons.injEq] at heq
      have hsplit := append_inj heq.2 (Rose.length_postorderAll _)
      have hsame : first = expected := (List.cons.inj hsplit.2).1
      rw [hsame] at hdepth
      omega

end RecordedNode

/-- The recorder returns the recorded calls of a trace in the order in which they started, with
their depths and storage accesses, exactly if the trace has at most one recorded call without a
recorded call around it, and recorded calls nest at most two deep. -/
theorem records_of_trace_iff (trees : List TraceTree) (h : TraceTree.CoveredAll trees) :
    recordsOf trees = some (Rose.preorderAll (recordedCalls trees)) ↔
      (recordedCalls trees).length ≤ 1 ∧ Rose.heightAll (recordedCalls trees) ≤ 2 := by
  have hrecord : recordsOf trees = some (RecordedNode.flush [] (RecordedNode.ofTrees trees)) := by
    have hrun := RecordedNode.record_outerAll trees [] [] h
    change (record ⟨[], [], [], true, [], none⟩ _).bind _ = _
    rw [hrun]
    rfl
  rw [hrecord, Option.some.injEq]
  exact RecordedNode.flush_eq_preorder_iff (RecordedNode.ofTrees trees)

def plainCall (accessor account : Nat) (body : List TraceTree) : TraceTree :=
  .call ⟨.call, BitVec.ofNat 160 accessor, BitVec.ofNat 160 account, 0, [], 0⟩ body 0

/-- A call that writes in a system call, and calls on. -/
def nestedOnce : List TraceTree :=
  [plainCall 0x10000 0x10001 [.call ⟨.call, 0x10001, 0x8003, 0, [], 0⟩ [.write ⟨0x10001, 1⟩ 0 5] 0,
      plainCall 0x10001 0x10002 []]]

theorem records_of_nestedOnce :
    recordsOf nestedOnce = some (Rose.preorderAll (recordedCalls nestedOnce)) ∧
      (Rose.preorderAll (recordedCalls nestedOnce)).map (fun access =>
        (access.depth, access.storageAccesses.length)) = [(1, 1), (2, 0)] := by
  have hcovered : TraceTree.CoveredAll nestedOnce := by
    refine ⟨?_, trivial⟩
    intro hsystem
    exact absurd hsystem (by decide)
  exact ⟨(records_of_trace_iff nestedOnce hcovered).mpr (by decide +kernel), by decide +kernel⟩

/-- Of three calls inside each other the last is listed before the second. -/
theorem records_of_nested_calls_out_of_order :
    ¬ ∀ trees, TraceTree.CoveredAll trees →
      recordsOf trees = some (Rose.preorderAll (recordedCalls trees)) := by
  intro h
  have hrecords := h [plainCall 0x10000 0x10001 [plainCall 0x10001 0x10002
    [plainCall 0x10002 0x10003 []]]] ⟨fun hsystem => absurd hsystem (by decide), trivial⟩
  exact absurd hrecords (by decide +kernel)

end Foundry.Zksync
