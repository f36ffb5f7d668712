import Foundry.Cheatcodes.StateDiffCovers

/-!
# The recording mirrors the run

Every event that keeps the recording balanced keeps the parts of the log in the vectors; any other
one leaves a vector too many or too few, or an access with the wrong mark.
-/

namespace Foundry.Cheatcodes

open Runs List

/-! ## The hooks of the ends -/

theorem Recorder.stack_finish (self : Recorder) (config : RevertConfig) {depth : Nat}
    (hdepth : 0 < depth) {call : Option CallInputs}
    (hcall : ∀ inputs ∈ call, inputs.cheatcodeCall = false) (ending : Ending) :
    (self.finish config depth call ending).recordedAccountDiffsStack =
      if self.returns config depth call ending then self.recordedAccountDiffsStack
      else self.recordedAccountDiffsStack.map
        (mergeLast depth ending.status.isRevert (ending.update call)) := by
  cases call with
  | none =>
    cases hreturns : self.returns config depth none ending with
    | true => simp [Recorder.finish, Recorder.createEnd, show Option.isSome _ = _ from hreturns]
    | false =>
      simp [Recorder.finish, Recorder.createEnd, show Option.isSome _ = _ from hreturns,
        Recorder.pop, hdepth, Ending.update]
  | some inputs =>
    have hfalse := hcall inputs rfl
    cases hreturns : self.returns config depth (some inputs) ending with
    | true =>
      rcases Bool.or_eq_true_iff.mp hreturns with hdiscards | hverdict
      · simp [Recorder.finish, Recorder.callEnd, hdiscards]
      · simp only [Recorder.finish, Recorder.callEnd, hverdict]
        split <;> rfl
    | false =>
      obtain ⟨hdiscards, hverdict⟩ := Bool.or_eq_false_iff.mp hreturns
      rw [hfalse] at hdiscards hverdict
      simp [Recorder.finish, Recorder.callEnd, hdiscards, hverdict, hfalse, Recorder.pop,
        hdepth, Ending.update]

theorem Recorder.stack_callEnd_cheatcode (self : Recorder) (config : RevertConfig) (depth : Nat)
    {inputs : CallInputs} (h : inputs.cheatcodeCall = true) (ending : Ending) :
    (self.callEnd config depth inputs ending).recordedAccountDiffsStack =
      self.recordedAccountDiffsStack := by
  simp only [Recorder.callEnd, h, Bool.or_true]
  split <;> rfl

theorem marksOf_mergeInto {vector vector' : List AccountAccess}
    (hmarks : marksOf vector' = marksOf vector) (below : AccessStack) :
    marksOf (mergeInto vector' below).reverse.flatten =
      marksOf (vector :: below).reverse.flatten := by
  cases below <;> simp [mergeInto, hmarks]

theorem mergeLast_cons (depth : Nat) (isRevert : Bool) {update : AccountAccess → AccountAccess}
    (hupdate : ∀ access, (update access).marks = access.marks) {last : List AccountAccess}
    (hlast : last ≠ []) (below : AccessStack) :
    ∃ vector, marksOf vector =
        (if isRevert then (marksOf last).map fun mark => ⟨mark.touched, true⟩
          else marksOf last) ∧
      mergeLast depth isRevert update (last :: below) = mergeInto vector below := by
  have hmarked : marksOf (if isRevert then last.map AccountAccess.markReverted else last) =
      if isRevert then (marksOf last).map fun mark => ⟨mark.touched, true⟩ else marksOf last := by
    split
    · exact marksOf_markReverted last
    · rfl
  cases hvector : if isRevert then last.map AccountAccess.markReverted else last with
  | nil =>
    split at hvector
    · exact absurd (map_eq_nil_iff.mp hvector) hlast
    · exact absurd hvector hlast
  | cons first others =>
    refine ⟨(if first.depth = depth then update first else first) :: others, ?_, ?_⟩
    · rw [← hmarked, hvector, marksOf_cons, marksOf_cons]
      split
      · rw [hupdate]
      · rfl
    · simp only [mergeLast, hvector]

namespace Recording

/-! ## The invariant -/

/-- The stack holds the parts of the log, whose entries belong to earlier ones. -/
structure Mirrored (recording : Recording) : Prop where
  covers : ∃ stack, recording.recorder.recordedAccountDiffsStack = some stack ∧
    Covers recording.outer recording.undone recording.frames stack recording.log
  calls_lt : ∀ entry ∈ recording.log, ∀ call ∈ entry.calls, call < recording.log.length
  undone_lt : ∀ call ∈ recording.undone, call < recording.log.length

variable {self : Recording} {config : RevertConfig} {frame : RecordedFrame}

theorem Mirrored.mirrors (h : self.Mirrored) : self.Mirrors := by
  obtain ⟨stack, hstack, hcovers⟩ := h.covers
  constructor
  · rw [Recording.stack, hstack]
    exact hcovers.length_eq
  · rw [Recorder.getStateDiff, hstack]
    exact hcovers.marks_eq

theorem mirrored_start (recorder : Recorder) (outer : Nat) : (start recorder outer).Mirrored :=
  ⟨⟨[], rfl, .start⟩, by simp [start], by simp [start]⟩

section

variable (h : self.Mirrored) {recorder : Recorder} {access : AccountAccess}

include h

theorem Mirrored.congr
    (hstack : recorder.recordedAccountDiffsStack = self.recorder.recordedAccountDiffsStack) :
    { self with recorder }.Mirrored := by
  obtain ⟨stack, hself, hcovers⟩ := h.covers
  exact ⟨⟨stack, hstack.trans hself, hcovers⟩, h.calls_lt, h.undone_lt⟩

theorem Mirrored.append {stack : AccessStack} {frames : List RecordedFrame}
    {entries : List Entry} (hstack : recorder.recordedAccountDiffsStack = some stack)
    (hcovers : Covers self.outer self.undone frames stack (self.log ++ entries))
    (hcalls : ∀ entry ∈ entries, ∀ call ∈ entry.calls,
      call = self.log.length ∨ call ∈ self.calls) :
    { self with recorder, frames, log := self.log ++ entries }.Mirrored := by
  obtain ⟨below, _, hbelow⟩ := h.covers
  refine ⟨⟨stack, hstack, hcovers⟩, ?_, ?_⟩
  · intro entry hentry call hcall
    simp only [length_append]
    rcases mem_append.mp hentry with hentry | hentry
    · have := h.calls_lt entry hentry call hcall
      omega
    have hpos := length_pos_of_mem hentry
    rcases hcalls entry hentry call hcall with rfl | hcall
    · omega
    · obtain ⟨frame, hframe, rfl⟩ := mem_map.mp hcall
      have := hbelow.id_lt frame hframe
      omega
  · intro call hcall
    have := h.undone_lt call hcall
    simp only [length_append]
    omega

theorem Mirrored.enter (call : Option RecordableCall)
    (hfresh : access.marks = [⟨.account access.origin, false⟩])
    (hdepth : access.depth = self.depth) : (self.enter call access).Mirrored := by
  obtain ⟨stack, hstack, hcovers⟩ := h.covers
  have hlog : ∀ entry ∈ self.log, self.log.length ∉ entry.calls := fun entry hentry hcall =>
    Nat.lt_irrefl _ (h.calls_lt entry hentry _ hcall)
  have hundone : self.log.length ∉ self.undone := fun hcall =>
    Nat.lt_irrefl _ (h.undone_lt _ hcall)
  refine h.append ?_ (hcovers.enter hfresh hdepth hlog hundone) (by simp)
  simp [Recorder.push, hstack]

/-! ## Opcodes -/

theorem Mirrored.pushAccess (hfresh : access.marks = [⟨.account access.origin, false⟩])
    (hdepth : self.outer + 1 ≤ access.depth) {recorder : Recorder}
    (hrecorder : recorder.recordedAccountDiffsStack =
      self.recorder.recordedAccountDiffsStack.map (pushAccess access)) :
    { self with
      recorder := recorder
      log := self.log ++ self.accountEntries access }.Mirrored := by
  obtain ⟨stack, hstack, hcovers⟩ := h.covers
  rw [hstack] at hrecorder
  refine h.append hrecorder ?_ (by simp +contextual [accountEntries])
  have hmark : Entry.mark self.undone ⟨.account access.origin, self.calls⟩ =
      ⟨.account access.origin, false⟩ := congrArg (Mark.mk _) hcovers.any_calls
  cases stack with
  | nil =>
    obtain ⟨hframes, hlog⟩ := hcovers.eq_nil
    have horigin : self.outer + 1 ≤ access.origin.depth := hdepth
    rw [hframes, hlog]
    exact .root horigin (by simp [hfresh, hmark])
  | cons last below =>
    refine hcovers.extend (by simp [accountEntries, hfresh, hmark]) ?_
    intro entry hentry frame hframe
    rw [mem_singleton.mp hentry]
    exact mem_map_of_mem hframe

theorem Mirrored.storage {storage : StorageAccess}
    (hfresh : storage.reverted = false) {recorder : Recorder}
    (hrecorder : recorder.recordedAccountDiffsStack =
      self.recorder.recordedAccountDiffsStack.map fun stack =>
        match stack with
        | [] => []
        | last :: below => appendStorageAccess storage self.depth last :: below) :
    { self with
      recorder := recorder
      log := self.log ++ self.storageEntries storage }.Mirrored := by
  obtain ⟨stack, hstack, hcovers⟩ := h.covers
  rw [hstack] at hrecorder
  refine h.append hrecorder ?_ fun entry hentry call hcall =>
    .inr (storageEntries_calls entry hentry ▸ hcall)
  cases stack with
  | nil =>
    simpa [storageEntries, hcovers.eq_nil] using hcovers
  | cons last below =>
    cases hframes : self.frames with
    | nil =>
      rw [hframes] at hcovers
      have hroot := hcovers.appendStorageAccess_root storage
      simpa [storageEntries, hframes, Recording.depth, hroot] using hcovers
    | cons frame frames =>
      rw [← hframes]
      refine hcovers.extend (marksOf_storageEntries hframes hcovers hfresh) ?_
      intro entry hentry frame' hframe'
      rw [storageEntries_calls entry hentry]
      exact mem_map_of_mem hframe'

theorem Mirrored.op (journal : Journal) (address : Address)
    (op : RecordedOp) : (self.step config (.op journal address op)).Mirrored := by
  have hdepth : self.outer + 1 ≤ self.depth := Nat.le_add_right _ _
  cases op with
  | selfdestruct target =>
    obtain ⟨stack, hstack, hcovers⟩ := h.covers
    cases stack with
    | nil =>
      have hlog := hcovers.eq_nil.2
      have hrecorder : (self.recorder.step journal self.depth address
          (.selfdestruct target)).recordedAccountDiffsStack =
          self.recorder.recordedAccountDiffsStack := by
        simp [Recorder.step, hstack, recordStateDiffs]
      simpa [step, opEntries, hlog] using h.congr hrecorder
    | cons last below =>
      have hrecorder : (self.recorder.step journal self.depth address
          (.selfdestruct target)).recordedAccountDiffsStack =
          self.recorder.recordedAccountDiffsStack.map (Cheatcodes.pushAccess
            (recordSelfdestruct journal self.depth address target)) := by
        simp [Recorder.step, hstack, recordStateDiffs, Cheatcodes.pushAccess]
      simpa only [step, opEntries, if_neg hcovers.log_ne_nil] using
        h.pushAccess rfl hdepth hrecorder
  | sload key => exact h.storage rfl (by rfl)
  | sstore key value => exact h.storage rfl (by rfl)
  | extcodecopy target => exact h.pushAccess rfl hdepth rfl
  | extcodesize target => exact h.pushAccess rfl hdepth rfl
  | extcodehash target => exact h.pushAccess rfl hdepth rfl
  | balance target => exact h.pushAccess rfl hdepth rfl

/-! ## Ends -/

private theorem Mirrored.map_mark_ne {frame : RecordedFrame}
    {frames : List RecordedFrame} (hframes : self.frames = frame :: frames) :
    self.log.map (Entry.mark self.undone) ≠
      self.log.map (Entry.mark (frame.id :: self.undone)) := by
  obtain ⟨stack, _, hcovers⟩ := h.covers
  have hany := hcovers.any_calls
  rw [hframes] at hcovers hany
  intro heq
  generalize hlog : self.log = log at hcovers heq
  cases hcovers with
  | @frame _ _ _ _ before rest below hid hdepth hmarks hrest hbefore hundone =>
    have hown := (map_inj_left.mp heq) _ (mem_append_right before mem_cons_self)
    rw [Entry.mark_cons_of_mem mem_cons_self, Entry.mark, ← map_cons, hany] at hown
    simp at hown

end

/-- The condition is what it takes for the recording to mirror its run. -/
structure Decides (condition : Prop) (recording : Recording) : Prop where
  mirrored : condition → recording.Mirrored
  holds : recording.Mirrors → condition

/-- The end of a call or create keeps the mirror just if it ends well. -/
theorem Mirrored.leave (h : self.Mirrored)
    {frames : List RecordedFrame} (hframes : self.frames = frame :: frames) (ending : Ending) :
    Decides (EndsWell (self.recorder.returns config (self.outer + 1 + frames.length)
      (frame.call.map Subtype.val) ending) ending.status (self.stack.length - 1))
      (self.leave config ending) := by
  obtain ⟨stack, hstack, hcovers⟩ := h.covers
  have hrecorder : (self.leave config ending).recorder =
      self.recorder.finish config (self.outer + 1 + frames.length) (frame.call.map Subtype.val)
        ending := by
    simp [Recording.leave, hframes]
  have hpos : 0 < self.outer + 1 + frames.length := by omega
  have hleave := self.recorder.stack_finish config hpos (cheatcodeCall_eq_false frame.call) ending
  rw [← hrecorder] at hleave
  have hid : frame.id < self.log.length :=
    hcovers.id_lt frame (by rw [hframes]; exact mem_cons_self)
  have hlog : (self.leave config ending).log = self.log := by simp [Recording.leave, hframes]
  have hleft : (self.leave config ending).frames = frames := by simp [Recording.leave, hframes]
  have hundone : (self.leave config ending).undone =
      if ending.status.isOk then self.undone else frame.id :: self.undone := by
    simp [Recording.leave, hframes]
  have hne := h.map_mark_ne hframes
  rw [← hcovers.marks_eq] at hne
  rw [hframes] at hcovers
  rw [hstack] at hleave
  rw [Recording.stack, hstack, Option.getD_some]
  obtain _ | ⟨vector, below⟩ := stack
  · cases hcovers
  unfold EndsWell
  cases hreturns : self.recorder.returns config (self.outer + 1 + frames.length)
      (frame.call.map Subtype.val) ending with
  | true =>
    rw [hreturns] at hleave
    constructor
    · intro ⟨hbelow, hok⟩
      have hnil : below = [] := by simpa using hbelow
      subst hnil
      have hcovers' := hcovers.leave rfl
      simp only [Recording.leave, hframes, hok] at hleave ⊢
      exact ⟨⟨_, hleave, hcovers'⟩, h.calls_lt, h.undone_lt⟩
    · intro hmirrors
      have hmarks := hmirrors.marks
      rw [Recorder.getStateDiff, hleave, hlog, hundone] at hmarks
      have hok : ending.status.isOk = true := by
        by_contra hok
        rw [if_neg hok] at hmarks
        exact hne hmarks
      have hpending := hmirrors.pending
      rw [Recording.stack, hleave, recordedFrames, Recording.calls, hlog, hleft] at hpending
      rw [hcovers.length_eq_one hpending]
      exact ⟨rfl, hok⟩
  | false =>
    obtain ⟨vector', hvector, hmerge⟩ := mergeLast_cons (self.outer + 1 + frames.length)
      ending.status.isRevert (ending.marks_update (frame.call.map Subtype.val))
      hcovers.vector_ne_nil below
    rw [hreturns, if_neg Bool.false_ne_true, Option.map_some, hmerge] at hleave
    constructor
    · intro hends
      cases hstatus : ending.status with
      | ok code =>
        rw [hstatus] at hvector
        simp only [Recording.leave, hframes, hstatus] at hleave ⊢
        exact ⟨⟨_, hleave, hcovers.leave hvector⟩, h.calls_lt, h.undone_lt⟩
      | revert code =>
        rw [hstatus] at hvector
        simp only [Recording.leave, hframes, hstatus] at hleave ⊢
        refine ⟨⟨_, hleave, hcovers.leave_undone hvector⟩, h.calls_lt, ?_⟩
        exact forall_mem_cons.mpr ⟨hid, h.undone_lt⟩
      | halt code => simp [hstatus, InstructionResult.isOk, InstructionResult.isRevert] at hends
    · intro hmirrors
      by_contra hhalt
      obtain ⟨hok, hrevert⟩ := not_or.mp hhalt
      have hmarks := hmirrors.marks
      rw [if_neg hrevert] at hvector
      rw [Recorder.getStateDiff, hleave, hlog, hundone, if_neg hok, Option.getD_some,
        marksOf_mergeInto hvector] at hmarks
      exact hne hmarks

/-! ## Calls and creates that are not recorded -/

section Early

variable {recorder : Recorder} {status : InstructionResult} {returns : Bool} {depth : Nat}
  {update : AccountAccess → AccountAccess}

theorem Mirrored.early (h : self.Mirrored)
    (hupdate : ∀ access, (update access).marks = access.marks)
    (hrecorder : recorder.recordedAccountDiffsStack =
      if returns then self.recorder.recordedAccountDiffsStack
      else self.recorder.recordedAccountDiffsStack.map (mergeLast depth status.isRevert update)) :
    Decides (self.Unharmed returns status) { self with recorder := recorder } := by
  obtain ⟨stack, hstack, hcovers⟩ := h.covers
  cases returns with
  | true => exact ⟨fun _ => h.congr hrecorder, fun _ => .inl rfl⟩
  | false =>
    rw [hstack, if_neg Bool.false_ne_true, Option.map_some] at hrecorder
    rw [Unharmed, Recording.stack, hstack, or_iff_right Bool.false_ne_true]
    match stack with
    | [] => exact ⟨fun _ => h.congr (hrecorder.trans hstack.symm), fun _ => .inl rfl⟩
    | [vector] =>
      obtain ⟨vector', hmarks, hmerge⟩ :=
        mergeLast_cons depth status.isRevert hupdate hcovers.vector_ne_nil []
      rw [hmerge] at hrecorder
      constructor
      · intro hunharmed
        obtain ⟨_, hreverted⟩ := hunharmed.resolve_left (cons_ne_nil vector [])
        have hlog := hcovers.marks_eq
        simp only [reverse_singleton, flatten_singleton] at hlog
        refine ⟨⟨_, hrecorder, hcovers.top ?_⟩, h.calls_lt, h.undone_lt⟩
        rw [hmarks]
        split
        · next hrevert =>
          rw [hlog, map_map]
          refine map_congr_left fun entry hentry => ?_
          simp only [Function.comp_apply, ← hreverted hrevert entry hentry]
        · rfl
      · intro hmirrors
        have hlog := hmirrors.marks
        refine .inr ⟨rfl, fun hrevert entry hentry => ?_⟩
        simp only [Recorder.getStateDiff, hrecorder, Option.getD_some, mergeInto,
          reverse_singleton, flatten_singleton, hmarks, if_pos hrevert] at hlog
        have hmem : entry.mark self.undone ∈ self.log.map (Entry.mark self.undone) :=
          mem_map_of_mem hentry
        rw [← hlog] at hmem
        obtain ⟨mark, _, heq⟩ := mem_map.mp hmem
        rw [← heq]
    | vector :: parent :: below =>
      obtain ⟨vector', _, hmerge⟩ :=
        mergeLast_cons depth status.isRevert hupdate hcovers.vector_ne_nil (parent :: below)
      constructor
      · simp
      · intro hmirrors
        have hpending := hmirrors.pending
        rw [Recording.stack, hrecorder, hmerge] at hpending
        have hlength := hpending.trans hcovers.length_eq.symm
        simp [mergeInto] at hlength

end Early

/-! ## Steps and runs -/

section Pass

variable (call : Option RecordableCall) {access : AccountAccess}

theorem Mirrored.pass (h : self.Mirrored)
    (hfresh : access.marks = [⟨.account access.origin, false⟩])
    (hdepth : access.depth = self.depth) (answer : RecordAnswer) :
    Decides (self.PassesWell config (call.map Subtype.val) answer)
      (self.pass config call access answer) := by
  cases answer with
  | frame => exact ⟨fun _ => (h.enter call hfresh hdepth).congr rfl, fun _ => trivial⟩
  | early ending =>
    exact h.early (ending.marks_update _) (Recorder.stack_finish _ _
      (by simp only [Recording.depth]; omega) (cheatcodeCall_eq_false call) ending)
  | immediate ending =>
    obtain ⟨stack, hstack, _⟩ := h.covers
    have henter : (self.enter call access).stack.length - 1 = self.stack.length := by
      simp [Recording.stack, Recording.enter, Recorder.push, hstack]
    rw [PassesWell, ← henter]
    exact (h.enter call hfresh hdepth).leave rfl ending

end Pass

/-- An event keeps the mirror just if it is balanced. -/
theorem Mirrored.step (h : self.Mirrored) (event : RecordEvent) :
    Decides (self.Balanced config event) (self.step config event) := by
  cases event with
  | call journal inputs answer =>
    by_cases hcheatcode : inputs.cheatcodeCall = true
    · refine ⟨fun _ => ?_, fun _ hfalse => by simp [hcheatcode] at hfalse⟩
      simp only [Recording.step, dif_pos hcheatcode]
      cases answer with
      | frame => exact h
      | early ending => exact h.congr (Recorder.stack_callEnd_cheatcode _ _ _ hcheatcode ending)
      | immediate ending =>
        exact h.congr (Recorder.stack_callEnd_cheatcode _ _ _ hcheatcode ending)
    · simp only [Recording.step, dif_neg hcheatcode]
      have hfalse := Bool.eq_false_iff.mpr hcheatcode
      exact ⟨fun hbalanced => (h.pass _ rfl rfl answer).mirrored (hbalanced hfalse),
        fun hmirrors _ => (h.pass _ rfl rfl answer).holds hmirrors⟩
  | create journal inputs address answer => exact h.pass none rfl rfl answer
  | finish ending =>
    cases hframes : self.frames with
    | nil =>
      refine ⟨fun _ => ?_, fun _ => by simp [Balanced, hframes]⟩
      simpa [Recording.step, Recording.leave, hframes] using h
    | cons frame frames =>
      simp only [Balanced, hframes]
      exact h.leave hframes ending
  | op journal address op => exact ⟨fun _ => h.op journal address op, fun _ => trivial⟩
  | expectRevert reason cheatcode partialMatch reverter count =>
    refine ⟨fun _ => ?_, fun _ => trivial⟩
    simp only [Recording.step]
    split
    · exact h
    · exact h.congr rfl
  | assumeNoRevert => exact ⟨fun _ => h.congr rfl, fun _ => trivial⟩

/-- In every run the recording mirrors the run after each event if and only if each event keeps
the recording balanced. -/
theorem every_mirrors_iff (config : RevertConfig) (recorder : Recorder) (outer : Nat)
    (events : List RecordEvent) :
    Every (step config) (fun recording event => (recording.step config event).Mirrors)
        (start recorder outer) events ↔
      Every (step config) (Balanced config) (start recorder outer) events :=
  every_iff (fun _ event h =>
      ⟨(h.step event).holds, fun hbalanced => ((h.step event).mirrored hbalanced).mirrors⟩)
    (fun _ event h => (h.step event).mirrored) (mirrored_start recorder outer) events

def emptyJournal : Journal := ⟨⟨0, 1⟩, fun _ => none, fun _ _ => none⟩

def plainCall (target : Address) : CallInputs :=
  ⟨[], 0, target, target, 0, .transfer 0, .call, false⟩

/-- The contract `0x01` calls `0x02`, which makes a mocked call to `0x03`: its end merges the vector
of the call to `0x02`, which is still open. -/
theorem mocked_call_not_mirrors :
    ¬ Every (step ⟨fun _ => none, fun _ => none, none, false⟩) (fun recording event =>
        (recording.step ⟨fun _ => none, fun _ => none, none, false⟩ event).Mirrors)
      (start ⟨none, none, none⟩ 0)
      [.call emptyJournal (plainCall 1) .frame, .call emptyJournal (plainCall 2) .frame,
        .call emptyJournal (plainCall 3) (.early ⟨emptyJournal, .ok 0, [], none⟩)] := by
  decide +kernel

end Recording

end Foundry.Cheatcodes
