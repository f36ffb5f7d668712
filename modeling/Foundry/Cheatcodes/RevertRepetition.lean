import Foundry.Cheatcodes.ExpectRevert

/-!
# Counted reverts

An expected revert with a count is compared with as many single ones, each before its call.  The
contract that reverted and the depth that was reached are kept from one call to the next, and a
count of more than one notes the last contract that reverts instead of the first.
-/

namespace Foundry.Cheatcodes

/-! ## What a call tree leaves -/

def FrameEnd.reverted : FrameEnd → List Address
  | .call _ target status _ => if status.isRevert then [target] else []
  | .create _ _ => []

mutual

/-- The contracts whose calls reverted, in the order in which the calls ended. -/
def CallTree.reverted : CallTree → List Address
  | .answered last => last.reverted
  | .entered children last => CallTree.revertedAll children ++ last.reverted

def CallTree.revertedAll : List CallTree → List Address
  | [] => []
  | tree :: trees => tree.reverted ++ CallTree.revertedAll trees

end

mutual

/-- The depth of the deepest frame of a call that is made at a depth, or zero. -/
def CallTree.deepest (depth : Nat) : CallTree → Nat
  | .answered _ => 0
  | .entered children _ => max (CallTree.deepestAll (depth + 1) children) (depth + 1)

def CallTree.deepestAll (depth : Nat) : List CallTree → Nat
  | [] => 0
  | tree :: trees => max (CallTree.deepestAll depth trees) (tree.deepest depth)

end

namespace ExpectedRevert

section

variable (expected : ExpectedRevert)

/-- The contract that is kept after one more reverted. -/
def note (revertedBy : Option Address) (target : Address) : Option Address :=
  if expected.reverter.isSome ∧ (revertedBy = none ∨ 1 < expected.count) then some target
  else revertedBy

/-- What is expected after frames down to a depth, and calls that reverted. -/
def after (deepest : Nat) (reverted : List Address) : ExpectedRevert :=
  { expected with
    maxDepth := max deepest expected.maxDepth
    revertedBy := reverted.foldl expected.note expected.revertedBy }

theorem after_nil : expected.after 0 [] = expected := by
  simp [after]

theorem after_after (deepest deepest' : Nat) (reverted reverted' : List Address) :
    (expected.after deepest reverted).after deepest' reverted' =
      expected.after (max deepest' deepest) (reverted ++ reverted') := by
  simp only [after, List.foldl_append, max_assoc]
  rfl

theorem recordReverter_eq (status : InstructionResult) (target : Address) :
    expected.recordReverter status target =
      expected.after 0 (if status.isRevert then [target] else []) := by
  unfold recordReverter after
  by_cases hrevert : status.isRevert
  · by_cases hnote : expected.reverter.isSome ∧ (expected.revertedBy = none ∨ 1 < expected.count)
    · simp [hrevert, hnote, note]
    · simp [hrevert, hnote, note]
  · simp [hrevert]

end

end ExpectedRevert

section Run

variable {config : RevertConfig} {depth : Nat} {expected : ExpectedRevert}

private theorem frameEnd_inner (h : expected.depth < depth) (last : FrameEnd) :
    config.frameEnd depth (some expected) last = (some (expected.after 0 last.reverted), none) := by
  cases last with
  | call cheatcodeCall target status retdata =>
    have hdepth : ¬ depth ≤ (expected.recordReverter status target).depth := by
      rw [ExpectedRevert.recordReverter_eq]
      exact Nat.not_le.mpr h
    simp only [RevertConfig.frameEnd, RevertConfig.callEnd, if_neg hdepth]
    rw [ExpectedRevert.recordReverter_eq]
    rfl
  | create status retdata =>
    have hdepth : ¬ (depth ≤ expected.depth ∧ expected.kind = .default) := fun hle =>
      absurd hle.1 (Nat.not_le.mpr h)
    simp only [RevertConfig.frameEnd, RevertConfig.createEnd, if_neg hdepth]
    rw [FrameEnd.reverted, ExpectedRevert.after_nil]

theorem initializeInterp_eq (expected : ExpectedRevert) (depth : Nat) :
    initializeInterp depth (some expected) = some (expected.after depth []) := rfl

end Run

mutual

theorem CallTree.run_inner (config : RevertConfig) {depth : Nat} {expected : ExpectedRevert}
    (h : expected.depth < depth) (tree : CallTree) :
    tree.run config depth (some expected) =
      (some (expected.after (tree.deepest depth) tree.reverted), none) := by
  cases tree with
  | answered last =>
    rw [CallTree.run, frameEnd_inner h]
    rfl
  | entered children last =>
    have hchildren : (expected.after (depth + 1) []).depth < depth + 1 := Nat.lt_succ_of_lt h
    rw [CallTree.run, initializeInterp_eq, CallTree.runAll_inner config hchildren,
      ExpectedRevert.after_after, frameEnd_inner (by exact h), ExpectedRevert.after_after]
    simp [CallTree.deepest, CallTree.reverted]

theorem CallTree.runAll_inner (config : RevertConfig) {depth : Nat} {expected : ExpectedRevert}
    (h : expected.depth < depth) (trees : List CallTree) :
    CallTree.runAll config depth (some expected) trees =
      some (expected.after (CallTree.deepestAll depth trees) (CallTree.revertedAll trees)) := by
  cases trees with
  | nil =>
    rw [CallTree.runAll, CallTree.deepestAll, CallTree.revertedAll, ExpectedRevert.after_nil]
  | cons tree trees =>
    have hrest : (expected.after (tree.deepest depth) tree.reverted).depth < depth := h
    rw [CallTree.runAll, CallTree.run_inner config h, CallTree.runAll_inner config hrest,
      ExpectedRevert.after_after]
    rfl

end

/-! ## The calls of the test -/

namespace FrameEnd

def isCheatcode : FrameEnd → Bool
  | .call cheatcodeCall _ _ _ => cheatcodeCall
  | .create _ _ => false

def status : FrameEnd → InstructionResult
  | .call _ _ status _ => status
  | .create status _ => status

def retdata : FrameEnd → Bytes
  | .call _ _ _ retdata => retdata
  | .create _ retdata => retdata

end FrameEnd

namespace CallTree

def last : CallTree → FrameEnd
  | answered last => last
  | entered _ last => last

def isEntered : CallTree → Bool
  | answered _ => false
  | entered _ _ => true

end CallTree

abbrev TestCall := { tree : CallTree // tree.last.isCheatcode = false }

/-- What the verdict on a call at the depth of the cheatcode leaves. -/
def RevertConfig.judge (config : RevertConfig) (expected : ExpectedRevert) (last : FrameEnd) :
    Option ExpectedRevert × RevertVerdict :=
  match config.handleExpectRevert false expected last.status last.retdata with
  | .error error => (none, some (.error error))
  | .ok () => (expected.counted, some (.ok ()))

private theorem frameEnd_top {config : RevertConfig} {depth : Nat} {expected : ExpectedRevert}
    (hdepth : expected.depth = depth) (hkind : expected.kind = .default) {last : FrameEnd}
    (hlast : last.isCheatcode = false) :
    config.frameEnd depth (some expected) last =
      config.judge (expected.after 0 last.reverted) last := by
  cases last with
  | call cheatcodeCall target status retdata =>
    have hcheatcode : cheatcodeCall = false := hlast
    subst hcheatcode hdepth
    simp only [RevertConfig.frameEnd, RevertConfig.callEnd, ExpectedRevert.recordReverter_eq]
    simp only [ExpectedRevert.after, hkind, le_refl]
    rfl
  | create status retdata =>
    simp only [RevertConfig.frameEnd, RevertConfig.createEnd, hdepth, hkind, le_refl]
    rfl

theorem TestCall.run_eq (config : RevertConfig) {depth : Nat} (expected : ExpectedRevert)
    (hdepth : expected.depth = depth) (hkind : expected.kind = .default) (call : TestCall) :
    call.1.run config depth (some expected) =
      config.judge (expected.after (call.1.deepest depth) call.1.reverted) call.1.last := by
  obtain ⟨tree, hlast⟩ := call
  cases tree with
  | answered last =>
    rw [CallTree.run, frameEnd_top hdepth hkind (by exact hlast)]
    rfl
  | entered children last =>
    have hchildren : (expected.after (depth + 1) []).depth < depth + 1 := by
      show expected.depth < depth + 1
      omega
    rw [CallTree.run, initializeInterp_eq, CallTree.runAll_inner config hchildren,
      ExpectedRevert.after_after,
      frameEnd_top (by exact hdepth) (by exact hkind) (by exact hlast),
      ExpectedRevert.after_after]
    simp [CallTree.deepest, CallTree.reverted, CallTree.last]

/-! ## The two ways to expect -/

structure RevertTerms where
  reason : Option Bytes
  depth : Nat
  partialMatch : Bool
  reverter : Option Address

namespace RevertTerms

variable (terms : RevertTerms) (config : RevertConfig)

def expect (state : Option ExpectedRevert) (count : Nat) :
    Except RevertError (Option ExpectedRevert) :=
  expectRevert state terms.reason terms.depth false terms.partialMatch terms.reverter count

def verdicts (state : Option ExpectedRevert) : List TestCall → List RevertVerdict
  | [] => []
  | call :: calls =>
    let (state, verdict) := call.1.run config terms.depth state
    verdict :: verdicts state calls

/-- One cheatcode with the number of the calls, and then the calls. -/
def once (calls : List TestCall) : Except RevertError (List RevertVerdict) := do
  let state ← terms.expect none calls.length
  return terms.verdicts config state calls

/-- A cheatcode for one revert before each of the calls. -/
def each (state : Option ExpectedRevert) :
    List TestCall → Except RevertError (List RevertVerdict)
  | [] => .ok []
  | call :: calls => do
      let state ← terms.expect state 1
      let (state, verdict) := call.1.run config terms.depth state
      return verdict :: (← each state calls)

end RevertTerms

/-- The verdict accepts, rejects, or there is none. -/
def RevertVerdict.accepts (verdict : RevertVerdict) : Option Bool :=
  verdict.map fun result => result.isOk

/-- Both accept or reject each call, up to the first that is rejected. -/
def Agree : List RevertVerdict → List RevertVerdict → Prop
  | [], [] => True
  | verdict :: verdicts, verdict' :: verdicts' =>
    verdict.accepts.isSome ∧ verdict.accepts = verdict'.accepts ∧
      (verdict.accepts = some true → Agree verdicts verdicts')
  | _, _ => False

namespace RevertTerms

variable (terms : RevertTerms) (config : RevertConfig)

/-- One cheatcode with a count gives the verdicts of as many cheatcodes. -/
def Repeats (calls : List TestCall) : Prop :=
  ∃ counted repeated, terms.once config calls = .ok counted ∧
    terms.each config none calls = .ok repeated ∧ Agree counted repeated

/-! ## When a call is accepted -/

variable {expected : ExpectedRevert}

/-- A contract that is the expected one, if both are known. -/
def Meant (actual : Option Address) : Prop :=
  ∀ reverter ∈ terms.reverter, ∀ target ∈ actual, target = reverter

def ReasonFits (last : FrameEnd) : Prop :=
  (config.checkReason false terms.reason terms.partialMatch last.status last.retdata).isOk = true

/-- A call that one cheatcode for one revert accepts: the first contract that reverts counts. -/
def Fits (call : TestCall) : Prop :=
  (config.internalExpectRevert = true ∨ call.1.isEntered = true) ∧
    call.1.last.status.isOk = false ∧ terms.Meant call.1.reverted.head? ∧
    terms.ReasonFits config call.1.last

/-- A call whose verdict does not depend on the count, if its status and its reason fit: the
first and the last contract that reverts are both the expected one or both another one, and a
call that is not the first runs code. -/
def Alike (isFirst : Prop) (call : TestCall) : Prop :=
  call.1.last.status.isOk = false → terms.ReasonFits config call.1.last →
    (terms.Meant call.1.reverted.head? ↔ terms.Meant call.1.reverted.getLast?) ∧
    (¬ isFirst → terms.Meant call.1.reverted.head? →
      config.internalExpectRevert = true ∨ call.1.isEntered = true)

/-- Each call is alike, as long as those before it fit. -/
def AlikeAll (isFirst : Prop) (calls : List TestCall) : Prop :=
  ∀ before call after, calls = before ++ call :: after →
    (∀ earlier ∈ before, terms.Fits config earlier) →
      terms.Alike config (before = [] ∧ isFirst) call

def carried (count actualCount maxDepth : Nat) (revertedBy : Option Address) : ExpectedRevert where
  reason := terms.reason
  depth := terms.depth
  kind := .default
  partialMatch := terms.partialMatch
  reverter := terms.reverter
  revertedBy
  maxDepth
  count
  actualCount

variable {terms config} {calls : List TestCall} {call : TestCall}

theorem handleExpectRevert_isOk_iff {count actualCount maxDepth : Nat}
    {revertedBy : Option Address} (hcount : count ≠ 0) (last : FrameEnd) :
    (config.handleExpectRevert false (terms.carried count actualCount maxDepth revertedBy)
        last.status last.retdata).isOk = true ↔
      (config.internalExpectRevert = true ∨ terms.depth < maxDepth) ∧
        last.status.isOk = false ∧ terms.Meant revertedBy ∧ terms.ReasonFits config last := by
  unfold RevertConfig.handleExpectRevert RevertConfig.handleRevert Meant ReasonFits carried
  by_cases hlow : config.internalExpectRevert = false ∧ maxDepth ≤ terms.depth
  · simp [hlow, Except.toBool]
  have hdeep : config.internalExpectRevert = true ∨ terms.depth < maxDepth := by
    simpa [or_iff_not_imp_left] using hlow
  cases hok : last.status.isOk with
  | true => simp [hlow, hcount, Except.toBool]
  | false =>
    cases hreverter : terms.reverter with
    | none => simp [hlow, hcount, hdeep]
    | some reverter =>
      cases revertedBy with
      | none => simp [hlow, hcount, hdeep]
      | some target =>
        by_cases hsame : reverter = target
        · simp [hlow, hcount, hdeep, hsame]
        · simp [hlow, hcount, hsame, Ne.symm hsame, Except.toBool]

/-! ## The contract that is noted -/

theorem meant_note_single (hcount : expected.count = 1)
    (hreverter : expected.reverter = terms.reverter) (reverted : List Address) :
    terms.Meant (reverted.foldl expected.note none) ↔ terms.Meant reverted.head? := by
  have hkeep : ∀ (targets : List Address) (first : Address),
      targets.foldl expected.note (some first) = some first := by
    intro targets
    induction targets with
    | nil => simp
    | cons target targets ih => simp [ExpectedRevert.note, hcount, ih]
  cases hterms : terms.reverter with
  | none => simp [Meant, hterms]
  | some reverter =>
    cases reverted with
    | nil => simp
    | cons target targets =>
      have hfirst : expected.note none target = some target := by
        simp [ExpectedRevert.note, hreverter, hterms]
      rw [List.foldl_cons, hfirst, hkeep, List.head?_cons]

theorem meant_note_counted (hcount : 1 < expected.count)
    (hreverter : expected.reverter = terms.reverter) {revertedBy : Option Address}
    (hby : terms.Meant revertedBy) (reverted : List Address) :
    terms.Meant (reverted.foldl expected.note revertedBy) ↔ terms.Meant reverted.getLast? := by
  cases hterms : terms.reverter with
  | none => simp [Meant, hterms]
  | some reverter =>
    induction reverted using List.reverseRecOn with
    | nil => simpa [Meant] using hby
    | append_singleton targets target _ =>
      simp [ExpectedRevert.note, hreverter, hterms, hcount]

/-! ## The verdict on one call -/

theorem judge_accepts (expected : ExpectedRevert) (last : FrameEnd) :
    (config.judge expected last).2.accepts =
      some (config.handleExpectRevert false expected last.status last.retdata).isOk := by
  unfold RevertConfig.judge
  cases config.handleExpectRevert false expected last.status last.retdata <;> rfl

theorem judge_state {last : FrameEnd} (h : (config.judge expected last).2.accepts = some true) :
    (config.judge expected last).1 = expected.counted := by
  rw [judge_accepts] at h
  unfold RevertConfig.judge
  cases hhandle : config.handleExpectRevert false expected last.status last.retdata with
  | error error => simp [hhandle, Except.toBool] at h
  | ok => rfl

theorem depth_lt_deepest (call : TestCall) (depth maxDepth : Nat) :
    depth < max (call.1.deepest depth) maxDepth ↔ call.1.isEntered = true ∨ depth < maxDepth := by
  obtain ⟨tree, _⟩ := call
  cases tree with
  | answered last => simp [CallTree.deepest, CallTree.isEntered]
  | entered children last =>
    simp only [CallTree.deepest, CallTree.isEntered, true_or, iff_true]
    omega

private theorem head?_eq_getLast? (h : call.1.isEntered = false) :
    call.1.reverted.head? = call.1.reverted.getLast? := by
  obtain ⟨tree, _⟩ := call
  cases tree with
  | entered children last => cases h
  | answered last =>
    cases last with
    | create status retdata => rfl
    | call cheatcodeCall target status retdata =>
      simp only [CallTree.reverted, FrameEnd.reverted]
      split <;> rfl

section Call

variable (call : TestCall) {count actualCount maxDepth : Nat} {revertedBy : Option Address}

theorem run_carried (terms : RevertTerms) (config : RevertConfig) (count actualCount maxDepth : Nat)
    (revertedBy : Option Address) :
    call.1.run config terms.depth (some (terms.carried count actualCount maxDepth revertedBy)) =
      config.judge (terms.carried count actualCount (max (call.1.deepest terms.depth) maxDepth)
        (call.1.reverted.foldl (terms.carried count actualCount maxDepth revertedBy).note
          revertedBy)) call.1.last :=
  TestCall.run_eq config (terms.carried count actualCount maxDepth revertedBy) rfl rfl call

theorem run_single_accepts_iff :
    (call.1.run config terms.depth (some (terms.carried 1 0 terms.depth none))).2.accepts =
      some true ↔ terms.Fits config call := by
  rw [run_carried, judge_accepts, Option.some_inj,
    handleExpectRevert_isOk_iff (by simp), depth_lt_deepest,
    meant_note_single (by rfl) (by rfl)]
  simp [Fits]

theorem run_counted_state (hcount : 1 < count) (haccepts : (call.1.run config terms.depth
      (some (terms.carried count actualCount maxDepth revertedBy))).2.accepts = some true)
    (hmore : actualCount + 1 < count) :
    ∃ maxDepth' revertedBy',
      (call.1.run config terms.depth
        (some (terms.carried count actualCount maxDepth revertedBy))).1 =
          some (terms.carried count (actualCount + 1) maxDepth' revertedBy') ∧
      terms.Meant revertedBy' ∧
      (config.internalExpectRevert = true ∨ terms.depth < maxDepth') := by
  rw [run_carried] at haccepts ⊢
  have hstate := judge_state haccepts
  rw [judge_accepts, Option.some_inj, handleExpectRevert_isOk_iff (by omega)] at haccepts
  refine ⟨_, _, ?_, haccepts.2.2.1, haccepts.1⟩
  rw [hstate]
  exact if_pos hmore

/-- The two verdicts on a call agree if and only if it is alike. -/
theorem accepts_iff_accepts_iff (actualCount : Nat) (hcount : 1 < count)
    (hby : terms.Meant revertedBy) :
    ((call.1.run config terms.depth
        (some (terms.carried count actualCount maxDepth revertedBy))).2.accepts = some true ↔
      (call.1.run config terms.depth (some (terms.carried 1 0 terms.depth none))).2.accepts =
        some true) ↔
      terms.Alike config (¬ terms.depth < maxDepth) call := by
  rw [run_single_accepts_iff, run_carried, judge_accepts, Option.some_inj,
    handleExpectRevert_isOk_iff (by omega), depth_lt_deepest,
    meant_note_counted (by exact hcount) (by rfl) hby]
  unfold Fits Alike
  have hanswered : call.1.isEntered = false →
      (terms.Meant call.1.reverted.head? ↔ terms.Meant call.1.reverted.getLast?) := by
    intro h
    rw [head?_eq_getLast? h]
  cases hentered : call.1.isEntered with
  | true => simp; tauto
  | false =>
    simp
    tauto

end Call

/-! ## Whole runs -/

theorem each_eq (calls : List TestCall) :
    terms.each config none calls =
      .ok (calls.map fun call =>
        (call.1.run config terms.depth (some (terms.carried 1 0 terms.depth none))).2) := by
  induction calls with
  | nil => rfl
  | cons call calls ih =>
    have hstate : (call.1.run config terms.depth
        (some (terms.carried 1 0 terms.depth none))).1 = none := by
      rw [run_carried]
      unfold RevertConfig.judge
      cases config.handleExpectRevert false _ call.1.last.status call.1.last.retdata <;> rfl
    show (do
      let rest ← terms.each config (call.1.run config terms.depth
        (some (terms.carried 1 0 terms.depth none))).1 calls
      return _ :: rest) = _
    rw [hstate, ih]
    rfl

theorem agree_cons {verdict verdict' : RevertVerdict} {verdicts verdicts' : List RevertVerdict}
    (h : verdict.accepts.isSome) (h' : verdict'.accepts.isSome) :
    Agree (verdict :: verdicts) (verdict' :: verdicts') ↔
      (verdict.accepts = some true ↔ verdict'.accepts = some true) ∧
        (verdict.accepts = some true → Agree verdicts verdicts') := by
  obtain ⟨b, hb⟩ := Option.isSome_iff_exists.mp h
  obtain ⟨b', hb'⟩ := Option.isSome_iff_exists.mp h'
  cases b <;> simp [Agree, hb, hb']

private theorem alikeAll_nil (isFirst : Prop) : terms.AlikeAll config isFirst [] := by
  intro before call after h
  simp at h

theorem alikeAll_congr {p q : Prop} (h : config.internalExpectRevert = true ∨ (p ↔ q)) :
    terms.AlikeAll config p calls ↔ terms.AlikeAll config q calls :=
  forall₅_congr fun _ _ _ _ _ => by
    unfold Alike
    rcases h with hinternal | hpq
    · simp [hinternal]
    · rw [hpq]

private theorem alikeAll_cons {isFirst : Prop} :
    terms.AlikeAll config isFirst (call :: calls) ↔
      terms.Alike config isFirst call ∧
        (terms.Fits config call → terms.AlikeAll config False calls) := by
  constructor
  · intro h
    refine ⟨by simpa using h [] call calls rfl (by simp), ?_⟩
    intro hfits before next after heq hall
    have hnext := h (call :: before) next after (by simp [heq]) (by simpa [hfits] using hall)
    simpa using hnext
  · rintro ⟨hcall, hcalls⟩ before next after heq hall
    cases before with
    | nil =>
      cases heq
      simpa using hcall
    | cons earlier before =>
      cases heq
      have hnext := hcalls (hall _ (by simp)) before next after rfl
        fun e he => hall e (by simp [he])
      simpa using hnext

theorem agree_iff_alikeAll {count : Nat} (hcount : 1 < count) (calls : List TestCall) :
    ∀ {actualCount maxDepth : Nat} {revertedBy : Option Address}, terms.Meant revertedBy →
      actualCount + calls.length = count →
      (Agree (terms.verdicts config
          (some (terms.carried count actualCount maxDepth revertedBy)) calls)
        (calls.map fun call =>
          (call.1.run config terms.depth (some (terms.carried 1 0 terms.depth none))).2) ↔
        terms.AlikeAll config (¬ terms.depth < maxDepth) calls) := by
  induction calls with
  | nil =>
    intro actualCount maxDepth revertedBy _ _
    exact iff_of_true trivial (alikeAll_nil _)
  | cons call calls ih =>
    intro actualCount maxDepth revertedBy hby hlength
    have hrun := run_carried call terms config count actualCount maxDepth revertedBy
    have hsingle := run_carried call terms config 1 0 terms.depth none
    rw [alikeAll_cons, ← accepts_iff_accepts_iff call actualCount hcount hby,
      ← run_single_accepts_iff, List.map_cons, verdicts,
      agree_cons (by simp [hrun, judge_accepts]) (by simp [hsingle, judge_accepts])]
    refine and_congr_right fun hsame => ?_
    rw [← hsame]
    refine imp_congr_right fun haccepts => ?_
    cases calls with
    | nil => exact iff_of_true trivial (alikeAll_nil _)
    | cons next calls =>
      have hmore : actualCount + 1 < count := by
        simp only [List.length_cons] at hlength
        omega
      obtain ⟨maxDepth', revertedBy', hstate, hby', hdeep⟩ :=
        run_counted_state call hcount haccepts hmore
      rw [hstate, ih hby' (by simp only [List.length_cons] at hlength ⊢; omega)]
      exact alikeAll_congr (hdeep.imp_right fun h => by simp [h])

theorem repeats_iff_agree :
    terms.Repeats config calls ↔
      Agree (terms.verdicts config (some (terms.carried calls.length 0 terms.depth none)) calls)
        (calls.map fun call =>
          (call.1.run config terms.depth (some (terms.carried 1 0 terms.depth none))).2) := by
  have honce : terms.once config calls = .ok (terms.verdicts config
      (some (terms.carried calls.length 0 terms.depth none)) calls) := rfl
  simp [Repeats, honce, each_eq]

/-- A count gives the verdicts of single reverts if and only if there is one call, or each call
is alike as long as the calls before it fit. -/
theorem repeats_iff_alike (terms : RevertTerms) (config : RevertConfig) (calls : List TestCall) :
    terms.Repeats config calls ↔ calls.length ≤ 1 ∨
      ∀ before call after, calls = before ++ call :: after →
        (∀ earlier ∈ before, terms.Fits config earlier) →
          terms.Alike config (before = []) call := by
  match calls with
  | [] => exact iff_of_true (repeats_iff_agree.mpr trivial) (by simp)
  | [call] =>
    have hsingle := run_carried call terms config 1 0 terms.depth none
    refine iff_of_true (repeats_iff_agree.mpr ?_) (by simp)
    exact (agree_cons (by simp [hsingle, judge_accepts]) (by simp [hsingle, judge_accepts])).mpr
      ⟨Iff.rfl, fun _ => trivial⟩
  | call :: next :: calls =>
    rw [repeats_iff_agree, agree_iff_alikeAll (by simp) _ (by simp [Meant]) (by simp)]
    simp [AlikeAll]

/-- The contract `0x01` reverts, and with it the contract `0x02` that called it. -/
def bubbling : TestCall :=
  ⟨.entered [.entered [] (.call false 1 (.revert 0) [])] (.call false 2 (.revert 0) []), rfl⟩

/-- A revert of `0x01` is accepted twice; two reverts of it are rejected at the first. -/
theorem bubbling_not_repeats :
    ¬ RevertTerms.Repeats ⟨none, 1, false, some 1⟩ ⟨fun _ => none, fun _ => none, none, false⟩
      [bubbling, bubbling] := by
  rintro ⟨counted, repeated, hcounted, hrepeated, hagree⟩
  have hcounted' : counted = [some (.error (.reverter 2 1)), none] := (Except.ok.inj hcounted).symm
  have hrepeated' : repeated = [some (.ok ()), some (.ok ())] := (Except.ok.inj hrepeated).symm
  subst hcounted' hrepeated'
  simp [Agree, RevertVerdict.accepts, Except.toBool] at hagree

end RevertTerms

end Foundry.Cheatcodes
