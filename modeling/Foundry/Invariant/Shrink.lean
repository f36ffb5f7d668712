import Foundry.Base.Words
import Mathlib.Data.List.FinRange

/-!
# Shrinking a failing call sequence

`shrink_sequence` removes the calls of a sequence that breaks an invariant one by one, and puts a
call back if the sequence passes without it.  A call is removed in one iteration of the loop and
tested in the next, so that the run limit can end the loop with a removal that was never tested.

The executor is a parameter: what a transaction and a call return, and how a result is judged.
-/

namespace Foundry.Invariant

/-! ## The executor -/

structure CallDetails where
  target : Address
  calldata : Bytes
deriving DecidableEq

structure BasicTxDetails where
  sender : Address
  callDetails : CallDetails
deriving DecidableEq

structure FailedInvariantCaseData where
  addr : Address
  calldata : Bytes
  shrinkRunLimit : Nat
  failOnRevert : Bool

def magicAssume : Bytes := "FOUNDRY::ASSUME".toList.map fun c => BitVec.ofNat 8 c.toNat

def caller : Address := 0x1804c8AB1F12E6bbf3894d4083f33e07309d1f38

/-- An executor with states `S` and call results `R`; `none` is an error. -/
structure Executor (S R : Type) where
  /-- Runs a transaction and commits its changes. -/
  transactRaw : S → Address → Address → Bytes → U256 → Option (R × S)
  callRaw : S → Address → Address → Bytes → U256 → Option R
  reverted : R → Bool
  result : R → Bytes
  isRawCallMutSuccess : S → Address → R → Bool
  /-- `IInvariantTest::afterInvariantCall::SELECTOR`. -/
  afterInvariantSelector : Bytes

section Model

variable {S R : Type} (executor : Executor S R)

def callInvariantFunction (s : S) (address : Address) (calldata : Bytes) : Option Bool :=
  (executor.callRaw s caller address calldata 0).map (executor.isRawCallMutSuccess s address)

def callAfterInvariantFunction (s : S) (address : Address) : Option Bool :=
  (executor.callRaw s caller address executor.afterInvariantSelector 0).map
    (executor.isRawCallMutSuccess s address)

/-- Whether the invariant holds after the calls of a sequence, and whether all of them were
applied. -/
def checkSequence (calls : List BasicTxDetails) (testAddress : Address) (calldata : Bytes)
    (failOnRevert callAfterInvariant : Bool) :
    S → List (Fin calls.length) → Option (Bool × Bool)
  | s, [] =>
    (callInvariantFunction executor s testAddress calldata).bind fun success =>
      if success && callAfterInvariant then
        (callAfterInvariantFunction executor s testAddress).map fun success => (success, true)
      else some (success, true)
  | s, callIndex :: sequence =>
    let tx := calls.get callIndex
    (executor.transactRaw s tx.sender tx.callDetails.target tx.callDetails.calldata 0).bind
      fun (callResult, s') =>
        if executor.reverted callResult && failOnRevert &&
            executor.result callResult != magicAssume then
          -- the remaining calls need not be applied
          some (false, false)
        else checkSequence calls testAddress calldata failOnRevert callAfterInvariant s' sequence

/-! ## The shrinker -/

structure CallSequenceShrinker (n : Nat) where
  includedCalls : Fin n → Bool
  /-- The index of the call to remove next. -/
  shrink : Nat
  prevShrink : Option (Fin n)

namespace CallSequenceShrinker

variable {n : Nat}

def new (n : Nat) : CallSequenceShrinker n := ⟨fun _ => true, 0, none⟩

def indices (included : Fin n → Bool) : List (Fin n) := (List.finRange n).filter included

section

variable (shrinker : CallSequenceShrinker n)

def current : List (Fin n) := indices shrinker.includedCalls

def simplify : Bool × CallSequenceShrinker n :=
  if h : shrinker.shrink < n then
    (true,
      { includedCalls := Function.update shrinker.includedCalls ⟨shrinker.shrink, h⟩ false
        shrink := shrinker.shrink + 1
        prevShrink := some ⟨shrinker.shrink, h⟩ })
  else (false, shrinker)

def complicate : Bool × CallSequenceShrinker n :=
  match shrinker.prevShrink with
  | some callIndex =>
    simplify { shrinker with
        includedCalls := Function.update shrinker.includedCalls callIndex true
        prevShrink := none }
  | none => (false, shrinker)

end

/-- The iterations of the loop.  An error of the check changes nothing. -/
def iterate (check : List (Fin n) → Option (Bool × Bool)) :
    Nat → CallSequenceShrinker n → CallSequenceShrinker n
  | 0, shrinker => shrinker
  | limit + 1, shrinker =>
    match check shrinker.current with
    | some (false, _) =>
      if shrinker.simplify.1 then iterate check limit shrinker.simplify.2
      else shrinker.simplify.2
    | some (true, _) =>
      if shrinker.complicate.1 then iterate check limit shrinker.complicate.2
      else shrinker.complicate.2
    | none => iterate check limit shrinker

end CallSequenceShrinker

def checkCandidate (failedCase : FailedInvariantCaseData) (callAfterInvariant : Bool) (s : S)
    (calls : List BasicTxDetails) : List (Fin calls.length) → Option (Bool × Bool) :=
  checkSequence executor calls failedCase.addr failedCase.calldata failedCase.failOnRevert
    callAfterInvariant s

def shrinkSequence (failedCase : FailedInvariantCaseData) (callAfterInvariant : Bool) (s : S)
    (calls : List BasicTxDetails) : Option (List BasicTxDetails) :=
  (callInvariantFunction executor s failedCase.addr failedCase.calldata).map fun success =>
    if success then
      ((CallSequenceShrinker.new calls.length).iterate
        (checkCandidate executor failedCase callAfterInvariant s calls)
        failedCase.shrinkRunLimit).current.map calls.get
    else []

end Model

/-! ## Greedy deletion -/

section Deletion

variable {n : Nat} (fails : (Fin n → Bool) → Bool)

/-- What is left of the first `i` elements and all later ones, if an element is dropped whenever
the rest still fails. -/
def keptBefore : Nat → Fin n → Bool
  | 0 => fun _ => true
  | i + 1 =>
    if h : i < n then
      if fails (Function.update (keptBefore i) ⟨i, h⟩ false) then
        Function.update (keptBefore i) ⟨i, h⟩ false
      else keptBefore i
    else keptBefore i

/-- An element without which what is left so far passes. -/
def Needed (i : Fin n) : Prop := fails (Function.update (keptBefore fails i) i false) = false

instance (i : Fin n) : Decidable (Needed fails i) := inferInstanceAs (Decidable (_ = _))

theorem keptBefore_succ (i : Fin n) :
    keptBefore fails (i + 1) =
      if fails (Function.update (keptBefore fails i) i false) then
        Function.update (keptBefore fails i) i false
      else keptBefore fails i := by
  rw [keptBefore, dif_pos i.isLt]

theorem keptBefore_of_le {i : Nat} {j : Fin n} (h : i ≤ j) : keptBefore fails i j = true := by
  induction i with
  | zero => rfl
  | succ i ih =>
    have hne : j ≠ ⟨i, by omega⟩ := fun heq => by
      have hval := congrArg Fin.val heq
      simp only at hval
      omega
    have hkept := ih (by omega)
    rw [keptBefore]
    split
    · split
      · rw [Function.update_of_ne hne, hkept]
      · exact hkept
    · exact hkept

theorem fails_keptBefore (h : fails (fun _ => true) = true) (i : Nat) :
    fails (keptBefore fails i) = true := by
  induction i with
  | zero => exact h
  | succ i ih =>
    rw [keptBefore]
    split
    · split
      · assumption
      · exact ih
    · exact ih

end Deletion

/-! ## The loop follows the greedy deletion -/

namespace CallSequenceShrinker

variable {n : Nat}

structure Settled (fails : (Fin n → Bool) → Bool) (i : Nat) (shrinker : CallSequenceShrinker n) :
    Prop where
  included : shrinker.includedCalls = keptBefore fails i
  shrink : shrinker.shrink = i

/-- One call is removed, and the rest is still to be tested. -/
structure Testing (fails : (Fin n → Bool) → Bool) (i : Fin n)
    (shrinker : CallSequenceShrinker n) : Prop where
  included : shrinker.includedCalls = Function.update (keptBefore fails i) i false
  shrink : shrinker.shrink = i + 1
  prevShrink : shrinker.prevShrink = some i

variable {fails : (Fin n → Bool) → Bool} {shrinker : CallSequenceShrinker n}

theorem settled_new : Settled fails 0 (new n) := ⟨rfl, rfl⟩

/-- The loop goes on from a candidate that was tested. -/
def next (fails : (Fin n → Bool) → Bool) (shrinker : CallSequenceShrinker n) :
    Bool × CallSequenceShrinker n :=
  if fails shrinker.includedCalls then shrinker.simplify else shrinker.complicate

theorem Testing.next {i : Fin n} (h : Testing fails i shrinker) :
    ∃ settled, Settled fails (i + 1) settled ∧ next fails shrinker = settled.simplify := by
  have hsucc := keptBefore_succ fails i
  unfold CallSequenceShrinker.next
  rw [h.included]
  cases hfails : fails (Function.update (keptBefore fails i) i false) with
  | true =>
    rw [hfails] at hsucc
    exact ⟨shrinker, ⟨h.included.trans hsucc.symm, h.shrink⟩, rfl⟩
  | false =>
    rw [hfails, if_neg Bool.false_ne_true] at hsucc
    refine ⟨{ shrinker with
        includedCalls := Function.update shrinker.includedCalls i true
        prevShrink := none }, ⟨?_, h.shrink⟩, ?_⟩
    · have hback : Function.update (keptBefore fails i) i true = keptBefore fails i := by
        rw [Function.update_eq_self_iff]
        exact (keptBefore_of_le fails (Nat.le_refl _)).symm
      rw [h.included, Function.update_idem, hback, hsucc]
    · simp only [Bool.false_eq_true, if_false]
      rw [complicate, h.prevShrink]

section Iterate

variable {check : List (Fin n) → Option (Bool × Bool)}

def failsOf (check : List (Fin n) → Option (Bool × Bool)) (included : Fin n → Bool) : Bool :=
  match check (indices included) with
  | some (false, _) => true
  | _ => false

section

variable (hdecides : ∀ sequence, (check sequence).isSome) (limit : Nat)

include hdecides

theorem iterate_succ (shrinker : CallSequenceShrinker n) :
    iterate check (limit + 1) shrinker =
      if (next (failsOf check) shrinker).1 then
        iterate check limit (next (failsOf check) shrinker).2
      else (next (failsOf check) shrinker).2 := by
  obtain ⟨⟨success, applied⟩, hanswer⟩ := Option.isSome_iff_exists.mp (hdecides shrinker.current)
  have hindices : check (indices shrinker.includedCalls) = some (success, applied) := hanswer
  rw [iterate, hanswer]
  cases success <;> simp [next, failsOf, hindices]

theorem iterate_succ_of_next
    {i : Nat} {settled : CallSequenceShrinker n} (hsettled : Settled (failsOf check) i settled)
    (hnext : next (failsOf check) shrinker = settled.simplify) :
    (∀ hi : i < n, ∃ testing, Testing (failsOf check) ⟨i, hi⟩ testing ∧
        iterate check (limit + 1) shrinker = iterate check limit testing) ∧
      (n ≤ i → iterate check (limit + 1) shrinker = settled) := by
  rw [iterate_succ hdecides, hnext]
  refine ⟨fun hi => ?_, fun hi => ?_⟩
  · obtain ⟨hincluded, rfl⟩ := hsettled
    rw [simplify, dif_pos hi]
    exact ⟨_, ⟨by rw [hincluded], rfl, rfl⟩, if_pos rfl⟩
  · rw [simplify, dif_neg (by rw [hsettled.shrink]; omega), if_neg Bool.false_ne_true]

theorem iterate_of_testing {i : Fin n} (h : Testing (failsOf check) i shrinker) :
    (∀ hlimit : i + limit < n,
        Testing (failsOf check) ⟨i + limit, hlimit⟩ (iterate check limit shrinker)) ∧
      (n ≤ i + limit →
        (iterate check limit shrinker).includedCalls = keptBefore (failsOf check) n) := by
  induction limit generalizing i shrinker with
  | zero => exact ⟨fun _ => h, fun hlimit => absurd i.isLt (Nat.not_lt_of_le hlimit)⟩
  | succ limit ih =>
    obtain ⟨settled, hsettled, hnext⟩ := h.next
    obtain ⟨hgoes, hstops⟩ := iterate_succ_of_next hdecides limit hsettled hnext
    by_cases hi : i + 1 < n
    · obtain ⟨testing, htesting, heq⟩ := hgoes hi
      obtain ⟨hbefore, hafter⟩ := ih htesting
      have hsum : i.val + (limit + 1) = i.val + 1 + limit := by omega
      rw [heq]
      simp only [hsum]
      exact ⟨hbefore, hafter⟩
    · have hlast : i + 1 = n := by omega
      rw [hstops (Nat.le_of_not_lt hi)]
      refine ⟨fun hlimit => absurd hlimit (by omega), fun _ => ?_⟩
      rw [hsettled.included, hlast]

/-- The loop ends with a sequence that fails, unless the limit stops it at a call it needs. -/
theorem failsOf_iterate (hfull : failsOf check (fun _ => true) = true) (limit : Nat) :
    failsOf check (iterate check limit (new n)).includedCalls = true ↔
      ∀ i : Fin n, limit = i + 1 → ¬ Needed (failsOf check) i := by
  cases limit with
  | zero =>
    refine ⟨fun _ i hi => absurd hi (by omega), fun _ => hfull⟩
  | succ limit =>
    have hnext : next (failsOf check) (new n) = (new n).simplify := if_pos hfull
    obtain ⟨hgoes, hstops⟩ := iterate_succ_of_next hdecides limit settled_new hnext
    rcases Nat.eq_zero_or_pos n with hn | hn
    · rw [hstops (Nat.le_of_eq hn)]
      exact ⟨fun _ i => absurd i.isLt (by omega), fun _ => hfull⟩
    obtain ⟨testing, htesting, heq⟩ := hgoes hn
    obtain ⟨hbefore, hafter⟩ := iterate_of_testing hdecides limit htesting
    simp only [Nat.zero_add] at hbefore hafter
    rw [heq]
    by_cases hlimit : limit < n
    · rw [(hbefore hlimit).included]
      refine ⟨fun h i hi hneeded => ?_, fun h => ?_⟩
      · obtain rfl : i = ⟨limit, hlimit⟩ := Fin.ext (by simpa using hi.symm)
        exact absurd (h.symm.trans hneeded) (by simp)
      · simpa [Needed] using h ⟨limit, hlimit⟩ rfl
    · rw [hafter (Nat.le_of_not_lt hlimit)]
      exact ⟨fun _ i hi => absurd i.isLt (by omega), fun _ => fails_keptBefore _ hfull n⟩

end

end Iterate

end CallSequenceShrinker

/-! ## The sequence returned -/

section Result

variable {S R : Type} (executor : Executor S R)

def Fails (failedCase : FailedInvariantCaseData) (callAfterInvariant : Bool) (s : S)
    (calls : List BasicTxDetails) : Prop :=
  ∃ applied, checkCandidate executor failedCase callAfterInvariant s calls
    (List.finRange calls.length) = some (false, applied)

theorem checkSequence_congr {calls calls' : List BasicTxDetails} (testAddress : Address)
    (calldata : Bytes) (failOnRevert callAfterInvariant : Bool) (s : S)
    {sequence : List (Fin calls.length)} {sequence' : List (Fin calls'.length)}
    (h : sequence.map calls.get = sequence'.map calls'.get) :
    checkSequence executor calls testAddress calldata failOnRevert callAfterInvariant s sequence =
      checkSequence executor calls' testAddress calldata failOnRevert callAfterInvariant s
        sequence' := by
  induction sequence generalizing sequence' s with
  | nil =>
    obtain rfl : sequence' = [] := List.map_eq_nil_iff.mp h.symm
    rfl
  | cons i sequence ih =>
    cases sequence' with
    | nil => cases h
    | cons i' sequence' =>
      rw [List.map_cons, List.map_cons, List.cons.injEq] at h
      simp only [checkSequence, h.1, fun s => ih s h.2]

variable {executor} {failedCase : FailedInvariantCaseData} {callAfterInvariant : Bool} {s : S}
  {calls : List BasicTxDetails} (included : Fin calls.length → Bool)

theorem map_get_finRange (calls : List BasicTxDetails) :
    (List.finRange calls.length).map calls.get = calls := by
  rw [← List.ofFn_eq_map, List.ofFn_get]

theorem fails_indices :
    Fails executor failedCase callAfterInvariant s
        ((CallSequenceShrinker.indices included).map calls.get) ↔
      CallSequenceShrinker.failsOf
        (checkCandidate executor failedCase callAfterInvariant s calls) included = true := by
  have hsame := checkSequence_congr executor failedCase.addr failedCase.calldata
    failedCase.failOnRevert callAfterInvariant s
    (map_get_finRange ((CallSequenceShrinker.indices included).map calls.get))
  unfold Fails CallSequenceShrinker.failsOf checkCandidate
  split <;> simp_all

theorem indices_all (calls : List BasicTxDetails) :
    (CallSequenceShrinker.indices fun _ : Fin calls.length => true).map calls.get = calls := by
  rw [CallSequenceShrinker.indices, List.filter_true, map_get_finRange]

theorem sublist_indices :
    List.Sublist ((CallSequenceShrinker.indices included).map calls.get) calls := by
  have hsublist := List.Sublist.map calls.get
    (List.filter_sublist (p := included) (l := List.finRange calls.length))
  rwa [map_get_finRange] at hsublist

/-- The sequence returned, and when it fails. -/
theorem shrinkSequence_spec (hdecides : ∀ sequence,
      (checkCandidate executor failedCase callAfterInvariant s calls sequence).isSome)
    (hfull : Fails executor failedCase callAfterInvariant s calls) :
    ∃ shrunk, shrinkSequence executor failedCase callAfterInvariant s calls = some shrunk ∧
      List.Sublist shrunk calls ∧
      (Fails executor failedCase callAfterInvariant s shrunk ↔
        callInvariantFunction executor s failedCase.addr failedCase.calldata = some false ∨
          ∀ i : Fin calls.length, failedCase.shrinkRunLimit = i + 1 →
            ¬ Needed (CallSequenceShrinker.failsOf
              (checkCandidate executor failedCase callAfterInvariant s calls)) i) := by
  have hanswer : (callInvariantFunction executor s failedCase.addr failedCase.calldata).isSome := by
    have hempty := hdecides []
    cases h : callInvariantFunction executor s failedCase.addr failedCase.calldata with
    | none => simp [checkCandidate, checkSequence, h] at hempty
    | some success => rfl
  obtain ⟨success, hsuccess⟩ := Option.isSome_iff_exists.mp hanswer
  have hloop := CallSequenceShrinker.failsOf_iterate hdecides
    ((fails_indices _).mp ((indices_all calls).symm ▸ hfull)) failedCase.shrinkRunLimit
  unfold shrinkSequence
  rw [hsuccess, Option.map_some]
  cases success with
  | false =>
    refine ⟨[], rfl, List.nil_sublist _, ?_⟩
    simp [Fails, checkCandidate, checkSequence, hsuccess]
  | true =>
    refine ⟨_, rfl, sublist_indices _, ?_⟩
    rw [if_pos rfl, CallSequenceShrinker.current, fails_indices, hloop]
    simp

end Result

/-! ## A counter -/

/-- A contract that counts its calls, with an invariant that breaks at the `n`-th. -/
def countingExecutor (n : Nat) : Executor Nat Unit where
  transactRaw s _ _ _ _ := some ((), s + 1)
  callRaw _ _ _ _ _ := some ()
  reverted _ := false
  result _ := []
  isRawCallMutSuccess s _ _ := decide (s < n)
  afterInvariantSelector := []

theorem checkSequence_countingExecutor (n : Nat) {calls : List BasicTxDetails}
    (testAddress : Address) (calldata : Bytes) (failOnRevert callAfterInvariant : Bool) (s : Nat)
    (sequence : List (Fin calls.length)) :
    checkSequence (countingExecutor n) calls testAddress calldata failOnRevert callAfterInvariant s
      sequence = some (decide (s + sequence.length < n), true) := by
  induction sequence generalizing s with
  | nil =>
    by_cases h : s < n <;>
      simp [checkSequence, callInvariantFunction, callAfterInvariantFunction, countingExecutor]
  | cons i sequence ih =>
    have hsum : s + 1 + sequence.length = s + (sequence.length + 1) := by omega
    rw [List.length_cons, ← hsum, ← ih (s + 1)]
    rfl

theorem checkCandidate_countingExecutor (n : Nat) (failedCase : FailedInvariantCaseData)
    (callAfterInvariant : Bool) (calls : List BasicTxDetails)
    (sequence : List (Fin calls.length)) :
    checkCandidate (countingExecutor n) failedCase callAfterInvariant 0 calls sequence =
      some (decide (sequence.length < n), true) := by
  rw [checkCandidate, checkSequence_countingExecutor, Nat.zero_add]

def increment : BasicTxDetails := ⟨1, 2, [0x01]⟩

def countedCase (shrinkRunLimit : Nat) : FailedInvariantCaseData :=
  ⟨3, [0x02], shrinkRunLimit, false⟩

theorem failsOf_countingExecutor (n limit : Nat) (calls : List BasicTxDetails)
    (included : Fin calls.length → Bool) :
    CallSequenceShrinker.failsOf
        (checkCandidate (countingExecutor n) (countedCase limit) false 0 calls) included =
      decide (n ≤ (CallSequenceShrinker.indices included).length) := by
  rw [CallSequenceShrinker.failsOf, checkCandidate_countingExecutor]
  by_cases h : (CallSequenceShrinker.indices included).length < n
  · simp [h]
  · simp [h, Nat.le_of_not_lt h]

theorem length_indices_lt {n : Nat} {included : Fin n → Bool} {i : Fin n}
    (h : included i = false) : (CallSequenceShrinker.indices included).length < n := by
  have hlt : ((List.finRange n).filter included).length < (List.finRange n).length :=
    List.length_filter_lt_length_iff_exists.mpr ⟨i, List.mem_finRange i, by simp [h]⟩
  rwa [List.length_finRange] at hlt

/-! ## The failure that shrinking keeps -/

/-- Whatever the executor does, a failing sequence is shrunk to a part of it that still fails. -/
def KeepsFailure (calls : List BasicTxDetails) (limit : Nat) : Prop :=
  ∀ (S R : Type) (executor : Executor S R) (failedCase : FailedInvariantCaseData)
    (callAfterInvariant : Bool) (s : S), failedCase.shrinkRunLimit = limit →
    (∀ sequence,
      (checkCandidate executor failedCase callAfterInvariant s calls sequence).isSome) →
    Fails executor failedCase callAfterInvariant s calls →
    ∃ shrunk, shrinkSequence executor failedCase callAfterInvariant s calls = some shrunk ∧
      List.Sublist shrunk calls ∧ Fails executor failedCase callAfterInvariant s shrunk

/-- A call that is removed in the last run is not put back, so that a failure that needs all calls
is lost. -/
theorem not_keepsFailure_of_le {calls : List BasicTxDetails} {limit : Nat} (hpos : 0 < limit)
    (hle : limit ≤ calls.length) : ¬ KeepsFailure calls limit := by
  intro h
  have hdecides : ∀ sequence, (checkCandidate (countingExecutor calls.length) (countedCase limit)
      false 0 calls sequence).isSome := by
    intro sequence
    rw [checkCandidate_countingExecutor]
    rfl
  have hfull : Fails (countingExecutor calls.length) (countedCase limit) false 0 calls := by
    refine ⟨true, ?_⟩
    rw [checkCandidate_countingExecutor]
    simp
  obtain ⟨shrunk, hshrunk, _, hfails⟩ := shrinkSequence_spec hdecides hfull
  obtain ⟨shrunk', hshrunk', _, hstill⟩ := h _ _ _ (countedCase limit) false 0 rfl hdecides hfull
  cases hshrunk.symm.trans hshrunk'
  rcases hfails.mp hstill with hbroken | hnot
  · have hholds : callInvariantFunction (countingExecutor calls.length) 0 3 [0x02] = some true :=
      congrArg some (decide_eq_true (by omega))
    cases hholds.symm.trans hbroken
  · refine hnot ⟨limit - 1, by omega⟩ (show limit = limit - 1 + 1 by omega) ?_
    rw [Needed, failsOf_countingExecutor, decide_eq_false_iff_not, not_le]
    exact length_indices_lt (Function.update_self _ _ _)

/-- The failure is kept just if nothing is removed, or if there are more runs than calls. -/
theorem shrinkSequence_keeps_failure_iff (calls : List BasicTxDetails) (limit : Nat) :
    KeepsFailure calls limit ↔ limit = 0 ∨ calls.length < limit := by
  constructor
  · intro h
    by_contra hlimit
    exact not_keepsFailure_of_le (by omega) (by omega) h
  · intro hlimit S R executor failedCase callAfterInvariant s heq hdecides hfull
    obtain ⟨shrunk, hshrunk, hsublist, hfails⟩ := shrinkSequence_spec hdecides hfull
    have htested : ∀ i : Fin calls.length, failedCase.shrinkRunLimit ≠ i + 1 := by omega
    exact ⟨shrunk, hshrunk, hsublist, hfails.mpr (.inr fun i hi => absurd hi (htested i))⟩

/-- With a limit of one run, the only call of a failing sequence is removed and not put back. -/
theorem shrinkSequence_loses_failure : ¬ KeepsFailure [increment] 1 := by
  intro h
  obtain ⟨shrunk, hshrunk, _, applied, hfails⟩ :=
    h Nat Unit (countingExecutor 1) (countedCase 1) false 0 rfl
      (fun sequence => by rw [checkCandidate_countingExecutor]; rfl) ⟨true, by rfl⟩
  obtain rfl : [] = shrunk := by
    have hreturned : shrinkSequence (countingExecutor 1) (countedCase 1) false 0 [increment] =
        some [] := by decide
    exact Option.some.inj (hreturned.symm.trans hshrunk)
  cases hfails

end Foundry.Invariant
