import Foundry.Invariant.Shrink
import Mathlib.Data.List.InsertIdx

/-!
# The sequences that shrinking ends with

With as many runs as there are calls, every call but the last is removed and tested.  The removal of
the last one may be left untested, which for a monotone oracle does not matter: a sequence that
passes still passes with one more call removed.
-/

namespace Foundry.Invariant

/-! ## What is left of a greedy deletion -/

section Deletion

variable {n : Nat} {fails : (Fin n → Bool) → Bool}

theorem keptBefore_succ_le (i : Nat) : keptBefore fails (i + 1) ≤ keptBefore fails i := by
  rw [keptBefore]
  split
  · split
    · exact update_le_iff.mpr ⟨Bool.false_le _, fun _ _ => le_rfl⟩
    · exact le_rfl
  · exact le_rfl

theorem keptBefore_antitone : Antitone (keptBefore fails) :=
  antitone_nat_of_succ_le keptBefore_succ_le

theorem needed_of_kept {i : Fin n} (h : keptBefore fails (i + 1) i = true) : Needed fails i := by
  by_contra hneeded
  rw [Needed, Bool.not_eq_false] at hneeded
  rw [keptBefore_succ, if_pos hneeded, Function.update_self] at h
  cases h

/-- Every element is needed among what is left when its turn is over. -/
def Thinned (fails : (Fin n → Bool) → Bool) (included : Fin n → Bool) : Prop :=
  ∀ i, included i = true → included ≤ keptBefore fails (i + 1)

theorem Thinned.passes {included : Fin n → Bool} (h : Thinned fails included)
    (hmono : ∀ a b, a ≤ b → fails a = true → fails b = true) {i : Fin n}
    (hi : included i = true) : fails (Function.update included i false) = false := by
  have hle := h i hi
  have hneeded := needed_of_kept (Bool.eq_true_of_true_le (hi ▸ hle i))
  rw [keptBefore_succ, if_neg (by rw [Needed] at hneeded; simp [hneeded])] at hle
  by_contra hfails
  rw [Bool.not_eq_false] at hfails
  have hfails := hmono _ _ (update_le_update_iff.mpr ⟨le_rfl, fun j _ => hle j⟩) hfails
  rw [hneeded] at hfails
  cases hfails

end Deletion

namespace CallSequenceShrinker

variable {n : Nat} {check : List (Fin n) → Option (Bool × Bool)}

theorem thinned_iterate (hdecides : ∀ sequence, (check sequence).isSome)
    (hfull : failsOf check (fun _ => true) = true) {limit : Nat} (hlimit : n ≤ limit) :
    Thinned (failsOf check) (iterate check limit (new n)).includedCalls := by
  rcases Nat.eq_zero_or_pos n with rfl | hn
  · exact fun i => i.elim0
  obtain ⟨limit, rfl⟩ := Nat.exists_eq_succ_of_ne_zero (Nat.ne_of_gt (hn.trans_le hlimit))
  have hnext : next (failsOf check) (new n) = (new n).simplify := if_pos hfull
  obtain ⟨testing, htesting, heq⟩ := (iterate_succ_of_next hdecides limit settled_new hnext).1 hn
  obtain ⟨hbefore, hafter⟩ := iterate_of_testing hdecides limit htesting
  simp only [Nat.zero_add] at hbefore hafter
  rw [heq]
  intro i hi
  by_cases hlast : limit < n
  · have hincluded := (hbefore hlast).included
    have hne : i ≠ ⟨limit, hlast⟩ := by
      rintro rfl
      rw [hincluded, Function.update_self] at hi
      cases hi
    have hlt : i.val < limit := by
      have hval : i.val ≠ limit := fun h => hne (Fin.ext h)
      omega
    rw [hincluded]
    exact (update_le_iff.mpr ⟨Bool.false_le _, fun _ _ => le_rfl⟩).trans
      (keptBefore_antitone hlt)
  · rw [hafter (Nat.le_of_not_lt hlast)]
    exact keptBefore_antitone i.isLt

theorem eraseIdx_indices (included : Fin n → Bool) {k : Nat}
    (hk : k < (indices included).length) :
    (indices included).eraseIdx k =
      indices (Function.update included ((indices included).get ⟨k, hk⟩) false) := by
  have hnodup : (indices included).Nodup := (List.nodup_finRange n).filter _
  rw [← hnodup.erase_getElem k hk, hnodup.erase_eq_filter, List.get_eq_getElem]
  generalize (indices included)[k] = call
  unfold indices
  rw [List.filter_filter]
  refine List.filter_congr fun i _ => ?_
  by_cases hi : i = call
  · simp [hi]
  · simp [hi]

end CallSequenceShrinker

section Result

variable {S R : Type} {executor : Executor S R} {failedCase : FailedInvariantCaseData}
  {callAfterInvariant : Bool} {s : S} {calls : List BasicTxDetails}

/-- A part of the calls that fails makes every larger part fail. -/
def Monotone (executor : Executor S R) (failedCase : FailedInvariantCaseData)
    (callAfterInvariant : Bool) (s : S) (calls : List BasicTxDetails) : Prop :=
  ∀ a b : List BasicTxDetails, List.Sublist a b → List.Sublist b calls →
    Fails executor failedCase callAfterInvariant s a →
      Fails executor failedCase callAfterInvariant s b

theorem failsOf_mono (hmono : Monotone executor failedCase callAfterInvariant s calls)
    (a b : Fin calls.length → Bool) (hle : a ≤ b) :
    CallSequenceShrinker.failsOf (checkCandidate executor failedCase callAfterInvariant s calls) a =
        true →
      CallSequenceShrinker.failsOf (checkCandidate executor failedCase callAfterInvariant s calls)
        b = true := by
  rw [← fails_indices, ← fails_indices]
  refine hmono _ _ (List.Sublist.map _ ?_) (sublist_indices b)
  exact List.monotone_filter_right _ fun i => Bool.le_iff_imp.mp (hle i)

/-- With as many runs as calls, the sequence returned passes without any one of its calls.  With
more runs than calls it fails, so that it is a minimal failing part. -/
theorem shrinkSequence_minimal (executor : Executor S R) (failedCase : FailedInvariantCaseData)
    (callAfterInvariant : Bool) (s : S) (calls : List BasicTxDetails)
    (hdecides : ∀ sequence,
      (checkCandidate executor failedCase callAfterInvariant s calls sequence).isSome)
    (hmono : Monotone executor failedCase callAfterInvariant s calls)
    (hfull : Fails executor failedCase callAfterInvariant s calls)
    (hlimit : calls.length ≤ failedCase.shrinkRunLimit) :
    ∃ shrunk, shrinkSequence executor failedCase callAfterInvariant s calls = some shrunk ∧
      List.Sublist shrunk calls ∧
      (∀ k < shrunk.length,
        ¬ Fails executor failedCase callAfterInvariant s (shrunk.eraseIdx k)) ∧
      (calls.length < failedCase.shrinkRunLimit →
        Fails executor failedCase callAfterInvariant s shrunk) := by
  obtain ⟨shrunk, hshrunk, hsublist, hfails⟩ := shrinkSequence_spec hdecides hfull
  refine ⟨shrunk, hshrunk, hsublist, fun k hk => ?_, fun hmore => ?_⟩
  swap
  · have htested : ∀ i : Fin calls.length, failedCase.shrinkRunLimit ≠ i + 1 := by omega
    exact hfails.mpr (.inr fun i hi => absurd hi (htested i))
  obtain ⟨success, _, rfl⟩ := Option.map_eq_some_iff.mp hshrunk
  cases success with
  | false => cases hk
  | true =>
    have hthinned := CallSequenceShrinker.thinned_iterate hdecides
      ((fails_indices _).mp ((indices_all calls).symm ▸ hfull)) hlimit
    simp only [if_true, CallSequenceShrinker.current, List.length_map] at hk ⊢
    rw [List.eraseIdx_map, CallSequenceShrinker.eraseIdx_indices _ hk, fails_indices]
    have hincluded := (List.mem_filter.mp (List.get_mem _ ⟨k, hk⟩)).2
    rw [hthinned.passes (failsOf_mono hmono) hincluded]
    exact Bool.false_ne_true

end Result

/-- Of three calls two are needed, and two are left after four runs. -/
theorem shrinkSequence_minimal_counter :
    shrinkSequence (countingExecutor 2) (countedCase 4) false 0 (List.replicate 3 increment) =
        some (List.replicate 2 increment) ∧
      ∃ shrunk, shrinkSequence (countingExecutor 2) (countedCase 4) false 0
          (List.replicate 3 increment) = some shrunk ∧
        List.Sublist shrunk (List.replicate 3 increment) ∧
        (∀ k < shrunk.length,
          ¬ Fails (countingExecutor 2) (countedCase 4) false 0 (shrunk.eraseIdx k)) ∧
        (3 < 4 → Fails (countingExecutor 2) (countedCase 4) false 0 shrunk) := by
  refine ⟨by decide, ?_⟩
  refine shrinkSequence_minimal _ _ _ _ _ (fun sequence => ?_) (fun a b hab _ => ?_) ?_ (by decide)
  · rw [checkCandidate_countingExecutor]
    rfl
  · have hlength := hab.length_le
    simp only [Fails, checkCandidate_countingExecutor, List.length_finRange, Option.some.injEq,
      Prod.mk.injEq, decide_eq_false_iff_not]
    rintro ⟨applied, ha, rfl⟩
    exact ⟨true, by omega, rfl⟩
  · exact ⟨true, by rfl⟩

end Foundry.Invariant
