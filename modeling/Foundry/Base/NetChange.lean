import Mathlib.Data.List.Chain
import Mathlib.Data.Option.Basic

/-!
# Net changes

A sequence of changes of one value is summed up by the first previous value and the last new one.
-/

namespace Foundry

structure Change (α : Type) where
  previousValue : α
  newValue : α
deriving DecidableEq

namespace Change

variable {α : Type}

/-- Keeps the first previous value, and takes the last new one. -/
def track (diff : Option (Change α)) (change : Change α) : Option (Change α) :=
  match diff with
  | some first => some ⟨first.previousValue, change.newValue⟩
  | none => some change

/-- The change from a value to another, if there are any. -/
def between (before after : Option α) : Option (Change α) :=
  match before, after with
  | some previousValue, some newValue => some ⟨previousValue, newValue⟩
  | _, _ => none

theorem foldl_track_some (change : Change α) (changes : List (Change α)) :
    changes.foldl track (some change) =
      some ⟨change.previousValue, (changes.getLast?.getD change).newValue⟩ := by
  induction changes generalizing change with
  | nil => rfl
  | cons next changes ih =>
    rw [List.foldl_cons, track, ih]
    cases changes with
    | nil => rfl
    | cons => simp [List.getLast?_cons]

theorem foldl_track (changes : List (Change α)) :
    changes.foldl track none =
      between (changes.head?.map previousValue) (changes.getLast?.map newValue) := by
  cases changes with
  | nil => rfl
  | cons first changes =>
    rw [List.foldl_cons, track, foldl_track_some, List.getLast?_cons]
    rfl

/-- Each change starts with the value that the one before it left. -/
def Linked (changes : List (Change α)) : Prop :=
  changes.IsChain fun change next => change.newValue = next.previousValue

variable [DecidableEq α]

def changed (change : Change α) : Bool := change.previousValue ≠ change.newValue

def net (diff : Option (Change α)) : Option (Change α) :=
  diff.filter changed

theorem newValue_getLast?_changed {change : Change α} {changes : List (Change α)}
    (h : Linked (change :: changes)) :
    (change :: changes.filter changed).getLast?.map newValue =
      (change :: changes).getLast?.map newValue := by
  induction changes generalizing change with
  | nil => rfl
  | cons next changes ih =>
    have hnext : change.newValue = next.previousValue := (List.isChain_cons_cons.mp h).1
    cases hchanged : next.changed with
    | true =>
      rw [List.filter_cons_of_pos hchanged, List.getLast?_cons_cons, List.getLast?_cons_cons]
      exact ih h.tail
    | false =>
      have hsame : next.previousValue = next.newValue := by simpa [changed] using hchanged
      rw [List.filter_cons_of_neg (by simp [hchanged])]
      cases changes with
      | nil => exact congrArg some (hnext.trans hsame)
      | cons last changes =>
        have hlast : next.newValue = last.previousValue := (List.isChain_cons_cons.mp h.tail).1
        have hlinked : Linked (change :: last :: changes) :=
          List.IsChain.cons_cons (hnext.trans (hsame.trans hlast)) h.tail.tail
        rw [ih hlinked]
        simp only [List.getLast?_cons_cons]

/-- The changes of a linked sequence come to the same without those that change nothing. -/
theorem net_between_changed {changes : List (Change α)} (h : Linked changes) :
    net (between ((changes.filter changed).head?.map previousValue)
        ((changes.filter changed).getLast?.map newValue)) =
      net (between (changes.head?.map previousValue) (changes.getLast?.map newValue)) := by
  induction changes with
  | nil => rfl
  | cons change changes ih =>
    cases hchanged : change.changed with
    | true =>
      rw [List.filter_cons_of_pos hchanged, newValue_getLast?_changed h]
      rfl
    | false =>
      have hsame : change.previousValue = change.newValue := by simpa [changed] using hchanged
      rw [List.filter_cons_of_neg (by simp [hchanged]), ih h.tail]
      cases changes with
      | nil => simp [net, between, Option.filter, changed, hsame]
      | cons next changes =>
        have hnext : change.newValue = next.previousValue := (List.isChain_cons_cons.mp h).1
        simp only [List.head?_cons, Option.map_some, List.getLast?_cons_cons, hsame, hnext]

end Change

end Foundry
