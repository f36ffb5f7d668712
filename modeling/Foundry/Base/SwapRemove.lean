import Mathlib.Data.List.Perm.Basic

/-!
# Removal by swapping

`swap_remove` takes an element out of a list and puts the last one in its place.  What is left
is the list without that element, in some order.
-/

namespace Foundry

open List

open scoped List

variable {α : Type} {l rest : List α} {n : Nat}

def swapRemove (l : List α) (n : Nat) : Option (α × List α) :=
  match l[n]?, l.getLast? with
  | some a, some last => some (a, (l.set n last).dropLast)
  | _, _ => none

theorem swapRemove_of_lt {l : List α} (h : n < l.length) :
    ∃ a rest, swapRemove l n = some (a, rest) := by
  have hne : l ≠ [] := ne_nil_of_length_pos (Nat.zero_lt_of_lt h)
  unfold swapRemove
  rw [getElem?_eq_getElem h, getLast?_eq_some_getLast hne]
  exact ⟨_, _, rfl⟩

theorem getElem?_of_swapRemove {a : α} (h : swapRemove l n = some (a, rest)) : l[n]? = some a := by
  unfold swapRemove at h
  split at h
  · next last hget _ =>
    cases h
    exact hget
  · cases h

theorem swapRemove_perm {a : α} (h : swapRemove l n = some (a, rest)) : a :: rest ~ l := by
  unfold swapRemove at h
  split at h
  · next last hget hlast =>
    cases h
    obtain ⟨front, rfl⟩ := getLast?_eq_some_iff.mp hlast
    by_cases hn : n < front.length
    · rw [getElem?_append_left hn, getElem?_eq_getElem hn] at hget
      cases hget
      rw [set_append_left n last hn, dropLast_concat]
      calc front[n] :: front.set n last
          _ ~ front[n] :: last :: front.eraseIdx n := (set_perm_cons_eraseIdx hn last).cons _
          _ ~ last :: front[n] :: front.eraseIdx n := .swap ..
          _ ~ last :: front := (getElem_cons_eraseIdx_perm hn).cons _
          _ ~ front ++ [last] := (perm_append_singleton last front).symm
    · have heq : n = front.length := by
        have hlt := (List.getElem?_eq_some_iff.mp hget).1
        rw [List.length_append, List.length_singleton] at hlt
        omega
      subst heq
      rw [getElem?_concat_length] at hget
      cases hget
      rw [set_append_right _ _ (Nat.le_refl _), Nat.sub_self, set_cons_zero, dropLast_concat]
      exact (perm_append_singleton a front).symm
  · cases h

end Foundry
