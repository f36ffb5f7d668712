import Mathlib.Data.Finset.Card
import Mathlib.Data.List.Sort

/-!
# Iteration orders

Iterating over a hash set visits every element once, in an order the program
does not control.  An `Enumeration` is one such choice of order for every set;
a statement about all enumerations holds for whatever order a run meets.
-/

namespace Foundry

/-- One order of visiting the elements of each finite set. -/
structure Enumeration (α : Type) where
  visit : Finset α → List α
  visit_val : ∀ s, (visit s : Multiset α) = s.val

namespace Enumeration

variable {α : Type} (e : Enumeration α)

@[simp] theorem mem_visit {s : Finset α} {a : α} : a ∈ e.visit s ↔ a ∈ s := by
  rw [← Multiset.mem_coe, e.visit_val, Finset.mem_val]

theorem nodup_visit (s : Finset α) : (e.visit s).Nodup := by
  rw [← Multiset.coe_nodup, e.visit_val]
  exact s.nodup

theorem length_visit (s : Finset α) : (e.visit s).length = s.card := by
  rw [← Multiset.coe_card, e.visit_val, Finset.card_val]

@[simp] theorem visit_singleton (a : α) : e.visit {a} = [a] := by
  have h := e.visit_val {a}
  rw [Finset.singleton_val, ← Multiset.coe_singleton, Multiset.coe_eq_coe] at h
  exact List.perm_singleton.mp h

/-- Visit `a` before everything else. -/
def front [DecidableEq α] (e : Enumeration α) (a : α) : Enumeration α where
  visit s := if a ∈ s then a :: e.visit (s.erase a) else e.visit s
  visit_val s := by
    split
    · next h =>
      rw [← Multiset.cons_coe, e.visit_val, Finset.erase_val]
      exact Multiset.cons_erase h
    · exact e.visit_val s

theorem front_visit [DecidableEq α] (e : Enumeration α) {a : α} {s : Finset α} (h : a ∈ s) :
    (e.front a).visit s = a :: e.visit (s.erase a) := if_pos h

/-- Visit in increasing order of an injective key. -/
def sortedBy {κ : Type} [LinearOrder κ] (key : α → κ) (hkey : Function.Injective key) :
    Enumeration α :=
  have trans : IsTrans α fun a b => key a ≤ key b := ⟨fun _ _ _ => le_trans⟩
  have total : Std.Total fun a b : α => key a ≤ key b := ⟨fun a b => le_total (key a) (key b)⟩
  have antisymm : Std.Antisymm fun a b : α => key a ≤ key b :=
    ⟨fun _ _ h h' => hkey (le_antisymm h h')⟩
  { visit := fun s => Quot.liftOn s.val (List.insertionSort fun a b => key a ≤ key b)
      fun l l' h => List.Perm.eq_of_pairwise' (List.pairwise_insertionSort _ l)
        (List.pairwise_insertionSort _ l')
        (((List.perm_insertionSort _ l).trans h).trans (List.perm_insertionSort _ l').symm)
    visit_val := fun s => by
      obtain ⟨m, hm⟩ := s
      induction m using Quot.inductionOn with
      | h l => exact Multiset.coe_eq_coe.mpr (List.perm_insertionSort _ l) }

theorem pairwise_sortedBy {κ : Type} [LinearOrder κ] (key : α → κ)
    (hkey : Function.Injective key) (s : Finset α) :
    ((sortedBy key hkey).visit s).Pairwise fun a b => key a ≤ key b := by
  obtain ⟨m, hm⟩ := s
  induction m using Quot.inductionOn with
  | h l => exact List.pairwise_insertionSort _ l

end Enumeration

end Foundry
