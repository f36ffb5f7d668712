import Mathlib.Algebra.Order.BigOperators.Group.List
import Mathlib.Algebra.Order.Ring.Nat
import Mathlib.Data.List.Pairwise

/-!
# Sorted sets

An ordered set of elements compared only by a key, as a B-tree set of a type
whose `Ord` instance looks at some of the fields.  Two elements with the same
key are the same element for the set: inserting the second one keeps the first.
-/

namespace Foundry

open List

structure SortedSet {α κ : Type} [LinearOrder κ] (key : α → κ) where
  elems : List α
  sorted : elems.Pairwise fun a b => key a < key b

namespace SortedSet

variable {α κ : Type} [LinearOrder κ] {key : α → κ}

theorem eq_of_elems {s t : SortedSet key} (h : s.elems = t.elems) : s = t := by
  cases s
  cases h
  rfl

instance [DecidableEq α] : DecidableEq (SortedSet key) := fun s t =>
  decidable_of_iff (s.elems = t.elems) ⟨eq_of_elems, fun h => h ▸ rfl⟩

instance : Membership α (SortedSet key) := ⟨fun s a => a ∈ s.elems⟩

theorem mem_def {s : SortedSet key} {a : α} : a ∈ s ↔ a ∈ s.elems := Iff.rfl

def empty : SortedSet key := ⟨[], List.Pairwise.nil⟩

@[simp] theorem not_mem_empty (a : α) : a ∉ (empty : SortedSet key) := not_mem_nil

/-! ## Insertion -/

variable {s : SortedSet key} {a x : α} {bs : List α} {b : α}

/-- Insert into a sorted list; an element with the same key keeps its place. -/
def insertElem (key : α → κ) (a : α) : List α → List α
  | [] => [a]
  | b :: bs =>
    if key a < key b then a :: b :: bs
    else if key b < key a then b :: insertElem key a bs
    else b :: bs

theorem mem_insertElem (hs : bs.Pairwise fun a b => key a < key b) :
    x ∈ insertElem key a bs ↔ x ∈ bs ∨ x = a ∧ ∀ b ∈ bs, key b ≠ key a := by
  induction bs with
  | nil => simp [insertElem]
  | cons b bs ih =>
    obtain ⟨hb, hbs⟩ := pairwise_cons.mp hs
    unfold insertElem
    split
    · next hlt =>
      have hnone : ∀ c ∈ b :: bs, key c ≠ key a :=
        forall_mem_cons.mpr ⟨hlt.ne', fun c hc => (hlt.trans (hb c hc)).ne'⟩
      rw [mem_cons, or_comm, and_iff_left hnone]
    · next hnlt =>
      split
      · next hgt =>
        rw [mem_cons, ih hbs, mem_cons, forall_mem_cons, and_iff_right hgt.ne, or_assoc]
      · next hngt =>
        have heq : key b = key a := le_antisymm (not_lt.mp hnlt) (not_lt.mp hngt)
        exact (or_iff_left fun h => h.2 b mem_cons_self heq).symm

theorem insertElem_sorted (hs : bs.Pairwise fun a b => key a < key b) :
    (insertElem key a bs).Pairwise fun a b => key a < key b := by
  induction bs with
  | nil => simp [insertElem]
  | cons b bs ih =>
    obtain ⟨hb, hbs⟩ := pairwise_cons.mp hs
    unfold insertElem
    split
    · next hlt =>
      exact hs.cons_cons_of_trans hlt
    split
    · next hgt =>
      refine pairwise_cons.mpr ⟨?_, ih hbs⟩
      intro c hc
      rcases (mem_insertElem hbs).mp hc with hc | ⟨rfl, -⟩
      · exact hb c hc
      · exact hgt
    · exact hs

/-- `insert`: an element with the key of a member is dropped. -/
def insert (s : SortedSet key) (a : α) : SortedSet key :=
  ⟨insertElem key a s.elems, insertElem_sorted s.sorted⟩

theorem mem_insert : x ∈ s.insert a ↔ x ∈ s ∨ x = a ∧ ∀ b ∈ s, key b ≠ key a :=
  mem_insertElem s.sorted

theorem insertElem_of_key_mem (hs : bs.Pairwise fun a b => key a < key b) (hb : b ∈ bs)
    (heq : key b = key a) : insertElem key a bs = bs := by
  induction bs with
  | nil => exact absurd hb not_mem_nil
  | cons c bs ih =>
    obtain ⟨hc, hbs⟩ := pairwise_cons.mp hs
    unfold insertElem
    rcases mem_cons.mp hb with rfl | hb
    · rw [if_neg heq.not_gt, if_neg heq.not_lt]
    · have hlt : key c < key a := heq ▸ hc b hb
      rw [if_neg hlt.not_gt, if_pos hlt, ih hbs hb]

theorem key_mem_insert (s : SortedSet key) (a : α) : ∃ b ∈ s.insert a, key b = key a := by
  by_cases h : ∃ b ∈ s, key b = key a
  · obtain ⟨b, hb, heq⟩ := h
    exact ⟨b, mem_insert.mpr (.inl hb), heq⟩
  · exact ⟨a, mem_insert.mpr (.inr ⟨rfl, fun b hb heq => h ⟨b, hb, heq⟩⟩), rfl⟩

theorem insert_insert (s : SortedSet key) (a : α) : (s.insert a).insert a = s.insert a := by
  obtain ⟨b, hb, heq⟩ := key_mem_insert s a
  exact eq_of_elems (insertElem_of_key_mem (s.insert a).sorted hb heq)

/-! ## Removal -/

/-- `remove`: the member with the key of `a`, if there is one. -/
def remove (s : SortedSet key) (a : α) : SortedSet key :=
  ⟨s.elems.filter fun b => key b ≠ key a, s.sorted.sublist filter_sublist⟩

@[simp] theorem mem_remove : x ∈ s.remove a ↔ x ∈ s ∧ key x ≠ key a := by
  simp [mem_def, remove]

/-- The member with the greatest key (`iter().next_back()`). -/
def last? (s : SortedSet key) : Option α := s.elems.getLast?

theorem last?_eq_none : s.last? = none ↔ ∀ a, a ∉ s := by
  rw [last?, getLast?_eq_none_iff, eq_nil_iff_forall_not_mem]
  rfl

theorem mem_of_last? (h : s.last? = some a) : a ∈ s := mem_of_getLast? h

theorem key_le_of_last? (h : s.last? = some a) (hb : b ∈ s) : key b ≤ key a := by
  obtain ⟨init, hinit⟩ := getLast?_eq_some_iff.mp h
  have hs := s.sorted
  rw [hinit, pairwise_append] at hs
  rw [mem_def, hinit, mem_append, mem_singleton] at hb
  rcases hb with hb | rfl
  · exact (hs.2.2 b hb a (mem_singleton.mpr rfl)).le
  · exact le_refl (key b)

theorem length_remove_lt (h : a ∈ s) : (s.remove a).elems.length < s.elems.length := by
  refine length_filter_lt_length_iff_exists.mpr ⟨a, h, ?_⟩
  simp

/-! ## Weights

The sum of a measure over the members, for loops that take the greatest member out and
put smaller ones back. -/

def weight (s : SortedSet key) (f : α → Nat) : Nat := (s.elems.map f).sum

theorem weight_insert_le (s : SortedSet key) (f : α → Nat) (a : α) :
    (s.insert a).weight f ≤ s.weight f + f a := by
  have hlist : ∀ bs : List α, ((insertElem key a bs).map f).sum ≤ (bs.map f).sum + f a := by
    intro bs
    induction bs with
    | nil => simp [insertElem]
    | cons b bs ih =>
      unfold insertElem
      split
      · simp only [map_cons, sum_cons]
        omega
      · split
        · simp only [map_cons, sum_cons]
          omega
        · omega
  exact hlist s.elems

theorem weight_remove_add_le (f : α → Nat) (ha : a ∈ s) :
    (s.remove a).weight f + f a ≤ s.weight f := by
  have hlist : ∀ bs : List α, a ∈ bs →
      ((bs.filter fun b => key b ≠ key a).map f).sum + f a ≤ (bs.map f).sum := by
    intro bs
    induction bs with
    | nil => exact fun h => absurd h not_mem_nil
    | cons b bs ih =>
      intro hmem
      have hsub : ((bs.filter fun b => key b ≠ key a).map f).sum ≤ (bs.map f).sum :=
        List.Sublist.sum_le_sum (filter_sublist.map f) (by simp)
      by_cases hkey : key b = key a
      · rw [filter_cons_of_neg (by simpa using hkey), map_cons, sum_cons]
        rcases mem_cons.mp hmem with rfl | hmem
        · omega
        · have hrest := ih hmem
          omega
      · rw [filter_cons_of_pos (by simpa using hkey), map_cons, map_cons, sum_cons, sum_cons]
        have hrest := ih ((mem_cons.mp hmem).resolve_left fun h => hkey (h ▸ rfl))
        omega
  exact hlist s.elems ha

theorem weight_le {f : α → Nat} {n : Nat} (h : ∀ a ∈ s, f a ≤ n) :
    s.weight f ≤ s.elems.length * n := by
  have hsum := sum_le_card_nsmul (s.elems.map f) n (forall_mem_map.mpr h)
  simpa [weight] using hsum

end SortedSet

end Foundry
