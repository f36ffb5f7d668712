import Mathlib.Data.List.Basic

/-!
# Scans outside ranges

Half-open ranges of positions, sorted by where they start.  A scan goes through them from left to
right and looks at the positions in between, until one of these does not agree.  It can go on as
long as no range starts before the end of the one in front of it.
-/

namespace Foundry.Ranges

structure Range where
  start : Nat
  length : Nat
deriving DecidableEq

namespace Range

def stop (r : Range) : Nat := r.start + r.length

def Has (r : Range) (p : Nat) : Prop := r.start ≤ p ∧ p < r.stop

end Range

def Covered (ranges : List Range) (p : Nat) : Prop := ∃ r ∈ ranges, r.Has p

@[simp] theorem covered_nil (p : Nat) : ¬ Covered [] p := by
  simp [Covered]

@[simp] theorem covered_cons {r : Range} {ranges : List Range} {p : Nat} :
    Covered (r :: ranges) p ↔ r.Has p ∨ Covered ranges p := by
  simp [Covered]

def Sorted (ranges : List Range) : Prop := ranges.Pairwise fun r r' => r.start ≤ r'.start

variable {agrees : Nat → Prop} {ranges : List Range}

theorem not_covered_of_lt {r : Range} (h : Sorted (r :: ranges)) {p : Nat} (hp : p < r.start) :
    ¬ Covered (r :: ranges) p := by
  intro ⟨r', hmem, hhas⟩
  have hle : r.start ≤ r'.start := by
    rcases List.mem_cons.mp hmem with rfl | hlater
    · exact Nat.le_refl _
    · exact List.rel_of_pairwise_cons h hlater
  have hstart := hhas.1
  omega

/-- The scan from `left` on does not meet a range that starts too early. -/
def Clear (agrees : Nat → Prop) : Nat → List Range → Prop
  | _, [] => True
  | left, r :: ranges =>
    left ≤ r.start ∧ ((∀ p, left ≤ p → p < r.start → agrees p) → Clear agrees r.stop ranges)

/-- No range starts before the end of the one in front of it, unless a position before that one,
and outside the earlier ranges, does not agree. -/
def Apart (agrees : Nat → Prop) (left : Nat) (ranges : List Range) : Prop :=
  ∀ before r r' after, ranges = before ++ r :: r' :: after →
    (∀ p, left ≤ p → p < r.start → ¬ Covered before p → agrees p) → r.stop ≤ r'.start

theorem apart_of_clear {left : Nat} (hsorted : Sorted ranges) (h : Clear agrees left ranges) :
    Apart agrees left ranges := by
  induction ranges generalizing left with
  | nil =>
    intro before r r' after heq
    simp at heq
  | cons first ranges ih =>
    intro before r r' after heq hagrees
    have hrest := List.Pairwise.of_cons hsorted
    cases before with
    | nil =>
      cases heq
      have hclear := h.2 fun p hleft hp => hagrees p hleft hp (covered_nil p)
      exact hclear.1
    | cons head before =>
      cases heq
      have hr : first.start ≤ r.start := List.rel_of_pairwise_cons hsorted (by simp)
      have hclear := h.2 fun p hleft hp => hagrees p hleft (by omega) fun hcovered => by
        obtain ⟨r'', hmem, hhas⟩ := hcovered
        exact not_covered_of_lt hsorted hp ⟨r'', List.mem_append_left _ hmem, hhas⟩
      refine ih hrest hclear before r r' after rfl fun p hp hlt hout => ?_
      have hstop : first.start ≤ first.stop := Nat.le_add_right _ _
      refine hagrees p (Nat.le_trans h.1 (Nat.le_trans hstop hp)) hlt ?_
      rw [covered_cons]
      rintro (hhas | hcovered)
      · exact absurd hhas.2 (Nat.not_lt_of_le hp)
      · exact hout hcovered

theorem clear_of_apart {left : Nat} (hfirst : ∀ r ∈ ranges.head?, left ≤ r.start)
    (h : Apart agrees left ranges) : Clear agrees left ranges := by
  induction ranges generalizing left with
  | nil => trivial
  | cons first ranges ih =>
    refine ⟨hfirst first rfl, fun hagrees => ih ?_ ?_⟩
    · intro r hr
      cases ranges with
      | nil => cases hr
      | cons second ranges =>
        obtain rfl : second = r := by simpa using hr
        exact h [] first second ranges rfl fun p hleft hp _ => hagrees p hleft hp
    intro before r r' after heq hrest
    refine h (first :: before) r r' after (by rw [heq]; rfl) fun p hleft hp hout => ?_
    rw [covered_cons, not_or] at hout
    by_cases hbefore : p < first.start
    · exact hagrees p hleft hbefore
    · have hbehind : first.stop ≤ p := by
        by_contra hin
        exact hout.1 ⟨Nat.le_of_not_lt hbefore, Nat.lt_of_not_le hin⟩
      exact hrest p hbehind hp hout.2

theorem clear_zero_iff (hsorted : Sorted ranges) : Clear agrees 0 ranges ↔ Apart agrees 0 ranges :=
  ⟨apart_of_clear hsorted, clear_of_apart fun _ _ => Nat.zero_le _⟩

end Foundry.Ranges
