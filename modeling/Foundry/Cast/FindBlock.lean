import Mathlib.Data.Nat.Dist

/-!
# The block nearest to a time

`cast find-block` searches the blocks of a chain, from block 1 on, for the one whose timestamp is
nearest to a target.
-/

namespace Foundry.Cast

structure Chain where
  timestamp : Nat → Nat
  last : Nat
  one_le_last : 1 ≤ last
  mono : ∀ i j, 1 ≤ i → i ≤ j → j ≤ last → timestamp i ≤ timestamp j

namespace FindBlock

open Option

def checkedSub (x y : Nat) : Option Nat := if y ≤ x then some (x - y) else none

theorem checkedSub_of_le {x y : Nat} (h : y ≤ x) : checkedSub x y = some (x - y) := if_pos h

/-- The bounds that the search goes on with, or a match. -/
inductive Progress where
  | bounds (low high : Nat)
  | found (block : Nat)

variable (timestamp : Nat → Nat) (target : Nat)

/-- The nearer of two neighbours, the higher one if both are as near. -/
def nearer (low high : Nat) : Option Nat := do
  let highDiff ← checkedSub (timestamp high) target
  let lowDiff ← checkedSub target (timestamp low)
  return if lowDiff < highDiff then low else high

/-- The body of the loop; `none` is an `unwrap` that fails. -/
def iterate (low high : Nat) : Option Progress := do
  let half := (← checkedSub high low) / 2
  let mid ← checkedSub high half
  if timestamp mid = target then
    return .found mid
  else if (← checkedSub high low) = 1 then
    (nearer timestamp target low high).map .found
  else if timestamp mid < target then
    return .bounds mid high
  else
    return .bounds low mid

variable {timestamp target} {low high : Nat}

theorem iterate_eq (h : low < high) : iterate timestamp target low high =
    let mid := high - (high - low) / 2
    if timestamp mid = target then some (.found mid)
    else if high - low = 1 then (nearer timestamp target low high).map .found
    else if timestamp mid < target then some (.bounds mid high)
    else some (.bounds low mid) := by
  have hhalf : (high - low) / 2 ≤ high := by omega
  simp only [iterate, checkedSub_of_le (Nat.le_of_lt h), checkedSub_of_le hhalf,
    bind_eq_bind, bind_some, pure_def]

private theorem iterate_lt {low' high' : Nat} (h : low < high)
    (hnext : iterate timestamp target low high = some (.bounds low' high')) :
    high' - low' < high - low := by
  rw [iterate_eq h] at hnext
  grind [map_eq_some_iff]

variable (timestamp target) in
def search (low high : Nat) : Option Nat :=
  if low < high then
    match _ : iterate timestamp target low high with
    | none => none
    | some (.found block) => some block
    | some (.bounds low' high') => search low' high'
  else some low
termination_by high - low
decreasing_by exact iterate_lt ‹_› ‹_›

end FindBlock

namespace Chain

open FindBlock

variable (chain : Chain) (target : Nat)

/-- `FindBlockArgs::run`. -/
def findBlock : Option Nat :=
  if chain.timestamp chain.last < target then some chain.last
  else if target < chain.timestamp 1 then some 1
  else search chain.timestamp target 1 chain.last

/-- No block is nearer to the target, and of two neighbours at the same distance around it the
block is the higher one. -/
structure Nearest (block : Nat) : Prop where
  one_le : 1 ≤ block
  le_last : block ≤ chain.last
  dist_le : ∀ i, 1 ≤ i → i ≤ chain.last →
    (chain.timestamp block).dist target ≤ (chain.timestamp i).dist target
  higher : ∀ i, 1 ≤ i → i < chain.last → chain.timestamp i < target →
    target < chain.timestamp (i + 1) →
    (chain.timestamp i).dist target = (chain.timestamp (i + 1)).dist target → block = i + 1

/-- The target is between the timestamps of the bounds. -/
structure Brackets (low high : Nat) : Prop where
  one_le : 1 ≤ low
  le : low ≤ high
  le_last : high ≤ chain.last
  low_le : chain.timestamp low ≤ target
  le_high : target ≤ chain.timestamp high

variable {chain target} {low high : Nat}

theorem nearest_of_eq {block : Nat} (hone : 1 ≤ block) (hlast : block ≤ chain.last)
    (heq : chain.timestamp block = target) : chain.Nearest target block := by
  refine ⟨hone, hlast, by simp [heq], ?_⟩
  intro i hi hilast hbelow habove _
  have hle := chain.mono block i hone
  have hge := chain.mono (i + 1) block (by omega)
  omega

theorem Brackets.nearest (h : chain.Brackets target low (low + 1))
    (hne : chain.timestamp (low + 1) ≠ target) :
    chain.Nearest target (if target - chain.timestamp low < chain.timestamp (low + 1) - target
      then low else low + 1) := by
  obtain ⟨hone, -, hlast, hlow, hhigh⟩ := h
  constructor
  · split <;> omega
  · split <;> omega
  · intro i hi hilast
    have hle := chain.mono i low hi
    have hge := chain.mono (low + 1) i (by omega)
    grind [Nat.dist]
  · intro i hi hilast hbelow habove heq
    have hle := chain.mono (i + 1) low (by omega)
    have hge := chain.mono (low + 1) i (by omega)
    have hi : i = low := by omega
    grind [Nat.dist]

theorem Brackets.iterate (h : chain.Brackets target low high) (hlt : low < high) :
    (∃ block, iterate chain.timestamp target low high = some (.found block) ∧
      chain.Nearest target block) ∨
    ∃ low' high', iterate chain.timestamp target low high = some (.bounds low' high') ∧
      chain.Brackets target low' high' := by
  have hmid : low < high - (high - low) / 2 ∧ high - (high - low) / 2 ≤ high := by omega
  rw [iterate_eq hlt]
  generalize hmideq : high - (high - low) / 2 = mid at hmid
  have hlast := h.le_last
  have hone := h.one_le
  dsimp only
  split
  · next heq => exact .inl ⟨mid, rfl, nearest_of_eq (by omega) (by omega) heq⟩
  · next hne =>
    split
    · next hadj =>
      obtain rfl : high = low + 1 := by omega
      obtain rfl : mid = low + 1 := by omega
      rw [nearer, checkedSub_of_le h.le_high, checkedSub_of_le h.low_le]
      exact .inl ⟨_, rfl, h.nearest hne⟩
    · split
      · next hbelow =>
        exact .inr ⟨mid, high, rfl, by omega, hmid.2, hlast, by omega, h.le_high⟩
      · next habove =>
        exact .inr ⟨low, mid, rfl, hone, by omega, by omega, h.low_le, by omega⟩

theorem Brackets.search (h : chain.Brackets target low high) :
    ∃ block, search chain.timestamp target low high = some block ∧
      chain.Nearest target block := by
  fun_induction FindBlock.search chain.timestamp target low high with
  | case1 low high hlt hnext =>
    have hstep := h.iterate hlt
    simp [hnext] at hstep
  | case2 low high hlt block hnext =>
    have hstep := h.iterate hlt
    simpa [hnext] using hstep
  | case3 low high hlt low' high' hnext ih =>
    have hstep := h.iterate hlt
    exact ih (by simpa [hnext] using hstep)
  | case4 low high hle =>
    obtain rfl : low = high := by have := h.le; omega
    have heq := Nat.le_antisymm h.low_le h.le_high
    exact ⟨low, rfl, nearest_of_eq h.one_le h.le_last heq⟩

/-- The search ends with no failed `unwrap` in the nearest block. -/
theorem exists_findBlock_nearest (chain : Chain) (target : Nat) :
    ∃ block, chain.findBlock target = some block ∧ chain.Nearest target block := by
  have hlast := chain.one_le_last
  unfold findBlock
  split
  · next hlate =>
    refine ⟨_, rfl, hlast, le_rfl, ?_, ?_⟩
    · intro i hi hilast
      have hle := chain.mono i chain.last hi hilast le_rfl
      grind [Nat.dist]
    · intro i hi hilast
      have hle := chain.mono (i + 1) chain.last (by omega) hilast le_rfl
      omega
  · next hlate =>
    split
    · next hearly =>
      refine ⟨1, rfl, le_rfl, hlast, ?_, ?_⟩
      · intro i hi hilast
        have hle := chain.mono 1 i le_rfl hi hilast
        grind [Nat.dist]
      · intro i hi hilast
        have hle := chain.mono 1 i le_rfl hi (by omega)
        omega
    · next hearly =>
      exact Brackets.search ⟨le_rfl, hlast, le_rfl, by omega, by omega⟩

def everyTwelveSeconds : Chain where
  timestamp number := 12 * number
  last := 10
  one_le_last := by decide
  mono i j _ hij _ := Nat.mul_le_mul_left 12 hij

/-- Halfway between the blocks 2 and 3. -/
theorem findBlock_nearest_halfway :
    everyTwelveSeconds.findBlock 30 = some 3 ∧ everyTwelveSeconds.Nearest 30 3 := by
  obtain ⟨block, hfind, hnearest⟩ := exists_findBlock_nearest everyTwelveSeconds 30
  have hblock : block = 3 :=
    hnearest.higher 2 (by decide) (by decide) (by decide) (by decide) (by decide)
  subst hblock
  exact ⟨hfind, hnearest⟩

end Chain

end Foundry.Cast
