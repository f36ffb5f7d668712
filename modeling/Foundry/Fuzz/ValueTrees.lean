import Foundry.Base.Bisection
import Foundry.Base.Words
import Mathlib.Algebra.Group.Int.Defs

/-!
# Shrinking fuzzed integers

The value trees of the integer strategies.  A failing input is shrunk with `simplify` as long as
the current value fails and with `complicate` after one that passes.  Both trees halve a window of
magnitudes; the signed one does so in two's complement, with a comparison of magnitudes of its own.

In both models `none` is an operation whose result is not in the range of the type, which wraps
for `U256` and panics for `I256`.
-/

namespace Foundry.Fuzz

open Bisection

/-! ## Unsigned integers -/

def addU256 (x y : U256) : Option U256 :=
  if x.toNat + y.toNat < 2 ^ 256 then some (x + y) else none

def subU256 (x y : U256) : Option U256 := if y ≤ x then some (x - y) else none

structure UintValueTree where
  lo : U256
  curr : U256
  hi : U256
  /-- If true cannot be simplified or complexified. -/
  fixed : Bool
deriving DecidableEq

namespace UintValueTree

/-- Every strategy builds its tree with `fixed` unset. -/
def new (start : U256) (fixed : Bool) : UintValueTree := ⟨0, start, start, fixed⟩

section

variable (tree : UintValueTree)

def reposition : Option (Bool × UintValueTree) :=
  (subU256 tree.hi tree.lo).bind fun interval =>
    (addU256 tree.lo (interval / 2)).map fun newMid =>
      if newMid = tree.curr then (false, tree) else (true, { tree with curr := newMid })

def simplify : Option (Bool × UintValueTree) :=
  if tree.fixed ∨ tree.hi ≤ tree.lo then some (false, tree)
  else reposition { tree with hi := tree.curr }

def complicate : Option (Bool × UintValueTree) :=
  if tree.fixed ∨ tree.hi ≤ tree.lo then some (false, tree)
  else (addU256 tree.curr 1).bind fun lo => reposition { tree with lo := lo }

def valueTree : ValueTree UintValueTree U256 := ⟨curr, simplify, complicate⟩

def view : Window := ⟨tree.lo.toNat, tree.curr.toNat, tree.hi.toNat⟩

end

theorem addU256_eq {x y : U256} (h : x.toNat + y.toNat < 2 ^ 256) :
    ∃ sum, addU256 x y = some sum ∧ sum.toNat = x.toNat + y.toNat :=
  ⟨x + y, if_pos h, by rw [BitVec.toNat_add, Nat.mod_eq_of_lt h]⟩

section

variable {tree : UintValueTree}

theorem follows_reposition (hfixed : tree.fixed = false) (h : tree.lo.toNat ≤ tree.hi.toNat) :
    Window.Follows view (fun u => u.fixed = false) tree.reposition (view tree).reposition := by
  have hsub : (tree.hi - tree.lo).toNat = tree.hi.toNat - tree.lo.toNat := BitVec.toNat_sub_of_le h
  have hinterval : ((tree.hi - tree.lo) / 2).toNat = (tree.hi.toNat - tree.lo.toNat) / 2 := by
    rw [BitVec.toNat_udiv, hsub]
    rfl
  obtain ⟨mid, hadd, hmid⟩ := addU256_eq (x := tree.lo) (y := (tree.hi - tree.lo) / 2) (by omega)
  have hmiddle : mid.toNat = Window.middle tree.lo.toNat tree.hi.toNat := by
    rw [hmid, hinterval]
    rfl
  have hstep : tree.reposition =
      some (if mid = tree.curr then (false, tree) else (true, { tree with curr := mid })) := by
    have hle : tree.lo ≤ tree.hi := h
    rw [reposition, subU256, if_pos hle, Option.bind_some, hadd, Option.map_some]
  rw [hstep]
  apply Window.follows_middle
  · show mid = tree.curr ↔ Window.middle tree.lo.toNat tree.hi.toNat = tree.curr.toNat
    rw [← hmiddle, BitVec.toNat_inj]
  · exact hfixed
  · simp [view, hmiddle]

theorem stops_iff (hfixed : tree.fixed = false) :
    (tree.fixed = true ∨ tree.hi ≤ tree.lo) ↔ (view tree).hi ≤ (view tree).lo := by
  simp [hfixed, BitVec.le_def, view]

theorem follows_simplify {k : Nat} (hfixed : tree.fixed = false)
    (h : Window.Searches k (view tree)) :
    Window.Follows view (fun u => u.fixed = false) tree.simplify (view tree).simplify := by
  unfold simplify Window.simplify
  by_cases hempty : (view tree).hi ≤ (view tree).lo
  · rw [if_pos ((stops_iff hfixed).mpr hempty), if_pos hempty]
    exact ⟨tree, rfl, Bool.noConfusion⟩
  · rw [if_neg (hempty ∘ (stops_iff hfixed).mp), if_neg hempty]
    exact follows_reposition hfixed h.lo_le_curr

theorem follows_complicate {k : Nat} (hfixed : tree.fixed = false)
    (h : Window.Searches k (view tree)) (hpasses : (view tree).curr < k) :
    Window.Follows view (fun u => u.fixed = false) tree.complicate (view tree).complicate := by
  have hcurr : tree.curr.toNat < tree.hi.toNat := Nat.lt_of_lt_of_le hpasses h.le_hi
  unfold complicate Window.complicate
  by_cases hempty : (view tree).hi ≤ (view tree).lo
  · rw [if_pos ((stops_iff hfixed).mpr hempty), if_pos hempty]
    exact ⟨tree, rfl, Bool.noConfusion⟩
  obtain ⟨lo, hadd, hlo⟩ := addU256_eq (x := tree.curr) (y := 1) (by
    change tree.curr.toNat + 1 < 2 ^ 256
    omega)
  have hview : view { tree with lo := lo } = { view tree with lo := (view tree).curr + 1 } := by
    simp [view, hlo]
  rw [if_neg (hempty ∘ (stops_iff hfixed).mp), if_neg hempty, hadd, ← hview]
  refine follows_reposition hfixed ?_
  rw [hlo]
  exact hcurr

end

/-- Shrinking ends, without a wrapped operation and below the start, at the least value that
fails. -/
theorem shrink_finds_least (s k : U256) (hk : k ≤ s) :
    ∃ values, valueTree.shrink (fun x => decide (k ≤ x)) (2 * 256 + 2) (new s false) = some values ∧
      (∀ v ∈ values, v ≤ s) ∧ ValueTree.lastFailing (fun x => decide (k ≤ x)) values = some k := by
  obtain ⟨values, hvalues, hbound, v, hlast, hv⟩ :=
    Window.shrink_of_view valueTree BitVec.toNat (k := k.toNat) view (fun u => u.fixed = false)
      (fun _ => rfl)
      (fun _ hfixed h _ => follows_simplify hfixed h)
      (fun _ hfixed h hpasses => follows_complicate hfixed h hpasses)
      (t := new s false) rfl (s := s.toNat) rfl hk s.isLt (show 256 + 1 < 2 * 256 + 2 by decide)
  refine ⟨values, hvalues, fun v hv => (hbound v hv).1, ?_⟩
  obtain rfl := BitVec.eq_of_toNat_eq hv
  exact hlast

/-- The first value to fail a bound of five, from a thousand on. -/
theorem shrink_finds_least_five :
    (5 : U256) ≤ 1000 ∧
      ∃ values, valueTree.shrink (fun x => decide (5 ≤ x)) (2 * 256 + 2) (new 1000 false) =
          some values ∧
        (∀ v ∈ values, v ≤ 1000) ∧
        ValueTree.lastFailing (fun x => decide (5 ≤ x)) values = some 5 :=
  ⟨by decide, shrink_finds_least 1000 5 (by decide)⟩

end UintValueTree

/-! ## Signed integers -/

structure I256 where
  val : Int
  min_le : -(2 ^ 255) ≤ val
  lt_bound : val < 2 ^ 255
deriving DecidableEq

variable {negative : Bool} {x y : I256}

namespace I256

@[ext] theorem ext (h : x.val = y.val) : x = y := by
  cases x
  cases h
  rfl

def ofInt? (n : Int) : Option I256 :=
  if h : -(2 ^ 255) ≤ n ∧ n < 2 ^ 255 then some ⟨n, h.1, h.2⟩ else none

theorem ofInt?_eq {n : Int} (hmin : -(2 ^ 255) ≤ n) (hbound : n < 2 ^ 255) :
    ofInt? n = some ⟨n, hmin, hbound⟩ :=
  dif_pos ⟨hmin, hbound⟩

def zero : I256 := ⟨0, by decide, by decide⟩
def one : I256 := ⟨1, by decide, by decide⟩
def two : I256 := ⟨2, by decide, by decide⟩
def minusOne : I256 := ⟨-1, by decide, by decide⟩
def min : I256 := ⟨-(2 ^ 255), by decide, by decide⟩
def max : I256 := ⟨2 ^ 255 - 1, by decide, by decide⟩

def add (x y : I256) : Option I256 := ofInt? (x.val + y.val)

def sub (x y : I256) : Option I256 := ofInt? (x.val - y.val)

def div (x y : I256) : Option I256 := if y = zero then none else ofInt? (x.val.tdiv y.val)

/-- The remainder has the sign of `x`. -/
def rem (x y : I256) : Option I256 := if y = zero then none else ofInt? (x.val.tmod y.val)

def isNegative (x : I256) : Bool := decide (x.val < 0)

def intoRaw (x : I256) : U256 := BitVec.ofInt 256 x.val

def fromRaw (x : U256) : I256 := ⟨x.toInt, BitVec.le_toInt x, BitVec.toInt_lt⟩

theorem val_fromRaw_intoRaw (x : I256) : (fromRaw x.intoRaw).val = x.val := by
  have hmin := x.min_le
  have hbound := x.lt_bound
  exact (BitVec.toInt_ofInt ..).trans (Int.bmod_eq_of_le (by omega) (by omega))

end I256

structure IntValueTree where
  /-- Lower base (by absolute value). -/
  lo : I256
  curr : I256
  /-- Higher base (by absolute value). -/
  hi : I256
  fixed : Bool
deriving DecidableEq

namespace IntValueTree

def new (start : I256) (fixed : Bool) : IntValueTree := ⟨.zero, start, start, fixed⟩

section

variable (tree : IntValueTree)

def reposition : Option (Bool × IntValueTree) :=
  (tree.hi.sub tree.lo).bind fun interval =>
    (interval.div .two).bind fun half =>
      (tree.lo.add half).map fun newMid =>
        if newMid = tree.curr then (false, tree) else (true, { tree with curr := newMid })

/-- For two negative numbers this is true of equal magnitudes as well. -/
def magnitudeGreater (lhs rhs : I256) : Bool :=
  if lhs = .zero then false else decide (rhs.val < lhs.val) ^^ lhs.isNegative

def simplify : Option (Bool × IntValueTree) :=
  if tree.fixed ∨ !magnitudeGreater tree.hi tree.lo then some (false, tree)
  else reposition { tree with hi := tree.curr }

def complicate : Option (Bool × IntValueTree) :=
  if tree.fixed ∨ !magnitudeGreater tree.hi tree.lo then some (false, tree)
  else
    let lo :=
      if tree.curr ≠ .min ∧ tree.curr ≠ .max then
        tree.curr.add (if tree.hi.isNegative then .minusOne else .one)
      else some tree.curr
    lo.bind fun lo => reposition { tree with lo := lo }

def valueTree : ValueTree IntValueTree I256 := ⟨curr, simplify, complicate⟩

def magnitude (x : I256) : Nat := x.val.natAbs

def view : Window := ⟨magnitude tree.lo, magnitude tree.curr, magnitude tree.hi⟩

end

def OnSide (negative : Bool) (x : I256) : Prop := if negative then x.val ≤ 0 else 0 ≤ x.val

structure Sided (negative : Bool) (tree : IntValueTree) : Prop where
  fixed : tree.fixed = false
  lo : OnSide negative tree.lo
  curr : OnSide negative tree.curr
  hi : OnSide negative tree.hi

theorem val_eq (h : OnSide negative x) :
    x.val = if negative then -(magnitude x : Int) else magnitude x := by
  unfold OnSide at h
  unfold magnitude
  cases negative with
  | false =>
    simp only [Bool.false_eq_true, if_false] at h ⊢
    omega
  | true =>
    simp only [if_true] at h ⊢
    omega

section

variable (hx : OnSide negative x)

include hx

theorem exists_of_magnitude {n : Nat} (hn : n ≤ magnitude x) :
    ∃ y, I256.ofInt? (if negative then -(n : Int) else n) = some y ∧ OnSide negative y ∧
      magnitude y = n := by
  have hval := val_eq hx
  have hmin := x.min_le
  have hbound := x.lt_bound
  cases negative with
  | false =>
    simp only [Bool.false_eq_true, if_false] at hval
    refine ⟨_, I256.ofInt?_eq (by omega) (by omega), ?_, ?_⟩ <;> simp [OnSide, magnitude]
  | true =>
    simp only [if_true]
    refine ⟨_, I256.ofInt?_eq (by omega) (by omega), ?_, ?_⟩ <;> simp [OnSide, magnitude]

theorem sub_eq (hy : OnSide negative y) (h : magnitude y ≤ magnitude x) :
    ∃ d, x.sub y = some d ∧ OnSide negative d ∧ magnitude d = magnitude x - magnitude y := by
  have hval : x.val - y.val =
      if negative then -((magnitude x - magnitude y : Nat) : Int)
      else (magnitude x - magnitude y : Nat) := by
    rw [val_eq hx, val_eq hy]
    cases negative <;> simp <;> omega
  rw [I256.sub, hval]
  exact exists_of_magnitude hx (Nat.sub_le _ _)

private theorem div_two_eq :
    ∃ d, x.div .two = some d ∧ OnSide negative d ∧ magnitude d = magnitude x / 2 := by
  have hval : x.val.tdiv I256.two.val =
      if negative then -((magnitude x / 2 : Nat) : Int) else (magnitude x / 2 : Nat) := by
    rw [val_eq hx]
    cases negative <;> simp [I256.two]
  rw [I256.div, hval]
  exact exists_of_magnitude hx (Nat.div_le_self _ _)

theorem add_eq {z : I256} (hy : OnSide negative y) (hz : OnSide negative z)
    (h : magnitude x + magnitude y ≤ magnitude z) :
    ∃ sum, x.add y = some sum ∧ OnSide negative sum ∧
      magnitude sum = magnitude x + magnitude y := by
  have hval : x.val + y.val =
      if negative then -((magnitude x + magnitude y : Nat) : Int)
      else (magnitude x + magnitude y : Nat) := by
    rw [val_eq hx, val_eq hy]
    cases negative with
    | false => rfl
    | true =>
      simp only [if_true]
      omega
  rw [I256.add, hval]
  exact exists_of_magnitude hz h

end

section

variable {tree : IntValueTree}

theorem follows_reposition (hsided : Sided negative tree)
    (h : magnitude tree.lo ≤ magnitude tree.hi) :
    Window.Follows view (Sided negative) tree.reposition (view tree).reposition := by
  obtain ⟨interval, hinterval, hside, hlength⟩ := sub_eq hsided.hi hsided.lo h
  obtain ⟨half, hhalf, hhalfSide, hhalfLength⟩ := div_two_eq hside
  obtain ⟨mid, hadd, hmidSide, hmid⟩ := add_eq hsided.lo hhalfSide hsided.hi (by omega)
  have hmiddle : magnitude mid = Window.middle (magnitude tree.lo) (magnitude tree.hi) := by
    rw [hmid, hhalfLength, hlength]
    rfl
  have hstep : tree.reposition =
      some (if mid = tree.curr then (false, tree) else (true, { tree with curr := mid })) := by
    rw [reposition, hinterval, Option.bind_some, hhalf, Option.bind_some, hadd, Option.map_some]
  have hplaced : mid = tree.curr ↔ magnitude mid = magnitude tree.curr := by
    refine ⟨congrArg magnitude, fun h => I256.ext ?_⟩
    rw [val_eq hmidSide, val_eq hsided.curr, h]
  rw [hmiddle] at hplaced
  rw [hstep]
  apply Window.follows_middle hplaced
  · exact ⟨hsided.fixed, hsided.lo, hmidSide, hsided.hi⟩
  · simp [view, hmiddle]

theorem magnitudeGreater_of_lt {lhs rhs : I256} (hl : OnSide negative lhs)
    (hr : OnSide negative rhs) (h : magnitude rhs < magnitude lhs) :
    magnitudeGreater lhs rhs = true := by
  have hlhs := val_eq hl
  have hrhs := val_eq hr
  have hzero : lhs ≠ .zero := by
    rintro rfl
    exact absurd h (Nat.not_lt_zero _)
  rw [magnitudeGreater, if_neg hzero]
  cases negative with
  | false =>
    simp only [Bool.false_eq_true, if_false] at hlhs
    have hless : rhs.val < lhs.val := by omega
    have hpositive : ¬ lhs.val < 0 := by omega
    simp [I256.isNegative, hless, hpositive]
  | true =>
    simp only [if_true] at hlhs
    have hless : ¬ rhs.val < lhs.val := by omega
    have hnegative : lhs.val < 0 := by omega
    simp [I256.isNegative, hless, hnegative]

theorem goesOn_of_lt (hsided : Sided negative tree) (h : magnitude tree.lo < magnitude tree.hi) :
    ¬ (tree.fixed = true ∨ (!magnitudeGreater tree.hi tree.lo) = true) := by
  simp [hsided.fixed, magnitudeGreater_of_lt hsided.hi hsided.lo h]

/-- A window of one number has no other candidate, whatever the comparison says of it. -/
theorem follows_simplify {k : Nat} (hsided : Sided negative tree)
    (h : Window.Searches k (view tree)) :
    Window.Follows view (Sided negative) tree.simplify (view tree).simplify := by
  have hlo : magnitude tree.lo ≤ magnitude tree.curr := h.lo_le_curr
  have hcurr : magnitude tree.curr ≤ magnitude tree.hi := h.curr_le_hi
  have hmoved : Sided negative { tree with hi := tree.curr } :=
    ⟨hsided.fixed, hsided.lo, hsided.curr, hsided.curr⟩
  have hfollows := follows_reposition hmoved hlo
  by_cases hempty : magnitude tree.hi ≤ magnitude tree.lo
  · have hsame : magnitude tree.lo = magnitude tree.curr := by omega
    have hwindow : (view tree).simplify = (false, view tree) := if_pos hempty
    have hplaced : (view { tree with hi := tree.curr }).reposition.1 = false := by
      simp [view, Window.reposition, Window.middle, hsame]
    rw [hwindow]
    unfold simplify
    split
    · exact ⟨tree, rfl, Bool.noConfusion⟩
    · obtain ⟨u, hu, _⟩ := hfollows
      rw [hplaced] at hu
      exact ⟨u, hu, Bool.noConfusion⟩
  · have hwindow : (view tree).simplify = (view { tree with hi := tree.curr }).reposition :=
      if_neg hempty
    rw [simplify, if_neg (goesOn_of_lt hsided (Nat.lt_of_not_le hempty)), hwindow]
    exact hfollows

private theorem ne_bounds_of_lt (hx : OnSide negative x) (hy : OnSide negative y)
    (h : magnitude x < magnitude y) : x ≠ .min ∧ x ≠ .max := by
  have hxVal := val_eq hx
  have hyVal := val_eq hy
  have hmin := y.min_le
  have hmax := y.lt_bound
  have hlower : x.val ≠ -(2 ^ 255) := by
    cases negative <;> omega
  have hupper : x.val ≠ 2 ^ 255 - 1 := by
    cases negative <;> simp only [Bool.false_eq_true, if_false, if_true] at hxVal hyVal <;> omega
  exact ⟨fun heq => hlower (congrArg I256.val heq), fun heq => hupper (congrArg I256.val heq)⟩

private theorem unit_onSide (hx : OnSide negative x) (h : 0 < magnitude x) :
    OnSide negative (if x.isNegative then .minusOne else .one) ∧
      magnitude (if x.isNegative then .minusOne else .one) = 1 := by
  have hval := val_eq hx
  cases negative with
  | false =>
    simp only [Bool.false_eq_true, if_false] at hval
    have hpositive : x.isNegative = false := decide_eq_false (by omega)
    rw [hpositive]
    exact ⟨by simp [OnSide, I256.one], rfl⟩
  | true =>
    simp only [if_true] at hval
    have hnegative : x.isNegative = true := decide_eq_true (by omega)
    rw [hnegative]
    exact ⟨by simp [OnSide, I256.minusOne], rfl⟩

theorem follows_complicate {k : Nat} (hsided : Sided negative tree)
    (h : Window.Searches k (view tree)) (hpasses : (view tree).curr < k) :
    Window.Follows view (Sided negative) tree.complicate (view tree).complicate := by
  have hlo : magnitude tree.lo ≤ magnitude tree.curr := h.lo_le_curr
  have hcurr : magnitude tree.curr < magnitude tree.hi := Nat.lt_of_lt_of_le hpasses h.le_hi
  have hwindow : (view tree).complicate =
      Window.reposition { view tree with lo := (view tree).curr + 1 } :=
    if_neg (Nat.not_le_of_lt (Nat.lt_of_le_of_lt hlo hcurr))
  have hinner := ne_bounds_of_lt hsided.curr hsided.hi hcurr
  have hstep := unit_onSide hsided.hi (Nat.zero_lt_of_lt hcurr)
  obtain ⟨lo, hadd, hside, hmagnitude⟩ := add_eq hsided.curr hstep.1 hsided.hi (by omega)
  have hview : view { tree with lo := lo } = { view tree with lo := (view tree).curr + 1 } := by
    simp [view, hmagnitude, hstep.2]
  have hmoved : Sided negative { tree with lo := lo } :=
    ⟨hsided.fixed, hside, hsided.curr, hsided.hi⟩
  rw [complicate, if_neg (goesOn_of_lt hsided (Nat.lt_of_le_of_lt hlo hcurr)), if_pos hinner,
    hadd, hwindow, ← hview]
  refine follows_reposition hmoved ?_
  rw [hmagnitude, hstep.2]
  exact hcurr

end

/-- Shrinking ends, without an overflow and between zero and the start, at a value of the least
magnitude that fails. -/
theorem shrink_finds_least_magnitude (s : I256) (k : Nat) (hk : k ≤ magnitude s) :
    ∃ values,
      valueTree.shrink (fun x => decide (k ≤ magnitude x)) (2 * 256 + 2) (new s false) =
        some values ∧
      (∀ v ∈ values, (0 ≤ v.val ∧ v.val ≤ s.val) ∨ (s.val ≤ v.val ∧ v.val ≤ 0)) ∧
      ∃ v, ValueTree.lastFailing (fun x => decide (k ≤ magnitude x)) values = some v ∧
        magnitude v = k := by
  have hs : OnSide s.isNegative s := by
    by_cases h : s.val < 0 <;> simp [OnSide, I256.isNegative, h] <;> omega
  have hzero : OnSide s.isNegative .zero := by simp [OnSide, I256.zero]
  have hsize : magnitude s < 2 ^ 256 := by
    have hmin := s.min_le
    have hbound := s.lt_bound
    unfold magnitude
    omega
  obtain ⟨values, hvalues, hbound, hlast⟩ :=
    Window.shrink_of_view valueTree magnitude (k := k) view (Sided s.isNegative) (fun _ => rfl)
      (fun _ hsided h _ => follows_simplify hsided h)
      (fun _ hsided h hpasses => follows_complicate hsided h hpasses)
      (t := new s false) ⟨rfl, hzero, hs, hs⟩ (s := magnitude s) rfl hk hsize
      (show 256 + 1 < 2 * 256 + 2 by decide)
  refine ⟨values, hvalues, fun v hv => ?_, hlast⟩
  obtain ⟨hle, t, hsided, rfl⟩ := hbound v hv
  have hside := val_eq hsided.curr
  have hsVal := val_eq hs
  cases hnegative : s.isNegative with
  | false =>
    simp only [hnegative, Bool.false_eq_true, if_false] at hside hsVal
    exact .inl (by simp only [valueTree] at hle ⊢; omega)
  | true =>
    simp only [hnegative, if_true] at hside hsVal
    exact .inr (by simp only [valueTree] at hle ⊢; omega)

/-- The least number there is can be shrunk too. -/
theorem shrink_finds_least_magnitude_min :
    3 ≤ magnitude .min ∧
      ∃ values,
        valueTree.shrink (fun x => decide (3 ≤ magnitude x)) (2 * 256 + 2) (new .min false) =
          some values ∧
        (∀ v ∈ values, (0 ≤ v.val ∧ v.val ≤ I256.min.val) ∨ (I256.min.val ≤ v.val ∧ v.val ≤ 0)) ∧
        ∃ v, ValueTree.lastFailing (fun x => decide (3 ≤ magnitude x)) values = some v ∧
          magnitude v = 3 :=
  ⟨by decide, shrink_finds_least_magnitude .min 3 (by decide)⟩

end IntValueTree

end Foundry.Fuzz
