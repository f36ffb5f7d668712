import Mathlib.Algebra.Group.Nat.Defs
import Mathlib.Data.List.Range

/-!
# Machine words

Fixed-width words and the arithmetic the sources use on them: saturating
addition and subtraction, and the byte strings of a word.  Plain `+` on a word
wraps, as the operators of the release build and of 256-bit integers do.
-/

namespace Foundry

open BitVec

abbrev U64 := BitVec 64
abbrev U256 := BitVec 256

abbrev B256 := BitVec 256

abbrev Address := BitVec 160

abbrev Bytes := List (BitVec 8)

/-! ## Saturating arithmetic -/

def saturatingAdd {w : Nat} (x y : BitVec w) : BitVec w :=
  if x.toNat + y.toNat < 2 ^ w then x + y else BitVec.allOnes w

def saturatingSub {w : Nat} (x y : BitVec w) : BitVec w :=
  if y.toNat ≤ x.toNat then x - y else 0

section

variable {w : Nat} (x y : BitVec w)

theorem toNat_saturatingAdd : (saturatingAdd x y).toNat = min (x.toNat + y.toNat) (2 ^ w - 1) := by
  unfold saturatingAdd
  split
  · next h =>
    rw [toNat_add, Nat.mod_eq_of_lt h]
    omega
  · next h =>
    rw [toNat_allOnes]
    omega

theorem le_saturatingAdd : x ≤ saturatingAdd x y := by
  rw [le_def, toNat_saturatingAdd]
  omega

theorem lt_saturatingAdd_one {x : BitVec w} (h : x ≠ BitVec.allOnes w) : x < saturatingAdd x 1 := by
  have hne : x.toNat ≠ 2 ^ w - 1 := fun heq =>
    h (eq_of_toNat_eq (heq.trans toNat_allOnes.symm))
  have hone : (1 : BitVec w).toNat = 1 := by
    change 1 % 2 ^ w = 1
    exact Nat.mod_eq_of_lt (by omega)
  rw [lt_def, toNat_saturatingAdd]
  omega

theorem toNat_saturatingSub : (saturatingSub x y).toNat = x.toNat - y.toNat := by
  unfold saturatingSub
  split
  · next h => exact toNat_sub_of_le h
  · next h =>
    have hzero : (0 : BitVec w).toNat = 0 := by simp
    omega

def saturatingTo {w : Nat} (v : Nat) (x : BitVec w) : BitVec v :=
  if x.toNat < 2 ^ v then x.setWidth v else BitVec.allOnes v

theorem toNat_saturatingTo (v : Nat) (x : BitVec w) :
    (saturatingTo v x).toNat = min x.toNat (2 ^ v - 1) := by
  unfold saturatingTo
  split
  · next h =>
    rw [toNat_setWidth, Nat.mod_eq_of_lt h]
    omega
  · next h =>
    rw [toNat_allOnes]
    omega

theorem toNat_add_one_of_lt {x y : BitVec w} (h : x < y) : (x + 1).toNat = x.toNat + 1 := by
  rw [lt_def] at h
  have hone : (1 : BitVec w).toNat = 1 := by
    change 1 % 2 ^ w = 1
    exact Nat.mod_eq_of_lt (by omega)
  rw [toNat_add, hone, Nat.mod_eq_of_lt (by omega)]

/-! ## Ranges -/

/-- The words of `lo..=hi`, in increasing order. -/
def rangeInclusive {w : Nat} (lo hi : BitVec w) : List (BitVec w) :=
  (List.range (hi.toNat + 1 - lo.toNat)).map fun k => BitVec.ofNat w (lo.toNat + k)

theorem toNat_rangeInclusive_elem {w k : Nat} {lo hi : BitVec w}
    (hk : k < hi.toNat + 1 - lo.toNat) :
    (BitVec.ofNat w (lo.toNat + k)).toNat = lo.toNat + k := by
  apply Nat.mod_eq_of_lt
  omega

theorem mem_rangeInclusive {lo hi x : BitVec w} : x ∈ rangeInclusive lo hi ↔ lo ≤ x ∧ x ≤ hi := by
  unfold rangeInclusive
  rw [List.mem_map, le_def, le_def]
  constructor
  · intro ⟨k, hk, hx⟩
    rw [List.mem_range] at hk
    rw [← hx, toNat_rangeInclusive_elem hk]
    omega
  · intro ⟨hlo, hhi⟩
    refine ⟨x.toNat - lo.toNat, List.mem_range.mpr (by omega), ?_⟩
    rw [Nat.add_sub_cancel' hlo, ofNat_toNat, setWidth_eq]

theorem rangeInclusive_increasing (lo hi : BitVec w) : (rangeInclusive lo hi).Pairwise (· < ·) := by
  unfold rangeInclusive
  rw [List.pairwise_map]
  refine List.Pairwise.imp_of_mem ?_ List.pairwise_lt_range
  intro a b ha hb hab
  rw [List.mem_range] at ha hb
  rw [lt_def, toNat_rangeInclusive_elem ha, toNat_rangeInclusive_elem hb]
  omega

end

/-! ## Byte strings -/

def toLeBytes (n : Nat) (x : BitVec (8 * n)) : Bytes :=
  (List.range n).map fun i => x.extractLsb' (8 * i) 8

/-- The bytes of a fixed array, the high byte first. -/
def toBeBytes (n : Nat) (x : BitVec (8 * n)) : Bytes := (toLeBytes n x).reverse

@[simp] theorem toLeBytes_length (n : Nat) (x : BitVec (8 * n)) : (toLeBytes n x).length = n := by
  simp [toLeBytes]

theorem toLeBytes_injective {n : Nat} {x y : BitVec (8 * n)}
    (h : toLeBytes n x = toLeBytes n y) : x = y := by
  apply eq_of_getLsbD_eq
  intro i hi
  have hbyte : x.extractLsb' (8 * (i / 8)) 8 = y.extractLsb' (8 * (i / 8)) 8 :=
    List.map_inj_left.mp h (i / 8) (List.mem_range.mpr (by omega))
  have hbit := congrArg (fun b => b.getLsbD (i % 8)) hbyte
  have hmod : i % 8 < 8 := Nat.mod_lt i (by omega)
  simpa [hmod, Nat.div_add_mod] using hbit

end Foundry
