import Foundry.Base.Words
import Mathlib.Algebra.Group.Int.Defs

/-!
# Price conversion

The library that turns an amount of ether into dollars with the answer of a price feed.  Arithmetic
reverts where a result does not fit, signed arithmetic by the bounds of `int256`; the cast of the
price to `uint256` keeps its bits.
-/

namespace Foundry.Contracts

open BitVec

/-! ## Checked arithmetic -/

/-- `+` of `uint256`. -/
def checkedAdd (x y : U256) : Option U256 :=
  if x.toNat + y.toNat < 2 ^ 256 then some (x + y) else none

/-- `*` of `uint256`. -/
def checkedMul (x y : U256) : Option U256 :=
  if x.toNat * y.toNat < 2 ^ 256 then some (x * y) else none

def FitsSigned (n : Int) : Prop := -(2 ^ 255) ≤ n ∧ n < 2 ^ 255

instance (n : Int) : Decidable (FitsSigned n) := inferInstanceAs (Decidable (_ ∧ _))

/-- `*` of `int256`. -/
def checkedMulSigned (x y : BitVec 256) : Option (BitVec 256) :=
  if FitsSigned (x.toInt * y.toInt) then some (x * y) else none

theorem checked_eq_some {n : Nat} {word z : U256} (hword : word.toNat = n % 2 ^ 256) :
    (if n < 2 ^ 256 then some word else none) = some z ↔ n = z.toNat := by
  split
  · next h => rw [Option.some.injEq, ← toNat_inj, hword, Nat.mod_eq_of_lt h]
  · next h =>
    constructor
    · intro hnone
      cases hnone
    · intro heq
      omega

theorem checkedAdd_eq_some {x y z : U256} :
    checkedAdd x y = some z ↔ x.toNat + y.toNat = z.toNat := checked_eq_some (toNat_add x y)

theorem checkedMul_eq_some {x y z : U256} :
    checkedMul x y = some z ↔ x.toNat * y.toNat = z.toNat := checked_eq_some (toNat_mul x y)

/-! ## The library -/

/-- `getPrice`, for the answer of the price feed. -/
def getPrice (answer : BitVec 256) : Option U256 :=
  checkedMulSigned answer (BitVec.ofNat 256 (10 ^ 10))

def getConversionRate (ethAmount : U256) (answer : BitVec 256) : Option U256 :=
  (getPrice answer).bind fun ethPrice =>
    (checkedMul ethPrice ethAmount).map fun product => product / BitVec.ofNat 256 (10 ^ 18)

theorem toInt_tenPow : (BitVec.ofNat 256 (10 ^ 10)).toInt = 10 ^ 10 := by decide

section

variable {answer : BitVec 256} {price : U256}

theorem getPrice_eq_some :
    getPrice answer = some price ↔
      FitsSigned (answer.toInt * 10 ^ 10) ∧ price.toInt = answer.toInt * 10 ^ 10 := by
  unfold getPrice checkedMulSigned
  split
  · next h =>
    have hmul : (answer * BitVec.ofNat 256 (10 ^ 10)).toInt = answer.toInt * 10 ^ 10 := by
      obtain ⟨hmin, hmax⟩ := h
      rw [toInt_mul, Int.bmod_eq_of_le, toInt_tenPow]
      · omega
      · omega
    rw [Option.some.injEq, ← toInt_inj, hmul]
    exact ⟨fun heq => ⟨h, heq.symm⟩, fun heq => heq.2.symm⟩
  · next h =>
    constructor
    · intro hnone
      cases hnone
    · intro heq
      exact absurd heq.1 h

theorem exists_getPrice (h : FitsSigned (answer.toInt * 10 ^ 10)) :
    ∃ price, getPrice answer = some price := by
  unfold getPrice checkedMulSigned
  rw [toInt_tenPow, if_pos h]
  exact ⟨_, rfl⟩

theorem getConversionRate_eq_some {ethAmount : U256} {answer : BitVec 256} {rate : U256} :
    getConversionRate ethAmount answer = some rate ↔ ∃ price : U256,
      getPrice answer = some price ∧ price.toNat * ethAmount.toNat < 2 ^ 256 ∧
        rate.toNat = price.toNat * ethAmount.toNat / 10 ^ 18 := by
  unfold getConversionRate
  rw [Option.bind_eq_some_iff]
  refine exists_congr fun price => and_congr_right fun _ => ?_
  rw [Option.map_eq_some_iff]
  have hten : (BitVec.ofNat 256 (10 ^ 18)).toNat = 10 ^ 18 := by decide
  constructor
  · intro ⟨product, hproduct, hrate⟩
    rw [checkedMul_eq_some] at hproduct
    rw [← hrate, hproduct]
    exact ⟨product.isLt, rfl⟩
  · intro ⟨hlt, hrate⟩
    refine ⟨BitVec.ofNat 256 (price.toNat * ethAmount.toNat), ?_, ?_⟩
    · rw [checkedMul_eq_some, toNat_ofNat, Nat.mod_eq_of_lt hlt]
    · rw [← toNat_inj, toNat_udiv, hten, toNat_ofNat, Nat.mod_eq_of_lt hlt, hrate]

/-! ## The cast of the price -/

theorem toNat_price_of_nonneg (h : getPrice answer = some price) (hanswer : 0 ≤ answer.toInt) :
    (price.toNat : Int) = answer.toInt * 10 ^ 10 := by
  have hprice := (getPrice_eq_some.mp h).2
  rw [toInt_eq_toNat_cond] at hprice
  split at hprice <;> omega

theorem toNat_price_of_neg (h : getPrice answer = some price) (hanswer : answer.toInt < 0) :
    2 ^ 255 ≤ price.toNat := by
  have hprice := (getPrice_eq_some.mp h).2
  rw [toInt_eq_toNat_cond] at hprice
  split at hprice <;> omega

end

end Foundry.Contracts
