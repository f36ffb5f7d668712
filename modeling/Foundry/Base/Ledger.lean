import Foundry.Base.HashMap
import Foundry.Base.Words

/-!
# Ledgers

A mapping from accounts to amounts, in which an account that was never written has zero.  Amounts
are added and subtracted with the checks of 256-bit arithmetic.
-/

namespace Foundry.HashMap

variable {K : Type} [DecidableEq K] {m m' : HashMap K U256} {a b : K} {v : U256}

section

variable (m)

def amount (a : K) : U256 := (m.get a).getD 0

def total : Nat := m.weight BitVec.toNat

/-- `m[a] += v`, unless the sum does not fit. -/
def credit (a : K) (v : U256) : Option (HashMap K U256) :=
  if (m.amount a).toNat + v.toNat < 2 ^ 256 then some (m.insert a (m.amount a + v)) else none

/-- `m[a] -= v`, unless the amount is less. -/
def debit (a : K) (v : U256) : Option (HashMap K U256) :=
  if v ≤ m.amount a then some (m.insert a (m.amount a - v)) else none

/-- An amount taken from one account and given to another, which may be the same. -/
def move (a b : K) (v : U256) : Option (HashMap K U256) := (m.debit a v).bind fun m => m.credit b v

theorem amount_insert (a b : K) (v : U256) :
    (m.insert a v).amount b = if b = a then v else m.amount b := by
  unfold amount
  rw [get_insert]
  split <;> rfl

theorem total_insert (a : K) (v : U256) :
    (m.insert a v).total + (m.amount a).toNat = m.total + v.toNat := by
  unfold total amount
  cases h : m.get a with
  | none =>
    rw [weight_insert_of_none _ h]
    simp
  | some old => exact weight_insert_of_get _ h

theorem amount_le_total (a : K) : (m.amount a).toNat ≤ m.total := by
  have h := total_insert m a 0
  have hzero : (0 : U256).toNat = 0 := rfl
  omega

end

theorem credit_isSome : (m.credit a v).isSome ↔ (m.amount a).toNat + v.toNat < 2 ^ 256 :=
  Option.isSome_ite

theorem debit_isSome : (m.debit a v).isSome ↔ v ≤ m.amount a := Option.isSome_ite

structure Credited (m : HashMap K U256) (a : K) (v : U256) (m' : HashMap K U256) : Prop where
  total : m'.total = m.total + v.toNat
  self : (m'.amount a).toNat = (m.amount a).toNat + v.toNat
  other : ∀ b, b ≠ a → m'.amount b = m.amount b

theorem credited_of_eq_some (h : m.credit a v = some m') : Credited m a v m' := by
  unfold credit at h
  split at h
  · next hfits =>
    cases h
    have hsum := BitVec.toNat_add_of_lt hfits
    have htotal := total_insert m a (m.amount a + v)
    constructor
    · omega
    · rw [amount_insert, if_pos rfl, hsum]
    · intro b hb
      rw [amount_insert, if_neg hb]
  · cases h

theorem credited_of_debit (h : m.debit a v = some m') : Credited m' a v m := by
  unfold debit at h
  split at h
  · next hle =>
    cases h
    have hdiff : (m.amount a - v).toNat = (m.amount a).toNat - v.toNat := BitVec.toNat_sub_of_le hle
    rw [BitVec.le_def] at hle
    have htotal := total_insert m a (m.amount a - v)
    constructor
    · omega
    · rw [amount_insert, if_pos rfl]
      omega
    · intro b hb
      rw [amount_insert, if_neg hb]
  · cases h

theorem total_of_move (h : m.move a b v = some m') : m'.total = m.total := by
  obtain ⟨mid, hdebit, hcredit⟩ := Option.bind_eq_some_iff.mp h
  rw [(credited_of_eq_some hcredit).total, (credited_of_debit hdebit).total]

/-- Where the sum of all amounts fits, an account can give all that it has. -/
theorem move_isSome (h : m.total < 2 ^ 256) : (m.move a b v).isSome ↔ v ≤ m.amount a := by
  unfold move
  rw [Option.isSome_bind]
  constructor
  · intro hsome
    rw [← debit_isSome]
    cases hdebit : m.debit a v with
    | none => simp [hdebit] at hsome
    | some mid => rfl
  · intro hle
    obtain ⟨mid, hdebit⟩ := Option.isSome_iff_exists.mp (debit_isSome.mpr hle)
    have htotal := (credited_of_debit hdebit).total
    have hb := amount_le_total mid b
    rw [hdebit, Option.any_some, credit_isSome]
    omega

end Foundry.HashMap
