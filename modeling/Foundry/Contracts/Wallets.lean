import Foundry.Base.Ledger
import Foundry.Base.Runs
import Mathlib.Algebra.GroupWithZero.Nat

/-!
# The savings account and the wallet with a daily limit

Both pay with `transfer`, which leaves the receiver too little gas to call back and reverts if the
receiver refuses the ether.  A call that reverts changes nothing.
-/

namespace Foundry.Contracts

open Runs Option

/-! ## Savings -/

/-- The storage of `Savings`, which extends `Bank`, and the ether it holds. -/
structure Savings where
  balances : HashMap Address U256
  interestRate : U256
  ether : Nat

namespace Savings

def deployed (rate : U256) : Savings := ⟨.empty, rate, 0⟩

def deposit (sender : Address) (value : U256) (s : Savings) : Option Savings :=
  if value > 0 then
    (s.balances.credit sender value).map fun balances =>
      { s with balances := balances, ether := s.ether + value.toNat }
  else none

/-- `accrueInterest`, which reverts if a product or a sum does not fit. -/
def accrueInterest (who : Address) (s : Savings) : Option Savings :=
  let bal := s.balances.amount who
  if bal.toNat * s.interestRate.toNat < 2 ^ 256 then
    (s.balances.credit who (bal * s.interestRate / 10000)).map fun balances =>
      { s with balances := balances }
  else none

/-- `withdraw` of `Bank`, by a sender that accepts ether or not. -/
def bankWithdraw (sender : Address) (amount : U256) (accepts : Bool) (s : Savings) :
    Option Savings :=
  (s.balances.debit sender amount).bind fun balances =>
    if amount.toNat ≤ s.ether ∧ accepts then
      some { s with balances := balances, ether := s.ether - amount.toNat }
    else none

/-- `withdraw`, which overrides that of `Bank`. -/
def withdraw (sender : Address) (amount : U256) (accepts : Bool) (s : Savings) : Option Savings :=
  (accrueInterest sender s).bind (bankWithdraw sender amount accepts)

inductive Call where
  | deposit (sender : Address) (value : U256)
  | accrueInterest (who : Address)
  | withdraw (sender : Address) (amount : U256) (accepts : Bool)

def Call.apply : Call → Savings → Option Savings
  | .deposit sender value, s => Savings.deposit sender value s
  | .accrueInterest who, s => Savings.accrueInterest who s
  | .withdraw sender amount accepts, s => Savings.withdraw sender amount accepts s

def step (s : Savings) (call : Call) : Savings := (call.apply s).getD s

/-- The balances are covered by the ether, and so is what any depositor withdraws. -/
def Solvent (s : Savings) : Prop :=
  s.balances.total ≤ s.ether ∧
    ∀ who (amount : U256), amount ≤ s.balances.amount who → amount.toNat ≤ s.ether

def EarnsNothing (s : Savings) (who : Address) : Prop :=
  (s.balances.amount who).toNat * s.interestRate.toNat < 10000

/-- A call that accrues interest, and goes through, does so for an account that earns nothing. -/
def NoInterest (s : Savings) (call : Call) : Prop :=
  (call.apply s).isSome →
    match call with
    | .deposit _ _ => True
    | .accrueInterest who | .withdraw who _ _ => s.EarnsNothing who

variable {s s' : Savings} {sender who : Address} {amount : U256}

theorem solvent_iff : s.Solvent ↔ s.balances.total ≤ s.ether := by
  refine ⟨fun h => h.1, fun h => ⟨h, fun who amount hle => ?_⟩⟩
  have htotal := HashMap.amount_le_total s.balances who
  rw [BitVec.le_def] at hle
  omega

theorem accrueInterest_eq_some (h : accrueInterest who s = some s') :
    s'.ether = s.ether ∧ s'.balances.total = s.balances.total +
      (s.balances.amount who).toNat * s.interestRate.toNat / 10000 := by
  unfold accrueInterest at h
  dsimp only at h
  split at h
  · next hfits =>
    obtain ⟨balances, hcredit, rfl⟩ := map_eq_some_iff.mp h
    refine ⟨rfl, ?_⟩
    rw [(HashMap.credited_of_eq_some hcredit).total, BitVec.toNat_udiv, BitVec.toNat_mul,
      Nat.mod_eq_of_lt hfits]
    rfl
  · cases h

theorem bankWithdraw_eq_some {accepts : Bool} (h : bankWithdraw sender amount accepts s = some s') :
    s.balances.total + s'.ether = s'.balances.total + s.ether := by
  obtain ⟨balances, hdebit, h⟩ := bind_eq_some_iff.mp h
  have htotal := (HashMap.credited_of_debit hdebit).total
  split at h
  · next hpays =>
    cases h
    change s.balances.total + (s.ether - amount.toNat) = balances.total + s.ether
    omega
  · cases h

theorem deposit_eq_some {value : U256} (h : deposit sender value s = some s') :
    s.balances.total + s'.ether = s'.balances.total + s.ether := by
  unfold deposit at h
  split at h
  · obtain ⟨balances, hcredit, rfl⟩ := map_eq_some_iff.mp h
    have htotal := (HashMap.credited_of_eq_some hcredit).total
    change s.balances.total + (s.ether + value.toNat) = balances.total + s.ether
    omega
  · cases h

theorem earnsNothing_iff : s.EarnsNothing who ↔
    (s.balances.amount who).toNat * s.interestRate.toNat / 10000 = 0 := by
  unfold EarnsNothing
  omega

/-- While the balances are exactly covered, a step keeps them so just if it accrues nothing. -/
theorem step_exact_iff (hs : s.balances.total = s.ether) (call : Call) :
    ((step s call).Solvent ↔ s.NoInterest call) ∧
      (s.NoInterest call → (step s call).balances.total = (step s call).ether) := by
  unfold NoInterest step
  rw [solvent_iff]
  cases h : call.apply s with
  | none => simp [hs]
  | some s' =>
    rw [getD_some]
    simp only [isSome_some, true_implies]
    cases call with
    | deposit sender value =>
      have htotal := deposit_eq_some h
      simp only [iff_true]
      omega
    | accrueInterest who =>
      obtain ⟨hether, htotal⟩ := accrueInterest_eq_some h
      dsimp only
      rw [earnsNothing_iff]
      omega
    | withdraw sender amount accepts =>
      obtain ⟨mid, haccrue, hbank⟩ := bind_eq_some_iff.mp h
      obtain ⟨hether, htotal⟩ := accrueInterest_eq_some haccrue
      have hpaid := bankWithdraw_eq_some hbank
      dsimp only
      rw [earnsNothing_iff]
      omega

/-- The account stays solvent just as long as nobody earns interest. -/
theorem every_solvent_iff (rate : U256) (calls : List Call) :
    Every step (fun s call => (step s call).Solvent) (deployed rate) calls ↔
      Every step NoInterest (deployed rate) calls := by
  have hstep (s : Savings) (call : Call) (hs : s.balances.total = s.ether)
      (hnone : s.NoInterest call) : (step s call).balances.total = (step s call).ether :=
    (step_exact_iff hs call).2 hnone
  exact every_iff (fun s call hs => (step_exact_iff hs call).1) hstep rfl calls

/-- One percent of ten thousand wei is credited without ether behind it. -/
theorem not_solvent_interest :
    ¬ ∀ calls, Every step (fun s call => (step s call).Solvent) (deployed 100) calls := by
  intro h
  have hsolvent := (h [.deposit 1 10000, .accrueInterest 1]).2.1.2 1 10100 (by decide)
  exact absurd hsolvent (by decide)

end Savings

/-! ## The wallet -/

/-- The storage of `SafeWallet`, the ether it holds, whether its owner accepts ether, and a record
of the payments: the day of each and its amount. -/
structure SafeWallet where
  owner : Address
  dailyLimit : U256
  spentToday : U256
  lastDay : Nat
  ether : Nat
  accepts : Bool
  payments : List (Nat × Nat)

namespace SafeWallet

/-- The constructor, which is not payable. -/
def deployed (owner : Address) (dailyLimit : U256) (accepts : Bool) : SafeWallet :=
  ⟨owner, dailyLimit, 0, 0, 0, accepts, []⟩

def day (timestamp : Nat) : Nat := timestamp / 86400

def resetDay (timestamp : Nat) (s : SafeWallet) : SafeWallet :=
  if day timestamp > s.lastDay then { s with lastDay := day timestamp, spentToday := 0 } else s

structure Spend where
  sender : Address
  timestamp : Nat
  amount : U256

/-- `spend`.  The sum that the source writes as a statement of its own is not stored. -/
def spend (call : Spend) (s : SafeWallet) : Option SafeWallet :=
  if call.sender ≠ s.owner then none
  else
    let s := s.resetDay call.timestamp
    if call.amount.toNat + s.spentToday.toNat ≥ 2 ^ 256 then none
    else if call.amount + s.spentToday > s.dailyLimit then none
    else if call.amount.toNat ≤ s.ether ∧ s.accepts then
      some { s with
        ether := s.ether - call.amount.toNat
        payments := s.payments ++ [(day call.timestamp, call.amount.toNat)] }
    else none

def receive (value : U256) (s : SafeWallet) : SafeWallet :=
  { s with ether := s.ether + value.toNat }

inductive Call where
  | spend (call : Spend)
  | receive (value : U256)

def step (s : SafeWallet) : Call → SafeWallet
  | .spend call => (spend call s).getD s
  | .receive value => receive value s

def paid (s : SafeWallet) : Nat := (s.payments.map Prod.snd).sum

def paidOn (s : SafeWallet) (day : Nat) : Nat :=
  ((s.payments.filter fun payment => payment.1 = day).map Prod.snd).sum

/-- No day's payments exceed the limit, and a call is refused only if the caller is not the owner,
the ether is missing or the limit would be exceeded. -/
def Limited (s : SafeWallet) : Call → Prop
  | .spend call =>
    (∀ day, (step s (.spend call)).paidOn day ≤ s.dailyLimit.toNat) ∧
      (spend call s = none → call.sender ≠ s.owner ∨ s.ether < call.amount.toNat ∨
        s.dailyLimit.toNat < s.paidOn (day call.timestamp) + call.amount.toNat)
  | .receive _ => True

def Call.received : Call → Nat
  | .spend _ => 0
  | .receive value => value.toNat

def received (calls : List Call) : Nat := (calls.map Call.received).sum

variable {s s' : SafeWallet} {call : Spend} {budget : Nat}

theorem paidOn_le (s : SafeWallet) (day : Nat) : s.paidOn day ≤ s.paid := by
  exact (List.filter_sublist.map _).sum_le_sum fun _ _ => Nat.zero_le _

/-- Nothing is ever counted as spent, and the payments stay within a limit of zero, or within the
ether that there was and will be if that is within the limit. -/
structure Inv (s : SafeWallet) (budget : Nat) : Prop where
  uncounted : s.spentToday = 0
  accepts : s.accepts = true
  within : s.paid ≤ s.dailyLimit.toNat
  source : s.dailyLimit = 0 ∨ s.paid + s.ether + budget ≤ s.dailyLimit.toNat

/-- The wallet after a payment, while nothing is counted. -/
def pay (s : SafeWallet) (call : Spend) : SafeWallet :=
  { s with
    lastDay := max s.lastDay (day call.timestamp)
    ether := s.ether - call.amount.toNat
    payments := s.payments ++ [(day call.timestamp, call.amount.toNat)] }

theorem spend_eq (huncounted : s.spentToday = 0) (haccepts : s.accepts = true)
    (howner : call.sender = s.owner) :
    spend call s =
      if call.amount ≤ s.dailyLimit ∧ call.amount.toNat ≤ s.ether then some (s.pay call)
      else none := by
  have hreset : s.resetDay call.timestamp =
      { s with lastDay := max s.lastDay (day call.timestamp) } := by
    unfold resetDay
    split
    · next hlater => rw [huncounted, max_eq_right (Nat.le_of_lt hlater)]
    · next hsame => rw [max_eq_left (Nat.not_lt.mp hsame)]
  have hzero : (0 : U256).toNat = 0 := rfl
  have hsum : call.amount + (0 : U256) = call.amount := BitVec.add_zero _
  unfold spend
  rw [if_neg (not_not.mpr howner), hreset]
  simp only [huncounted, haccepts, hzero, hsum, Nat.add_zero, and_true]
  rw [if_neg (Nat.not_le.mpr call.amount.isLt)]
  by_cases hlimit : call.amount ≤ s.dailyLimit
  · rw [if_neg (BitVec.not_lt.mpr hlimit)]
    simp only [hlimit, true_and, pay, huncounted, haccepts]
  · rw [if_pos (BitVec.not_le.mp hlimit), if_neg fun h => hlimit h.1]

theorem paid_pay (s : SafeWallet) (call : Spend) :
    (s.pay call).paid = s.paid + call.amount.toNat := by
  simp [paid, pay]

theorem limited_of_refused (hs : s.Inv budget) (hnone : spend call s = none)
    (hreason : call.sender ≠ s.owner ∨ s.ether < call.amount.toNat ∨
      s.dailyLimit.toNat < s.paidOn (day call.timestamp) + call.amount.toNat) :
    s.Limited (.spend call) ∧ (step s (.spend call)).Inv budget := by
  have hsame : step s (.spend call) = s := by rw [step, hnone, getD_none]
  rw [Limited, hsame]
  exact ⟨⟨fun day => (paidOn_le s day).trans hs.within, fun _ => hreason⟩, hs⟩

/-- A call under the invariant is within the limit, and keeps it. -/
theorem limited_of_inv (hs : s.Inv budget) (call : Spend) :
    s.Limited (.spend call) ∧ (step s (.spend call)).Inv budget := by
  by_cases howner : call.sender = s.owner
  · have heq := spend_eq hs.uncounted hs.accepts howner
    by_cases hpays : call.amount ≤ s.dailyLimit ∧ call.amount.toNat ≤ s.ether
    · rw [if_pos hpays] at heq
      have hnext : step s (.spend call) = s.pay call := by rw [step, heq, getD_some]
      have hwithin := hs.within
      have hafter : (s.pay call).paid ≤ s.dailyLimit.toNat ∧ (s.dailyLimit = 0 ∨
          (s.pay call).paid + (s.pay call).ether + budget ≤ s.dailyLimit.toNat) := by
        have hlimit := BitVec.le_def.mp hpays.1
        rw [paid_pay]
        change _ ∧ (_ ∨ _ + (s.ether - call.amount.toNat) + _ ≤ _)
        rcases hs.source with hzero | hcovered
        · refine ⟨?_, .inl hzero⟩
          rw [hzero] at hlimit hwithin ⊢
          change _ ≤ 0 at hlimit
          omega
        · omega
      rw [Limited, hnext]
      refine ⟨⟨fun day => (paidOn_le _ day).trans hafter.1, fun hnone => ?_⟩, ?_⟩
      · rw [hnone] at heq
        cases heq
      · exact ⟨hs.uncounted, hs.accepts, hafter.1, hafter.2⟩
    · rw [if_neg hpays] at heq
      refine limited_of_refused hs heq (.inr ?_)
      rw [BitVec.le_def] at hpays
      omega
  · exact limited_of_refused hs (if_pos howner) (.inl howner)

theorem Inv.receive {value : U256} (hs : s.Inv (value.toNat + budget)) :
    (s.receive value).Inv budget := by
  refine ⟨hs.uncounted, hs.accepts, hs.within, hs.source.imp_right fun hcovered => ?_⟩
  show s.paid + (s.ether + value.toNat) + budget ≤ s.dailyLimit.toNat
  omega

theorem every_limited (calls : List Call) (hs : s.Inv (received calls)) :
    Every step Limited s calls := by
  induction calls generalizing s with
  | nil => exact trivial
  | cons call calls ih =>
    cases call with
    | spend call =>
      have hs : s.Inv (received calls) := by simpa [received, Call.received] using hs
      exact ⟨(limited_of_inv hs call).1, ih (limited_of_inv hs call).2⟩
    | receive value => exact ⟨trivial, ih (Inv.receive hs)⟩

/-- The timestamps of the calls of `spend` do not decrease. -/
def Chronological (calls : List Call) : Prop :=
  calls.Pairwise fun earlier later => ∀ a b, earlier = .spend a → later = .spend b →
    a.timestamp ≤ b.timestamp

theorem not_limited_two (owner : Address) {dailyLimit : U256} (hlimit : dailyLimit ≠ 0) :
    ¬ Every step Limited (deployed owner dailyLimit true)
      [.receive dailyLimit, .receive 1, .spend ⟨owner, 0, dailyLimit⟩, .spend ⟨owner, 0, 1⟩] := by
  rintro ⟨-, -, -, ⟨hpaid, -⟩, -⟩
  let funded := receive 1 (receive dailyLimit (deployed owner dailyLimit true))
  have hether : funded.ether = dailyLimit.toNat + 1 := by
    show 0 + dailyLimit.toNat + 1 = _
    omega
  have hone : 1 ≤ dailyLimit.toNat := by
    rw [Nat.one_le_iff_ne_zero]
    exact fun hzero => hlimit (BitVec.eq_of_toNat_eq hzero)
  have hfirst : step funded (.spend ⟨owner, 0, dailyLimit⟩) =
      pay funded ⟨owner, 0, dailyLimit⟩ := by
    rw [step, spend_eq rfl rfl rfl, if_pos, getD_some]
    refine ⟨BitVec.le_refl _, ?_⟩
    show dailyLimit.toNat ≤ funded.ether
    omega
  have hsecond : step (pay funded ⟨owner, 0, dailyLimit⟩) (.spend ⟨owner, 0, 1⟩) =
      pay (pay funded ⟨owner, 0, dailyLimit⟩) ⟨owner, 0, 1⟩ := by
    rw [step, spend_eq rfl rfl rfl, if_pos, getD_some]
    refine ⟨BitVec.le_def.mpr hone, ?_⟩
    show 1 ≤ funded.ether - dailyLimit.toNat
    omega
  have hsum : (step (step funded (.spend ⟨owner, 0, dailyLimit⟩))
      (.spend ⟨owner, 0, 1⟩)).paidOn 0 ≤
        (step funded (.spend ⟨owner, 0, dailyLimit⟩)).dailyLimit.toNat := hpaid 0
  rw [hfirst, hsecond] at hsum
  simp [paidOn, pay, funded, receive, deployed, day] at hsum

/-- The limit holds for all calls that bring no more than a given amount of ether just if the owner
accepts ether, and the limit is zero or the amount is within the limit. -/
theorem limited_iff (owner : Address) (dailyLimit : U256) (ether : Nat) (accepts : Bool) :
    (∀ calls, Chronological calls → received calls ≤ ether →
        Every step Limited (deployed owner dailyLimit accepts) calls) ↔
      accepts = true ∧ (dailyLimit = 0 ∨ ether ≤ dailyLimit.toNat) := by
  constructor
  · intro h
    have haccepts : accepts = true := by
      by_contra hrefuses
      rw [Bool.not_eq_true] at hrefuses
      subst hrefuses
      have hrefused := (h [.spend ⟨owner, 0, 0⟩] (List.pairwise_singleton _ _)
        (Nat.zero_le _)).1.2 (by simp [spend, deployed, resetDay, day])
      simp [deployed, paidOn] at hrefused
    subst haccepts
    refine ⟨rfl, ?_⟩
    by_contra hnot
    rw [not_or, Nat.not_le] at hnot
    refine not_limited_two owner hnot.1 (h _ (by simp [Chronological]) ?_)
    show dailyLimit.toNat + (1 + 0) ≤ ether
    omega
  · rintro ⟨rfl, hether⟩ calls _ hreceived
    refine every_limited calls ⟨rfl, rfl, Nat.zero_le _, hether.imp_right fun hle => ?_⟩
    show 0 + 0 + received calls ≤ dailyLimit.toNat
    omega

/-- A wallet that gets two wei and has a limit of one pays both on one day. -/
theorem not_limited_twice : ¬ ∀ calls, Chronological calls →
    Every step Limited (deployed 1 1 true) calls := by
  intro h
  have hpaid := (h [.receive 2, .spend ⟨1, 0, 1⟩, .spend ⟨1, 0, 1⟩]
    (by simp [Chronological])).2.2.1.1 0
  exact absurd hpaid (by decide)

end SafeWallet

end Foundry.Contracts
