import Foundry.Base.HashMap
import Foundry.Base.Reentrancy
import Foundry.Contracts.PriceConverter

/-!
# The funding contract

Callers pay ether in, which is recorded for each of them, and the owner takes everything out.  The
payout is a call of the owner, which may be a contract that calls back, and ether may also arrive
without a call.
-/

namespace Foundry.Contracts

open Reentrancy HashMap

/-! ## The contract -/

structure FundMe where
  addressToAmountFunded : HashMap Address U256
  funders : List Address
  owner : Address
  balance : Nat

namespace FundMe

def MINIMUM_USD : U256 := BitVec.ofNat 256 (5 * 10 ^ 18)

/-- The constructor.  Ether may be at the address before the contract is. -/
def deployed (owner : Address) (balance : Nat) : FundMe := ⟨.empty, [], owner, balance⟩

/-- `getAddressToAmountFunded`: a key that was never written reads zero. -/
def getAddressToAmountFunded (s : FundMe) (fundingAddress : Address) : U256 :=
  (s.addressToAmountFunded.get fundingAddress).getD 0

section

variable (sender : Address)

/-- `fund`, at an answer of the price feed; `none` if it reverts. -/
def fund (value : U256) (answer : BitVec 256) (s : FundMe) : Option FundMe :=
  (getConversionRate value answer).bind fun rate =>
    if MINIMUM_USD ≤ rate then
      (checkedAdd (s.getAddressToAmountFunded sender) value).map fun amount =>
        { s with
          addressToAmountFunded := s.addressToAmountFunded.insert sender amount
          funders := s.funders ++ [sender]
          balance := s.balance + value.toNat }
    else none

def fallback (value : U256) (answer : BitVec 256) (s : FundMe) :
    Option FundMe := fund sender value answer s

def receive (value : U256) (answer : BitVec 256) (s : FundMe) :
    Option FundMe := fund sender value answer s

/-- `s_addressToAmountFunded[funder] = 0`. -/
def clear (s : FundMe) (funder : Address) : FundMe :=
  { s with addressToAmountFunded := s.addressToAmountFunded.insert funder 0 }

/-- The loop of `withdraw`, which reads the length of the array in every round. -/
def withdrawLoop (s : FundMe) (funderIndex : Nat) : FundMe :=
  if h : funderIndex < s.funders.length then
    withdrawLoop (s.clear (s.funders.get ⟨funderIndex, h⟩)) (funderIndex + 1)
  else s
termination_by s.funders.length - funderIndex
decreasing_by
  change s.funders.length - (funderIndex + 1) < _
  omega

/-- The loop of `cheaperWithdraw`, which has read the length before; an index that is out of bounds
reverts. -/
def cheaperWithdrawLoop (fundersLength : Nat) (s : FundMe) (funderIndex : Nat) : Option FundMe :=
  if funderIndex < fundersLength then
    s.funders[funderIndex]?.bind fun funder =>
      cheaperWithdrawLoop fundersLength (s.clear funder) (funderIndex + 1)
  else some s
termination_by fundersLength - funderIndex

/-- `withdraw`, up to its call of the owner, which takes the whole balance along. -/
def withdraw (s : FundMe) : Option FundMe :=
  if sender ≠ s.owner then none
  else some { withdrawLoop s 0 with funders := [], balance := 0 }

/-- `cheaperWithdraw`, up to the call. -/
def cheaperWithdraw (s : FundMe) : Option FundMe :=
  if sender ≠ s.owner then none
  else (cheaperWithdrawLoop s.funders.length s 0).map fun s =>
    { s with funders := [], balance := 0 }

end

/-- What reaches the contract without a call to another party. -/
inductive Receipt where
  | fund (sender : Address) (value : U256) (answer : BitVec 256)
  | fallback (sender : Address) (value : U256) (answer : BitVec 256)
  | receive (sender : Address) (value : U256) (answer : BitVec 256)
  /-- Ether that arrives without a call. -/
  | force (value : Nat)

inductive Withdrawal where
  | withdraw (sender : Address)
  | cheaperWithdraw (sender : Address)

def Receipt.apply : Receipt → FundMe → Option FundMe
  | .fund sender value answer, s => FundMe.fund sender value answer s
  | .fallback sender value answer, s => FundMe.fallback sender value answer s
  | .receive sender value answer, s => FundMe.receive sender value answer s
  | .force value, s => some { s with balance := s.balance + value }

def Withdrawal.enter : Withdrawal → FundMe → Option FundMe
  | .withdraw sender, s => FundMe.withdraw sender s
  | .cheaperWithdraw sender, s => FundMe.cheaperWithdraw sender s

/-- The contract among its callers.  A call that reverts changes nothing, and a withdrawal reverts
if the owner does not accept the payout. -/
def contract : Contract FundMe Receipt Withdrawal where
  act receipt s := (receipt.apply s).getD s
  enter withdrawal s := withdrawal.enter s
  abort _ s := s

def Receipt.fundedBy (a : Address) : Receipt → FundMe → Nat
  | .fund sender value answer, s | .fallback sender value answer, s
  | .receive sender value answer, s =>
    if sender = a ∧ (FundMe.fund sender value answer s).isSome then value.toNat else 0
  | .force _, _ => 0

/-- What an address funds by calls that are not taken back. -/
def fundedBy (a : Address) (calls : List (Call Receipt Withdrawal)) (s : FundMe) : Nat :=
  committedAll contract (Receipt.fundedBy a) calls s

/-! ## The reset -/

/-- What either loop does to the amounts, with the array that replaces the funders'. -/
def resetFunders (s : FundMe) : FundMe :=
  { s with
    addressToAmountFunded := s.funders.foldl (fun amounts funder => amounts.insert funder 0)
      s.addressToAmountFunded
    funders := [] }

private theorem withdrawLoop_eq (s : FundMe) (funderIndex : Nat) :
    withdrawLoop s funderIndex = { s with
      addressToAmountFunded := (s.funders.drop funderIndex).foldl
        (fun amounts funder => amounts.insert funder 0) s.addressToAmountFunded } := by
  fun_induction withdrawLoop s funderIndex with
  | case1 s funderIndex h ih =>
    rw [ih, List.drop_eq_getElem_cons h]
    rfl
  | case2 s funderIndex h =>
    rw [List.drop_of_length_le (Nat.le_of_not_lt h)]
    rfl

theorem resetFunders_eq (s : FundMe) :
    { withdrawLoop s 0 with funders := [] } = s.resetFunders := by
  rw [withdrawLoop_eq s 0]
  rfl

theorem cheaperWithdrawLoop_eq (s : FundMe) (funderIndex : Nat) :
    cheaperWithdrawLoop s.funders.length s funderIndex = some (withdrawLoop s funderIndex) := by
  fun_induction withdrawLoop s funderIndex with
  | case1 s funderIndex h ih =>
    rw [cheaperWithdrawLoop, if_pos h, List.getElem?_eq_getElem h]
    exact ih
  | case2 s funderIndex h => rw [cheaperWithdrawLoop, if_neg h]

theorem getAddressToAmountFunded_resetFunders (s : FundMe) (a : Address) :
    s.resetFunders.getAddressToAmountFunded a =
      if a ∈ s.funders then 0 else s.getAddressToAmountFunded a := by
  unfold getAddressToAmountFunded resetFunders
  rw [get_foldl_insert _ _ fun _ => 0]
  split <;> rfl

/-! ## Solvency -/

variable {sender : Address} {value : U256} {answer : BitVec 256} {s s' : FundMe} (owner : Address)
  (balance : Nat) (calls : List (Call Receipt Withdrawal)) {withdrawal : Withdrawal}

def total (s : FundMe) : Nat := s.addressToAmountFunded.weight BitVec.toNat

/-- The recorded amounts are covered, and belong to funders. -/
structure Solvent (s : FundMe) : Prop where
  covered : s.total ≤ s.balance
  recorded : ∀ a, s.getAddressToAmountFunded a ≠ 0 → a ∈ s.funders

theorem total_eq_zero (h : ∀ a, s.getAddressToAmountFunded a = 0) : s.total = 0 := by
  apply Finset.sum_eq_zero
  intro a _
  have ha := h a
  unfold getAddressToAmountFunded at ha
  cases hget : s.addressToAmountFunded.get a with
  | none => rfl
  | some amount =>
    rw [hget] at ha
    rw [show amount = 0 from ha]
    rfl

theorem solvent_deployed : (deployed owner balance).Solvent where
  covered := by
    have hzero : (deployed owner balance).total = 0 := total_eq_zero fun _ => rfl
    omega
  recorded a h := absurd rfl h

private theorem weight_insert (amounts : HashMap Address U256) (a : Address) (amount : U256) :
    (amounts.insert a amount).weight BitVec.toNat + ((amounts.get a).getD 0).toNat =
      amounts.weight BitVec.toNat + amount.toNat := by
  cases h : amounts.get a with
  | none =>
    rw [weight_insert_of_none _ h]
    simp
  | some old => exact weight_insert_of_get _ h

theorem fund_eq_some (h : fund sender value answer s = some s') : ∃ amount : U256,
      (s.getAddressToAmountFunded sender).toNat + value.toNat = amount.toNat ∧
      s' = { s with
        addressToAmountFunded := s.addressToAmountFunded.insert sender amount
        funders := s.funders ++ [sender]
        balance := s.balance + value.toNat } := by
  unfold fund at h
  rw [Option.bind_eq_some_iff] at h
  obtain ⟨rate, _, h⟩ := h
  split at h
  · rw [Option.map_eq_some_iff] at h
    obtain ⟨amount, hamount, rfl⟩ := h
    exact ⟨amount, checkedAdd_eq_some.mp hamount, rfl⟩
  · cases h

theorem solvent_fund (hs : s.Solvent) (h : fund sender value answer s = some s') : s'.Solvent := by
  obtain ⟨amount, hamount, rfl⟩ := fund_eq_some h
  constructor
  · have hcovered := hs.covered
    have hweight := weight_insert s.addressToAmountFunded sender amount
    unfold getAddressToAmountFunded at hamount
    simp only [total] at hcovered ⊢
    omega
  · intro a ha
    rw [List.mem_append, List.mem_singleton]
    by_cases hsender : a = sender
    · exact .inr hsender
    · apply Or.inl
      apply hs.recorded
      simpa [getAddressToAmountFunded, get_insert_of_ne _ _ hsender] using ha

theorem solvent_apply {receipt : Receipt} (hs : s.Solvent) (h : receipt.apply s = some s') :
    s'.Solvent := by
  cases receipt with
  | fund sender value answer => exact solvent_fund hs h
  | fallback sender value answer => exact solvent_fund hs h
  | receive sender value answer => exact solvent_fund hs h
  | force value =>
    cases h
    exact ⟨Nat.le_add_right_of_le hs.covered, hs.recorded⟩

theorem cheaperWithdraw_eq (sender : Address) (s : FundMe) :
    cheaperWithdraw sender s = withdraw sender s := by
  rw [cheaperWithdraw, withdraw, cheaperWithdrawLoop_eq, Option.map_some]

theorem withdraw_eq (sender : Address) (s : FundMe) :
    withdraw sender s =
      if sender ≠ s.owner then none else some { s.resetFunders with balance := 0 } := by
  rw [withdraw, ← resetFunders_eq]

theorem enter_eq_some (h : withdrawal.enter s = some s') :
    s' = { s.resetFunders with balance := 0 } := by
  have hwithdraw : ∃ sender, withdraw sender s = some s' := by
    cases withdrawal with
    | withdraw sender => exact ⟨sender, h⟩
    | cheaperWithdraw sender => exact ⟨sender, (cheaperWithdraw_eq sender s).symm.trans h⟩
  obtain ⟨sender, hwithdraw⟩ := hwithdraw
  rw [withdraw_eq] at hwithdraw
  split at hwithdraw
  · cases hwithdraw
  · cases hwithdraw
    rfl

/-- Nothing is recorded when the owner is called: the loop reaches every recorded amount. -/
theorem amount_resetFunders_eq_zero (hs : s.Solvent) (a : Address) :
    s.resetFunders.getAddressToAmountFunded a = 0 := by
  rw [getAddressToAmountFunded_resetFunders]
  split
  · rfl
  · next hmem =>
    by_contra hne
    exact hmem (hs.recorded a hne)

theorem solvent_enter (hs : s.Solvent) (h : withdrawal.enter s = some s') : s'.Solvent := by
  rw [enter_eq_some h]
  constructor
  · have hzero := total_eq_zero (amount_resetFunders_eq_zero hs)
    change s.resetFunders.total ≤ 0
    omega
  · intro a ha
    exact absurd (amount_resetFunders_eq_zero hs a) ha

theorem keeps_solvent : Maintains contract (fun _ _ => True) (fun _ _ _ => True) Solvent where
  act receipt s hs _ := by
    change ((receipt.apply s).getD s).Solvent
    cases h : receipt.apply s with
    | none => exact hs
    | some s' => exact solvent_apply hs h
  enter _ _ _ _ hs _ h := solvent_enter hs h
  abort _ _ _ hs _ _ := hs

/-- Every state that calls reach is solvent, also those inside a payout. -/
theorem solvent_of_reached {owner : Address} {balance : Nat}
    {calls : List (Call Receipt Withdrawal)}
    (h : s ∈ reached contract calls (deployed owner balance)) : s.Solvent :=
  reached_inv keeps_solvent (solvent_deployed owner balance)
    (meetsAll_of_forall (fun _ _ => trivial) (fun _ _ _ => trivial) calls _) s h

/-! ## What a withdrawal leaves -/

private theorem amount_fund_le (a : Address) (s : FundMe) :
    (((fund sender value answer s).getD s).getAddressToAmountFunded a).toNat ≤
      (s.getAddressToAmountFunded a).toNat +
        if sender = a ∧ (fund sender value answer s).isSome then value.toNat else 0 := by
  cases h : fund sender value answer s with
  | none => simp
  | some s' =>
    obtain ⟨amount, hamount, rfl⟩ := fund_eq_some h
    by_cases ha : a = sender
    · subst ha
      simp [getAddressToAmountFunded] at hamount ⊢
      omega
    · simp [getAddressToAmountFunded, get_insert_of_ne _ _ ha]

theorem bounded_amount (a : Address) : Bounded contract (Receipt.fundedBy a)
    (fun s => (s.getAddressToAmountFunded a).toNat) where
  act receipt s := by
    cases receipt with
    | fund sender value answer => exact amount_fund_le a s
    | fallback sender value answer => exact amount_fund_le a s
    | receive sender value answer => exact amount_fund_le a s
    | force value => exact Nat.le_refl _
  enter withdrawal s s' h := by
    rw [enter_eq_some h]
    change (s.resetFunders.getAddressToAmountFunded a).toNat ≤ _
    rw [getAddressToAmountFunded_resetFunders]
    split <;> simp
  abort _ s := Nat.le_refl _

theorem exec_handover {atPayout : FundMe} (h : withdrawal.enter s = some atPayout)
    (inner : List (Call Receipt Withdrawal)) :
    exec contract (.handover withdrawal inner true) s = execAll contract inner atPayout := by
  simp [exec, contract, h]

/-- In every state that calls of any parties reach, the owner's calls during a payout included, the
recorded amounts are covered by the balance and belong to funders.  A withdrawal that is started in
such a state has nothing recorded when it pays, and leaves no more recorded for an address than the
address funds during the payout. -/
theorem accounting (s : FundMe) (hs : s ∈ reached contract calls (deployed owner balance)) :
    s.total ≤ s.balance ∧ (∀ a, s.getAddressToAmountFunded a ≠ 0 → a ∈ s.funders) ∧
      ∀ (withdrawal : Withdrawal) (atPayout : FundMe), withdrawal.enter s = some atPayout →
        (∀ a, atPayout.getAddressToAmountFunded a = 0) ∧
        ∀ (inner : List (Call Receipt Withdrawal)) (a : Address),
          ((exec contract (.handover withdrawal inner true) s).getAddressToAmountFunded a).toNat ≤
            fundedBy a inner atPayout := by
  have hsolvent := solvent_of_reached hs
  refine ⟨hsolvent.covered, hsolvent.recorded, ?_⟩
  intro withdrawal atPayout henter
  have hzero : ∀ a, atPayout.getAddressToAmountFunded a = 0 := by
    rw [enter_eq_some henter]
    exact amount_resetFunders_eq_zero hsolvent
  refine ⟨hzero, fun inner a => ?_⟩
  have hle := execAll_le (bounded_amount a) inner atPayout
  rw [exec_handover henter]
  unfold fundedBy
  simpa [hzero a] using hle

/-- Another address funds, and the owner funds again while it is paid. -/
theorem accounting_during_payout :
    let ether := BitVec.ofNat 256 (10 ^ 18)
    let answer := BitVec.ofNat 256 (2000 * 10 ^ 8)
    let again := [Call.plain (.fund 1 ether answer)]
    let s := execAll contract [.plain (.fund 2 ether answer)] (deployed 1 0)
    s.total = 10 ^ 18 ∧
      ((exec contract (.handover (.withdraw 1) again true) s).getAddressToAmountFunded 1).toNat =
        10 ^ 18 ∧
      ((exec contract (.handover (.withdraw 1) again true) s).getAddressToAmountFunded 1).toNat ≤
        fundedBy 1 again { s.resetFunders with balance := 0 } := by
  intro ether answer again s
  have hreached := execAll_mem_reached contract [.plain (.fund 2 ether answer)] (deployed 1 0)
  have howner : s.owner = 1 := by decide +kernel
  have henter : (Withdrawal.withdraw 1).enter s = some { s.resetFunders with balance := 0 } := by
    simp [Withdrawal.enter, withdraw_eq, howner]
  refine ⟨by decide +kernel, ?_,
    ((accounting 1 0 _ s hreached).2.2 (.withdraw 1) _ henter).2 again 1⟩
  rw [exec_handover henter]
  decide +kernel

/-! ## The minimum -/

/-- The contribution is worth the minimum at a positive answer, over unbounded integers. -/
def Worth (value : U256) (answer : BitVec 256) : Prop :=
  0 < answer.toInt ∧ (MINIMUM_USD.toNat : Int) ≤ value.toNat * answer.toInt * 10 ^ 10 / 10 ^ 18

/-- The products of the conversion fit their types. -/
def ProductsFit (value : U256) (answer : BitVec 256) : Prop :=
  FitsSigned (answer.toInt * 10 ^ 10) ∧ value.toNat * answer.toInt * 10 ^ 10 < 2 ^ 256

/-- The guard of `fund`. -/
def Passes (value : U256) (answer : BitVec 256) : Prop :=
  ∃ rate, getConversionRate value answer = some rate ∧ MINIMUM_USD ≤ rate

/-- `fund` takes what is worth the minimum and nothing else, but may revert where a product does
not fit. -/
def TakesTheMinimum (sender : Address) (value : U256) (answer : BitVec 256) (s : FundMe) : Prop :=
  ((fund sender value answer s).isSome → Worth value answer) ∧
    (Worth value answer → ProductsFit value answer → (fund sender value answer s).isSome)

theorem toNat_minimum : MINIMUM_USD.toNat = 5 * 10 ^ 18 := by decide

/-- The recorded amount cannot overflow, as it is covered by ether that exists. -/
theorem isSome_fund_iff (hs : s.Solvent) (hether : s.balance + value.toNat < 2 ^ 256) :
    (fund sender value answer s).isSome ↔ Passes value answer := by
  have hamount : (s.getAddressToAmountFunded sender).toNat ≤ s.total := by
    unfold getAddressToAmountFunded total
    cases h : s.addressToAmountFunded.get sender with
    | none => simp
    | some amount => exact le_weight BitVec.toNat h
  have hcovered := hs.covered
  have hadd : checkedAdd (s.getAddressToAmountFunded sender) value =
      some (s.getAddressToAmountFunded sender + value) := if_pos (by omega)
  unfold fund Passes
  cases hrate : getConversionRate value answer with
  | none => simp
  | some rate =>
    by_cases hmin : MINIMUM_USD ≤ rate
    · simp [hadd]
    · simp [hmin]

theorem passes_iff :
    Passes value answer ↔ ∃ price : U256, getPrice answer = some price ∧
      price.toNat * value.toNat < 2 ^ 256 ∧
      MINIMUM_USD.toNat ≤ price.toNat * value.toNat / 10 ^ 18 := by
  unfold Passes
  simp only [getConversionRate_eq_some, BitVec.le_def]
  constructor
  · intro ⟨rate, ⟨price, hprice, hlt, hrate⟩, hmin⟩
    exact ⟨price, hprice, hlt, hrate ▸ hmin⟩
  · intro ⟨price, hprice, hlt, hmin⟩
    have hrate : (BitVec.ofNat 256 (price.toNat * value.toNat / 10 ^ 18)).toNat =
        price.toNat * value.toNat / 10 ^ 18 := by
      rw [BitVec.toNat_ofNat, Nat.mod_eq_of_lt (by omega)]
    exact ⟨_, ⟨price, hprice, hlt, hrate⟩, by rwa [hrate]⟩

theorem passes_iff_of_pos (h : 0 < answer.toInt) :
    Passes value answer ↔ Worth value answer ∧ ProductsFit value answer := by
  have hproduct : ∀ price : U256, getPrice answer = some price →
      (value.toNat : Int) * answer.toInt * 10 ^ 10 = (price.toNat * value.toNat : Nat) := by
    intro price hprice
    rw [Int.mul_assoc, ← toNat_price_of_nonneg hprice (by omega), Int.mul_comm, Int.natCast_mul]
  rw [passes_iff]
  constructor
  · intro ⟨price, hprice, hlt, hmin⟩
    unfold Worth ProductsFit
    rw [hproduct price hprice]
    have hfits := (getPrice_eq_some.mp hprice).1
    exact ⟨⟨h, by omega⟩, hfits, by omega⟩
  · intro ⟨⟨_, hworth⟩, hfits, hlt⟩
    obtain ⟨price, hprice⟩ := exists_getPrice hfits
    rw [hproduct price hprice] at hworth hlt
    exact ⟨price, hprice, by omega, by omega⟩

private theorem not_passes_zero (h : answer.toInt = 0) : ¬ Passes value answer := by
  rw [passes_iff, toNat_minimum]
  rintro ⟨price, hprice, _, hmin⟩
  have hnat := toNat_price_of_nonneg hprice (by omega)
  have hzero : price.toNat = 0 := by omega
  rw [hzero] at hmin
  omega

/-- At a negative answer the price is so large that one wei passes the guard, and more than one
reverts. -/
theorem passes_iff_of_neg (h : answer.toInt < 0) :
    Passes value answer ↔ -(2 ^ 255) ≤ answer.toInt * 10 ^ 10 ∧ value.toNat = 1 := by
  rw [passes_iff, toNat_minimum]
  constructor
  · intro ⟨price, hprice, hlt, hmin⟩
    have hlarge := toNat_price_of_neg hprice h
    refine ⟨(getPrice_eq_some.mp hprice).1.1, ?_⟩
    have hone : value.toNat < 2 := by
      by_contra hge
      have hle := Nat.mul_le_mul hlarge (show 2 ≤ value.toNat by omega)
      omega
    have hpos : value.toNat ≠ 0 := by
      intro hzero
      rw [hzero] at hmin
      omega
    omega
  · intro ⟨hfits, hone⟩
    have hsigned : FitsSigned (answer.toInt * 10 ^ 10) := ⟨hfits, by omega⟩
    obtain ⟨price, hprice⟩ := exists_getPrice hsigned
    have hlarge := toNat_price_of_neg hprice h
    have hlt := price.isLt
    refine ⟨price, hprice, ?_⟩
    rw [hone, Nat.mul_one]
    exact ⟨hlt, by omega⟩

/-- In every state that calls reach, `fund` takes exactly what is worth the minimum, except that one
wei goes through at a negative answer whose price fits `int256`. -/
theorem takes_the_minimum_iff (s : FundMe)
    (hs : s ∈ reached contract calls (deployed owner balance)) (sender : Address) (value : U256)
    (answer : BitVec 256) (hether : s.balance + value.toNat < 2 ^ 256) :
    TakesTheMinimum sender value answer s ↔
      ¬ (answer.toInt < 0 ∧ -(2 ^ 255) ≤ answer.toInt * 10 ^ 10 ∧ value.toNat = 1) := by
  unfold TakesTheMinimum
  rw [isSome_fund_iff (solvent_of_reached hs) hether]
  rcases lt_trichotomy answer.toInt 0 with hneg | hzero | hpos
  · rw [passes_iff_of_neg hneg]
    have hworth : ¬ Worth value answer := fun h => absurd h.1 (by omega)
    simp [hneg, hworth]
  · have hworth : ¬ Worth value answer := fun h => absurd h.1 (by omega)
    simp [hzero, hworth, not_passes_zero hzero]
  · have hnot : ¬ answer.toInt < 0 := by omega
    rw [passes_iff_of_pos hpos]
    simp only [hnot, false_and, not_false_eq_true, iff_true]
    exact ⟨fun h => h.1, fun hworth hfit => ⟨hworth, hfit⟩⟩

/-- One ether at two thousand dollars. -/
theorem takes_one_ether :
    TakesTheMinimum 1 (BitVec.ofNat 256 (10 ^ 18)) (BitVec.ofNat 256 (2000 * 10 ^ 8))
      (deployed 0 0) :=
  (takes_the_minimum_iff 0 0 [] (deployed 0 0) (List.mem_singleton.mpr rfl) 1
    (BitVec.ofNat 256 (10 ^ 18)) (BitVec.ofNat 256 (2000 * 10 ^ 8)) (by decide)).mpr (by decide)

/-- At the answer minus one `fund` takes a single wei. -/
theorem takes_one_wei_at_negative_answer :
    ¬ ∀ (sender : Address) (value : U256) (answer : BitVec 256),
      TakesTheMinimum sender value answer (deployed 0 0) := by
  intro h
  have hsome : (fund 1 1 (BitVec.ofInt 256 (-1)) (deployed 0 0)).isSome = true := by
    decide +kernel
  have hworth := (h 1 1 (BitVec.ofInt 256 (-1))).1 hsome
  exact absurd hworth.1 (by decide)

/-! ## The two withdrawals -/

/-- What the payee does with an amount, in a state of the contract: the calls it makes, and whether
it accepts. -/
abbrev Payee := Nat → FundMe → List (Call Receipt Withdrawal) × Bool

/-- The end of a withdrawal, with the new array and the call of the payee: the amount that is sent,
and the state after the calls that the payee makes. -/
def pay (payee : Payee) (s : FundMe) : Option (Nat × FundMe) :=
  let called := { s with funders := [], balance := 0 }
  let (inner, accepted) := payee s.balance called
  if accepted then some (s.balance, execAll contract inner called) else none

def withdrawWhole (sender : Address) (payee : Payee) (s : FundMe) : Option (Nat × FundMe) :=
  if sender ≠ s.owner then none else pay payee (withdrawLoop s 0)

def cheaperWithdrawWhole (sender : Address) (payee : Payee) (s : FundMe) :
    Option (Nat × FundMe) :=
  if sender ≠ s.owner then none
  else (cheaperWithdrawLoop s.funders.length s 0).bind (pay payee)

/-- The withdrawals revert together, or send the same amount and leave the same state. -/
theorem cheaperWithdraw_eq_withdraw (sender : Address) (payee : Payee) (s : FundMe) :
    cheaperWithdrawWhole sender payee s = withdrawWhole sender payee s := by
  rw [cheaperWithdrawWhole, withdrawWhole, cheaperWithdrawLoop_eq, Option.bind_some]

end FundMe

end Foundry.Contracts
