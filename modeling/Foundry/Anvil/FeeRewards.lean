import Foundry.Anvil.FeeHistory
import Mathlib.Data.List.Sort
import Mathlib.Data.Rat.Floor

/-!
# The items of the fee history

The rewards of a block are read off its transactions in the order of their fees, at the place where
the gas of the transactions so far reaches a share of the gas of the block.  What is summed up is
the gas of the receipts, which is a running total already.
-/

namespace Foundry.Anvil

open List

inductive TypedTransaction where
  | legacy (gasPrice : Nat)
  | eip2930 (gasPrice : Nat)
  | eip1559 (maxPriorityFeePerGas maxFeePerGas : Nat)
  | eip4844 (maxPriorityFeePerGas maxFeePerGas : Nat)
  | eip7702 (maxPriorityFeePerGas maxFeePerGas : Nat)
  | deposit

def effectiveReward (baseFee : Nat) : Option TypedTransaction → Nat
  | some (.legacy gasPrice) | some (.eip2930 gasPrice) => gasPrice - baseFee
  | some (.eip1559 maxPriorityFeePerGas maxFeePerGas)
  | some (.eip4844 maxPriorityFeePerGas maxFeePerGas)
  | some (.eip7702 maxPriorityFeePerGas maxFeePerGas) =>
    min maxPriorityFeePerGas (maxFeePerGas - baseFee)
  | some .deposit | none => 0

structure FeeHeader where
  number : Nat
  gasUsed : Nat
  gasLimit : Nat
  baseFeePerGas : Option Nat
  excessBlobGas : Option Nat
  blobGasUsed : Option Nat

structure FeeHistoryCacheItem where
  baseFee : Nat
  gasUsedRatio : ℚ
  blobGasUsedRatio : ℚ
  rewards : List Nat
  excessBlobGas : Option Nat
  baseFeePerBlobGas : Option Nat
  blobGasUsed : Option Nat

def maxBlobsPerBlockElectra : Nat := 9

def rewardPercentiles : List ℚ := (List.range 201).map fun i : Nat => (i : ℚ) / 2

/-- A share of the gas, before it is cut to an integer. -/
def targetGas (gasUsed : Nat) (p : ℚ) : ℚ := p * gasUsed / 100

def withRewards (baseFee : Nat) (transactions : List TypedTransaction) (gas : List Nat) :
    List (Nat × Nat) :=
  gas.zipIdx.map fun entry => (entry.1, effectiveReward baseFee transactions[entry.2]?)

def sortByReward (entries : List (Nat × Nat)) : List (Nat × Nat) :=
  entries.mergeSort fun a b => a.2 ≤ b.2

/-- The sum of two `u64`s, which wraps. -/
def addU64 (a b : Nat) : Nat := (a + b) % 2 ^ 64

/-- The reward of the first transaction where the sum of the gas reaches the target. -/
def rewardAt (add : Nat → Nat → Nat) (reaches : Nat → Bool) : Nat → List (Nat × Nat) → Option Nat
  | _, [] => none
  | sumGas, (gasUsed, reward) :: entries =>
    if reaches (add sumGas gasUsed) then some reward
    else rewardAt add reaches (add sumGas gasUsed) entries

/-- The item of a block, with the block and its receipts as the storage has them, and the number of
the block. -/
def createCacheEntry (blobFee : Option Nat) (header : FeeHeader)
    (block : Option (FeeHeader × List TypedTransaction)) (receipts : Option (List Nat)) :
    FeeHistoryCacheItem × Option Nat :=
  let baseFee := header.baseFeePerGas.getD 0
  let item : FeeHistoryCacheItem :=
    ⟨baseFee, 0, 0, [], header.excessBlobGas, blobFee, header.blobGasUsed⟩
  match block, receipts with
  | some (stored, transactions), some receipts =>
    let entries := sortByReward (withRewards baseFee transactions receipts)
    ({ item with
        gasUsedRatio := (stored.gasUsed : ℚ) / stored.gasLimit
        blobGasUsedRatio :=
          (stored.blobGasUsed.map fun gas => (gas : ℚ) / maxBlobsPerBlockElectra).getD 0
        rewards := rewardPercentiles.filterMap fun p =>
          let target := ⌊targetGas stored.gasUsed p⌋₊
          rewardAt addU64 (fun sumGas => target ≤ sumGas) 0 entries }, some stored.number)
  | _, _ => ({ item with rewards := rewardPercentiles.map fun _ => 0 }, none)

/-! ## Mined blocks -/

structure MinedBlock where
  header : FeeHeader
  transactions : List TypedTransaction
  receipts : List Nat
  /-- The receipts have running totals of the gas. -/
  ordered : receipts.Pairwise (· ≤ ·)
  total : header.gasUsed = receipts.getLast?.getD 0

/-- The gas of each transaction, given the total before it. -/
def ownGas : Nat → List Nat → List Nat
  | _, [] => []
  | before, total :: totals => (total - before) :: ownGas total totals

namespace MinedBlock

def baseFee (block : MinedBlock) : Nat := block.header.baseFeePerGas.getD 0

/-- The reward where the gas of the transactions reaches the share; zero without transactions. -/
def fairReward (block : MinedBlock) (p : ℚ) : Nat :=
  (rewardAt (· + ·) (fun sumGas => targetGas block.header.gasUsed p ≤ sumGas) 0
    (sortByReward (withRewards block.baseFee block.transactions (ownGas 0 block.receipts)))).getD 0

def FairRewards (block : MinedBlock) : Prop :=
  ∀ blobFee, (createCacheEntry blobFee block.header (some (block.header, block.transactions))
    (some block.receipts)).1.rewards = rewardPercentiles.map block.fairReward

end MinedBlock

/-- A transaction with its own gas, the running total and its reward. -/
structure Charge where
  own : Nat
  total : Nat
  reward : Nat

/-- Where the reward rises, no share is above the gas so far and reached by the sum of the
totals. -/
def Uncrossed (share : ℚ) : Nat → Nat → List Charge → Prop
  | _, _, [] => True
  | own, total, charge :: charges =>
    (∀ next ∈ charges.head?, charge.reward < next.reward →
      ¬ ((own + charge.own : Nat) < share ∧ ⌊share⌋₊ ≤ total + charge.total)) ∧
    Uncrossed share (own + charge.own) (total + charge.total) charges

def MinedBlock.charges (block : MinedBlock) : List Charge :=
  (((ownGas 0 block.receipts).zip block.receipts).zipIdx.map fun entry =>
    ⟨entry.1.1, entry.1.2, effectiveReward block.baseFee block.transactions[entry.2]?⟩).mergeSort
      fun a b => a.reward ≤ b.reward

/-! ## The walk -/

def Charge.ownEntry (charge : Charge) : Nat × Nat := (charge.own, charge.reward)

def Charge.totalEntry (charge : Charge) : Nat × Nat := (charge.total, charge.reward)

section Walk

variable {share : ℚ} {charges : List Charge}

theorem uncrossed_of_le {own : Nat} (h : share ≤ own) (total : Nat) :
    Uncrossed share own total charges := by
  induction charges generalizing own total with
  | nil => trivial
  | cons charge charges ih =>
    have hmore : share ≤ (own + charge.own : Nat) :=
      h.trans (Nat.cast_le.mpr (Nat.le_add_right _ _))
    exact ⟨fun _ _ _ hcross => absurd hcross.1 hmore.not_gt, ih hmore _⟩

theorem rewardAt_mem {add : Nat → Nat → Nat} {reaches : Nat → Bool} {entries : List (Nat × Nat)}
    {sumGas reward : Nat} (h : rewardAt add reaches sumGas entries = some reward) :
    ∃ entry ∈ entries, entry.2 = reward := by
  induction entries generalizing sumGas with
  | nil => cases h
  | cons entry entries ih =>
    rw [rewardAt] at h
    split at h
    · exact ⟨entry, mem_cons_self, Option.some.inj h⟩
    · exact exists_mem_cons_of_exists (ih h)

/-- The two walks end at the same reward exactly if no rise of the reward is between them. -/
theorem rewardAt_eq_iff {own total reward : Nat}
    (hle : own ≤ total) (hown : ∀ charge ∈ charges, charge.own ≤ charge.total)
    (hsorted : charges.Pairwise fun a b => a.reward ≤ b.reward)
    (hreward : rewardAt (· + ·) (fun sumGas => share ≤ sumGas) own
      (charges.map Charge.ownEntry) = some reward) :
    rewardAt (· + ·) (fun sumGas => ⌊share⌋₊ ≤ sumGas) total (charges.map Charge.totalEntry) =
      some reward ↔ Uncrossed share own total charges := by
  induction charges generalizing own total with
  | nil => cases hreward
  | cons charge charges ih =>
    obtain ⟨hfirst, hrest⟩ := pairwise_cons.mp hsorted
    have hsum : own + charge.own ≤ total + charge.total :=
      Nat.add_le_add hle (hown charge mem_cons_self)
    simp only [map_cons, Charge.totalEntry, rewardAt, Uncrossed, decide_eq_true_eq] at hreward ⊢
    split at hreward
    · next hreached =>
      have hfloor : ⌊share⌋₊ ≤ total + charge.total := (Nat.floor_le_of_le hreached).trans hsum
      rw [if_pos hfloor]
      exact iff_of_true hreward
        ⟨fun _ _ _ hcross => absurd hcross.1 hreached.not_gt, uncrossed_of_le hreached _⟩
    · next hbelow =>
      have hstep := ih hsum (fun c hc => hown c (mem_cons_of_mem _ hc)) hrest hreward
      split
      · next hfloor =>
        cases charges with
        | nil => cases hreward
        | cons next charges =>
          have hnext : ⌊share⌋₊ ≤ total + charge.total + next.total :=
            hfloor.trans (Nat.le_add_right _ _)
          simp only [map_cons, Charge.totalEntry, rewardAt, decide_eq_true_eq,
            if_pos hnext] at hstep
          rw [← hstep]
          obtain ⟨entry, hmem, hentry⟩ := rewardAt_mem hreward
          obtain ⟨last, hlast, rfl⟩ := mem_map.mp hmem
          have hleast : next.reward ≤ last.reward := by
            cases hlast with
            | head => exact le_refl _
            | tail _ hlast => exact (pairwise_cons.mp hrest).1 last hlast
          have hlast : last.reward = reward := hentry
          have hrise := hfirst next mem_cons_self
          simp only [Option.some.injEq, head?_cons, Option.mem_some_iff, forall_eq', not_and]
          constructor
          · intro heq
            refine ⟨fun hlt => absurd hlt ?_, ?_⟩ <;> omega
          · rintro ⟨hflat, heq⟩
            have hnot : ¬ charge.reward < next.reward := fun hlt =>
              hflat hlt (not_le.mp hbelow) hfloor
            omega
      · next hfloor =>
        rw [hstep]
        exact (and_iff_right fun _ _ _ hcross => hfloor hcross.2).symm

/-- A sum that does not reach the target is below it, so the next one does not wrap. -/
theorem rewardAt_addU64 {target gas sumGas : Nat} {entries : List (Nat × Nat)}
    (htarget : target ≤ gas) (hgas : gas ≤ 2 ^ 63) (hsum : sumGas + gas < 2 ^ 64)
    (hentries : ∀ entry ∈ entries, entry.1 ≤ gas) :
    rewardAt addU64 (fun sumGas => target ≤ sumGas) sumGas entries =
      rewardAt (· + ·) (fun sumGas => target ≤ sumGas) sumGas entries := by
  induction entries generalizing sumGas with
  | nil => rfl
  | cons entry entries ih =>
    have hentry := hentries entry mem_cons_self
    have hadd : addU64 sumGas entry.1 = sumGas + entry.1 := Nat.mod_eq_of_lt (by omega)
    rw [rewardAt, rewardAt, hadd]
    by_cases hreached : target ≤ sumGas + entry.1
    · rw [if_pos (decide_eq_true hreached), if_pos (decide_eq_true hreached)]
    · have hbelow : sumGas + entry.1 + gas < 2 ^ 64 := by omega
      rw [ih hbelow fun later hlater => hentries later (mem_cons_of_mem _ hlater)]

end Walk

/-! ## The gas of a block -/

theorem rewardAt_isSome {share : ℚ} {entries : List (Nat × Nat)} {own : Nat} (hne : entries ≠ [])
    (h : share ≤ (own + (entries.map Prod.fst).sum : Nat)) :
    ∃ reward, rewardAt (· + ·) (fun sumGas => share ≤ sumGas) own entries = some reward := by
  induction entries generalizing own with
  | nil => exact absurd rfl hne
  | cons entry entries ih =>
    rw [rewardAt]
    split
    · exact ⟨entry.2, rfl⟩
    · next hbelow =>
      rw [map_cons, sum_cons, ← Nat.add_assoc] at h
      refine ih ?_ h
      rintro rfl
      exact hbelow (decide_eq_true h)

theorem length_ownGas (before : Nat) (totals : List Nat) :
    (ownGas before totals).length = totals.length := by
  induction totals generalizing before with
  | nil => rfl
  | cons total totals ih => rw [ownGas, length_cons, length_cons, ih]

theorem le_of_mem_zip_ownGas {before : Nat} {totals : List Nat} {entry : Nat × Nat}
    (h : entry ∈ (ownGas before totals).zip totals) : entry.1 ≤ entry.2 := by
  induction totals generalizing before with
  | nil => cases h
  | cons total totals ih =>
    cases h with
    | head => exact Nat.sub_le total before
    | tail _ h => exact ih h

theorem sum_ownGas {before : Nat} {totals : List Nat} (h : (before :: totals).Pairwise (· ≤ ·)) :
    before + (ownGas before totals).sum = totals.getLast?.getD before := by
  induction totals generalizing before with
  | nil => rfl
  | cons total totals ih =>
    obtain ⟨hfirst, hrest⟩ := pairwise_cons.mp h
    have hle := hfirst total mem_cons_self
    have hsum := ih hrest
    rw [ownGas, sum_cons, getLast?_cons, Option.getD_some]
    omega

theorem targetGas_le (gasUsed : Nat) {p : ℚ} (hp : p ∈ rewardPercentiles) :
    targetGas gasUsed p ≤ gasUsed := by
  obtain ⟨i, hi, rfl⟩ := mem_map.mp hp
  have hhundred : (i : ℚ) / 2 ≤ 100 := by
    have hle : (i : ℚ) ≤ 200 := by exact_mod_cast Nat.le_of_lt_succ (mem_range.mp hi)
    linarith
  rw [targetGas]
  nlinarith

namespace MinedBlock

variable (block : MinedBlock)

theorem le_gasUsed {gas : Nat} (h : gas ∈ block.receipts) : gas ≤ block.header.gasUsed := by
  have hne := ne_nil_of_mem h
  rw [block.total, getLast?_eq_some_getLast hne, Option.getD_some]
  exact block.ordered.rel_getLast h

theorem map_charges {entry : Charge → Nat × Nat} (h : ∀ charge, (entry charge).2 = charge.reward)
    {gas : List Nat} {pick : Nat × Nat → Nat}
    (hgas : ((ownGas 0 block.receipts).zip block.receipts).map pick = gas)
    (hpick : ∀ own total reward, entry ⟨own, total, reward⟩ = (pick (own, total), reward)) :
    block.charges.map entry = sortByReward (withRewards block.baseFee block.transactions gas) := by
  rw [charges, map_mergeSort (s := fun a b => a.2 ≤ b.2) fun a _ b _ => by rw [h, h],
    map_map, withRewards, ← hgas, zipIdx_map, map_map]
  refine congrArg (List.mergeSort · _) (map_congr_left fun _ _ => ?_)
  exact hpick _ _ _

theorem map_ownEntry : block.charges.map Charge.ownEntry =
    sortByReward (withRewards block.baseFee block.transactions (ownGas 0 block.receipts)) :=
  block.map_charges (fun _ => rfl) (map_fst_zip (length_ownGas _ _).le) fun _ _ _ => rfl

theorem map_totalEntry : block.charges.map Charge.totalEntry =
    sortByReward (withRewards block.baseFee block.transactions block.receipts) :=
  block.map_charges (fun _ => rfl) (map_snd_zip (length_ownGas _ _).ge) fun _ _ _ => rfl

theorem own_le_total : ∀ charge ∈ block.charges, charge.own ≤ charge.total := by
  intro charge hcharge
  rw [charges, mem_mergeSort] at hcharge
  obtain ⟨⟨entry, i⟩, hentry, rfl⟩ := mem_map.mp hcharge
  exact le_of_mem_zip_ownGas (fst_mem_of_mem_zipIdx hentry)

theorem rewardAt_ownEntry (hne : block.receipts ≠ []) {p : ℚ} (hp : p ∈ rewardPercentiles) :
    ∃ reward, rewardAt (· + ·) (fun sumGas => targetGas block.header.gasUsed p ≤ sumGas) 0
      (block.charges.map Charge.ownEntry) = some reward := by
  have hperm := mergeSort_perm
    (withRewards block.baseFee block.transactions (ownGas 0 block.receipts)) fun a b => a.2 ≤ b.2
  have hgas (gas : List Nat) : (withRewards block.baseFee block.transactions gas).map Prod.fst =
      gas := by
    rw [withRewards, map_map]
    exact zipIdx_map_fst 0 _
  have hsum : 0 + (ownGas 0 block.receipts).sum = block.header.gasUsed := by
    rw [sum_ownGas (pairwise_cons.mpr ⟨fun _ _ => Nat.zero_le _, block.ordered⟩), block.total]
  rw [map_ownEntry]
  refine rewardAt_isSome ?_ ?_
  · intro hnil
    have hlength := congrArg List.length hnil
    simp [sortByReward, withRewards, length_ownGas, hne] at hlength
  rw [sortByReward, (hperm.map Prod.fst).sum_eq, hgas, hsum]
  exact targetGas_le _ hp

theorem rewardAt_totalEntry (hgas : block.header.gasUsed ≤ 2 ^ 63) {p : ℚ}
    (hp : p ∈ rewardPercentiles) :
    rewardAt addU64 (fun sumGas => ⌊targetGas block.header.gasUsed p⌋₊ ≤ sumGas) 0
        (block.charges.map Charge.totalEntry) =
      rewardAt (· + ·) (fun sumGas => ⌊targetGas block.header.gasUsed p⌋₊ ≤ sumGas) 0
        (block.charges.map Charge.totalEntry) := by
  refine rewardAt_addU64 (Nat.floor_le_of_le (targetGas_le _ hp)) hgas (by omega) ?_
  intro entry hentry
  rw [map_totalEntry, sortByReward, mem_mergeSort] at hentry
  obtain ⟨receipt, hreceipt, rfl⟩ := mem_map.mp hentry
  have hmem : receipt.1 ∈ block.receipts := fst_mem_of_mem_zipIdx hreceipt
  exact block.le_gasUsed hmem

/-- Where sums of the gas do not wrap, the rewards are those of the transactions' own gas exactly if
there are transactions, and no share of the gas is between the two sums where the reward rises. -/
theorem fairRewards_iff (hgas : block.header.gasUsed ≤ 2 ^ 63) :
    block.FairRewards ↔ block.receipts ≠ [] ∧
      ∀ p ∈ rewardPercentiles, Uncrossed (targetGas block.header.gasUsed p) 0 0 block.charges := by
  simp only [FairRewards, createCacheEntry, forall_const]
  rw [← baseFee, ← map_totalEntry]
  by_cases hne : block.receipts = []
  · refine iff_of_false (fun heq => ?_) fun h => h.1 hne
    have hlength := congrArg List.length heq
    simp [charges, hne, rewardAt, rewardPercentiles] at hlength
  rw [and_iff_right hne]
  rw [filterMap_eq_map_iff_forall_eq_some]
  refine forall₂_congr fun p hp => ?_
  obtain ⟨reward, hreward⟩ := block.rewardAt_ownEntry hne hp
  rw [fairReward, ← map_ownEntry, hreward, rewardAt_totalEntry block hgas hp]
  exact rewardAt_eq_iff (le_refl 0) block.own_le_total (pairwise_mergeSort' _ _) hreward

def transfers (first second : Nat) : MinedBlock :=
  ⟨⟨1, 42000, 30000000, some 0, none, none⟩, [.legacy first, .legacy second], [21000, 42000],
    by decide, rfl⟩

/-- Two transfers, the second for a higher fee. -/
theorem fairRewards_transfers : (transfers 1 2).FairRewards := by
  refine (fairRewards_iff _ (by decide)).mpr ⟨cons_ne_nil _ _, fun p hp => ?_⟩
  have hcharges : (transfers 1 2).charges = [⟨21000, 21000, 1⟩, ⟨21000, 42000, 2⟩] := by
    simp [transfers, charges, ownGas, effectiveReward, baseFee, List.mergeSort]
  have hshare : ∃ i : Nat, targetGas (transfers 1 2).header.gasUsed p = (210 * i : Nat) := by
    obtain ⟨i, -, rfl⟩ := mem_map.mp hp
    refine ⟨i, ?_⟩
    simp only [targetGas, transfers]
    push_cast
    ring
  obtain ⟨i, hshare⟩ := hshare
  rw [hcharges, hshare]
  simp only [Uncrossed, head?_cons, head?_nil, Nat.cast_lt, Nat.floor_natCast,
    Option.mem_def, reduceCtorEq, false_implies, implies_true, and_true]
  omega

/-- Two transfers, the second for a lower fee: all of the gas is reached with the first one, not
with the second, whose running total is all of the gas. -/
theorem not_fairRewards_transfers : ¬ ∀ block : MinedBlock, block.FairRewards := by
  intro hfair
  have hrewards := hfair (transfers 2 1) none
  have hmem : (100 : ℚ) ∈ rewardPercentiles := mem_map.mpr ⟨200, by decide, by norm_num⟩
  have hlast := filterMap_eq_map_iff_forall_eq_some.mp hrewards 100 hmem
  have hsort (gas gas' : Nat) : sortByReward [(gas, 2), (gas', 1)] = [(gas', 1), (gas, 2)] := by
    simp [sortByReward, List.mergeSort]
  simp [transfers, fairReward, withRewards, effectiveReward, baseFee, ownGas, targetGas, hsort,
    rewardAt, addU64] at hlast

end MinedBlock

/-! ## The response -/

inductive BlockNumber where
  | latest | pending | earliest | safe | finalized
  | number (n : U64)

def slotsInAnEpoch : Nat := 32

def maxBlockCount : Nat := 1024

def BlockNumber.resolve (current : U64) : BlockNumber → Nat
  | .latest | .pending => current.toNat
  | .earliest => 0
  | .number n => n.toNat
  | .safe => current.toNat - slotsInAnEpoch
  | .finalized => current.toNat - slotsInAnEpoch * 2

inductive FeeHistoryError where
  | invalidBlockRange

structure FeeHistory where
  oldestBlock : Nat
  baseFeePerGas : List Nat
  gasUsedRatio : List ℚ
  reward : List (List Nat)
  baseFeePerBlobGas : List Nat
  blobGasUsedRatio : List ℚ

/-- What `fee_history` reads, on a chain of its own. -/
structure FeeApi where
  bestNumber : U64
  /-- The base fees in the headers of the blocks up to the best one. -/
  baseFees : Nat → Nat
  history : FeeHistoryService FeeHistoryCacheItem
  /-- The fees that are set for the next block. -/
  baseFee : Nat
  baseFeePerBlobGas : Nat

namespace FeeApi

/-- The reward for a percentile, rounded to an integer; the item has two for each of those. -/
def percentileReward (item : FeeHistoryCacheItem) (p : ℚ) : Nat :=
  item.rewards.getD (2 * ⌊max 0 (min p 100) + 1 / 2⌋₊) 0

def lowest (highest : Nat) (blockCount : U256) : Nat :=
  highest - (min blockCount.toNat maxBlockCount - 1)

def items (api : FeeApi) (lowest highest : Nat) : List FeeHistoryCacheItem :=
  (List.range' lowest (highest + 1 - lowest)).filterMap fun n =>
    api.history.cache.get (BitVec.ofNat 64 n)

/-- The response; `none` if the number of blocks is not a `u64`, where the conversion panics. -/
def feeHistory (api : FeeApi) (blockCount : U256) (newestBlock : BlockNumber)
    (rewardPercentiles : List ℚ) : Option (Except FeeHistoryError FeeHistory) :=
  let highest := newestBlock.resolve api.bestNumber
  let lowest := lowest highest blockCount
  let items := api.items lowest highest
  if 2 ^ 64 ≤ blockCount.toNat then none
  else if lowest < api.bestNumber.toNat - api.history.feeHistoryLimit.toNat then
    some (.error .invalidBlockRange)
  else some (.ok {
    oldestBlock := lowest
    baseFeePerGas := items.map (·.baseFee) ++ [api.baseFee]
    gasUsedRatio := items.map (·.gasUsedRatio)
    reward := if rewardPercentiles = [] then []
      else items.map fun item => rewardPercentiles.map (percentileReward item)
    baseFeePerBlobGas := items.map (·.baseFeePerBlobGas.getD 0) ++ [api.baseFeePerBlobGas]
    blobGasUsedRatio := items.map (·.blobGasUsedRatio) })

def baseFeeAt (api : FeeApi) (n : Nat) : Option Nat :=
  if n ≤ api.bestNumber.toNat then some (api.baseFees n)
  else if n = api.bestNumber.toNat + 1 then some api.baseFee
  else none

/-- A ratio for each block of the range; a fee for each of them and for the next block. -/
structure Complete (api : FeeApi) (highest : Nat) (response : FeeHistory) : Prop where
  next : response.baseFeePerGas.length = response.gasUsedRatio.length + 1
  blocks : response.gasUsedRatio.length = highest + 1 - response.oldestBlock
  fees : response.baseFeePerGas.map some =
    (List.range' response.oldestBlock (highest + 1 - response.oldestBlock + 1)).map api.baseFeeAt

/-- There is no panic, and a response is complete. -/
def Answers (api : FeeApi) (blockCount : U256) (newestBlock : BlockNumber)
    (rewardPercentiles : List ℚ) : Prop :=
  ∃ result, api.feeHistory blockCount newestBlock rewardPercentiles = some result ∧
    ∀ response, result = .ok response → api.Complete (newestBlock.resolve api.bestNumber) response

/-- The fees of the range are in the cache, and the next fee is that of the block behind it. -/
structure Covers (api : FeeApi) (lowest highest : Nat) : Prop where
  cached : ∀ n, lowest ≤ n → n ≤ highest →
    ∃ item, api.history.cache.get (BitVec.ofNat 64 n) = some item ∧
      api.baseFeeAt n = some item.baseFee
  next : api.baseFeeAt (highest + 1) = some api.baseFee

theorem fees_iff {api : FeeApi} {lowest highest : Nat} (h : lowest ≤ highest) :
    ((api.items lowest highest).map (·.baseFee) ++ [api.baseFee]).map some =
      (List.range' lowest (highest + 1 - lowest + 1)).map api.baseFeeAt ↔
        api.Covers lowest highest := by
  have hlast : lowest + (highest + 1 - lowest) = highest + 1 := by omega
  rw [range'_1_concat, map_append, map_append, map_singleton,
    map_singleton, ← concat_eq_append, ← concat_eq_append, concat_inj, hlast,
    map_map, items, map_filterMap, filterMap_eq_map_iff_forall_eq_some]
  constructor
  · rintro ⟨hfees, hnext⟩
    refine ⟨fun n hlow hhigh => ?_, hnext.symm⟩
    obtain ⟨item, hitem, heq⟩ :=
      Option.map_eq_some_iff.mp (hfees n (mem_range'_1.mpr ⟨hlow, by omega⟩))
    exact ⟨item, hitem, heq.symm⟩
  · intro hcovers
    refine ⟨fun n hn => ?_, hcovers.next.symm⟩
    obtain ⟨hlow, hhigh⟩ := mem_range'_1.mp hn
    obtain ⟨item, hitem, heq⟩ := hcovers.cached n hlow (by omega)
    rw [hitem, heq]
    rfl

/-- The response is complete exactly if the number of blocks is a `u64`, and either the range
starts before the history or the cache has its blocks and the next fee belongs behind them. -/
theorem answers_iff (api : FeeApi) (blockCount : U256) (newestBlock : BlockNumber)
    (rewardPercentiles : List ℚ) :
    api.Answers blockCount newestBlock rewardPercentiles ↔
      blockCount.toNat < 2 ^ 64 ∧
        let highest := newestBlock.resolve api.bestNumber
        let lowest := lowest highest blockCount
        lowest < api.bestNumber.toNat - api.history.feeHistoryLimit.toNat ∨
          api.Covers lowest highest := by
  have hle : lowest (newestBlock.resolve api.bestNumber) blockCount ≤
      newestBlock.resolve api.bestNumber := Nat.sub_le _ _
  simp only [Answers, feeHistory]
  split
  · next hcount => exact iff_of_false (fun h => nomatch h.choose_spec.1) fun h => by omega
  · next hcount =>
    rw [and_iff_right (not_le.mp hcount)]
    split
    · next hrange => exact iff_of_true ⟨_, rfl, nofun⟩ (.inl hrange)
    · next hrange =>
      rw [or_iff_right hrange, ← fees_iff hle]
      constructor
      · rintro ⟨_, ⟨⟩, hcomplete⟩
        exact (hcomplete _ rfl).fees
      · intro hfees
        refine ⟨_, rfl, ?_⟩
        rintro _ ⟨⟩
        have hlength := congrArg List.length hfees
        simp only [length_map, length_append, length_singleton,
          length_range', Nat.add_right_cancel_iff] at hlength
        exact ⟨by simp, by rw [length_map, hlength], hfees⟩

/-- More blocks than a `u64` counts. -/
theorem not_answers_many : ¬ ∀ (api : FeeApi) blockCount newestBlock rewardPercentiles,
    api.Answers blockCount newestBlock rewardPercentiles := by
  intro hanswers
  obtain ⟨result, hresult, -⟩ :=
    hanswers ⟨0, fun _ => 0, .new .empty, 0, 0⟩ (BitVec.ofNat 256 (2 ^ 64)) .latest []
  cases hresult

end FeeApi

end Foundry.Anvil
