import Foundry.Base.HashMap
import Foundry.Base.Words

/-!
# The fee history cache

An item per block, for the most recent blocks.  What to evict is read off the number of the
block that is inserted.
-/

namespace Foundry.Anvil

open HashMap

def maxFeeHistoryCacheSize : U64 := 2048

structure FeeHistoryService (Item : Type) where
  cache : HashMap U64 Item
  feeHistoryLimit : U64

namespace FeeHistoryService

variable {Item : Type} {self : FeeHistoryService Item}

def new (cache : HashMap U64 Item) : FeeHistoryService Item := ⟨cache, maxFeeHistoryCacheSize⟩

/-- `cache.remove(&(pop_next - num))`; `none` if the subtraction underflows. -/
def removeBefore (popNext : U64) (cache : HashMap U64 Item) (num : Nat) :
    Option (HashMap U64 Item) :=
  if popNext.toNat < num then none else some (cache.remove (popNext - BitVec.ofNat 64 num))

section

variable (self : FeeHistoryService Item)

def insertCacheEntry (item : Item) : Option U64 → Option (FeeHistoryService Item)
  | none => some self
  | some blockNumber => do
      let cache := self.cache.insert blockNumber item
      let popNext := saturatingSub blockNumber self.feeHistoryLimit
      let numRemove := cache.keys.card - self.feeHistoryLimit.toNat
      let cache ← (List.range numRemove).foldlM (removeBefore popNext) cache
      return { self with cache := cache }

/-! ## One entry -/

/-- No subtraction underflows, the cache is within its limit, and has the new entry. -/
def Bounds (item : Item) (blockNumber : Option U64) : Prop :=
  ∃ next, self.insertCacheEntry item blockNumber = some next ∧
    next.cache.keys.card ≤ self.feeHistoryLimit.toNat ∧
    ∀ number ∈ blockNumber, next.cache.get number = some item

/-- There is room for the block, or the block that is one limit before it is there to be
evicted. -/
def HasRoom (blockNumber : Option U64) : Prop :=
  ∀ number ∈ blockNumber,
    self.cache.keys.card < self.feeHistoryLimit.toNat ∨ number ∈ self.cache.keys ∨
      saturatingSub number self.feeHistoryLimit ∈ self.cache.keys ∧
        saturatingSub number self.feeHistoryLimit ≠ number

instance (blockNumber : Option U64) : Decidable (self.HasRoom blockNumber) :=
  inferInstanceAs (Decidable (∀ number ∈ blockNumber, _ ∨ _ ∨ _ ∧ _))

end

section Entry

variable {self : FeeHistoryService Item} {item : Item} {number : U64}

theorem insertCacheEntry_within
    (h : (self.cache.insert number item).keys.card ≤ self.feeHistoryLimit.toNat) :
    self.insertCacheEntry item (some number) =
      some { self with cache := self.cache.insert number item } := by
  unfold insertCacheEntry
  dsimp only
  rw [Nat.sub_eq_zero_of_le h]
  rfl

theorem insertCacheEntry_beyond
    (h : (self.cache.insert number item).keys.card = self.feeHistoryLimit.toNat + 1) :
    self.insertCacheEntry item (some number) =
      some ⟨(self.cache.insert number item).remove (saturatingSub number self.feeHistoryLimit),
        self.feeHistoryLimit⟩ := by
  unfold insertCacheEntry
  dsimp only
  rw [h]
  simp [removeBefore]

theorem feeHistoryLimit_insertCacheEntry {blockNumber : Option U64}
    {next : FeeHistoryService Item} (h : self.insertCacheEntry item blockNumber = some next) :
    next.feeHistoryLimit = self.feeHistoryLimit := by
  cases blockNumber with
  | none =>
    cases h
    rfl
  | some number =>
    obtain ⟨cache, _, hnext⟩ := Option.bind_eq_some_iff.mp h
    cases hnext
    rfl

/-- In a full cache, one entry has to go, and not the new one. -/
theorem bounds_iff_of_full (h : self.cache.keys.card = self.feeHistoryLimit.toNat)
    (hfresh : number ∉ self.cache.keys) (item : Item) :
    self.Bounds item (some number) ↔
      saturatingSub number self.feeHistoryLimit ∈ self.cache.keys ∧
        saturatingSub number self.feeHistoryLimit ≠ number := by
  have hcard : (self.cache.insert number item).keys.card = self.feeHistoryLimit.toNat + 1 := by
    rw [keys_insert, Finset.card_insert_of_notMem hfresh, h]
  unfold Bounds
  rw [insertCacheEntry_beyond hcard]
  constructor
  · rintro ⟨_, ⟨⟩, hle, hget⟩
    have hne : saturatingSub number self.feeHistoryLimit ≠ number := by
      intro heq
      have hnew := hget number rfl
      rw [heq, get_remove_self] at hnew
      cases hnew
    refine ⟨?_, hne⟩
    by_contra hnot
    rw [keys_remove, keys_insert, Finset.erase_eq_of_notMem,
      Finset.card_insert_of_notMem hfresh] at hle
    · omega
    · rw [Finset.mem_insert]
      exact fun hmem => hmem.elim hne hnot
  · intro ⟨hmem, hne⟩
    refine ⟨_, rfl, ?_, ?_⟩
    · rw [keys_remove, Finset.card_erase_of_mem, hcard]
      · exact Nat.le_refl _
      · rw [keys_insert]
        exact Finset.mem_insert_of_mem hmem
    · rintro _ ⟨⟩
      rw [get_remove_of_ne _ hne.symm, get_insert_self]

theorem bounds_iff (h : self.cache.keys.card ≤ self.feeHistoryLimit.toNat) (item : Item)
    (blockNumber : Option U64) : self.Bounds item blockNumber ↔ self.HasRoom blockNumber := by
  cases blockNumber with
  | none => exact ⟨fun _ => nofun, fun _ => ⟨self, rfl, h, nofun⟩⟩
  | some number =>
    have hforall : self.HasRoom (some number) ↔
        self.cache.keys.card < self.feeHistoryLimit.toNat ∨ number ∈ self.cache.keys ∨
          saturatingSub number self.feeHistoryLimit ∈ self.cache.keys ∧
            saturatingSub number self.feeHistoryLimit ≠ number := by
      unfold HasRoom
      simp only [Option.mem_some_iff, forall_eq']
    rw [hforall]
    by_cases hroom : self.cache.keys.card < self.feeHistoryLimit.toNat ∨ number ∈ self.cache.keys
    · have hcard : (self.cache.insert number item).keys.card ≤ self.feeHistoryLimit.toNat := by
        rw [keys_insert, Finset.card_insert_eq_ite]
        split
        · exact h
        · next hnot => exact hroom.resolve_right hnot
      refine iff_of_true ⟨_, insertCacheEntry_within hcard, hcard, ?_⟩ ?_
      · rintro _ ⟨⟩
        exact get_insert_self _ _ _
      · exact hroom.imp_right Or.inl
    · rw [not_or, Nat.not_lt] at hroom
      rw [bounds_iff_of_full (Nat.le_antisymm h hroom.1) hroom.2]
      constructor
      · exact fun hevicts => .inr (.inr hevicts)
      · intro hcases
        exact (hcases.resolve_left (Nat.not_lt.mpr hroom.1)).resolve_left hroom.2

end Entry

/-! ## Runs -/

/-- `P` holds at every entry of a run. -/
def EveryEntry (P : FeeHistoryService Item → Item → Option U64 → Prop) :
    FeeHistoryService Item → List (Item × Option U64) → Prop
  | _, [] => True
  | self, (item, blockNumber) :: entries =>
    P self item blockNumber ∧
      ∀ next ∈ self.insertCacheEntry item blockNumber, EveryEntry P next entries

theorem everyEntry_iff (h : self.cache.keys.card ≤ self.feeHistoryLimit.toNat)
    (entries : List (Item × Option U64)) :
    EveryEntry Bounds self entries ↔
      EveryEntry (fun self _ blockNumber => self.HasRoom blockNumber) self entries := by
  induction entries generalizing self with
  | nil => exact Iff.rfl
  | cons entry entries ih =>
    obtain ⟨item, blockNumber⟩ := entry
    unfold EveryEntry
    rw [← bounds_iff h item blockNumber]
    refine and_congr_right fun hbounds => forall_congr' fun next => forall_congr' fun hnext => ?_
    obtain ⟨next', hnext', hcard, _⟩ := hbounds
    cases hnext.symm.trans hnext'
    rw [← feeHistoryLimit_insertCacheEntry hnext] at hcard
    exact ih hcard

/-- From the empty cache, every entry keeps the bound just if every entry finds room. -/
theorem everyEntry_bounds_iff (limit : U64) (entries : List (Item × Option U64)) :
    EveryEntry Bounds ⟨.empty, limit⟩ entries ↔
      EveryEntry (fun self _ blockNumber => self.HasRoom blockNumber) ⟨.empty, limit⟩ entries :=
  everyEntry_iff (Nat.zero_le _) entries

/-- The blocks of a fork fill the cache, and then one comes without the block that is to be
evicted for it. -/
theorem not_everyEntry_of_full (k : Nat) {cache : HashMap U64 Unit} {i : Nat} (hfull : i + k = 2048)
    (hcard : cache.keys.card = i)
    (hkeys : ∀ n ∈ cache.keys, 1000000 ≤ n.toNat ∧ n.toNat < 1000000 + i) :
    ¬ EveryEntry (fun self _ blockNumber => self.HasRoom blockNumber) ⟨cache, 2048⟩
      (((List.range' i k).map (fun i => BitVec.ofNat 64 (1000000 + i)) ++ [1]).map
        fun n => ((), some n)) := by
  induction k generalizing cache i with
  | zero =>
    intro ⟨hroom, _⟩
    rcases hroom 1 rfl with hlt | hmem | ⟨hmem, _⟩
    · change cache.keys.card < 2048 at hlt
      omega
    · exact absurd (hkeys 1 hmem).1 (by decide)
    · exact absurd (hkeys (saturatingSub 1 2048) hmem).1 (by decide)
  | succ k ih =>
    intro ⟨_, hrest⟩
    have hnat : (BitVec.ofNat 64 (1000000 + i)).toNat = 1000000 + i := by
      rw [BitVec.toNat_ofNat]
      omega
    have hnew : BitVec.ofNat 64 (1000000 + i) ∉ cache.keys := by
      intro hmem
      have := hkeys _ hmem
      omega
    have hnext : (cache.insert (BitVec.ofNat 64 (1000000 + i)) ()).keys.card = i + 1 := by
      rw [keys_insert, Finset.card_insert_of_notMem hnew, hcard]
    have hle : i + 1 ≤ 2048 := by omega
    have hrest := hrest ⟨cache.insert (BitVec.ofNat 64 (1000000 + i)) (), 2048⟩
      (insertCacheEntry_within (by rwa [hnext]))
    refine ih (by omega) hnext ?_ hrest
    intro n hmem
    rw [keys_insert, Finset.mem_insert] at hmem
    rcases hmem with rfl | hmem
    · omega
    · have := hkeys n hmem
      omega

/-- 2048 blocks of a fork, and then the first block of a new chain. -/
theorem entries_exceed_after_reset :
    ¬ EveryEntry Bounds (new (.empty : HashMap U64 Unit))
      (((List.range 2048).map (fun i => BitVec.ofNat 64 (1000000 + i)) ++ [1]).map
        fun n => ((), some n)) := by
  rw [everyEntry_iff (Nat.zero_le _), List.range_eq_range']
  refine not_everyEntry_of_full 2048 (Nat.zero_add _) rfl ?_
  exact fun n hmem => absurd hmem (Finset.notMem_empty n)

end FeeHistoryService

end Foundry.Anvil
