import Foundry.Anvil.Mem.Mining

/-!
# Unwinding the chain

Closed forms of the two loops that take blocks off the chain, and the exact condition
under which they agree.  `unwind_to` looks a removed block's transactions up through the
number in its header, after the number it has just processed is gone from the map.
-/

namespace Foundry.Anvil.Mem

open List HashMap Option

namespace BlockchainStorage

variable {s : BlockchainStorage} {i : U64}

def listedAt (s : BlockchainStorage) (i : U64) : List B256 := (s.hashes.get i).elim [] s.listed

theorem mem_listedAt {t : B256} :
    t ∈ s.listedAt i ↔ ∃ hash, s.hashes.get i = some hash ∧ t ∈ s.listed hash := by
  unfold listedAt
  cases s.hashes.get i <;> simp

theorem mem_listedAt_iff_blockAt {t : B256} :
    t ∈ s.listedAt i ↔ ∃ b, s.blockAt i = some b ∧ t ∈ b.transactions := by
  unfold listedAt blockAt
  cases s.hashes.get i with
  | none => simp
  | some hash => exact mem_listed

theorem filed_remove_iff {hashes : HashMap U64 B256} {L : List U64} {k : B256}
    (hi : hashes.get i ≠ some k) :
    (∃ n ∈ L, (hashes.remove i).get n = some k) ↔ ∃ n ∈ i :: L, hashes.get n = some k := by
  simp only [get_remove_eq_some, exists_mem_cons_iff, hi, false_or]
  refine exists_congr fun n => and_congr_right fun _ => and_iff_left_of_imp fun hk hn => ?_
  exact hi (hn ▸ hk)

/-- A loop that takes the numbers off the map one by one. -/
theorem hashes_foldl {step : BlockchainStorage → U64 → BlockchainStorage}
    (hstep : ∀ s i, (step s i).hashes = s.hashes.remove i) (L : List U64) (s : BlockchainStorage)
    (n : U64) : (L.foldl step s).hashes.get n = if n ∈ L then none else s.hashes.get n := by
  induction L generalizing s with
  | nil => simp
  | cons i L ih =>
    rw [foldl_cons, ih, hstep, get_remove]
    by_cases hn : n = i
    · simp [hn]
    · simp [hn]

/-! ## The loop of a snapshot revert -/

variable {i : U64} {L : List U64} {k t : B256}

section

variable (s) (i : U64)

theorem hashes_revertStep : (s.revertStep i).hashes = s.hashes.remove i := by
  unfold revertStep
  cases hi : s.hashes.get i with
  | none => exact (remove_of_get_none hi).symm
  | some hash =>
    dsimp only
    cases s.blocks.get hash <;> rfl

theorem blocks_revertStep (k : B256) : (s.revertStep i).blocks.get k =
      if s.hashes.get i = some k then none else s.blocks.get k := by
  unfold revertStep
  cases hi : s.hashes.get i with
  | none => simp
  | some hash =>
    simp only [Option.some.injEq]
    cases hb : s.blocks.get hash with
    | none =>
      dsimp only
      split
      · next hk => rw [← hk, hb]
      · rfl
    | some b => simp only [get_remove, eq_comm]

theorem transactions_revertStep (t : B256) : (s.revertStep i).transactions.get t =
      if t ∈ s.listedAt i then none else s.transactions.get t := by
  unfold revertStep listedAt
  cases s.hashes.get i with
  | none => simp
  | some hash =>
    cases hb : s.blocks.get hash with
    | none => simp [listed, hb]
    | some b => simp [listed, hb, get_foldl_remove]

end

theorem mem_listedAt_revertStep {n : U64} :
    t ∈ s.listedAt i ∨ t ∈ (s.revertStep i).listedAt n ↔ t ∈ s.listedAt i ∨ t ∈ s.listedAt n := by
  by_cases hi : t ∈ s.listedAt i
  · simp [hi]
  rw [or_iff_right hi, or_iff_right hi]
  simp only [mem_listedAt, mem_listed, hashes_revertStep, get_remove_eq_some,
    blocks_revertStep, ite_eq_iff, reduceCtorEq, and_false, false_or] at hi ⊢
  refine exists_congr fun hash => ?_
  constructor
  · intro ⟨⟨hn, _⟩, b, ⟨_, hb⟩, ht⟩
    exact ⟨hn, b, hb, ht⟩
  · intro ⟨hn, b, hb, ht⟩
    have hne : s.hashes.get i ≠ some hash := fun h => hi ⟨hash, h, b, hb, ht⟩
    exact ⟨⟨hn, fun hni => hne (hni ▸ hn)⟩, b, ⟨hne, hb⟩, ht⟩

section

variable (s) (L : List U64)

theorem blocks_revertLoop (k : B256) : (L.foldl revertStep s).blocks.get k =
      if ∃ n ∈ L, s.hashes.get n = some k then none else s.blocks.get k := by
  induction L generalizing s with
  | nil => simp
  | cons i L ih =>
    rw [foldl_cons, ih, blocks_revertStep, hashes_revertStep]
    by_cases hi : s.hashes.get i = some k
    · have hex : ∃ n ∈ i :: L, s.hashes.get n = some k := ⟨i, mem_cons_self, hi⟩
      split <;> rfl
    · rw [if_neg hi]
      simp only [filed_remove_iff hi]

theorem transactions_revertLoop (t : B256) :
    (L.foldl revertStep s).transactions.get t =
      if ∃ n ∈ L, t ∈ s.listedAt n then none else s.transactions.get t := by
  induction L generalizing s with
  | nil => simp
  | cons i L ih =>
    rw [foldl_cons, ih, transactions_revertStep]
    by_cases hi : t ∈ s.listedAt i
    · have hex : ∃ n ∈ i :: L, t ∈ s.listedAt n := ⟨i, mem_cons_self, hi⟩
      split <;> rfl
    have hsame : ∀ n, t ∈ (s.revertStep i).listedAt n ↔ t ∈ s.listedAt n := by
      intro n
      have hor := @mem_listedAt_revertStep s i t n
      rwa [or_iff_right hi, or_iff_right hi] at hor
    rw [if_neg hi]
    simp only [hsame, exists_mem_cons_iff, hi, false_or]

/-! ## The loop of `unwind_to` -/

def numberAt (i : U64) : Option U64 := (s.blockAt i).map fun b => b.header.number

/-- The hash through which `unwind_to` reaches the transactions it drops for block `i`. -/
def named (i : U64) : Option B256 := (s.numberAt i).bind (s.hashes.remove i).get

def unwindBlock (i : U64) : BlockchainStorage := (unwindStep (s, []) i).1

private theorem unwindStep_fst (removed : List Block) (i : U64) :
    (unwindStep (s, removed) i).1 = s.unwindBlock i := by
  dsimp only [unwindBlock, unwindStep]
  cases s.hashes.get i with
  | none => rfl
  | some hash =>
    dsimp only
    cases s.blocks.get hash <;> rfl

private theorem unwindLoop_fst (s : BlockchainStorage) (removed : List Block) :
    (L.foldl unwindStep (s, removed)).1 = L.foldl unwindBlock s := by
  induction L generalizing s removed with
  | nil => rfl
  | cons i L ih =>
    rw [foldl_cons, foldl_cons, ← unwindStep_fst s removed i]
    exact ih _ _

/-- The storage when the block under `i` is removed and its transactions are not. -/
def withoutBlock (s : BlockchainStorage) (i : U64) (hash : B256) : BlockchainStorage :=
  { s with hashes := s.hashes.remove i, blocks := s.blocks.remove hash }

theorem unwindBlock_eq (s : BlockchainStorage) (i : U64) :
    s.unwindBlock i =
      match s.hashes.get i with
      | none => s
      | some hash =>
        match s.named i with
        | none => s.withoutBlock i hash
        | some k => (s.withoutBlock i hash).removeBlockTransactions k := by
  dsimp only [unwindBlock, unwindStep, named, numberAt, blockAt]
  cases hi : s.hashes.get i with
  | none => rfl
  | some hash =>
    dsimp only [bind_some]
    cases hb : s.blocks.get hash with
    | none =>
      have hsame := remove_of_get_none hb
      simp only [map_none, bind_none, withoutBlock, hsame]
    | some b =>
      cases (s.hashes.remove i).get b.header.number <;> rfl

theorem hashes_unwindBlock (i : U64) : (s.unwindBlock i).hashes = s.hashes.remove i := by
  rw [unwindBlock_eq]
  cases hi : s.hashes.get i with
  | none => exact (remove_of_get_none hi).symm
  | some hash =>
    cases s.named i with
    | none => rfl
    | some k => exact hashes_removeBlockTransactions _ k

end

private theorem named_get (h : s.named i = some k) :
    ∃ n, s.numberAt i = some n ∧ n ≠ i ∧ s.hashes.get n = some k := by
  obtain ⟨n, hn, hk⟩ := bind_eq_some_iff.mp h
  obtain ⟨hk, hne⟩ := get_remove_eq_some.mp hk
  exact ⟨n, hn, hne, hk⟩

def FiledOnce (s : BlockchainStorage) : Prop :=
  ∀ i j hash, s.hashes.get i = some hash → s.hashes.get j = some hash → i = j

theorem named_ne (honce : s.FiledOnce) (h : s.named i = some k) : s.hashes.get i ≠ some k := by
  intro hi
  obtain ⟨n, _, hne, hk⟩ := named_get h
  exact hne (honce n i k hk hi)

theorem named_none_of_get_none (h : s.hashes.get i = none) : s.named i = none := by
  unfold named numberAt blockAt
  rw [h]
  rfl

section

variable (honce : s.FiledOnce)

include honce

theorem blocks_unwindBlock (i : U64) (k : B256) : (s.unwindBlock i).blocks.get k =
      if s.hashes.get i = some k then none
      else if s.named i = some k then (s.blocks.get k).map Block.cleared
      else s.blocks.get k := by
  rw [unwindBlock_eq]
  cases hi : s.hashes.get i with
  | none =>
    rw [named_none_of_get_none hi]
    simp
  | some hash =>
    have hremove : (s.withoutBlock i hash).blocks.get k =
        if some hash = some k then none else s.blocks.get k := by
      unfold withoutBlock
      rw [get_remove]
      simp only [Option.some.injEq, eq_comm]
    cases hnamed : s.named i with
    | none =>
      rw [hremove]
      simp
    | some k' =>
      have hne := named_ne honce hnamed
      rw [hi] at hne
      rw [blocks_removeBlockTransactions, hremove]
      by_cases hk : k = k'
      · rw [hk, if_pos rfl, if_neg hne, if_pos rfl, if_neg hne]
      · have hk' : ¬ some k' = some k := fun h => hk (Option.some.inj h).symm
        rw [if_neg hk, if_neg hk']

theorem transactions_unwindBlock (i : U64) (t : B256) : (s.unwindBlock i).transactions.get t =
      if t ∈ (s.named i).elim [] s.listed then none else s.transactions.get t := by
  rw [unwindBlock_eq]
  cases hi : s.hashes.get i with
  | none =>
    rw [named_none_of_get_none hi]
    simp
  | some hash =>
    cases hnamed : s.named i with
    | none =>
      unfold withoutBlock
      simp
    | some k =>
      have hne := named_ne honce hnamed
      have hlisted : (s.withoutBlock i hash).listed k = s.listed k := by
        unfold withoutBlock listed
        rw [get_remove_of_ne]
        intro h
        rw [hi, h] at hne
        exact hne rfl
      rw [elim_some, ← hlisted]
      exact transactions_removeBlockTransactions _ k t

private theorem listed_unwindBlock (ht : t ∈ (s.unwindBlock i).listed k) : t ∈ s.listed k := by
  obtain ⟨b, hb, ht⟩ := mem_listed.mp ht
  rw [blocks_unwindBlock honce] at hb
  split at hb
  · cases hb
  · split at hb
    · obtain ⟨b', _, hb'⟩ := map_eq_some_iff.mp hb
      rw [← hb'] at ht
      cases ht
    · exact mem_listed.mpr ⟨b, hb, ht⟩

theorem filedOnce_unwindBlock (i : U64) : (s.unwindBlock i).FiledOnce := by
  intro a b hash ha hb
  rw [hashes_unwindBlock, get_remove_eq_some] at ha hb
  exact honce a b hash ha.1 hb.1

private theorem numberAt_unwindBlock {j : U64} (hne : j ≠ i) :
    (s.unwindBlock i).numberAt j = s.numberAt j := by
  unfold numberAt blockAt
  rw [hashes_unwindBlock, get_remove_of_ne _ hne]
  cases hj : s.hashes.get j with
  | none => rfl
  | some hash =>
    rw [bind_some, blocks_unwindBlock honce, if_neg]
    · split
      · rw [Option.map_map]
        rfl
      · rfl
    · intro hi
      exact hne (honce j i hash hj hi)

end

/-- The hashes of the blocks that the loop over `L` clears. -/
def clearedBy (numberAt : U64 → Option U64) : HashMap U64 B256 → List U64 → List B256
  | _, [] => []
  | hashes, i :: L =>
    ((numberAt i).bind (hashes.remove i).get).toList ++ clearedBy numberAt (hashes.remove i) L

theorem mem_clearedBy_cons :
    k ∈ clearedBy s.numberAt s.hashes (i :: L) ↔
      s.named i = some k ∨ k ∈ clearedBy s.numberAt (s.hashes.remove i) L := by
  rw [clearedBy, mem_append, mem_toList]
  rfl

theorem numberAt_later (hinc : (i :: L).Pairwise (· < ·)) (honce : s.FiledOnce) :
    ∀ j ∈ L, (s.unwindBlock i).numberAt j = s.numberAt j := by
  intro j hj
  apply numberAt_unwindBlock honce
  intro heq
  rw [heq] at hj
  exact BitVec.lt_irrefl i ((pairwise_cons.mp hinc).1 i hj)

theorem clearedBy_congr {numberAt numberAt' : U64 → Option U64}
    (h : ∀ j ∈ L, numberAt j = numberAt' j) (hashes : HashMap U64 B256) :
    clearedBy numberAt hashes L = clearedBy numberAt' hashes L := by
  induction L generalizing hashes with
  | nil => rfl
  | cons i L ih =>
    rw [clearedBy, h i mem_cons_self]
    congr 1
    exact ih (fun j hj => h j (mem_cons_of_mem i hj)) _

/-- A block is cleared when the header of an unwound block has its number, unless that
number is processed before. -/
theorem mem_clearedBy {numberAt : U64 → Option U64} (hinc : L.Pairwise (· < ·))
    {hashes : HashMap U64 B256} :
    k ∈ clearedBy numberAt hashes L ↔ ∃ i ∈ L, ∃ n, numberAt i = some n ∧
      hashes.get n = some k ∧ (n ∈ L → i < n) := by
  induction L generalizing hashes with
  | nil => simp [clearedBy]
  | cons i L ih =>
    obtain ⟨hlt, hinc⟩ := pairwise_cons.mp hinc
    rw [clearedBy, mem_append, ih hinc, mem_toList, bind_eq_some_iff]
    simp only [get_remove_eq_some]
    constructor
    · rintro (⟨n, hn, hk, hne⟩ | ⟨j, hj, n, hn, ⟨hk, hne⟩, hlater⟩)
      · refine ⟨i, mem_cons_self, n, hn, hk, fun hmem => ?_⟩
        exact hlt n ((mem_cons.mp hmem).resolve_left hne)
      · refine ⟨j, mem_cons_of_mem i hj, n, hn, hk, fun hmem => ?_⟩
        exact hlater ((mem_cons.mp hmem).resolve_left hne)
    · intro ⟨j, hj, n, hn, hk, hlater⟩
      have hne : ¬ j < i → n ≠ i := by
        rintro hle rfl
        exact hle (hlater mem_cons_self)
      rcases mem_cons.mp hj with rfl | hj
      · exact .inl ⟨n, hn, hk, hne (BitVec.lt_irrefl j)⟩
      · refine .inr ⟨j, hj, n, hn, ⟨hk, hne (BitVec.lt_asymm (hlt j hj))⟩, fun hmem => ?_⟩
        exact hlater (mem_cons_of_mem i hmem)

theorem blocks_unwindLoop (hinc : L.Pairwise (· < ·)) (honce : s.FiledOnce) (k : B256) :
    (L.foldl unwindBlock s).blocks.get k =
      if ∃ n ∈ L, s.hashes.get n = some k then none
      else if k ∈ clearedBy s.numberAt s.hashes L then (s.blocks.get k).map Block.cleared
      else s.blocks.get k := by
  induction L generalizing s with
  | nil => simp [clearedBy]
  | cons i L ih =>
    rw [foldl_cons, ih (pairwise_cons.mp hinc).2 (filedOnce_unwindBlock honce i),
      clearedBy_congr (numberAt_later hinc honce), hashes_unwindBlock, blocks_unwindBlock honce]
    by_cases hi : s.hashes.get i = some k
    · have hex : ∃ n ∈ i :: L, s.hashes.get n = some k := ⟨i, mem_cons_self, hi⟩
      rw [if_pos hi, if_pos hex]
      simp
    · rw [if_neg hi]
      simp only [filed_remove_iff hi, mem_clearedBy_cons]
      by_cases hnamed : s.named i = some k
      · simp only [hnamed, if_true, true_or, map_cleared_cleared, ite_self]
      · simp [hnamed]

/-- A transaction is gone just if a cleared block lists it. -/
theorem transactions_unwindLoop (hinc : L.Pairwise (· < ·)) (honce : s.FiledOnce) (t : B256) :
    (L.foldl unwindBlock s).transactions.get t =
      if ∃ k ∈ clearedBy s.numberAt s.hashes L, t ∈ s.listed k then none
      else s.transactions.get t := by
  induction L generalizing s with
  | nil => simp [clearedBy]
  | cons i L ih =>
    rw [foldl_cons, ih (pairwise_cons.mp hinc).2 (filedOnce_unwindBlock honce i),
      clearedBy_congr (numberAt_later hinc honce), hashes_unwindBlock,
      transactions_unwindBlock honce]
    by_cases hi : ∃ k, s.named i = some k ∧ t ∈ s.listed k
    · obtain ⟨k, hk, ht⟩ := hi
      have hex : ∃ k ∈ clearedBy s.numberAt s.hashes (i :: L), t ∈ s.listed k :=
        ⟨k, mem_clearedBy_cons.mpr (.inl hk), ht⟩
      rw [hk, elim_some]
      split <;> rfl
    have hnot : t ∉ (s.named i).elim [] s.listed := by
      cases hk : s.named i with
      | none => simp
      | some k => exact fun ht => hi ⟨k, hk, ht⟩
    rw [if_neg hnot]
    have hiff : (∃ k ∈ clearedBy s.numberAt (s.hashes.remove i) L,
        t ∈ (s.unwindBlock i).listed k) ↔
          ∃ k ∈ clearedBy s.numberAt s.hashes (i :: L), t ∈ s.listed k := by
      constructor
      · intro ⟨k, hk, ht⟩
        exact ⟨k, mem_clearedBy_cons.mpr (.inr hk), listed_unwindBlock honce ht⟩
      · intro ⟨k, hk, ht⟩
        rcases mem_clearedBy_cons.mp hk with hk | hk
        · exact absurd ⟨k, hk, ht⟩ hi
        obtain ⟨_, _, n, _, hget, _⟩ :=
          (mem_clearedBy (pairwise_cons.mp hinc).2).mp hk
        obtain ⟨hget, hne⟩ := get_remove_eq_some.mp hget
        refine ⟨k, hk, ?_⟩
        rw [mem_listed, blocks_unwindBlock honce, if_neg, if_neg]
        · exact mem_listed.mp ht
        · exact fun h => hi ⟨k, h, ht⟩
        · exact fun h => hne (honce n i k hget h)
    simp only [hiff]

/-! ## Agreement -/

/-- The condition under which `unwind_to` is right, `num` being the block that stays. -/
structure UnwindsCleanly (s : BlockchainStorage) (num : U64) : Prop where
  /-- A block that stays has no transactions if its number is in the header of a block that
  goes. -/
  kept : ∀ i b b', num < i → i ≤ s.bestNumber → s.blockAt i = some b →
    b.header.number ≤ num → s.blockAt b.header.number = some b' → b'.transactions = []
  /-- An indexed transaction of a block that goes is listed by a block whose number is in
  the header of a lower block that goes. -/
  dropped : ∀ i b t, num < i → i ≤ s.bestNumber → s.blockAt i = some b → t ∈ b.transactions →
    s.transactions.get t ≠ none → ∃ j b₁ b₂, num < j ∧ s.blockAt j = some b₁ ∧
      j < b₁.header.number ∧ s.blockAt b₁.header.number = some b₂ ∧ t ∈ b₂.transactions

/-- The chain is unwound from `before` to `after`, where a snapshot revert ends in
`reverted`. -/
structure Unwinds (before after reverted : BlockchainStorage) (num : U64) : Prop where
  hashes : after.hashes = reverted.hashes
  blocks : after.blocks = reverted.blocks
  transactions : after.transactions = reverted.transactions
  bestNumber : after.bestNumber = reverted.bestNumber
  bestHash : after.bestHash = reverted.bestHash
  indexed : after.Indexed
  gone : ∀ i b t, num < i → i ≤ before.bestNumber → before.blockAt i = some b →
    t ∈ b.transactions → after.transactions.get t = none

section Agreement

variable {num : U64} {hash : B256}

theorem blockAt_eq_some {b : Block} :
    s.blockAt i = some b ↔ ∃ k, s.hashes.get i = some k ∧ s.blocks.get k = some b :=
  bind_eq_some_iff

def unwindRange (s : BlockchainStorage) (num : U64) : List U64 :=
  rangeInclusive (num + 1) s.bestNumber

theorem mem_unwindRange {bound : U64} (hlt : num < bound) :
    i ∈ s.unwindRange num ↔ num < i ∧ i ≤ s.bestNumber := by
  unfold unwindRange
  rw [mem_rangeInclusive, BitVec.le_def, toNat_add_one_of_lt hlt]
  exact Iff.rfl

theorem not_mem_unwindRange {bound n : U64} (hlt : num < bound) (hle : n ≤ s.bestNumber) :
    n ∉ s.unwindRange num ↔ n ≤ num := by
  rw [mem_unwindRange hlt, BitVec.le_def, BitVec.lt_def]
  rw [BitVec.le_def] at hle ⊢
  omega

def clearedTo (s : BlockchainStorage) (num : U64) : List B256 :=
  clearedBy s.numberAt s.hashes (s.unwindRange num)

theorem mem_clearedTo :
    k ∈ s.clearedTo num ↔ ∃ i ∈ s.unwindRange num, ∃ b, s.blockAt i = some b ∧
      s.hashes.get b.header.number = some k ∧
        (b.header.number ∈ s.unwindRange num → i < b.header.number) := by
  have hinc : (s.unwindRange num).Pairwise (· < ·) := rangeInclusive_increasing _ _
  rw [clearedTo, mem_clearedBy hinc]
  simp only [numberAt, map_eq_some_iff, exists_exists_and_eq_and]

theorem unwindTo_fst :
    (s.unwindTo num hash).1 =
      { (s.unwindRange num).foldl unwindBlock s with bestHash := hash, bestNumber := num } := by
  rw [← unwindLoop_fst _ s []]
  rfl

theorem hashes_revertTo (n : U64) :
    (s.revertTo num hash).hashes.get n =
      if n ∈ s.unwindRange num then none else s.hashes.get n := by
  have hloop := hashes_foldl hashes_revertStep (s.unwindRange num).reverse s n
  simp only [mem_reverse] at hloop
  exact hloop

theorem blocks_unwindTo (hs : s.StorageInv) (k : B256) :
    (s.unwindTo num hash).1.blocks.get k =
      if ∃ n ∈ s.unwindRange num, s.hashes.get n = some k then none
      else if k ∈ s.clearedTo num then (s.blocks.get k).map Block.cleared
      else s.blocks.get k := by
  rw [unwindTo_fst]
  exact blocks_unwindLoop (rangeInclusive_increasing _ _) (fun _ _ _ => hs.filed_once) k

theorem blocks_revertTo (k : B256) :
    (s.revertTo num hash).blocks.get k =
      if ∃ n ∈ s.unwindRange num, s.hashes.get n = some k then none else s.blocks.get k := by
  have hloop := blocks_revertLoop s (s.unwindRange num).reverse k
  simp only [mem_reverse] at hloop
  exact hloop

theorem transactions_unwindTo (hs : s.StorageInv) (t : B256) :
    (s.unwindTo num hash).1.transactions.get t =
      if ∃ k ∈ s.clearedTo num, t ∈ s.listed k then none else s.transactions.get t := by
  rw [unwindTo_fst]
  exact transactions_unwindLoop (rangeInclusive_increasing _ _) (fun _ _ _ => hs.filed_once) t

theorem transactions_revertTo (t : B256) :
    (s.revertTo num hash).transactions.get t =
      if ∃ n ∈ s.unwindRange num, t ∈ s.listedAt n then none else s.transactions.get t := by
  have hloop := transactions_revertLoop s (s.unwindRange num).reverse t
  simp only [mem_reverse] at hloop
  exact hloop

theorem revertTo_indexed (hs : s.Indexed) : (s.revertTo num hash).Indexed := by
  intro t m ht
  rw [transactions_revertTo] at ht
  split at ht
  · cases ht
  · next hnot =>
    have hmem := hs t m ht
    rw [mem_listed, blocks_revertTo, if_neg]
    · exact mem_listed.mp hmem
    · intro ⟨n, hn, hk⟩
      exact hnot ⟨n, hn, mem_listedAt.mpr ⟨_, hk, hmem⟩⟩

theorem revertTo_inv (hs : s.StorageInv) : (s.revertTo num hash).StorageInv := by
  have hkept : ∀ {i k}, (s.revertTo num hash).hashes.get i = some k →
      i ∉ s.unwindRange num ∧ s.hashes.get i = some k := by
    simp [hashes_revertTo]
  constructor
  · intro i j k hi hj
    exact hs.filed_once (hkept hi).2 (hkept hj).2
  · intro i k hi
    have hle := hs.filed_le (hkept hi).2
    show i ≤ num
    by_contra hgt
    exact (hkept hi).1 (mem_rangeInclusive.mpr ⟨by bv_omega, hle⟩)
  · exact revertTo_indexed hs.indexed

section

variable (hs : s.StorageInv) (hlt : num < s.bestNumber)

include hs hlt

section

variable (hclean : s.UnwindsCleanly num)

include hclean

theorem cleared_kept
    (hk : k ∈ s.clearedTo num) (hnot : ¬ ∃ n ∈ s.unwindRange num, s.hashes.get n = some k)
    {b : Block} (hb : s.blocks.get k = some b) : b.transactions = [] := by
  obtain ⟨i, hi, b₁, hb₁, hget, _⟩ := mem_clearedTo.mp hk
  obtain ⟨hnum, hbest⟩ := (mem_unwindRange hlt).mp hi
  have hle := (not_mem_unwindRange hlt (hs.filed_le hget)).mp fun hn => hnot ⟨_, hn, hget⟩
  exact hclean.kept i b₁ b hnum hbest hb₁ hle (blockAt_eq_some.mpr ⟨k, hget, hb⟩)

theorem blocks_eq_of_clean : (s.unwindTo num hash).1.blocks = (s.revertTo num hash).blocks := by
  apply HashMap.ext
  intro k
  rw [blocks_unwindTo hs, blocks_revertTo]
  by_cases hgone : ∃ n ∈ s.unwindRange num, s.hashes.get n = some k
  · rw [if_pos hgone, if_pos hgone]
  rw [if_neg hgone]
  split
  · next hk =>
    cases hb : s.blocks.get k with
    | none => rfl
    | some b =>
      have hempty := cleared_kept hs hlt hclean hk hgone hb
      cases b with
      | mk header transactions =>
        rw [map_some, Block.cleared]
        rw [show transactions = [] from hempty]
  · rfl

/-- Under the condition, an indexed transaction is listed by a cleared block if and only if
a block that goes lists it. -/
theorem cleared_iff_gone (ht : s.transactions.get t ≠ none) :
    (∃ k ∈ s.clearedTo num, t ∈ s.listed k) ↔ ∃ n ∈ s.unwindRange num, t ∈ s.listedAt n := by
  constructor
  · intro ⟨k, hk, hlist⟩
    by_contra hnot
    obtain ⟨b, hb, htb⟩ := mem_listed.mp hlist
    have hempty := cleared_kept hs hlt hclean hk
      (fun ⟨n, hn, hget⟩ => hnot ⟨n, hn, mem_listedAt.mpr ⟨k, hget, hlist⟩⟩) hb
    rw [hempty] at htb
    cases htb
  · intro ⟨i, hi, hlist⟩
    obtain ⟨b, hb, htb⟩ := mem_listedAt_iff_blockAt.mp hlist
    obtain ⟨hnum, hbest⟩ := (mem_unwindRange hlt).mp hi
    obtain ⟨j, b₁, b₂, hj, hb₁, hlater, hb₂, ht₂⟩ := hclean.dropped i b t hnum hbest hb htb ht
    obtain ⟨k, hk, hbk⟩ := blockAt_eq_some.mp hb₂
    have hjbest : j ≤ s.bestNumber := BitVec.le_trans (BitVec.le_of_lt hlater) (hs.filed_le hk)
    refine ⟨k, mem_clearedTo.mpr ⟨j, (mem_unwindRange hlt).mpr ⟨hj, hjbest⟩, b₁, hb₁, hk,
      fun _ => hlater⟩, mem_listed.mpr ⟨b₂, hbk, ht₂⟩⟩

theorem transactions_eq_of_clean :
    (s.unwindTo num hash).1.transactions = (s.revertTo num hash).transactions := by
  apply HashMap.ext
  intro t
  rw [transactions_unwindTo hs, transactions_revertTo]
  by_cases ht : s.transactions.get t = none
  · rw [ht, ite_self, ite_self]
  · simp only [cleared_iff_gone hs hlt hclean ht]

theorem unwinds_of_clean : s.Unwinds (s.unwindTo num hash).1 (s.revertTo num hash) num := by
  have hblocks : (s.unwindTo num hash).1.blocks = (s.revertTo num hash).blocks :=
    blocks_eq_of_clean hs hlt hclean
  have htxs : (s.unwindTo num hash).1.transactions = (s.revertTo num hash).transactions :=
    transactions_eq_of_clean hs hlt hclean
  constructor
  case hashes =>
    apply HashMap.ext
    intro n
    rw [unwindTo_fst, hashes_foldl hashes_unwindBlock, hashes_revertTo]
  case blocks => exact hblocks
  case transactions => exact htxs
  case bestNumber => rfl
  case bestHash => rfl
  case indexed =>
    intro t m ht
    rw [htxs] at ht
    have hmem := revertTo_indexed hs.indexed t m ht
    rw [mem_listed] at hmem ⊢
    rw [hblocks]
    exact hmem
  case gone =>
    intro i b t hnum hbest hb ht
    rw [htxs, transactions_revertTo, if_pos]
    exact ⟨i, (mem_unwindRange hlt).mpr ⟨hnum, hbest⟩, mem_listedAt_iff_blockAt.mpr ⟨b, hb, ht⟩⟩

end

theorem clean_of_unwinds (hun : s.Unwinds (s.unwindTo num hash).1 (s.revertTo num hash) num) :
    s.UnwindsCleanly num := by
  have hkept : ∀ i b b', num < i → i ≤ s.bestNumber → s.blockAt i = some b →
      b.header.number ≤ num → s.blockAt b.header.number = some b' → b'.transactions = [] := by
    intro i b b' hnum hbest hb hle hb'
    obtain ⟨k, hk, hbk⟩ := blockAt_eq_some.mp hb'
    have hout := (not_mem_unwindRange hlt (hs.filed_le hk)).mpr hle
    have hcleared : k ∈ s.clearedTo num := mem_clearedTo.mpr
      ⟨i, (mem_unwindRange hlt).mpr ⟨hnum, hbest⟩, b, hb, hk, fun hin => absurd hin hout⟩
    have hstays : ¬ ∃ n ∈ s.unwindRange num, s.hashes.get n = some k := by
      intro ⟨n, hn, hnk⟩
      rw [hs.filed_once hnk hk] at hn
      exact hout hn
    have hsame := congrArg (fun m => m.get k) hun.blocks
    rw [blocks_unwindTo hs, blocks_revertTo, if_neg hstays, if_neg hstays, if_pos hcleared,
      hbk] at hsame
    exact (congrArg Block.transactions (Option.some.inj hsame)).symm
  refine ⟨hkept, ?_⟩
  intro i b t hnum hbest hb ht hindexed
  have hnone := hun.gone i b t hnum hbest hb ht
  rw [transactions_unwindTo hs] at hnone
  split at hnone
  · next hex =>
    obtain ⟨k, hk, hlist⟩ := hex
    obtain ⟨j, hj, b₁, hb₁, hget, hlater⟩ := mem_clearedTo.mp hk
    obtain ⟨b₂, hb₂, ht₂⟩ := mem_listed.mp hlist
    obtain ⟨hjnum, hjbest⟩ := (mem_unwindRange hlt).mp hj
    have hb₂' := blockAt_eq_some.mpr ⟨k, hget, hb₂⟩
    by_cases hin : b₁.header.number ∈ s.unwindRange num
    · exact ⟨j, b₁, b₂, hjnum, hb₁, hlater hin, hb₂', ht₂⟩
    · have hempty := hkept j b₁ b₂ hjnum hjbest hb₁
        ((not_mem_unwindRange hlt (hs.filed_le hget)).mp hin) hb₂'
      rw [hempty] at ht₂
      cases ht₂
  · exact absurd hnone hindexed

end

end Agreement

end BlockchainStorage

open BlockchainStorage

/-- On every chain built by mining, unwinding to an earlier block is the same as a snapshot
revert to it if and only if the header numbers lead `unwind_to` to the right transactions. -/
theorem Chain.unwindTo_eq_revertTo_iff {config : Config} {chain : Chain}
    (hbuilt : Built config chain) {num : U64} (hash : B256)
    (hearlier : num < chain.storage.bestNumber) :
    chain.storage.Unwinds (chain.storage.unwindTo num hash).1
        (chain.storage.revertTo num hash) num ↔
      chain.storage.UnwindsCleanly num :=
  ⟨clean_of_unwinds hbuilt.inv hearlier, unwinds_of_clean hbuilt.inv hearlier⟩

namespace Chain

/-- The default settings: no Arbitrum chain, after the merge, every transaction is kept. -/
def defaultConfig : Config := ⟨false, true, none⟩

def genesis : Chain := ⟨.new ⟨0, 0, 30000000, 0, 0⟩ 100, ⟨0, 0, 0, 30000000, 0, 0, none⟩⟩

/-- Block 1 with hash 101 and one transaction, with hash 5. -/
def oneBlock : Chain := genesis.doMineBlock defaultConfig ⟨101, [5], 1, 0, 0⟩

/-- On top of it block 2 with hash 102 and no transactions. -/
def twoBlocks : Chain := oneBlock.doMineBlock defaultConfig ⟨102, [], 2, 0, 0⟩

theorem genesis_built : Built defaultConfig genesis := .new _ _ _

theorem oneBlock_built : Built defaultConfig oneBlock := by
  have hfresh : genesis.storage.Fresh 101 := by decide +kernel
  exact .mine _ genesis_built hfresh

theorem twoBlocks_built : Built defaultConfig twoBlocks := by
  have hfresh : oneBlock.storage.Fresh 102 := by decide +kernel
  exact .mine _ oneBlock_built hfresh

theorem unwindTo_eq_revertTo_twoBlocks :
    twoBlocks.storage.Unwinds (twoBlocks.storage.unwindTo 1 101).1
      (twoBlocks.storage.revertTo 1 101) 1 := by
  have hbest : twoBlocks.storage.bestNumber = 2 := by decide +kernel
  have honly : ∀ i b, 1 < i → i ≤ twoBlocks.storage.bestNumber →
      twoBlocks.storage.blockAt i = some b → b = ⟨⟨0, 2, 30000000, 2, 0⟩, []⟩ := by
    intro i b hi hle hb
    have htwo : i = 2 := by
      bv_omega
    rw [htwo] at hb
    exact (Option.some.inj hb).symm
  apply (unwindTo_eq_revertTo_iff twoBlocks_built 101 (by decide)).mpr
  constructor
  case kept =>
    intro i b b' hi hle hb hnumber
    rw [honly i b hi hle hb] at hnumber
    exact absurd hnumber (by decide)
  case dropped =>
    intro i b t hi hle hb ht
    rw [honly i b hi hle hb] at ht
    cases ht

/-- The transaction of block 1 can still be looked up after the block is gone. -/
theorem oneBlock_unwindTo_keeps_transaction :
    Built defaultConfig oneBlock ∧ oneBlock.storage.hashes.get 0 = some 100 ∧
      0 < oneBlock.storage.bestNumber ∧
      (oneBlock.storage.unwindTo 0 100).1.transactions.get 5 = some ⟨5, 101, 1⟩ ∧
      (oneBlock.storage.unwindTo 0 100).1.blocks.get 101 = none ∧
      ¬ oneBlock.storage.Unwinds (oneBlock.storage.unwindTo 0 100).1
        (oneBlock.storage.revertTo 0 100) 0 := by
  have hstays : (oneBlock.storage.unwindTo 0 100).1.transactions.get 5 = some ⟨5, 101, 1⟩ := by
    decide +kernel
  refine ⟨oneBlock_built, by decide +kernel, by decide +kernel, hstays, by decide +kernel, ?_⟩
  intro hun
  have hgone : (oneBlock.storage.revertTo 0 100).transactions.get 5 = none := by
    decide +kernel
  rw [← hun.transactions] at hgone
  cases hgone

end Chain

end Foundry.Anvil.Mem
