import Foundry.Base.HashMap
import Foundry.Base.Words

/-!
# Historical states

The states of past blocks are kept in memory up to a limit that shrinks while blocks are
mined; the oldest are moved to disk, and from there they are forgotten.
-/

namespace Foundry.Anvil.Mem

open List HashMap

/-- A database `S` that can be emptied into a snapshot `T` and filled again. -/
structure SnapshotDb (S T : Type) where
  clearIntoStateSnapshot : S → S × T
  initFromStateSnapshot : S → T → S

structure InMemoryBlockStates (S T : Type) where
  states : HashMap B256 S
  onDiskStates : HashMap B256 S
  inMemoryLimit : Nat
  minInMemoryLimit : Nat
  maxOnDiskLimit : Nat
  oldestOnDisk : List B256
  present : List B256
  /-- A disk that returns what was written. -/
  diskCache : HashMap B256 T

namespace InMemoryBlockStates

variable {S T : Type}

def minHistoryLimit : Nat := 10

def configured (inMemoryLimit minInMemoryLimit maxOnDiskLimit : Nat) :
    InMemoryBlockStates S T where
  states := .empty
  onDiskStates := .empty
  inMemoryLimit := inMemoryLimit
  minInMemoryLimit := minInMemoryLimit
  maxOnDiskLimit := maxOnDiskLimit
  oldestOnDisk := []
  present := []
  diskCache := .empty

def new (inMemoryLimit onDiskLimit : Nat) : InMemoryBlockStates S T :=
  configured inMemoryLimit (min inMemoryLimit minHistoryLimit) onDiskLimit

def isMemoryOnly (self : InMemoryBlockStates S T) : Bool := self.maxOnDiskLimit == 0

/-- Evicts a block from memory, to disk if that is supported. -/
def evict (db : SnapshotDb S T) (self : InMemoryBlockStates S T) (hash : B256) :
    InMemoryBlockStates S T :=
  match self.states.get hash with
  | none => self
  | some state =>
    let self := { self with states := self.states.remove hash }
    if self.isMemoryOnly then self
    else
      let (state, stateSnapshot) := db.clearIntoStateSnapshot state
      { self with
        diskCache := self.diskCache.insert hash stateSnapshot
        onDiskStates := self.onDiskStates.insert hash state
        oldestOnDisk := self.oldestOnDisk ++ [hash] }

/-- The loop over the blocks in memory, which are `present`; `none` is a loop that does not
end, at a limit of 0. -/
def evictFrom (db : SnapshotDb S T) :
    InMemoryBlockStates S T → List B256 → Option (InMemoryBlockStates S T)
  | self, [] => if 0 < self.inMemoryLimit then some { self with present := [] } else none
  | self, hash :: present =>
    if (hash :: present).length < self.inMemoryLimit then
      some { self with present := hash :: present }
    else evictFrom db (self.evict db hash) present

def purge (self : InMemoryBlockStates S T) (hash : B256) : InMemoryBlockStates S T :=
  { self with
    onDiskStates := self.onDiskStates.remove hash
    diskCache := self.diskCache.remove hash }

/-- The loop over the blocks on disk, which are `oldestOnDisk`. -/
def purgeFrom : InMemoryBlockStates S T → List B256 → InMemoryBlockStates S T
  | self, [] => { self with oldestOnDisk := [] }
  | self, hash :: oldestOnDisk =>
    if (hash :: oldestOnDisk).length < self.maxOnDiskLimit then
      { self with oldestOnDisk := hash :: oldestOnDisk }
    else purgeFrom (self.purge hash) oldestOnDisk

def enforceLimits (db : SnapshotDb S T) (self : InMemoryBlockStates S T) :
    Option (InMemoryBlockStates S T) := do
  let self ← self.evictFrom db self.present
  return if self.isMemoryOnly then self else self.purgeFrom self.oldestOnDisk

/-- Once the limit is hit it is gradually decreased. -/
def lowerLimit (self : InMemoryBlockStates S T) : Nat :=
  if ¬ self.isMemoryOnly ∧ self.inMemoryLimit ≤ self.present.length then
    max (self.inMemoryLimit - 1) self.minInMemoryLimit
  else self.inMemoryLimit

def insert (db : SnapshotDb S T) (self : InMemoryBlockStates S T) (hash : B256) (state : S) :
    Option (InMemoryBlockStates S T) := do
  let self ← { self with inMemoryLimit := self.lowerLimit }.enforceLimits db
  return { self with
    states := self.states.insert hash state
    present := self.present ++ [hash] }

/-- Returns the state for the given hash if present; one on disk is filled again. -/
def get (db : SnapshotDb S T) (self : InMemoryBlockStates S T) (hash : B256) :
    InMemoryBlockStates S T × Option S :=
  match self.states.get hash with
  | some state => (self, some state)
  | none =>
    match self.onDiskStates.get hash, self.diskCache.get hash with
    | some state, some cached =>
      let state := db.initFromStateSnapshot state cached
      ({ self with onDiskStates := self.onDiskStates.insert hash state }, some state)
    | _, _ => (self, none)

/-! ## Where the states are -/

/-- The blocks that were inserted, oldest first, are forgotten, on disk or in memory. -/
structure Kept (blocks : InMemoryBlockStates S T) (forgotten onDisk inMemory : List B256) :
    Prop where
  nodup : (forgotten ++ onDisk ++ inMemory).Nodup
  states : ∀ h, h ∈ blocks.states.keys ↔ h ∈ inMemory
  onDiskStates : ∀ h, h ∈ blocks.onDiskStates.keys ↔ h ∈ onDisk
  diskCache : ∀ h ∈ onDisk, h ∈ blocks.diskCache.keys

section Steps

variable {db : SnapshotDb S T} {self : InMemoryBlockStates S T}
  {forgotten onDisk inMemory : List B256} {hash : B256}

theorem Kept.evict (h : self.Kept forgotten self.oldestOnDisk (hash :: inMemory))
    (hdisk : 0 < self.maxOnDiskLimit) (db : SnapshotDb S T) :
    (self.evict db hash).Kept forgotten (self.oldestOnDisk ++ [hash]) inMemory ∧
      (self.evict db hash).oldestOnDisk = self.oldestOnDisk ++ [hash] ∧
      (self.evict db hash).inMemoryLimit = self.inMemoryLimit ∧
      (self.evict db hash).maxOnDiskLimit = self.maxOnDiskLimit := by
  have hfresh : hash ∉ inMemory := by
    have hnodup := (nodup_append.mp h.nodup).2.1
    exact (nodup_cons.mp hnodup).1
  obtain ⟨state, hstate⟩ := mem_keys.mp ((h.states hash).mpr mem_cons_self)
  have honDisk : { self with states := self.states.remove hash }.isMemoryOnly = false :=
    beq_eq_false_iff_ne.mpr (Nat.ne_of_gt hdisk)
  simp only [InMemoryBlockStates.evict, hstate, honDisk, Bool.false_eq_true, if_false]
  refine ⟨⟨?_, ?_, ?_, ?_⟩, trivial, trivial, trivial⟩
  · have hnodup := h.nodup
    simpa using hnodup
  · exact mem_keys_remove_head h.states hfresh
  · intro h'
    rw [keys_insert, Finset.mem_insert, h.onDiskStates, mem_append, mem_singleton, or_comm]
  · intro h' hmem
    rw [keys_insert, Finset.mem_insert]
    rcases mem_append.mp hmem with hold | hnew
    · exact .inr (h.diskCache h' hold)
    · exact .inl (mem_singleton.mp hnew)

theorem Kept.purge (h : self.Kept forgotten (hash :: onDisk) inMemory) :
    (self.purge hash).Kept (forgotten ++ [hash]) onDisk inMemory := by
  have hfresh : hash ∉ onDisk := by
    have hnodup := (nodup_append.mp (nodup_append.mp h.nodup).1).2.1
    exact (nodup_cons.mp hnodup).1
  refine ⟨?_, h.states, ?_, ?_⟩
  · simpa using h.nodup
  · exact mem_keys_remove_head h.onDiskStates hfresh
  · intro h' hmem
    change h' ∈ (self.diskCache.remove hash).keys
    rw [keys_remove, Finset.mem_erase]
    exact ⟨fun heq => hfresh (heq ▸ hmem), h.diskCache h' (mem_cons_of_mem _ hmem)⟩

theorem inMemoryLimit_evict (db : SnapshotDb S T) (self : InMemoryBlockStates S T)
    (hash : B256) : (self.evict db hash).inMemoryLimit = self.inMemoryLimit := by
  unfold InMemoryBlockStates.evict
  split
  · rfl
  · dsimp only
    split <;> rfl

theorem evictFrom_of_limit_zero (hmemory : self.inMemoryLimit = 0) (present : List B256) :
    self.evictFrom db present = none := by
  induction present generalizing self with
  | nil =>
    unfold InMemoryBlockStates.evictFrom
    rw [hmemory]
    rfl
  | cons hash present ih =>
    rw [InMemoryBlockStates.evictFrom, if_neg]
    · exact ih ((inMemoryLimit_evict db self hash).trans hmemory)
    · omega

/-- The loop over memory moves the oldest blocks to disk, as many as leave room for one. -/
theorem Kept.evictFrom (h : self.Kept forgotten self.oldestOnDisk inMemory)
    (hmemory : 0 < self.inMemoryLimit) (hdisk : 0 < self.maxOnDiskLimit)
    (db : SnapshotDb S T) :
    ∃ next moved, self.evictFrom db inMemory = some next ∧
      next.Kept forgotten next.oldestOnDisk next.present ∧
      next.oldestOnDisk = self.oldestOnDisk ++ moved ∧ inMemory = moved ++ next.present ∧
      moved.length = inMemory.length + 1 - self.inMemoryLimit ∧
      next.inMemoryLimit = self.inMemoryLimit ∧ next.maxOnDiskLimit = self.maxOnDiskLimit := by
  induction inMemory generalizing self with
  | nil =>
    refine ⟨{ self with present := [] }, [], if_pos hmemory, { h with }, ?_, rfl, ?_, rfl, rfl⟩
    · exact (append_nil _).symm
    · change 0 = 0 + 1 - self.inMemoryLimit
      omega
  | cons hash inMemory ih =>
    rw [InMemoryBlockStates.evictFrom]
    by_cases hroom : (hash :: inMemory).length < self.inMemoryLimit
    · rw [if_pos hroom]
      refine ⟨_, [], rfl, { h with }, ?_, rfl, ?_, rfl, rfl⟩
      · exact (append_nil _).symm
      · change 0 = (hash :: inMemory).length + 1 - self.inMemoryLimit
        omega
    rw [if_neg hroom]
    obtain ⟨hkept, holdest, hlimit, hmax⟩ := h.evict hdisk db
    rw [← holdest] at hkept
    obtain ⟨next, moved, hnext, hkept', holdest', hpresent, hmoved, hlimit', hmax'⟩ :=
      ih hkept (hlimit ▸ hmemory) (hmax ▸ hdisk)
    refine ⟨next, hash :: moved, hnext, hkept', ?_, ?_, ?_, ?_, ?_⟩
    · rw [holdest', holdest, append_assoc]
      rfl
    · rw [hpresent]
      rfl
    · rw [length_cons] at hroom ⊢
      rw [length_cons]
      omega
    · rw [hlimit', hlimit]
    · rw [hmax', hmax]

/-- The loop over the disk forgets the oldest blocks, as many as leave room for one more. -/
theorem Kept.purgeFrom (h : self.Kept forgotten onDisk self.present)
    (hdisk : 0 < self.maxOnDiskLimit) :
    ∃ purged, (self.purgeFrom onDisk).Kept (forgotten ++ purged)
        (self.purgeFrom onDisk).oldestOnDisk self.present ∧
      onDisk = purged ++ (self.purgeFrom onDisk).oldestOnDisk ∧
      purged.length = onDisk.length + 1 - self.maxOnDiskLimit ∧
      (self.purgeFrom onDisk).present = self.present ∧
      (self.purgeFrom onDisk).inMemoryLimit = self.inMemoryLimit ∧
      (self.purgeFrom onDisk).maxOnDiskLimit = self.maxOnDiskLimit := by
  induction onDisk generalizing self forgotten with
  | nil =>
    refine ⟨[], ?_, rfl, ?_, rfl, rfl, rfl⟩
    · rw [append_nil]
      exact { h with }
    · change 0 = 0 + 1 - self.maxOnDiskLimit
      omega
  | cons hash onDisk ih =>
    rw [InMemoryBlockStates.purgeFrom]
    by_cases hroom : (hash :: onDisk).length < self.maxOnDiskLimit
    · rw [if_pos hroom]
      refine ⟨[], ?_, rfl, ?_, rfl, rfl, rfl⟩
      · rw [append_nil]
        exact { h with }
      · change 0 = (hash :: onDisk).length + 1 - self.maxOnDiskLimit
        omega
    rw [if_neg hroom]
    have hkept : (self.purge hash).Kept (forgotten ++ [hash]) onDisk
      (self.purge hash).present := h.purge
    obtain ⟨purged, hkept', honDisk, hpurged, hrest⟩ := ih hkept hdisk
    refine ⟨hash :: purged, ?_, ?_, ?_, hrest⟩
    · rw [append_assoc] at hkept'
      exact hkept'
    · nth_rewrite 1 [honDisk]
      rfl
    · change purged.length = onDisk.length + 1 - self.maxOnDiskLimit at hpurged
      rw [length_cons] at hroom ⊢
      rw [length_cons]
      omega

/-- An insert moves the oldest blocks from memory to disk and forgets the oldest on disk. -/
theorem Kept.insert (h : self.Kept forgotten self.oldestOnDisk self.present)
    (hfresh : hash ∉ forgotten ++ self.oldestOnDisk ++ self.present)
    (hmemory : 0 < self.lowerLimit) (hdisk : 0 < self.maxOnDiskLimit) (state : S) :
    ∃ next moved purged, self.insert db hash state = some next ∧
      next.Kept (forgotten ++ purged) next.oldestOnDisk next.present ∧
      self.oldestOnDisk ++ moved = purged ++ next.oldestOnDisk ∧
      self.present ++ [hash] = moved ++ next.present ∧
      moved.length = self.present.length + 1 - self.lowerLimit ∧
      purged.length = self.oldestOnDisk.length + moved.length + 1 - self.maxOnDiskLimit ∧
      next.inMemoryLimit = self.lowerLimit ∧ next.maxOnDiskLimit = self.maxOnDiskLimit := by
  have hlowered : { self with inMemoryLimit := self.lowerLimit }.Kept forgotten
      self.oldestOnDisk self.present := { h with }
  obtain ⟨evicted, moved, hevicted, hkept, holdest, hpresent, hmoved, hlimit, hmax⟩ :=
    hlowered.evictFrom hmemory hdisk db
  change _ = self.maxOnDiskLimit at hmax
  obtain ⟨purged, hkept', honDisk, hpurged, hpresent', hlimit', hmax'⟩ :=
    hkept.purgeFrom (hmax ▸ hdisk)
  have hdisk' : ¬ evicted.isMemoryOnly = true := by
    unfold isMemoryOnly
    rw [beq_iff_eq]
    omega
  have hlist : forgotten ++ self.oldestOnDisk ++ self.present =
      forgotten ++ purged ++ (evicted.purgeFrom evicted.oldestOnDisk).oldestOnDisk ++
        evicted.present := by
    rw [append_assoc forgotten purged, ← honDisk, holdest]
    nth_rewrite 1 [hpresent]
    simp only [append_assoc]
  rw [hlist] at hfresh
  let purgedStates := evicted.purgeFrom evicted.oldestOnDisk
  refine ⟨{ purgedStates with
      states := purgedStates.states.insert hash state
      present := purgedStates.present ++ [hash] }, moved, purged, ?_, ⟨?_, ?_, ?_, ?_⟩, ?_, ?_,
    hmoved, ?_, ?_, ?_⟩
  · unfold InMemoryBlockStates.insert enforceLimits
    rw [hevicted]
    dsimp only [Option.bind_eq_bind, Option.bind_some, Option.pure_def]
    rw [if_neg hdisk']
  · rw [hpresent', ← append_assoc, nodup_append]
    refine ⟨hkept'.nodup, nodup_singleton _, ?_⟩
    rintro a ha b hb rfl
    exact hfresh (mem_singleton.mp hb ▸ ha)
  · intro h'
    rw [keys_insert, Finset.mem_insert, hkept'.states, hpresent', mem_append,
      mem_singleton, or_comm]
  · exact hkept'.onDiskStates
  · exact hkept'.diskCache
  · rw [← holdest]
    exact honDisk
  · rw [hpresent', ← append_assoc, ← hpresent]
  · rw [hpurged, holdest, hmax, length_append]
  · rw [hlimit', hlimit]
  · rw [hmax', hmax]

end Steps

/-! ## What an insert retains -/

def newerThan (inserted : List B256) (hash : B256) : List B256 :=
  inserted.reverse.takeWhile (· ≠ hash)

/-- The bookkeeping agrees with the maps, and a block is forgotten only when the disk is full
of newer ones. -/
structure Retains (db : SnapshotDb S T) (blocks : InMemoryBlockStates S T)
    (inserted : List B256) : Prop where
  states : ∀ h, h ∈ blocks.states.keys ↔ h ∈ blocks.present
  onDiskStates : ∀ h, h ∈ blocks.onDiskStates.keys ↔ h ∈ blocks.oldestOnDisk
  disjoint : ∀ h ∈ blocks.present, h ∉ blocks.oldestOnDisk
  bounded : blocks.present.length ≤ blocks.inMemoryLimit
  forgotten : ∀ h ∈ inserted, h ∉ blocks.states.keys → h ∉ blocks.onDiskStates.keys →
    blocks.maxOnDiskLimit ≤ ((newerThan inserted h).filter (· ∈ blocks.onDiskStates.keys)).length
  newest : ∀ h ∈ inserted.reverse.take (blocks.present.length + blocks.maxOnDiskLimit),
    (blocks.get db h).2.isSome

section Retained

variable {db : SnapshotDb S T} {self : InMemoryBlockStates S T}
  {forgotten inserted : List B256} {hash : B256}

theorem Kept.get_isSome (h : self.Kept forgotten self.oldestOnDisk self.present)
    (hmem : hash ∈ self.oldestOnDisk ++ self.present) : (self.get db hash).2.isSome := by
  unfold InMemoryBlockStates.get
  cases hstate : self.states.get hash with
  | some state => rfl
  | none =>
    have hdisk : hash ∈ self.oldestOnDisk := by
      rcases mem_append.mp hmem with hdisk | hmemory
      · exact hdisk
      · obtain ⟨state, hget⟩ := mem_keys.mp ((h.states hash).mpr hmemory)
        rw [hstate] at hget
        cases hget
    obtain ⟨state, hget⟩ := mem_keys.mp ((h.onDiskStates hash).mpr hdisk)
    obtain ⟨cached, hread⟩ := mem_keys.mp (h.diskCache hash hdisk)
    rw [hget, hread]
    rfl

theorem Kept.retains_iff (h : self.Kept forgotten self.oldestOnDisk self.present)
    (hinserted : inserted = forgotten ++ self.oldestOnDisk ++ self.present)
    (hbounded : self.present.length ≤ self.inMemoryLimit)
    (hroom : self.oldestOnDisk.length < self.maxOnDiskLimit) :
    self.Retains db inserted ↔ forgotten = [] := by
  have hnodup := h.nodup
  constructor
  · intro hretains
    cases forgotten with
    | nil => rfl
    | cons hash forgotten =>
      exfalso
      rw [append_assoc, cons_append, nodup_cons, mem_append, mem_append] at hnodup
      have hmem : hash ∈ inserted := by
        rw [hinserted]
        exact mem_cons_self
      have hle := hretains.forgotten hash hmem
        (fun hstates => hnodup.1 (.inr (.inr ((h.states hash).mp hstates))))
        (fun hdisk => hnodup.1 (.inr (.inl ((h.onDiskStates hash).mp hdisk))))
      have hsub : ((newerThan inserted hash).filter (· ∈ self.onDiskStates.keys)).Subperm
          self.oldestOnDisk := by
        refine List.Nodup.subperm (List.Nodup.filter _ ?_) ?_
        · refine List.Nodup.sublist (takeWhile_sublist _) ?_
          rw [nodup_reverse, hinserted]
          exact h.nodup
        · intro h' hmem'
          exact (h.onDiskStates h').mp (of_decide_eq_true (mem_filter.mp hmem').2)
      have hlength := hsub.length_le
      omega
  · rintro rfl
    rw [nil_append] at hinserted
    refine ⟨h.states, h.onDiskStates, ?_, hbounded, ?_, ?_⟩
    · intro h' hmemory hdisk
      exact (nodup_append.mp hnodup).2.2 h' hdisk h' hmemory rfl
    · intro h' hmem hstates hdisk
      rw [hinserted, mem_append, ← h.states, ← h.onDiskStates] at hmem
      exact absurd hmem (not_or.mpr ⟨hdisk, hstates⟩)
    · intro h' hmem
      exact h.get_isSome (hinserted ▸ mem_reverse.mp (mem_of_mem_take hmem))

def InsertRetains (db : SnapshotDb S T) (self : InMemoryBlockStates S T) (inserted : List B256)
    (hash : B256) (state : S) : Prop :=
  ∃ next, self.insert db hash state = some next ∧ next.Retains db (inserted ++ [hash])

/-- The lowered limit leaves a block in memory, and the disk stays below its limit with the
blocks that are moved to it. -/
def Fits (self : InMemoryBlockStates S T) : Prop :=
  0 < self.lowerLimit ∧
    self.oldestOnDisk.length + (self.present.length + 1 - self.lowerLimit) < self.maxOnDiskLimit

instance (self : InMemoryBlockStates S T) : Decidable self.Fits :=
  inferInstanceAs (Decidable (_ ∧ _))

variable (h : self.Kept [] self.oldestOnDisk self.present)
  (hinserted : inserted = self.oldestOnDisk ++ self.present) (hfresh : hash ∉ inserted)

include h hinserted hfresh

theorem Kept.insert_of_fits (hfits : self.Fits) (state : S) :
    ∃ next, self.insert db hash state = some next ∧
      next.Kept [] next.oldestOnDisk next.present ∧
      inserted ++ [hash] = next.oldestOnDisk ++ next.present ∧
      next.maxOnDiskLimit = self.maxOnDiskLimit := by
  obtain ⟨hmemory, hroom⟩ := hfits
  obtain ⟨next, moved, purged, hnext, hkept, honDisk, hpresent, hmoved, hpurged, _, hmax⟩ :=
    h.insert (hinserted ▸ hfresh) hmemory (Nat.zero_lt_of_lt hroom) state
  have hnone : purged = [] := by
    rw [← length_eq_zero_iff]
    omega
  rw [hnone] at hkept honDisk
  refine ⟨next, hnext, hkept, ?_, hmax⟩
  rw [hinserted, append_assoc, hpresent, ← append_assoc, honDisk, nil_append]

theorem Kept.insertRetains_iff (hdisk : 0 < self.maxOnDiskLimit) (state : S) (db : SnapshotDb S T) :
    InsertRetains db self inserted hash state ↔ self.Fits := by
  by_cases hmemory : 0 < self.lowerLimit
  · obtain ⟨next, moved, purged, hnext, hkept, honDisk, hpresent, hmoved, hpurged, hlimit, hmax⟩ :=
      h.insert (hinserted ▸ hfresh) hmemory hdisk state
    have hlist : inserted ++ [hash] = purged ++ next.oldestOnDisk ++ next.present := by
      rw [hinserted, append_assoc, hpresent, ← append_assoc, honDisk]
    have hcount := congrArg List.length honDisk
    have hcount' := congrArg List.length hpresent
    rw [length_append, length_append] at hcount
    rw [length_append, length_append, length_singleton] at hcount'
    have hretains : next.Retains db (inserted ++ [hash]) ↔ purged = [] :=
      hkept.retains_iff hlist (by omega) (by omega)
    have hiff : InsertRetains db self inserted hash state ↔ purged = [] := by
      unfold InsertRetains
      rw [hnext]
      simp [hretains]
    rw [hiff, ← length_eq_zero_iff]
    unfold Fits
    omega
  · have hzero : self.lowerLimit = 0 := Nat.eq_zero_of_not_pos hmemory
    have hnone : self.insert db hash state = none := by
      unfold InMemoryBlockStates.insert enforceLimits
      rw [evictFrom_of_limit_zero hzero]
      rfl
    simp [InsertRetains, hnone, Fits, hzero]

end Retained

/-! ## Runs -/

/-- `P` holds at every insert of a run: of the states before it, the blocks inserted so far, and
the pair that is inserted. -/
def EveryInsert (db : SnapshotDb S T) (P : InMemoryBlockStates S T → List B256 → B256 → S → Prop) :
    InMemoryBlockStates S T → List B256 → List (B256 × S) → Prop
  | _, _, [] => True
  | self, inserted, (hash, state) :: pairs =>
    P self inserted hash state ∧
      ∀ next ∈ self.insert db hash state, EveryInsert db P next (inserted ++ [hash]) pairs

theorem everyInsert_iff {db : SnapshotDb S T} {self : InMemoryBlockStates S T}
    {inserted : List B256} {pairs : List (B256 × S)}
    (h : self.Kept [] self.oldestOnDisk self.present)
    (hinserted : inserted = self.oldestOnDisk ++ self.present)
    (hdisk : 0 < self.maxOnDiskLimit) (hdistinct : (inserted ++ pairs.map (·.1)).Nodup) :
    EveryInsert db (InsertRetains db) self inserted pairs ↔
      EveryInsert db (fun self _ _ _ => self.Fits) self inserted pairs := by
  induction pairs generalizing self inserted with
  | nil => exact Iff.rfl
  | cons pair pairs ih =>
    obtain ⟨hash, state⟩ := pair
    have hfresh : hash ∉ inserted := by
      intro hmem
      exact (nodup_append.mp hdistinct).2.2 hash hmem hash mem_cons_self rfl
    have hdistinct' : (inserted ++ [hash] ++ pairs.map (·.1)).Nodup := by
      rw [append_assoc]
      exact hdistinct
    have hfits := h.insertRetains_iff hinserted hfresh hdisk state db
    unfold EveryInsert
    rw [hfits]
    refine and_congr_right fun hroom => forall_congr' fun next => forall_congr' fun hnext => ?_
    obtain ⟨next', hnext', hkept, hlist, hmax⟩ := h.insert_of_fits hinserted hfresh hroom state
    cases hnext.symm.trans hnext'
    exact ih hkept hlist (hmax ▸ hdisk) hdistinct'

/-- Every insert of distinct blocks retains what it has to just if the disk never reaches its
limit. -/
theorem everyInsert_retains_iff (db : SnapshotDb S T)
    {inMemoryLimit minInMemoryLimit maxOnDiskLimit : Nat} (hdisk : 1 ≤ maxOnDiskLimit)
    {pairs : List (B256 × S)} (hdistinct : (pairs.map (·.1)).Nodup) :
    EveryInsert db (InsertRetains db)
        (configured inMemoryLimit minInMemoryLimit maxOnDiskLimit) [] pairs ↔
      EveryInsert db (fun self _ _ _ => self.Fits)
        (configured inMemoryLimit minInMemoryLimit maxOnDiskLimit) [] pairs := by
  refine everyInsert_iff ⟨nodup_nil, ?_, ?_, nofun⟩ rfl hdisk hdistinct <;>
  · intro h
    exact ⟨nofun, nofun⟩

def copied : SnapshotDb Nat Nat := ⟨fun state => (0, state), fun _ stateSnapshot => stateSnapshot⟩

/-- Three blocks under a limit of two in memory and two on disk. -/
theorem everyInsert_retains_three :
    EveryInsert copied (InsertRetains copied) (new 2 2) [] [(1, 10), (2, 20), (3, 30)] := by
  refine (everyInsert_retains_iff copied (by decide) (by decide)).mpr ?_
  simp only [EveryInsert]
  decide +kernel

/-- With one block in memory and one on disk, the second insert forgets the first block. -/
theorem insert_forgets_first :
    ¬ EveryInsert copied (InsertRetains copied) (new 1 1) [] [(1, 10), (2, 20)] := by
  intro h
  obtain ⟨_, hrest⟩ := h
  obtain ⟨⟨next, hnext, hretains⟩, _⟩ := hrest _ rfl
  have hget := hretains.newest 1
  cases hnext
  revert hget
  decide +kernel

end InMemoryBlockStates

end Foundry.Anvil.Mem
