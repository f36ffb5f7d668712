import Foundry.Evm.Backend

/-!
# The table of forks

What the backend records about its forks, without the forks themselves: the two maps from
local ids over remote forks to indices, which indices hold a fork, the active fork and the
places that stored snapshots revert to.  Every index belongs to the local id that it was
created for, and every entry of the table stays with its owner.
-/

namespace Foundry.Evm

open HashMap

/-- A local id, the remote fork it is mapped to and the index of its database. -/
abbrev ForkPlace := LocalForkId × ForkId × ForkLookupIndex

structure ForkTable where
  issued : HashMap LocalForkId ForkId
  created : HashMap ForkId ForkLookupIndex
  occupied : List Bool
  active : Option (LocalForkId × ForkLookupIndex)
  stored : Set ForkPlace

namespace ForkTable

/-! ## Operations -/

section

variable (t : ForkTable)

def lookup (id : LocalForkId) : Option ForkLookupIndex := (t.issued.get id).bind t.created.get

def Occupied (idx : ForkLookupIndex) : Prop := t.occupied[idx]? = some true

def push : ForkTable := { t with occupied := t.occupied ++ [true] }

def take (idx : ForkLookupIndex) : ForkTable :=
  { t with occupied := t.occupied.set idx false }

def put (idx : ForkLookupIndex) : ForkTable :=
  { t with occupied := t.occupied.set idx true }

def map (id : LocalForkId) (forkId : ForkId) (idx : ForkLookupIndex) : ForkTable :=
  { t with issued := t.issued.insert id forkId, created := t.created.insert forkId idx }

def activate (id : LocalForkId) (idx : ForkLookupIndex) : ForkTable :=
  { t with active := some (id, idx) }

def store (places : Set ForkPlace) : ForkTable := { t with stored := places }

end

theorem Occupied.lt {t : ForkTable} {idx : ForkLookupIndex} (h : t.Occupied idx) :
    idx < t.occupied.length := (List.getElem?_eq_some_iff.mp h).1

theorem Occupied.take {t : ForkTable} {idx idx' : ForkLookupIndex} (h : t.Occupied idx')
    (hne : idx' ≠ idx) : (t.take idx).Occupied idx' := by
  unfold Occupied ForkTable.take
  rw [List.getElem?_set_ne hne.symm]
  exact h

theorem put_of_occupied {t : ForkTable} {idx : ForkLookupIndex} (h : t.Occupied idx) :
    t.put idx = t := by
  obtain ⟨hlt, htrue⟩ := List.getElem?_eq_some_iff.mp h
  unfold put
  rw [← htrue, List.set_getElem_self]

theorem put_take {t : ForkTable} {idx : ForkLookupIndex} (h : t.Occupied idx) :
    (t.take idx).put idx = t := by
  unfold put ForkTable.take
  rw [List.set_set]
  exact put_of_occupied h

/-! ## Ownership -/

/-- The remote fork is mapped to an index that belongs to `id`. -/
def Maps (t : ForkTable) (owner : ForkLookupIndex → LocalForkId) (forkId : ForkId)
    (id : LocalForkId) : Prop :=
  ∃ idx, t.created.get forkId = some idx ∧ owner idx = id

structure Owned (t : ForkTable) (owner : ForkLookupIndex → LocalForkId) : Prop where
  full : ∀ idx, idx < t.occupied.length → t.Occupied idx
  created : ∀ forkId idx, t.created.get forkId = some idx → idx < t.occupied.length
  issued : ∀ id forkId, t.issued.get id = some forkId → t.Maps owner forkId id
  active : ∀ id idx, t.active = some (id, idx) →
    idx < t.occupied.length ∧ owner idx = id ∧ (t.issued.get id).isSome
  stored : ∀ id forkId idx, (id, forkId, idx) ∈ t.stored →
    idx < t.occupied.length ∧ owner idx = id ∧ t.Maps owner forkId id

namespace Owned

variable {t : ForkTable} {owner : ForkLookupIndex → LocalForkId} {id : LocalForkId}
  {forkId : ForkId} {idx : ForkLookupIndex}

section

variable (h : t.Owned owner) {id' : LocalForkId}

include h

theorem owner_of_lookup (hlookup : t.lookup id = some idx) : t.Occupied idx ∧ owner idx = id := by
  obtain ⟨forkId, hissued, hcreated⟩ := Option.bind_eq_some_iff.mp hlookup
  obtain ⟨idx', hcreated', howner⟩ := h.issued id forkId hissued
  cases hcreated.symm.trans hcreated'
  exact ⟨h.full idx (h.created forkId idx hcreated), howner⟩

theorem lookup_inj (hlookup : t.lookup id = some idx)
    (hlookup' : t.lookup id' = some idx) : id = id' := by
  rw [← (h.owner_of_lookup hlookup).2, ← (h.owner_of_lookup hlookup').2]

theorem active_ne {idx' : ForkLookupIndex}
    (hactive : t.active = some (id, idx)) (hlookup : t.lookup id' = some idx')
    (hne : id' ≠ id) : idx' ≠ idx := by
  intro heq
  apply hne
  rw [← (h.owner_of_lookup hlookup).2, heq, (h.active id idx hactive).2.1]

/-- A new index belongs to the local id that it is for. -/
theorem push (id : LocalForkId) : t.push.Owned (Function.update owner t.occupied.length id) := by
  have hlength : t.push.occupied.length = t.occupied.length + 1 := by
    simp [ForkTable.push]
  have hlonger : ∀ {idx}, idx < t.occupied.length → idx < t.push.occupied.length := by
    intro idx hlt
    rw [hlength]
    exact Nat.lt_succ_of_lt hlt
  have howner : ∀ {idx}, idx < t.occupied.length →
      Function.update owner t.occupied.length id idx = owner idx := by
    intro idx hlt
    exact Function.update_of_ne (Nat.ne_of_lt hlt) _ _
  have hmaps : ∀ {forkId id'}, t.Maps owner forkId id' →
      t.push.Maps (Function.update owner t.occupied.length id) forkId id' := by
    intro forkId id' ⟨idx, hcreated, heq⟩
    exact ⟨idx, hcreated, by rw [howner (h.created forkId idx hcreated), heq]⟩
  constructor
  case full =>
    intro idx hlt
    unfold Occupied ForkTable.push
    by_cases hidx : idx < t.occupied.length
    · rw [List.getElem?_append_left hidx]
      exact h.full idx hidx
    · have heq : idx = t.occupied.length := by omega
      rw [heq, List.getElem?_concat_length]
  case created =>
    intro forkId idx hcreated
    exact hlonger (h.created forkId idx hcreated)
  case issued =>
    intro id forkId hissued
    exact hmaps (h.issued id forkId hissued)
  case active =>
    intro id idx hactive
    obtain ⟨hlt, heq, hissued⟩ := h.active id idx hactive
    exact ⟨hlonger hlt, by rw [howner hlt, heq], hissued⟩
  case stored =>
    intro id forkId idx hstored
    obtain ⟨hlt, heq, hmapped⟩ := h.stored id forkId idx hstored
    exact ⟨hlonger hlt, by rw [howner hlt, heq], hmaps hmapped⟩

/-- A remote fork that is new, or already mapped to an index of `id`, can be mapped to any
index of `id`. -/
theorem map (hlt : idx < t.occupied.length) (howner : owner idx = id)
    (hfork : t.created.get forkId = none ∨ t.Maps owner forkId id) :
    (t.map id forkId idx).Owned owner := by
  have hsame : ∀ {id'}, t.Maps owner forkId id' → id' = id := by
    intro id' ⟨idx', hcreated, heq⟩
    rcases hfork with hnone | ⟨idx'', hcreated', heq'⟩
    · rw [hnone] at hcreated
      cases hcreated
    · cases hcreated.symm.trans hcreated'
      rw [← heq, heq']
  have hmaps : ∀ {forkId' id'}, t.Maps owner forkId' id' →
      (t.map id forkId idx).Maps owner forkId' id' := by
    intro forkId' id' hmapped
    by_cases heq : forkId' = forkId
    · subst heq
      exact ⟨idx, get_insert_self _ _ _, by rw [howner, hsame hmapped]⟩
    · obtain ⟨idx', hcreated, heq'⟩ := hmapped
      exact ⟨idx', by rw [ForkTable.map, get_insert_of_ne _ _ heq, hcreated], heq'⟩
  constructor
  case full => exact h.full
  case created =>
    intro forkId' idx' hcreated
    rw [ForkTable.map, get_insert] at hcreated
    split at hcreated
    · cases hcreated
      exact hlt
    · exact h.created forkId' idx' hcreated
  case issued =>
    intro id' forkId' hissued
    rw [ForkTable.map, get_insert] at hissued
    split at hissued
    · next heq =>
      cases hissued
      exact ⟨idx, get_insert_self _ _ _, by rw [howner, heq]⟩
    · exact hmaps (h.issued id' forkId' hissued)
  case active =>
    intro id' idx' hactive
    obtain ⟨hlt', heq, hissued⟩ := h.active id' idx' hactive
    refine ⟨hlt', heq, ?_⟩
    rw [ForkTable.map, get_insert]
    split
    · rfl
    · exact hissued
  case stored =>
    intro id' forkId' idx' hstored
    obtain ⟨hlt', heq, hmapped⟩ := h.stored id' forkId' idx' hstored
    exact ⟨hlt', heq, hmaps hmapped⟩

theorem activate (hlt : idx < t.occupied.length) (howner : owner idx = id)
    (hissued : (t.issued.get id).isSome) : (t.activate id idx).Owned owner := by
  refine ⟨h.full, h.created, h.issued, ?_, h.stored⟩
  intro id' idx' hactive
  cases hactive
  exact ⟨hlt, howner, hissued⟩

theorem store {places : Set ForkPlace}
    (hplaces : ∀ id forkId idx, (id, forkId, idx) ∈ places → (id, forkId, idx) ∈ t.stored ∨
      t.active = some (id, idx) ∧ t.issued.get id = some forkId) :
    (t.store places).Owned owner := by
  refine ⟨h.full, h.created, h.issued, h.active, ?_⟩
  intro id forkId idx hmem
  rcases hplaces id forkId idx hmem with hstored | ⟨hactive, hissued⟩
  · exact h.stored id forkId idx hstored
  · obtain ⟨hlt, howner, -⟩ := h.active id idx hactive
    exact ⟨hlt, howner, h.issued id forkId hissued⟩

theorem select (hlookup : t.lookup id = some idx) : (t.activate id idx).Owned owner := by
  obtain ⟨hocc, howner⟩ := h.owner_of_lookup hlookup
  obtain ⟨forkId, hissued, -⟩ := Option.bind_eq_some_iff.mp hlookup
  exact h.activate hocc.lt howner (by rw [hissued]; rfl)

theorem revert (hstored : (id, forkId, idx) ∈ t.stored) :
    ((t.map id forkId idx).activate id idx).Owned owner := by
  obtain ⟨hlt, howner, hmaps⟩ := h.stored id forkId idx hstored
  have hissued : ((t.map id forkId idx).issued.get id).isSome := by
    rw [ForkTable.map, get_insert_self]
    rfl
  exact (h.map hlt howner (.inr hmaps)).activate hlt howner hissued

theorem add (id : LocalForkId) (hnew : t.created.get forkId = none) :
    (t.push.map id forkId t.occupied.length).Owned
      (Function.update owner t.occupied.length id) := by
  have hlt : t.occupied.length < t.push.occupied.length := by simp [ForkTable.push]
  exact (h.push id).map hlt (Function.update_self _ _ _) (.inl hnew)

end

end Owned

end ForkTable

end Foundry.Evm
