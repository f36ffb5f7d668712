import Foundry.Base.HashMap
import Foundry.Base.Runs
import Foundry.Base.Words

/-!
# Recorded mapping slots

A slot of a mapping is the hash of a key and of the slot of the mapping, which can be a slot of
another mapping.  Writing to a slot that was seen as such a hash records it with its key and its
parent, and goes on with the parent.
-/

namespace Foundry.Common

open Runs HashMap

structure MappingSlots where
  parentSlots : HashMap B256 B256
  keys : HashMap B256 B256
  children : HashMap B256 (List B256)
  /-- The last input of 64 bytes with this hash. -/
  seenSha3 : HashMap B256 (B256 × B256)

namespace MappingSlots

def record (self : MappingSlots) (slot key parent : B256) : MappingSlots :=
  { self with
    keys := self.keys.insert slot key
    parentSlots := self.parentSlots.insert slot parent
    children := self.children.insert parent ((self.children.get parent).getD [] ++ [slot]) }

/-- The slots that were seen and are not recorded. -/
def unrecorded (self : MappingSlots) : Finset B256 := self.seenSha3.keys \ self.keys.keys

private theorem card_unrecorded_record_lt {self : MappingSlots} {slot key parent : B256}
    {seen : B256 × B256} (hseen : self.seenSha3.get slot = some seen)
    (hnew : ¬ (self.keys.get slot).isSome) :
    (self.record slot key parent).unrecorded.card < self.unrecorded.card := by
  have hslot : slot ∈ self.unrecorded := by
    simp only [unrecorded, Finset.mem_sdiff, mem_keys]
    exact ⟨⟨seen, hseen⟩, by simpa [Option.isSome_iff_exists] using hnew⟩
  refine Finset.card_lt_card ((Finset.ssubset_iff_of_subset ?_).mpr ⟨slot, hslot, ?_⟩)
  · exact Finset.sdiff_subset_sdiff subset_rfl (by simp [record, keys_insert])
  · simp [unrecorded, record, keys_insert]

def insert (self : MappingSlots) (slot : B256) : MappingSlots × Bool :=
  match _ : self.seenSha3.get slot with
  | none => (self, false)
  | some (key, parent) =>
    if (self.keys.get slot).isSome then ({ self with keys := self.keys.insert slot key }, false)
    else (((self.record slot key parent).insert parent).1, true)
termination_by self.unrecorded.card
decreasing_by exact card_unrecorded_record_lt ‹_› ‹_›

inductive Event where
  | sha3 (low high : B256)
  | sstore (slot : B256)

def step (keccak256 : B256 → B256 → B256) (self : MappingSlots) : Event → MappingSlots
  | .sha3 low high => { self with
      seenSha3 := self.seenSha3.insert (keccak256 low high) (low, high) }
  | .sstore slot => (self.insert slot).1

def empty : MappingSlots := ⟨.empty, .empty, .empty, .empty⟩

variable (m next : MappingSlots)

def Recorded (slot : B256) : Prop := (m.keys.get slot).isSome

/-- The recorded slots are those with a parent, and each is once among the children of its parent
and among no other ones. -/
structure Consistent : Prop where
  parents : ∀ slot, m.Recorded slot ↔ (m.parentSlots.get slot).isSome
  children : ∀ slot parent, ((m.children.get parent).getD []).count slot =
    if m.parentSlots.get slot = some parent then 1 else 0

/-- Slots stay recorded, and the parents of new ones are recorded if they were seen. -/
structure Extends : Prop where
  keeps : ∀ slot, m.Recorded slot → next.Recorded slot
  closes : ∀ slot parent, ¬ m.Recorded slot → next.parentSlots.get slot = some parent →
    (m.seenSha3.get parent).isSome → next.Recorded parent

variable {m next} {slot key parent : B256}

theorem recorded_record {other : B256} :
    (m.record slot key parent).Recorded other ↔ other = slot ∨ m.Recorded other := by
  simp only [Recorded, record, get_insert]
  split <;> simp_all

theorem Consistent.record (h : m.Consistent) (hnew : ¬ m.Recorded slot) :
    (m.record slot key parent).Consistent := by
  have hnone : m.parentSlots.get slot = none := by simpa using (h.parents slot).not.mp hnew
  constructor
  · intro other
    have hother := h.parents other
    rw [recorded_record]
    simp only [MappingSlots.record, get_insert]
    split <;> simp_all
  · intro other above
    have hcount := h.children other above
    have hself := h.children other parent
    simp only [MappingSlots.record, get_insert]
    grind

/-- What is recorded keeps its parent. -/
theorem parentSlots_insert (hrecorded : m.Recorded slot) (start : B256) :
    (m.insert start).1.parentSlots.get slot = m.parentSlots.get slot := by
  fun_induction insert m start with
  | case1 m start hseen => rfl
  | case2 m start key parent hseen hold => rfl
  | case3 m start key parent hseen hnew ih =>
    rw [ih (recorded_record.mpr (.inr hrecorded))]
    exact get_insert_of_ne _ _ fun heq => hnew (heq ▸ hrecorded)

/-- Recording the same slots again adds none. -/
theorem Consistent.rekey (h : m.Consistent) {keys : HashMap B256 B256}
    {seenSha3 : HashMap B256 (B256 × B256)}
    (hkeys : ∀ slot, (keys.get slot).isSome ↔ m.Recorded slot) :
    { m with keys, seenSha3 }.Consistent ∧ m.Extends { m with keys, seenSha3 } := by
  refine ⟨⟨fun slot => (hkeys slot).trans (h.parents slot), h.children⟩,
    ⟨fun slot => (hkeys slot).mpr, ?_⟩⟩
  intro slot parent hnew hparent
  exact absurd ((h.parents slot).mpr (by simp [hparent])) hnew

theorem insert_spec (h : m.Consistent) (slot : B256) :
    ((m.insert slot).1.Consistent ∧ m.Extends (m.insert slot).1) ∧
      ((m.seenSha3.get slot).isSome → (m.insert slot).1.Recorded slot) := by
  fun_induction insert m slot with
  | case1 m slot hseen => exact ⟨h.rekey fun _ => Iff.rfl, by simp [hseen]⟩
  | case2 m slot key parent hseen hold =>
    refine ⟨h.rekey fun other => ?_, fun _ => by simp [Recorded]⟩
    simp only [Recorded, get_insert]
    split <;> simp_all
  | case3 m slot key parent hseen hnew ih =>
    obtain ⟨⟨hconsistent, hextends⟩, hparent⟩ := ih (h.record hnew)
    have hslot : (m.record slot key parent).Recorded slot := recorded_record.mpr (.inl rfl)
    refine ⟨⟨hconsistent, ⟨?_, ?_⟩⟩, fun _ => hextends.keeps slot hslot⟩
    · intro other hother
      exact hextends.keeps other (recorded_record.mpr (.inr hother))
    · intro other above hother habove hseen'
      by_cases heq : other = slot
      · rw [heq, parentSlots_insert hslot, MappingSlots.record, get_insert_self] at habove
        cases habove
        exact hparent hseen'
      · refine hextends.closes other above ?_ habove hseen'
        rw [recorded_record]
        tauto

theorem step_spec (keccak256 : B256 → B256 → B256) (h : m.Consistent) (event : Event) :
    (m.step keccak256 event).Consistent ∧ m.Extends (m.step keccak256 event) := by
  cases event with
  | sha3 low high => exact h.rekey fun _ => Iff.rfl
  | sstore slot => exact (insert_spec h slot).1

theorem run_spec (keccak256 : B256 → B256 → B256) (h : m.Consistent) (events : List Event) :
    (run (step keccak256) m events).Consistent ∧
      ∀ slot, m.Recorded slot → (run (step keccak256) m events).Recorded slot := by
  induction events generalizing m with
  | nil => exact ⟨h, fun _ => id⟩
  | cons event events ih =>
    obtain ⟨hstep, hextends⟩ := step_spec keccak256 h event
    obtain ⟨hrun, hkeeps⟩ := ih hstep
    exact ⟨hrun, fun slot hslot => hkeeps slot (hextends.keeps slot hslot)⟩

/-- After every run the maps are consistent, and the parent of a slot is recorded if it was seen
when the slot was. -/
theorem run_consistent (keccak256 : B256 → B256 → B256) (events : List Event) :
    (run (step keccak256) empty events).Consistent ∧
      ∀ past event future, events = past ++ event :: future →
        ∀ slot parent, ¬ (run (step keccak256) empty past).Recorded slot →
          (run (step keccak256) empty (past ++ [event])).parentSlots.get slot = some parent →
          ((run (step keccak256) empty past).seenSha3.get parent).isSome →
          (run (step keccak256) empty events).Recorded parent := by
  have hempty : empty.Consistent := ⟨by simp [Recorded, empty], by simp [empty]⟩
  refine ⟨(run_spec keccak256 hempty events).1, ?_⟩
  rintro past event future rfl slot parent hnew hparent hseen
  obtain ⟨hstep, hextends⟩ := step_spec keccak256 (run_spec keccak256 hempty past).1 event
  simp only [run, List.foldl_append, List.foldl_cons, List.foldl_nil] at hparent ⊢
  exact (run_spec keccak256 hstep future).2 parent (hextends.closes slot parent hnew hparent hseen)

end MappingSlots

end Foundry.Common
