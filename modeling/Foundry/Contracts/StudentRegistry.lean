import Foundry.Base.HashMap
import Foundry.Base.Runs
import Foundry.Contracts.PriceConverter

/-!
# The student registry

Students are found by an id, through a mapping from ids to places in an array.  The mapping reads
zero for an id that was never assigned, which is also the place of the first student.
-/

namespace Foundry.Contracts

open List Option Runs

structure Student where
  id : U256
  name : String
  grade : BitVec 8
  deriving DecidableEq

structure StudentRegistry where
  students : List Student
  idToIndex : HashMap U256 U256
  nextId : U256

namespace StudentRegistry

variable (s : StudentRegistry)

/-- `addStudent`; `none` if it reverts, as the calls below. -/
def addStudent (name : String) (grade : BitVec 8) : Option StudentRegistry :=
  let students := s.students ++ [⟨s.nextId, name, grade⟩]
  let index := BitVec.ofNat 256 (students.length - 1)
  (checkedAdd s.nextId 1).map fun nextId => ⟨students, s.idToIndex.insert s.nextId index, nextId⟩

def indexOf (id : U256) : Nat := ((s.idToIndex.get id).getD 0).toNat

def getStudent (id : U256) : Option Student := s.students[s.indexOf id]?

def updateGrade (id : U256) (newGrade : BitVec 8) : Option StudentRegistry :=
  if s.indexOf id < s.students.length then
    some { s with students := s.students.modify (s.indexOf id) ({ · with grade := newGrade }) }
  else none

inductive Call where
  | addStudent (name : String) (grade : BitVec 8)
  | updateGrade (id : U256) (newGrade : BitVec 8)
  | getStudent (id : U256)

/-- The registry, and what should be found in it: under every assigned id the student registered
with it, with the last grade given to the id. -/
structure History where
  registry : StudentRegistry
  registered : HashMap U256 Student

namespace History

def deployed : History := ⟨⟨[], .empty, 0⟩, .empty⟩

/-- A call that reverts changes nothing. -/
def step (h : History) : Call → History
  | .addStudent name grade => (h.registry.addStudent name grade).elim h fun registry =>
      let id := h.registry.nextId
      ⟨registry, h.registered.insert id ⟨id, name, grade⟩⟩
  | .updateGrade id newGrade => (h.registry.updateGrade id newGrade).elim h fun registry =>
      ⟨registry, h.registered.update id ({ · with grade := newGrade })⟩
  | .getStudent _ => h

/-- A call with an id reaches the student registered under it, and no other one. -/
def Respects (h : History) : Call → Prop
  | .addStudent _ _ => True
  | .updateGrade id newGrade =>
    ((h.registry.updateGrade id newGrade).isSome ↔ (h.registered.get id).isSome) ∧
      ∀ registry, h.registry.updateGrade id newGrade = some registry →
        ∀ (i : Nat) (student : Student), h.registry.students[i]? = some student →
          student.id ≠ id → registry.students[i]? = some student
  | .getStudent id => h.registry.getStudent id = h.registered.get id

/-- The id of the call was assigned, or there is no student yet. -/
def Assigned (h : History) : Call → Prop
  | .addStudent _ _ => True
  | .updateGrade id _ | .getStudent id => (h.registered.get id).isSome ∨ h.registry.students = []

/-- The student of an id is at the place of the id. -/
structure Aligned (h : History) : Prop where
  nextId : h.registry.nextId.toNat = h.registry.students.length
  index : ∀ id, h.registry.idToIndex.get id =
    if id.toNat < h.registry.students.length then some id else none
  ids : ∀ (i : Nat) (student : Student), h.registry.students[i]? = some student →
    student.id.toNat = i
  registered : ∀ id, h.registered.get id = h.registry.students[id.toNat]?

variable {h : History} (hh : h.Aligned)

include hh

theorem Aligned.indexOf (id : U256) : h.registry.indexOf id =
    if id.toNat < h.registry.students.length then id.toNat else 0 := by
  rw [StudentRegistry.indexOf, hh.index]
  split <;> rfl

theorem respects_iff (call : Call) : h.Respects call ↔ h.Assigned call := by
  cases call with
  | addStudent name grade => exact Iff.rfl
  | getStudent id =>
    simp only [Respects, Assigned, getStudent, hh.indexOf, hh.registered]
    split
    · next hid => simp [hid]
    · next hid =>
      rw [getElem?_eq_none (Nat.le_of_not_lt hid)]
      simp
  | updateGrade id newGrade =>
    simp only [Respects, Assigned, updateGrade, hh.indexOf, hh.registered, isSome_getElem?]
    split
    · next hid =>
      simp only [hid, isSome_some, true_or, iff_true, true_and, some.injEq]
      rintro _ rfl i student hget hne
      have hi : i ≠ id.toNat := fun heq =>
        hne (BitVec.eq_of_toNat_eq ((hh.ids i student hget).trans heq))
      rw [getElem?_modify_ne _ _ hi.symm, hget]
    · next hid =>
      cases hnil : h.registry.students with
      | nil => simp
      | cons first rest => simp_all

theorem Aligned.addStudent (name : String) (grade : BitVec 8) :
    (h.step (.addStudent name grade)).Aligned := by
  simp only [History.step, StudentRegistry.addStudent]
  cases hnext : checkedAdd h.registry.nextId 1 with
  | none => exact hh
  | some nextId =>
    have hsum := checkedAdd_eq_some.mp hnext
    rw [hh.nextId, show (1 : U256).toNat = 1 from rfl] at hsum
    have hindex : BitVec.ofNat 256 h.registry.students.length = h.registry.nextId := by
      rw [← hh.nextId, BitVec.ofNat_toNat, BitVec.setWidth_eq]
    have hid (id : U256) : id = h.registry.nextId ↔ id.toNat = h.registry.students.length := by
      rw [← hh.nextId, BitVec.toNat_inj]
    constructor
    · simp [hsum]
    · grind [hh.index]
    · grind [hh.ids]
    · grind [hh.registered]

theorem Aligned.updateGrade {id : U256} {newGrade : BitVec 8}
    (hcall : h.Assigned (.updateGrade id newGrade)) :
    (h.step (.updateGrade id newGrade)).Aligned := by
  simp only [History.step, StudentRegistry.updateGrade, hh.indexOf]
  cases hcall with
  | inl hid =>
    rw [hh.registered, isSome_getElem?] at hid
    simp only [hid, if_true]
    constructor
    · simp [hh.nextId]
    · simpa using hh.index
    · grind [hh.ids]
    · grind [hh.registered, BitVec.toNat_inj]
  | inr hnil =>
    simp only [hnil]
    exact hh

theorem Aligned.step {call : Call} (hcall : h.Assigned call) : (h.step call).Aligned := by
  cases call with
  | addStudent name grade => exact hh.addStudent name grade
  | updateGrade id newGrade => exact hh.updateGrade hcall
  | getStudent id => exact hh

omit hh in
/-- Lookups respect ids as long as no call has an id that is not assigned, once there are
students. -/
theorem every_respects_iff (calls : List Call) :
    Every step Respects deployed calls ↔ Every step Assigned deployed calls :=
  every_iff (fun _ call hs => respects_iff hs call) (fun _ _ hs => hs.step)
    ⟨rfl, by simp [deployed], by simp [deployed], by simp [deployed]⟩ calls

omit hh in
/-- The first student is returned for an id that was never assigned. -/
theorem not_respects_unassigned :
    ¬ Every step Respects deployed [.addStudent "a" 1, .getStudent 5] := by
  simp only [every_cons, every_nil, Respects, true_and, and_true]
  decide

end History

end StudentRegistry

end Foundry.Contracts
