import Foundry.Base.RlpHeaders
import Foundry.Cheatcodes.SafeMemoryPrecision

/-!
# Hooks that run before an opcode

The inspector looks at the operands of an opcode before the interpreter has checked them or has
expanded the memory: it records the slots of mappings from what is hashed and stored, and it
checks the memory that a call touches.  `none` is a panic.
-/

namespace Foundry.Cheatcodes.SafeMemory

structure MappingSlots where
  parentSlots : HashMap B256 B256
  keys : HashMap B256 B256
  children : HashMap B256 (List B256)
  /-- The hashes of two words, with the words. -/
  seenSha3 : HashMap B256 (B256 × B256)

namespace MappingSlots

def empty : MappingSlots := ⟨.empty, .empty, .empty, .empty⟩

/-- Tries to insert a mapping slot, and the slots of the mappings that it is in. -/
def insert (self : MappingSlots) (slot : B256) : MappingSlots × Bool :=
  match _hseen : self.seenSha3.get slot with
  | none => (self, false)
  | some (key, parent) =>
    let keys := self.keys.insert slot key
    if _hkey : (self.keys.get slot).isSome then ({ self with keys }, false)
    else
      let inserted : MappingSlots :=
        { self with
          parentSlots := self.parentSlots.insert slot parent
          keys := keys
          children := self.children.insert parent ((self.children.get parent).getD [] ++ [slot]) }
      ((inserted.insert parent).1, true)
termination_by (self.seenSha3.keys \ self.keys.keys).card
decreasing_by
  refine Finset.card_lt_card ⟨?_, fun hsub => ?_⟩
  · rw [HashMap.keys_insert]
    exact Finset.sdiff_subset_sdiff subset_rfl (Finset.subset_insert _ _)
  · have hnew : slot ∈ self.seenSha3.keys \ self.keys.keys := by
      simp_all [HashMap.mem_keys]
    simpa [HashMap.keys_insert] using hsub hnew

end MappingSlots

inductive SlotOpcode where
  | keccak256
  | sstore
  | other

def stepMappingSlots (keccak256 : Bytes → B256) (mappingSlots : HashMap Address MappingSlots)
    (address : Address) (interpreter : Interpreter) :
    SlotOpcode → Option (HashMap Address MappingSlots)
  | .keccak256 =>
    if interpreter.stack[1]? = some 0x40 then
      interpreter.stack[0]?.bind fun offset =>
        (interpreter.memory.sliceLen (saturatingTo 64 offset) 0x40).map fun data =>
          let low := BitVec.ofNat 256 (RlpHeaders.ofBeBytes (data.take 0x20))
          let high := BitVec.ofNat 256 (RlpHeaders.ofBeBytes (data.drop 0x20))
          let slots := (mappingSlots.get address).getD .empty
          mappingSlots.insert address
            { slots with seenSha3 := slots.seenSha3.insert (keccak256 data) (low, high) }
    else some mappingSlots
  | .sstore =>
    match mappingSlots.get address, interpreter.stack[0]? with
    | some slots, some slot => some (mappingSlots.insert address (slots.insert slot).1)
    | _, _ => some mappingSlots
  | .other => some mappingSlots

/-- The hooks return before every opcode that reads its operands from the stack. -/
def HooksReturn (keccak256 : Bytes → B256) (mappingSlots : HashMap Address MappingSlots)
    (address : Address) (allowedMemWrites : HashMap U64 (List Range)) (depth : U64)
    (interpreter : Interpreter) : Prop :=
  (∀ opcode, (stepMappingSlots keccak256 mappingSlots address interpreter opcode).isSome) ∧
    (checkMemOpcodes allowedMemWrites depth interpreter .call).isSome

/-- The output of a call ends at an offset if it starts in a range; the arguments of one that is
outside of the ranges are in the memory, with a selector, if it is for a cheatcode. -/
def CallFits (ranges : List Range) (interpreter : Interpreter) : Prop :=
  let word := interpreter.word
  LastFits ranges (word 5) (word 6) ∧
    (Region.Fails ranges interpreter.memory.size ⟨word 5, word 6, true⟩ →
      (interpreter.stack.getD 1 0).setWidth 160 = cheatcodeAddress →
        selectorLen ≤ word 4 ∧ word 3 + word 4 ≤ interpreter.memory.size)

/-- Two words that are hashed are in the memory already, and the operands of a call fit. -/
structure OperandsFit (allowedMemWrites : HashMap U64 (List Range)) (depth : U64)
    (interpreter : Interpreter) : Prop where
  hashed : interpreter.stack[1]? = some 0x40 → interpreter.word 0 + 0x40 ≤ interpreter.memory.size
  called : ∀ ranges ∈ allowedMemWrites.get depth, 7 ≤ interpreter.stack.length →
    CallFits ranges interpreter

private theorem Reports.isSome_unless {α : Type} {check second : Option Bool}
    {fits found secondFits secondFound : Prop} (h : Reports check fits found)
    (hsecond : Reports second secondFits secondFound) (verdict : Bool → Option α) :
    (check.bind fun safe => if safe then some none else second.map verdict).isSome ↔
      fits ∧ (¬ found → secondFits) := by
  have hmap : (second.map verdict).isSome ↔ secondFits := by
    by_cases hfits : secondFits
    · by_cases hfound : secondFound
      · simp [hsecond.of_found hfits hfound, hfits]
      · simp [hsecond.of_not_found hfits hfound, hfits]
    · simp [hsecond.of_not_fits hfits, hfits]
  by_cases hfits : fits
  · by_cases hfound : found
    · simp [h.of_found hfits hfound, hfits, hfound]
    · simpa [h.of_not_found hfits hfound, hfits, hfound] using hmap
  · simp [h.of_not_fits hfits, hfits]

section

variable (keccak256 : Bytes → B256) (mappingSlots : HashMap Address MappingSlots)
  (address : Address) (allowedMemWrites : HashMap U64 (List Range)) (depth : U64)
  (interpreter : Interpreter)

theorem stepMappingSlots_isSome_iff :
    (∀ opcode, (stepMappingSlots keccak256 mappingSlots address interpreter opcode).isSome) ↔
      (interpreter.stack[1]? = some 0x40 →
        interpreter.word 0 + 0x40 ≤ interpreter.memory.size) := by
  have hkeccak : (stepMappingSlots keccak256 mappingSlots address interpreter .keccak256).isSome ↔
      (interpreter.stack[1]? = some 0x40 →
        interpreter.word 0 + 0x40 ≤ interpreter.memory.size) := by
    obtain ⟨stack, memory⟩ := interpreter
    match stack with
    | [] => simp [stepMappingSlots]
    | offset :: rest =>
      have hsize := memory.size_lt_pow
      have hclamp : clamp offset.toNat + 0x40 ≤ memory.size ↔
          offset.toNat + 0x40 ≤ memory.size := by
        unfold clamp
        omega
      by_cases hword : rest[0]? = some 0x40
      · simp [stepMappingSlots, hword, Memory.sliceLen, toNat_clamp, Interpreter.word, ← hclamp]
      · have hfirst : ¬ (offset :: rest)[1]? = some 0x40 := hword
        rw [stepMappingSlots, if_neg hfirst]
        exact iff_of_true rfl fun h => absurd h hword
  refine ⟨fun h => hkeccak.mp (h _), fun h opcode => ?_⟩
  cases opcode with
  | keccak256 => exact hkeccak.mpr h
  | sstore =>
    unfold stepMappingSlots
    dsimp only
    split
    · rfl
    · rfl
  | other => rfl

theorem checkCall_isSome_iff (ranges : List Range) :
    (checkCall ranges interpreter).isSome ↔
      (7 ≤ interpreter.stack.length → CallFits ranges interpreter) := by
  obtain ⟨stack, memory⟩ := interpreter
  match stack with
  | gas :: toWord :: value :: argsOffset :: argsSize :: retOffset :: retSize :: rest =>
    have hsearch := anyContains_reports ranges retOffset retSize
    have hstop := callsStop_reports ⟨gas :: toWord :: value :: argsOffset :: argsSize ::
      retOffset :: retSize :: rest, memory⟩ toWord argsOffset argsSize
    have hcheck := hsearch.isSome_unless hstop fun stops =>
      if stops then none
      else some (disallowedMemWrite (saturatingTo 64 retOffset) (saturatingTo 64 retSize) ranges)
    rw [← fails_write_iff ranges memory.size] at hcheck
    refine hcheck.trans ⟨fun h _ => h, fun h => h ?_⟩
    simp
  | [] | [_] | [_, _] | [_, _, _] | [_, _, _, _] | [_, _, _, _, _] | [_, _, _, _, _, _] =>
    simp [checkCall]

/-- The hooks return exactly if the operands they read fit. -/
theorem hooksReturn_iff_operandsFit :
    HooksReturn keccak256 mappingSlots address allowedMemWrites depth interpreter ↔
      OperandsFit allowedMemWrites depth interpreter := by
  have hcall : (checkMemOpcodes allowedMemWrites depth interpreter .call).isSome ↔
      ∀ ranges ∈ allowedMemWrites.get depth, 7 ≤ interpreter.stack.length →
        CallFits ranges interpreter := by
    unfold checkMemOpcodes
    cases allowedMemWrites.get depth with
    | none => simp
    | some ranges => simpa [checkRanges] using checkCall_isSome_iff interpreter ranges
  rw [HooksReturn, stepMappingSlots_isSome_iff, hcall]
  exact ⟨fun h => ⟨h.1, h.2⟩, fun h => ⟨h.hashed, h.called⟩⟩

end

/-- Two words are hashed right behind the memory that was used. -/
theorem not_hooksReturn_unexpanded :
    ¬ HooksReturn (fun _ => 0) .empty 1 .empty 0 (threeWords [0x60, 0x40]) := by
  intro h
  have hstep := h.1 .keccak256
  revert hstep
  decide +kernel

end Foundry.Cheatcodes.SafeMemory
