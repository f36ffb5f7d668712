import Foundry.Cheatcodes.SafeMemory

/-!
# The precision of the memory check

The check looks at one region of each opcode, and takes an empty one for one byte.  It is precise
for the opcodes whose other regions are in the memory already and whose offsets do not overflow.
-/

namespace Foundry.Cheatcodes.SafeMemory

open List

/-! ## What the check computes -/

def clamp (n : Nat) : Nat := min n (2 ^ 64 - 1)

/-- A size beyond any range is cut to that of the largest one, which is there. -/
def Cut (ranges : List Range) (offset size : Nat) : Prop :=
  2 ^ 64 ≤ size ∧ offset = 0 ∧
    ∃ range ∈ ranges, range.start.toNat = 0 ∧ range.stop.toNat = 2 ^ 64 - 1

/-- The last byte of a region in a range is at an offset below `2 ^ 64`. -/
def LastFits (ranges : List Range) (offset size : Nat) : Prop :=
  Touched ranges offset → offset + (clamp size - 1) < 2 ^ 64

namespace Region

variable (ranges : List Range) (memorySize : Nat) (region : Region)

/-- An empty region is taken for one byte, at an offset where that byte is not safe. -/
def EmptyOutside : Prop :=
  region.size = 0 ∧ ¬ Touched ranges region.offset ∧
    (region.writes = false → memorySize ≤ region.offset)

def Fails : Prop :=
  region.EmptyOutside ranges memorySize ∨
    (¬ region.Safe ranges memorySize ∧ ¬ Cut ranges region.offset region.size)

end Region

/-! ## When the check is precise -/

/-- The offsets of the region are below `2 ^ 64`; if it is empty, its offset is in a range. -/
structure Region.Plain (ranges : List Range) (region : Region) : Prop where
  below : region.offset + region.size < 2 ^ 64
  shown : 0 < region.size ∨ Touched ranges region.offset

/-- The operands are on the stack, a load does not start within the memory and end beyond it, and
the arguments of a call are in the memory, with a selector for the cheatcodes. -/
def Ordinary (ranges : List Range) (interpreter : Interpreter) (opcode : Opcode) : Prop :=
  let memorySize := interpreter.memory.size
  let word := interpreter.word
  opcode.inputs ≤ interpreter.stack.length ∧
    match opcode with
    | .mcopy => word 2 = 0
    | .mload =>
      Region.Plain ranges ⟨word 0, 32, false⟩ ∧ (memorySize ≤ word 0 ∨ word 0 + 32 ≤ memorySize)
    | .call =>
      Region.Plain ranges ⟨word 5, word 6, true⟩ ∧ word 3 + word 4 ≤ memorySize ∧
        ((interpreter.stack.getD 1 0).setWidth 160 = cheatcodeAddress → selectorLen ≤ word 4)
    | .callcode => Region.Plain ranges ⟨word 5, word 6, true⟩ ∧ word 3 + word 4 ≤ memorySize
    | .staticcall | .delegatecall =>
      Region.Plain ranges ⟨word 4, word 5, true⟩ ∧ word 2 + word 3 ≤ memorySize
    | opcode => ∀ region ∈ opcode.operandRegions word, region.Plain ranges

/-! ## Checks that may not finish -/

/-- A check that finishes if and only if a condition holds, and then tells whether another one
does. -/
structure Reports (check : Option Bool) (fits found : Prop) : Prop where
  of_found : fits → found → check = some true
  of_not_found : fits → ¬ found → check = some false
  of_not_fits : ¬ fits → check = none

namespace Reports

variable {check : Option Bool} {fits found : Prop}

theorem of_some {result : Bool} (h : fits) (hresult : result = true ↔ found) :
    Reports (some result) fits found :=
  ⟨fun _ hfound => by rw [hresult.mpr hfound],
    fun _ hnot => by rw [Bool.eq_false_iff.mpr fun hr => hnot (hresult.mp hr)],
    fun hnot => absurd h hnot⟩

theorem of_none (h : ¬ fits) : Reports none fits found :=
  ⟨fun hfits => absurd hfits h, fun hfits => absurd hfits h, fun _ => rfl⟩

theorem eq_of_fits (h : Reports check fits found) (hfits : fits) {condition : Prop}
    [Decidable condition] (hiff : found ↔ condition) : check = some (decide condition) := by
  by_cases hcondition : condition
  · rw [h.of_found hfits (hiff.mpr hcondition), decide_eq_true hcondition]
  · rw [h.of_not_found hfits (mt hiff.mp hcondition), decide_eq_false hcondition]

end Reports

/-! ## The ranges are searched for the bytes -/

variable {ranges : List Range} {offset : Nat} {writes : Bool} {interpreter : Interpreter}
  {opcode : Opcode} {size : Nat} {memorySize : Nat}

theorem toNat_clamp (word : U256) : (saturatingTo 64 word).toNat = clamp word.toNat :=
  toNat_saturatingTo 64 word

theorem Range.contains_iff (range : Range) (offset : U64) :
    range.contains offset ↔ range.start.toNat ≤ offset.toNat ∧ offset.toNat < range.stop.toNat := by
  simp [Range.contains, BitVec.le_def, BitVec.lt_def]

theorem Touched.cons {range : Range} :
    Touched (range :: ranges) offset ↔
      (range.start.toNat ≤ offset ∧ offset < range.stop.toNat) ∨ Touched ranges offset := by
  simp [Touched]

theorem Within.cons {range : Range} :
    Within (range :: ranges) offset size ↔
      (range.start.toNat ≤ offset ∧ offset + size ≤ range.stop.toNat) ∨
        Within ranges offset size := by
  simp [Within]

theorem checkedAdd_of_lt {x y : U64} (h : x.toNat + y.toNat < 2 ^ 64) :
    ∃ sum : U64, checkedAdd x y = some sum ∧ sum.toNat = x.toNat + y.toNat := by
  refine ⟨x + y, if_pos h, ?_⟩
  rw [BitVec.toNat_add, Nat.mod_eq_of_lt h]

theorem checkedAdd_of_le {x y : U64} (h : 2 ^ 64 ≤ x.toNat + y.toNat) : checkedAdd x y = none :=
  if_neg (by omega)

/-- Without an overflow the ranges are searched for one that holds the bytes. -/
theorem anyContains_of_lt {offset span : U64} (h : offset.toNat + span.toNat < 2 ^ 64)
    (ranges : List Range) :
    anyContains offset span ranges =
      some (decide (Within ranges offset.toNat (span.toNat + 1))) := by
  obtain ⟨last, hadd, hlast⟩ := checkedAdd_of_lt h
  induction ranges with
  | nil => simp [anyContains, Within]
  | cons range ranges ih =>
    have hfirst := range.contains_iff offset
    have hend := range.contains_iff last
    unfold anyContains
    rw [hadd, ih]
    by_cases hf : range.contains offset
    · by_cases he : range.contains last
      · have := hfirst.mp hf
        have := hend.mp he
        simp [hf, he, Within.cons]
        omega
      · simp [he, Within.cons]
        intro h1 h2
        exact absurd (hend.mpr (by omega)) he
    · simp [hf, Within.cons]
      intro h1 h2
      exact absurd (hfirst.mpr (by omega)) hf

/-- With one, the search ends at the first range that contains the offset. -/
theorem anyContains_of_le {offset span : U64} (h : 2 ^ 64 ≤ offset.toNat + span.toNat)
    (ranges : List Range) :
    anyContains offset span ranges =
      if Touched ranges offset.toNat then none else some false := by
  induction ranges with
  | nil => simp [anyContains, Touched]
  | cons range ranges ih =>
    have hfirst := range.contains_iff offset
    unfold anyContains
    rw [checkedAdd_of_le h, ih]
    by_cases hf : range.contains offset
    · simp [hf, Touched.cons, hfirst.mp hf]
    · have hout : ¬ (range.start.toNat ≤ offset.toNat ∧ offset.toNat < range.stop.toNat) :=
        fun hin => hf (hfirst.mpr hin)
      simp [hf, Touched.cons, hout]

theorem Touched.lt (h : Touched ranges offset) : offset < 2 ^ 64 - 1 := by
  obtain ⟨range, -, -, hlt⟩ := h
  omega

theorem touched_clamp : Touched ranges (clamp offset) ↔ Touched ranges offset := by
  refine exists_congr fun range => and_congr_right fun _ => ?_
  unfold clamp
  omega

theorem Within.touched (hsize : 0 < size) (h : Within ranges offset size) :
    Touched ranges offset := by
  obtain ⟨range, hmem, hstart, hstop⟩ := h
  exact ⟨range, hmem, hstart, by omega⟩

theorem within_clamp :
    Within ranges (clamp offset) (clamp size - 1 + 1) ↔
      Within ranges offset (max size 1) ∨ Cut ranges offset size := by
  constructor
  · rintro ⟨range, hmem, hstart, hstop⟩
    by_cases hsize : size < 2 ^ 64
    · left
      refine ⟨range, hmem, ?_, ?_⟩ <;> unfold clamp at * <;> omega
    · right
      unfold clamp at *
      exact ⟨by omega, by omega, range, hmem, by omega, by omega⟩
  · rintro (⟨range, hmem, hstart, hstop⟩ | ⟨hsize, hoffset, range, hmem, hstart, hstop⟩)
    · refine ⟨range, hmem, ?_, ?_⟩ <;> unfold clamp <;> omega
    · refine ⟨range, hmem, ?_, ?_⟩ <;> unfold clamp <;> omega

theorem anyContains_reports (ranges : List Range) (offset size : U256) :
    Reports (anyContains (saturatingTo 64 offset) (saturatingSub (saturatingTo 64 size) 1) ranges)
      (LastFits ranges offset.toNat size.toNat)
      (Within ranges offset.toNat (max size.toNat 1) ∨ Cut ranges offset.toNat size.toNat) := by
  have hoffset := toNat_clamp offset
  have hspan : (saturatingSub (saturatingTo 64 size) 1).toNat = clamp size.toNat - 1 := by
    rw [toNat_saturatingSub, toNat_clamp]
    rfl
  by_cases hfit : clamp offset.toNat + (clamp size.toNat - 1) < 2 ^ 64
  · have hlast : LastFits ranges offset.toNat size.toNat := by
      intro htouched
      have hlt := htouched.lt
      unfold clamp at *
      omega
    rw [anyContains_of_lt (by omega), hoffset, hspan, ← within_clamp]
    exact .of_some hlast decide_eq_true_iff
  · rw [anyContains_of_le (by omega), hoffset]
    simp only [touched_clamp]
    by_cases htouched : Touched ranges offset.toNat
    · have hlast : ¬ LastFits ranges offset.toNat size.toNat := by
        intro hlast
        have hsum := hlast htouched
        unfold clamp at *
        omega
      rw [if_pos htouched]
      exact .of_none hlast
    · have hout : ¬ (Within ranges offset.toNat (max size.toNat 1) ∨
          Cut ranges offset.toNat size.toNat) := by
        rintro (hwithin | ⟨-, hzero, range, hmem, hstart, hstop⟩)
        · exact htouched (hwithin.touched (by omega))
        · exact htouched ⟨range, hmem, by omega, by omega⟩
      rw [if_neg htouched]
      exact .of_some (fun ht => absurd ht htouched) (iff_of_false Bool.false_ne_true hout)

theorem toNat_saturating {word : U256} (h : word.toNat < 2 ^ 64) :
    (saturatingTo 64 word).toNat = word.toNat := by
  rw [toNat_clamp]
  unfold clamp
  omega

theorem fails_write_iff (ranges : List Range) (memorySize offset size : Nat) :
    Region.Fails ranges memorySize ⟨offset, size, true⟩ ↔
      ¬ (Within ranges offset (max size 1) ∨ Cut ranges offset size) := by
  rcases Nat.eq_zero_or_pos size with rfl | hpos
  · have hcut : ¬ Cut ranges offset 0 := fun h => absurd h.1 (by omega)
    simp only [Region.Fails, Region.EmptyOutside, Region.Safe, hcut, or_false]
    simp
    rfl
  · have hempty : size ≠ 0 := Nat.ne_of_gt hpos
    rw [max_eq_left (Nat.succ_le_of_lt hpos), not_or]
    simp [Region.Fails, Region.EmptyOutside, Region.Safe, hempty]

/-- A call of `stopExpectSafeMemory` is told from its selector, which must be in the memory. -/
theorem callsStop_reports (interpreter : Interpreter) (toWord argsOffset argsSize : U256) :
    Reports (callsStop interpreter toWord argsOffset argsSize)
      (toWord.setWidth 160 = cheatcodeAddress →
        selectorLen ≤ argsSize.toNat ∧ argsOffset.toNat + argsSize.toNat ≤ interpreter.memory.size)
      (toWord.setWidth 160 = cheatcodeAddress ∧ selectorLen ≤ argsSize.toNat ∧
        interpreter.memory.word argsOffset.toNat selectorLen = stopExpectSafeMemorySelector) := by
  have hmemory := interpreter.memory.size_lt_pow
  unfold callsStop
  by_cases hto : toWord.setWidth 160 = cheatcodeAddress
  · simp only [hto, if_true, true_implies, Memory.sliceLen, toNat_clamp]
    by_cases hread : argsOffset.toNat + argsSize.toNat ≤ interpreter.memory.size
    · have hoffset : clamp argsOffset.toNat = argsOffset.toNat := by unfold clamp; omega
      have hsize : clamp argsSize.toNat = argsSize.toNat := by unfold clamp; omega
      have hdrop : argsSize.toNat ≤ (interpreter.memory.bytes.drop argsOffset.toNat).length := by
        rw [length_drop]
        unfold Memory.size at hread
        omega
      rw [hoffset, hsize, if_pos hread, Option.bind_some, length_take_of_le hdrop]
      by_cases hselector : selectorLen ≤ argsSize.toNat
      · have hword : ((interpreter.memory.bytes.drop argsOffset.toNat).take
            argsSize.toNat).take selectorLen =
            interpreter.memory.word argsOffset.toNat selectorLen := by
          rw [Memory.word, take_append_of_le_length (hselector.trans hdrop), take_take,
            min_eq_left hselector]
        rw [if_neg (by omega), hword]
        exact .of_some ⟨hselector, hread⟩ (by simp [hselector])
      · rw [if_pos (by omega)]
        exact .of_none fun h => hselector h.1
    · have hout : ¬ clamp argsOffset.toNat + clamp argsSize.toNat ≤ interpreter.memory.size := by
        unfold clamp
        omega
      rw [if_neg hout]
      exact .of_none fun h => hread h.2
  · rw [if_neg hto]
    exact .of_some (fun ht => absurd ht hto) (by simp [hto])

/-- For a plain region the search finds out whether a range holds it. -/
theorem anyContains_of_plain {offset size : U256}
    (h : Region.Plain ranges ⟨offset.toNat, size.toNat, writes⟩) :
    anyContains (saturatingTo 64 offset) (saturatingSub (saturatingTo 64 size) 1) ranges =
      some (decide (size.toNat = 0 ∨ Within ranges offset.toNat size.toNat)) := by
  have hbelow : offset.toNat + size.toNat < 2 ^ 64 := h.below
  have hfits : LastFits ranges offset.toNat size.toNat := by
    intro htouched
    unfold clamp
    omega
  have hcut : ¬ Cut ranges offset.toNat size.toNat := fun hcut => absurd hcut.1 (by omega)
  refine (anyContains_reports ranges offset size).eq_of_fits hfits ?_
  rcases Nat.eq_zero_or_pos size.toNat with hempty | hpos
  · have hwithin : Within ranges offset.toNat 1 := h.shown.resolve_left (by simp [hempty])
    simp [hempty, hwithin]
  · rw [max_eq_left (Nat.succ_le_of_lt hpos)]
    simp [Nat.ne_of_gt hpos, hcut]

/-! ## The opcodes -/

theorem Decides.congr {check : Option (Option String)} {condition condition' : Prop}
    (h : Decides check condition) (hiff : condition ↔ condition') : Decides check condition' := by
  obtain ⟨revert, hcheck, hrevert⟩ := h
  exact ⟨revert, hcheck, hrevert.trans hiff⟩

theorem decides_some {revert : Option String} {condition : Prop} :
    Decides (some revert) condition ↔ (revert.isSome ↔ condition) := by
  simp [Decides]

theorem Interpreter.word_eq {depth : Nat} {value : U256}
    (h : interpreter.stack[depth]? = some value) : interpreter.word depth = value.toNat := by
  simp [Interpreter.word, h]

/-- A plain region fails the check just if it is not safe. -/
theorem failCond_of_plain {offset size : U256}
    (h : Region.Plain ranges ⟨offset.toNat, size.toNat, writes⟩) :
    failCond ranges memorySize writes (saturatingTo 64 offset) (saturatingTo 64 size) =
      some (decide (¬ Region.Safe ranges memorySize ⟨offset.toNat, size.toNat, writes⟩)) := by
  have hbelow : offset.toNat + size.toNat < 2 ^ 64 := h.below
  have hoffset : (saturatingTo 64 offset).toNat = offset.toNat :=
    toNat_saturating (by omega)
  have hsize : (saturatingTo 64 size).toNat = size.toNat := toNat_saturating (by omega)
  unfold failCond
  rw [anyContains_of_plain h]
  by_cases hfound : size.toNat = 0 ∨ Within ranges offset.toNat size.toNat
  · rcases hfound with hfound | hfound <;> simp [hfound, Region.Safe]
  · obtain ⟨hempty, hwithin⟩ := not_or.mp hfound
    cases writes with
    | true => simp [hempty, hwithin, Region.Safe]
    | false =>
      obtain ⟨stop, hstop, hval⟩ := checkedAdd_of_lt (x := saturatingTo 64 offset)
        (y := saturatingTo 64 size) (by omega)
      have hlast : (saturatingSub stop 1).toNat = offset.toNat + size.toNat - 1 := by
        rw [toNat_saturatingSub, hval, hoffset, hsize]
        rfl
      have hbeyond : (memorySize ≤ offset.toNat ∨ memorySize ≤ offset.toNat + size.toNat - 1) ↔
          memorySize < offset.toNat + size.toNat := by omega
      simp only [hempty, hwithin, or_self, decide_false, Option.bind_some, Bool.false_eq_true,
        if_false, hstop, Option.map_some, hoffset, hlast, hbeyond]
      simp [hempty, hwithin, Region.Safe]

theorem checkOperands_decides {offsetDepth sizeDepth : Nat}
    (hoffset : offsetDepth < interpreter.stack.length)
    (hsize : sizeDepth < interpreter.stack.length)
    (h : Region.Plain ranges
      ⟨interpreter.word offsetDepth, interpreter.word sizeDepth, writes⟩) :
    Decides (checkOperands ranges interpreter offsetDepth sizeDepth writes)
      (¬ Region.Safe ranges interpreter.memory.size
        ⟨interpreter.word offsetDepth, interpreter.word sizeDepth, writes⟩) := by
  rw [interpreter.word_eq (getElem?_eq_getElem hoffset),
    interpreter.word_eq (getElem?_eq_getElem hsize)] at h ⊢
  unfold checkOperands
  rw [getElem?_eq_getElem hoffset, getElem?_eq_getElem hsize]
  simp only [failCond_of_plain h, Option.map_some, decides_some]
  split <;> simp_all

theorem disallowed_iff (h : opcode.inputs ≤ interpreter.stack.length) :
    Disallowed ranges interpreter opcode ↔
      (∃ region ∈ opcode.operandRegions interpreter.word,
        ¬ region.Safe ranges interpreter.memory.size) ∧ ¬ Stops interpreter opcode := by
  rw [Disallowed, Opcode.regions, if_neg (Nat.not_lt.mpr h)]

theorem checkMstore_decides (h : Ordinary ranges interpreter .mstore) :
    Decides (checkMstore ranges interpreter) (Disallowed ranges interpreter .mstore) := by
  obtain ⟨stack, memory⟩ := interpreter
  rw [disallowed_iff h.1]
  match stack, h with
  | [], h => simp [Ordinary, Opcode.inputs] at h
  | [_], h => simp [Ordinary, Opcode.inputs] at h
  | offset :: value :: rest, h =>
    have hplain : Region.Plain ranges ⟨offset.toNat, (32 : U256).toNat, true⟩ :=
      h.2 _ (mem_singleton_self _)
    have hsearch : anyContains (saturatingTo 64 offset) 31 ranges = _ :=
      anyContains_of_plain hplain
    simp only [checkMstore, getElem?_cons_zero, hsearch, Option.map_some, decides_some]
    by_cases hwithin : Within ranges offset.toNat 32
    · simp [hwithin, Opcode.operandRegions, Interpreter.word, Region.Safe]
    · simp [hwithin, Opcode.operandRegions, Interpreter.word, Region.Safe, Stops]

theorem checkMstore8_decides (h : Ordinary ranges interpreter .mstore8) :
    Decides (checkMstore8 ranges interpreter) (Disallowed ranges interpreter .mstore8) := by
  obtain ⟨stack, memory⟩ := interpreter
  rw [disallowed_iff h.1]
  match stack, h with
  | [], h => simp [Ordinary, Opcode.inputs] at h
  | offset :: rest, h =>
    have hplain : Region.Plain ranges ⟨offset.toNat, 1, true⟩ := h.2 _ (mem_singleton_self _)
    have hbelow : offset.toNat + 1 < 2 ^ 64 := hplain.below
    have hany : (ranges.any fun range => range.contains (saturatingTo 64 offset)) =
        decide (Within ranges offset.toNat 1) := by
      rw [Bool.eq_iff_iff, any_eq_true, decide_eq_true_iff]
      simp only [Range.contains_iff, toNat_saturating (Nat.lt_of_succ_lt hbelow)]
      rfl
    simp only [checkMstore8, getElem?_cons_zero, hany]
    by_cases hwithin : Within ranges offset.toNat 1 <;>
      simp [hwithin, decides_some, Opcode.operandRegions, Interpreter.word, Region.Safe, Stops]

theorem checkMload_decides (h : Ordinary ranges interpreter .mload) :
    Decides (checkMload ranges interpreter) (Disallowed ranges interpreter .mload) := by
  obtain ⟨stack, memory⟩ := interpreter
  rw [disallowed_iff h.1]
  match stack, h with
  | [], h => simp [Ordinary, Opcode.inputs] at h
  | offset :: rest, h =>
    have hplain : Region.Plain ranges ⟨offset.toNat, (32 : U256).toNat, false⟩ := h.2.1
    have hend : memory.size ≤ offset.toNat ∨ offset.toNat + 32 ≤ memory.size := h.2.2
    have hbelow : offset.toNat + 32 < 2 ^ 64 := hplain.below
    have hsearch : anyContains (saturatingTo 64 offset) 31 ranges = _ :=
      anyContains_of_plain hplain
    simp only [checkMload, getElem?_cons_zero, hsearch, Option.map_some,
      toNat_saturating (Nat.lt_of_add_right_lt hbelow)]
    rcases hend with hend | hend
    · have hgrow : memory.size < offset.toNat + 32 := by omega
      rw [if_neg (Nat.not_lt.mpr hend), decides_some]
      by_cases hwithin : Within ranges offset.toNat 32 <;>
        simp [hwithin, hgrow, Opcode.operandRegions, Interpreter.word, Region.Safe, Stops]
    · rw [if_pos (by omega), decides_some]
      simp [hend, Opcode.operandRegions, Interpreter.word, Region.Safe]

theorem checkCall_decides (h : Ordinary ranges interpreter .call) :
    Decides (checkCall ranges interpreter) (Disallowed ranges interpreter .call) := by
  obtain ⟨stack, memory⟩ := interpreter
  rw [disallowed_iff h.1]
  match stack, h with
  | gas :: toWord :: value :: argsOffset :: argsSize :: retOffset :: retSize :: rest, h =>
    have hplain : Region.Plain ranges ⟨retOffset.toNat, retSize.toNat, true⟩ := h.2.1
    have hread : argsOffset.toNat + argsSize.toNat ≤ memory.size := h.2.2.1
    have hselector : toWord.setWidth 160 = cheatcodeAddress → selectorLen ≤ argsSize.toNat :=
      h.2.2.2
    have hstops := (callsStop_reports ⟨gas :: toWord :: value :: argsOffset :: argsSize ::
      retOffset :: retSize :: rest, memory⟩ toWord argsOffset argsSize).eq_of_fits
        (fun hto => ⟨hselector hto, hread⟩) Iff.rfl
    simp only [checkCall, anyContains_of_plain hplain, Option.bind_some, hstops, Option.map_some]
    by_cases hfound : retSize.toNat = 0 ∨ Within ranges retOffset.toNat retSize.toNat
    · rcases hfound with hfound | hfound <;>
        simp [hfound, decides_some, Opcode.operandRegions, Interpreter.word, Region.Safe, hread]
    · obtain ⟨hempty, hwithin⟩ := not_or.mp hfound
      simp [hempty, hwithin, decides_some, Opcode.operandRegions, Interpreter.word, Region.Safe,
        Stops]
  | [], h | [_], h | [_, _], h | [_, _, _], h | [_, _, _, _], h | [_, _, _, _, _], h
  | [_, _, _, _, _, _], h => simp [Ordinary, Opcode.inputs] at h

instance (check : Option (Option String)) (condition : Prop) [Decidable condition] :
    Decidable (Decides check condition) :=
  match check with
  | none => isFalse nofun
  | some _ => decidable_of_iff _ decides_some.symm

instance (allowedMemWrites : HashMap U64 (List Range)) (depth : U64)
    (interpreter : Interpreter) (opcode : Opcode) :
    Decidable (Precise allowedMemWrites depth interpreter opcode) :=
  inferInstanceAs (Decidable (Decides _ _))

/-- A frame that has used its first three words of memory, and may use another one. -/
def fourthWord : HashMap U64 (List Range) := HashMap.empty.insert 1 [⟨0, 0x60⟩, ⟨0x80, 0xa0⟩]

def threeWords (stack : List U256) : Interpreter := ⟨stack, ⟨List.replicate 0x60 0, by decide⟩⟩

end Foundry.Cheatcodes.SafeMemory
