import Foundry.Base.HashMap
import Foundry.Base.Words

/-!
# Program counters and instruction counters

The maps between the position of an instruction in bytes and its number, and the decoder of
instructions.  All three walk the code and skip the data of a `PUSH`.  The walk itself is given
here once, as the list of program counters, and each of the loops of the source follows it.

A code of more bytes than a `u32` counts is refused with a panic, which is `none`.  The table of
opcodes is a parameter.
-/

namespace Foundry.Evm.InstructionMaps

open List

abbrev U32 := BitVec 32

def u32Max : Nat := 2 ^ 32 - 1

/-! ## The maps -/

def push0 : BitVec 8 := 0x5f
def push1 : BitVec 8 := 0x60
def push32 : BitVec 8 := 0x7f

def pushSize (opcode : BitVec 8) : Nat :=
  if push1 ≤ opcode ∧ opcode ≤ push32 then (opcode - push0).toNat else 0

/-- The loop of `make_map`.  The difference is never truncated: the push sizes are counted in `pc`
as well. -/
def makeMapLoop (pcFirst : Bool) (code : Bytes) (pc cumulativePushSize : Nat)
    (map : HashMap U32 U32) : HashMap U32 U32 :=
  if h : pc < code.length then
    let ic := pc - cumulativePushSize
    let map :=
      if pcFirst then map.insert (BitVec.ofNat 32 pc) (BitVec.ofNat 32 ic)
      else map.insert (BitVec.ofNat 32 ic) (BitVec.ofNat 32 pc)
    let size := pushSize (code.get ⟨pc, h⟩)
    makeMapLoop pcFirst code (pc + size + 1) (cumulativePushSize + size) map
  else map
termination_by code.length - pc

def makeMap (pcFirst : Bool) (code : Bytes) : Option (HashMap U32 U32) :=
  if code.length ≤ u32Max then some (makeMapLoop pcFirst code 0 0 .empty) else none

def pcIcMap (code : Bytes) : Option (HashMap U32 U32) := makeMap true code

def icPcMap (code : Bytes) : Option (HashMap U32 U32) := makeMap false code

/-! ## The decoder -/

/-- The table of opcodes: which bytes are opcodes, how many bytes of data follow one, and which
ones `is_push` is true of. -/
structure OpcodeTable where
  isOpcode : BitVec 8 → Bool
  immediateSize : BitVec 8 → Nat
  isPush : BitVec 8 → Bool

/-- `OpCode::new`; an opcode is its byte. -/
def OpcodeTable.new (table : OpcodeTable) (byte : BitVec 8) : Option (BitVec 8) :=
  if table.isOpcode byte then some byte else none

/-- The pushes with data are opcodes, and no other one has an immediate. -/
structure OpcodeTable.Lawful (table : OpcodeTable) : Prop where
  isOpcode : ∀ byte, push1 ≤ byte → byte ≤ push32 → table.isOpcode byte = true
  isPush : ∀ byte, push1 ≤ byte → byte ≤ push32 → table.isPush byte = true
  immediateSize : ∀ byte, table.immediateSize byte = pushSize byte

structure Instruction where
  op : Option (BitVec 8)
  immediate : Bytes
  pc : U32
deriving DecidableEq

/-- The loop of `decode_instructions`. -/
def decodeLoop (table : OpcodeTable) (code : Bytes) (pc : Nat) :
    Except String (List Instruction) :=
  if h : pc < code.length then
    let op := table.new (code.get ⟨pc, h⟩)
    let nextPc := pc + 1
    let immediateSize := (op.map table.immediateSize).getD 0
    let isNormalPush := (op.map table.isPush).getD false
    if !isNormalPush && decide (code.length < nextPc + immediateSize) then
      .error "incomplete sequence of bytecode"
    else
      let immediateEnd := min (nextPc + immediateSize) code.length
      let immediatePart := (code.drop nextPc).take (immediateEnd - nextPc)
      let immediate := immediatePart ++ List.replicate (immediateSize - immediatePart.length) 0
      (decodeLoop table code (nextPc + immediateSize)).map
        (⟨op, immediate, BitVec.ofNat 32 pc⟩ :: ·)
  else .ok []
termination_by code.length - pc

def decodeInstructions (table : OpcodeTable) (code : Bytes) :
    Option (Except String (List Instruction)) :=
  if code.length ≤ u32Max then some (decodeLoop table code 0) else none

/-! ## The walk -/

def walk (code : Bytes) (pc : Nat) : List Nat :=
  if h : pc < code.length then pc :: walk code (pc + 1 + pushSize (code.get ⟨pc, h⟩)) else []
termination_by code.length - pc

/-- The program counters of a code: the first byte, and each byte after an instruction. -/
inductive IsInstruction (code : Bytes) : Nat → Prop
  | first : 0 < code.length → IsInstruction code 0
  | next {pc : Nat} (h : pc < code.length) : IsInstruction code pc →
      pc + 1 + pushSize (code.get ⟨pc, h⟩) < code.length →
      IsInstruction code (pc + 1 + pushSize (code.get ⟨pc, h⟩))

variable {code : Bytes} (table : OpcodeTable) {pc : Nat}

theorem walk_of_lt (h : pc < code.length) :
    walk code pc = pc :: walk code (pc + 1 + pushSize (code.get ⟨pc, h⟩)) := by
  rw [walk, dif_pos h]

theorem walk_of_le (h : code.length ≤ pc) : walk code pc = [] := by
  rw [walk, dif_neg (Nat.not_lt_of_le h)]

theorem walk_induction (code : Bytes) {motive : Nat → Prop}
    (stop : ∀ pc, code.length ≤ pc → motive pc)
    (step : ∀ pc (h : pc < code.length), motive (pc + 1 + pushSize (code.get ⟨pc, h⟩)) → motive pc)
    (pc : Nat) : motive pc := by
  fun_induction walk code pc with
  | case1 pc h ih => exact step pc h ih
  | case2 pc h => exact stop pc (Nat.le_of_not_lt h)

theorem walk_bounds (pc : Nat) : ∀ p ∈ walk code pc, pc ≤ p ∧ p < code.length := by
  induction pc using walk_induction code with
  | stop pc h => simp [walk_of_le h]
  | step pc h ih =>
    rw [walk_of_lt h, forall_mem_cons]
    refine ⟨⟨Nat.le_refl _, h⟩, fun p hp => ?_⟩
    have hlater := ih p hp
    omega

theorem pairwise_walk (code : Bytes) (pc : Nat) : (walk code pc).Pairwise (· < ·) := by
  induction pc using walk_induction code with
  | stop pc h => simp [walk_of_le h]
  | step pc h ih =>
    rw [walk_of_lt h, pairwise_cons]
    refine ⟨fun p hp => ?_, ih⟩
    have hlater := walk_bounds _ p hp
    omega

theorem length_walk_le (code : Bytes) (pc : Nat) : (walk code pc).length ≤ code.length - pc := by
  induction pc using walk_induction code with
  | stop pc h => simp [walk_of_le h]
  | step pc h ih =>
    rw [walk_of_lt h, length_cons]
    omega

theorem isInstruction_of_mem_walk (hpc : pc < code.length → IsInstruction code pc) :
    ∀ p ∈ walk code pc, IsInstruction code p := by
  induction pc using walk_induction code with
  | stop pc h => simp [walk_of_le h]
  | step pc h ih =>
    rw [walk_of_lt h, forall_mem_cons]
    exact ⟨hpc h, ih fun hnext => .next h (hpc h) hnext⟩

private theorem next_mem_walk {start pc : Nat} (hpc : pc ∈ walk code start) (h : pc < code.length)
    (hnext : pc + 1 + pushSize (code.get ⟨pc, h⟩) < code.length) :
    pc + 1 + pushSize (code.get ⟨pc, h⟩) ∈ walk code start := by
  induction start using walk_induction code with
  | stop start hstop => simp [walk_of_le hstop] at hpc
  | step start hstart ih =>
    rw [walk_of_lt hstart, mem_cons] at hpc ⊢
    rcases hpc with rfl | hlater
    · right
      rw [walk_of_lt hnext]
      exact mem_cons_self
    · exact .inr (ih hlater)

private theorem mem_walk : pc ∈ walk code 0 ↔ IsInstruction code pc := by
  constructor
  · exact isInstruction_of_mem_walk IsInstruction.first pc
  · intro h
    induction h with
    | first h =>
      rw [walk_of_lt h]
      exact mem_cons_self
    | next h _ hnext ih => exact next_mem_walk ih h hnext

/-! ## The maps follow the walk -/

/-- The entries of a map: each program counter with its number. -/
def entries (pcFirst : Bool) (pcs : List Nat) (first : Nat) : List (U32 × U32) :=
  (pcs.zipIdx first).map fun (pc, ic) =>
    if pcFirst then (BitVec.ofNat 32 pc, BitVec.ofNat 32 ic)
    else (BitVec.ofNat 32 ic, BitVec.ofNat 32 pc)

theorem makeMapLoop_eq (pcFirst : Bool) {pc cumulativePushSize : Nat}
    (h : cumulativePushSize ≤ pc) (map : HashMap U32 U32) :
    makeMapLoop pcFirst code pc cumulativePushSize map =
      map.insertAll (entries pcFirst (walk code pc) (pc - cumulativePushSize)) := by
  induction pc using walk_induction code generalizing cumulativePushSize map with
  | stop pc hstop =>
    rw [makeMapLoop, dif_neg (Nat.not_lt_of_le hstop), walk_of_le hstop]
    rfl
  | step pc hpc ih =>
    rw [makeMapLoop, dif_pos hpc, walk_of_lt hpc]
    generalize pushSize (code.get ⟨pc, hpc⟩) = size at ih
    have hpc' : pc + size + 1 = pc + 1 + size := by omega
    have hic : pc + 1 + size - (cumulativePushSize + size) = pc - cumulativePushSize + 1 := by omega
    simp only
    rw [hpc', ih (by omega), hic]
    cases pcFirst <;> rfl

theorem mem_entries {pcFirst : Bool} {pcs : List Nat} {entry : U32 × U32} :
    entry ∈ entries pcFirst pcs 0 ↔
      ∃ ic pc, pcs[ic]? = some pc ∧
        entry = if pcFirst then (BitVec.ofNat 32 pc, BitVec.ofNat 32 ic)
          else (BitVec.ofNat 32 ic, BitVec.ofNat 32 pc) := by
  unfold entries
  rw [mem_map]
  constructor
  · rintro ⟨⟨pc, ic⟩, hmem, rfl⟩
    exact ⟨ic, pc, mem_zipIdx_iff_getElem?.mp hmem, rfl⟩
  · rintro ⟨ic, pc, hget, rfl⟩
    exact ⟨(pc, ic), mem_zipIdx_iff_getElem?.mpr hget, rfl⟩

section Small

variable (hlen : code.length ≤ u32Max)

include hlen

theorem toNat_ofNat_of_walk {ic pc : Nat} (h : (walk code 0)[ic]? = some pc) :
    (BitVec.ofNat 32 pc).toNat = pc ∧ (BitVec.ofNat 32 ic).toNat = ic := by
  have hbound := (walk_bounds 0 pc (mem_of_getElem? h)).2
  have hcount := length_walk_le code 0
  obtain ⟨hic, _⟩ := List.getElem?_eq_some_iff.mp h
  unfold u32Max at hlen
  rw [BitVec.toNat_ofNat, BitVec.toNat_ofNat, Nat.mod_eq_of_lt (by omega),
    Nat.mod_eq_of_lt (by omega)]
  exact ⟨rfl, rfl⟩

theorem nodup_keys (pcFirst : Bool) : ((entries pcFirst (walk code 0) 0).map Prod.fst).Nodup := by
  rw [List.Nodup, pairwise_iff_getElem]
  intro i j hi hj hij heq
  simp only [entries, length_map, length_zipIdx] at hi hj
  obtain ⟨hpc, hic⟩ := toNat_ofNat_of_walk hlen (getElem?_eq_getElem hi)
  obtain ⟨hpc', hic'⟩ := toNat_ofNat_of_walk hlen (getElem?_eq_getElem hj)
  have hless := pairwise_iff_getElem.mp (pairwise_walk code 0) i j hi hj hij
  simp only [entries, getElem_map, getElem_zipIdx, Nat.zero_add] at heq
  have hnat := congrArg BitVec.toNat heq
  cases pcFirst with
  | false =>
    simp only [Bool.false_eq_true, if_false] at hnat
    omega
  | true =>
    simp only [if_true] at hnat
    omega

private theorem get_makeMapLoop (pcFirst : Bool) (pc ic : U32) :
    (makeMapLoop pcFirst code 0 0 .empty).get (if pcFirst then pc else ic) =
        some (if pcFirst then ic else pc) ↔
      (walk code 0)[ic.toNat]? = some pc.toNat := by
  rw [makeMapLoop_eq pcFirst (Nat.le_refl 0),
    HashMap.get_insertAll_iff (nodup_keys hlen pcFirst) (HashMap.get_empty _), mem_entries]
  constructor
  · rintro ⟨ic', pc', hget, hentry⟩
    obtain ⟨hpc, hic⟩ := toNat_ofNat_of_walk hlen hget
    obtain ⟨rfl, rfl⟩ : pc = BitVec.ofNat 32 pc' ∧ ic = BitVec.ofNat 32 ic' := by
      cases pcFirst <;> simp_all
    rw [hpc, hic, hget]
  · intro hget
    exact ⟨ic.toNat, pc.toNat, hget, by cases pcFirst <;> simp⟩

end Small

/-! ## The decoder follows the walk -/

def instructionAt (table : OpcodeTable) (code : Bytes) (pc : Nat) : Instruction :=
  let size := pushSize (code.getD pc 0)
  let data := (code.drop (pc + 1)).take size
  { op := table.new (code.getD pc 0)
    immediate := data ++ List.replicate (size - data.length) 0
    pc := BitVec.ofNat 32 pc }

section Decoder

variable {table : OpcodeTable} (htable : table.Lawful) (byte : BitVec 8)

include htable

/-- The decoder sees the same data after an opcode as the maps, and never refuses it. -/
theorem immediateSize_eq : ((table.new byte).map table.immediateSize).getD 0 = pushSize byte := by
  unfold OpcodeTable.new
  split
  · exact htable.immediateSize byte
  · next hundefined =>
    unfold pushSize
    split
    · next hpush => exact absurd (htable.isOpcode byte hpush.1 hpush.2) hundefined
    · rfl

theorem not_refused {nextPc length : Nat} (h : nextPc ≤ length) :
    (!((table.new byte).map table.isPush).getD false &&
      decide (length < nextPc + pushSize byte)) = false := by
  by_cases hpush : push1 ≤ byte ∧ byte ≤ push32
  · simp [OpcodeTable.new, htable.isOpcode _ hpush.1 hpush.2, htable.isPush _ hpush.1 hpush.2]
  · have hsize : pushSize byte = 0 := if_neg hpush
    rw [decide_eq_false (by omega), Bool.and_false]

theorem decodeLoop_eq (pc : Nat) :
    decodeLoop table code pc = .ok ((walk code pc).map (instructionAt table code)) := by
  induction pc using walk_induction code with
  | stop pc h =>
    rw [decodeLoop, dif_neg (Nat.not_lt_of_le h), walk_of_le h]
    rfl
  | step pc h ih =>
    have hbyte : code.getD pc 0 = code.get ⟨pc, h⟩ := by simp [h]
    have hdata : (code.drop (pc + 1)).take
          (min (pc + 1 + pushSize (code.get ⟨pc, h⟩)) code.length - (pc + 1)) =
        (code.drop (pc + 1)).take (pushSize (code.get ⟨pc, h⟩)) := by
      rw [take_eq_take_iff, length_drop]
      omega
    rw [decodeLoop, dif_pos h, walk_of_lt h]
    simp only [immediateSize_eq htable, not_refused htable (code.get ⟨pc, h⟩) h, ih, hdata]
    rw [map_cons, instructionAt, hbyte]
    rfl

end Decoder

/-! ## The bytes of the instructions -/

/-- The opcode of an instruction, or its byte if that is none, and its data. -/
def written (code : Bytes) (step : Instruction) : Bytes :=
  step.op.getD (code.getD step.pc.toNat 0) :: step.immediate

theorem written_instructionAt (h : (BitVec.ofNat 32 pc).toNat = pc) :
    written code (instructionAt table code pc) =
      code.getD pc 0 :: (instructionAt table code pc).immediate := by
  have hop : (table.new (code.getD pc 0)).getD (code.getD pc 0) = code.getD pc 0 := by
    unfold OpcodeTable.new
    split <;> rfl
  simp only [written, instructionAt, h, hop]

/-- The bytes of the instructions are those of the code, up to the data that a `PUSH` at the end
lacks. -/
theorem flatMap_walk (hpc : pc ≤ code.length) :
    ∃ padding,
      (walk code pc).flatMap (fun p => code.getD p 0 :: (instructionAt table code p).immediate) =
        code.drop pc ++ List.replicate padding 0 ∧
      (padding ≠ 0 → ∃ last, (walk code pc).getLast? = some last ∧
        code.length + padding = last + 1 + pushSize (code.getD last 0)) := by
  induction pc using walk_induction code with
  | stop pc h =>
    refine ⟨0, ?_, fun hpadding => absurd rfl hpadding⟩
    rw [walk_of_le h, drop_of_length_le h]
    rfl
  | step pc h ih =>
    have hbyte : code.getD pc 0 = code.get ⟨pc, h⟩ := by simp [h]
    have hdrop : code.drop pc = code.get ⟨pc, h⟩ :: code.drop (pc + 1) :=
      drop_eq_getElem_cons h
    rw [walk_of_lt h, flatMap_cons, instructionAt, hbyte, hdrop]
    generalize hsize : pushSize (code.get ⟨pc, h⟩) = size at ih
    by_cases hnext : pc + 1 + size ≤ code.length
    · obtain ⟨padding, hbytes, hlast⟩ := ih hnext
      have hfull : ((code.drop (pc + 1)).take size).length = size := by
        rw [length_take, length_drop]
        omega
      have hsplit := take_append_drop size (code.drop (pc + 1))
      rw [drop_drop] at hsplit
      refine ⟨padding, ?_, fun hpadding => ?_⟩
      · rw [hbytes, hfull, Nat.sub_self, replicate_zero, append_nil, cons_append,
          ← append_assoc, hsplit, cons_append]
      · obtain ⟨last, hsome, hend⟩ := hlast hpadding
        exact ⟨last, by rw [getLast?_cons, hsome]; rfl, hend⟩
    · have hall : (code.drop (pc + 1)).take size = code.drop (pc + 1) :=
        take_of_length_le (by rw [length_drop]; omega)
      rw [hall, walk_of_le (by omega), flatMap_nil, append_nil]
      refine ⟨_, rfl, fun _ => ⟨pc, rfl, ?_⟩⟩
      rw [hbyte, length_drop]
      omega

/-! ## Agreement -/

/-- The maps and the decoder describe the same instructions.  The bytes of an instruction are
given by `bytes`. -/
structure Agree (code : Bytes) (bytes : Instruction → Bytes) (pcIc icPc : HashMap U32 U32)
    (steps : List Instruction) : Prop where
  inverse : ∀ pc ic, pcIc.get pc = some ic ↔ icPc.get ic = some pc
  pcs : ∀ pc, (∃ ic, pcIc.get pc = some ic) ↔ IsInstruction code pc.toNat
  ics : ∀ ic, (∃ pc, icPc.get ic = some pc) ↔ ic.toNat < steps.length
  increasing : ∀ ic ic' pc pc', icPc.get ic = some pc → icPc.get ic' = some pc' →
    ic < ic' → pc < pc'
  listed : ∀ ic pc, icPc.get ic = some pc ↔ (steps[ic.toNat]?).map Instruction.pc = some pc
  concatenated : ∃ padding, steps.flatMap bytes = code ++ List.replicate padding 0 ∧
    (padding ≠ 0 → ∃ last, steps.getLast? = some last ∧
      code.length + padding = last.pc.toNat + 1 + pushSize (code.getD last.pc.toNat 0))

def Described (table : OpcodeTable) (code : Bytes) (bytes : Instruction → Bytes) : Prop :=
  ∃ pcIc icPc steps, pcIcMap code = some pcIc ∧ icPcMap code = some icPc ∧
    decodeInstructions table code = some (.ok steps) ∧ Agree code bytes pcIc icPc steps

/-- Maps that number the walk over the code agree with it. -/
theorem agree_of_walk (hlen : code.length ≤ u32Max) {pcIc icPc : HashMap U32 U32}
    (hpcIc : ∀ pc ic, pcIc.get pc = some ic ↔ (walk code 0)[ic.toNat]? = some pc.toNat)
    (hicPc : ∀ ic pc, icPc.get ic = some pc ↔ (walk code 0)[ic.toNat]? = some pc.toNat) :
    Agree code (written code) pcIc icPc ((walk code 0).map (instructionAt table code)) where
  inverse pc ic := (hpcIc pc ic).trans (hicPc ic pc).symm
  pcs pc := by
    rw [← mem_walk, mem_iff_getElem?]
    constructor
    · intro ⟨ic, h⟩
      exact ⟨ic.toNat, (hpcIc pc ic).mp h⟩
    · intro ⟨ic, h⟩
      obtain ⟨_, hic⟩ := toNat_ofNat_of_walk hlen h
      exact ⟨BitVec.ofNat 32 ic, (hpcIc pc _).mpr (by rw [hic, h])⟩
  ics ic := by
    rw [length_map]
    constructor
    · intro ⟨pc, h⟩
      exact (List.getElem?_eq_some_iff.mp ((hicPc ic pc).mp h)).1
    · intro h
      have hget := List.getElem?_eq_getElem h
      obtain ⟨hpc, _⟩ := toNat_ofNat_of_walk hlen hget
      exact ⟨BitVec.ofNat 32 _, (hicPc ic _).mpr (by rw [hpc, hget])⟩
  increasing ic ic' pc pc' h h' hless := by
    obtain ⟨hic, hpc⟩ := List.getElem?_eq_some_iff.mp ((hicPc ic pc).mp h)
    obtain ⟨hic', hpc'⟩ := List.getElem?_eq_some_iff.mp ((hicPc ic' pc').mp h')
    rw [BitVec.lt_def, ← hpc, ← hpc']
    exact pairwise_iff_getElem.mp (pairwise_walk code 0) _ _ hic hic' hless
  listed ic pc := by
    rw [hicPc, getElem?_map]
    cases hget : (walk code 0)[ic.toNat]? with
    | none => simp
    | some p =>
      obtain ⟨hp, _⟩ := toNat_ofNat_of_walk hlen hget
      simp only [Option.map_some, Option.some.injEq, instructionAt]
      constructor
      · rintro rfl
        simp
      · rintro rfl
        exact hp.symm
  concatenated := by
    obtain ⟨padding, hbytes, hlast⟩ := flatMap_walk table (Nat.zero_le code.length)
    have hsmall : ∀ p ∈ walk code 0, (BitVec.ofNat 32 p).toNat = p := fun p hp => by
      obtain ⟨i, hi⟩ := mem_iff_getElem?.mp hp
      exact (toNat_ofNat_of_walk hlen hi).1
    refine ⟨padding, ?_, fun hpadding => ?_⟩
    · rw [flatMap_map, ← drop_zero (l := code), ← hbytes]
      exact flatMap_congr fun p hp => written_instructionAt table (hsmall p hp)
    · obtain ⟨last, hsome, hend⟩ := hlast hpadding
      have hpc : (instructionAt table code last).pc.toNat = last :=
        hsmall last (mem_of_getLast? hsome)
      exact ⟨instructionAt table code last, by rw [getLast?_map, hsome]; rfl,
        by rw [hpc]; exact hend⟩

/-- The maps are inverse to each other and agree with the decoder, up to the code size for which
all of them panic.  A byte that is no opcode is not kept by its instruction. -/
theorem instruction_maps_agree (htable : table.Lawful) (code : Bytes) :
    (code.length ≤ u32Max → Described table code (written code)) ∧
      (u32Max < code.length →
        pcIcMap code = none ∧ icPcMap code = none ∧ decodeInstructions table code = none) := by
  constructor
  · intro hlen
    have hsteps : decodeInstructions table code =
        some (.ok ((walk code 0).map (instructionAt table code))) := by
      rw [decodeInstructions, if_pos hlen, decodeLoop_eq htable]
    exact ⟨_, _, _, if_pos hlen, if_pos hlen, hsteps, agree_of_walk table hlen
      (get_makeMapLoop hlen true) fun ic pc => get_makeMapLoop hlen false pc ic⟩
  · intro hlen
    have hlong : ¬ code.length ≤ u32Max := Nat.not_le_of_lt hlen
    exact ⟨if_neg hlong, if_neg hlong, if_neg hlong⟩

/-- A table with the pushes, in which `0x0c` is no opcode. -/
def pushTable : OpcodeTable where
  isOpcode byte := byte != 0x0c
  immediateSize := pushSize
  isPush byte := decide (push1 ≤ byte ∧ byte ≤ push32)

theorem lawful_pushTable : pushTable.Lawful where
  isOpcode := by decide
  isPush byte h h' := decide_eq_true ⟨h, h'⟩
  immediateSize _ := rfl

/-- A code that ends in the middle of a `PUSH2`. -/
theorem instruction_maps_agree_truncated :
    pushTable.Lawful ∧
      ([0x0c, 0x61, 0xaa].length ≤ u32Max →
        Described pushTable [0x0c, 0x61, 0xaa] (written [0x0c, 0x61, 0xaa])) ∧
      (u32Max < [0x0c, 0x61, 0xaa].length →
        pcIcMap [0x0c, 0x61, 0xaa] = none ∧ icPcMap [0x0c, 0x61, 0xaa] = none ∧
          decodeInstructions pushTable [0x0c, 0x61, 0xaa] = none) :=
  ⟨lawful_pushTable, instruction_maps_agree pushTable lawful_pushTable [0x0c, 0x61, 0xaa]⟩

/-- The opcodes that were decoded, with their immediates, are not the code if a byte is no
opcode. -/
theorem opcodes_not_bytes :
    ¬ ∀ table : OpcodeTable, table.Lawful → ∀ code : Bytes,
      Described table code (fun step => step.op.toList ++ step.immediate) := by
  intro h
  obtain ⟨_, _, steps, _, _, hsteps, hagree⟩ := h pushTable lawful_pushTable [0x0c]
  obtain ⟨padding, hbytes, _⟩ := hagree.concatenated
  rw [decodeInstructions, decodeLoop_eq lawful_pushTable,
    walk_of_lt (by decide), walk_of_le (by decide)] at hsteps
  cases hsteps
  cases hbytes

end Foundry.Evm.InstructionMaps
