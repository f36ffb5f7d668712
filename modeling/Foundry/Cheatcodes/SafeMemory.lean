import Foundry.Base.HashMap
import Foundry.Cheatcodes.Inputs

/-!
# Safe memory

`expectSafeMemory` names the ranges of the memory that a frame may use.  Before each opcode of the
frame the inspector computes from the stack what the opcode is about to touch, and makes the frame
revert if that lies outside of the ranges.
-/

namespace Foundry.Cheatcodes.SafeMemory

structure Range where
  start : U64
  stop : U64
deriving DecidableEq

def Range.contains (range : Range) (offset : U64) : Bool :=
  decide (range.start ≤ offset ∧ offset < range.stop)

inductive Opcode where
  | mstore
  | mstore8
  | mload
  | mcopy
  | call
  | callcode
  | staticcall
  | delegatecall
  | calldatacopy
  | codecopy
  | returndatacopy
  | extcodecopy
  | keccak256
  | log (topics : Fin 5)
  | create
  | create2
  | ret
  | revert
  | other
deriving DecidableEq

/-- The memory of a frame; no allocation is larger than the greatest `isize`. -/
structure Memory where
  bytes : Bytes
  size_lt : bytes.length < 2 ^ 63

namespace Memory

def size (memory : Memory) : Nat := memory.bytes.length

theorem size_lt_pow (memory : Memory) : memory.size < 2 ^ 63 := memory.size_lt

/-- `slice_len`; `none` if the slice is out of bounds. -/
def sliceLen (memory : Memory) (offset size : U64) : Option Bytes :=
  if offset.toNat + size.toNat ≤ memory.size then
    some ((memory.bytes.drop offset.toNat).take size.toNat)
  else none

end Memory

structure Interpreter where
  stack : List U256
  memory : Memory

def selectorLen : Nat := 4

def stopExpectSafeMemorySelector : Bytes := [0x09, 0x56, 0x44, 0x1b]

/-! ## The check

`none` is a check that does not finish: an addition of offsets overflows, or a slice is out of
bounds.  `some none` lets the opcode run. -/

def checkedAdd (x y : U64) : Option U64 :=
  if x.toNat + y.toNat < 2 ^ 64 then some (x + y) else none

/-- Whether a range contains an offset and the one `span` after it, which is computed only for a
range that contains the first. -/
def anyContains (offset span : U64) : List Range → Option Bool
  | [] => some false
  | range :: ranges =>
    if range.contains offset then
      (checkedAdd offset span).bind fun last =>
        if range.contains last then some true else anyContains offset span ranges
    else anyContains offset span ranges

/-- A number as `{:02X}` prints it. -/
def hex (n : U64) : String :=
  let digits := (Nat.toDigits 16 n.toNat).map Char.toUpper
  String.ofList (List.replicate (2 - digits.length) '0' ++ digits)

def disallowedMemWrite (destOffset size : U64) (ranges : List Range) : String :=
  "memory write at offset 0x" ++ hex destOffset ++ " of size 0x" ++ hex size ++
    " not allowed; safe range: " ++
    " U ".intercalate (ranges.map fun r => "(0x" ++ hex r.start ++ ", 0x" ++ hex r.stop ++ "]")

section

variable (ranges : List Range) (interpreter : Interpreter)

def checkMstore : Option (Option String) :=
  match interpreter.stack[0]? with
  | none => some none
  | some word =>
    let offset := saturatingTo 64 word
    (anyContains offset 31 ranges).map fun safe =>
      if safe then none
      else
        match interpreter.stack[1]? with
        | none => none
        | some value =>
          -- the compiler stores the selector at the free memory pointer
          if (toBeBytes 32 value).take selectorLen = stopExpectSafeMemorySelector then none
          else some (disallowedMemWrite offset 32 ranges)

def checkMstore8 : Option (Option String) :=
  match interpreter.stack[0]? with
  | none => some none
  | some word =>
    let offset := saturatingTo 64 word
    if ranges.any fun range => range.contains offset then some none
    else some (some (disallowedMemWrite offset 1 ranges))

def checkMload : Option (Option String) :=
  match interpreter.stack[0]? with
  | none => some none
  | some word =>
    let offset := saturatingTo 64 word
    if offset.toNat < interpreter.memory.size then some none
    else
      (anyContains offset 31 ranges).map fun safe =>
        if safe then none else some (disallowedMemWrite offset 32 ranges)

/-- Whether the call is one of `stopExpectSafeMemory`, which reads its selector from the memory. -/
def callsStop (toWord argsOffset argsSize : U256) : Option Bool :=
  if toWord.setWidth 160 = cheatcodeAddress then
    (interpreter.memory.sliceLen (saturatingTo 64 argsOffset) (saturatingTo 64 argsSize)).bind
      fun memoryWord =>
        if memoryWord.length < selectorLen then none
        else some (decide (memoryWord.take selectorLen = stopExpectSafeMemorySelector))
  else some false

def checkCall : Option (Option String) :=
  match interpreter.stack with
  | _ :: toWord :: _ :: argsOffset :: argsSize :: retOffset :: retSize :: _ =>
    let destOffset := saturatingTo 64 retOffset
    let size := saturatingTo 64 retSize
    (anyContains destOffset (saturatingSub size 1) ranges).bind fun safe =>
      if safe then some none
      else
        (callsStop interpreter toWord argsOffset argsSize).map fun stops =>
          if stops then none else some (disallowedMemWrite destOffset size ranges)
  | _ => some none

/-- Whether an opcode with the offset and the size on the stack fails the check. -/
def failCond (memorySize : Nat) (writes : Bool) (destOffset size : U64) : Option Bool :=
  (anyContains destOffset (saturatingSub size 1) ranges).bind fun safe =>
    if safe then some false
    else if writes then some true
    else
      (checkedAdd destOffset size).map fun stop =>
        decide (memorySize ≤ destOffset.toNat ∨ memorySize ≤ (saturatingSub stop 1).toNat)

/-- The opcodes with the offset and the size on the stack: where on the stack the two are, and
whether the opcode writes. -/
def Opcode.memOperands : Opcode → Option (Nat × Nat × Bool)
  | .calldatacopy => some (0, 2, true)
  | .codecopy => some (0, 2, true)
  | .returndatacopy => some (0, 2, true)
  | .extcodecopy => some (1, 3, true)
  | .callcode => some (5, 6, true)
  | .staticcall => some (4, 5, true)
  | .delegatecall => some (4, 5, true)
  | .keccak256 => some (0, 1, false)
  | .log _ => some (0, 1, false)
  | .create => some (1, 2, false)
  | .create2 => some (1, 2, false)
  | .ret => some (0, 1, false)
  | .revert => some (0, 1, false)
  | _ => none

def checkOperands (offsetDepth sizeDepth : Nat) (writes : Bool) : Option (Option String) :=
  match interpreter.stack[offsetDepth]?, interpreter.stack[sizeDepth]? with
  | some offset, some size =>
    let destOffset := saturatingTo 64 offset
    let size := saturatingTo 64 size
    (failCond ranges interpreter.memory.size writes destOffset size).map fun fails =>
      if fails then some (disallowedMemWrite destOffset size ranges) else none
  | _, _ => some none

def checkRanges : Opcode → Option (Option String)
  | .mstore => checkMstore ranges interpreter
  | .mstore8 => checkMstore8 ranges interpreter
  | .mload => checkMload ranges interpreter
  | .call => checkCall ranges interpreter
  | opcode =>
    match opcode.memOperands with
    | some (offsetDepth, sizeDepth, writes) =>
      checkOperands ranges interpreter offsetDepth sizeDepth writes
    | none => some none

end

section

variable (allowedMemWrites : HashMap U64 (List Range))

def checkMemOpcodes (depth : U64)
    (interpreter : Interpreter) (opcode : Opcode) : Option (Option String) :=
  match allowedMemWrites.get depth with
  | none => some none
  | some ranges => checkRanges ranges interpreter opcode

/-! ## The ranges -/

/-- The ranges of a depth start with the scratch space and the free memory pointer. -/
def expectSafeMemory (start stop depth : U64) : Except String (HashMap U64 (List Range)) :=
  if start < stop then
    .ok (allowedMemWrites.insert depth
      ((allowedMemWrites.get depth).getD [⟨0, 0x60⟩] ++ [⟨start, stop⟩]))
  else
    .error ("memory range start (" ++ toString start.toNat ++ ") is greater than end (" ++
      toString stop.toNat ++ ")")

def stopExpectSafeMemory (depth : U64) : HashMap U64 (List Range) := allowedMemWrites.remove depth

end

/-! ## What the opcodes touch -/

structure Region where
  offset : Nat
  size : Nat
  writes : Bool

def Opcode.inputs : Opcode → Nat
  | .mload => 1
  | .mstore | .mstore8 | .keccak256 | .ret | .revert => 2
  | .mcopy | .calldatacopy | .codecopy | .returndatacopy | .create => 3
  | .extcodecopy | .create2 => 4
  | .staticcall | .delegatecall => 6
  | .call | .callcode => 7
  | .log topics => 2 + topics
  | .other => 0

/-- The regions an opcode touches when it finds its words on the stack. -/
def Opcode.operandRegions (opcode : Opcode) (word : Nat → Nat) : List Region :=
  match opcode with
  | .mstore => [⟨word 0, 32, true⟩]
  | .mstore8 => [⟨word 0, 1, true⟩]
  | .mload => [⟨word 0, 32, false⟩]
  | .mcopy => [⟨word 0, word 2, true⟩, ⟨word 1, word 2, false⟩]
  | .call | .callcode => [⟨word 5, word 6, true⟩, ⟨word 3, word 4, false⟩]
  | .staticcall | .delegatecall => [⟨word 4, word 5, true⟩, ⟨word 2, word 3, false⟩]
  | .calldatacopy | .codecopy | .returndatacopy => [⟨word 0, word 2, true⟩]
  | .extcodecopy => [⟨word 1, word 3, true⟩]
  | .keccak256 | .log _ | .ret | .revert => [⟨word 0, word 1, false⟩]
  | .create | .create2 => [⟨word 1, word 2, false⟩]
  | .other => []

def Interpreter.word (interpreter : Interpreter) (depth : Nat) : Nat :=
  (interpreter.stack.getD depth 0).toNat

/-- An opcode that lacks words on the stack stops the frame and touches nothing. -/
def Opcode.regions (opcode : Opcode) (interpreter : Interpreter) : List Region :=
  if interpreter.stack.length < opcode.inputs then []
  else opcode.operandRegions interpreter.word

section

variable (ranges : List Range)

def Touched (offset : Nat) : Prop :=
  ∃ range ∈ ranges, range.start.toNat ≤ offset ∧ offset < range.stop.toNat

def Within (offset size : Nat) : Prop :=
  ∃ range ∈ ranges, range.start.toNat ≤ offset ∧ offset + size ≤ range.stop.toNat

instance (offset : Nat) : Decidable (Touched ranges offset) :=
  inferInstanceAs (Decidable (∃ range ∈ ranges, _))

instance (offset size : Nat) : Decidable (Within ranges offset size) :=
  inferInstanceAs (Decidable (∃ range ∈ ranges, _))

/-- A region is safe if it is empty, is read without expanding the memory, or lies in a range. -/
def Region.Safe (memorySize : Nat) (region : Region) : Prop :=
  region.size = 0 ∨ (region.writes = false ∧ region.offset + region.size ≤ memorySize) ∨
    Within ranges region.offset region.size

instance (memorySize : Nat) (region : Region) : Decidable (region.Safe ranges memorySize) :=
  inferInstanceAs (Decidable (_ ∨ _ ∨ _))

/-- The bytes of the memory from an offset on, which end with as many zeros as one likes. -/
def Memory.word (memory : Memory) (offset size : Nat) : Bytes :=
  (memory.bytes.drop offset ++ List.replicate size 0).take size

section

variable (interpreter : Interpreter)

/-- The opcodes that are allowed so that `stopExpectSafeMemory` can be called. -/
def Stops : Opcode → Prop
  | .mstore =>
    (toBeBytes 32 (interpreter.stack.getD 1 0)).take selectorLen = stopExpectSafeMemorySelector
  | .call =>
    (interpreter.stack.getD 1 0).setWidth 160 = cheatcodeAddress ∧
      selectorLen ≤ interpreter.word 4 ∧
      interpreter.memory.word (interpreter.word 3) selectorLen = stopExpectSafeMemorySelector
  | _ => False

instance : (opcode : Opcode) → Decidable (Stops interpreter opcode)
  | .mstore => inferInstanceAs (Decidable (_ = _))
  | .call => inferInstanceAs (Decidable (_ ∧ _ ∧ _))
  | .mstore8 | .mload | .mcopy | .callcode | .staticcall | .delegatecall | .calldatacopy
  | .codecopy | .returndatacopy | .extcodecopy | .keccak256 | .log _ | .create | .create2 | .ret
  | .revert | .other => inferInstanceAs (Decidable False)

/-- An opcode that touches a region that is not safe. -/
def Disallowed (opcode : Opcode) : Prop :=
  (∃ region ∈ opcode.regions interpreter, ¬ region.Safe ranges interpreter.memory.size) ∧
    ¬ Stops interpreter opcode

instance (opcode : Opcode) : Decidable (Disallowed ranges interpreter opcode) :=
  inferInstanceAs (Decidable (_ ∧ _))

end

end

/-- A check finishes, and reverts if and only if a condition holds. -/
def Decides (check : Option (Option String)) (condition : Prop) : Prop :=
  ∃ revert, check = some revert ∧ (revert.isSome ↔ condition)

/-- The check makes the frame revert if and only if the opcode is disallowed. -/
def Precise (allowedMemWrites : HashMap U64 (List Range)) (depth : U64)
    (interpreter : Interpreter) (opcode : Opcode) : Prop :=
  Decides (checkMemOpcodes allowedMemWrites depth interpreter opcode)
    (∃ ranges ∈ allowedMemWrites.get depth, Disallowed ranges interpreter opcode)

end Foundry.Cheatcodes.SafeMemory
