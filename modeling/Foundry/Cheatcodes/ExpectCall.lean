import Foundry.Base.Enumeration
import Foundry.Base.HashMap
import Foundry.Cheatcodes.Inputs

/-!
# Expected calls

`expectCall` asks for calls to an address with a prefix of their calldata and, if given, a value
and a limit of gas.  The expectations are kept by address and calldata, each with the number of
calls seen; the end of the root call compares that number with the expected one.
-/

namespace Foundry.Cheatcodes

inductive ExpectedCallType where
  | count
  | nonCount
deriving DecidableEq

structure ExpectedCallData where
  value : Option U256
  gas : Option U64
  minGas : Option U64
  count : Nat
  callType : ExpectedCallType
deriving DecidableEq

/-- The expected calls by target and calldata, with the number of those seen. -/
abbrev ExpectedCalls := HashMap Address (HashMap Bytes (ExpectedCallData × Nat))

def positiveValueCostStipend : U64 := 2300

def addStipend (value : Option U256) (gas : Option U64) : Option U64 :=
  match value with
  | some value => if 0 < value then gas.map (· + positiveValueCostStipend) else gas
  | none => gas

namespace ExpectedCalls

def expectCall (self : ExpectedCalls) (target : Address) (calldata : Bytes)
    (value : Option U256) (gas minGas : Option U64) (count : Nat)
    (callType : ExpectedCallType) : Except String ExpectedCalls :=
  let expecteds := (self.get target).getD .empty
  let insert expected := self.insert target (expecteds.insert calldata expected)
  let expected : ExpectedCallData :=
    ⟨value, addStipend value gas, addStipend value minGas, count, callType⟩
  match callType with
  | .count =>
    if expecteds.contains calldata then .error "counted expected calls can only bet set once"
    else .ok (insert (expected, 0))
  | .nonCount =>
    match expecteds.get calldata with
    | some (first, actualCount) =>
      if first.callType = .nonCount then
        -- the conditions stay those of the first
        .ok (insert ({ first with count := first.count + 1 }, actualCount))
      else .error "cannot overwrite a counted expectCall with a non-counted expectCall"
    | none => .ok (insert (expected, 0))

end ExpectedCalls

/-- Whether a call is one of those expected with a calldata. -/
def ExpectedCallData.isMatch (expected : ExpectedCallData) (calldata : Bytes)
    (call : CallInputs) : Bool :=
  calldata.length ≤ call.input.length && calldata = call.input.take calldata.length &&
    expected.value.all (fun value => some value = call.transferValue) &&
    expected.gas.all (fun gas => gas = call.gasLimit) &&
    expected.minGas.all (fun minGas => minGas ≤ call.gasLimit)

/-- The call's expectation, seen once more if the call is one of those expected. -/
def ExpectedCallData.observe (call : CallInputs) (calldata : Bytes) :
    ExpectedCallData × Nat → ExpectedCallData × Nat
  | (expected, actualCount) =>
    (expected, if expected.isMatch calldata call then actualCount + 1 else actualCount)

def ExpectedCallData.failed (expected : ExpectedCallData) (actualCount : Nat) : Bool :=
  match expected.callType with
  | .count => expected.count ≠ actualCount
  | .nonCount => expected.count > actualCount

/-- What the message of a failed expectation is made from. -/
structure CallMismatch where
  address : Address
  calldata : Bytes
  expected : ExpectedCallData
  actualCount : Nat
deriving DecidableEq

namespace ExpectedCalls

/-- The hook of a call: calls that the inspector answers are not counted. -/
def call (self : ExpectedCalls) (call : CallInputs) : ExpectedCalls :=
  if call.cheatcodeCall then self
  else self.update call.bytecodeAddress fun expecteds =>
    expecteds.mapValues (ExpectedCallData.observe call)

/-- The hook of the end of the root call, with the orders of the hash maps; a call that reverted
is left as it is. -/
def rootCallEnd (addresses : Enumeration Address) (calldatas : Address → Enumeration Bytes)
    (isRevert : Bool) (self : ExpectedCalls) : Option CallMismatch :=
  if isRevert then none
  else
    (addresses.visit self.keys).findSome? fun address =>
      (self.get address).bind fun expecteds =>
        ((calldatas address).visit expecteds.keys).findSome? fun calldata =>
          (expecteds.get calldata).bind fun (expected, actualCount) =>
            if expected.failed actualCount then
              some ⟨address, calldata, expected, actualCount⟩
            else none

end ExpectedCalls

/-! ## The cheatcodes -/

/-- The arguments of a cheatcode; without a count it asks for one more call. -/
structure CallRegistration where
  target : Address
  calldata : Bytes
  value : Option U256
  gas : Option U64
  minGas : Option U64
  count : Option Nat
deriving DecidableEq

namespace CallRegistration

section

variable (callee : Address)

def expectCall0 (data : Bytes) : CallRegistration := ⟨callee, data, none, none, none, none⟩

def expectCall1 (data : Bytes) (count : U64) : CallRegistration :=
  ⟨callee, data, none, none, none, some count.toNat⟩

section

variable (msgValue : U256)

def expectCall2 (data : Bytes) : CallRegistration := ⟨callee, data, some msgValue, none, none, none⟩

def expectCall3 (data : Bytes) (count : U64) : CallRegistration :=
  ⟨callee, data, some msgValue, none, none, some count.toNat⟩

def expectCall4 (gas : U64) (data : Bytes) : CallRegistration :=
  ⟨callee, data, some msgValue, some gas, none, none⟩

def expectCall5 (gas : U64) (data : Bytes) (count : U64) : CallRegistration :=
  ⟨callee, data, some msgValue, some gas, none, some count.toNat⟩

def expectCallMinGas0 (minGas : U64) (data : Bytes) : CallRegistration :=
  ⟨callee, data, some msgValue, none, some minGas, none⟩

def expectCallMinGas1 (minGas : U64) (data : Bytes) (count : U64) : CallRegistration :=
  ⟨callee, data, some msgValue, none, some minGas, some count.toNat⟩

end

end

def callType (registration : CallRegistration) : ExpectedCallType :=
  if registration.count.isSome then .count else .nonCount

def apply (calls : ExpectedCalls) (registration : CallRegistration) :
    Except String ExpectedCalls :=
  calls.expectCall registration.target registration.calldata registration.value registration.gas
    registration.minGas (registration.count.getD 1) registration.callType

def applyAll (registrations : List CallRegistration) : Except String ExpectedCalls :=
  registrations.foldlM apply .empty

end CallRegistration

/-! ## What is documented -/

/-- A condition on an optional word is decided at that word, not by trying all words. -/
instance (priority := 2000) decidableForallWord {w : Nat} (word : Option (BitVec w))
    (condition : BitVec w → Prop) [DecidablePred condition] :
    Decidable (∀ x ∈ word, condition x) :=
  match word with
  | none => isTrue nofun
  | some x => decidable_of_iff (condition x) (by simp)

namespace CallRegistration

section

variable (registration : CallRegistration)

def stipend : Nat :=
  if registration.value.any (0 < ·) then positiveValueCostStipend.toNat else 0

/-- A call to the target whose input starts with the calldata, and which meets every condition
that is given. -/
def Matches (call : CallInputs) : Prop :=
  call.bytecodeAddress = registration.target ∧ registration.calldata <+: call.input ∧
    (∀ value ∈ registration.value, call.transferValue = some value) ∧
    (∀ gas ∈ registration.gas, call.gasLimit.toNat = gas.toNat + registration.stipend) ∧
    ∀ minGas ∈ registration.minGas, minGas.toNat + registration.stipend ≤ call.gasLimit.toNat

instance (call : CallInputs) : Decidable (registration.Matches call) :=
  inferInstanceAs (Decidable (_ ∧ _ ∧ _ ∧ _ ∧ _))

end

variable (registrations : List CallRegistration) (calls : List CallInputs)
  (registration : CallRegistration)

/-- A counted registration is matched exactly as often, another at least as often as it was
made. -/
def Unmet : Prop :=
  match registration.count with
  | some count => calls.countP (registration.Matches ·) ≠ count
  | none => calls.countP (registration.Matches ·) < registrations.count registration

instance : Decidable (registration.Unmet registrations calls) := by
  unfold Unmet
  cases registration.count <;> infer_instance

/-! ## What the table stands for -/

def keyed (target : Address) (calldata : Bytes) : List CallRegistration :=
  registrations.filter fun other => other.target = target ∧ other.calldata = calldata

def siblings : List CallRegistration :=
  keyed registrations registration.target registration.calldata

/-- The data of a registration that is the first of its target and calldata. -/
def data : ExpectedCallData :=
  ⟨registration.value, addStipend registration.value registration.gas,
    addStipend registration.value registration.minGas, registration.count.getD 1,
    registration.callType⟩

def Seen (call : CallInputs) : Prop :=
  call.cheatcodeCall = false ∧ call.bytecodeAddress = registration.target ∧
    registration.data.isMatch registration.calldata call

instance (call : CallInputs) : Decidable (registration.Seen call) :=
  inferInstanceAs (Decidable (_ ∧ _ ∧ _))

/-- The first registration of the target and calldata is not seen exactly as often, or less often
than there are such registrations. -/
def Missed : Prop :=
  match registration.siblings registrations with
  | [] => False
  | first :: rest =>
    match first.count with
    | some count => calls.countP (first.Seen ·) ≠ count
    | none => calls.countP (first.Seen ·) < rest.length + 1

instance : Decidable (registration.Missed registrations calls) := by
  unfold Missed
  cases registration.siblings registrations with
  | nil => infer_instance
  | cons first rest => cases h : first.count <;> simp only [h] <;> infer_instance

/-- All registrations of the target and calldata are the same, their gas with the stipend is a
word, and no call that the inspector answers matches them. -/
def Regular : Prop :=
  (∀ other ∈ registration.siblings registrations, other = registration) ∧
    (∀ gas ∈ registration.gas, gas.toNat + registration.stipend < 2 ^ 64) ∧
    (∀ minGas ∈ registration.minGas, minGas.toNat + registration.stipend < 2 ^ 64) ∧
    ∀ call ∈ calls, call.cheatcodeCall = true → ¬ registration.Matches call

instance : Decidable (registration.Regular registrations calls) :=
  inferInstanceAs (Decidable (_ ∧ _ ∧ _ ∧ _))

end CallRegistration

end Foundry.Cheatcodes
