import Foundry.Base.Runs
import Foundry.Common.ArtifactLookup

/-!
# The fuzz dictionary

Values for fuzzed inputs are collected from the database before a test, and from the logs, the
results and the state changes of its calls.  At the end of a run the dictionary is cut back to what
the database gave.  Samples with a type are kept across runs, up to the depth of a run for each
type; only those from logs and results are held to that limit.

The decoders of events and of results, and the type that the storage layout gives to a value, are
parameters.
-/

namespace Foundry.Fuzz

open Common Runs List

/-! ## The dictionary -/

structure FuzzDictionaryConfig where
  includeStorage : Bool
  includePushBytes : Bool
  maxFuzzDictionaryValues : Nat
  maxFuzzDictionaryAddresses : Nat

/-- Sets that keep the order of insertion are lists.  The types of samples are `T`. -/
structure FuzzDictionary (T : Type) where
  stateValues : List B256
  addresses : List Address
  config : FuzzDictionaryConfig
  dbStateValues : Nat
  dbAddresses : Nat
  sampleValues : HashMap T (List B256)
  misses : Nat
  hits : Nat

/-- The insertion into a set that keeps its order. -/
def insertIndexed {α : Type} [DecidableEq α] (set : List α) (a : α) : List α :=
  if a ∈ set then set else set ++ [a]

/-- The word of a list of bytes, the high byte first. -/
def wordOfBytes (bytes : Bytes) : B256 :=
  BitVec.ofNat 256 (bytes.foldl (fun n byte => 256 * n + byte.toNat) 0)

def wordOfAddress (address : Address) : B256 := address.setWidth 256

structure Log where
  topics : List B256
  data : Bytes

/-- The code and the storage of an account, the storage in the order it is visited in. -/
structure Account where
  code : Option Bytes
  storage : List (U256 × U256)

structure Function (V : Type) where
  hasOutputs : Bool
  abiDecodeOutput : Bytes → Option (List V)

/-- A call, with the artifacts of its target.  An event is its decoder, which gives the indexed
fields and the body. -/
structure Call (V L M : Type) where
  targetAbi : Option (List (Log → Option (List V × List V)))
  targetFunction : Option (Function V)
  result : Bytes
  logs : List Log
  stateChangeset : List (Address × Account)
  storageLayouts : Address → Option L
  mappingSlots : Address → Option M

def pushByteAnalysisLimit : Nat := 24 * 1024

namespace FuzzDictionary

variable {T V L M : Type} [DecidableEq T]

def insertValue (d : FuzzDictionary T) (value : B256) : FuzzDictionary T :=
  if d.stateValues.length < d.config.maxFuzzDictionaryValues then
    let newValue := decide (value ∉ d.stateValues)
    { d with
      stateValues := insertIndexed d.stateValues value
      misses := if newValue then d.misses + 1 else d.misses
      hits := if newValue then d.hits else d.hits + 1 }
  else d

def insertAddress (d : FuzzDictionary T) (address : Address) : FuzzDictionary T :=
  if d.addresses.length < d.config.maxFuzzDictionaryAddresses then
    { d with addresses := insertIndexed d.addresses address }
  else d

def insertPushValue (d : FuzzDictionary T) (pushValue : U256) : FuzzDictionary T :=
  if pushValue = 0 then d
  else
    let d := (d.insertValue pushValue).insertValue (pushValue - 1)
    if pushValue = BitVec.allOnes 256 then d else d.insertValue (pushValue + 1)

def collectPushBytesFrom (code : Bytes) (i : Nat) (d : FuzzDictionary T) : FuzzDictionary T :=
  if h : i < min code.length pushByteAnalysisLimit then
    let op := code.get ⟨i, by omega⟩
    if 0x60 ≤ op ∧ op ≤ 0x7f then
      let pushSize := (op - 0x60 + 1).toNat
      let pushStart := i + 1
      let pushEnd := pushStart + pushSize
      if code.length < pushStart ∨ code.length < pushEnd then d
      else
        collectPushBytesFrom code (i + pushSize + 1)
          (d.insertPushValue (wordOfBytes ((code.drop pushStart).take pushSize)))
    else collectPushBytesFrom code (i + 1) d
  else d
termination_by code.length - i

def collectPushBytes (d : FuzzDictionary T) (code : Bytes) : FuzzDictionary T :=
  collectPushBytesFrom code 0 d

section Parameters

variable (isCbor : Bytes → Bool) (slotType : L → Option M → B256 → B256 → Option T)
  (asType : V → Option T) (asWord : V → Option B256)

def ignoreMetadataHash (bytecode : Bytes) : Bytes :=
  match findMetadataStart isCbor bytecode with
  | some metadata => bytecode.take metadata
  | none => bytecode

def insertPushBytesValues (d : FuzzDictionary T) (address : Address) (account : Account) :
    FuzzDictionary T :=
  if d.config.includePushBytes && !d.addresses.contains address then
    match account.code with
    | some code => (d.insertAddress address).collectPushBytes (ignoreMetadataHash isCbor code)
    | none => d
  else d

/-- The type of a value is what the layout identifies the slot as, if the value can be decoded so;
a value with a type becomes a sample. -/
def insertStorageValue (layout : Option L) (mappingSlots : Option M) (d : FuzzDictionary T)
    (entry : U256 × U256) : FuzzDictionary T :=
  let d := d.insertValue entry.1
  match layout.bind fun layout => slotType layout mappingSlots entry.1 entry.2 with
  | some type =>
    { d with
      sampleValues :=
        d.sampleValues.insert type (insertIndexed ((d.sampleValues.get type).getD []) entry.2) }
  | none =>
    let d := d.insertValue entry.2
    let d := if entry.2 = 0 then d else d.insertValue (entry.2 - 1)
    if entry.2 = BitVec.allOnes 256 then d else d.insertValue (entry.2 + 1)

def insertAccount (layout : Option L) (mappingSlots : Option M) (d : FuzzDictionary T)
    (account : Address × Account) : FuzzDictionary T :=
  let d := d.insertValue (wordOfAddress account.1)
  let d := d.insertPushBytesValues isCbor account.1 account.2
  if d.config.includeStorage then
    account.2.storage.foldl (insertStorageValue slotType layout mappingSlots) d
  else d

def insertNewStateValues (stateChangeset : List (Address × Account))
    (storageLayouts : Address → Option L) (mappingSlots : Address → Option M)
    (d : FuzzDictionary T) : FuzzDictionary T :=
  stateChangeset.foldl
    (fun d account =>
      d.insertAccount isCbor slotType (storageLayouts account.1) (mappingSlots account.1) account)
    d

/-- A sample of one type; those beyond the limit are values without a type. -/
def insertSampleValue (limit : Nat) (d : FuzzDictionary T) (sample : V) : FuzzDictionary T :=
  match asType sample, asWord sample with
  | some sampleType, some sampleValue =>
    match d.sampleValues.get sampleType with
    | some values =>
      if values.length < limit then
        { d with
          sampleValues := d.sampleValues.insert sampleType (insertIndexed values sampleValue) }
      else d.insertValue sampleValue
    | none => { d with sampleValues := d.sampleValues.insert sampleType [sampleValue] }
  | _, _ => d

section

variable (d : FuzzDictionary T)

def insertSampleValues (samples : List V) (limit : Nat) : FuzzDictionary T :=
  samples.foldl (insertSampleValue asType asWord limit) d

def decodeLog (abi : Option (List (Log → Option (List V × List V)))) (log : Log) :
    Option (List V) :=
  abi.bind fun events =>
    events.findSome? fun decodeEvent => (decodeEvent log).map fun decoded => decoded.1 ++ decoded.2

def insertRawLog (log : Log) : FuzzDictionary T :=
  let d := log.topics.foldl insertValue d
  let chunks := (List.range (log.data.length / 32)).map fun i => (log.data.drop (32 * i)).take 32
  let rem := log.data.drop (32 * (log.data.length / 32))
  let d := (chunks.map wordOfBytes).foldl insertValue d
  if rem.isEmpty then d
  else d.insertValue (wordOfBytes (rem ++ List.replicate (32 - rem.length) 0))

def insertLogsValues
    (abi : Option (List (Log → Option (List V × List V)))) (logs : List Log) (runDepth : Nat) :
    FuzzDictionary T :=
  let collected := logs.foldl
    (fun (collected : FuzzDictionary T × List V) log =>
      match decodeLog abi log with
      | some samples => (collected.1, collected.2 ++ samples)
      | none => (collected.1.insertRawLog log, collected.2))
    (d, [])
  collected.1.insertSampleValues asType asWord collected.2 runDepth

def decodeResult (function : Option (Function V)) (result : Bytes) : List V :=
  match function with
  | some function =>
    if function.hasOutputs then (function.abiDecodeOutput result).getD [] else []
  | none => []

def insertResultValues (function : Option (Function V)) (result : Bytes)
    (runDepth : Nat) : FuzzDictionary T :=
  d.insertSampleValues asType asWord (decodeResult function result) runDepth

end

def collectValuesFromCall (runDepth : Nat) (d : FuzzDictionary T) (call : Call V L M) :
    FuzzDictionary T :=
  let d := d.insertLogsValues asType asWord call.targetAbi call.logs runDepth
  let d := d.insertResultValues asType asWord call.targetFunction call.result runDepth
  d.insertNewStateValues isCbor slotType call.stateChangeset call.storageLayouts call.mappingSlots

def new (config : FuzzDictionaryConfig) : FuzzDictionary T :=
  insertValue ⟨[], [], config, 0, 0, .empty, 0, 0⟩ 0

/-- The accounts and their storage come in order; the random address is for an empty dictionary. -/
def insertDbValues (dbState : List (Address × Account)) (random : Address)
    (d : FuzzDictionary T) : FuzzDictionary T :=
  let d := dbState.foldl (insertAccount isCbor slotType none none) d
  let d := if d.stateValues.isEmpty then d.insertValue (wordOfAddress random) else d
  { d with dbStateValues := d.stateValues.length, dbAddresses := d.addresses.length }

def revert (d : FuzzDictionary T) : FuzzDictionary T :=
  { d with
    stateValues := d.stateValues.take d.dbStateValues
    addresses := d.addresses.take d.dbAddresses }

/-- `EvmFuzzState::new`. -/
def ofDatabase (config : FuzzDictionaryConfig) (dbState : List (Address × Account))
    (random : Address) : FuzzDictionary T :=
  (new config).insertDbValues isCbor slotType dbState random

end Parameters

/-! ## What collecting can do -/

def typedSamples (d : FuzzDictionary T) (type : T) : List B256 := (d.sampleValues.get type).getD []

/-- Values and addresses are added behind those there, and samples only if they are `entered`, and
not beyond the limit. -/
structure Grows (entered : T → B256 → Prop) (limit : Nat) (d d' : FuzzDictionary T) : Prop where
  stateValues : d.stateValues.IsPrefix d'.stateValues
  addresses : d.addresses.IsPrefix d'.addresses
  config : d'.config = d.config
  dbStateValues : d'.dbStateValues = d.dbStateValues
  dbAddresses : d'.dbAddresses = d.dbAddresses
  kept : ∀ type, ∀ value ∈ d.typedSamples type, value ∈ d'.typedSamples type
  new : ∀ type, ∀ value ∈ d'.typedSamples type, value ∈ d.typedSamples type ∨ entered type value
  bounded : ∀ type, (d'.typedSamples type).length ≤ max limit (d.typedSamples type).length

section Growth

variable {entered : T → B256 → Prop} {limit : Nat} {d d' d'' : FuzzDictionary T} {α : Type}

theorem Grows.of_sampleValues (hvalues : d.stateValues.IsPrefix d'.stateValues)
    (haddresses : d.addresses.IsPrefix d'.addresses) (hconfig : d'.config = d.config)
    (hdbValues : d'.dbStateValues = d.dbStateValues) (hdbAddresses : d'.dbAddresses = d.dbAddresses)
    (hsamples : d'.sampleValues = d.sampleValues) : Grows entered limit d d' := by
  have hsame : ∀ type, d'.typedSamples type = d.typedSamples type := fun type => by
    rw [typedSamples, typedSamples, hsamples]
  refine ⟨hvalues, haddresses, hconfig, hdbValues, hdbAddresses, ?_, ?_, ?_⟩ <;> intro type
  · rw [hsame]
    exact fun _ => id
  · rw [hsame]
    exact fun _ => Or.inl
  · rw [hsame]
    exact Nat.le_max_right _ _

theorem Grows.refl (d : FuzzDictionary T) : Grows entered limit d d :=
  .of_sampleValues (prefix_refl _) (prefix_refl _) rfl rfl rfl rfl

theorem Grows.trans (h : Grows entered limit d d') (h' : Grows entered limit d' d'') :
    Grows entered limit d d'' where
  stateValues := h.stateValues.trans h'.stateValues
  addresses := h.addresses.trans h'.addresses
  config := h'.config.trans h.config
  dbStateValues := h'.dbStateValues.trans h.dbStateValues
  dbAddresses := h'.dbAddresses.trans h.dbAddresses
  kept type value hvalue := h'.kept type value (h.kept type value hvalue)
  new type value hvalue := by
    rcases h'.new type value hvalue with hbefore | hentered
    · exact h.new type value hbefore
    · exact .inr hentered
  bounded type := by
    have hfirst := h.bounded type
    have hsecond := h'.bounded type
    omega

theorem Grows.ite {p : Prop} [Decidable p] (h : Grows entered limit d d')
    (h' : Grows entered limit d d'') : Grows entered limit d (if p then d' else d'') := by
  split
  · exact h
  · exact h'

theorem Grows.foldl {f : FuzzDictionary T → α → FuzzDictionary T} {l : List α}
    (hstep : ∀ d', Grows entered limit d d' → ∀ a ∈ l, Grows entered limit d' (f d' a)) :
    Grows entered limit d (l.foldl f d) := by
  suffices h : ∀ d', Grows entered limit d d' → Grows entered limit d (l.foldl f d') from
    h d (.refl d)
  induction l with
  | nil => exact fun d' h => h
  | cons a l ih =>
    intro d' h
    refine ih (fun d'' h'' b hb => hstep d'' h'' b (mem_cons_of_mem _ hb)) _ ?_
    exact h.trans (hstep d' h a mem_cons_self)

theorem isPrefix_insertIndexed [DecidableEq α] (set : List α) (a : α) :
    set.IsPrefix (insertIndexed set a) := by
  unfold insertIndexed
  split
  · exact prefix_refl _
  · exact prefix_append _ _

private theorem mem_insertIndexed [DecidableEq α] {set : List α} {a b : α} :
    b ∈ insertIndexed set a ↔ b ∈ set ∨ b = a := by
  unfold insertIndexed
  split
  · next h => exact ⟨Or.inl, fun hb => hb.elim id fun heq => heq ▸ h⟩
  · simp

section

variable (d)

theorem grows_insertValue (value : B256) : Grows entered limit d (d.insertValue value) := by
  refine .ite ?_ (.refl d)
  exact .of_sampleValues (isPrefix_insertIndexed _ _) (prefix_refl _) rfl rfl rfl rfl

theorem grows_insertAddress (address : Address) :
    Grows entered limit d (d.insertAddress address) := by
  refine .ite ?_ (.refl d)
  exact .of_sampleValues (prefix_refl _) (isPrefix_insertIndexed _ _) rfl rfl rfl rfl

theorem grows_setSamples {type : T} {values : List B256}
    (hkept : ∀ value ∈ d.typedSamples type, value ∈ values)
    (hnew : ∀ value ∈ values, value ∈ d.typedSamples type ∨ entered type value)
    (hbounded : values.length ≤ max limit (d.typedSamples type).length) :
    Grows entered limit d { d with sampleValues := d.sampleValues.insert type values } := by
  have hsamples : ∀ type', ({ d with
      sampleValues := d.sampleValues.insert type values } : FuzzDictionary T).typedSamples type' =
      if type' = type then values else d.typedSamples type' := fun type' => by
    simp only [typedSamples, HashMap.get_insert]
    split <;> rfl
  refine ⟨prefix_refl _, prefix_refl _, rfl, rfl, rfl, ?_, ?_, ?_⟩ <;> intro type' <;>
    rw [hsamples] <;> split
  · next heq => exact heq ▸ hkept
  · exact fun _ => id
  · next heq => exact heq ▸ hnew
  · exact fun _ => Or.inl
  · next heq => exact heq ▸ hbounded
  · exact Nat.le_max_right _ _

theorem grows_insertPushValue (pushValue : U256) :
    Grows entered limit d (d.insertPushValue pushValue) := by
  have hboth : Grows entered limit d ((d.insertValue pushValue).insertValue (pushValue - 1)) :=
    (grows_insertValue d pushValue).trans (grows_insertValue _ _)
  exact .ite (.refl d) (.ite hboth (hboth.trans (grows_insertValue _ _)))

end

theorem grows_collectPushBytesFrom (code : Bytes) (i : Nat) (d : FuzzDictionary T) :
    Grows entered limit d (collectPushBytesFrom code i d) := by
  fun_induction collectPushBytesFrom code i d with
  | case1 => exact .refl _
  | case2 _ _ _ _ _ _ _ _ _ ih => exact (grows_insertPushValue _ _).trans ih
  | case3 _ _ _ _ _ ih => exact ih
  | case4 => exact .refl _

section Parameters

variable (isCbor : Bytes → Bool) (slotType : L → Option M → B256 → B256 → Option T)
  (asType : V → Option T) (asWord : V → Option B256)

theorem grows_insertPushBytesValues (d : FuzzDictionary T) (address : Address)
    (account : Account) :
    Grows entered limit d (d.insertPushBytesValues isCbor address account) := by
  unfold insertPushBytesValues
  split
  · split
    · exact (grows_insertAddress d address).trans (grows_collectPushBytesFrom _ _ _)
    · exact .refl d
  · exact .refl d

/-- The value of an entry is one of the samples of its type, if it has one. -/
def EntryKnown (layout : Option L) (mappingSlots : Option M) (d : FuzzDictionary T)
    (entry : U256 × U256) : Prop :=
  ∀ type ∈ layout.bind fun layout => slotType layout mappingSlots entry.1 entry.2,
    entry.2 ∈ d.typedSamples type

instance (layout : Option L) (mappingSlots : Option M) (d : FuzzDictionary T)
    (entry : U256 × U256) : Decidable (EntryKnown slotType layout mappingSlots d entry) :=
  Option.decidableForallMem _

def AccountKnown (layout : Option L) (mappingSlots : Option M) (d : FuzzDictionary T)
    (account : Address × Account) : Prop :=
  ∀ entry ∈ account.2.storage, d.EntryKnown slotType layout mappingSlots entry

-- over the entries, not over all pairs of words
instance (layout : Option L) (mappingSlots : Option M) (d : FuzzDictionary T)
    (account : Address × Account) :
    Decidable (AccountKnown slotType layout mappingSlots d account) :=
  List.decidableBAll _ _

section

variable (d) {layout : Option L} {mappingSlots : Option M}

theorem grows_insertStorageValue {entry : U256 × U256}
    (hknown : d.EntryKnown slotType layout mappingSlots entry) :
    Grows entered limit d (d.insertStorageValue slotType layout mappingSlots entry) := by
  have hslot : Grows entered limit d (d.insertValue entry.1) := grows_insertValue d _
  unfold insertStorageValue
  simp only
  split
  · next type htype =>
    have hmem : entry.2 ∈ (d.insertValue entry.1).typedSamples type :=
      hslot.kept type _ (hknown type htype)
    have hsame : insertIndexed (((d.insertValue entry.1).sampleValues.get type).getD []) entry.2 =
        (d.insertValue entry.1).typedSamples type :=
      if_pos hmem
    rw [hsame]
    apply hslot.trans
    apply grows_setSamples
    · exact fun _ => id
    · exact fun _ => Or.inl
    · exact Nat.le_max_right _ _
  · have hvalue : Grows entered limit d ((d.insertValue entry.1).insertValue entry.2) :=
      hslot.trans (grows_insertValue _ _)
    have hbelow := hvalue.ite (p := entry.2 = 0) (hvalue.trans (grows_insertValue _ (entry.2 - 1)))
    exact hbelow.ite (hbelow.trans (grows_insertValue _ _))

theorem grows_insertAccount {account : Address × Account} (hknown : d.config.includeStorage = true →
      d.AccountKnown slotType layout mappingSlots account) :
    Grows entered limit d (d.insertAccount isCbor slotType layout mappingSlots account) := by
  have hpush : Grows entered limit d
      ((d.insertValue (wordOfAddress account.1)).insertPushBytesValues isCbor account.1
        account.2) :=
    (grows_insertValue d _).trans (grows_insertPushBytesValues isCbor _ _ _)
  unfold insertAccount
  simp only
  split
  · next hstorage =>
    rw [hpush.config] at hstorage
    apply hpush.trans
    apply Grows.foldl
    intro d' hd' entry hentry
    apply grows_insertStorageValue
    intro type htype
    exact (hpush.trans hd').kept type _ (hknown hstorage entry hentry type htype)
  · exact hpush

/-- The typed values in the state changes of a call are samples already. -/
def StorageKnown (d : FuzzDictionary T) (call : Call V L M) : Prop :=
  d.config.includeStorage = true → ∀ account ∈ call.stateChangeset,
    d.AccountKnown slotType (call.storageLayouts account.1) (call.mappingSlots account.1) account

instance (d : FuzzDictionary T) (call : Call V L M) : Decidable (StorageKnown slotType d call) :=
  have : Decidable (∀ account ∈ call.stateChangeset, d.AccountKnown slotType
      (call.storageLayouts account.1) (call.mappingSlots account.1) account) :=
    List.decidableBAll _ _
  inferInstanceAs (Decidable (_ → _))

/-- The first sample of a type is kept whatever the limit is. -/
theorem grows_insertSampleValue (hlimit : 1 ≤ limit) (d : FuzzDictionary T) {sample : V}
    (hentered : ∀ type value, asType sample = some type → asWord sample = some value →
      entered type value) :
    Grows entered limit d (d.insertSampleValue asType asWord limit sample) := by
  unfold insertSampleValue
  split
  · next type value htype hword =>
    have hnew := hentered type value htype hword
    split
    · next values hvalues =>
      have hsamples : d.typedSamples type = values := by rw [typedSamples, hvalues]; rfl
      split
      · next hroom =>
        apply grows_setSamples <;> rw [hsamples]
        · exact fun other hother => mem_insertIndexed.mpr (.inl hother)
        · intro other hother
          rcases mem_insertIndexed.mp hother with hother | rfl
          · exact .inl hother
          · exact .inr hnew
        · unfold insertIndexed
          split
          · simp
          · simp
            omega
      · exact grows_insertValue d value
    · next hnone =>
      have hsamples : d.typedSamples type = [] := by rw [typedSamples, hnone]; rfl
      apply grows_setSamples <;> rw [hsamples]
      · simp
      · intro other hother
        rw [mem_singleton] at hother
        exact .inr (hother ▸ hnew)
      · rw [length_singleton]
        omega
  · exact .refl d

theorem grows_insertSampleValues (hlimit : 1 ≤ limit) (d : FuzzDictionary T) {samples : List V}
    (hentered : ∀ sample ∈ samples, ∀ type value, asType sample = some type →
      asWord sample = some value → entered type value) :
    Grows entered limit d (d.insertSampleValues asType asWord samples limit) := by
  apply Grows.foldl
  intro d' _ sample hsample
  exact grows_insertSampleValue asType asWord hlimit d' (hentered sample hsample)

theorem grows_insertRawLog (log : Log) : Grows entered limit d (d.insertRawLog log) := by
  have hvalues : ∀ (d : FuzzDictionary T) (values : List B256),
      Grows entered limit d (values.foldl insertValue d) := fun d values =>
    .foldl fun d' _ value _ => grows_insertValue d' value
  apply Grows.ite
  · exact (hvalues _ _).trans (hvalues _ _)
  · exact ((hvalues _ _).trans (hvalues _ _)).trans (grows_insertValue _ _)

end

def logSamples (abi : Option (List (Log → Option (List V × List V)))) (logs : List Log) : List V :=
  logs.flatMap fun log => (decodeLog abi log).getD []

theorem grows_insertLogsValues (hlimit : 1 ≤ limit) (d : FuzzDictionary T)
    {abi : Option (List (Log → Option (List V × List V)))} {logs : List Log}
    (hentered : ∀ sample ∈ logSamples abi logs, ∀ type value, asType sample = some type →
      asWord sample = some value → entered type value) :
    Grows entered limit d (d.insertLogsValues asType asWord abi logs limit) := by
  have hloop : ∀ (logs : List Log) (d : FuzzDictionary T) (samples : List V),
      let collected := logs.foldl
        (fun (collected : FuzzDictionary T × List V) log =>
          match decodeLog abi log with
          | some samples => (collected.1, collected.2 ++ samples)
          | none => (collected.1.insertRawLog log, collected.2))
        (d, samples)
      Grows entered limit d collected.1 ∧ collected.2 = samples ++ logSamples abi logs := by
    intro logs
    induction logs with
    | nil => exact fun d samples => ⟨.refl d, (append_nil samples).symm⟩
    | cons log logs ih =>
      intro d samples
      simp only [foldl_cons, logSamples, flatMap_cons]
      cases decodeLog abi log with
      | some decoded =>
        have h := ih d (samples ++ decoded)
        exact ⟨h.1, h.2.trans (append_assoc _ _ _)⟩
      | none =>
        have h := ih (d.insertRawLog log) samples
        exact ⟨(grows_insertRawLog d log).trans h.1, h.2⟩
  have h := hloop logs d []
  apply h.1.trans
  apply grows_insertSampleValues asType asWord hlimit
  rw [h.2]
  exact hentered

/-- A log or the result of the call gives the sample. -/
def Gives (call : Call V L M) (type : T) (value : B256) : Prop :=
  ∃ sample ∈ logSamples call.targetAbi call.logs ++ decodeResult call.targetFunction call.result,
    asType sample = some type ∧ asWord sample = some value

/-- A call whose typed storage values are samples already enters those of its logs and of its
result only. -/
theorem grows_collectValuesFromCall (hlimit : 1 ≤ limit) {d : FuzzDictionary T}
    {call : Call V L M} (hknown : StorageKnown slotType d call) :
    Grows (Gives asType asWord call) limit d
      (d.collectValuesFromCall isCbor slotType asType asWord limit call) := by
  have hlogs : Grows (Gives asType asWord call) limit d
      (d.insertLogsValues asType asWord call.targetAbi call.logs limit) := by
    apply grows_insertLogsValues asType asWord hlimit
    exact fun sample hsample type value htype hword =>
      ⟨sample, mem_append_left _ hsample, htype, hword⟩
  have hresult : Grows (Gives asType asWord call) limit d
      ((d.insertLogsValues asType asWord call.targetAbi call.logs limit).insertResultValues
        asType asWord call.targetFunction call.result limit) := by
    apply hlogs.trans
    apply grows_insertSampleValues asType asWord hlimit
    exact fun sample hsample type value htype hword =>
      ⟨sample, mem_append_right _ hsample, htype, hword⟩
  apply hresult.trans
  apply Grows.foldl
  intro d' hd' account haccount
  apply grows_insertAccount
  intro hstorage entry hentry type htype
  rw [(hresult.trans hd').config] at hstorage
  exact (hresult.trans hd').kept type _ (hknown hstorage account haccount entry hentry type htype)

end Parameters

end Growth

/-! ## Runs -/

section Runs

variable (isCbor : Bytes → Bool) (slotType : L → Option M → B256 → B256 → Option T)
  (asType : V → Option T) (asWord : V → Option B256)

private theorem typedSamples_ofDatabase (config : FuzzDictionaryConfig)
    (dbState : List (Address × Account)) (random : Address) (type : T) :
    (ofDatabase isCbor slotType config dbState random).typedSamples type = [] := by
  have hnew : Grows (fun _ _ => False) 0 ⟨[], [], config, 0, 0, .empty, 0, 0⟩
      (new config : FuzzDictionary T) :=
    grows_insertValue _ _
  have hdb : Grows (fun _ _ => False) 0 (new config : FuzzDictionary T)
      (dbState.foldl (insertAccount isCbor slotType none none) (new config)) := by
    apply Grows.foldl
    intro d' _ account _
    apply grows_insertAccount
    simp [AccountKnown, EntryKnown]
  have hrandom : ∀ d : FuzzDictionary T, Grows (fun _ _ => False) 0 d
      (if d.stateValues.isEmpty then d.insertValue (wordOfAddress random) else d) :=
    fun d => .ite (grows_insertValue _ _) (.refl d)
  exact eq_nil_of_length_eq_zero (Nat.le_zero.mp
    (((hnew.trans hdb).trans (hrandom _)).bounded type))

inductive Event (V L M : Type) where
  | call (call : Call V L M)
  | revert

def step (runDepth : Nat) (d : FuzzDictionary T) : Event V L M → FuzzDictionary T
  | .call call => d.collectValuesFromCall isCbor slotType asType asWord runDepth call
  | .revert => d.revert

def KnownBefore (d : FuzzDictionary T) : Event V L M → Prop
  | .call call => StorageKnown slotType d call
  | .revert => True

instance (d : FuzzDictionary T) : (event : Event V L M) →
    Decidable (KnownBefore slotType d event)
  | .call call => inferInstanceAs (Decidable (StorageKnown slotType d call))
  | .revert => isTrue trivial

/-- What reverting leaves is what was there after construction, the samples come from logs and
results, and no type has more of them than a run has calls. -/
structure Hygienic (initial : FuzzDictionary T) (runDepth : Nat) (events : List (Event V L M))
    (d : FuzzDictionary T) : Prop where
  stateValues : d.revert.stateValues = initial.stateValues
  addresses : d.revert.addresses = initial.addresses
  given : ∀ type, ∀ value ∈ d.revert.typedSamples type,
    ∃ call, Event.call call ∈ events ∧ Gives asType asWord call type value
  bounded : ∀ type, (d.typedSamples type).length ≤ runDepth

structure Reached (initial : FuzzDictionary T) (runDepth : Nat) (events : List (Event V L M))
    (d : FuzzDictionary T) : Prop where
  stateValues : initial.stateValues.IsPrefix d.stateValues
  addresses : initial.addresses.IsPrefix d.addresses
  dbStateValues : d.dbStateValues = initial.stateValues.length
  dbAddresses : d.dbAddresses = initial.addresses.length
  given : ∀ type, ∀ value ∈ d.typedSamples type,
    ∃ call, Event.call call ∈ events ∧ Gives asType asWord call type value
  bounded : ∀ type, (d.typedSamples type).length ≤ runDepth

variable {asType asWord}

theorem Reached.hygienic {initial d : FuzzDictionary T} {runDepth : Nat}
    {events : List (Event V L M)} (h : Reached asType asWord initial runDepth events d) :
    Hygienic asType asWord initial runDepth events d where
  stateValues := by
    rw [revert, h.dbStateValues]
    exact (prefix_iff_eq_take.mp h.stateValues).symm
  addresses := by
    rw [revert, h.dbAddresses]
    exact (prefix_iff_eq_take.mp h.addresses).symm
  given := h.given
  bounded := h.bounded

theorem Reached.step {initial d : FuzzDictionary T} {runDepth : Nat} (hdepth : 1 ≤ runDepth)
    {events : List (Event V L M)} {event : Event V L M}
    (h : Reached asType asWord initial runDepth events d) (hknown : KnownBefore slotType d event) :
    Reached asType asWord initial runDepth (events ++ [event])
      (step isCbor slotType asType asWord runDepth d event) := by
  have hearlier : ∀ type, ∀ value ∈ d.typedSamples type,
      ∃ call, Event.call call ∈ events ++ [event] ∧ Gives asType asWord call type value := by
    intro type value hvalue
    obtain ⟨call, hcall, hgives⟩ := h.given type value hvalue
    exact ⟨call, mem_append_left _ hcall, hgives⟩
  cases event with
  | call call =>
    have hgrows := grows_collectValuesFromCall isCbor slotType asType asWord hdepth hknown
    refine ⟨h.stateValues.trans hgrows.stateValues, h.addresses.trans hgrows.addresses,
      hgrows.dbStateValues.trans h.dbStateValues, hgrows.dbAddresses.trans h.dbAddresses, ?_, ?_⟩
    · intro type value hvalue
      rcases hgrows.new type value hvalue with hbefore | hgives
      · exact hearlier type value hbefore
      · exact ⟨call, by simp, hgives⟩
    · intro type
      have hbefore := h.bounded type
      have hafter := hgrows.bounded type
      simp only [FuzzDictionary.step]
      omega
  | revert =>
    refine ⟨?_, ?_, h.dbStateValues, h.dbAddresses, hearlier, h.bounded⟩
    · exact h.hygienic.stateValues ▸ prefix_refl _
    · exact h.hygienic.addresses ▸ prefix_refl _

/-- As long as the typed values in the state changes of each call are samples already, the
dictionary stays clean. -/
theorem dictionary_hygiene (config : FuzzDictionaryConfig) (dbState : List (Address × Account))
    (random : Address) {runDepth : Nat} (hdepth : 1 ≤ runDepth) (events : List (Event V L M))
    (hknown : Every (step isCbor slotType asType asWord runDepth) (KnownBefore slotType)
      (ofDatabase isCbor slotType config dbState random) events) :
    ∀ before, before.IsPrefix events →
      Hygienic asType asWord (ofDatabase isCbor slotType config dbState random) runDepth before
        (run (step isCbor slotType asType asWord runDepth)
          (ofDatabase isCbor slotType config dbState random) before) := by
  intro before hbefore
  obtain ⟨rest, rfl⟩ := hbefore
  apply Reached.hygienic
  refine run_of_every ?_ ?_ (every_append.mp hknown).1
  · refine ⟨prefix_refl _, prefix_refl _, rfl, rfl, ?_, ?_⟩ <;>
      simp [typedSamples_ofDatabase]
  · exact fun events d event h hevent => h.step isCbor slotType hdepth hevent

end Runs

/-! A contract with one `uint256` in slot zero, which a call sets or returns. -/

def oneSlotType (_layout : Unit) (_mappingSlots : Option Unit) (slot _value : B256) : Option Unit :=
  if slot = 0 then some () else none

def setting (value : U256) : Event B256 Unit Unit :=
  .call
    { targetAbi := none
      targetFunction := none
      result := []
      logs := []
      stateChangeset := [(1, ⟨none, [(0, value)]⟩)]
      storageLayouts := fun _ => some ()
      mappingSlots := fun _ => none }

def returning (value : BitVec 8) : Event B256 Unit Unit :=
  .call
    { targetAbi := none
      targetFunction := some ⟨true, fun result => some [wordOfBytes result]⟩
      result := List.replicate 31 0 ++ [value]
      logs := []
      stateChangeset := []
      storageLayouts := fun _ => none
      mappingSlots := fun _ => none }

def oneAccount : FuzzDictionary Unit :=
  ofDatabase (fun _ => false) oneSlotType ⟨true, true, 100, 100⟩ [(1, ⟨some [0x60, 3], [(0, 4)]⟩)] 2

/-- The value that is set was returned before. -/
theorem dictionary_hygiene_returned :
    let events := [returning 7, setting 7, .revert]
    Every (step (fun _ => false) oneSlotType (fun _ => some ()) some 1)
        (KnownBefore oneSlotType) oneAccount events ∧
      ∀ before, before.IsPrefix events →
        Hygienic (fun _ => some ()) some oneAccount 1 before
          (run (step (fun _ => false) oneSlotType (fun _ => some ()) some 1) oneAccount before) :=
  ⟨by decide +kernel, dictionary_hygiene _ _ _ _ _ (by decide) _ (by decide +kernel)⟩

/-- A value that is only set stays in the dictionary, and so does one more than the run depth. -/
theorem dictionary_keeps_storage_values :
    ¬ Hygienic (fun _ => some ()) some oneAccount 1 [setting 7]
        (run (step (fun _ => false) oneSlotType (fun _ => some ()) some 1) oneAccount
          [setting 7]) ∧
      1 < ((run (step (fun _ => false) oneSlotType (fun _ => some ()) some 1) oneAccount
          [setting 7, setting 8]).typedSamples ()).length := by
  constructor
  · intro h
    obtain ⟨call, hcall, sample, hsample, -⟩ := h.given () 7 (by decide +kernel)
    simp only [setting, mem_singleton, Event.call.injEq] at hcall
    subst hcall
    simp [logSamples, decodeResult] at hsample
  · decide +kernel

end FuzzDictionary

end Foundry.Fuzz
